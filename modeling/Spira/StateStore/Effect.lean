import Spira.StateStore.Retry

/-!
# What a commit leaves of each key

The snapshots of a run, one revision after another: a revision no commit has is as the one before it
(`snapshots_induction`), and one that a commit has differs from it at the keys of the commit's
branch alone.  `Effect` says what each op of the branch leaves.

An item is known by its `modRev`: two snapshots that have one `modRev` of a key have one item of it
(`itemAt_eq_of_modRev`), so what a compare has found is all that was read.
-/

set_option autoImplicit false

namespace Spira.Store

open KeyPrefix (starts)

variable {P : Type}

/-! ## Items and their revisions -/

/-- **Snapshots that have one `modRev` of a key have one item of it.** -/
theorem itemAt_eq_of_modRev {w : World P} {a b : ℕ} {key : String}
    (h : (w.itemAt a key).map (·.modRev) = (w.itemAt b key).map (·.modRev)) :
    w.itemAt a key = w.itemAt b key := by
  have hentry (at_ : ℕ) : w.itemAt at_ key =
      ((liveEntry (entries w.store.history) key at_).bind LogEntry.version?).map
        (Item.ofVersion key) := by
    rw [World.itemAt, getElem?_snapshot]
  -- The entry a version is of has the version's revision, and is in the log.
  have hof {at_ : ℕ} {v : Version (Object P)}
      (hv : (liveEntry (entries w.store.history) key at_).bind LogEntry.version? = some v) :
      ∃ e ∈ entries w.store.history, e.rev = v.modRev ∧ e.version? = some v := by
    obtain ⟨e, he, hev⟩ := Option.bind_eq_some_iff.mp hv
    have hmem : e ∈ entries w.store.history := by
      have hf := (Option.filter_eq_some_iff.mp he).1
      exact List.mem_reverse.mp (List.mem_of_find?_eq_some hf)
    refine ⟨e, hmem, ?_, hev⟩
    rw [LogEntry.version?] at hev
    split at hev
    · rw [← Option.some.inj hev]
    · cases hev
  rw [hentry, hentry] at h ⊢
  cases ha : (liveEntry (entries w.store.history) key a).bind LogEntry.version? with
  | none =>
    rw [ha] at h
    cases hb : (liveEntry (entries w.store.history) key b).bind LogEntry.version? with
    | none => rfl
    | some v =>
      rw [hb] at h
      cases h
  | some v =>
    rw [ha] at h
    cases hb : (liveEntry (entries w.store.history) key b).bind LogEntry.version? with
    | none =>
      rw [hb] at h
      cases h
    | some v' =>
      rw [hb] at h
      have hrev : v.modRev = v'.modRev := Option.some.inj h
      obtain ⟨e, he, hr, hv⟩ := hof ha
      obtain ⟨e', he', hr', hv'⟩ := hof hb
      have hnodup : ((entries w.store.history).map (·.rev)).Nodup :=
        List.pairwise_map.mpr ((entries_pairwise w.store.increasing).imp
          fun {a b} hlt (hab : a.rev = b.rev) ↦ Rev.lt_irrefl b.rev (by rwa [hab] at hlt))
      have heq : e = e' :=
        List.inj_on_of_nodup_map hnodup he he' (hr.trans (hrev.trans hr'.symm))
      rw [heq, hv'] at hv
      rw [Option.some.inj hv]

/-! ## One revision after another -/

theorem itemAt_zero {w : World P} {key : String} : w.itemAt 0 key = none := by
  have hnone : w.store.history.filter (·.main ≤ 0) = [] := by
    rw [List.filter_eq_nil_iff]
    intro t ht
    have := (w.store.committed t ht).1
    simp only [decide_eq_true_eq]
    omega
  rw [World.itemAt, snapshot, hnone]
  simp

/-- No revision is above the head, so what is there of a key at the head is there at any later
one. -/
theorem itemAt_min (w : World P) (at_ : ℕ) : w.itemAt (min at_ w.store.head) = w.itemAt at_ := by
  have hfilter : w.store.history.filter (·.main ≤ min at_ w.store.head) =
      w.store.history.filter (·.main ≤ at_) := by
    refine List.filter_congr fun t ht ↦ ?_
    have hle := (w.store.committed t ht).2
    exact decide_eq_decide.mpr (by omega)
  funext key
  rw [World.itemAt, World.itemAt, snapshot, snapshot, hfilter]

/-- What a commit leaves of a key: what its batch last wrote of it, and otherwise what was there. -/
theorem Reachable.itemAt_succ {w : World P} (h : Reachable w) {c : Committed P}
    (hc : .committed c ∈ w.trace) (key : String) :
    w.itemAt (c.head + 1) key =
      match lastOf c.staged key with
      | some p => Staged.item (c.head + 1) p
      | none => w.itemAt c.head key := by
  obtain ⟨post, hpost⟩ := exists_suffix_of_mem hc
  obtain ⟨w₀, h₀, hg⟩ := h.planned hpost
  have hhead : (w₀.taken c.author c.ok c.staged).store.head = c.head + 1 := by rw [← h₀.head]; rfl
  have hnew : w.itemAt (c.head + 1) key = (w₀.taken c.author c.ok c.staged).cur key := by
    rw [hg.itemAt_eq _ hhead.ge, World.cur, hhead]
  have hold : w.itemAt c.head key = w₀.cur key := by
    rw [hg.itemAt_eq _ (by rw [hhead]; exact Nat.le_succ _), ← h₀.head]
    exact (grows_taken w₀ _ _ _).itemAt_eq _ (le_refl _) key
  rw [hnew, cur_taken, h₀.head]
  cases lastOf c.staged key with
  | some p => rfl
  | none => exact hold.symm

/-- A revision that no commit has is as the one before it. -/
theorem Reachable.itemAt_unused {w : World P} (h : Reachable w) {n : ℕ}
    (hn : ∀ c, .committed c ∈ w.trace → c.head ≠ n) : w.itemAt (n + 1) = w.itemAt n := by
  have hfilter : w.store.history.filter (·.main ≤ n + 1) = w.store.history.filter (·.main ≤ n) := by
    refine List.filter_congr fun t ht ↦ ?_
    rw [h.history, List.mem_reverse, List.mem_map] at ht
    obtain ⟨c, hc, rfl⟩ := ht
    have hne : c.head ≠ n := hn c (mem_commits.mp hc)
    have hiff : c.head + 1 ≤ n + 1 ↔ c.head + 1 ≤ n := by omega
    exact decide_eq_decide.mpr hiff
  funext key
  rw [World.itemAt, World.itemAt, snapshot, snapshot, hfilter]

/-- One revision further, a key is as it was or was written there. -/
theorem Reachable.itemAt_next {w : World P} (h : Reachable w) (n : ℕ) (key : String) :
    w.itemAt (n + 1) key = w.itemAt n key ∨
      ∀ i, w.itemAt (n + 1) key = some i → i.modRev.main = n + 1 := by
  by_cases hn : ∃ c, .committed c ∈ w.trace ∧ c.head = n
  · obtain ⟨c, hc, rfl⟩ := hn
    rw [h.itemAt_succ hc key]
    cases lastOf c.staged key with
    | none => exact .inl rfl
    | some p =>
      refine .inr fun i hi ↦ ?_
      obtain ⟨v, -, rfl⟩ := Option.map_eq_some_iff.mp hi
      rfl
  · exact .inl (by rw [h.itemAt_unused fun c hc hh ↦ hn ⟨c, hc, hh⟩])

theorem Reachable.modRev_le {w : World P} (h : Reachable w) {n : ℕ} {key : String} {i : Item P}
    (hi : w.itemAt n key = some i) : i.modRev.main ≤ n := by
  induction n with
  | zero =>
    rw [itemAt_zero] at hi
    cases hi
  | succ n ih =>
    obtain hsame | hnew := h.itemAt_next n key
    · rw [hsame] at hi
      exact Nat.le_succ_of_le (ih hi)
    · exact (hnew i hi).le

/-- A write's prior is what there was at the revision before. -/
theorem Reachable.prev_eq {w : World P} (h : Reachable w) {c : Committed P}
    (hc : .committed c ∈ w.trace) {s : Staged P} (hs : s ∈ c.staged) :
    s.prev = w.itemAt c.head s.key := by
  obtain ⟨post, hpost⟩ := exists_suffix_of_mem hc
  obtain ⟨w₀, h₀, hg⟩ := h.planned hpost
  have hle : c.head ≤ (w₀.taken c.author c.ok c.staged).store.head := by
    rw [← h₀.head]
    exact (grows_taken w₀ _ _ _).head_le
  rw [h₀.planned.prev s hs, World.cur, h₀.head, hg.itemAt_eq _ hle, ← h₀.head]
  exact ((grows_taken w₀ _ _ _).itemAt_eq _ le_rfl _).symm

/-- What a commit leaves of a key was created where it was, or is created by the commit. -/
theorem Reachable.createRev_next {w : World P} (h : Reachable w) {c : Committed P}
    (hc : .committed c ∈ w.trace) {key : String} {i : Item P}
    (hi : w.itemAt (c.head + 1) key = some i) :
    (∃ j, w.itemAt c.head key = some j ∧ i.createRev = j.createRev) ∨
      w.itemAt c.head key = none ∧ i.createRev.main = c.head + 1 := by
  rw [h.itemAt_succ hc key] at hi
  cases hl : lastOf c.staged key with
  | none =>
    rw [hl] at hi
    exact .inl ⟨i, hi, rfl⟩
  | some p =>
    rw [hl] at hi
    obtain ⟨-, hs, rfl⟩ := lastOf_some hl
    obtain ⟨v, -, rfl⟩ := Option.map_eq_some_iff.mp hi
    have hprev := h.prev_eq hc hs
    cases hp : p.1.prev with
    | none => exact .inr ⟨by rw [← hprev, hp], rfl⟩
    | some j => exact .inl ⟨j, by rw [← hprev, hp], rfl⟩

theorem Reachable.createRev_le {w : World P} (h : Reachable w) {n : ℕ} {key : String} {i : Item P}
    (hi : w.itemAt n key = some i) : i.createRev.main ≤ n := by
  induction n generalizing i with
  | zero =>
    rw [itemAt_zero] at hi
    cases hi
  | succ n ih =>
    by_cases hn : ∃ c, .committed c ∈ w.trace ∧ c.head = n
    · obtain ⟨c, hc, rfl⟩ := hn
      obtain ⟨j, hj, hcreate⟩ | ⟨-, hcreate⟩ := h.createRev_next hc hi
      · rw [hcreate]
        exact Nat.le_succ_of_le (ih hj)
      · exact hcreate.le
    · rw [h.itemAt_unused fun c hc hh ↦ hn ⟨c, hc, hh⟩] at hi
      exact Nat.le_succ_of_le (ih hi)

/-- **An item that is there at two revisions is there at those between.** -/
theorem Reachable.itemAt_between {w : World P} (h : Reachable w) {m n k : ℕ} {key : String}
    {i : Item P} (hm : w.itemAt m key = some i) (hk : w.itemAt k key = some i) (hmn : m ≤ n)
    (hnk : n ≤ k) : w.itemAt n key = some i := by
  induction k, hnk using Nat.le_induction with
  | base => exact hk
  | succ k hnk ih =>
    obtain hsame | hnew := h.itemAt_next k key
    · exact ih (hsame ▸ hk)
    · -- It was not written after the revision it was there at.
      have hle := h.modRev_le hm
      have heq := hnew i hk
      omega

/-- **What holds of the empty store and is kept by every commit holds of every revision.** -/
theorem Reachable.snapshots {w : World P} (h : Reachable w)
    {I : (String → Option (Item P)) → Prop} (hstart : I fun _ ↦ none)
    (hstep : ∀ c, .committed c ∈ w.trace → I (w.itemAt c.head) → I (w.itemAt (c.head + 1))) (n : ℕ) :
    I (w.itemAt n) := by
  induction n with
  | zero =>
    have hzero : w.itemAt 0 = fun _ ↦ none := funext fun _ ↦ itemAt_zero
    rw [hzero]
    exact hstart
  | succ n ih =>
    by_cases hn : ∃ c, .committed c ∈ w.trace ∧ c.head = n
    · obtain ⟨c, hc, rfl⟩ := hn
      exact hstep c hc ih
    · rw [h.itemAt_unused fun c hc hh ↦ hn ⟨c, hc, hh⟩]
      exact ih

/-! ## The ops of a branch -/

theorem nodup_of_firstDuplicate : ∀ {seen keys : List String},
    firstDuplicate seen keys = none → keys.Nodup ∧ ∀ k ∈ keys, k ∉ seen
  | _, [], _ => ⟨List.nodup_nil, by simp⟩
  | seen, k :: keys, h => by
    rw [firstDuplicate] at h
    split at h
    · cases h
    · rename_i hk
      obtain ⟨hnodup, hseen⟩ := nodup_of_firstDuplicate h
      refine ⟨List.nodup_cons.mpr ⟨fun hmem ↦ hseen k hmem List.mem_cons_self, hnodup⟩, ?_⟩
      intro k' hk'
      obtain rfl | hk' := List.mem_cons.mp hk'
      · exact hk
      · exact fun hmem ↦ hseen k' hk' (List.mem_cons_of_mem _ hmem)

theorem firstDuplicate_of_nodup : ∀ {seen keys : List String},
    keys.Nodup → (∀ k ∈ keys, k ∉ seen) → firstDuplicate seen keys = none
  | _, [], _, _ => rfl
  | seen, k :: keys, hnodup, hseen => by
    obtain ⟨hk, hnodup⟩ := List.nodup_cons.mp hnodup
    rw [firstDuplicate, if_neg (hseen k List.mem_cons_self)]
    refine firstDuplicate_of_nodup hnodup fun k' hk' hmem ↦ ?_
    obtain rfl | hmem := List.mem_cons.mp hmem
    · exact hk hk'
    · exact hseen k' (List.mem_cons_of_mem _ hk') hmem

namespace Contract

/-- The key is of none of the contract's own records. -/
def Plain (key : String) : Prop :=
  starts eventsPrefix key = false ∧ starts requestsPrefix key = false

/-- What the ops of a branch at `snap` leave of the keys, whose commit's revision is `main`. -/
structure Effect (snap after : String → Option (Item P)) (main : ℕ) (ops : List (Op P)) : Prop where
  untouched : ∀ key, Plain key → (∀ o ∈ ops, o.key ≠ key) → after key = snap key
  /-- An op is resolved as it stands, unless it deletes a key that is not there. -/
  resolved : ∀ o ∈ ops, Plain o.key →
    (∃ s sub, ResolvesTo snap s o ∧ after o.key = Staged.item main (s, sub)) ∨
      o = .delete o.key ∧ snap o.key = none ∧ after o.key = none

/-- An op comes to a write, unless it deletes a key that is not there. -/
theorem Resolved.written {snap : String → Option (Item P)} {ops : List (Op P)}
    {staged : List (Staged P)} (h : Resolved snap ops staged) {o : Op P} (ho : o ∈ ops) :
    (∃ s ∈ staged, s.key = o.key) ∨ o = .delete o.key ∧ snap o.key = none := by
  induction h with
  | nil => cases ho
  | @cons o' s ops staged hres _ ih =>
    obtain rfl | ho := List.mem_cons.mp ho
    · exact .inl ⟨s, List.mem_cons_self, hres.key_prev.1⟩
    · refine (ih ho).imp_left fun ⟨x, hx, hk⟩ ↦ ⟨x, List.mem_cons_of_mem _ hx, hk⟩
  | @dropped key _ _ habsent _ ih =>
    obtain rfl | ho := List.mem_cons.mp ho
    · exact .inr ⟨rfl, habsent⟩
    · exact ih ho

section Effect

variable {snap after : String → Option (Item P)} {head main : ℕ} {ops : List (Op P)} {key : String}

/-- **A batch built from ops of different keys has the effect of each.** -/
theorem Built.effect {req : Request P} {r : Record} {ok : Bool} {staged : List (Staged P)}
    (hb : Built snap head req r ok ops staged)
    (hkeys : ∀ o ∈ ops, ∀ o' ∈ ops, o.key = o'.key → o = o')
    (hafter : ∀ key, after key =
      match lastOf staged key with
      | some p => Staged.item (head + 1) p
      | none => snap key) : Effect snap after (head + 1) ops := by
  -- A write of a key that is none of the contract's own is one of the ops'.
  have hmem {s : Staged P} (hs : s ∈ staged) (hplain : Plain s.key) :
      ∃ o ∈ ops, ResolvesTo snap s o := by
    obtain h | ⟨-, rfl⟩ | ⟨subs, rfl⟩ := hb.mem hs
    · exact h
    · exact absurd (starts_requestKey req.id) (by simpa [requestWrite] using hplain.2)
    · exact absurd (starts_eventsKey (head + 1)) (by simpa [eventWrite] using hplain.1)
  refine ⟨fun key hplain hne ↦ ?_, fun o ho hplain ↦ ?_⟩
  · have hnone : lastOf staged key = none := by
      rw [lastOf_none]
      rintro s hs rfl
      obtain ⟨o, ho, hres⟩ := hmem hs hplain
      exact hne o ho hres.key_prev.1.symm
    rw [hafter, hnone]
  · rw [hafter]
    cases hl : lastOf staged o.key with
    | none =>
      have hnone := lastOf_none.mp hl
      obtain ⟨resolved, hres, rfl⟩ := hb
      obtain ⟨s, hs, hk⟩ | hdel := hres.written ho
      · exact absurd hk (hnone s (by simp [hs]))
      · exact .inr ⟨hdel.1, hdel.2, hdel.2⟩
    | some p =>
      obtain ⟨-, hs, hkey⟩ := lastOf_some hl
      obtain ⟨o', ho', hres⟩ := hmem hs (by rwa [hkey])
      obtain rfl : o' = o := hkeys o' ho' o ho (hres.key_prev.1.symm.trans hkey)
      exact .inl ⟨p.1, p.2, hres, rfl⟩

theorem keepMark_data (m : Option ℕ) (v : Object P) : (keepMark m v).data = v.data := by
  cases m <;> rfl

/-- What is put is there after, marked where the key was. -/
theorem Effect.put (h : Effect snap after main ops) {v : Object P} (ho : .put key v ∈ ops)
    (hplain : Plain key) :
    (after key).map (·.value) = some (keepMark ((snap key).bind Item.mark) v) := by
  obtain ⟨s, sub, hres, ha⟩ | ⟨hdel, -⟩ := h.resolved _ ho hplain
  · change after key = _ at ha
    obtain rfl := hres
    rw [ha]
    rfl
  · cases hdel

/-- What is deleted is gone after, unless it has finalizers. -/
theorem Effect.delete (h : Effect snap after main ops) (ho : .delete key ∈ ops)
    (hplain : Plain key)
    (hfree : ∀ i, snap key = some i → i.value.metadata.finalizers = []) : after key = none := by
  obtain ⟨s, sub, hres, ha⟩ | ⟨-, -, ha⟩ := h.resolved _ ho hplain
  · change after key = _ at ha
    obtain ⟨p, hp, ⟨-, rfl⟩ | ⟨hne, -⟩⟩ := hres
    · rw [ha]
      rfl
    · exact absurd (hfree p hp) hne
  · exact ha

end Effect

/-! ## Whose a commit is -/

variable [DecidableEq P] {cfg : Config P} {fuel : ℕ}

/-- One step, and a call it commits for is `c`. -/
structure Owned (c : Call P) (w w' : World P) : Prop where
  exact : Exact w w'
  author : ∀ k c', w'.trace = .committed k :: w.trace → k.author = .call c' → c' = c

section Owned

variable {c : Call P} {w w' : World P}

theorem Owned.take {author : Author P} {ok : Bool} {staged : List (Staged P)}
    (h : Exact w (w.taken author ok staged)) (hc : ∀ c', author = .call c' → c' = c) :
    Owned c w (w.taken author ok staged) where
  exact := h
  author k c' hk ha := by
    obtain ⟨hk, -⟩ := List.cons.inj hk
    obtain rfl := Happened.committed.inj hk
    exact hc c' ha

theorem Owned.of_trace (h : Exact w w') (ht : ∀ k, w'.trace ≠ .committed k :: w.trace) :
    Owned c w w' :=
  ⟨h, fun k _ hk ↦ absurd hk (ht k)⟩

instance : Calm (Owned c) where
  idle w := .of_trace (.idle w) fun _ ↦ List.ne_cons_self
  fail hfree := .of_trace (.fail hfree) fun _ h ↦ (nomatch (List.cons.inj h).1)
  stamp w := .of_trace (.stamp w) fun _ ↦ (stamp_trace w).symm ▸ List.ne_cons_self
  drop keys hfree hnow := .of_trace (.drop keys hfree hnow) fun _ ↦ List.ne_cons_self

/-- **A call commits for itself only.** -/
theorem call_owned (c : Call P) (hw : Reachable w) :
    Within (Owned c) (fun a w' ↦ Answered c a w') (call cfg fuel c) w := by
  have hexpire (keys : List String) : Expires keys (Owned c) :=
    fun hfree hp hplanned hres ↦ .take (expires_exact hfree hp hplanned hres) (by simp)
  have hcollect : Collects (Owned c) :=
    fun hfree hp hplanned hb ↦ .take (collects_exact hfree hp hplanned hb) (by simp)
  have hpermits : Permits c (Owned c) (Owned c) :=
    ⟨hexpire _, fun hfree hreq hp hchosen hb ↦
      .take (permits_exact.take hfree hreq hp hchosen hb) (by simp)⟩
  exact call_within hpermits hcollect hexpire hw

theorem grows_append (turns more : List (Turn Env ℕ (Call P))) :
    Grows (worldAt cfg fuel turns) (worldAt cfg fuel (turns ++ more)) := by
  induction more using List.reverseRecOn with
  | nil =>
    rw [List.append_nil]
    exact .refl _
  | append_singleton more m ih =>
    rw [← List.append_assoc]
    exact ih.trans (grows_snoc cfg fuel (turns ++ more) m)

/-- **In every run, a commit for a call is one of a call that was made before it.** -/
theorem runs_spawned (turns : List (Turn Env ℕ (Call P))) {k : Committed P} {c : Call P}
    (hk : .committed k ∈ (worldAt cfg fuel turns).trace) (ha : k.author = .call c) :
    ∃ pre post, turns = pre ++ .spawn c :: post ∧ (worldAt cfg fuel pre).store.head ≤ k.head := by
  have hkeep (turns : List (Turn Env ℕ (Call P))) :
      Reachable (worldAt cfg fuel turns) ∧ ∀ t ∈ (runs cfg fuel turns).threads,
        t.2.Keeps Later (Owned t.1) (fun _ _ ↦ True) (worldAt cfg fuel turns) :=
    Pool.threads_run (R := Later) (I := Reachable)
      (T := fun c p w ↦ p.Keeps Later (Owned c) (fun _ _ ↦ True) w) (fun h h' ↦ h.later h')
      (fun e _ _ ↦ .single (.env e _)) (fun d _ h ↦ h.reopen d)
      (fun c _ hw ↦ Prog.Keeps.imp (call_owned c hw) id id fun _ _ _ ↦ trivial)
      (fun h h' ↦ h.mono (fun h h' ↦ h.trans h') h')
      (fun h ↦ (h.turn (fun _ ↦ .refl) Calm.idle).imp_left fun h ↦ .single h.exact.next) .init turns
  induction turns using List.reverseRecOn with
  | nil => simp [worldAt, runs, Pool.run, World.init] at hk
  | append_singleton turns m ih =>
    -- A commit that was there before the last turn is of a call that was made before it.
    have hlater (hk : .committed k ∈ (worldAt cfg fuel turns).trace) :
        ∃ pre post, turns ++ [m] = pre ++ .spawn c :: post ∧
          (worldAt cfg fuel pre).store.head ≤ k.head := by
      obtain ⟨pre, post, hturns, hle⟩ := ih hk
      exact ⟨pre, post ++ [m], by rw [hturns]; simp, hle⟩
    cases m with
    | env e =>
      rw [worldAt_snoc] at hk
      exact hlater (by rwa [← env_trace e])
    | spawn call =>
      rw [worldAt_snoc] at hk
      exact hlater hk
    | restart now =>
      rw [worldAt_snoc] at hk
      exact hlater (List.mem_of_ne_of_mem (by simp) hk)
    | turn i =>
      obtain ⟨before, hsuf⟩ := exists_suffix_of_mem hk
      rcases (exact_turn cfg fuel turns i).next.trace hsuf with hsuf | ⟨-, -, hh, hnow, -, htaken⟩
      · exact hlater (hsuf.mem List.mem_cons_self)
      · have hturn : worldAt cfg fuel (turns ++ [.turn i]) = worldAt cfg fuel turns ∨
            ∃ c, .spawn c ∈ turns ∧
              Owned c (worldAt cfg fuel turns) (worldAt cfg fuel (turns ++ [.turn i])) :=
          Pool.spawned_turn (R := Later) (Q := fun _ _ _ ↦ True) (fun _ ↦ .refl)
            (fun _ ↦ Calm.idle) (hkeep turns).2 i
        obtain hidle | ⟨c', hspawn, hx⟩ := hturn
        · exact hlater (by rwa [hidle] at hk)
        · have htrace : (worldAt cfg fuel (turns ++ [.turn i])).trace =
              .committed k :: (worldAt cfg fuel turns).trace := by rw [htaken, World.taken, hh, hnow]
          obtain rfl : c = c' := hx.author k c htrace ha
          obtain ⟨pre, post, rfl⟩ := List.append_of_mem hspawn
          refine ⟨pre, post ++ [.turn i], by simp, ?_⟩
          rw [← hh]
          exact (grows_append pre (.spawn c :: post)).head_le

end Owned

/-! ## The commits of a run -/

/-- What a commit at `snap` was made of: the ops of a call's branch, or deletes of what has a TTL or
is collected. -/
def Acts (snap : String → Option (Item P)) (J : String → Bool → Prop) (ok : Bool)
    (ops : List (Op P)) : Author P → Prop
  | .call c => Chosen snap J ok ops c
  | .expire => ∃ keys : List String, ops = keys.map .delete ∧
      ∀ k ∈ keys, ∀ i, snap k = some i → (ttlMs k i.value).isSome
  | .collect kind => ∃ keys : List String, ops = keys.map .delete ∧
      ∀ k ∈ keys, ∃ i, snap k = some i ∧ Collectable snap i kind

/-- The ops of a branch that a call commits are of different keys. -/
theorem Chosen.nodup {snap : String → Option (Item P)} {J : String → Bool → Prop} {ok : Bool}
    {ops : List (Op P)} {c : Call P} (h : Chosen snap J ok ops c) (hp : Passes cfg c) :
    (ops.map Op.key).Nodup := by
  cases c with
  | txn t req =>
    obtain ⟨-, -, -, hlimits⟩ := hp
    rw [checkLimits] at hlimits
    split_ifs at hlimits
    split at hlimits
    · cases hlimits
    · rename_i hnone
      obtain ⟨hthen, helse⟩ := Option.or_eq_none_iff.mp hnone
      rw [h.1]
      split
      · exact (nodup_of_firstDuplicate hthen).1
      · exact (nodup_of_firstDuplicate helse).1
  | renew f req =>
    obtain ⟨-, -, i, -, rfl⟩ := h
    simp
  | renewFor f ttlMs req =>
    obtain ⟨-, -, rfl, -⟩ := h
    simp
  | tick lag => exact h.elim
  | _ =>
    obtain ⟨-, rfl, -⟩ := h
    simp

/-- **What each commit of a run leaves**, of the snapshot just before its revision. -/
theorem runs_effect (turns : List (Turn Env ℕ (Call P))) {c : Committed P}
    (hc : .committed c ∈ (worldAt cfg fuel turns).trace) :
    ∃ pre ops, (worldAt cfg fuel pre).store.head = c.head ∧
      Acts ((worldAt cfg fuel turns).itemAt c.head) ((worldAt cfg fuel pre).Judged c.head) c.ok ops
        c.author ∧
      Effect ((worldAt cfg fuel turns).itemAt c.head) ((worldAt cfg fuel turns).itemAt (c.head + 1))
        (c.head + 1) ops := by
  obtain ⟨before, hsuf⟩ := exists_suffix_of_mem hc
  obtain ⟨pre, i, post, hturns, hm⟩ := runs_made turns hsuf
  have hcur : (worldAt cfg fuel pre).cur = (worldAt cfg fuel turns).itemAt c.head :=
    funext fun key ↦ (hm.snapshot key).symm
  have hreachable : Reachable (worldAt cfg fuel turns) := (runs_keep turns).1
  have hafter := hreachable.itemAt_succ hc
  have hdecided := hm.atHead.decided
  have hdeletes (keys : List String) : ∀ o ∈ keys.map (Op.delete (P := P)),
      ∀ o' ∈ keys.map (Op.delete (P := P)), o.key = o'.key → o = o' := by
    intro o ho o' ho' hkey
    obtain ⟨k, -, rfl⟩ := List.mem_map.mp ho
    obtain ⟨k', -, rfl⟩ := List.mem_map.mp ho'
    exact congrArg Op.delete hkey
  rw [Decided, hcur] at hdecided
  cases ha : c.author with
  | call call =>
    rw [ha] at hdecided
    obtain ⟨req, ops, -, hchosen, hb⟩ := hdecided
    have hnodup := hchosen.nodup (runs_passed turns hc ha)
    exact ⟨pre, ops, hm.atHead.head.symm, hchosen, hb.effect
      (fun o ho o' ho' hk ↦ List.inj_on_of_nodup_map hnodup ho ho' hk) hafter⟩
  | expire =>
    rw [ha] at hdecided
    obtain ⟨keys, helapsed, hres⟩ := hdecided
    have hb : Built ((worldAt cfg fuel turns).itemAt c.head) c.head (gcRequest "")
        ⟨false, false, 0⟩ c.ok (keys.map .delete) c.staged := ⟨c.staged, hres, by simp⟩
    refine ⟨pre, _, hm.atHead.head.symm, ⟨keys, rfl, fun k hk i hi ↦ ?_⟩,
      hb.effect (hdeletes keys) hafter⟩
    obtain ⟨ttl, ht, -⟩ := helapsed k hk i (by rw [hcur, hi])
    rw [ht]
    rfl
  | collect kind =>
    rw [ha] at hdecided
    obtain ⟨keys, audited, hkeys, hb⟩ := hdecided
    exact ⟨pre, _, hm.atHead.head.symm, ⟨keys, rfl, hkeys⟩, hb.effect (hdeletes keys) hafter⟩

end Contract

end Spira.Store
