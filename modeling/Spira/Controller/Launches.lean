import Spira.Controller.Orphans

/-!
# One live runner per round

A round's last token names the runner that was launched last: a lease is recorded only while it is
held, so a token is replaced only by that of a lease taken over it.  The invariant is that every
other runner launched for the round was shown dead since, where each lease was taken over a token
whose runners were shown dead (`Minded.proven`), and no runner was launched once a newer lease had
been taken (`Minded.prompt`).  The source ensures neither: a re-drive's proof is of the token it was
listed with, and a launch is not fenced.
-/

set_option autoImplicit false

namespace Spira.Controller.Launches

open Records

/-! ## What is promised of the runs -/

structure Minded (told : List Happened) : Prop where
  proven {pre post : List Happened} {batch unit : String} {token expired : ℕ}
    (h : told = pre ++ .leased batch token (some expired) :: post)
    (hd : .drives batch expired unit ∈ pre) :
    List.Sublist [.drives batch expired unit, .dead unit] pre
  prompt (batch unit : String) {token token' : ℕ} (last : Option ℕ) (h : token < token') :
    ¬ List.Sublist [.leased batch token' last, .drives batch token unit] told

/-- A runner of a round is launched only when every runner launched for it before, under another
lease, was shown dead since. -/
def OneLive (told : List Happened) : Prop :=
  ∀ ⦃pre post : List Happened⦄ ⦃batch unit : String⦄ ⦃token : ℕ⦄,
    told = pre ++ .drives batch token unit :: post → ∀ ⦃token' : ℕ⦄ ⦃unit' : String⦄,
      .drives batch token' unit' ∈ pre → token' ≠ token →
        List.Sublist [.drives batch token' unit', .dead unit'] pre

theorem Minded.of_append {told new : List Happened} (h : Minded (told ++ new)) : Minded told where
  proven {pre post batch unit token expired} htold hd := by
    have hnew : told ++ new = pre ++ .leased batch token (some expired) :: (post ++ new) := by
      rw [htold, List.append_assoc, List.cons_append]
    exact h.proven hnew hd
  prompt batch unit _ _ last hlt hs :=
    h.prompt batch unit last hlt (hs.trans (List.sublist_append_left _ _))

/-- What comes before a launch that is not among the new was told before. -/
theorem OneLive.append {told new : List Happened} (h : OneLive told)
    (hnew : ∀ batch token unit, .drives batch token unit ∉ new) : OneLive (told ++ new) := by
  intro pre post batch unit token heq token' unit' hd hne
  rcases List.append_eq_append_iff.mp heq with ⟨mid, rfl, hmid⟩ | ⟨mid, hmid, hrest⟩
  · exact absurd (hmid ▸ List.mem_append_right _ List.mem_cons_self) (hnew batch token unit)
  · cases mid with
    | nil =>
      rw [List.append_nil] at hmid
      refine absurd ?_ (hnew batch token unit)
      rw [List.nil_append] at hrest
      exact hrest ▸ List.mem_cons_self
    | cons e mid =>
      obtain ⟨rfl, -⟩ := List.cons.inj hrest
      exact h hmid hd hne

theorem OneLive.launched {told : List Happened} {batch unit : String} {token : ℕ} (h : OneLive told)
    (hdead : ∀ token' unit', .drives batch token' unit' ∈ told → token' ≠ token →
      List.Sublist [.drives batch token' unit', .dead unit'] told) :
    OneLive (told ++ [.drives batch token unit]) := by
  intro pre post batch' unit₁ token₁ heq token' unit' hd hne
  rcases List.append_eq_append_iff.mp heq with ⟨mid, hpre, hmid⟩ | ⟨mid, hmid, hrest⟩
  · cases mid with
    | nil =>
      obtain ⟨he, -⟩ := List.cons.inj hmid
      obtain ⟨rfl, rfl, rfl⟩ := Happened.drives.inj he
      rw [hpre, List.append_nil] at hd ⊢
      exact hdead token' unit' hd hne
    | cons e mid => simp at hmid
  · cases mid with
    | nil =>
      obtain ⟨he, -⟩ := List.cons.inj hrest
      obtain ⟨rfl, rfl, rfl⟩ := Happened.drives.inj he
      rw [List.append_nil] at hmid
      rw [← hmid] at hd ⊢
      exact hdead token' unit' hd hne
    | cons e mid =>
      obtain ⟨rfl, -⟩ := List.cons.inj hrest
      exact h hmid hd hne

/-! ## The invariant -/

/-- The last token a round's record names. -/
def lastToken (w : World) (batch : String) : Option ℕ :=
  (w.store.items (.round batch)).bind (·.value.lastLeaseToken)

/-- The token of the live lease on a round. -/
def liveToken (w : World) (batch : String) : Option ℕ :=
  (w.store.items (.roundLock batch)).map (·.createRev)

/-- A newer lease on the round was told of. -/
def Replaced (w : World) (batch : String) (token : ℕ) : Prop :=
  ∃ token' last, token < token' ∧ .leased batch token' last ∈ w.told

structure Sound (w : World) : Prop where
  dated : w.store.Dated
  head {batch : String} {token : ℕ} (h : lastToken w batch = some token) : token ≤ w.store.head
  /-- The record names what it named when the lease was taken, or the lease itself. -/
  leased {batch : String} {token : ℕ} (h : liveToken w batch = some token) :
    ∃ last, .leased batch token last ∈ w.told ∧
      (lastToken w batch = last ∨ lastToken w batch = some token)
  ordered {batch : String} {token last : ℕ} (h : liveToken w batch = some token)
    (hlast : lastToken w batch = some last) : last ≤ token
  named (h : Minded w.told) {batch unit : String} {token : ℕ}
    (hd : .drives batch token unit ∈ w.told) : lastToken w batch = some token ∨
      List.Sublist [.drives batch token unit, .dead unit] w.told
  law (h : Minded w.told) : OneLive w.told

/-- What is left of an earlier world. -/
structure Onward (a b : World) : Prop where
  told : ∃ new, b.told = a.told ++ new
  store : Later a.store b.store
  /-- A token is replaced only by that of a newer lease. -/
  replaced (ha : Sound a) {batch : String} {token : ℕ} (h : lastToken a batch = some token) :
    lastToken b batch = some token ∨ Replaced b batch token
  sound : Sound a → Sound b

variable {a b c : World} {batch unit : String} {token : ℕ}

namespace Onward

theorem refl (a : World) : Onward a a := ⟨⟨[], (List.append_nil _).symm⟩, .refl _, fun _ _ _ ↦ .inl, id⟩

theorem mem_told (h : Onward a b) {e : Happened} (he : e ∈ a.told) : e ∈ b.told := by
  obtain ⟨new, hnew⟩ := h.told
  exact hnew ▸ List.mem_append_left _ he

theorem keeps_replaced (h : Onward a b) (hr : Replaced a batch token) : Replaced b batch token := by
  obtain ⟨token', last, hlt, hm⟩ := hr
  exact ⟨token', last, hlt, h.mem_told hm⟩

theorem trans (h : Onward a b) (h' : Onward b c) : Onward a c where
  told := by
    obtain ⟨new, hnew⟩ := h.told
    obtain ⟨new', hnew'⟩ := h'.told
    exact ⟨new ++ new', by rw [hnew', hnew, List.append_assoc]⟩
  store := h.store.trans h'.store
  replaced ha {_ _} ht := by
    rcases h.replaced ha ht with hb | hb
    · exact h'.replaced (h.sound ha) hb
    · exact .inr (h'.keeps_replaced hb)
  sound hs := h'.sound (h.sound hs)

end Onward

/-! ## Steps -/

section Steps

variable {new : List Happened}

/-- Neither a lease nor a launch is told of. -/
def Quiet (e : Happened) : Prop :=
  (∀ batch token last, e ≠ .leased batch token last) ∧
    ∀ batch token unit, e ≠ .drives batch token unit

/-- The runners launched before a step are still named by their round's record, or shown dead. -/
theorem Sound.named_append (ha : Sound a) (hm : Minded (a.told ++ new))
    (hd : .drives batch token unit ∈ a.told) : lastToken a batch = some token ∨
      List.Sublist [.drives batch token unit, .dead unit] (a.told ++ new) :=
  (ha.named hm.of_append hd).imp_right fun h ↦ h.trans (List.sublist_append_left _ _)

/-- A step that takes no lease, records none and launches nothing. -/
theorem onward_of_quiet (new : List Happened) (htold : b.told = a.told ++ new)
    (hnew : ∀ e ∈ new, Quiet e) (hstore : Later a.store b.store)
    (hdated : a.store.Dated → b.store.Dated) (hlast : ∀ batch, lastToken b batch = lastToken a batch)
    (hlive : ∀ batch token, liveToken b batch = some token → liveToken a batch = some token) :
    Onward a b where
  told := ⟨new, htold⟩
  store := hstore
  replaced _ _ _ h := .inl ((hlast _).trans h)
  sound ha :=
    { dated := hdated ha.dated
      head := fun h ↦ (ha.head ((hlast _).symm.trans h)).trans hstore.head
      leased := fun {batch token} h ↦ by
        obtain ⟨last, hm, hl⟩ := ha.leased (hlive batch token h)
        exact ⟨last, htold ▸ List.mem_append_left _ hm, by rwa [hlast]⟩
      ordered := fun h hl ↦ ha.ordered (hlive _ _ h) ((hlast _).symm.trans hl)
      named := fun hm {batch unit token} hd ↦ by
        rw [htold] at hm hd ⊢
        rw [hlast]
        rcases List.mem_append.mp hd with hd | hd
        · exact ha.named_append hm hd
        · exact absurd rfl ((hnew _ hd).2 batch token unit)
      law := fun hm ↦ by
        rw [htold] at hm ⊢
        exact (ha.law hm.of_append).append fun batch token unit h ↦ (hnew _ h).2 batch token unit rfl }

/-- A lease is taken, where there is none. -/
theorem onward_of_lease {last : Option ℕ} (hlive : liveToken b batch = some (a.store.head + 1))
    (hothers : ∀ batch', batch' ≠ batch → liveToken b batch' = liveToken a batch')
    (hlast : ∀ batch', lastToken b batch' = lastToken a batch') (hnamed : lastToken a batch = last)
    (htold : b.told = a.told ++ [.leased batch (a.store.head + 1) last])
    (hstore : Later a.store b.store) (hdated : a.store.Dated → b.store.Dated) : Onward a b where
  told := ⟨_, htold⟩
  store := hstore
  replaced _ _ _ h := .inl ((hlast _).trans h)
  sound ha :=
    { dated := hdated ha.dated
      head := fun h ↦ (ha.head ((hlast _).symm.trans h)).trans hstore.head
      leased := fun {batch' token} h ↦ by
        rw [hlast, htold]
        by_cases hb : batch' = batch
        · subst hb
          obtain rfl := Option.some.inj (hlive.symm.trans h)
          exact ⟨last, List.mem_append_right _ (List.mem_singleton_self _), .inl hnamed⟩
        · obtain ⟨last', hm, hl⟩ := ha.leased ((hothers batch' hb).symm.trans h)
          exact ⟨last', List.mem_append_left _ hm, hl⟩
      ordered := fun {batch' token last'} h hl ↦ by
        rw [hlast] at hl
        by_cases hb : batch' = batch
        · subst hb
          obtain rfl := Option.some.inj (hlive.symm.trans h)
          exact (ha.head hl).trans (Nat.le_succ _)
        · exact ha.ordered ((hothers batch' hb).symm.trans h) hl
      named := fun hm {batch' unit token} hd ↦ by
        rw [htold] at hm hd ⊢
        rw [hlast]
        rcases List.mem_append.mp hd with hd | hd
        · exact ha.named_append hm hd
        · simp at hd
      law := fun hm ↦ by
        rw [htold] at hm ⊢
        exact (ha.law hm.of_append).append fun _ _ _ h ↦ by simp at h }

/-- A token that the live lease replaces is an older one, over which it was taken. -/
theorem Sound.over (ha : Sound a) (hlive : liveToken a batch = some token) {last : ℕ}
    (h : lastToken a batch = some last) (hne : last ≠ token) :
    last < token ∧ .leased batch token (some last) ∈ a.told := by
  obtain ⟨last', hm, hl⟩ := ha.leased hlive
  rcases hl with hl | hl
  · obtain rfl : last' = some last := hl.symm.trans h
    exact ⟨lt_of_le_of_ne (ha.ordered hlive h) hne, hm⟩
  · exact absurd (Option.some.inj (h.symm.trans hl)) hne

/-- Its runners were shown dead before the lease was taken, and none was launched after. -/
theorem Minded.dead_of_over {told : List Happened} (hm : Minded told) {last : ℕ}
    (hlt : last < token) (hmem : .leased batch token (some last) ∈ told)
    (hd : .drives batch last unit ∈ told) :
    List.Sublist [.drives batch last unit, .dead unit] told := by
  obtain ⟨pre, post, rfl⟩ := List.append_of_mem hmem
  have hpre : .drives batch last unit ∈ pre := by
    refine (List.mem_append.mp hd).resolve_right fun hpost ↦ ?_
    refine hm.prompt batch unit (some last) hlt (List.Sublist.trans ?_ (List.sublist_append_right _ _))
    rcases List.mem_cons.mp hpost with h | h
    · cases h
    · exact .cons_cons _ (List.singleton_sublist.mpr h)
  exact (hm.proven rfl hpre).trans (List.sublist_append_left _ _)

/-- The live lease is recorded. -/
theorem onward_of_record (hlive : liveToken a batch = some token)
    (hlives : ∀ batch', liveToken b batch' = liveToken a batch')
    (hlast : lastToken b batch = some token)
    (hothers : ∀ batch', batch' ≠ batch → lastToken b batch' = lastToken a batch')
    (htold : b.told = a.told) (hstore : Later a.store b.store)
    (hdated : a.store.Dated → b.store.Dated) : Onward a b where
  told := ⟨[], htold.trans (List.append_nil _).symm⟩
  store := hstore
  replaced ha {batch' last} h := by
    by_cases hb : batch' = batch
    · subst hb
      by_cases ht : last = token
      · exact .inl (ht ▸ hlast)
      · obtain ⟨hlt, hm⟩ := ha.over hlive h ht
        exact .inr ⟨token, _, hlt, htold ▸ hm⟩
    · exact .inl ((hothers batch' hb).trans h)
  sound ha :=
    { dated := hdated ha.dated
      head := fun {batch' last} h ↦ by
        by_cases hb : batch' = batch
        · subst hb
          obtain rfl := Option.some.inj (hlast.symm.trans h)
          obtain ⟨lock, hlock, rfl⟩ := Option.map_eq_some_iff.mp hlive
          exact (ha.dated _ _ hlock).2.trans hstore.head
        · exact (ha.head ((hothers batch' hb).symm.trans h)).trans hstore.head
      leased := fun {batch' token'} h ↦ by
        rw [hlives] at h
        rw [htold]
        obtain ⟨last, hm, hl⟩ := ha.leased h
        refine ⟨last, hm, ?_⟩
        by_cases hb : batch' = batch
        · subst hb
          exact .inr (hlast.trans (hlive.symm.trans h))
        · rwa [hothers batch' hb]
      ordered := fun {batch' token' last} h hl ↦ by
        rw [hlives] at h
        by_cases hb : batch' = batch
        · subst hb
          obtain rfl := Option.some.inj (hlast.symm.trans hl)
          exact (Option.some.inj (hlive.symm.trans h)).le
        · exact ha.ordered h ((hothers batch' hb).symm.trans hl)
      named := fun hm {batch' unit last} hd ↦ by
        rw [htold] at hm hd ⊢
        rcases ha.named hm hd with h | h
        · by_cases hb : batch' = batch
          · subst hb
            by_cases ht : last = token
            · exact .inl (ht ▸ hlast)
            · obtain ⟨hlt, hmem⟩ := ha.over hlive h ht
              exact .inr (hm.dead_of_over hlt hmem hd)
          · exact .inl ((hothers batch' hb).trans h)
        · exact .inr h
      law := fun hm ↦ by
        rw [htold] at hm ⊢
        exact ha.law hm }

/-- A runner is launched under a lease that was recorded. -/
theorem onward_of_launch {r : Runner}
    (hrec : lastToken a batch = some token ∨ Replaced a batch token) :
    Onward a { a with alive := r :: a.alive, told := a.told ++ [.drives batch token r.unit] } where
  told := ⟨_, rfl⟩
  store := .refl _
  replaced _ _ _ := .inl
  sound ha := by
    have hlast (hm : Minded (a.told ++ [.drives batch token r.unit])) :
        lastToken a batch = some token := by
      refine hrec.resolve_right fun ⟨token', last, hlt, hmem⟩ ↦ hm.prompt batch r.unit last hlt ?_
      exact sublist_pair hmem (List.mem_singleton_self _)
    exact
      { dated := ha.dated
        head := ha.head
        leased := fun h ↦ by
          obtain ⟨last, hm, hl⟩ := ha.leased h
          exact ⟨last, List.mem_append_left _ hm, hl⟩
        ordered := ha.ordered
        named := fun hm {batch' unit token'} hd ↦ by
          rcases List.mem_append.mp hd with hd | hd
          · exact ha.named_append hm hd
          · obtain ⟨rfl, rfl, -⟩ := Happened.drives.inj (List.mem_singleton.mp hd)
            exact .inl (hlast hm)
        law := fun hm ↦ (ha.law hm.of_append).launched fun token' unit' hd hne ↦
          (ha.named hm.of_append hd).resolve_left fun h ↦
            hne (Option.some.inj (h.symm.trans (hlast hm))) }

end Steps

/-! ## Programs -/

theorem rules : Rules Onward Onward := ⟨.refl, Onward.trans, .refl, id⟩

/-- The keys that are neither a round's nor its lock's. -/
def Other (k : Key) : Prop := (∀ batch, k ≠ .round batch) ∧ ∀ batch, k ≠ .roundLock batch

theorem onward_of_tell {new : List Happened} (hnew : ∀ e ∈ new, Quiet e) : Onward a (a.tell new) :=
  onward_of_quiet new rfl hnew (.refl _) id (fun _ ↦ rfl) fun _ _ h ↦ h

/-- A transaction on other keys than the rounds' and their locks'. -/
theorem onward_of_commit {new : List Happened} {ops : List Op} (hnew : ∀ e ∈ new, Quiet e)
    (hops : ∀ o ∈ ops, Other o.key) :
    Onward a ({ a with store := a.store.commit ops }.tell new) := by
  have hitem (k : Key) (hk : ∀ o ∈ ops, o.key ≠ k) : (a.store.commit ops).items k = a.store.items k :=
    items_commit_of_notMem fun hm ↦ by
      obtain ⟨o, ho, hok⟩ := List.mem_map.mp hm
      exact hk o ho hok
  refine onward_of_quiet new rfl hnew (later_commit _ _) (·.commit _) (fun batch ↦ ?_)
    fun batch token h ↦ ?_
  · rw [lastToken, lastToken]
    exact congrArg (Option.bind · _) (hitem _ fun o ho ↦ (hops o ho).1 batch)
  · have hlock := hitem (.roundLock batch) fun o ho ↦ (hops o ho).2 batch
    rw [liveToken, ← hlock]
    exact h

theorem access_within {ε α : Type} {ready : World → Bool} {told : World → List Happened}
    {answer : World → Except ε α} (htold : ∀ w, ∀ e ∈ told w, Quiet e) :
    (access ready told answer).Within Onward Onward :=
  fun _ ↦ rules.keeps_access (fun s₁ _ _ ↦ onward_of_tell (htold s₁)) fun _ _ _ _ _ _ _ _ ↦ trivial

theorem txn_within {told : World → List Happened} {t : Txn} (htold : ∀ w, ∀ e ∈ told w, Quiet e)
    (ht : ∀ o ∈ t.ops, Other o.key) : (txn told t).Within Onward Onward := by
  refine fun s ↦ Verb.keeps_atom fun s₁ _ _ ↦ ⟨?_, fun _ _ ↦ ⟨fun _ _ ↦ trivial, fun _ _ ↦ trivial⟩⟩
  split
  · rename_i htakes
    rw [Txn.run, if_pos (Bool.and_eq_true_iff.mp htakes).2]
    exact onward_of_commit (htold s₁) ht
  · exact .refl _

theorem quiet_silent (w : World) : ∀ e ∈ silent w, Quiet e := fun _ h ↦ nomatch h

theorem bears : Bears Onward Onward Other where
  refl := .refl
  access _ _ := access_within quiet_silent
  txn _ ht := txn_within quiet_silent ht

/-! ## Slots -/

section Slots

variable {cfg : Settings} {slot : Slot} {holder : String} {g : SlotGrant}

theorem proveRunnerDead_within {ε : Type} {unit : String} :
    (proveRunnerDead cfg unit : Run ε Proof).Within Onward Onward := by
  refine bears.bind (bears.access _ _) fun said ↦ ?_
  cases said with
  | stopped word =>
    refine access_within fun w e he ↦ ?_
    split at he
    · simp [Quiet, List.mem_singleton.mp he]
    · cases he
  | _ => exact Verb.within_pure

theorem proveDead_within {ε : Type} : (proveDead cfg batch token : Run ε Proof).Within Onward Onward := by
  rw [proveDead]
  split
  · exact proveRunnerDead_within
  · exact Verb.within_pure

theorem lastGone_within {last : Option SlotRecord} : (lastGone cfg last).Within Onward Onward := by
  cases last with
  | none => exact Verb.within_pure
  | some r =>
    rw [lastGone]
    split
    · exact Verb.within_pure
    · split
      · exact Verb.within_pure
      · refine bears.bind proveRunnerDead_within fun proof ↦ ?_
        cases proof with
        | dead evidence => exact Verb.within_pure
        | unknown why => exact Verb.within_throw

theorem take_within : (take cfg slot holder).Within Onward Onward := by
  refine bears.bind (bears.get _).mapError fun item ↦ bears.bind (bears.get _).mapError fun lock ↦ ?_
  split
  · exact Verb.within_throw
  · refine bears.bind lastGone_within fun evidence ↦ bears.bind (txn_within ?_ ?_).mapError
      fun taken ↦ ?_
    · exact fun w e he ↦ by simp [Quiet, List.mem_singleton.mp he]
    · simp [Records.Op.key, Other]
    · cases taken with
      | some token => exact Verb.within_pure
      | none =>
        refine bears.bind (bears.get _).tried fun r ↦ ?_
        split <;> exact Verb.within_throw

theorem grantFrom_within (slots : List Slot) (no : NoSlot) :
    (grantFrom cfg holder slots no).Within Onward Onward := by
  induction slots generalizing no with
  | nil => exact Verb.within_throw
  | cons slot rest ih =>
    refine bears.bind take_within.tried fun r ↦ ?_
    cases r with
    | ok g => exact Verb.within_pure
    | error taken => exact ih _

theorem grant_within (prefer : List SlotPool) : (grant cfg prefer holder).Within Onward Onward :=
  grantFrom_within _ _

theorem write_within {told : World → List Happened} {record : SlotRecord}
    (htold : ∀ w, ∀ e ∈ told w, Quiet e) : (g.write told record).Within Onward Onward := by
  refine bears.bind (txn_within htold ?_).mapError fun written ↦ ?_
  · simp [Records.Op.key, Other]
  · split
    · exact Verb.within_throw
    · exact Verb.within_pure

theorem recordHolder_within {unit : String} {vm : Option String} :
    (g.recordHolder unit vm).Within Onward Onward :=
  bears.bind (write_within fun w e he ↦ by simp [Quiet, List.mem_singleton.mp he])
    fun _ ↦ Verb.within_pure

theorem slotRelease_within : g.release.Within Onward Onward := by
  refine bears.bind (write_within fun w e he ↦ by simp [Quiet, List.mem_singleton.mp he]) fun _ ↦
    bears.bind (txn_within quiet_silent ?_).mapError fun released ↦ ?_
  · simp [Records.Op.key, Other]
  · split
    · exact Verb.within_throw
    · exact Verb.within_pure

end Slots

/-! ## Leases -/

/-- The lease was recorded: the round names it, or a newer one was taken. -/
def Recorded (w : World) (batch : String) (token : ℕ) : Prop :=
  lastToken w batch = some token ∨ Replaced w batch token

theorem Recorded.onward (h : Recorded a batch token) (ha : Sound a) (hab : Onward a b) :
    Recorded b batch token := by
  rcases h with h | h
  · exact hab.replaced ha h
  · exact .inr (hab.keeps_replaced h)

section Leases

variable {repo holder : String} {s : World}

/-- The lock of a round is deleted. -/
theorem onward_of_unlock {new : List Happened} (batch : String)
    (hstore : b.store = a.store.commit [.delete (.roundLock batch)])
    (htold : b.told = a.told ++ new) (hnew : ∀ e ∈ new, Quiet e) : Onward a b := by
  refine onward_of_quiet new htold hnew (hstore ▸ later_commit _ _) (fun h ↦ hstore ▸ h.commit _)
    (fun batch' ↦ ?_) fun batch' token h ↦ ?_
  · rw [lastToken, lastToken, hstore, items_commit_of_notMem (by simp [Op.key])]
  · rw [liveToken, hstore] at h
    by_cases hb : batch' = batch
    · subst hb
      rw [items_commit_delete] at h
      cases h
    · rwa [items_commit_of_notMem (by simpa [Op.key] using hb)] at h

/-- What the record of a lease leaves. -/
def recordIn (w : World) (batch : String) (round : Round) : World :=
  { w with store := w.store.commit [.put (.round batch) round] }.tell (silent w)

theorem lastToken_recordIn {round : Round} :
    lastToken (recordIn a batch round) batch = round.lastLeaseToken := by
  rw [lastToken, recordIn, World.tell]
  dsimp only
  rw [items_commit_put]
  rfl

theorem onward_recordIn {round : Round} (hlive : liveToken a batch = some token)
    (hround : round.lastLeaseToken = some token) : Onward a (recordIn a batch round) :=
  onward_of_record hlive
    (fun batch' ↦ by
      rw [liveToken, recordIn, World.tell, liveToken]
      dsimp only
      rw [items_commit_of_notMem (by simp [Op.key])])
    (lastToken_recordIn.trans hround)
    (fun batch' hb ↦ by
      rw [lastToken, recordIn, World.tell, lastToken]
      dsimp only
      rw [items_commit_of_notMem (by simpa [Op.key] using hb)])
    (List.append_nil _) (later_commit _ _) (·.commit _)

/-- The lease's lock is deleted, under its token. -/
theorem release_within {l : Lease} : l.release.Within Onward Onward := by
  refine bears.bind (Verb.Within.mapError fun s ↦ Verb.keeps_atom fun s₁ _ _ ↦
    ⟨?_, fun _ _ ↦ ⟨fun _ _ ↦ trivial, fun _ _ ↦ trivial⟩⟩) fun released ↦ ?_
  · split
    · rename_i htakes
      rw [Txn.run, if_pos (Bool.and_eq_true_iff.mp htakes).2]
      exact onward_of_unlock l.batch rfl rfl (quiet_silent s₁)
    · exact .refl _
  · split
    · exact Verb.within_throw
    · exact Verb.within_pure

/-- The record that is read is the one that was there. -/
theorem readRecord_keeps : (readRecord repo batch).Keeps Onward Onward
    (fun item s' ↦ ∃ s₁, Onward s s₁ ∧ Onward s₁ s' ∧ s₁.store.items (.round batch) = some item)
    (fun _ ↦ True) s := by
  have hread : ((get (.round batch)).mapError LeaseError.store).Keeps Onward Onward
      (fun item s' ↦ ∃ s₁, Onward s s₁ ∧ Onward s₁ s' ∧ s₁.store.items (.round batch) = item)
      (fun _ ↦ True) s :=
    Verb.keeps_mapError (rules.keeps_access (fun s₁ _ _ ↦ onward_of_tell (quiet_silent s₁))
      fun s₁ hs₁ _ s₂ hs₂ _ item hi ↦ ⟨s₁, hs₁, hs₂, (unlessDown_eq_ok.mp hi).2⟩)
  refine Verb.keeps_bind .refl (hread.imp fun item s₂ ⟨s₁, hs₁, hs₂, hitem⟩ ↦ ?_)
  cases item with
  | none => exact Verb.keeps_throw trivial
  | some item =>
    dsimp only
    split
    · exact Verb.keeps_throw trivial
    · exact Verb.keeps_pure fun s₃ hs₃ ↦ ⟨s₁, hs₁, hs₂.trans hs₃, hitem⟩

theorem recordToken_keeps {l : Lease} (n : ℕ) (hs : Sound s) :
    (recordToken repo l n).Keeps Onward Onward (fun _ s' ↦ Recorded s' l.batch l.token)
      (fun _ ↦ True) s := by
  induction n generalizing s with
  | zero => exact Verb.keeps_throw trivial
  | succ n ih =>
    refine rules.then_keeps (readRecord_within bears) fun item s₁ hs₁ ↦ ?_
    have hstep : ∀ s₂ : World, (fencedTxn l [.modRev (.round l.batch) (some item.modRev)]
        [.put (.round l.batch) { item.value with lastLeaseToken := some l.token }]).takes s₂.store →
          Onward s₂ (recordIn s₂ l.batch { item.value with lastLeaseToken := some l.token }) := by
      intro s₂ htakes
      obtain ⟨lock, hlock, hrev⟩ := holds_createRev.mp (holds_of_takes htakes
        (List.mem_append_right _ (List.mem_singleton_self _)))
      exact onward_recordIn (Option.map_eq_some_iff.mpr ⟨lock, hlock, hrev⟩) rfl
    refine Verb.keeps_bind .refl (rules.keeps_txn (fun s₂ _ htakes ↦ ?_)
      fun written s₂ hs₂ hwritten ↦ ?_)
    · rw [Txn.run, if_pos htakes]
      exact hstep s₂ htakes
    · split
      · rename_i hsome
        obtain ⟨s₀, hs₀, htakes, hs₀₂⟩ := hwritten hsome
        rw [Txn.run, if_pos htakes] at hs₀₂
        exact Verb.keeps_pure fun s₃ hs₃ ↦ Recorded.onward (.inl lastToken_recordIn)
          ((hstep s₀ htakes).sound ((hs₁.trans hs₀).sound hs)) (hs₀₂.trans hs₃)
      · refine rules.then_keeps (holderOf_within bears).mapError fun held s₃ hs₃ ↦ ?_
        split
        · split
          · exact ih (((hs₁.trans hs₂).trans hs₃).sound hs)
          · exact Verb.keeps_throw trivial
        · exact Verb.keeps_throw trivial

/-- What the taking of a lease leaves. -/
def takeIn (w : World) (batch : String) (round read : Round) : World :=
  let ops : List Op := [.put (.round batch) round, .put (.roundLock batch) ()]
  { w with store := w.store.commit ops }.tell (leasing batch read w)

/-- The lock is put where there is none, with the round as it was read and the holder's name. -/
theorem onward_of_take {item : Item (.round batch)} {round : Round}
    (hitem : a.store.items (.round batch) = some item)
    (hround : round.lastLeaseToken = item.value.lastLeaseToken)
    (hfree : a.store.items (.roundLock batch) = none) :
    Onward a (takeIn a batch round item.value) := by
  have hother (k : Key) (hk : k ≠ .round batch ∧ k ≠ .roundLock batch) :
      (a.store.commit [.put (.round batch) round, .put (.roundLock batch) ()]).items k =
        a.store.items k :=
    items_commit_of_notMem (by simpa [Op.key] using hk)
  have hput : ((a.store.commit [.put (.round batch) round, .put (.roundLock batch) ()]).items
      (.round batch)).map (·.value) = some round :=
    items_commit_of_mem (by simp [Op.key]) List.mem_cons_self
  have hlock : (a.store.commit [.put (.round batch) round, .put (.roundLock batch) ()]).items
      (.roundLock batch) = some ⟨(), a.store.head + 1, a.store.head + 1⟩ := by
    simp [Store.commit, Op.apply, hfree]
  have hnamed : lastToken a batch = item.value.lastLeaseToken := by
    rw [lastToken, hitem]
    rfl
  refine onward_of_lease ?_ (fun batch' hb ↦ ?_) (fun batch' ↦ ?_) hnamed rfl (later_commit _ _)
    (·.commit _)
  · rw [liveToken, takeIn, World.tell]
    dsimp only
    rw [hlock]
    rfl
  · rw [liveToken, liveToken, takeIn, World.tell]
    dsimp only
    rw [hother _ (by simpa using hb)]
  · by_cases hb : batch' = batch
    · subst hb
      obtain ⟨now, hnow, rfl⟩ := Option.map_eq_some_iff.mp hput
      rw [hnamed, lastToken, takeIn, World.tell]
      dsimp only
      rw [hnow]
      exact hround
    · rw [lastToken, lastToken, takeIn, World.tell]
      dsimp only
      rw [hother _ (by simpa using hb)]

/-- A lease that is taken is recorded. -/
theorem acquire_keeps (n : ℕ) (hs : Sound s) :
    (acquireTelling (leasing batch) repo batch holder n).Keeps Onward Onward
      (fun l s' ↦ l.batch = batch ∧ Recorded s' batch l.token) (fun _ ↦ True) s := by
  induction n generalizing s with
  | zero => exact Verb.keeps_throw trivial
  | succ n ih =>
    refine Verb.keeps_bind .refl ((Verb.Keeps.since (R := Onward) (G := Onward) Onward.trans id
      readRecord_keeps).imp fun item s₂ hrecord ↦ ?_)
    obtain ⟨⟨s₁, hs₁, hs₁₂, hitem⟩, hs₂⟩ := hrecord
    refine Verb.keeps_bind .refl (rules.keeps_txn (fun s₃ hs₃ htakes ↦ ?_)
      fun taken s₃ hs₃ _ ↦ ?_)
    · rw [Txn.run, if_pos htakes]
      obtain ⟨now, hnow, hrev⟩ := holds_modRev.mp (holds_of_takes htakes List.mem_cons_self)
      have hfree := holds_createRev_none.mp
        (holds_of_takes htakes (List.mem_cons_of_mem _ List.mem_cons_self))
      obtain rfl := (hs₁₂.trans hs₃).store.unmoved (hs₁.sound hs).dated hitem hnow hrev
      exact onward_of_take hnow rfl hfree
    · cases taken with
      | some token =>
        have hrecord : (Verb.tried (recordToken repo ⟨batch, token⟩ tries) :
            Run LeaseError _).Keeps Onward Onward
              (fun r s' ↦ r = .ok () → Recorded s' batch token) (fun _ ↦ True) s₃ :=
          Verb.keeps_tried ((recordToken_keeps tries ((hs₂.trans hs₃).sound hs)).imp
            fun _ _ h _ ↦ h) fun _ _ _ h ↦ by cases h
        refine Verb.keeps_bind .refl ((Verb.Keeps.since (R := Onward) (G := Onward) Onward.trans id
          hrecord).imp fun r s₄ hrecorded ↦ ?_)
        obtain ⟨hr, hs₄⟩ := hrecorded
        cases r with
        | ok _ =>
          exact Verb.keeps_pure fun s₅ hs₅ ↦
            ⟨rfl, (hr rfl).onward (((hs₂.trans hs₃).trans hs₄).sound hs) hs₅⟩
        | error e =>
          exact rules.then_keeps release_within.tried fun _ _ _ ↦ Verb.keeps_throw trivial
      | none =>
        refine rules.then_keeps (holderOf_within bears).mapError fun held s₄ hs₄ ↦ ?_
        split
        · exact Verb.keeps_throw trivial
        · exact ih (((hs₂.trans hs₃).trans hs₄).sound hs)

end Leases

/-! ## Passes and drivers -/

/-- From any world that is sound, every step of the program is onward. -/
def Kept {ε α : Type} (v : Run ε α) : Prop :=
  ∀ s, Sound s → v.Keeps Onward Onward (fun _ _ ↦ True) (fun _ ↦ True) s

section Kept

variable {ε ε' α β : Type} {x : Run ε α} {f : α → Run ε β}

theorem kept_of_within (h : x.Within Onward Onward) : Kept x := fun s _ ↦ h s

theorem kept_pure {a : α} : Kept (pure a : Run ε α) := kept_of_within Verb.within_pure

theorem kept_throw {e : ε} : Kept (throw e : Run ε α) := kept_of_within Verb.within_throw

theorem Kept.bind (hx : Kept x) (hf : ∀ a, Kept (f a)) : Kept (x >>= f) := fun s hs ↦
  Verb.keeps_bind .refl ((Verb.Keeps.since (R := Onward) (G := Onward) Onward.trans id
    (hx s hs)).imp fun a s' hs' ↦ hf a s' (hs'.2.sound hs))

theorem Kept.tried (hx : Kept x) : Kept (Verb.tried x : Run ε' _) := fun s hs ↦
  Verb.keeps_tried (hx s hs) fun _ _ _ ↦ trivial

theorem Kept.mapError {g : ε → ε'} (hx : Kept x) : Kept (x.mapError g) := fun s hs ↦
  Verb.keeps_mapError (hx s hs)

/-- What is done within `Onward`, and then what is kept. -/
theorem kept_bind (hx : x.Within Onward Onward) (hf : ∀ a, Kept (f a)) : Kept (x >>= f) :=
  (kept_of_within hx).bind hf

end Kept

section Passes

variable {ε : Type} {cfg : Settings} {repo holder : String} {said : World → Said}

/-- A lease is taken, and then what is kept from wherever it is recorded. -/
theorem kept_acquire {β : Type} {f : Except LeaseError Lease → Run ε β}
    (herror : ∀ e, Kept (f (.error e)))
    (hok : ∀ (l : Lease) (s : World), Sound s → Recorded s batch l.token →
      (f (.ok l)).Keeps Onward Onward (fun _ _ ↦ True) (fun _ ↦ True) s) :
    Kept (Verb.tried (acquireTelling (leasing batch) repo batch holder tries) >>= f) := by
  intro s hs
  have hkeeps : (Verb.tried (acquireTelling (leasing batch) repo batch holder tries) :
      Run ε _).Keeps Onward Onward
        (fun r s' ↦ ∀ l, r = .ok l → Recorded s' batch l.token) (fun _ ↦ True) s :=
    Verb.keeps_tried ((acquire_keeps tries hs).imp fun l s' h l' hl ↦ Except.ok.inj hl ▸ h.2)
      fun _ _ _ _ h ↦ nomatch h
  refine Verb.keeps_bind .refl ((Verb.Keeps.since (R := Onward) (G := Onward) Onward.trans id
    hkeeps).imp fun r s' ⟨hr, hs'⟩ ↦ ?_)
  cases r with
  | ok l => exact hok l s' (hs'.sound hs) (hr l rfl)
  | error e => exact herror e s' (hs'.sound hs)

/-- A unit is started under a lease that was recorded. -/
theorem systemdRun_keeps {r : Runner} {s : World} (hs : Sound s) (hrec : Recorded s batch token) :
    (systemdRun said batch token r : Run ε _).Keeps Onward Onward (fun _ _ ↦ True) (fun _ ↦ True)
      s := by
  refine Verb.keeps_atom fun s₁ hs₁ _ ↦ ⟨?_, fun _ _ ↦ ⟨fun _ _ ↦ trivial, fun _ _ ↦ trivial⟩⟩
  have hrun (idle : Bool) : Onward s₁ (if idle then s₁ else
      { s₁ with alive := r :: s₁.alive, told := s₁.told ++ [.drives batch token r.unit] }) := by
    split
    · exact .refl _
    · exact onward_of_launch (hrec.onward hs hs₁)
  exact hrun _

theorem startUnit_keeps {slot : SlotGrant} {s : World} (hs : Sound s)
    (hrec : Recorded s batch token) : (startUnit said batch token slot : Run ε _).Keeps Onward Onward
      (fun _ _ ↦ True) (fun _ ↦ True) s := by
  rw [startUnit]
  split
  · exact kept_pure s hs
  · refine Verb.keeps_bind .refl ((systemdRun_keeps hs hrec).imp fun r s₁ _ ↦ ?_)
    split
    · exact Verb.keeps_pure fun _ _ ↦ trivial
    · refine bears.bind (bears.access _ _) (fun answer ↦ ?_) s₁
      cases answer <;> exact Verb.within_pure

theorem recordUnit_within {slot : SlotGrant} :
    (recordUnit slot batch token).Within Onward Onward := by
  rw [recordUnit]
  split
  · exact Verb.within_throw
  · exact recordHolder_within.mapError

theorem recordAndStart_keeps {slot : SlotGrant} {s : World} (hs : Sound s)
    (hrec : Recorded s batch token) :
    (recordAndStart said batch token slot : Run ε _).Keeps Onward Onward (fun _ _ ↦ True)
      (fun _ ↦ True) s := by
  refine rules.then_keeps recordUnit_within.tried fun r s₁ hs₁ ↦ ?_
  cases r with
  | error text => exact Verb.keeps_pure fun _ _ ↦ trivial
  | ok slot' =>
    exact Verb.keeps_bind .refl ((startUnit_keeps (hs₁.sound hs) (hrec.onward hs hs₁)).imp
      fun _ _ _ ↦ Verb.keeps_pure fun _ _ ↦ trivial)

theorem appendAttempt_within {a : Attempt} (n : ℕ) :
    (appendAttempt repo batch a n).Within Onward Onward := by
  induction n with
  | zero => exact Verb.within_throw
  | succ n ih =>
    refine bears.bind (readAttempts_within bears) fun read ↦ bears.bind (bears.txn _ ?_) fun written ↦ ?_
    · simp [Records.Op.key, Other]
    · split
      · exact Verb.within_pure
      · exact ih

theorem giveBack_within {a : Attempt} {l : Lease} {slot : SlotGrant} :
    (giveBack repo batch a l slot : Run ε _).Within Onward Onward :=
  bears.bind (appendAttempt_within _).tried fun _ ↦ bears.bind release_within.tried fun _ ↦
    bears.bind slotRelease_within.tried fun _ ↦ Verb.within_pure

theorem redriveOn_kept (o : Orphan) (failures now : ℕ) (slot : SlotGrant) :
    Kept (redriveOn cfg repo said o failures now slot : Run ε _) := by
  refine kept_acquire (fun e ↦ kept_bind slotRelease_within.tried fun _ ↦ ?_) fun l s hs hrec ↦ ?_
  · cases e <;> exact kept_pure
  · refine Verb.keeps_bind .refl ((recordAndStart_keeps hs hrec).imp fun r s₁ _ ↦ ?_)
    obtain ⟨slot', launched⟩ := r
    cases launched with
    | failed why =>
      refine bears.bind giveBack_within (fun recorded ↦ ?_) s₁
      cases recorded <;> exact Verb.within_pure
    | _ => exact bears.bind (appendAttempt_within _).tried (fun _ ↦ Verb.within_pure) s₁

theorem redrive_kept (o : Orphan) : Kept (redrive cfg repo said o : Run ε _) := by
  refine kept_bind (readAttempts_within bears).tried fun read ↦ ?_
  cases read with
  | error e => exact kept_pure
  | ok read =>
    refine kept_bind bears.nowMs fun now ↦ ?_
    split
    · exact kept_pure
    · split
      · exact kept_pure
      · refine kept_bind proveDead_within fun proof ↦ ?_
        cases proof with
        | unknown why => exact kept_pure
        | dead evidence =>
          refine kept_bind (grant_within _).tried fun granted ↦ ?_
          cases granted with
          | error no => exact kept_pure
          | ok slot => exact redriveOn_kept _ _ _ _

theorem redriveEach_kept (os : List Orphan) : Kept (redriveEach cfg repo said os : Run ε _) := by
  induction os with
  | nil => exact kept_pure
  | cons o rest ih => exact (redrive_kept o).bind fun _ ↦ ih.bind fun _ ↦ kept_pure

theorem orphansStep_kept : Kept (orphansStep cfg repo said) :=
  kept_bind (orphans_within bears) fun _ ↦ kept_bind (superseding_within bears) fun _ ↦
    redriveEach_kept _

theorem start_kept (abandon : World → Except VerbRefusal Unit) (slot : SlotGrant) :
    Kept (start cfg repo said abandon batch slot) := by
  refine kept_acquire (fun e ↦ kept_bind slotRelease_within.tried fun _ ↦
    kept_bind (bears.access _ _) fun _ ↦ kept_throw) fun l s hs hrec ↦ ?_
  refine Verb.keeps_bind .refl ((recordAndStart_keeps hs hrec).imp fun r s₁ _ ↦ ?_)
  obtain ⟨slot', launched⟩ := r
  refine bears.bind bears.nowMs (fun now ↦ ?_) s₁
  cases launched with
  | failed why =>
    refine bears.bind giveBack_within fun recorded ↦ ?_
    cases recorded <;> exact Verb.within_pure
  | _ => exact Verb.within_pure

theorem scheduleEach_kept (c : Cutting) (n : ℕ) : Kept (scheduleEach cfg repo said c n) := by
  induction n with
  | zero => exact kept_pure
  | succ n ih =>
    refine kept_bind (bears.access _ _) fun planned ↦ ?_
    split
    · refine kept_bind (grant_within _).mapError fun slot ↦ kept_bind (bears.access _ _) fun cut ↦ ?_
      split
      · exact kept_bind slotRelease_within.tried fun _ ↦ kept_throw
      · exact kept_bind slotRelease_within.tried fun _ ↦ kept_pure
      · refine (start_kept _ _).bind fun scheduled ↦ ?_
        cases scheduled with
        | launchFailed batch why next => exact kept_pure
        | launched batch unit => exact ih.bind fun _ ↦ kept_pure
    · exact kept_pure

theorem schedule_kept (c : Cutting) : Kept (schedule cfg repo said c) := by
  refine kept_bind (readLane_within bears).mapError fun lane ↦ ?_
  cases lane with
  | none => exact kept_pure
  | some lane => exact scheduleEach_kept c _

theorem drive_kept : Kept (drive cfg repo said batch) := by
  refine kept_bind (grant_within _) fun slot ↦ kept_acquire (fun e ↦
    kept_bind slotRelease_within.tried fun _ ↦ kept_pure) fun l s hs hrec ↦ ?_
  refine rules.then_keeps recordHolder_within.tried fun recorded s₁ hs₁ ↦ ?_
  refine Verb.keeps_bind .refl ((systemdRun_keeps (hs₁.sound hs) (hrec.onward hs hs₁)).imp
    fun _ s₂ _ ↦ ?_)
  exact bears.bind release_within.tried (fun _ ↦ bears.bind slotRelease_within.tried fun _ ↦
    Verb.within_pure) s₂

theorem leaseFor_kept : Kept (leaseFor repo batch holder) := fun _ hs ↦
  Verb.keeps_bind .refl ((acquire_keeps tries hs).imp fun _ s₁ _ ↦ release_within s₁)

end Passes

end Spira.Controller.Launches
