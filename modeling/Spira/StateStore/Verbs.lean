import Spira.StateStore.Safe

/-!
# Every verb keeps to `Exact`

One lemma for each verb says what its plan finds, and so which batches it takes (`engine_safe`);
`call_safe` is all of them.  What a call answers is the outcome of its own commit, that of an
earlier one under its request, or tells that nothing was stored (`Answered`).
-/

set_option autoImplicit false

namespace Spira.Store

open KeyPrefix (starts)

namespace Contract

variable {P : Type}

/-! ## What the checks leave -/

section Checks

variable {snap : String → Option (Item P)} {mayLock : Bool} {o : Op P} {ops : List (Op P)}

theorem isReserved_eq_false {key : String} (h : isReserved key = false) :
    starts eventsPrefix key = false ∧ starts requestsPrefix key = false ∧
      starts locksPrefix key = false := by
  simpa [isReserved] using h

theorem ttlMs_isSome {key : String} {v : Object P} (hreserved : isReserved key = false)
    (hreq : ttlPrefixes.any (starts · key) → v.metadata.ttlSecs.getD 0 ≠ 0) (hk : expires key) :
    (ttlMs key v).isSome := by
  obtain ⟨-, hrequests, hlocks⟩ := isReserved_eq_false hreserved
  have hallowed : ttlAllowed key := by simpa [expires, hlocks] using hk
  have hprefix : ttlPrefixes.any (starts · key) := by
    rw [ttlAllowed, hrequests, Bool.false_or] at hallowed
    exact hallowed
  have hpos := hreq hprefix
  rw [ttlMs, if_neg (by simp [hlocks]), if_neg (by simp [hallowed]), Option.isSome_map]
  cases ht : v.metadata.ttlSecs with
  | none => simp [ht] at hpos
  | some t =>
    have ht' : 0 < t := Nat.pos_of_ne_zero (by simpa [ht] using hpos)
    simp [Option.filter, ht']

theorem validateOp_put {key : String} {v : Object P} : validateOp mayLock (.put key v) =
    if isReserved key then .error (.reservedKey key)
    else if ttlPrefixes.any (starts · key) && v.metadata.ttlSecs.getD 0 == 0 then
      .error (.ttlRequired key)
    else if !ttlAllowed key && v.metadata.ttlSecs.isSome then .error (.ttlNotAllowed key)
    else .ok () := rfl

theorem validateOp_delete {key : String} : validateOp (P := P) mayLock (.delete key) =
    if isReserved key then .error (.reservedKey key) else .ok () := rfl

theorem validateOp_lockAcquire {key : String} {ttlMs : ℕ} :
    validateOp (P := P) mayLock (.lockAcquire key ttlMs) =
      if !mayLock || !starts locksPrefix key then .error (.reservedKey key) else .ok () := rfl

/-- A checked op may be asked for, where the lock it takes is free. -/
theorem askable_of_validateOp (h : validateOp mayLock o = .ok ())
    (hfree : ∀ key ttlMs, o = .lockAcquire key ttlMs → snap key = none) : Askable snap o := by
  cases o with
  | put key v =>
    rw [validateOp_put] at h
    split_ifs at h with hreserved httl
    have hr : isReserved key = false := by simpa using hreserved
    obtain ⟨hevents, hrequests, -⟩ := isReserved_eq_false hr
    refine ⟨hevents, hrequests, ttlMs_isSome hr fun hp hz ↦ httl ?_⟩
    rw [hp, Bool.true_and, hz]
    rfl
  | delete key =>
    rw [validateOp_delete] at h
    split_ifs at h with hreserved
    exact (isReserved_eq_false (by simpa using hreserved)).1
  | lockAcquire key ttlMs =>
    rw [validateOp_lockAcquire] at h
    split_ifs at h with hreserved
    have hlocks : starts locksPrefix key := by
      by_contra hk
      exact hreserved (by simp [hk])
    exact ⟨hlocks, hfree key ttlMs rfl⟩

theorem validateOp_of_validate (h : validate ops mayLock = .ok ()) (ho : o ∈ ops) :
    validateOp mayLock o = .ok () := by
  induction ops with
  | nil => cases ho
  | cons o' ops ih =>
    rw [validate, List.forM_eq_forM, List.forM_cons] at h
    cases hv : validateOp mayLock o' with
    | error e => simp [hv, bind, Except.bind] at h
    | ok u =>
      rw [hv] at h
      obtain rfl | ho := List.mem_cons.mp ho
      · exact hv
      · exact ih h ho

/-- Only a then-branch takes locks. -/
theorem not_lockAcquire (h : validate ops false = .ok ()) {key : String} {ttlMs : ℕ} :
    .lockAcquire key ttlMs ∉ ops := fun ho ↦ by
  have := validateOp_of_validate h ho
  simp [validateOp_lockAcquire] at this

theorem mem_lockKeys {t : TxnOps P} {key : String} :
    key ∈ t.lockKeys ↔ ∃ ttlMs, .lockAcquire key ttlMs ∈ t.ops := by
  rw [TxnOps.lockKeys, List.mem_filterMap]
  constructor
  · rintro ⟨o, ho, h⟩
    cases o with
    | lockAcquire key' ttlMs =>
      obtain rfl := Option.some.inj h
      exact ⟨ttlMs, ho⟩
    | _ => cases h
  · rintro ⟨ttlMs, ho⟩
    exact ⟨_, ho, rfl⟩

theorem starts_of_mem_lockKeys {t : TxnOps P} {key : String} (h : validate t.ops true = .ok ())
    (hk : key ∈ t.lockKeys) : starts locksPrefix key := by
  obtain ⟨ttlMs, ho⟩ := mem_lockKeys.mp hk
  have := validateOp_of_validate h ho
  rw [validateOp_lockAcquire] at this
  split_ifs at this with hreserved
  simpa using hreserved

end Checks

/-! ## Expiry -/

section Expiry

variable {head now fuel : ℕ} {snap : String → Option (Item P)} {w : World P} {cfg : Config P}

theorem not_idempotent_of {author : Author P} {req : Request P} {audited : Bool} {n : ℕ}
    (h : ∀ c, author ≠ .call c) : Record.Of author req ⟨audited, false, n⟩ :=
  ⟨fun c _ hc _ ↦ absurd hc (h c), fun h ↦ (nomatch h)⟩

/-- What a batch of deletes removes. -/
theorem Built.delete {req : Request P} {audited : Bool} {n : ℕ} {ok : Bool} {keys : List String}
    {staged : List (Staged P)} {s : Staged P}
    (h : Built snap head req ⟨audited, false, n⟩ ok (keys.map .delete) staged) (hs : s ∈ staged)
    (hv : s.value = none) : s.key ∈ keys := by
  obtain ⟨o, ho, hres⟩ | ⟨hi, -⟩ | ⟨subs, rfl⟩ := h.mem hs
  · obtain ⟨k, hk, rfl⟩ := List.mem_map.mp ho
    rw [hres.key_prev.1]
    exact hk
  · cases hi
  · cases hv

/-- `G` allows the expiry to take the keys of `keys` that are past their TTL. -/
def Expires (keys : List String) (G : World P → World P → Prop) : Prop :=
  ∀ {w : World P} {planned : List String} {staged : List (Staged P)}, w.pending = none →
    Planned w .expire true staged → (∀ k ∈ planned, k ∈ keys ∧ w.Elapsed k) →
    Resolved w.cur (planned.map .delete) staged → G w (w.taken .expire true staged)

theorem Expires.mono {keys keys' : List String} {G : World P → World P → Prop}
    (h : Expires keys G) (hk : ∀ k ∈ keys', k ∈ keys) : Expires keys' G :=
  fun hfree hp hplanned ↦ h hfree hp fun k hmem ↦ ⟨hk k (hplanned k hmem).1, (hplanned k hmem).2⟩

variable {G : World P → World P → Prop} [Calm G]

theorem sortDue_safe {chunk : List String} (hs : Seen head snap w) (hnow : now ≤ w.mono)
    (hkeys : ∀ k ∈ chunk, expires k) :
    Within G (fun x w' ↦ (∀ k ∈ x.1, k ∈ chunk ∧ Ripe head k w') ∧ Later w w')
      (sortDue now head chunk) w := by
  induction chunk generalizing w with
  | nil => exact safe_pure fun w' hl ↦ ⟨by simp, hl⟩
  | cons k ks ih =>
    have hk := hkeys k List.mem_cons_self
    have hks := fun k' hk' ↦ hkeys k' (List.mem_cons_of_mem _ hk')
    refine safe_bind (isDue_safe hs hnow hk) fun b w₁ ⟨hripe, h₁⟩ ↦ ?_
    have hs₁ := hs.later h₁
    have hnow₁ := hnow.trans (Later.mono_le h₁)
    cases b with
    | false => exact (ih hs₁ hnow₁ hks).imp fun x w₂ h ↦
        ⟨fun k' hk' ↦ ⟨List.mem_cons_of_mem _ (h.1 k' hk').1, (h.1 k' hk').2⟩, h₁.trans h.2⟩
    | true =>
      refine safe_bind (read_safe hs₁) fun i w₂ ⟨_, hs₂, h₂⟩ ↦
        safe_bind (ih hs₂ (hnow₁.trans (Later.mono_le h₂)) hks) fun x w₃ ⟨hx, h₃⟩ ↦ ?_
      have h₀₃ : Later w w₃ := h₁.trans (h₂.trans h₃)
      have hripe₃ : Ripe head k w₃ := (hripe rfl).later (h₂.trans h₃)
      have hrest (x' : List String × List String) (hx' : x'.1 = x.1 ∨ x'.1 = k :: x.1) :
          Within G (fun x w' ↦ (∀ k' ∈ x.1, k' ∈ k :: ks ∧ Ripe head k' w') ∧ Later w w') (pure x')
            w₃ := by
        refine safe_pure fun w₄ h₄ ↦ ⟨fun k' hk' ↦ ?_, h₀₃.trans h₄⟩
        have hcase : k' = k ∨ k' ∈ x.1 := by
          rcases hx' with hx' | hx'
          · exact .inr (hx' ▸ hk')
          · exact List.mem_cons.mp (hx' ▸ hk')
        rcases hcase with rfl | hk'
        · exact ⟨List.mem_cons_self, hripe₃.later h₄⟩
        · exact ⟨List.mem_cons_of_mem _ (hx k' hk').1, (hx k' hk').2.later h₄⟩
      obtain ⟨planned, settled⟩ := x
      dsimp only
      cases i with
      | none => exact hrest _ (.inl rfl)
      | some i =>
        dsimp only
        split
        · exact hrest _ (.inr rfl)
        · exact hrest _ (.inl rfl)

omit [Calm G] in
theorem expires_exact [DecidableEq P] {keys : List String} : Expires (P := P) keys Exact :=
  fun hfree hp hplanned hres ↦ .take hfree hp ⟨_, fun k hk ↦ (hplanned k hk).2, hres⟩

/-- What the expiry's plan finds: each key it deletes is past its TTL at the head. -/
def ExpiryPlan (keys : List String) (head : ℕ) (_ : String → Option (Item P)) (ok : Bool)
    (ops : List (Op P)) (w : World P) : Prop :=
  ok = true ∧ ∃ planned : List String, ops = planned.map .delete ∧
    ∀ k ∈ planned, k ∈ keys ∧ Ripe head k w

omit [Calm G] in
theorem expiryPlan_sound {keys : List String} (hkeys : ∀ k ∈ keys, expires k) :
    Sound (P := P) .expire (gcRequest "gc.expire") ⟨false, false, 0⟩ (ExpiryPlan keys) where
  later := by
    rintro head snap ok ops w w' ⟨hok, planned, hops, h⟩ hl
    exact ⟨hok, planned, hops, fun k hk ↦ ⟨(h k hk).1, (h k hk).2.later hl⟩⟩
  ask := by
    rintro head snap ok ops w - ⟨-, planned, rfl, h⟩ o ho
    obtain ⟨k, hk, rfl⟩ := List.mem_map.mp ho
    exact not_events_of_expires (hkeys k (h k hk).1)
  guarded := by
    rintro head snap ok ops w staged - hh ⟨-, planned, rfl, h⟩ hb s hs hv
    exact (h s.key (hb.delete hs hv)).2.2 hh

theorem expireChunk_safe {chunk : List String} (hG : Expires chunk G) (hw : Reachable w)
    (hnow : now ≤ w.mono) (hkeys : ∀ k ∈ chunk, expires k) :
    Within G (fun _ w' ↦ Later w w') (expireChunk cfg fuel now chunk) w := by
  refine safe_bind (engine_safe (D := fun _ ↦ True) (expiryPlan_sound hkeys)
    (not_idempotent_of (by simp)) (fun h hs ↦ ?_) ?_ hw) fun out w₁ ⟨_, h₁⟩ ↦ ?_
  · refine safe_bind (sortDue_safe hs (hnow.trans (Later.mono_le h)) hkeys) fun x w₁ ⟨hx, h₁⟩ ↦
      safe_pure fun w₂ h₂ ↦ ⟨fun t _ ↦ t.elim, fun ok ops he ↦ ?_, h₁.trans h₂⟩
    cases he
    exact ⟨rfl, x.1, rfl, fun k hk ↦ ⟨(hx k hk).1, (hx k hk).2.later h₂⟩⟩
  · rintro w' ok ops staged hfree hp ⟨rfl, planned, rfl, h⟩ ⟨resolved, hres, rfl⟩
    have hstaged : resolved ++ [] ++ [] = resolved := by simp
    rw [← hstaged] at hres
    exact hG hfree hp (fun k hk ↦ ⟨(h k hk).1, (h k hk).2.2 rfl⟩) hres
  · exact safe_bind (dropDeadlines_safe (hnow.trans (Later.mono_le h₁))) fun _ w₂ h₂ ↦
      safe_pure fun w₃ h₃ ↦ h₁.trans (h₂.trans h₃)

omit [Calm G] in
theorem mem_of_mem_chunks {α : Type} {n : ℕ} {l c : List α} {x : α} (hc : c ∈ chunks n l)
    (hx : x ∈ c) : x ∈ l := by
  obtain ⟨i, -, rfl⟩ := List.mem_map.mp hc
  exact List.mem_of_mem_drop (List.mem_of_mem_take hx)

omit [Calm G] in
theorem eachChunk_safe {f : List String → Run P (List String)} {cs : List (List String)}
    (hf : ∀ c ∈ cs, ∀ w', Later w w' → Within G (fun _ w'' ↦ Later w' w'') (f c) w') :
    Within G (fun _ w' ↦ Later w w') (eachChunk f cs) w := by
  induction cs generalizing w with
  | nil => exact safe_pure fun _ hl ↦ hl
  | cons c cs ih =>
    refine safe_bind (hf c List.mem_cons_self w .refl) fun done w₁ h₁ ↦ safe_bind (ih ?_)
      fun rest w₂ h₂ ↦ safe_pure fun w₃ h₃ ↦ h₁.trans (h₂.trans h₃)
    exact fun c' hc' w' h' ↦ hf c' (List.mem_cons_of_mem _ hc') w' (h₁.trans h')

theorem expire_safe {keys : List String} (hG : Expires keys G) (hw : Reachable w)
    (hnow : now ≤ w.mono) (hkeys : ∀ k ∈ keys, expires k) :
    Within G (fun _ w' ↦ Later w w') (expire cfg fuel now keys) w :=
  eachChunk_safe fun _ hc _ h ↦ expireChunk_safe (hG.mono fun _ hk ↦ mem_of_mem_chunks hc hk)
    (hw.later h) (hnow.trans (Later.mono_le h)) fun k hk ↦ hkeys k (mem_of_mem_chunks hc hk)

theorem deadLocks_safe {keys : List String} (hw : Reachable w) :
    Within G (fun dead w' ↦ (∀ k ∈ dead, k ∈ keys) ∧ Later w w') (deadLocks keys) w := by
  induction keys generalizing w with
  | nil => exact safe_pure fun w' hl ↦ ⟨by simp, hl⟩
  | cons k ks ih =>
    have hrest {w₁ : World P} (h₁ : Later w w₁) :
        Within G (fun dead w' ↦ (∀ k' ∈ dead, k' ∈ k :: ks) ∧ Later w w') (deadLocks ks) w₁ :=
      (ih (hw.later h₁)).imp fun dead w₂ ⟨hdead, h₂⟩ ↦
        ⟨fun k' hk' ↦ List.mem_cons_of_mem _ (hdead k' hk'), h₁.trans h₂⟩
    refine safe_bind (get_safe hw) fun i w₁ ⟨_, h₁⟩ ↦ ?_
    split
    · refine safe_bind (live_safe (.now (hw.later h₁))) fun b w₂ ⟨_, h₂⟩ ↦ ?_
      cases b with
      | true => exact hrest (h₁.trans h₂)
      | false =>
        refine safe_bind (hrest (h₁.trans h₂)) fun dead w₃ ⟨hdead, h₃⟩ ↦
          safe_pure fun w₄ h₄ ↦ ⟨fun k' hk' ↦ ?_, h₃.trans h₄⟩
        obtain rfl | hk' := List.mem_cons.mp hk'
        · exact List.mem_cons_self
        · exact hdead k' hk'
    · exact hrest h₁

theorem expireDeadLocks_safe {keys : List String} {req : Request P} (hG : Expires keys G)
    (hw : Reachable w) (hkeys : ∀ k ∈ keys, expires k) :
    Within G (fun _ w' ↦ Later w w') (expireDeadLocks cfg fuel keys req) w := by
  rw [expireDeadLocks]
  split
  · exact safe_pure fun _ hl ↦ hl
  refine safe_bind (get_safe hw) fun i w₁ ⟨_, h₁⟩ ↦ ?_
  split
  · exact safe_pure fun _ hl ↦ h₁.trans hl
  refine safe_bind (deadLocks_safe (hw.later h₁)) fun dead w₂ ⟨hdead, h₂⟩ ↦ ?_
  split
  · exact safe_pure fun _ hl ↦ h₁.trans (h₂.trans hl)
  refine safe_bind nowMs_safe fun now w₃ ⟨w', h', hnow, h''⟩ ↦ ?_
  have hw₃ : Later w w₃ := h₁.trans (h₂.trans (h'.trans h''))
  exact safe_bind (expire_safe (hG.mono hdead) (hw.later hw₃) (hnow ▸ Later.mono_le h'') fun k hk ↦
    hkeys k (hdead k hk)) fun _ w₄ h₄ ↦ safe_pure fun w₅ h₅ ↦ hw₃.trans (h₄.trans h₅)

end Expiry

/-! ## Compares -/

section Compares

variable [DecidableEq P] {G : World P → World P → Prop} [Calm G] {head : ℕ} {snap : String → Option (Item P)} {w : World P}

/-- **A compare is evaluated as it is at the snapshot.** -/
theorem compareHolds_safe (hs : Seen head snap w) (c : Compare P) :
    Within G (fun b w' ↦ Compare.Gives snap (w'.Judged head) b c ∧ Later w w') (compareHolds head c)
      w := by
  refine safe_bind (read_safe hs) fun cur w₁ hread ↦ ?_
  obtain ⟨hcur, hs₁, h₁⟩ := hread
  have hdone (b : Bool) (hb : ∀ live, Compare.holdsIn snap live c = b) :
      Within G (fun b w' ↦ Compare.Gives snap (w'.Judged head) b c ∧ Later w w') (pure b) w₁ :=
    safe_pure fun w₂ h₂ ↦ ⟨.inl hb, h₁.trans h₂⟩
  cases c with
  | modRev key want => exact hdone _ fun _ ↦ by rw [hcur]; rfl
  | value key want => exact hdone _ fun _ ↦ by rw [hcur]; rfl
  | lockCheck key token =>
    cases cur with
    | none =>
      have hi : snap key = none := hcur.symm
      exact hdone _ fun _ ↦ by simp [Compare.holdsIn, hi]
    | some i =>
      have hi : snap key = some i := hcur.symm
      refine safe_bind (live_safe hs₁) fun live w₂ hjudged ↦ ?_
      obtain ⟨hj, h₂⟩ := hjudged
      have hlive : Compare.holdsIn snap live (.lockCheck key token) =
          (live && i.createRev == token) := by
        rw [Compare.holdsIn, hi]
        cases live <;> simp
      cases live with
      | true => exact safe_pure fun w₃ h₃ ↦
          ⟨.inr ⟨true, hj.later h₃, hlive⟩, h₁.trans (h₂.trans h₃)⟩
      | false => exact safe_pure fun w₃ h₃ ↦
          ⟨.inr ⟨false, hj.later h₃, hlive⟩, h₁.trans (h₂.trans h₃)⟩
  | createRev key want =>
    cases cur with
    | none =>
      have hi : snap key = none := hcur.symm
      exact hdone _ fun _ ↦ by cases want <;> simp [Compare.holdsIn, hi]
    | some i =>
      have hi : snap key = some i := hcur.symm
      dsimp only
      split <;> rename_i hlocks
      · have hlock : starts locksPrefix key = false := by simpa using hlocks
        exact hdone _ fun _ ↦ by rw [Compare.holdsIn, hi, hlock]; rfl
      · have hlock : starts locksPrefix key = true := by simpa using hlocks
        refine safe_bind (live_safe hs₁) fun live w₂ hjudged ↦ ?_
        obtain ⟨hj, h₂⟩ := hjudged
        cases live with
        | true =>
          refine safe_pure fun w₃ h₃ ↦ ⟨.inr ⟨true, hj.later h₃, ?_⟩, h₁.trans (h₂.trans h₃)⟩
          rw [Compare.holdsIn, hi, hlock]
          rfl
        | false =>
          refine safe_pure fun w₃ h₃ ↦ ⟨.inr ⟨false, hj.later h₃, ?_⟩, h₁.trans (h₂.trans h₃)⟩
          rw [Compare.holdsIn, hi]
          cases want <;> simp [hlock]

theorem holds_safe (hs : Seen head snap w) (cs : List (Compare P)) :
    Within G (fun b w' ↦ (if b then ∀ c ∈ cs, Compare.Gives snap (w'.Judged head) true c
      else ∃ c ∈ cs, Compare.Gives snap (w'.Judged head) false c) ∧ Later w w')
      (holds head cs) w := by
  induction cs generalizing w with
  | nil => exact safe_pure fun w' hl ↦ ⟨by simp, hl⟩
  | cons c cs ih =>
    refine safe_bind (compareHolds_safe hs c) fun b w₁ ⟨hb, h₁⟩ ↦ ?_
    cases b with
    | false =>
      refine safe_pure fun w₂ h₂ ↦ ⟨?_, h₁.trans h₂⟩
      exact ⟨c, List.mem_cons_self, hb.mono fun hj ↦ hj.later h₂⟩
    | true =>
      refine (ih (hs.later h₁)).imp fun b w₂ ⟨hrest, h₂⟩ ↦ ⟨?_, h₁.trans h₂⟩
      have hc : Compare.Gives snap (w₂.Judged head) true c := hb.mono fun hj ↦ hj.later h₂
      cases b with
      | true =>
        intro c' hc'
        rcases List.mem_cons.mp hc' with rfl | hc'
        · exact hc
        · exact hrest c' hc'
      | false =>
        obtain ⟨c', hc', hgives⟩ := hrest
        exact ⟨c', List.mem_cons_of_mem _ hc', hgives⟩

omit [DecidableEq P] in
theorem locksFree_safe (hs : Seen head snap w) (ks : List String) :
    Within G (fun b w' ↦ (if b then ∀ k ∈ ks, snap k = none else ∃ k ∈ ks, snap k ≠ none) ∧
      Later w w') (locksFree head ks) w := by
  induction ks generalizing w with
  | nil => exact safe_pure fun w' hl ↦ ⟨by simp, hl⟩
  | cons k ks ih =>
    refine safe_bind (read_safe hs) fun i w₁ ⟨hi, hs₁, h₁⟩ ↦ ?_
    split <;> rename_i hsome
    · refine safe_pure fun w₂ h₂ ↦ ⟨⟨k, List.mem_cons_self, ?_⟩, h₁.trans h₂⟩
      rw [← hi]
      exact Option.isSome_iff_ne_none.mp hsome
    · refine (ih hs₁).imp fun b w₂ ⟨hrest, h₂⟩ ↦ ⟨?_, h₁.trans h₂⟩
      cases b with
      | true =>
        intro k' hk'
        rcases List.mem_cons.mp hk' with rfl | hk'
        · rw [← hi]
          simpa using hsome
        · exact hrest k' hk'
      | false =>
        obtain ⟨k', hk', hne⟩ := hrest
        exact ⟨k', List.mem_cons_of_mem _ hk', hne⟩

theorem takesThen_safe (hs : Seen head snap w) (t : TxnOps P) :
    Within G (fun b w' ↦ Takes snap (w'.Judged head) t b ∧ Later w w') (takesThen t head) w := by
  refine safe_bind (holds_safe hs t.compares) fun b w₁ ⟨hb, h₁⟩ ↦ ?_
  cases b with
  | false =>
    refine safe_pure fun w₂ h₂ ↦ ⟨.inl ?_, h₁.trans h₂⟩
    obtain ⟨c, hc, hgives⟩ := hb
    exact ⟨c, hc, hgives.mono fun hj ↦ hj.later h₂⟩
  | true =>
    refine (locksFree_safe (hs.later h₁) t.lockKeys).imp fun b w₂ ⟨hfree, h₂⟩ ↦ ⟨?_, h₁.trans h₂⟩
    have hall : ∀ c ∈ t.compares, Compare.Gives snap (w₂.Judged head) true c :=
      fun c hc ↦ (hb c hc).mono fun hj ↦ hj.later h₂
    cases b with
    | true => exact ⟨hall, hfree⟩
    | false => exact .inr ⟨hall, hfree⟩

end Compares

/-! ## What a call answers -/

/-- The places of the audit record a batch has. -/
def Committed.subs (c : Committed P) : List Sub :=
  ((lastOf c.staged (eventsKey (c.head + 1))).bind (·.1.value)).elim [] (Data.subs ·.data)

/-- The fences of `locks` taken at `main`, from the audit record of it. -/
def fencesOf (locks : List String) (main : ℕ) (subs : List Sub) : Except (Error P) (List Fence) :=
  locks.mapM (fenceOf main subs)

/-- What a call answers whose commit is `k`. -/
def outcome (w : World P) (k : Committed P) : Call P → Option Answer
  | .create .. => some (.created ⟨⟨k.head + 1, 0⟩, false⟩)
  | .txn t _ =>
    match if k.ok then fencesOf (P := P) t.lockKeys (k.head + 1) (Committed.subs k) else .ok [] with
    | .ok fences => some (.txn ⟨k.head + 1, k.ok, false, fences⟩)
    | .error _ => none
  | .delete key .. => some <| .deleted <|
    if (w.itemAt (k.head + 1) key).isSome then .pending (k.head + 1) else .removed (k.head + 1)
  | .lock resource .. => some (.locked ⟨resource, ⟨k.head + 1, 0⟩⟩)
  | .renew .. | .renewFor .. | .release .. => some .written
  | .tick _ => none

/-- An answer that tells that nothing was stored, or is not about one commit. -/
def Answer.unwritten : Answer → Bool
  | .created c => c.existed
  | .txn r => !r.succeeded
  | .tick _ => true
  | _ => false

/-- Where the answer of a call comes from. -/
inductive Answered (c : Call P) (a : Answer) (w : World P) : Prop
  /-- Its own commit. -/
  | committed {k : Committed P} (hk : .committed k ∈ w.trace) (ha : k.author = .call c)
      (ho : outcome w k c = some a)
  /-- The record of its request. -/
  | recorded {req : Request P} {rev : ℕ} {ok : Bool} (hreq : c.req? = some req)
      (hr : Recorded req rev ok w)
  | unwritten (h : a.unwritten)

theorem Answered.later {c : Call P} {a : Answer} {w w' : World P} (h : Answered c a w)
    (hw : Reachable w) (hl : Later w w') : Answered c a w' := by
  cases h with
  | committed hk ha ho =>
    refine .committed ((Later.grows hl).trace.mem hk) ha ?_
    rw [← ho]
    cases c with
    | delete key expect req =>
      rw [outcome, outcome, (Later.grows hl).itemAt_eq _ (hw.head_lt hk)]
    | _ => rfl
  | recorded hreq hr => exact .recorded hreq (hr.later hl)
  | unwritten h => exact .unwritten h

section Verbs

variable {head fuel : ℕ} {snap : String → Option (Item P)} {w w' : World P} {cfg : Config P}
  {req : Request P}

theorem record_of_call {c : Call P} (hreq : c.req? = some req) (audited : Bool) (n : ℕ) :
    Record.Of (.call c) req ⟨audited, true, n⟩ := by
  refine ⟨fun c' req' hc h ↦ ⟨rfl, ?_⟩, fun _ ↦ ⟨c, rfl, hreq⟩⟩
  cases hc
  exact Option.some.inj (h.symm.trans hreq)

theorem answered_of_left {c : Call P} {a : Answer} {rev : ℕ} {ok : Bool}
    (h : ∃ head, rev = head + 1 ∧ Left (.call c) ok head w) (hl : Later w w')
    (ho : ∀ k, .committed k ∈ w'.trace → rev = k.head + 1 → ok = k.ok → outcome w' k c = some a) :
    Answered c a w' := by
  obtain ⟨head, rfl, k, hk, ha, rfl, rfl⟩ := h
  have hk' : .committed k ∈ w'.trace := (Later.grows hl).trace.mem hk
  exact .committed hk' ha (ho k hk' rfl rfl)

theorem Left.seen {author : Author P} {ok : Bool} (h : Left author ok head w) (hw : Reachable w) :
    ∃ snap, Seen (head + 1) snap w := by
  obtain ⟨k, hk, rfl, rfl, rfl⟩ := h
  obtain ⟨post, hpost⟩ := exists_suffix_of_mem hk
  obtain ⟨w₀, h₀, hg⟩ := hw.planned hpost
  exact ⟨_, hw, _, h₀.reachable.next (.take h₀.free h₀.planned), by rw [← h₀.head]; rfl, rfl, hg⟩

/-- A branch of one op writes no lock but its own. -/
theorem Built.locks {r : Record} {ok : Bool} {o : Op P} {staged : List (Staged P)} {s : Staged P}
    (h : Built snap head req r ok [o] staged) (hs : s ∈ staged) (hk : starts locksPrefix s.key) :
    s.key = o.key := by
  obtain ⟨o', ho, hres⟩ | ⟨_, rfl⟩ | ⟨subs, rfl⟩ := h.mem hs
  · rw [hres.key_prev.1, List.mem_singleton.mp ho]
  · rw [requestWrite, KeyPrefix.not_starts (starts_requestKey _) (by decide) (by decide)] at hk
    cases hk
  · rw [eventWrite, KeyPrefix.not_starts (starts_eventsKey _) (by decide) (by decide)] at hk
    cases hk

theorem exists_mem_subsOf {staged : List (Staged P)} {s : Staged P} (hs : s ∈ staged) :
    ∃ sub ∈ subsOf staged, sub.key = s.key := by
  obtain ⟨i, hi, rfl⟩ := List.getElem_of_mem hs
  have hmem : (staged[i], i) ∈ staged.zipIdx := List.mk_mem_zipIdx_iff_getElem?.mpr (by simp)
  exact ⟨_, List.mem_map_of_mem hmem, rfl⟩

theorem audited_of_lockKeys {t : TxnOps P} (hthen : validate t.ops true = .ok ())
    (h : t.lockKeys ≠ []) : audited ((t.ops ++ t.elseOps).map Op.key) := by
  obtain ⟨key, hkey⟩ := List.exists_mem_of_ne_nil _ h
  obtain ⟨ttlMs, ho⟩ := mem_lockKeys.mp hkey
  rw [audited, Bool.or_eq_true]
  refine .inr (List.any_eq_true.mpr ⟨key, List.mem_map.mpr ⟨_, List.mem_append_left _ ho, rfl⟩, ?_⟩)
  rw [KeyPrefix.not_starts (starts_of_mem_lockKeys hthen hkey) (by decide) (by decide)]
  rfl

/-- A commit's audit record is found at its key, with the places the commit has. -/
theorem cur_subs {k : Committed P} {s : Staged P} (hw : Reachable w)
    (hk : .committed k ∈ w.trace) (hs : s ∈ k.staged) (hkey : starts eventsPrefix s.key) :
    ∃ i, w.cur (eventsKey (k.head + 1)) = some i ∧
      Data.subs i.value.data = Committed.subs k := by
  obtain ⟨post, hpost⟩ := exists_suffix_of_mem hk
  obtain ⟨w₀, h₀, -⟩ := hw.planned hpost
  have hevent : s.key = eventsKey (k.head + 1) := by rw [h₀.planned.events s hs hkey, h₀.head]
  obtain ⟨i, hi, hv⟩ := hw.audit hk hs hkey
  refine ⟨i, hevent ▸ hi, ?_⟩
  cases hl : lastOf k.staged (eventsKey (k.head + 1)) with
  | none => exact absurd hevent (lastOf_none.mp hl s hs)
  | some p =>
    obtain ⟨-, hmem, hp⟩ := lastOf_some hl
    have hps : p.1 = s := h₀.planned.audit _ hmem s hs (by rw [hp, ← hevent]; exact hkey) hkey
    rw [Committed.subs, hl, Option.bind_some, hps, hv, Option.elim_some]

theorem Fence.starts_key (f : Fence) : starts locksPrefix f.key := starts_lockKey f.resource

theorem Fence.not_events (f : Fence) : starts eventsPrefix f.key = false :=
  not_events_of_expires (expires_lock (Fence.starts_key f))

theorem Fence.not_requests (f : Fence) : starts requestsPrefix f.key = false :=
  KeyPrefix.not_starts (Fence.starts_key f) (by decide) (by decide)

/-- The op of a holder's write. -/
def HolderWrite.op (f : Fence) (cur : Item P) : HolderWrite → Op P
  | .renew (some ttlMs) => .put f.key (lockValue ttlMs)
  | .renew none => .put f.key cur.value
  | .release => .delete f.key

/-- A holder may ask for its write. -/
theorem HolderWrite.askable {f : Fence} {cur : Item P} {write : HolderWrite}
    (httl : ∀ key i, snap key = some i → expires key → (ttlMs key i.value).isSome)
    (h : snap f.key = some cur) : Askable snap (HolderWrite.op f cur write) := by
  obtain (_ | ttlMs) | _ := write
  · exact ⟨Fence.not_events f, Fence.not_requests f, fun hk ↦ httl _ _ h hk⟩
  · refine ⟨Fence.not_events f, Fence.not_requests f, fun _ ↦ ?_⟩
    rw [Spira.Store.ttlMs, if_pos (Fence.starts_key f)]
    rfl
  · exact Fence.not_events f

variable [DecidableEq P]

/-- What a call's plan finds: the branch the call takes at the snapshot. -/
def CallPlan (c : Call P) (head : ℕ) (snap : String → Option (Item P)) (ok : Bool)
    (ops : List (Op P)) (w : World P) : Prop :=
  Chosen snap (w.Judged head) ok ops c

/-- **What a call's commit is guarded by follows from the branch it takes.** -/
theorem guarded_of_chosen {c : Call P} {J : String → Bool → Prop} {ok : Bool} {n : ℕ}
    {ops : List (Op P)} {staged : List (Staged P)} (hreq : c.req? = some req)
    (haudit : ∀ t req, c = .txn t req → t.lockKeys ≠ [] → Call.audited c)
    (h : Chosen w.cur J ok ops c)
    (hb : Built w.cur w.store.head req ⟨Call.audited c, true, n⟩ ok ops staged) :
    Guarded w (.call c) ok staged := by
  cases c with
  | create key value req' | delete key expect req' | tick lag => trivial
  | txn t req' =>
    intro hok
    obtain rfl := Option.some.inj hreq
    subst hok
    obtain ⟨rfl, hcompares, hlocks⟩ := h
    obtain ⟨resolved, hres, rfl⟩ := hb
    have hput (key : String) (hkey : key ∈ t.lockKeys) : ∃ s ∈ resolved, s.key = key := by
      obtain ⟨ttlMs, ho⟩ := mem_lockKeys.mp hkey
      exact hres.put ho (by simp)
    refine ⟨fun key token hmem ↦ (hcompares _ hmem).token, fun key hkey ↦ ⟨hlocks key hkey, ?_⟩,
      fun hne ↦ ⟨subsOf resolved, ?_, fun key hkey ↦ ?_⟩⟩
    · obtain ⟨s, hs, hk⟩ := hput key hkey
      exact ⟨s, List.mem_append_left _ (List.mem_append_left _ hs), hk⟩
    · rw [if_pos (haudit t req' rfl hne)]
      simp
    · obtain ⟨s, hs, rfl⟩ := hput key hkey
      exact exists_mem_subsOf hs
  | lock resource ttlMs req' =>
    obtain ⟨-, rfl, hfree⟩ := h
    obtain ⟨resolved, hres, rfl⟩ := hb
    obtain ⟨s, hs, hk⟩ := hres.put (List.mem_singleton.mpr rfl) (by simp)
    exact ⟨hfree, s, List.mem_append_left _ (List.mem_append_left _ hs), hk⟩
  | renew f req' =>
    obtain ⟨-, -, i, hi, rfl⟩ := h
    exact ⟨⟨i, hi⟩, fun s hs hk ↦ hb.locks hs hk⟩
  | renewFor f ttlMs req' =>
    obtain ⟨-, -, rfl, i, hi⟩ := h
    exact ⟨⟨i, hi⟩, fun s hs hk ↦ hb.locks hs hk⟩
  | release f req' =>
    obtain ⟨-, rfl, i, hi⟩ := h
    exact ⟨⟨i, hi⟩, fun s hs hk ↦ hb.locks hs hk⟩

/-- **A call's plan is sound** where the branch it takes may be asked for. -/
theorem callPlan_sound {c : Call P} {b : Bool} {n : ℕ} (hb : b = Call.audited c)
    (hreq : c.req? = some req)
    (haudit : ∀ t req, c = .txn t req → t.lockKeys ≠ [] → Call.audited c)
    (hask : ∀ {snap : String → Option (Item P)} {J ok ops},
      (∀ key i, snap key = some i → expires key → (ttlMs key i.value).isSome) →
      Chosen snap J ok ops c → ∀ o ∈ ops, Askable snap o) :
    Sound (.call c) req ⟨b, true, n⟩ (CallPlan c) where
  later h hl := Chosen.mono (fun hj ↦ hj.later hl) h
  ask hs h := hask (fun _ _ ↦ hs.ttl) h
  guarded := by
    subst hb
    rintro head snap ok ops w staged hs rfl h hb
    rw [CallPlan, ← hs.cur rfl] at h
    rw [← hs.cur rfl] at hb
    exact guarded_of_chosen hreq haudit h hb

/-- Only a transaction may store nothing. -/
theorem Ended.not_nothing {T : Type} {c : Call P} {r : Record} {D : T → Prop} {out : Outcome T}
    (h : Ended (.call c) req r (CallPlan c) D out w) (hc : ∀ t req, c ≠ .txn t req) (head : ℕ) :
    out ≠ .nothing head := by
  rintro rfl
  obtain ⟨snap, ok, hplan, -⟩ := h
  obtain ⟨t, req', rfl⟩ := Chosen.ne_nil hplan
  exact hc t req' rfl

/-- The locks a call is to take. -/
def Call.locks : Call P → List String
  | .txn t _ => t.lockKeys
  | .lock resource _ _ => [lockKey resource]
  | _ => []

/-- `H` allows the expiry of the locks the call is to take, and `G` its own commit. -/
structure Permits (c : Call P) (H G : World P → World P → Prop) : Prop where
  expire : Expires (Call.locks c) H
  take : ∀ {w : World P} {req ok ops staged}, w.pending = none → c.req? = some req →
    Planned w (.call c) ok staged → Chosen w.cur (w.Judged w.store.head) ok ops c →
    Built w.cur w.store.head req ⟨Call.audited c, true, 0⟩ ok ops staged →
    G w (w.taken (.call c) ok staged)

variable {H G : World P → World P → Prop} [Calm H] [Calm G]

/-- **What a call ends with after its engine.**  Once its commit is taken, only what follows may
fail. -/
theorem call_engine {T X α : Type} {c : Call P} {b : Bool} {n : ℕ} {D : T → Prop}
    {plan : ℕ → Run P (Step P T × X)} {f : Outcome T × Option X → Run P α}
    {K : α → World P → Prop} {E : Error P → Prop} (hb : b = Call.audited c)
    (hreq : c.req? = some req) (hG : Permits c H G)
    (hA : Sound (.call c) req ⟨b, true, n⟩ (CallPlan c))
    (hplan : ∀ {w' : World P} {head snap}, Later w w' → Seen head snap w' →
      Within H (fun x w'' ↦ (∀ t, x.1 = .done t → D t) ∧
        (∀ ok ops, x.1 = .apply ok ops → CallPlan c head snap ok ops w'') ∧ Later w' w'')
        (plan head) w')
    (hf : ∀ {F : World P → World P → Prop} [Calm F] (out : Outcome T × Option X) (w₁ : World P),
      Ended (.call c) req ⟨b, true, n⟩ (CallPlan c) D out.1 w₁ → Later w w₁ →
      (f out).Keeps Later F K (fun e ↦ (∃ rev ok, out.1 = .applied rev ok) → E e) w₁)
    (hw : Reachable w) :
    (engine cfg (.call c) req ⟨b, true, n⟩ plan fuel >>= f).Spares Later H G K K E w := by
  subst hb
  refine Verb.spares_bind (fun _ ↦ .refl) ((engine_spares hA (record_of_call hreq _ _) hplan
    (fun hfree hp hc hb ↦ hG.take hfree hreq hp hc hb) hw).imp
    (fun out w₁ ⟨⟨head, ok, ho, hleft⟩, h₁⟩ ↦ ?_) fun out w₁ ⟨hend, h₁⟩ ↦ ?_)
  · have hend : Ended (.call c) req ⟨Call.audited c, true, n⟩ (CallPlan c) D out.1 w₁ := by
      rw [ho]
      exact ⟨head, rfl, hleft⟩
    exact (hf out w₁ hend h₁).errors fun e he ↦ he ⟨_, _, ho⟩
  · exact (hf out w₁ hend h₁).spares fun _ _ ↦ id

omit [Calm H] in
/-- The plan takes its branch. -/
theorem apply_safe {T X : Type} {D : T → Prop} {c : Call P} {ok : Bool} {ops : List (Op P)} {x : X}
    (h : Chosen snap (w'.Judged head) ok ops c) (hl : Later w w') :
    Within H (fun x w'' ↦ (∀ t, x.1 = .done t → D t) ∧
      (∀ ok ops, x.1 = .apply ok ops → CallPlan c head snap ok ops w'') ∧ Later w w'')
      (pure ((.apply ok ops : Step P T), x)) w' := by
  refine safe_pure fun w'' h' ↦ ⟨fun t ht ↦ (nomatch ht), fun ok' ops' heq ↦ ?_, hl.trans h'⟩
  cases heq
  exact Chosen.mono (fun hj ↦ hj.later h') h

/-- What a call is answered with, later. -/
abbrev Then {α : Type} (c : Call P) (answer : α → Answer) (w : World P) (a : α) (w' : World P) :
    Prop :=
  Answered c (answer a) w' ∧ Later w w'

theorem create_spares {key : String} {value : Object P} {E : Error P → Prop}
    (hG : Permits (.create key value req) H G) (hw : Reachable w) :
    (create cfg fuel key value req).Spares Later H G (Then (.create key value req) .created w)
      (Then (.create key value req) .created w) E w := by
  refine pureCheck_safe.spares_bind (fun _ ↦ .refl) fun _ w₁ ⟨hvalid, h₁⟩ ↦
    pureCheck_safe.spares_bind (fun _ ↦ .refl) fun _ w₂ ⟨_, h₂⟩ ↦ ?_
  have hop := validateOp_of_validate hvalid (List.mem_singleton.mpr rfl)
  have hw₂ : Later w w₂ := h₁.trans h₂
  refine call_engine (D := (·.existed)) rfl rfl hG
    (callPlan_sound rfl rfl (by simp) fun _ h o ho ↦ ?_) (fun _ hs ↦ ?_)
    (fun out w₃ hout h₃ ↦ ?_) (hw.later hw₂)
  · rw [h.2.1, List.mem_singleton] at ho
    subst ho
    exact askable_of_validateOp hop fun _ _ h ↦ (nomatch h)
  · refine safe_bind (read_safe hs) fun i w₄ ⟨hi, _, h₄⟩ ↦ ?_
    split
    · split
      · refine safe_pure fun w₅ h₅ ↦ ⟨fun t h ↦ ?_, fun ok ops h ↦ (nomatch h), h₄.trans h₅⟩
        cases h
        rfl
      · exact safe_throw
    · exact apply_safe ⟨rfl, rfl, hi.symm⟩ h₄
  · have hw₃ : Later w w₃ := hw₂.trans h₃
    have hnothing := hout.not_nothing (by simp)
    obtain ⟨c | _ | _ | _, _⟩ := out
    · exact Verb.keeps_pure fun w₄ h₄ ↦ ⟨.unwritten hout, hw₃.trans h₄⟩
    · refine Verb.keeps_pure fun w₄ h₄ ↦
        ⟨answered_of_left hout h₄ fun k _ hrev _ ↦ ?_, hw₃.trans h₄⟩
      rw [hrev]
      rfl
    · exact Verb.keeps_pure fun w₄ h₄ ↦ ⟨.recorded rfl (hout.later h₄), hw₃.trans h₄⟩
    · exact absurd rfl (hnothing _)

theorem delete_spares {key : String} {expect : Option Rev} {E : Error P → Prop}
    (hE : ∀ e, Error.tooOld e → E e) (hG : Permits (.delete key expect req) H G)
    (hw : Reachable w) :
    (delete cfg fuel key expect req).Spares Later H G (Then (.delete key expect req) .deleted w)
      (Then (.delete key expect req) .deleted w) E w := by
  refine pureCheck_safe.spares_bind (fun _ ↦ .refl) fun _ w₁ ⟨hvalid, h₁⟩ ↦
    pureCheck_safe.spares_bind (fun _ ↦ .refl) fun _ w₂ ⟨_, h₂⟩ ↦ ?_
  have hop := validateOp_of_validate hvalid (List.mem_singleton.mpr rfl)
  have hw₂ : Later w w₂ := h₁.trans h₂
  refine call_engine (D := fun _ ↦ True) rfl rfl hG
    (callPlan_sound rfl rfl (by simp) fun _ h o ho ↦ ?_) (fun _ hs ↦ ?_)
    (fun out w₃ hout h₃ ↦ ?_) (hw.later hw₂)
  · rw [h.2.1, List.mem_singleton] at ho
    subst ho
    exact askable_of_validateOp hop fun _ _ h ↦ (nomatch h)
  · refine safe_bind (read_safe hs) fun i w₄ ⟨hi, _, h₄⟩ ↦ ?_
    cases i with
    | none => exact safe_throw
    | some cur =>
      cases expect with
      | none => exact apply_safe ⟨rfl, rfl, cur, hi.symm, fun _ h ↦ (nomatch h)⟩ h₄
      | some e =>
        dsimp only
        split <;> rename_i hrev
        · exact safe_throw
        · refine apply_safe ⟨rfl, rfl, cur, hi.symm, fun e' he ↦ ?_⟩ h₄
          rw [← Option.some.inj he]
          exact not_not.mp hrev
  · have hw₃ : Later w w₃ := hw₂.trans h₃
    have hr₃ := hw.later hw₃
    have hnothing := hout.not_nothing (by simp)
    obtain ⟨t | ⟨rev, ok⟩ | ⟨rev, ok⟩ | head, _⟩ := out
    · exact t.elim
    · -- The commit's own snapshot is read, so the answer is of that.
      obtain ⟨head, rfl, hleft⟩ := hout
      obtain ⟨snap, hs⟩ := hleft.seen hr₃
      refine Verb.keeps_bind (fun _ ↦ .refl) (Verb.keeps_pure fun w₄ h₄ ↦
        Verb.keeps_bind (fun _ ↦ .refl) (((read_keeps (hs.later h₄)).errors fun e he _ ↦
          hE e he).imp fun i w₅ ⟨hi, _, h₅⟩ ↦ Verb.keeps_pure fun w₆ h₆ ↦ ?_))
      have h₃₆ : Later w₃ w₆ := h₄.trans (h₅.trans h₆)
      refine ⟨answered_of_left ⟨head, rfl, hleft⟩ h₃₆ fun k hk hrev _ ↦ ?_, hw₃.trans h₃₆⟩
      have hkey : w₆.itemAt (k.head + 1) key = i := by
        rw [← hrev, hi, (hs.later h₃₆).eq]
      rw [outcome, hkey, hrev]
    · refine Verb.Keeps.errors (E := fun _ ↦ True) ?_ fun e _ ⟨_, _, h⟩ ↦ (nomatch h)
      refine safe_bind (head_safe hr₃) fun head w₄ ⟨snap, hs, _, h₄⟩ ↦
        safe_bind (safe_pure (Q := fun x w' ↦ x = (rev, head) ∧ Later w₄ w') fun w₅ h₅ ↦ ⟨rfl, h₅⟩)
        fun x w₅ ⟨hx, h₅⟩ ↦ ?_
      subst hx
      refine safe_bind (read_safe (hs.later h₅)) fun i w₆ ⟨_, _, h₆⟩ ↦ safe_pure fun w₇ h₇ ↦ ?_
      have h₃₇ : Later w₃ w₇ := h₄.trans (h₅.trans (h₆.trans h₇))
      exact ⟨.recorded rfl (hout.later h₃₇), hw₃.trans h₃₇⟩
    · exact absurd rfl (hnothing head)

theorem lock_spares {resource : String} {ttlMs : ℕ} {E : Error P → Prop}
    (hG : Permits (.lock resource ttlMs req) H G) (hw : Reachable w) :
    (lock cfg fuel resource ttlMs req).Spares Later H G (Then (.lock resource ttlMs req) .locked w)
      (Then (.lock resource ttlMs req) .locked w) E w := by
  have hkey : starts locksPrefix (lockKey resource) := starts_lockKey resource
  refine pureCheck_safe.spares_bind (fun _ ↦ .refl) fun _ w₁ hchecked ↦ ?_
  obtain ⟨-, h₁⟩ := hchecked
  refine (expireDeadLocks_safe hG.expire (hw.later h₁) fun k hk ↦ ?_).spares_bind (fun _ ↦ .refl)
    fun _ w₂ h₂ ↦ ?_
  · rw [List.mem_singleton.mp hk]
    exact expires_lock hkey
  have hw₂ : Later w w₂ := h₁.trans h₂
  refine call_engine (D := fun _ ↦ True) rfl rfl hG
    (callPlan_sound rfl rfl (by simp) fun _ h o ho ↦ ?_) (fun _ hs ↦ ?_)
    (fun out w₃ hout h₃ ↦ ?_) (hw.later hw₂)
  · rw [h.2.1, List.mem_singleton] at ho
    subst ho
    refine ⟨not_events_of_expires (expires_lock hkey),
      KeyPrefix.not_starts hkey (by decide) (by decide), fun _ ↦ ?_⟩
    rw [Spira.Store.ttlMs, if_pos hkey]
    rfl
  · refine safe_bind (read_safe hs) fun i w₄ hread ↦ ?_
    obtain ⟨hi, -, h₄⟩ := hread
    split
    · exact safe_throw
    · exact apply_safe ⟨rfl, rfl, hi.symm⟩ h₄
  · have hw₃ : Later w w₃ := hw₂.trans h₃
    have hnothing := hout.not_nothing (by simp)
    obtain ⟨t | _ | _ | _, _⟩ := out
    · exact t.elim
    · refine Verb.keeps_pure fun w₄ h₄ ↦
        ⟨answered_of_left hout h₄ fun k _ hrev _ ↦ ?_, hw₃.trans h₄⟩
      rw [hrev]
      rfl
    · exact Verb.keeps_pure fun w₄ h₄ ↦ ⟨.recorded rfl (hout.later h₄), hw₃.trans h₄⟩
    · exact absurd rfl (hnothing _)

omit [DecidableEq P] [Calm G] in
theorem held_safe {f : Fence} {write : HolderWrite} (hs : Seen head snap w) :
    Within H (fun i w' ↦ (∀ cur, i = some cur → Holds snap f cur ∧
      (write ≠ .release → w'.Judged head f.key true)) ∧ Later w w') (held f write head) w := by
  have hnone {w₁ : World P} (h₁ : Later w w₁) : Within H (fun i w' ↦ (∀ cur, i = some cur →
      Holds snap f cur ∧ (write ≠ .release → w'.Judged head f.key true)) ∧ Later w w')
      (pure none) w₁ := safe_pure fun w₂ h₂ ↦ ⟨fun _ h ↦ (nomatch h), h₁.trans h₂⟩
  refine safe_bind (read_safe hs) fun i w₁ ⟨hi, hs₁, h₁⟩ ↦ ?_
  cases i with
  | none => exact hnone h₁
  | some cur =>
    dsimp only
    split <;> rename_i htoken
    · exact hnone h₁
    have hholds : Holds snap f cur := ⟨hi.symm, not_not.mp htoken⟩
    split <;> rename_i hwrite
    · refine safe_pure fun w₂ h₂ ↦ ⟨fun c h ↦ ?_, h₁.trans h₂⟩
      cases h
      exact ⟨hholds, fun hne ↦ absurd hwrite hne⟩
    · refine safe_bind (live_safe hs₁) fun b w₂ ⟨hj, h₂⟩ ↦ ?_
      cases b with
      | true =>
        refine safe_pure fun w₃ h₃ ↦ ⟨fun c h ↦ ?_, h₁.trans (h₂.trans h₃)⟩
        cases h
        exact ⟨hholds, fun _ ↦ hj.later h₃⟩
      | false => exact hnone (h₁.trans h₂)

theorem holderWrite_spares {c : Call P} {f : Fence} {write : HolderWrite} {E : Error P → Prop}
    (hreq : c.req? = some req) (hout : ∀ w k, outcome w k c = some .written)
    (haudited : true = Call.audited c)
    (hchosen : ∀ {snap : String → Option (Item P)} {J ok ops}, Chosen snap J ok ops c ↔
      ok = true ∧ (write ≠ .release → J f.key true) ∧
        ∃ i, Holds snap f i ∧ ops = [HolderWrite.op f i write])
    (hG : Permits c H G) (hw : Reachable w) :
    (holderWrite cfg fuel c f req write).Spares Later H G (Then c (fun _ ↦ .written) w)
      (Then c (fun _ ↦ .written) w) E w := by
  have hne : ∀ t req, c ≠ .txn t req := by
    rintro t req rfl
    have := hout w ⟨.expire, false, 0, [], 0⟩
    simp [outcome] at this
  refine call_engine (D := fun _ ↦ True) haudited hreq hG (callPlan_sound haudited hreq
    (fun t req h ↦ absurd h (hne t req)) fun httl h o ho ↦ ?_) (fun _ hs ↦ ?_)
    (fun out w₁ hend h₁ ↦ ?_) hw
  · obtain ⟨-, -, i, hi, rfl⟩ := hchosen.mp h
    rw [List.mem_singleton.mp ho]
    exact HolderWrite.askable httl hi.1
  · refine safe_bind (held_safe hs) fun i w₂ ⟨hi, h₂⟩ ↦ ?_
    cases i with
    | none => exact safe_throw
    | some cur =>
      obtain ⟨hholds, hlive⟩ := hi cur rfl
      refine apply_safe (hchosen.mpr ⟨rfl, hlive, cur, hholds, ?_⟩) h₂
      obtain (_ | ttlMs) | _ := write <;> rfl
  · have hnothing := hend.not_nothing hne
    obtain ⟨t | _ | _ | _, _⟩ := out
    · exact t.elim
    · exact Verb.keeps_pure fun w₂ h₂ ↦
        ⟨answered_of_left hend h₂ fun k _ _ _ ↦ hout w₂ k, h₁.trans h₂⟩
    · exact Verb.keeps_pure fun w₂ h₂ ↦ ⟨.recorded hreq (hend.later h₂), h₁.trans h₂⟩
    · exact absurd rfl (hnothing _)

theorem renew_spares {f : Fence} {E : Error P → Prop} (hG : Permits (.renew f req) H G)
    (hw : Reachable w) :
    (renew cfg fuel f req).Spares Later H G (Then (.renew f req) (fun _ ↦ .written) w)
      (Then (.renew f req) (fun _ ↦ .written) w) E w :=
  holderWrite_spares rfl (fun _ _ ↦ rfl) rfl (by simp [Chosen, HolderWrite.op]) hG hw

theorem renewFor_spares {f : Fence} {ttlMs : ℕ} {E : Error P → Prop}
    (hG : Permits (.renewFor f ttlMs req) H G) (hw : Reachable w) :
    (renewFor cfg fuel f ttlMs req).Spares Later H G
      (Then (.renewFor f ttlMs req) (fun _ ↦ .written) w)
      (Then (.renewFor f ttlMs req) (fun _ ↦ .written) w) E w := by
  refine pureCheck_safe.spares_bind (fun _ ↦ .refl) fun _ w₁ ⟨_, h₁⟩ ↦ ?_
  refine (holderWrite_spares (c := .renewFor f ttlMs req) rfl (fun _ _ ↦ rfl) rfl ?_ hG
    (hw.later h₁)).imp (fun _ _ h ↦ ⟨h.1, h₁.trans h.2⟩) fun _ _ h ↦ ⟨h.1, h₁.trans h.2⟩
  simp [Chosen, HolderWrite.op, and_comm]

theorem release_spares {f : Fence} {E : Error P → Prop} (hG : Permits (.release f req) H G)
    (hw : Reachable w) :
    (release cfg fuel f req).Spares Later H G (Then (.release f req) (fun _ ↦ .written) w)
      (Then (.release f req) (fun _ ↦ .written) w) E w := by
  refine holderWrite_spares rfl (fun _ _ ↦ rfl) rfl ?_ hG hw
  simp [Chosen, HolderWrite.op, and_comm]

/-- A checked transaction may be asked for the branch it takes. -/
theorem askable_of_takes {t : TxnOps P} {J : String → Bool → Prop} {ok : Bool}
    (hthen : validate t.ops true = .ok ()) (helse : validate t.elseOps false = .ok ())
    (h : Takes snap J t ok) {o : Op P} (ho : o ∈ if ok then t.ops else t.elseOps) :
    Askable snap o := by
  cases ok with
  | true =>
    refine askable_of_validateOp (validateOp_of_validate hthen ho) fun key ttlMs heq ↦ ?_
    subst heq
    exact h.2 key (mem_lockKeys.mpr ⟨ttlMs, ho⟩)
  | false =>
    refine askable_of_validateOp (validateOp_of_validate helse ho) fun key ttlMs heq ↦ ?_
    subst heq
    exact absurd ho (not_lockAcquire helse)

omit [DecidableEq P] [Calm G] in
theorem fencesAt_later {locks : List String} {main : ℕ} (hw : Reachable w) :
    Within H (fun _ w' ↦ Later w w') (fencesAt locks main) w := by
  rw [fencesAt]
  split
  · exact safe_pure fun _ hl ↦ hl
  · refine safe_bind (get_safe hw) fun i w₁ ⟨_, h₁⟩ ↦ ?_
    split
    · exact safe_throw
    · exact pureCheck_safe.imp fun _ _ h ↦ h₁.trans h.2

omit [DecidableEq P] in
/-- The audit record of a commit that took locks has the place of each. -/
theorem exists_fencesOf {t : TxnOps P} {k : Committed P} (hw : Reachable w)
    (hk : .committed k ∈ w.trace) (ha : k.author = .call (.txn t req)) (hok : k.ok = true) :
    (t.lockKeys ≠ [] → ∃ s ∈ k.staged, starts eventsPrefix s.key) ∧
      ∃ fences, fencesOf (P := P) t.lockKeys (k.head + 1) (Committed.subs k) = .ok fences := by
  obtain ⟨post, hpost⟩ := exists_suffix_of_mem hk
  obtain ⟨w₀, h₀, -⟩ := hw.planned hpost
  have hg := h₀.planned.guarded
  rw [ha] at hg
  obtain ⟨-, -, hsubs⟩ := hg hok
  by_cases hlocks : t.lockKeys = []
  · exact ⟨fun h ↦ absurd hlocks h, [], by rw [hlocks]; rfl⟩
  obtain ⟨subs, hevent, hplace⟩ := hsubs hlocks
  rw [h₀.head] at hevent
  refine ⟨fun _ ↦ ⟨_, hevent, starts_eventsKey _⟩, ?_⟩
  -- The batch has one audit record, so its places are these.
  have hcommitted : Committed.subs k = subs := by
    cases hl : lastOf k.staged (eventsKey (k.head + 1)) with
    | none => exact absurd rfl (lastOf_none.mp hl _ hevent)
    | some p =>
      obtain ⟨-, hmem, hp⟩ := lastOf_some hl
      have hps := h₀.planned.audit _ hmem _ hevent (by rw [hp]; exact starts_eventsKey _)
        (starts_eventsKey _)
      rw [Committed.subs, hl, Option.bind_some, hps]
      rfl
  rw [hcommitted, fencesOf]
  have hall : ∀ keys : List String, (∀ key ∈ keys, ∃ s ∈ subs, s.key = key) →
      ∃ fences, keys.mapM (fenceOf (P := P) (k.head + 1) subs) = .ok fences := by
    intro keys hkeys
    induction keys with
    | nil => exact ⟨[], rfl⟩
    | cons key keys ih =>
      obtain ⟨s, hs, hkey⟩ := hkeys key List.mem_cons_self
      obtain ⟨fences, hfences⟩ := ih fun key' h ↦ hkeys key' (List.mem_cons_of_mem _ h)
      have hfind : (subs.find? (·.key = key)).isSome := by
        rw [List.find?_isSome]
        exact ⟨s, hs, by simpa using hkey⟩
      obtain ⟨s', hs'⟩ := Option.isSome_iff_exists.mp hfind
      rw [List.mapM_cons, hfences, fenceOf, hs']
      exact ⟨_, rfl⟩
  exact hall t.lockKeys hplace

omit [DecidableEq P] [Calm G] in
/-- The fences read back are those of the commit. -/
theorem fencesAt_keeps {locks : List String} {k : Committed P} {fences : List Fence}
    (hw : Reachable w) (hk : .committed k ∈ w.trace)
    (haudit : locks ≠ [] → ∃ s ∈ k.staged, starts eventsPrefix s.key)
    (hfences : fencesOf (P := P) locks (k.head + 1) (Committed.subs k) = .ok fences) :
    (fencesAt locks (k.head + 1)).Keeps Later H (fun f w' ↦ f = fences ∧ Later w w') Error.tooOld
      w := by
  rw [fencesAt]
  split <;> rename_i hlocks
  · rw [List.isEmpty_iff.mp hlocks] at hfences
    cases hfences
    exact Verb.keeps_pure fun _ hl ↦ ⟨rfl, hl⟩
  · obtain ⟨s, hs, hkey⟩ := haudit fun h ↦ hlocks (by rw [h]; rfl)
    refine Verb.keeps_bind (fun _ ↦ .refl) ((get_keeps hw).imp
      fun i w₁ ⟨⟨w₀, h₀, hi⟩, h₁⟩ ↦ ?_)
    obtain ⟨ev, hev, hsubs⟩ := cur_subs (hw.later h₀) ((Later.grows h₀).trace.mem hk) hs hkey
    rw [hi, hev]
    dsimp only
    rw [hsubs]
    rw [fencesOf] at hfences
    rw [hfences]
    exact Verb.keeps_pure fun w₂ h₂ ↦ ⟨rfl, h₁.trans h₂⟩

theorem txn_spares {t : TxnOps P} {E : Error P → Prop} (hE : ∀ e, Error.tooOld e → E e)
    (hG : Permits (.txn t req) H G) (hw : Reachable w) :
    (txn cfg fuel t req).Spares Later H G (Then (.txn t req) .txn w) (Then (.txn t req) .txn w) E
      w := by
  refine pureCheck_safe.spares_bind (fun _ ↦ .refl) fun _ w₁ ⟨hthen, h₁⟩ ↦
    pureCheck_safe.spares_bind (fun _ ↦ .refl) fun _ w₂ ⟨helse, h₂⟩ ↦
    pureCheck_safe.spares_bind (fun _ ↦ .refl) fun _ w₃ ⟨_, h₃⟩ ↦
    pureCheck_safe.spares_bind (fun _ ↦ .refl) fun _ w₄ ⟨_, h₄⟩ ↦ ?_
  have hw₄ : Later w w₄ := h₁.trans (h₂.trans (h₃.trans h₄))
  refine (expireDeadLocks_safe hG.expire (hw.later hw₄) fun key hkey ↦
    expires_lock (starts_of_mem_lockKeys hthen hkey)).spares_bind (fun _ ↦ .refl)
      fun _ w₅ h₅ ↦ ?_
  have hw₅ : Later w w₅ := hw₄.trans h₅
  refine call_engine (D := fun _ ↦ True) rfl rfl hG
    (callPlan_sound rfl rfl (fun t' req' h hne ↦ ?_) fun _ h o ho ↦ ?_) (fun _ hs ↦ ?_)
    (fun out w₆ hout h₆ ↦ ?_) (hw.later hw₅)
  · cases h
    exact audited_of_lockKeys hthen hne
  · obtain ⟨rfl, htakes⟩ := h
    exact askable_of_takes hthen helse htakes ho
  · exact safe_bind (takesThen_safe hs t) fun b w₇ ⟨hb, h₇⟩ ↦ apply_safe ⟨rfl, hb⟩ h₇
  have hw₆ : Later w w₆ := hw₅.trans h₆
  have hr₆ := hw.later hw₆
  obtain ⟨t' | ⟨rev, ok⟩ | ⟨rev, ok⟩ | head, _⟩ := out
  · exact t'.elim
  · obtain ⟨head, rfl, k, hk, ha, rfl, rfl⟩ := hout
    have hend (fences : List Fence) (w₇ : World P) (h₇ : Later w₆ w₇)
        (hf : (if k.ok then fencesOf (P := P) t.lockKeys (k.head + 1) (Committed.subs k)
          else .ok []) = .ok fences) :
        Then (.txn t req) .txn w ⟨k.head + 1, k.ok, false, fences⟩ w₇ := by
      refine ⟨.committed ((Later.grows h₇).trace.mem hk) ha ?_, hw₆.trans h₇⟩
      rw [outcome, hf]
    dsimp only [TxnResult.ofOutcome]
    cases hok : k.ok with
    | true =>
      obtain ⟨haudit, fences, hfences⟩ := exists_fencesOf hr₆ hk ha hok
      rw [hok] at hend
      refine Verb.keeps_bind (fun _ ↦ .refl) (((fencesAt_keeps hr₆ hk haudit hfences).errors
        fun e he _ ↦ hE e he).imp fun f w₇ ⟨hf, h₇⟩ ↦ Verb.keeps_pure fun w₈ h₈ ↦ ?_)
      subst hf
      exact hend f w₈ (h₇.trans h₈) hfences
    | false =>
      rw [hok] at hend
      exact Verb.keeps_bind (fun _ ↦ .refl) (Verb.keeps_pure fun w₇ h₇ ↦
        Verb.keeps_pure fun w₈ h₈ ↦ hend [] w₈ (h₇.trans h₈) rfl)
  · refine Verb.Keeps.errors (E := fun _ ↦ True) ?_ fun e _ ⟨_, _, h⟩ ↦ (nomatch h)
    have hend {F : World P → World P → Prop} (fences : List Fence) (w₇ : World P)
        (h₇ : Later w₆ w₇) :
        Within F (Then (.txn t req) .txn w) (pure ⟨rev, ok, true, fences⟩) w₇ :=
      safe_pure fun w₈ h₈ ↦ ⟨.recorded rfl (hout.later (h₇.trans h₈)), hw₆.trans (h₇.trans h₈)⟩
    cases ok with
    | true => exact safe_bind (fencesAt_later hr₆) hend
    | false => exact safe_bind (safe_pure fun _ hl ↦ hl) hend
  · exact Verb.keeps_bind (fun _ ↦ .refl) (Verb.keeps_pure (Q := fun _ w₇ ↦ _) fun w₇ h₇ ↦
      Verb.keeps_pure fun w₈ h₈ ↦ ⟨.unwritten rfl, hw₆.trans (h₇.trans h₈)⟩)

end Verbs

/-! ## The controller -/

section Tick

variable {head fuel : ℕ} {snap : String → Option (Item P)} {w w' : World P} {cfg : Config P}
  {kind : CollectKind}

/-- What a collector's plan finds: it takes each key it deletes for what it collects. -/
def CollectPlan (kind : CollectKind) (_ : ℕ) (snap : String → Option (Item P)) (ok : Bool)
    (ops : List (Op P)) (_ : World P) : Prop :=
  ok = true ∧ ∃ planned : List String, ops = planned.map .delete ∧ ∀ k ∈ planned,
    starts eventsPrefix k = false ∧ ∃ i, snap k = some i ∧ Collectable snap i kind

theorem collectPlan_sound {audited : Bool} :
    Sound (.collect kind) (gcRequest kind.text) ⟨audited, false, 0⟩ (CollectPlan (P := P) kind) where
  later h _ := h
  ask := by
    rintro head snap ok ops w - ⟨-, planned, rfl, h⟩ o ho
    obtain ⟨k, hk, rfl⟩ := List.mem_map.mp ho
    exact (h k hk).1
  guarded := by
    rintro head snap ok ops w staged hs rfl ⟨-, planned, rfl, h⟩ hb s hmem hv
    rw [hs.cur rfl]
    exact (h s.key (hb.delete hmem hv)).2

variable {G : World P → World P → Prop} [Calm G]

/-- What `still` says of an item it says of one the collector takes. -/
def Decides (G : World P → World P → Prop) (kind : CollectKind)
    (still : Item P → ℕ → Run P Bool) : Prop :=
  ∀ {w : World P} {head snap} (i : Item P), Seen head snap w →
    Within G (fun b w' ↦ (b = true → Collectable snap i kind) ∧ Later w w') (still i head) w

theorem stillHeld_safe {still : Item P → ℕ → Run P Bool} {keys : List String}
    (hstill : Decides G kind still) (hs : Seen head snap w) :
    Within G (fun planned w' ↦ (∀ k ∈ planned, k ∈ keys ∧
      ∃ i, snap k = some i ∧ Collectable snap i kind) ∧ Later w w') (stillHeld still head keys) w := by
  induction keys generalizing w with
  | nil => exact safe_pure fun w' hl ↦ ⟨by simp, hl⟩
  | cons k ks ih =>
    have hcons {planned : List String}
        (h : ∀ k' ∈ planned, k' ∈ ks ∧ ∃ i, snap k' = some i ∧ Collectable snap i kind) :
        ∀ k' ∈ planned, k' ∈ k :: ks ∧ ∃ i, snap k' = some i ∧ Collectable snap i kind :=
      fun k' hk' ↦ ⟨List.mem_cons_of_mem _ (h k' hk').1, (h k' hk').2⟩
    refine safe_bind (read_safe hs) fun i w₁ ⟨hi, hs₁, h₁⟩ ↦ ?_
    cases i with
    | none => exact (ih hs₁).imp fun planned w₂ h ↦ ⟨hcons h.1, h₁.trans h.2⟩
    | some i =>
      refine safe_bind (hstill i hs₁) fun b w₂ ⟨hb, h₂⟩ ↦ safe_bind (ih (hs₁.later h₂))
        fun rest w₃ ⟨hrest, h₃⟩ ↦ safe_pure fun w₄ h₄ ↦
          ⟨?_, h₁.trans (h₂.trans (h₃.trans h₄))⟩
      split
      · intro k' hk'
        obtain rfl | hk' := List.mem_cons.mp hk'
        · exact ⟨List.mem_cons_self, i, hi.symm, hb ‹_›⟩
        · exact hcons hrest k' hk'
      · exact hcons hrest

/-- `G` allows what a collector takes. -/
def Collects (G : World P → World P → Prop) : Prop :=
  ∀ {w : World P} {kind : CollectKind} {planned : List String} {audited : Bool}
    {staged : List (Staged P)}, w.pending = none → Planned w (.collect kind) true staged →
    (∀ k ∈ planned, ∃ i, w.cur k = some i ∧ Collectable w.cur i kind) →
    Built w.cur w.store.head (gcRequest kind.text) ⟨audited, false, 0⟩ true (planned.map .delete)
      staged → G w (w.taken (.collect kind) true staged)

omit [Calm G] in
theorem collects_exact [DecidableEq P] : Collects (P := P) Exact :=
  fun hfree hp hplanned hb ↦ .take hfree hp ⟨_, _, hplanned, hb⟩

theorem collect_safe {still : Item P → ℕ → Run P Bool} {keys : List String} (hG : Collects G)
    (hw : Reachable w)
    (hstill : Decides G kind still) (hkeys : ∀ k ∈ keys, starts eventsPrefix k = false) :
    Within G (fun _ w' ↦ Later w w') (collect cfg fuel kind still keys) w := by
  refine eachChunk_safe fun chunk hchunk w₁ h₁ ↦ safe_bind (engine_safe (D := fun _ ↦ True)
    collectPlan_sound (not_idempotent_of (by simp)) (fun _ hs ↦ ?_) ?_ (hw.later h₁))
    fun out w₂ ⟨_, h₂⟩ ↦ safe_pure fun w₃ h₃ ↦ h₂.trans h₃
  · refine safe_bind (stillHeld_safe hstill hs) fun planned w₃ ⟨hplanned, h₃⟩ ↦
      safe_pure fun w₄ h₄ ↦ ⟨fun t _ ↦ t.elim, fun ok ops h ↦ ?_, h₃.trans h₄⟩
    cases h
    exact ⟨rfl, planned, rfl, fun k hk ↦
      ⟨hkeys k (mem_of_mem_chunks hchunk (hplanned k hk).1), (hplanned k hk).2⟩⟩
  · rintro w' ok ops staged hfree hp ⟨rfl, planned, rfl, h⟩ hb
    exact hG hfree hp (fun k hk ↦ (h k hk).2) hb

omit [Calm G] in
theorem finalized_decides : Decides (P := P) G .finalize fun i _ ↦ return finalized i := by
  intro w head snap i hs
  refine safe_pure fun w' hl ↦ ⟨fun h ↦ ?_, hl⟩
  rw [finalized, Bool.and_eq_true] at h
  exact ⟨Option.isSome_iff_ne_none.mp h.1, List.isEmpty_iff.mp h.2⟩

omit [Calm G] in
theorem noneAlive_safe {alive : String → Run P Bool} {os : List String}
    {D : String → Prop}
    (halive : ∀ {w' : World P} (o : String), Later w w' →
      Within G (fun b w'' ↦ (b = false → D o) ∧ Later w' w'') (alive o) w') (hl : Later w w') :
    Within G (fun b w'' ↦ (b = true → ∀ o ∈ os, D o) ∧ Later w' w'') (noneAlive alive os) w' := by
  induction os generalizing w' with
  | nil => exact safe_pure fun w'' h ↦ ⟨by simp, h⟩
  | cons o os ih =>
    refine safe_bind (halive o hl) fun b w₁ ⟨hb, h₁⟩ ↦ ?_
    cases b with
    | true => exact safe_pure fun w₂ h₂ ↦ ⟨fun h ↦ (nomatch h), h₁.trans h₂⟩
    | false =>
      refine (ih (hl.trans h₁)).imp fun b w₂ ⟨hrest, h₂⟩ ↦ ⟨fun h o' ho' ↦ ?_, h₁.trans h₂⟩
      obtain rfl | ho' := List.mem_cons.mp ho'
      · exact hb rfl
      · exact hrest h o' ho'

theorem orphan_decides : Decides (P := P) G .orphan fun i head ↦ orphan (existsAt · head) i := by
  intro w head snap i hs
  dsimp only
  rw [orphan]
  split <;> rename_i hi
  · exact safe_pure fun w' hl ↦ ⟨fun h ↦ (nomatch h), hl⟩
  · simp only [Bool.or_eq_true, List.isEmpty_iff, not_or, Option.not_isSome_iff_eq_none] at hi
    refine (noneAlive_safe (D := fun o ↦ snap o = none) (fun o h ↦ ?_) .refl).imp
      fun b w₁ ⟨hb, h₁⟩ ↦ ⟨fun h ↦ ⟨hi.1, hi.2, hb h⟩, h₁⟩
    refine safe_bind (read_safe (hs.later h)) fun o' w₂ ⟨ho, _, h₂⟩ ↦
      safe_pure fun w₃ h₃ ↦ ⟨fun h ↦ ?_, h₂.trans h₃⟩
    rw [← ho]
    simpa using h

theorem gcPages_safe {after : Option String} :
    Within G (fun items w' ↦ (∀ i ∈ items, starts eventsPrefix i.key = false) ∧ Later w w')
      (gcPages (P := P) head fuel after) w := by
  induction fuel generalizing w after with
  | zero => exact safe_stuck
  | succ fuel ih =>
    have hpage : Within G (fun items w' ↦ (∀ i ∈ items, starts eventsPrefix i.key = false) ∧
        Later w w') (gcPage (P := P) after head) w := by
      refine safe_look fun w₁ h₁ w₂ h₂ items hitems ↦ ⟨fun i hi ↦ ?_, h₁.trans h₂⟩
      split at hitems
      · cases hitems
        obtain ⟨e, he, rfl⟩ := List.mem_map.mp hi
        rw [gcRange_eq] at he
        have he := (List.mem_filter.mp (List.mem_of_mem_take he)).1
        have hkey : starts eventsPrefix e.1 = false := by simpa using (List.mem_filter.mp he).2
        exact hkey
      · cases hitems
    refine safe_bind hpage fun items w₁ ⟨hitems, h₁⟩ ↦ ?_
    split
    · exact safe_pure fun w₂ h₂ ↦ ⟨hitems, h₁.trans h₂⟩
    · refine safe_bind ih fun rest w₂ ⟨hrest, h₂⟩ ↦ safe_pure fun w₃ h₃ ↦ ⟨fun i hi ↦ ?_,
        h₁.trans (h₂.trans h₃)⟩
      obtain hi | hi := List.mem_append.mp hi
      · exact hitems i hi
      · exact hrest i hi

omit [Calm G] in
theorem filterItems_safe {keep : Item P → Run P Bool} {items : List (Item P)}
    (hkeep : ∀ {w' : World P} (i : Item P), Later w w' →
      Within G (fun _ w'' ↦ Later w' w'') (keep i) w') (hl : Later w w') :
    Within G (fun kept w'' ↦ (∀ i ∈ kept, i ∈ items) ∧ Later w' w'') (filterItems keep items) w' := by
  induction items generalizing w' with
  | nil => exact safe_pure fun _ h ↦ ⟨by simp, h⟩
  | cons i is ih =>
    refine safe_bind (hkeep i hl) fun b w₁ h₁ ↦ ?_
    cases b with
    | true =>
      refine safe_bind (ih (hl.trans h₁)) fun kept w₂ ⟨hkept, h₂⟩ ↦ safe_pure fun w₃ h₃ ↦
        ⟨fun j hj ↦ ?_, h₁.trans (h₂.trans h₃)⟩
      obtain rfl | hj := List.mem_cons.mp hj
      · exact List.mem_cons_self
      · exact List.mem_cons_of_mem _ (hkept j hj)
    | false => exact (ih (hl.trans h₁)).imp fun kept w₂ ⟨hkept, h₂⟩ ↦
        ⟨fun j hj ↦ List.mem_cons_of_mem _ (hkept j hj), h₁.trans h₂⟩

theorem tick_safe {now : ℕ} (hG : Collects G) (hexpire : ∀ keys, Expires keys G) (hw : Reachable w)
    (hnow : now ≤ w.mono) :
    Within G (fun _ w' ↦ Later w w') (tick cfg fuel now) w := by
  have hitems : Within G (fun items w' ↦ (∀ i ∈ items, starts eventsPrefix i.key = false) ∧
      Later w w') (gcItems (P := P) fuel) w :=
    safe_bind (head_safe hw) fun _ _ ⟨_, _, _, h₁⟩ ↦ gcPages_safe.imp fun _ _ h ↦
      ⟨h.1, h₁.trans h.2⟩
  refine safe_bind hitems fun items w₁ ⟨hevents, h₁⟩ ↦
    safe_bind (collect_safe hG (hw.later h₁) finalized_decides fun k hk ↦ ?_) fun done w₂ h₂ ↦
      safe_bind (filterItems_safe (w := w₂) (fun i h ↦ ?_) .refl) fun candidates w₃ ⟨hmem, h₃⟩ ↦
        safe_bind (collect_safe hG (hw.later (h₁.trans (h₂.trans h₃))) orphan_decides fun k hk ↦ ?_)
          fun orphans w₄ h₄ ↦ ?_
  · obtain ⟨i, hi, rfl⟩ := List.mem_map.mp hk
    exact hevents i (List.mem_filter.mp hi).1
  · rw [orphan]
    split
    · exact safe_pure fun _ hl ↦ hl
    · exact (noneAlive_safe (D := fun _ ↦ True) (fun o _ ↦
        safe_pure fun _ hl ↦ ⟨fun _ ↦ trivial, hl⟩) .refl).imp fun _ _ h ↦ h.2
  · obtain ⟨i, hi, rfl⟩ := List.mem_map.mp hk
    exact hevents i (hmem i hi)
  have hw₄ : Later w w₄ := h₁.trans (h₂.trans (h₃.trans h₄))
  refine safe_bind (due_safe (hw.later hw₄)) fun keys w₅ ⟨hkeys, h₅⟩ ↦
    safe_bind (expire_safe (hexpire _) (hw.later (hw₄.trans h₅))
      (hnow.trans (Later.mono_le (hw₄.trans h₅))) hkeys) fun _ w₆ h₆ ↦ safe_pure fun w₇ h₇ ↦ ?_
  exact hw₄.trans (h₅.trans (h₆.trans h₇))

end Tick

/-! ## Any number of callers -/

section Runs

variable [DecidableEq P] {cfg : Config P} {fuel : ℕ} {w : World P}

theorem permits_exact {c : Call P} : Permits c Exact Exact where
  expire := expires_exact
  take hfree hreq hp hc hb := .take hfree hp ⟨_, _, hreq, hc, hb⟩

/-- **Every step of a call is within `G`** where `G` allows the commits the call may make. -/
theorem call_within {G : World P → World P → Prop} [Calm G] {c : Call P} (hG : Permits c G G)
    (hcollect : Collects G) (hexpire : ∀ keys, Expires keys G) (hw : Reachable w) :
    Within G (fun a w' ↦ Answered c a w') (call cfg fuel c) w := by
  have hdone {α : Type} {x : Run P α} {f : α → Answer}
      (h : x.Spares Later G G (Then c f w) (Then c f w) (fun _ ↦ True) w) :
      Within G (fun a w' ↦ Answered c a w') (do return f (← x)) w :=
    safe_bind h.keeps fun _ _ ⟨ha, h₁⟩ ↦ safe_pure fun _ h₂ ↦ ha.later (hw.later h₁) h₂
  cases c with
  | create key value req => exact hdone (create_spares hG hw)
  | txn t req => exact hdone (txn_spares (fun _ _ ↦ trivial) hG hw)
  | delete key expect req => exact hdone (delete_spares (fun _ _ ↦ trivial) hG hw)
  | lock resource ttlMs req => exact hdone (lock_spares hG hw)
  | renew f req => exact hdone (renew_spares hG hw)
  | renewFor f ttlMs req => exact hdone (renewFor_spares hG hw)
  | release f req => exact hdone (release_spares hG hw)
  | tick lag =>
    refine safe_bind nowMs_safe fun now w₁ ⟨w', h', hnow, h''⟩ ↦ ?_
    have hle : now - lag ≤ w₁.mono := (Nat.sub_le now lag).trans (hnow ▸ Later.mono_le h'')
    exact safe_bind (tick_safe hcollect hexpire (hw.later (h'.trans h'')) hle)
      fun t w₂ h₂ ↦ safe_pure fun w₃ h₃ ↦ .unwritten rfl

/-- **Every step of every call is one `Exact` allows.** -/
theorem call_safe (c : Call P) (hw : Reachable w) :
    Safe (fun a w' ↦ Answered c a w') (call cfg fuel c) w :=
  call_within permits_exact collects_exact (fun _ ↦ expires_exact) hw

theorem call_keeps (c : Call P) (hw : Reachable w) :
    Prog.Keeps Later Exact (fun r w ↦ ∀ a, r = .ok a → Answered c a w) (call cfg fuel c) w := by
  refine Prog.Keeps.imp (call_safe c hw) id id fun r w hr a ha ↦ ?_
  subst ha
  exact hr

/-- **In every run the world is reachable, and every program of the run still has its rule.** -/
theorem runs_keep (turns : List (Turn Env ℕ (Call P))) :
    Reachable (runs cfg fuel turns).state ∧ ∀ t ∈ (runs cfg fuel turns).threads,
      t.2.Keeps Later Exact (fun r w ↦ ∀ a, r = .ok a → Answered t.1 a w)
        (runs cfg fuel turns).state :=
  Pool.keeps_run (R := Later) (G := Exact) (I := Reachable)
    (Q := fun c (r : Except (Error P) Answer) w ↦ ∀ a, r = .ok a → Answered c a w) (fun _ ↦ .refl)
    (fun h h' ↦ h.trans h') .idle (fun h ↦ .single h.next) (fun h h' ↦ h.later h')
    (fun e _ _ ↦ .single (.env e _)) (fun d _ h ↦ h.reopen d) (fun c _ hw ↦ call_keeps c hw) .init
    turns

/-- **In every run of any number of callers the world is reachable**, and a call that has ended
answers with the outcome of its commit, from the record of its request, or that nothing was
stored. -/
theorem runs_reachable (turns : List (Turn Env ℕ (Call P))) :
    Reachable (runs cfg fuel turns).state ∧ ∀ c a, (c, .done (.ok a)) ∈ (runs cfg fuel turns).threads →
      Answered c a (runs cfg fuel turns).state :=
  ⟨(runs_keep turns).1, fun _ a hmem ↦ (runs_keep turns).2 _ hmem _ .refl a rfl⟩

end Runs

end Contract

end Spira.Store
