import Mathlib.Data.List.Infix
import Spira.StateStore.Atomic

/-!
# Retries

A call made again under its request finds the record its commit left and is answered from it: it
commits nothing, and answers what the commit did (`runs_retry`).  What it answers from differs from
verb to verb.  Most of them need only the record; a transaction reads the fences of its locks from
its audit record, which stays as it was committed.  A delete looks at its key again, at the current
head, so its answer is the first one's only while the key is there or not as it was then (`Stays`).
-/

set_option autoImplicit false

namespace Spira.Store

open KeyPrefix (starts)

namespace Contract

variable {P : Type}

/-! ## The checks of a call -/

section Passes

/-- What a call is refused without, before it looks at the store. -/
def Passes (cfg : Config P) : Call P → Prop
  | .create key value _ =>
    let t : TxnOps P := { compares := [.modRev key none], ops := [.put key value] }
    validate t.ops false = .ok () ∧
      checkLimits t (Record.bookkeeping ⟨audited [key], true, compareBytes cfg t.compares⟩) = .ok ()
  | .txn t _ =>
    validate t.ops true = .ok () ∧ validate t.elseOps false = .ok () ∧
      checkLockTtls cfg t.ops = .ok () ∧
      checkLimits t (Record.bookkeeping
        ⟨audited ((t.ops ++ t.elseOps).map Op.key), true, compareBytes cfg t.compares⟩) = .ok ()
  | .delete key _ _ =>
    let t : TxnOps P := { ops := [.delete key] }
    validate t.ops false = .ok () ∧
      checkLimits t (Record.bookkeeping ⟨audited [key], true, 0⟩) = .ok ()
  | .lock _ ttlMs _ | .renewFor _ ttlMs _ => checkLockTtl cfg ttlMs = .ok ()
  | .renew _ _ | .release _ _ | .tick _ => True

variable [DecidableEq P] {cfg : Config P} {fuel : ℕ}

/-- One step, and a call it commits for has passed its checks. -/
structure Passed (cfg : Config P) (w w' : World P) : Prop where
  exact : Exact w w'
  passes : ∀ k c, w'.trace = .committed k :: w.trace → k.author = .call c → Passes cfg c

/-- A batch that is taken for no call, or for one that has passed its checks. -/
theorem Passed.take {w : World P} {author : Author P} {ok : Bool} {staged : List (Staged P)}
    (h : Exact w (w.taken author ok staged)) (hc : ∀ c, author = .call c → Passes cfg c) :
    Passed cfg w (w.taken author ok staged) where
  exact := h
  passes k c hk ha := by
    obtain ⟨hk, -⟩ := List.cons.inj hk
    obtain rfl := Happened.committed.inj hk
    exact hc c ha

theorem Passed.of_trace {w w' : World P} (h : Exact w w')
    (ht : ∀ k, w'.trace ≠ .committed k :: w.trace) : Passed cfg w w' :=
  ⟨h, fun k _ hk ↦ absurd hk (ht k)⟩

instance : Calm (Passed cfg) where
  idle w := .of_trace (.idle w) fun _ ↦ List.ne_cons_self
  fail hfree := .of_trace (.fail hfree) fun _ h ↦ (nomatch (List.cons.inj h).1)
  stamp w := .of_trace (.stamp w) fun _ ↦ (stamp_trace w).symm ▸ List.ne_cons_self
  drop keys hfree hnow := .of_trace (.drop keys hfree hnow) fun _ ↦ List.ne_cons_self

theorem expires_passed {keys : List String} : Expires keys (Passed cfg) :=
  fun hfree hp hplanned hres ↦ .take (expires_exact hfree hp hplanned hres) (by simp)

theorem collects_passed : Collects (Passed cfg) :=
  fun hfree hp hplanned hb ↦ .take (collects_exact hfree hp hplanned hb) (by simp)

theorem permits_passed {c : Call P} (hc : Passes cfg c) :
    Permits c (Passed cfg) (Passed cfg) where
  expire := expires_passed
  take hfree hreq hp hchosen hb := .take (permits_exact.take hfree hreq hp hchosen hb) (by simpa)

/-- **A call commits only where it has passed its checks.** -/
theorem call_passed (c : Call P) {w : World P} (hw : Reachable w) :
    Within (Passed cfg) (fun _ _ ↦ True) (call cfg fuel c) w := by
  by_cases hc : Passes cfg c
  · exact (call_within (permits_passed hc) collects_passed (fun _ ↦ expires_passed) hw).imp
      fun _ _ _ ↦ trivial
  -- It fails at the first check it does not pass.
  have hdone {α : Type} {x : Run P α} {f : α → Answer}
      (h : Within (Passed cfg) (fun _ _ ↦ True) x w) :
      Within (Passed cfg) (fun _ _ ↦ True) (do return f (← x)) w :=
    safe_bind h fun _ _ _ ↦ safe_pure fun _ _ ↦ trivial
  cases c with
  | create key value req =>
    exact hdone (safe_bind pureCheck_safe fun _ _ ⟨h₁, _⟩ ↦ safe_bind pureCheck_safe
      fun _ _ ⟨h₂, _⟩ ↦ absurd ⟨h₁, h₂⟩ hc)
  | txn t req =>
    exact hdone (safe_bind pureCheck_safe fun _ _ ⟨h₁, _⟩ ↦ safe_bind pureCheck_safe
      fun _ _ ⟨h₂, _⟩ ↦ safe_bind pureCheck_safe fun _ _ ⟨h₃, _⟩ ↦ safe_bind pureCheck_safe
      fun _ _ ⟨h₄, _⟩ ↦ absurd ⟨h₁, h₂, h₃, h₄⟩ hc)
  | delete key expect req =>
    exact hdone (safe_bind pureCheck_safe fun _ _ ⟨h₁, _⟩ ↦ safe_bind pureCheck_safe
      fun _ _ ⟨h₂, _⟩ ↦ absurd ⟨h₁, h₂⟩ hc)
  | lock resource ttlMs req => exact hdone (safe_bind pureCheck_safe fun _ _ h ↦ absurd h.1 hc)
  | renewFor f ttlMs req =>
    exact hdone (f := fun _ ↦ .written) (safe_bind pureCheck_safe fun _ _ h ↦ absurd h.1 hc)
  | _ => exact absurd trivial hc

/-- **In every run, the calls that have committed have passed their checks.** -/
theorem runs_passed (turns : List (Turn Env ℕ (Call P))) {k : Committed P} {c : Call P}
    (hk : .committed k ∈ (worldAt cfg fuel turns).trace) (ha : k.author = .call c) :
    Passes cfg c := by
  have hkeep (turns : List (Turn Env ℕ (Call P))) :
      Reachable (worldAt cfg fuel turns) ∧ ∀ t ∈ (runs cfg fuel turns).threads,
        t.2.Keeps Later (Passed cfg) (fun _ _ ↦ True) (worldAt cfg fuel turns) :=
    Pool.keeps_run (I := Reachable) (Q := fun _ _ _ ↦ True) (fun _ ↦ .refl)
      (fun h h' ↦ h.trans h') Calm.idle (fun h ↦ .single h.exact.next) (fun h h' ↦ h.later h')
      (fun e _ _ ↦ .single (.env e _)) (fun d _ h ↦ h.reopen d)
      (fun c _ hw ↦ Prog.Keeps.imp (call_passed c hw) id id fun _ _ _ ↦ trivial) .init turns
  induction turns using List.reverseRecOn with
  | nil => simp [worldAt, runs, Pool.run, World.init] at hk
  | append_singleton turns m ih =>
    cases m with
    | env e =>
      rw [worldAt_snoc] at hk
      exact ih (by rwa [← env_trace e])
    | spawn call =>
      rw [worldAt_snoc] at hk
      exact ih hk
    | restart now =>
      rw [worldAt_snoc] at hk
      exact ih (List.mem_of_ne_of_mem (by simp) hk)
    | turn i =>
      have hx : Passed cfg (worldAt cfg fuel turns) (worldAt cfg fuel (turns ++ [.turn i])) := by
        rw [worldAt_snoc]
        exact Pool.keeps_turn (R := Later) (fun _ ↦ .refl) Calm.idle
          (Q := fun _ (_ : Except (Error P) Answer) _ ↦ True) (hkeep turns).2 i
      obtain ⟨before, hsuf⟩ := exists_suffix_of_mem hk
      rcases hx.exact.next.trace hsuf with hsuf | ⟨-, -, hh, hnow, -, htaken⟩
      · exact ih (hsuf.mem List.mem_cons_self)
      · refine hx.passes k c ?_ ha
        rw [htaken, World.taken, hh, hnow]

end Passes

/-! ## While a record stays -/

/-- The record of `req` is the one `k` left; and where `c` deletes a key, it is there exactly if it
was at the revision of `k`. -/
structure Stays (k : Committed P) (c : Call P) (req : Request P) (w : World P) : Prop where
  record : (w.cur (requestKey req.id)).map (·.modRev.main) = some (k.head + 1)
  present : ∀ key expect req', c = .delete key expect req' →
    (w.cur key).isSome = (w.itemAt (k.head + 1) key).isSome

/-- What a retry of the call `c` that committed `k` may rely on. -/
structure Retrying (k : Committed P) (c : Call P) (req : Request P) (w : World P) : Prop where
  reachable : Reachable w
  committed : .committed k ∈ w.trace
  author : k.author = .call c
  request : c.req? = some req
  stays : Stays k c req w

/-- Any number of steps, after each of which the record is still there. -/
abbrev While (k : Committed P) (c : Call P) (req : Request P) : World P → World P → Prop :=
  Relation.ReflTransGen fun w w' ↦ Next w w' ∧ Stays k c req w'

section Retrying

variable {k : Committed P} {c : Call P} {req : Request P} {w w' : World P} {h₀ : ℕ}

theorem While.later (h : While k c req w w') : Later w w' := by
  induction h with
  | refl => exact .refl
  | tail _ hn ih => exact ih.tail hn.1

theorem Retrying.on (h : Retrying k c req w) (hl : While k c req w w') : Retrying k c req w' := by
  induction hl with
  | refl => exact h
  | tail _ hn ih => exact ⟨ih.reachable.next hn.1, hn.1.grows.trace.mem ih.committed, ih.author,
      ih.request, hn.2⟩

/-- The record names the commit and its branch. -/
theorem Retrying.original (h : Retrying k c req w) :
    ∃ i, w.cur (requestKey req.id) = some i ∧ Data.original i.value.data = (k.head + 1, k.ok) := by
  obtain ⟨i, hi, hrev⟩ := Option.map_eq_some_iff.mp h.stays.record
  obtain ⟨k', call, req', hk', -, -, -, hrev', hval⟩ :=
    h.reachable.request hi (starts_requestKey _)
  obtain rfl : k' = k := h.reachable.commit_unique hk' h.committed (by omega)
  refine ⟨i, hi, ?_⟩
  rw [← Option.some.inj hval]
  rfl

/-- A program that only looks: after `n` turns it has ended, with an answer in `Q`, or with the
error that a compaction has passed the head it looks at, which is not before `h₀`. -/
abbrev Finds (k : Committed P) (c : Call P) (req : Request P) (h₀ n : ℕ) {α : Type}
    (Q : α → World P → Prop) (v : Run P α) (w : World P) : Prop :=
  v.Looks (While k c req)
    (fun r w' ↦ match r with
      | .ok a => Q a w'
      | .error e => Error.tooOld e ∧ h₀ < w'.store.compacted) n w

section Finds

variable {α β : Type} {n m : ℕ} {key : String} {Q : α → World P → Prop}

theorem finds_bind {x : Run P α} {f : α → Run P β} {Q' : β → World P → Prop}
    (hx : Finds k c req h₀ n Q x w) (hf : ∀ a w', Q a w' → Finds k c req h₀ m Q' (f a) w') :
    Finds k c req h₀ (n + m) Q' (x >>= f) w :=
  Verb.looks_bind (fun _ ↦ .refl) <| Prog.Looks.imp hx fun r w' hr ↦ match r, hr with
    | .ok a, hr => hf a w' hr
    | .error _, hr => fun _ hl ↦ ⟨hr.1, hr.2.trans_le (Later.compacted_le (While.later hl))⟩

theorem finds_pure {a : α} (h : ∀ w', While k c req w w' → Q a w') :
    Finds k c req h₀ n Q (pure a) w :=
  Verb.looks_pure h

theorem finds_check {r : Except (Error P) α} {a : α} (h : r = .ok a) :
    Finds k c req h₀ n (fun b w' ↦ b = a ∧ While k c req w w') (pureCheck r) w := by
  subst h
  exact finds_pure fun _ hl ↦ ⟨rfl, hl⟩

theorem finds_head : Finds k c req h₀ 1
    (fun head w' ↦ ∃ w₁, While k c req w w₁ ∧ head = w₁.store.head ∧ While k c req w₁ w')
    Contract.head w :=
  Verb.looks_look fun w₁ h₁ _ h₂ ↦ ⟨w₁, h₁, rfl, h₂⟩

/-- A read at a head finds what that head has. -/
theorem finds_read {w₁ : World P} (hw₁ : Reachable w₁) (h₁ : While k c req w₁ w)
    (hle : h₀ ≤ w₁.store.head) :
    Finds k c req h₀ 1 (fun i w' ↦ i = w₁.cur key ∧ While k c req w w')
      (read key w₁.store.head) w := by
  refine Verb.looks_look fun w₂ h₂ w₃ h₃ ↦ ?_
  have hs : Seen w₁.store.head w₁.cur w₂ := (Seen.now hw₁).later (While.later (h₁.trans h₂))
  split <;> rename_i r hr
  · rw [← hs.eq key]
    exact ⟨read_eq hr, h₂.trans h₃⟩
  · refine ⟨read_error hs.le hr, ?_⟩
    -- A read at a head that was fails only below the compaction point.
    have hc : w₁.store.head < w₂.store.compacted := by
      by_contra hc
      rw [Mvcc.get, Mvcc.readable_of_le (Nat.not_lt.mp hc) hs.le] at hr
      cases hr
    exact (hle.trans_lt hc).trans_le (Later.compacted_le h₃.later)

theorem finds_get (hr : Retrying k c req w) (hle : h₀ ≤ w.store.head) :
    Finds k c req h₀ 2
      (fun i w' ↦ ∃ w₁, While k c req w w₁ ∧ i = w₁.cur key ∧ While k c req w₁ w') (get key) w := by
  refine finds_bind (n := 1) (m := 1) finds_head fun head w₂ ⟨w₁, h₁, hh, h₂⟩ ↦ ?_
  subst hh
  refine (finds_read (hr.on h₁).reachable h₂ (hle.trans (Later.grows h₁.later).head_le)).imp ?_
  rintro (e | i) w₃ h
  · exact h
  · exact ⟨w₁, h₁, h.1, h₂.trans h.2⟩

end Finds

/-! ## The verbs -/

section Verbs

variable {cfg : Config P} {fuel : ℕ}

/-- The engine finds the record before it plans anything. -/
theorem finds_engine {T X : Type} {author : Author P} {b : Bool} {n : ℕ}
    {plan : ℕ → Run P (Step P T × X)} (hr : Retrying k c req w) (hle : h₀ ≤ w.store.head) :
    Finds k c req h₀ 2 (fun out w' ↦ out = (.already (k.head + 1) k.ok, none) ∧ While k c req w w')
      (engine cfg author req ⟨b, true, n⟩ plan (fuel + 1)) w := by
  refine finds_bind (n := 1) (m := 1) finds_head fun head w₂ ⟨w₁, h₁, hh, h₂⟩ ↦ ?_
  subst hh
  have hr₁ := hr.on h₁
  refine finds_bind (n := 1) (m := 0) (Q := fun a w' ↦ a = some (k.head + 1, k.ok) ∧
    While k c req w₁ w') ?_ fun a w₃ ⟨ha, h₃⟩ ↦ ?_
  · refine finds_bind (n := 1) (m := 0) (finds_read hr₁.reachable h₂
      (hle.trans (Later.grows h₁.later).head_le)) fun i w₃ ⟨hi, h₃⟩ ↦ finds_pure fun w₄ h₄ ↦ ?_
    obtain ⟨x, hx, ho⟩ := hr₁.original
    rw [hi, hx, Option.map_some, ho]
    exact ⟨rfl, h₂.trans (h₃.trans h₄)⟩
  · subst ha
    exact finds_pure fun w₄ h₄ ↦ ⟨rfl, h₁.trans (h₃.trans h₄)⟩

/-- A retry expires no locks. -/
theorem finds_expireDeadLocks {keys : List String} (hr : Retrying k c req w)
    (hle : h₀ ≤ w.store.head) :
    Finds k c req h₀ 2 (fun _ w' ↦ While k c req w w') (expireDeadLocks cfg fuel keys req) w := by
  rw [expireDeadLocks]
  split
  · exact finds_pure fun _ hl ↦ hl
  refine finds_bind (n := 2) (m := 0) (finds_get hr hle) fun i w₂ hread ↦ ?_
  obtain ⟨w₁, h₁, hi, h₂⟩ := hread
  obtain ⟨x, hx, -⟩ := (hr.on h₁).original
  rw [hi, hx]
  exact finds_pure fun _ h₃ ↦ h₁.trans (h₂.trans h₃)

/-- The fences read back are those of the commit. -/
theorem finds_fencesAt {locks : List String} {fences : List Fence} (hr : Retrying k c req w)
    (hle : h₀ ≤ w.store.head) (haudit : locks ≠ [] → ∃ s ∈ k.staged, starts eventsPrefix s.key)
    (hfences : fencesOf (P := P) locks (k.head + 1) (Committed.subs k) = .ok fences) :
    Finds k c req h₀ 2 (fun f w' ↦ f = fences ∧ While k c req w w') (fencesAt locks (k.head + 1))
      w := by
  rw [fencesAt]
  split <;> rename_i hlocks
  · rw [List.isEmpty_iff.mp hlocks] at hfences
    cases hfences
    exact finds_pure fun _ hl ↦ ⟨rfl, hl⟩
  · obtain ⟨s, hs, hkey⟩ := haudit fun h ↦ hlocks (by rw [h]; rfl)
    refine finds_bind (n := 2) (m := 0) (finds_get hr hle) fun i w₂ hread ↦ ?_
    obtain ⟨w₁, h₁, hi, h₂⟩ := hread
    have hr₁ := hr.on h₁
    obtain ⟨ev, hev, hsubs⟩ := cur_subs hr₁.reachable hr₁.committed hs hkey
    rw [hi, hev]
    dsimp only
    rw [hsubs]
    have hcheck : Finds k c req h₀ 0 (fun f w' ↦ f = fences ∧ While k c req w₂ w')
        (pureCheck (fencesOf locks (k.head + 1) (Committed.subs k))) w₂ := finds_check hfences
    refine hcheck.imp ?_
    intro r w₃ hr
    cases r with
    | ok _ => exact ⟨hr.1, h₁.trans (h₂.trans hr.2)⟩
    | error _ => exact hr

variable [DecidableEq P]

/-- What a retry answers: it says of a transaction that it had been applied before. -/
def Answer.again : Answer → Answer
  | .txn r => .txn { r with alreadyApplied := true }
  | a => a

theorem finds_create {key : String} {value : Object P} {req' : Request P}
    (hr : Retrying k (.create key value req') req w) (hp : Passes cfg (.create key value req')) :
    Finds k (.create key value req') req w.store.head 6
      (fun x _ ↦ x = ⟨⟨k.head + 1, 0⟩, false⟩) (create cfg (fuel + 1) key value req') w := by
  obtain rfl := Option.some.inj hr.request
  refine finds_bind (n := 0) (m := 6) (finds_check hp.1) fun _ w₁ ⟨_, h₁⟩ ↦
    finds_bind (n := 0) (m := 6) (finds_check hp.2) fun _ w₂ ⟨_, h₂⟩ ↦ ?_
  refine finds_bind (n := 2) (m := 4) (finds_engine (hr.on (h₁.trans h₂))
    (Later.grows (While.later (h₁.trans h₂))).head_le) fun out w₃ ⟨ho, _⟩ ↦ ?_
  subst ho
  exact finds_pure fun _ _ ↦ rfl

omit [DecidableEq P] in
theorem finds_lock {resource : String} {ttlMs : ℕ} {req' : Request P}
    (hr : Retrying k (.lock resource ttlMs req') req w)
    (hp : Passes cfg (.lock resource ttlMs req')) :
    Finds k (.lock resource ttlMs req') req w.store.head 6
      (fun f _ ↦ f = ⟨resource, ⟨k.head + 1, 0⟩⟩) (lock cfg (fuel + 1) resource ttlMs req') w := by
  obtain rfl := Option.some.inj hr.request
  refine finds_bind (n := 0) (m := 6) (finds_check hp) fun _ w₁ ⟨_, h₁⟩ ↦
    finds_bind (n := 2) (m := 4) (finds_expireDeadLocks (hr.on h₁) (Later.grows h₁.later).head_le)
      fun _ w₂ h₂ ↦ ?_
  refine finds_bind (n := 2) (m := 2) (finds_engine (hr.on (h₁.trans h₂))
    (Later.grows (While.later (h₁.trans h₂))).head_le) fun out w₃ ⟨ho, _⟩ ↦ ?_
  subst ho
  exact finds_pure fun _ _ ↦ rfl

omit [DecidableEq P] in
theorem finds_holderWrite {f : Fence} {write : HolderWrite} (hr : Retrying k c req w)
    (hle : h₀ ≤ w.store.head) :
    Finds k c req h₀ 2 (fun _ _ ↦ True) (holderWrite cfg (fuel + 1) c f req write) w :=
  finds_bind (n := 2) (m := 0) (finds_engine hr hle) fun _ _ _ ↦ finds_pure fun _ _ ↦ trivial

theorem finds_txn {t : TxnOps P} {req' : Request P} (hr : Retrying k (.txn t req') req w)
    (hp : Passes cfg (.txn t req')) :
    Finds k (.txn t req') req w.store.head 6
      (fun r _ ↦ (outcome w k (.txn t req')).map Answer.again = some (.txn r))
      (txn cfg (fuel + 1) t req') w := by
  obtain rfl := Option.some.inj hr.request
  obtain ⟨hp₁, hp₂, hp₃, hp₄⟩ := hp
  refine finds_bind (n := 0) (m := 6) (finds_check hp₁) fun _ w₁ ⟨_, h₁⟩ ↦
    finds_bind (n := 0) (m := 6) (finds_check hp₂) fun _ w₂ ⟨_, h₂⟩ ↦
    finds_bind (n := 0) (m := 6) (finds_check hp₃) fun _ w₃ ⟨_, h₃⟩ ↦
    finds_bind (n := 0) (m := 6) (finds_check hp₄) fun _ w₄ ⟨_, h₄⟩ ↦ ?_
  have hw₄ : While k (.txn t req') req' w w₄ := h₁.trans (h₂.trans (h₃.trans h₄))
  refine finds_bind (n := 2) (m := 4) (finds_expireDeadLocks (hr.on hw₄)
    (Later.grows hw₄.later).head_le) fun _ w₅ h₅ ↦ ?_
  have hw₅ := hw₄.trans h₅
  refine finds_bind (n := 2) (m := 2) (finds_engine (hr.on hw₅)
    (Later.grows (While.later hw₅)).head_le) fun out w₆ ⟨ho, h₆⟩ ↦ ?_
  subst ho
  have hw₆ := hw₅.trans h₆
  have hr₆ := hr.on hw₆
  dsimp only [TxnResult.ofOutcome]
  cases hok : k.ok with
  | true =>
    obtain ⟨haudit, fences, hfences⟩ := exists_fencesOf hr₆.reachable hr₆.committed hr.author hok
    refine finds_bind (n := 2) (m := 0) (finds_fencesAt hr₆
      (Later.grows (While.later hw₆)).head_le haudit hfences) fun f w₇ ⟨hf, _⟩ ↦
        finds_pure fun w₈ _ ↦ ?_
    rw [hf, outcome, hok, if_pos rfl, hfences]
    rfl
  | false =>
    refine finds_bind (n := 2) (m := 0) (Q := fun f _ ↦ f = []) (finds_pure fun _ _ ↦ rfl)
      fun f w₇ hf ↦ finds_pure fun w₈ _ ↦ ?_
    rw [hf, outcome, hok]
    rfl

omit [DecidableEq P] in
theorem finds_delete {key : String} {expect : Option Rev} {req' : Request P}
    (hr : Retrying k (.delete key expect req') req w) (hp : Passes cfg (.delete key expect req')) :
    Finds k (.delete key expect req') req w.store.head 6
      (fun d _ ↦ outcome w k (.delete key expect req') = some (.deleted d))
      (delete cfg (fuel + 1) key expect req') w := by
  obtain rfl := Option.some.inj hr.request
  refine finds_bind (n := 0) (m := 6) (finds_check hp.1) fun _ w₁ ⟨_, h₁⟩ ↦
    finds_bind (n := 0) (m := 6) (finds_check hp.2) fun _ w₂ ⟨_, h₂⟩ ↦ ?_
  have hw₂ : While k (.delete key expect req') req' w w₂ := h₁.trans h₂
  refine finds_bind (n := 2) (m := 4) (finds_engine (hr.on hw₂)
    (Later.grows hw₂.later).head_le) fun out w₃ ⟨ho, h₃⟩ ↦ ?_
  subst ho
  have hw₃ := hw₂.trans h₃
  refine finds_bind (n := 1) (m := 3) finds_head fun head w₅ ⟨w₄, h₄, hh, h₅⟩ ↦ ?_
  subst hh
  refine finds_bind (n := 0) (m := 3) (Q := fun x w' ↦ x = (k.head + 1, w₄.store.head) ∧
    While k (.delete key expect req') req' w₄ w')
    (finds_pure fun _ h₆ ↦ ⟨rfl, h₅.trans h₆⟩) fun x w₅ ⟨hx, h₅⟩ ↦ ?_
  subst hx
  have hw₄ := hw₃.trans h₄
  have hr₄ := hr.on hw₄
  refine finds_bind (n := 1) (m := 2) (finds_read hr₄.reachable h₅
    (Later.grows (While.later hw₄)).head_le) fun i w₆ ⟨hi, _⟩ ↦ finds_pure fun _ _ ↦ ?_
  -- The key is there, at the head that is read, exactly if it was at the commit's own revision.
  have hpresent : i.isSome = (w.itemAt (k.head + 1) key).isSome := by
    rw [hi, ← (Later.grows (While.later hw₄)).itemAt_eq _ (hr.reachable.head_lt hr.committed)]
    exact hr₄.stays.present key expect req' rfl
  rw [outcome, hpresent]

/-- **A retry looks at the store in at most six turns, and answers what its commit did.** -/
theorem finds_call (hr : Retrying k c req w) (hp : Passes cfg c) :
    Finds k c req w.store.head 6 (fun a _ ↦ (outcome w k c).map Answer.again = some a)
      (call cfg (fuel + 1) c) w := by
  have hwritten {x : Run P Unit} (ho : outcome w k c = some .written)
      (h : Finds k c req w.store.head 6 (fun _ _ ↦ True) x w) :
      Finds k c req w.store.head 6 (fun a _ ↦ (outcome w k c).map Answer.again = some a)
        (do
          x
          return .written) w :=
    finds_bind (n := 6) (m := 0) h fun _ _ _ ↦ finds_pure fun _ _ ↦ by rw [ho]; rfl
  cases c with
  | create key value req' =>
    exact finds_bind (n := 6) (m := 0) (finds_create hr hp) fun x _ hx ↦
      finds_pure fun _ _ ↦ by rw [hx]; rfl
  | txn t req' =>
    exact finds_bind (n := 6) (m := 0) (finds_txn hr hp) fun x _ hx ↦ finds_pure fun _ _ ↦ hx
  | delete key expect req' =>
    exact finds_bind (n := 6) (m := 0) (finds_delete hr hp) fun x _ hx ↦
      finds_pure fun _ _ ↦ by rw [hx]; rfl
  | lock resource ttlMs req' =>
    exact finds_bind (n := 6) (m := 0) (finds_lock hr hp) fun x _ hx ↦
      finds_pure fun _ _ ↦ by rw [hx]; rfl
  | renew f req' =>
    obtain rfl := Option.some.inj hr.request
    exact hwritten rfl ((finds_holderWrite hr (le_refl _)).le (by omega))
  | renewFor f ttlMs req' =>
    obtain rfl := Option.some.inj hr.request
    refine hwritten rfl ?_
    exact finds_bind (n := 0) (m := 6) (finds_check hp) fun _ w₁ ⟨_, h₁⟩ ↦
      (finds_holderWrite (hr.on h₁) (Later.grows h₁.later).head_le).le (by omega)
  | release f req' =>
    obtain rfl := Option.some.inj hr.request
    exact hwritten rfl ((finds_holderWrite hr (le_refl _)).le (by omega))
  | tick lag => cases hr.request

end Verbs

end Retrying

/-! ## Runs -/

section Runs

variable [DecidableEq P] {cfg : Config P} {fuel : ℕ}

theorem next_snoc (cfg : Config P) (fuel : ℕ) (turns : List (Turn Env ℕ (Call P)))
    {m : Turn Env ℕ (Call P)} (hm : ∀ now, m ≠ .restart now) :
    Next (worldAt cfg fuel turns) (worldAt cfg fuel (turns ++ [m])) := by
  cases m with
  | env e =>
    rw [worldAt_snoc]
    exact .env e _
  | spawn c =>
    rw [worldAt_snoc]
    exact .idle _
  | turn i => exact (exact_turn cfg fuel turns i).next
  | restart now => exact absurd rfl (hm now)

/-- A call that is started for `c` after `pre` only repeats `k`: its turns change nothing, and after
six of them it has answered what `k` did, unless a compaction has passed the head it started at. -/
structure Repeats (cfg : Config P) (fuel : ℕ) (pre post : List (Turn Env ℕ (Call P))) (c : Call P)
    (k : Committed P) : Prop where
  idle : ∀ p q, post = p ++ .turn (runs cfg fuel pre).threads.length :: q →
    worldAt cfg fuel (pre ++ .spawn c :: (p ++ [.turn (runs cfg fuel pre).threads.length])) =
      worldAt cfg fuel (pre ++ .spawn c :: p)
  answer : 6 ≤ Pool.turnsOf (runs cfg fuel pre).threads.length post →
    ∃ r, (runs cfg fuel (pre ++ .spawn c :: post)).answer? (runs cfg fuel pre).threads.length =
      some r ∧
      match r with
      | .ok a => (outcome (worldAt cfg fuel pre) k c).map Answer.again = some a
      | .error e => Error.tooOld e ∧ (worldAt cfg fuel pre).store.head <
          (worldAt cfg fuel (pre ++ .spawn c :: post)).store.compacted

/-- **A retry repeats its commit**, whatever the others do while the record of the request stays. -/
theorem runs_retry {pre post : List (Turn Env ℕ (Call P))} {c : Call P} {k : Committed P}
    {req : Request P} (hfuel : 0 < fuel) (hk : .committed k ∈ (worldAt cfg fuel pre).trace)
    (ha : k.author = .call c) (hreq : c.req? = some req) (hpost : ∀ now, .restart now ∉ post)
    (hstays : ∀ p, p <+: post → Stays k c req (worldAt cfg fuel (pre ++ .spawn c :: p))) :
    Repeats cfg fuel pre post c k := by
  obtain ⟨fuel, rfl⟩ := Nat.exists_eq_add_of_lt hfuel
  rw [Nat.zero_add] at *
  have hstart : worldAt cfg (fuel + 1) (pre ++ [.spawn c]) = worldAt cfg (fuel + 1) pre :=
    worldAt_snoc pre (.spawn c)
  have hretry : Retrying k c req (worldAt cfg (fuel + 1) pre) :=
    ⟨(runs_keep pre).1, hk, ha, hreq, hstart ▸ hstays [] List.nil_prefix⟩
  have hsteps : ∀ p m q, post = p ++ m :: q →
      While k c req (worldAt cfg (fuel + 1) (pre ++ .spawn c :: p))
        (worldAt cfg (fuel + 1) (pre ++ .spawn c :: (p ++ [m]))) := by
    intro p m q h
    refine .single ⟨?_, hstays _ ⟨q, by rw [h]; simp⟩⟩
    have hn := next_snoc cfg (fuel + 1) (pre ++ .spawn c :: p) (m := m) fun now hm ↦
      hpost now (by rw [h, hm]; simp)
    rwa [List.append_assoc, List.cons_append] at hn
  obtain ⟨hidle, hanswer⟩ := Pool.looks_spawn (fun _ ↦ .refl) (fun h h' ↦ h.trans h') rfl hpost
    hsteps (finds_call hretry (runs_passed pre hk ha))
  refine ⟨hidle, fun henough ↦ ?_⟩
  obtain ⟨r, hr, hsame⟩ := hanswer henough
  refine ⟨r, hr, ?_⟩
  cases r <;> exact hsame

/-! ### A delete that is not repeated -/

/-- A request of a run on numbers. -/
def requestOf (id : String) : Request ℕ := ⟨id, "a", "k", none⟩

/-- `k` is created and deleted. -/
def deleting : List (Turn Env ℕ (Call ℕ)) :=
  .spawn (.create "k" { data := .payload 1 } (requestOf "1")) :: List.replicate 12 (.turn 0) ++
    .spawn (.delete "k" none (requestOf "2")) :: List.replicate 12 (.turn 1)

/-- The commit of the delete. -/
def deletion : Committed ℕ where
  author := .call (.delete "k" none (requestOf "2"))
  ok := true
  head := 1
  staged := [⟨"k", none, some ⟨"k", { data := .payload 1 }, ⟨1, 0⟩, ⟨1, 0⟩⟩, .delete⟩,
    requestWrite "2" 2 true, eventWrite (requestOf "2") 2 true [⟨"k", 0, .delete, some ⟨1, 0⟩⟩]]
  now := 0

theorem runs_retry_deleting :
    Repeats numbers 3 deleting (List.replicate 6 (.turn 2)) (.delete "k" none (requestOf "2"))
      deletion := by
  refine runs_retry (by decide) (by decide) rfl rfl (by simp) fun p hp ↦ ?_
  have hall : ∀ p ∈ (List.replicate 6 (.turn 2) : List (Turn Env ℕ (Call ℕ))).inits,
      ((worldAt numbers 3 (deleting ++ .spawn (.delete "k" none (requestOf "2")) :: p)).cur
        (requestKey "2")).map (·.modRev.main) = some 2 ∧
      ((worldAt numbers 3 (deleting ++ .spawn (.delete "k" none (requestOf "2")) :: p)).cur
        "k").isSome = ((worldAt numbers 3 (deleting ++
          .spawn (.delete "k" none (requestOf "2")) :: p)).itemAt 2 "k").isSome := by
    decide
  obtain ⟨hrecord, hpresent⟩ := hall p ((List.mem_inits _ _).mpr hp)
  refine ⟨hrecord, fun key expect req hc ↦ ?_⟩
  cases hc
  exact hpresent

/-- **A delete that removed its key answers, when it is retried after the key was created anew, that
the key is only marked.** -/
theorem delete_not_repeated :
    ∃ (pre post : List (Turn Env ℕ (Call ℕ))) (c : Call ℕ) (k : Committed ℕ) (req : Request ℕ),
      .committed k ∈ (worldAt numbers 3 pre).trace ∧ k.author = .call c ∧ c.req? = some req ∧
      (∀ now, .restart now ∉ post) ∧
      (∀ p, p <+: post → ((worldAt numbers 3 (pre ++ .spawn c :: p)).cur
        (requestKey req.id)).map (·.modRev.main) = some (k.head + 1)) ∧
      ¬ Repeats numbers 3 pre post c k := by
  let pre : List (Turn Env ℕ (Call ℕ)) := deleting ++
    .spawn (.create "k" { data := .payload 1 } (requestOf "3")) :: List.replicate 12 (.turn 2)
  refine ⟨pre, List.replicate 6 (.turn 3), .delete "k" none (requestOf "2"), deletion,
    requestOf "2", by decide, rfl, rfl, by simp, fun p hp ↦ ?_, ?_⟩
  · have hall : ∀ p ∈ (List.replicate 6 (.turn 3) : List (Turn Env ℕ (Call ℕ))).inits,
        ((worldAt numbers 3 (pre ++ .spawn (.delete "k" none (requestOf "2")) :: p)).cur
          (requestKey "2")).map (·.modRev.main) = some 2 := by
      decide
    exact hall p ((List.mem_inits _ _).mpr hp)
  · rintro ⟨-, h⟩
    obtain ⟨r, hr, hsame⟩ := h (by decide)
    have hpending : (runs numbers 3 (pre ++ .spawn (.delete "k" none (requestOf "2")) ::
        List.replicate 6 (.turn 3))).answer? (runs numbers 3 pre).threads.length =
          some (.ok (.deleted (.pending 2))) := by
      decide
    have hremoved : outcome (worldAt numbers 3 pre) deletion (.delete "k" none (requestOf "2")) =
        some (.deleted (.removed 2)) := by
      decide
    obtain rfl := Option.some.inj (hpending.symm.trans hr)
    rw [hremoved] at hsame
    cases hsame

end Runs

end Contract

end Spira.Store
