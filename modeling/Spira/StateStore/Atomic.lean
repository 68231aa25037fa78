import Spira.StateStore.Verbs

/-!
# Every verb is atomic at one snapshot

The commits of a run are the transactions of its history, in the order of their revisions
(`Reachable.history`), and each was decided by the world it was taken in (`runs_made`), whose head
is the snapshot just before its own revision.  A verb that ends in an error has taken no commit of
its own, but for a read at a revision compacted since; it may have expired the locks it was to take
(`OnlyExpires`).
-/

set_option autoImplicit false

namespace Spira.Store

variable {P : Type}

/-! ## The commits of a run -/

/-- The transaction a commit is in the history. -/
def Committed.txn (c : Committed P) : Txn String (Object P) :=
  ⟨c.head + 1, writesOf (c.head + 1) c.staged⟩

def Happened.commit? : Happened P → Option (Committed P)
  | .committed c => some c
  | _ => none

/-- The commits of a trace, newest first. -/
def commits (trace : List (Happened P)) : List (Committed P) := trace.filterMap Happened.commit?

theorem mem_commits {trace : List (Happened P)} {c : Committed P} :
    c ∈ commits trace ↔ .committed c ∈ trace := by
  rw [commits, List.mem_filterMap]
  constructor
  · rintro ⟨h, hmem, hc⟩
    cases h with
    | committed c' =>
      obtain rfl := Option.some.inj hc
      exact hmem
    | _ => cases hc
  · exact fun h ↦ ⟨_, h, rfl⟩

@[simp] theorem stamp_history (w : World P) : w.stamp.store.history = w.store.history := by
  rw [stamp_store]

@[simp] theorem env_history (e : Env) (w : World P) :
    (w.env e).store.history = w.store.history := by
  cases e with
  | jump through =>
    rw [World.env]
    split <;> rfl
  | _ => rfl

/-- **The history is the commits, in the order of their revisions.** -/
theorem Reachable.history {w : World P} (h : Reachable w) :
    w.store.history = ((commits w.trace).map Committed.txn).reverse := by
  induction h with
  | init => rfl
  | @next w w' hw hn ih =>
    cases hn with
    | idle => exact ih
    | @take _ author ok staged hfree hp =>
      have hcommits : commits (w.taken author ok staged).trace =
          ⟨author, ok, w.store.head, staged, w.mono⟩ :: commits w.trace := rfl
      rw [hcommits, List.map_cons, List.reverse_cons, ← ih]
      rfl
    | fail hfree => exact ih
    | stamp =>
      rw [stamp_history, stamp_trace]
      exact ih
    | drop keys hfree hnow => exact ih
    | env e =>
      rw [env_history, env_trace]
      exact ih
  | reopen hw now ih => exact ih

/-- No two commits have one revision. -/
theorem Reachable.sorted {w : World P} (h : Reachable w) :
    (commits w.trace).Pairwise fun later earlier ↦ earlier.head < later.head := by
  induction h with
  | init => exact List.Pairwise.nil
  | @next w w' hw hn ih =>
    cases hn with
    | idle => exact ih
    | take hfree hp => exact List.pairwise_cons.mpr ⟨fun c hc ↦ hw.head_lt (mem_commits.mp hc), ih⟩
    | fail hfree => exact ih
    | stamp =>
      rw [stamp_trace]
      exact ih
    | drop keys hfree hnow => exact ih
    | env e =>
      rw [env_trace]
      exact ih
  | reopen hw now ih => exact ih

theorem Reachable.commit_unique {w : World P} (h : Reachable w) {c c' : Committed P}
    (hc : .committed c ∈ w.trace) (hc' : .committed c' ∈ w.trace) (hh : c.head = c'.head) :
    c = c' := by
  have hnodup : ((commits w.trace).map Committed.head).Nodup :=
    List.pairwise_map.mpr (h.sorted.imp fun hlt ↦ hlt.ne')
  exact List.inj_on_of_nodup_map hnodup (mem_commits.mpr hc) (mem_commits.mpr hc') hh

namespace Contract

/-- What `c` has of its keys is what the head of `w` has, and all of it was decided there. -/
structure AtHead [DecidableEq P] (w : World P) (c : Committed P) : Prop where
  head : c.head = w.store.head
  prev : ∀ s ∈ c.staged, s.prev = w.cur s.key
  /-- A write names the revisions its key has at the head; a new key is created at the write. -/
  writes : ∀ p ∈ c.staged.zipIdx, writeOf (c.head + 1) p =
    match p.1.value with
    | some v => .put p.1.key v (((w.cur p.1.key).map (·.createRev)).getD ⟨w.store.head + 1, p.2⟩)
        ((w.cur p.1.key).map (·.modRev))
    | none => .delete p.1.key (((w.cur p.1.key).map (·.modRev)).getD ⟨0, 0⟩)
  decided : Decided w c

theorem atHead_of_planned [DecidableEq P] {w : World P} {c : Committed P} (hh : w.store.head = c.head)
    (hp : Planned w c.author c.ok c.staged) (hd : Decided w c) : AtHead w c where
  head := hh.symm
  prev := hp.prev
  writes p hmem := by
    have hmem' : p.1 ∈ c.staged := by
      rw [← List.zipIdx_map_fst 0 c.staged]
      exact List.mem_map_of_mem hmem
    cases hv : p.1.value <;> simp [writeOf, hv, hp.prev p.1 hmem', hh]
  decided := hd

/-! ## What an error leaves -/

/-- Only keys of `keys` that were past their TTL are other than they were, and these by an expiry.
-/
def OnlyExpires (keys : List String) (w w' : World P) : Prop :=
  ∀ key, w'.cur key ≠ w.cur key → key ∈ keys ∧ w.Elapsed key ∧
    ∃ c, w'.trace = .committed c :: w.trace ∧ c.author = .expire

theorem OnlyExpires.of_eq {keys : List String} {w w' : World P} (h : w'.cur = w.cur) :
    OnlyExpires keys w w' :=
  fun key hne ↦ absurd (congrFun h key) hne

instance {keys : List String} : Calm (P := P) (OnlyExpires keys) where
  idle _ := .of_eq rfl
  fail _ := .of_eq rfl
  stamp _ := .of_eq (funext fun _ ↦ cur_stamp)
  drop _ _ _ := .of_eq rfl

instance : Calm (P := P) fun _ _ ↦ True where
  idle _ := trivial
  fail _ := trivial
  stamp _ := trivial
  drop _ _ _ := trivial

variable [DecidableEq P] {cfg : Config P} {fuel : ℕ}

theorem permits_onlyExpires (c : Call P) :
    Permits c (OnlyExpires (Call.locks c)) fun _ _ ↦ True where
  expire {w planned staged} hfree hp hplanned hres := by
    intro key hne
    rw [cur_taken] at hne
    cases hl : lastOf staged key with
    | none =>
      rw [hl] at hne
      exact absurd rfl hne
    | some p =>
      obtain ⟨-, hmem, rfl⟩ := lastOf_some hl
      obtain ⟨o, ho, hr⟩ := hres.of_mem hmem
      obtain ⟨k, hk, rfl⟩ := List.mem_map.mp ho
      have hkey : p.1.key ∈ planned := by
        rw [hr.key_prev.1]
        exact hk
      obtain ⟨hlock, helapsed⟩ := hplanned _ hkey
      exact ⟨hlock, helapsed, _, rfl, rfl⟩
  take _ _ _ _ _ := trivial

/-- The answer of a call that ends in an error, other than of a read at a compacted revision. -/
def Failed (r : Except (Error P) Answer) : Prop := ∃ e, r = .error e ∧ ¬ Error.tooOld e

/-- **A call of a verb that fails has taken no commit of its own.** -/
theorem call_spares (c : Call P) (hc : c.req? ≠ none) {w : World P} (hw : Reachable w) :
    Prog.Spares Later (OnlyExpires (Call.locks c)) (fun _ _ ↦ True) (fun r _ ↦ ¬ Failed r)
      (fun _ _ ↦ True) (call cfg fuel c) w := by
  have hdone {α : Type} {x : Run P α} {f : α → Answer}
      (h : x.Spares Later (OnlyExpires (Call.locks c)) (fun _ _ ↦ True) (Then c f w) (Then c f w)
        Error.tooOld w) :
      Prog.Spares Later (OnlyExpires (Call.locks c)) (fun _ _ ↦ True) (fun r _ ↦ ¬ Failed r)
        (fun _ _ ↦ True) (do return f (← x) : Run P Answer) w := by
    have hpure {F : World P → World P → Prop} (a : α) (w' : World P) :
        (pure (f a) : Run P Answer).Keeps Later F (fun _ _ ↦ True) Error.tooOld w' :=
      Verb.keeps_pure fun _ _ ↦ trivial
    have hbind : (do return f (← x) : Run P Answer).Spares Later (OnlyExpires (Call.locks c))
        (fun _ _ ↦ True) (fun _ _ ↦ True) (fun _ _ ↦ True) Error.tooOld w :=
      Verb.spares_bind (fun _ ↦ .refl)
        (h.imp (fun a w' _ ↦ hpure a w') fun a w' _ ↦ (hpure a w').spares fun _ _ _ ↦ trivial)
    refine Prog.Spares.imp hbind (fun r w' hr ↦ ?_) fun _ _ _ ↦ trivial
    rintro ⟨e, rfl, he⟩
    exact he hr
  have hG := permits_onlyExpires c
  cases c with
  | create key value req => exact hdone (create_spares hG hw)
  | txn t req => exact hdone (txn_spares (fun _ ↦ id) hG hw)
  | delete key expect req => exact hdone (delete_spares (fun _ ↦ id) hG hw)
  | lock resource ttlMs req => exact hdone (lock_spares hG hw)
  | renew f req => exact hdone (renew_spares hG hw)
  | renewFor f ttlMs req => exact hdone (renewFor_spares hG hw)
  | release f req => exact hdone (release_spares hG hw)
  | tick lag => exact absurd rfl hc

/-! ## Runs -/

section Runs

variable (cfg fuel)

/-- The world after `turns`. -/
abbrev worldAt (turns : List (Turn Env ℕ (Call P))) : World P := (runs cfg fuel turns).state

variable {cfg fuel}

theorem worldAt_snoc (turns : List (Turn Env ℕ (Call P))) (m : Turn Env ℕ (Call P)) :
    worldAt cfg fuel (turns ++ [m]) =
      (Pool.move World.env World.reopen (call cfg fuel) (runs cfg fuel turns) m).state :=
  congrArg Pool.state (Pool.run_append _ turns [m])

/-- A turn of any program is one `Exact` allows. -/
theorem exact_turn (cfg : Config P) (fuel : ℕ) (turns : List (Turn Env ℕ (Call P))) (i : ℕ) :
    Exact (worldAt cfg fuel turns) (worldAt cfg fuel (turns ++ [.turn i])) := by
  rw [worldAt_snoc]
  exact Pool.keeps_turn (R := Later) (fun _ ↦ .refl) .idle
    (Q := fun c (r : Except (Error P) Answer) w ↦ ∀ a, r = .ok a → Answered c a w)
    (runs_keep turns).2 i

theorem grows_snoc (cfg : Config P) (fuel : ℕ) (turns : List (Turn Env ℕ (Call P)))
    (m : Turn Env ℕ (Call P)) :
    Grows (worldAt cfg fuel turns) (worldAt cfg fuel (turns ++ [m])) := by
  cases m with
  | env e =>
    rw [worldAt_snoc]
    exact grows_env e _
  | spawn c =>
    rw [worldAt_snoc]
    exact .refl _
  | turn i => exact (exact_turn cfg fuel turns i).next.grows
  | restart now =>
    rw [worldAt_snoc]
    exact grows_reopen now _

/-- `c` was taken in the turn of `i` after `pre`, as the world then had it, and the revision before
its own is that world's head. -/
structure Made (cfg : Config P) (fuel : ℕ) (pre : List (Turn Env ℕ (Call P))) (i : ℕ)
    (c : Committed P) (before : List (Happened P)) (w : World P) : Prop where
  trace : (worldAt cfg fuel pre).trace = before
  atHead : AtHead (worldAt cfg fuel pre) c
  taken : worldAt cfg fuel (pre ++ [.turn i]) =
    (worldAt cfg fuel pre).taken c.author c.ok c.staged
  snapshot : ∀ key, w.itemAt c.head key = (worldAt cfg fuel pre).cur key

/-- **Every commit of a run was taken in a turn of it, decided by the world it was taken in.** -/
theorem runs_made (turns : List (Turn Env ℕ (Call P))) {c : Committed P}
    {before : List (Happened P)}
    (hc : .committed c :: before <:+ (worldAt cfg fuel turns).trace) :
    ∃ pre i post, turns = pre ++ .turn i :: post ∧
      Made cfg fuel pre i c before (worldAt cfg fuel turns) := by
  induction turns using List.reverseRecOn with
  | nil =>
    obtain heq | hc := List.suffix_cons_iff.mp hc
    · simp at heq
    · simp at hc
  | append_singleton turns m ih =>
    have hg := grows_snoc cfg fuel turns m
    -- What was committed before the last turn is as it was.
    have hlater (hc : .committed c :: before <:+ (worldAt cfg fuel turns).trace) :
        ∃ pre i post, turns ++ [m] = pre ++ .turn i :: post ∧
          Made cfg fuel pre i c before (worldAt cfg fuel (turns ++ [m])) := by
      obtain ⟨pre, i, post, hturns, hm⟩ := ih hc
      refine ⟨pre, i, post ++ [m], by rw [hturns]; simp, hm.trace, hm.atHead, hm.taken,
        fun key ↦ ?_⟩
      have hlt := (runs_keep turns).1.head_lt (hc.mem List.mem_cons_self)
      rw [hg.itemAt_eq _ hlt.le, hm.snapshot]
    cases m with
    | env e =>
      rw [worldAt_snoc] at hc
      exact hlater (by rwa [← env_trace e])
    | spawn call =>
      rw [worldAt_snoc] at hc
      exact hlater hc
    | restart now =>
      rw [worldAt_snoc] at hc
      obtain heq | hc := List.suffix_cons_iff.mp hc
      · simp at heq
      · exact hlater hc
    | turn i =>
      have hx := exact_turn cfg fuel turns i
      rcases hx.next.trace hc with hc | ⟨hfree, hp, hh, hnow, ht, htaken⟩
      · exact hlater hc
      · have htrace : (worldAt cfg fuel (turns ++ [.turn i])).trace =
            .committed c :: (worldAt cfg fuel turns).trace := by
          rw [htaken, World.taken, hh, hnow]
        refine ⟨turns, i, [], rfl, ht, atHead_of_planned hh hp (hx.decided c htrace), htaken,
          fun key ↦ ?_⟩
        rw [← hh, hg.itemAt_eq _ (le_refl _)]

variable (cfg fuel) in
/-- What is true of every run: its transactions are its commits in the order of their revisions,
each as the snapshot just before its own revision has it, and a call that fails has left the keys
as they were, but for locks of its own it has expired. -/
structure Atomic (turns : List (Turn Env ℕ (Call P))) : Prop where
  history : (worldAt cfg fuel turns).store.history =
    ((commits (worldAt cfg fuel turns).trace).map Committed.txn).reverse
  sorted : (commits (worldAt cfg fuel turns).trace).Pairwise
    fun later earlier ↦ earlier.head < later.head
  made : ∀ c before, .committed c :: before <:+ (worldAt cfg fuel turns).trace →
    ∃ pre i post, turns = pre ++ .turn i :: post ∧
      Made cfg fuel pre i c before (worldAt cfg fuel turns)
  spared : ∀ pre i post c e, turns = pre ++ .turn i :: post → (∀ now, .restart now ∉ post) →
    (runs cfg fuel turns).threads[i]? = some (c, .done (.error e)) → ¬ Error.tooOld e →
    c.req? ≠ none →
    OnlyExpires (Call.locks c) (worldAt cfg fuel pre) (worldAt cfg fuel (pre ++ [.turn i]))

/-- **Every run is atomic.** -/
theorem runs_atomic (turns : List (Turn Env ℕ (Call P))) : Atomic cfg fuel turns where
  history := (runs_keep turns).1.history
  sorted := (runs_keep turns).1.sorted
  made _ _ hc := runs_made turns hc
  spared pre i post c e hturns hpost hend he hc := by
    subst hturns
    exact Pool.spares_run (I := Reachable) (R := Later) (G := Exact)
      (Q := fun c (r : Except (Error P) Answer) w ↦ ∀ a, r = .ok a → Answered c a w)
      (H := fun c ↦ OnlyExpires (Call.locks c)) (V := fun c ↦ c.req? ≠ none) (B := Failed)
      (fun _ ↦ .refl) (fun h h' ↦ h.trans h') .idle (fun h ↦ .single h.next)
      (fun h h' ↦ h.later h') (fun e w _ ↦ .single (.env e w)) (fun now w h ↦ h.reopen now)
      (fun c w hw ↦ call_keeps c hw) (fun _ _ ↦ .of_eq rfl)
      (fun c w hc hw ↦ call_spares c hc hw) .init hpost hend hc ⟨e, rfl, he⟩

end Runs

/-! ## What atomicity leaves out -/

/-- A store of numbers, each as long as it is large. -/
def numbers : Config ℕ where
  minLockTtlMs := 0
  encodedLen o :=
    match o.data with
    | .payload n => n
    | _ => 0

/-- **What may come between a call and its snapshot.**  A transaction that is refused for its size
has expired a lock it was to take; a delete that has been committed may fail where its revision is
compacted before it reads its answer back; and a lock that was live when the transaction was
decided may be past its TTL when it is committed. -/
theorem atomic_except :
    (∃ (pre post : List (Turn Env ℕ (Call ℕ))) (e : Error ℕ),
      (∀ now, .restart now ∉ post) ∧ ¬ Error.tooOld e ∧
        (runs numbers 3 (pre ++ .turn 1 :: post)).answer? 1 = some (.error e) ∧
        (worldAt numbers 3 (pre ++ [.turn 1])).cur "locks/r" ≠
          (worldAt numbers 3 pre).cur "locks/r") ∧
    (∃ (pre post : List (Turn Env ℕ (Call ℕ))) (e : Error ℕ),
      (∀ now, .restart now ∉ post) ∧
        (runs numbers 3 (pre ++ .turn 1 :: post)).answer? 1 = some (.error e) ∧
        (worldAt numbers 3 (pre ++ [.turn 1])).cur "k" ≠ (worldAt numbers 3 pre).cur "k") ∧
    ∃ (pre : List (Turn Env ℕ (Call ℕ))) (t : TxnOps ℕ) (req : Request ℕ) (c : Committed ℕ),
      (worldAt numbers 3 (pre ++ [.turn 1])).trace =
        .committed c :: (worldAt numbers 3 pre).trace ∧
      c.author = .call (.txn t req) ∧ c.ok = true ∧ .lockCheck "locks/r" ⟨1, 0⟩ ∈ t.compares ∧
      (worldAt numbers 3 pre).deadlines["locks/r"]?.any ((worldAt numbers 3 pre).mono < ·) =
        false := by
  let req (id : String) : Request ℕ := ⟨id, "a", "k", none⟩
  let one : Object ℕ := { data := .payload 1 }
  let locked : List (Turn Env ℕ (Call ℕ)) :=
    .spawn (.lock "r" 10 (req "1")) :: List.replicate 12 (.turn 0)
  let large : TxnOps ℕ :=
    { ops := [.lockAcquire "locks/r" 10, .put "k" { data := .payload 2000000 }] }
  let fenced : TxnOps ℕ := { compares := [.lockCheck "locks/r" ⟨1, 0⟩], ops := [.put "k" one] }
  refine ⟨⟨locked ++ .env (.advance 20) :: .spawn (.txn large (req "2")) ::
      List.replicate 11 (.turn 1), List.replicate 20 (.turn 1),
      .limit (.requestBytes maxRequestBytes 2000045), by simp, ?_, ?_, ?_⟩,
    ⟨.spawn (.create "k" one (req "1")) :: List.replicate 12 (.turn 0) ++
        .spawn (.delete "k" none (req "2")) :: List.replicate 4 (.turn 1),
      .turn 1 :: .spawn (.create "j" one (req "3")) :: List.replicate 12 (.turn 2) ++
        [.env (.compact 3), .turn 1], .backend (.tooOld 3), by simp, ?_, ?_⟩,
    ⟨locked ++ .spawn (.txn fenced (req "2")) :: List.replicate 6 (.turn 1) ++
        [.env (.advance 20)], fenced, req "2", ⟨.call (.txn fenced (req "2")), true, 1,
      [⟨"k", some one, none, .put⟩, requestWrite "2" 2 true,
        eventWrite (req "2") 2 true [⟨"k", 0, .put, none⟩]], 20⟩, ?_, rfl, rfl, by simp [fenced], ?_⟩⟩
  · rintro ⟨_, h⟩
    cases h
  · decide
  · decide
  · decide
  · decide
  · decide
  · decide

end Contract

end Spira.Store
