import Spira.Verdicts.Runs

/-!
# A refusal that nobody disturbs

The planner's refusal is of all that there is to read at once; the ledger's reads one record after
the other.  Where nobody disturbs these the two are the same (`refuses_undisturbed`).
-/

set_option autoImplicit false

namespace Spira.Verdicts

open Controller.Planner (LedgerRefusal PassIdentity)

section Sees

variable (h : Digests) (id : PassIdentity)

def classOf : Class → Controller.Planner.Class
  | .green => .green
  | .red step => .red step
  | .fault _ => .fault
  | .flaky => .flaky

/-- What there is to read of the ledger, all of it at once. -/
def ledgerOf (w : World) : Controller.Planner.Ledger where
  fault base imageDigest :=
    ((w.store.items (.fault id.repo base imageDigest)).bind (·.value.data)).map (·.cause.word)
  summary hash := ((w.store.items (.summary id.repo hash)).bind (·.value.data)).map fun s ↦
    ⟨classOf s.class_, s.backoffUntil⟩
  byMember m := ((w.store.items (.byMember id.repo m)).bind (·.value.data)).map fun r ↦
    ⟨r.hash, r.base, r.imageDigest, r.harnessVersion⟩
  hash := h.identity
  nowMs := w.now

/-- A lifecycle record, of which the ledger reads the tip ejected as red. -/
def recordOf (tip : Option (Option String)) : Controller.Planner.LifecycleRecord where
  repo := none
  state := none
  tip := none
  ejectedRedTip := tip
  holds := 0
  priority := none
  express := false
  since := 0
  stack := []
  blockedBy := []

def recordsOf (w : World) : List (String × Controller.Planner.LifecycleRecord) :=
  id.members.filterMap fun m ↦
    (w.store.items (.lifecycle m.1)).map fun i ↦ (m.1, recordOf i.value)

/-- The records that a refusal reads. -/
def Reads (k : Key) : Prop :=
  k = .fault id.repo id.base id.imageDigest ∨ k = .summary id.repo (h.identity id) ∨
    ∃ m ∈ id.members, k = .byMember id.repo m ∨ k = .lifecycle m.1

/-- What a refusal reads is as it was, and can be read, and no back-off has ended since. -/
structure Still (w w' : World) : Prop where
  reach : w'.up ∧ w'.heard
  items : ∀ k, Reads h id k → w'.store.items k = w.store.items k
  clock : ∀ i s t, w.store.items (.summary id.repo (h.identity id)) = some i →
    i.value.data = some s → s.backoffUntil = some (.until t) → (w'.now < t ↔ w.now < t)

/-- Where all is still, the program only looks, and ends in the answer within so many turns. -/
def Sees {α : Type} (w : World) (v : Program α) (a : α) (n : ℕ) : Prop :=
  ∀ s, Still h id w s → v.Looks (fun s s' ↦ Still h id w s → Still h id w s')
    (fun r s' ↦ r = .ok a ∧ Still h id w s') n s

variable {h id} {α β : Type} {w : World} {n m : ℕ}

theorem sees_pure {a : α} : Sees h id w (pure a) a n :=
  fun _ hs ↦ Verb.looks_pure fun _ hs' ↦ ⟨rfl, hs' hs⟩

theorem Sees.bind {x : Program α} {f : α → Program β} {a : α} {b : β} (hx : Sees h id w x a n)
    (hf : Sees h id w (f a) b m) : Sees h id w (x >>= f) b (n + m) := by
  refine fun s hs ↦ Verb.looks_bind (fun _ hs ↦ hs) (Prog.Looks.imp (hx s hs) fun r s' hr ↦ ?_)
  obtain ⟨rfl, hs'⟩ := hr
  exact hf s' hs'

theorem Sees.le {x : Program α} {a : α} (hx : Sees h id w x a n) (hnm : n ≤ m) :
    Sees h id w x a m := fun s hs ↦ Prog.Looks.le (hx s hs) hnm

theorem sees_get {k : Key} (hk : Reads h id k) : Sees h id w (get k) (w.store.items k) 1 := by
  refine fun s hs ↦ Verb.looks_look fun s' hs' s'' hs'' ↦ ⟨?_, hs'' (hs' hs)⟩
  obtain ⟨hup, hheard⟩ := (hs' hs).reach
  rw [hup, hheard, (hs' hs).items k hk]
  rfl

theorem sees_decoded {k : Key} {v : Owned α} {a : α} (ha : v.data = some a) :
    Sees h id w (decoded k v) a n := by
  rw [decoded, ha]
  exact sees_pure

theorem lookup_recordsOf {m : String × String} (hm : m ∈ id.members) :
    (recordsOf id w).lookup m.1 =
      (w.store.items (.lifecycle m.1)).map fun i ↦ recordOf i.value := by
  have hof (ms : List (String × String)) : m ∈ ms →
      (ms.filterMap fun m ↦ (w.store.items (.lifecycle m.1)).map fun i ↦
        (m.1, recordOf i.value)).lookup m.1 =
      (w.store.items (.lifecycle m.1)).map fun i ↦ recordOf i.value := by
    induction ms with
    | nil => exact fun hm ↦ absurd hm List.not_mem_nil
    | cons m' ms ih =>
      intro hm
      rw [List.filterMap_cons]
      obtain hnone | ⟨i, hi⟩ := (w.store.items (.lifecycle m'.1)).eq_none_or_eq_some
      · rw [hnone]
        dsimp only [Option.map_none]
        rcases List.mem_cons.mp hm with rfl | hm
        · rw [hnone, Option.map_none, List.lookup_eq_none_iff]
          intro p hp
          obtain ⟨m', -, hm'⟩ := List.mem_filterMap.mp hp
          obtain ⟨i, hi, rfl⟩ := Option.map_eq_some_iff.mp hm'
          rw [bne_iff_ne]
          intro heq
          rw [← heq, hnone] at hi
          cases hi
        · exact ih hm
      · rw [hi]
        dsimp only [Option.map_some]
        rw [List.lookup_cons]
        by_cases heq : m.1 = m'.1
        · rw [heq, hi, beq_self_eq_true]
          rfl
        · rw [beq_false_of_ne heq]
          rcases List.mem_cons.mp hm with rfl | hm
          · exact absurd rfl heq
          · exact ih hm
  exact hof id.members hm

theorem sees_absolved {m : String × String} (hm : m ∈ id.members) :
    Sees h id w (absolved m) (Controller.Planner.absolved (recordsOf id w) m) 1 := by
  refine (sees_get (.inr (.inr ⟨m, hm, .inr rfl⟩))).bind (m := 0) ?_
  rw [Controller.Planner.absolved, lookup_recordsOf hm]
  obtain hnone | ⟨i, hi⟩ := (w.store.items (.lifecycle m.1)).eq_none_or_eq_some
  · rw [hnone]
    exact sees_pure
  · rw [hi]
    exact sees_pure

/-- A ledger whose records decode, as they do where it is kept. -/
theorem Kept.data {repo : String} (hw : Kept h w) :
    (∀ m i, w.store.items (.byMember repo m) = some i → ∃ r, i.value.data = some r) ∧
    (∀ b d i, w.store.items (.fault repo b d) = some i → ∃ f, i.value.data = some f) ∧
    ∀ hash i, w.store.items (.summary repo hash) = some i → ∃ s, i.value.data = some s := by
  refine ⟨fun m i hi ↦ ?_, fun b d i hi ↦ ?_, fun hash i hi ↦ ?_⟩
  · have hmember := hw.byMember repo m
    rw [hi, Option.map_some] at hmember
    obtain ⟨r, -, hr⟩ := Option.map_eq_some_iff.mp hmember.symm
    exact ⟨r, congrArg Owned.data hr.symm⟩
  · have hfault := hw.fault repo b d
    rw [hi, Option.map_some] at hfault
    obtain ⟨f, -, hf⟩ := Option.map_eq_some_iff.mp hfault.symm
    exact ⟨f, congrArg Owned.data hf.symm⟩
  · have hsummary := hw.summary repo hash
    rw [hi, Option.map_some] at hsummary
    obtain ⟨s, -, hs⟩ := Option.map_eq_some_iff.mp hsummary.symm
    exact ⟨s, hs.symm⟩

theorem sees_redOn (hw : Kept h w) {m : String × String} (hm : m ∈ id.members) :
    Sees h id w (redOn id m)
      (Controller.Planner.redOn (ledgerOf h id w) (recordsOf id w) id m) 2 := by
  refine (sees_get (.inr (.inr ⟨m, hm, .inl rfl⟩))).bind (m := 1) ?_
  have hmember : (ledgerOf h id w).byMember m =
      ((w.store.items (.byMember id.repo m)).bind (·.value.data)).map fun r ↦
        ⟨r.hash, r.base, r.imageDigest, r.harnessVersion⟩ := rfl
  rw [Controller.Planner.redOn, hmember]
  obtain hnone | ⟨i, hi⟩ := (w.store.items (.byMember id.repo m)).eq_none_or_eq_some
  · rw [hnone]
    exact sees_pure
  · obtain ⟨r, hr⟩ := hw.data.1 m i hi
    rw [hi, Option.bind_some, hr, Option.map_some, Option.bind_some]
    refine (sees_decoded hr).bind (n := 0) (m := 1) ?_
    by_cases hsame : (r.base, r.imageDigest, r.harnessVersion) =
        (id.base, id.imageDigest, id.harnessVersion)
    · rw [if_neg (not_not_intro hsame)]
      refine (sees_absolved hm).bind (m := 0) ?_
      by_cases habsolved : Controller.Planner.absolved (recordsOf id w) m = true
      · rw [if_pos habsolved, if_neg fun hred ↦ hred.2 habsolved]
        exact sees_pure
      · rw [if_neg habsolved, if_pos ⟨hsame, habsolved⟩]
        exact sees_pure
    · rw [if_pos hsame, if_neg fun hred ↦ hsame hred.1]
      exact sees_pure

theorem sees_redMember (hw : Kept h w) {ms : List (String × String)} (hms : ms ⊆ id.members) :
    Sees h id w (redMember id ms)
      (ms.findSome? (Controller.Planner.redOn (ledgerOf h id w) (recordsOf id w) id))
      (2 * ms.length) := by
  induction ms with
  | nil => exact sees_pure
  | cons m ms ih =>
    obtain ⟨hm, hms⟩ := List.cons_subset.mp hms
    refine Sees.le ((sees_redOn hw hm).bind (m := 2 * ms.length) ?_)
      (by rw [List.length_cons]; omega)
    rw [List.findSome?_cons]
    obtain hnone | ⟨r, hr⟩ := (Controller.Planner.redOn (ledgerOf h id w) (recordsOf id w) id
      m).eq_none_or_eq_some
    · rw [hnone]
      exact ih hms
    · rw [hr]
      exact sees_pure

theorem sees_verdictOf {i : Records.Item (Owned Summary)} {s : Summary}
    (hi : w.store.items (.summary id.repo (h.identity id)) = some i) (hs : i.value.data = some s) :
    Sees h id w (verdictOf h id s) (Controller.Planner.verdictOf (ledgerOf h id w) id) 1 := by
  have hsummary : (ledgerOf h id w).summary ((ledgerOf h id w).hash id) =
      some ⟨classOf s.class_, s.backoffUntil⟩ := by
    show ((w.store.items (.summary id.repo (h.identity id))).bind (·.value.data)).map _ = _
    rw [hi, Option.bind_some, hs]
    rfl
  rw [verdictOf, Controller.Planner.verdictOf, hsummary]
  obtain ⟨c, attempts, faults, backoff, last⟩ := s
  cases c with
  | green => exact sees_pure
  | flaky => exact sees_pure
  | red step => exact sees_pure
  | fault cause =>
    obtain rfl | ⟨b, rfl⟩ := backoff.eq_none_or_eq_some
    · exact sees_pure
    · cases b with
      | standing => exact sees_pure
      | «until» t =>
        -- The clock is on the same side of the back-off's end.
        have hnow : ∀ now : ℕ, (now < t ↔ w.now < t) → Sees h id w
            (if now < t then pure (some (LedgerRefusal.backingOff (h.identity id) (some t)))
              else pure none)
            (if w.now < t then some (.backingOff (h.identity id) (some t)) else none) 0 := by
          intro now hnow
          by_cases hlt : w.now < t
          · rw [if_pos (hnow.mpr hlt), if_pos hlt]
            exact sees_pure
          · rw [if_neg fun hlt' ↦ hlt (hnow.mp hlt'), if_neg hlt]
            exact sees_pure
        refine fun u hu ↦ Verb.looks_bind (fun _ hs ↦ hs) (n := 1) (m := 0)
          (Verb.looks_look fun u' hu' u'' hu'' ↦ ?_)
        exact hnow u'.now ((hu' hu).clock i _ t hi hs rfl) u'' (hu'' (hu' hu))

/-- **A refusal that nobody disturbs is the planner's**, of what there is to read. -/
theorem sees_refuses (hw : Kept h w) : Sees h id w (refuses h id)
    (Controller.Planner.refuses (ledgerOf h id w) (recordsOf id w) id)
    (3 + 2 * id.members.length) := by
  have hmembers := sees_redMember hw (List.Subset.refl id.members)
  refine Sees.le ((sees_get (.inl rfl)).bind (m := 2 + 2 * id.members.length) ?_) (by omega)
  rw [Controller.Planner.refuses]
  have hfault : (ledgerOf h id w).fault id.base id.imageDigest =
      ((w.store.items (.fault id.repo id.base id.imageDigest)).bind (·.value.data)).map
        (·.cause.word) := rfl
  rw [hfault]
  obtain hnone | ⟨i, hi⟩ := (w.store.items (.fault id.repo id.base
    id.imageDigest)).eq_none_or_eq_some
  · rw [hnone]
    refine Sees.le ((sees_get (.inr (.inl rfl))).bind (m := 1 + 2 * id.members.length) ?_)
      (by omega)
    obtain hnone' | ⟨i, hi⟩ := (w.store.items (.summary id.repo
      (h.identity id))).eq_none_or_eq_some
    · have hverdict : Controller.Planner.verdictOf (ledgerOf h id w) id = none := by
        have hsummary : (ledgerOf h id w).summary ((ledgerOf h id w).hash id) = none := by
          show ((w.store.items (.summary id.repo (h.identity id))).bind (·.value.data)).map _ = _
          rw [hnone']
          rfl
        rw [Controller.Planner.verdictOf, hsummary]
      rw [hnone', Option.bind_none, Option.map_none]
      dsimp only
      rw [hverdict]
      exact hmembers.le (by omega)
    · obtain ⟨s, hs⟩ := hw.data.2.2 _ i hi
      rw [hi, Option.bind_none, Option.map_none]
      refine Sees.le ((sees_decoded hs).bind (n := 0) (m := 1 + 2 * id.members.length)
        ((sees_verdictOf hi hs).bind ?_)) (by omega)
      dsimp only
      obtain hpass | ⟨r, hr⟩ := (Controller.Planner.verdictOf (ledgerOf h id w)
        id).eq_none_or_eq_some
      · rw [hpass]
        exact hmembers
      · rw [hr]
        exact sees_pure
  · obtain ⟨f, hf⟩ := hw.data.2.1 _ _ i hi
    rw [hi, Option.bind_some, hf, Option.map_some]
    exact Sees.le ((sees_decoded hf).bind (n := 0) (m := 0) sees_pure) (Nat.zero_le _)

/-- **The ledger's refusal is the planner's.**  Where nobody disturbs what it reads, a call changes
nothing and ends, in what the planner makes of all of it at once; and that is a refusal of an
identity whose latest attempt was red. -/
theorem refuses_undisturbed {start : World} (hs : Fresh start) {pre post : Turns} {i : ℕ}
    (hi : i = (run h start pre).threads.length)
    (hstill : ∀ p q, post = p ++ q → Still h id (run h start pre).state
      (run h start (pre ++ .spawn (.refuses id) :: p)).state) :
    (∀ p q, post = p ++ .turn i :: q →
      (run h start (pre ++ .spawn (.refuses id) :: (p ++ [.turn i]))).state =
        (run h start (pre ++ .spawn (.refuses id) :: p)).state) ∧
    (3 + 2 * id.members.length ≤ Pool.turnsOf i post →
      (run h start (pre ++ .spawn (.refuses id) :: post)).answer? i =
        some (Except.ok (Answer.refusal (Controller.Planner.refuses
          (ledgerOf h id (run h start pre).state) (recordsOf id (run h start pre).state) id)))) ∧
    ((attemptsOf h (run h start pre).state.told id.repo (h.identity id)).getLast?.any
        (·.attempt.class_.isRed) = true →
      Controller.Planner.refuses (ledgerOf h id (run h start pre).state)
        (recordsOf id (run h start pre).state) id ≠ none) := by
  obtain ⟨hw, -⟩ := run_kept (h := h) hs pre
  obtain ⟨w, hwdef⟩ : ∃ w, w = (run h start pre).state := ⟨_, rfl⟩
  have hspawned :
      (run h start (pre ++ [.spawn (.refuses id)])).state = (run h start pre).state := by
    have happend : run h start (pre ++ [.spawn (.refuses id)]) = Pool.move env (fun d _ ↦ d.elim)
        (Call.program h) (run h start pre) (.spawn (.refuses id) : Turn Env Empty Call) :=
      Pool.run_append start pre [.spawn (.refuses id)]
    rw [happend]
    rfl
  have hstart : Still h id w w := by
    have hfirst := hstill [] post rfl
    rwa [hspawned, ← hwdef] at hfirst
  have hsees : Sees h id w (Call.program h (.refuses id)) (.refusal (Controller.Planner.refuses
      (ledgerOf h id w) (recordsOf id w) id)) (3 + 2 * id.members.length) :=
    (sees_refuses (hwdef ▸ hw)).bind (m := 0) sees_pure
  rw [← hwdef] at hstill ⊢
  have hspawn := @Pool.looks_spawn _ _ _ _ _ env (fun d : Empty ↦ fun _ ↦ d.elim)
    (Call.program h) (fun s s' ↦ Still h id w s → Still h id w s') _
    (fun _ hs ↦ hs) (fun h₁ h₂ hs ↦ h₂ (h₁ hs)) _ pre post _ _ _ hi (fun d ↦ d.elim)
    (fun p m q hpost _ ↦ hstill (p ++ [m]) q (by rw [hpost, List.append_assoc]; rfl))
    (hsees _ (hwdef ▸ hstart))
  obtain ⟨hidle, hends⟩ := hspawn
  refine ⟨hidle, fun hturns ↦ ?_, fun hred ↦ ?_⟩
  · obtain ⟨r, hr, hanswer, -⟩ := hends hturns
    rw [hanswer] at hr
    exact hr
  · obtain ⟨e, he, hclass⟩ := (Option.any_eq_true _ _).mp hred
    have hsummary := hw.summary id.repo (h.identity id)
    rw [← hwdef, summaryOf, he, Option.map_some, Option.map_some] at hsummary
    obtain ⟨item, hitem, hdata⟩ := Option.map_eq_some_iff.mp hsummary
    rw [Controller.Planner.refuses]
    obtain hnone | ⟨cause, hcause⟩ := ((ledgerOf h id w).fault id.base
      id.imageDigest).eq_none_or_eq_some
    · have hread : (ledgerOf h id w).summary ((ledgerOf h id w).hash id) =
          some ⟨classOf e.attempt.class_, if e.attempt.class_.isTransient then
            some (e.policy.backoff (faultsInARow (attemptsOf h w.told id.repo (h.identity id)))
              e.attempt.at_) else none⟩ := by
        show ((w.store.items (.summary id.repo (h.identity id))).bind (·.value.data)).map _ = _
        rw [hitem, Option.bind_some, hdata]
        rfl
      rw [hnone]
      dsimp only
      rw [Controller.Planner.verdictOf, hread]
      obtain ⟨step, hstep⟩ : ∃ step, e.attempt.class_ = .red step := by
        obtain ⟨eid, batch, policy, c, by_, passes, evidence, at_⟩ := e
        cases c with
        | red step => exact ⟨step, rfl⟩
        | green | fault | flaky => cases hclass
      rw [hstep]
      exact Option.some_ne_none _
    · rw [hcause]
      exact Option.some_ne_none _

end Sees

open Sample

theorem refuses_undisturbed_proven :
    (run digests start (proven ++ .spawn (.refuses identity) ::
      List.replicate 5 (.turn 2))).answer? 2 =
        some (Except.ok (Answer.refusal (some (.redIdentity "lane" "suite")))) := by
  have hstill : ∀ p q, List.replicate 5 (.turn 2) = p ++ q →
      Still digests identity (run digests start proven).state
        (run digests start (proven ++ .spawn (.refuses identity) :: p)).state := by
    intro p q hpost
    obtain ⟨hlen, hp, -⟩ := List.append_eq_replicate_iff.mp hpost.symm
    have hsame : (run digests start (proven ++ .spawn (.refuses identity) :: p)).state =
        (run digests start proven).state := by
      rw [hp]
      have hle : p.length ≤ 5 := by omega
      generalize p.length = n at hle
      rcases (by omega : n = 0 ∨ n = 1 ∨ n = 2 ∨ n = 3 ∨ n = 4 ∨ n = 5) with
        rfl | rfl | rfl | rfl | rfl | rfl
      all_goals rfl
    rw [hsame]
    exact ⟨⟨rfl, rfl⟩, fun _ _ ↦ rfl, fun _ _ _ _ _ _ ↦ Iff.rfl⟩
  obtain ⟨-, hends, -⟩ := refuses_undisturbed fresh rfl hstill
  exact hends (by decide)

end Spira.Verdicts
