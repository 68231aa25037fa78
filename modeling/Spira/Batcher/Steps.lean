import Spira.Batcher.Ladder

/-!
# What a step does to a suite

A step makes the ladder of a suite that was not red (`ladder_red`), or leaves it, or launches jobs
of it, or reports one of its jobs (`step_ladder`).  That a report finds the job it names, and
takes off no other, rests on the ids: no two jobs that are queued or running have one
(`Attributor.Sane`).
-/

set_option autoImplicit false

namespace Spira.Batcher

/-- One launch after another. -/
inductive Ladder.Launches : Ladder → Ladder → Prop
  | refl (l : Ladder) : Launches l l
  | launch {l l' : Ladder} {job : Job} (h : Launches l l') (hjob : job ∈ l'.queued) :
      Launches l (l'.launch job)

/-- The ladder of a suite that turns red: its plain rerun, as job `n`. -/
def Ladder.red (suite : String) (n : ℕ) (suspects : List Id) (now : ℕ) : Ladder where
  st := { redAt := now, suspects := suspects, outstanding := {n} }
  queued := {⟨n, suite, [], .plain⟩}
  running := 0
  launched := 0

namespace Attributor

variable {a a' : Attributor} {suite s : String} {f : Ladder → Ladder} {l : Ladder}

/-- Jobs belong to suites that are known, suites that are known to results that came in, and no
two jobs queued or running have one id. -/
structure Sane (a : Attributor) : Prop where
  nodup : (a.live.map (·.id)).Nodup
  fresh : ∀ j ∈ a.live, j.id < a.nextId
  known : ∀ j, j ∈ a.live ∨ j ∈ a.launched → (a.ladder j.suite).isSome
  seen : ∀ s, (a.ladder s).isSome → s ∈ a.mainSeen

theorem Sane.new (budget : Budget) (shape : Shape) (mainTotal : ℕ) :
    (Attributor.new budget shape mainTotal).Sane where
  nodup := Multiset.nodup_zero
  fresh j hj := absurd hj (Multiset.notMem_zero j)
  known j hj := by
    rcases hj with hj | hj
    · exact absurd hj (Multiset.notMem_zero j)
    · cases hj
  seen s hs := by
    have hnone : (Attributor.new budget shape mainTotal).ladder s = none := by
      rw [ladder, Attributor.new, Std.ExtTreeMap.getElem?_empty]
      rfl
    rw [hnone] at hs
    cases hs

theorem Moves.isSome (h : Moves a a' suite f) (s : String) :
    (a'.ladder s).isSome = (a.ladder s).isSome := by
  by_cases hs : s = suite
  · subst hs
    rw [h.here, Option.isSome_map]
  · rw [h.others s hs]

theorem Moves.mem_live {j : Job} (h : Moves a a' suite f) (hj : j ∈ a'.live) :
    j ∈ a.live ∨ j.suite = suite ∧ a.nextId ≤ j.id ∧ j.id < a'.nextId := by
  obtain ⟨new, hle, -, hnew⟩ := h.fresh
  rcases Multiset.mem_add.mp (Multiset.mem_of_le hle hj) with hj | hj
  · exact .inl hj
  · exact .inr (hnew j hj)

theorem Sane.moves (ha : a.Sane) (h : Moves a a' suite f) (hsuite : (a.ladder suite).isSome) :
    a'.Sane where
  nodup := by
    obtain ⟨new, hle, hnodup, hnew⟩ := h.fresh
    refine Multiset.nodup_of_le (Multiset.map_le_map hle) ?_
    rw [Multiset.map_add, Multiset.nodup_add]
    refine ⟨ha.nodup, hnodup, Multiset.disjoint_left.mpr fun {n} hn hn' ↦ ?_⟩
    obtain ⟨j, hj, rfl⟩ := Multiset.mem_map.mp hn
    obtain ⟨j', hj', hid⟩ := Multiset.mem_map.mp hn'
    have hlt := ha.fresh j hj
    have hge := (hnew j' hj').2.1
    omega
  fresh j hj := by
    rcases h.mem_live hj with hj | hj
    · exact (ha.fresh j hj).trans_le h.nextId_le
    · exact hj.2.2
  known j hj := by
    rw [h.isSome]
    rcases hj with hj | hj
    · rcases h.mem_live hj with hj | hj
      · exact ha.known j (.inl hj)
      · exact hj.1 ▸ hsuite
    · rcases h.launched j hj with hj | hj
      · exact ha.known j (.inr hj)
      · exact hj ▸ hsuite
  seen s hs := by
    have hseen : a'.mainSeen = a.mainSeen := by rw [h.same]
    rw [h.isSome] at hs
    rw [hseen]
    exact ha.seen s hs

theorem mem_ladder (hl : a.ladder s = some l) (j : Job) :
    (j ∈ l.queued ↔ j ∈ a.queued ∧ j.suite = s) ∧ (j ∈ l.running ↔ j ∈ a.running ∧ j.suite = s) ∧
      (j ∈ l.launched ↔ j ∈ a.launched ∧ j.suite = s) := by
  obtain ⟨st, -, rfl⟩ := Option.map_eq_some_iff.mp hl
  have hmem (js : Multiset Job) : j ∈ js.filter (·.suite = s) ↔ j ∈ js ∧ j.suite = s :=
    Multiset.mem_filter
  exact ⟨hmem a.queued, hmem a.running, hmem a.launched⟩

/-- The jobs of a suite that are queued or running are those of its ladder. -/
theorem live_ladder (hl : a.ladder s = some l) : l.live = a.live.filter (·.suite = s) := by
  obtain ⟨st, -, rfl⟩ := Option.map_eq_some_iff.mp hl
  exact (Multiset.filter_add (·.suite = s) a.queued ↑a.running).symm

theorem Sane.running_eq (ha : a.Sane) {j j' : Job} (hj : j ∈ a.running) (hj' : j' ∈ a.running)
    (hid : j.id = j'.id) : j = j' :=
  Multiset.inj_on_of_nodup_map ha.nodup j (Multiset.mem_add.mpr (.inr hj)) j'
    (Multiset.mem_add.mpr (.inr hj')) hid

/-! ## Main results -/

/-- A suite whose first result is red becomes known. -/
theorem insert_ladder (ha : a.Sane) {a' : Attributor} (st : SuiteState) (reds : List String)
    (hnew : suite ∉ a.mainSeen)
    (h : a' = { a with
      mainSeen := insert suite a.mainSeen
      reds := reds
      suites := a.suites.insert suite st }) :
    a'.ladder s = (if s = suite then some ⟨st, 0, 0, 0⟩ else a.ladder s) ∧ a'.Sane := by
  have hnone : a.ladder suite = none := by
    cases hl : a.ladder suite with
    | none => rfl
    | some l => exact absurd (ha.seen suite (by rw [hl]; rfl)) hnew
  have hjobs {j : Job} (hj : j ∈ a.live ∨ j ∈ a.launched) : j.suite ≠ suite := by
    rintro rfl
    have hknown := ha.known j hj
    rw [hnone] at hknown
    cases hknown
  have hsuites (s : String) :
      a'.suites[s]? = if s = suite then some st else a.suites[s]? := by
    rw [h, Std.ExtTreeMap.getElem?_insert]
    by_cases hs : s = suite
    · subst hs
      simp
    · rw [if_neg (by simpa using Ne.symm hs), if_neg hs]
  have hlive : a'.live = a.live := by
    rw [h]
    rfl
  have hladder (s : String) :
      a'.ladder s = if s = suite then some ⟨st, 0, 0, 0⟩ else a.ladder s := by
    rw [ladder, hsuites]
    split <;> rename_i hs
    · have hqueued : a'.queued.filter (·.suite = s) = 0 := by
        refine Multiset.filter_eq_nil.mpr fun j hj hjs ↦ ?_
        exact hjobs (.inl (hlive ▸ Multiset.mem_add.mpr (.inl hj))) (hjs.trans hs)
      have hrunning : (a'.running : Multiset Job).filter (·.suite = s) = 0 := by
        refine Multiset.filter_eq_nil.mpr fun j hj hjs ↦ ?_
        exact hjobs (.inl (hlive ▸ Multiset.mem_add.mpr (.inr hj))) (hjs.trans hs)
      have hlaunched : (a'.launched : Multiset Job).filter (·.suite = s) = 0 := by
        refine Multiset.filter_eq_nil.mpr fun j hj hjs ↦ ?_
        rw [h] at hj
        exact hjobs (.inr hj) (hjs.trans hs)
      rw [hqueued, hrunning, hlaunched]
      rfl
    · rw [ladder, h]
      rfl
  refine ⟨hladder s, ?_⟩
  have hseen : a'.mainSeen = insert suite a.mainSeen := by rw [h]
  have hnextId : a'.nextId = a.nextId := by rw [h]
  have hlaunched : a'.launched = a.launched := by rw [h]
  constructor
  · rw [hlive]
    exact ha.nodup
  · rw [hlive, hnextId]
    exact ha.fresh
  · rw [hlive, hlaunched]
    intro j hj
    rw [hladder, if_neg (hjobs hj)]
    exact ha.known j hj
  · intro s hs
    rw [hseen, Finset.mem_insert]
    rw [hladder] at hs
    split at hs <;> rename_i hsuite
    · exact .inl hsuite
    · exact .inr (ha.seen s hs)

theorem onMainResult_sane (ha : a.Sane) (green : Bool) (suspects : List Id) (now : ℕ) :
    (a.onMainResult suite green suspects now).Sane := by
  rw [onMainResult]
  split <;> rename_i h
  · exact ⟨ha.nodup, ha.fresh, ha.known, fun s hs ↦ Finset.mem_insert_of_mem (ha.seen s hs)⟩
  · obtain ⟨hladder, hsane⟩ := insert_ladder (s := suite) ha
      { redAt := now, suspects := suspects } (a.reds ++ [suite]) (not_or.mp h).1 rfl
    refine hsane.moves (enqueue_moves suite [] .plain false) ?_
    rw [hladder, if_pos rfl]
    rfl

/-- **A result of the main run changes the ladder of a suite whose first one is red, and no
other.** -/
theorem onMainResult_ladder (ha : a.Sane) (green : Bool) (suspects : List Id) (now : ℕ) :
    (a.onMainResult suite green suspects now).ladder s =
      if s = suite ∧ suite ∉ a.mainSeen ∧ green = false then some (.red suite a.nextId suspects now)
      else a.ladder s := by
  rw [onMainResult]
  split <;> rename_i h
  · have hno : ¬(s = suite ∧ suite ∉ a.mainSeen ∧ green = false) := by
      rintro ⟨-, hseen, rfl⟩
      exact h.elim hseen (by simp)
    rw [if_neg hno]
    rfl
  · obtain ⟨hseen, hgreen⟩ := not_or.mp h
    obtain ⟨hladder, -⟩ := insert_ladder (s := s) ha
      { redAt := now, suspects := suspects } (a.reds ++ [suite]) hseen rfl
    have hmoves := enqueue_moves (a := { a with
      mainSeen := insert suite a.mainSeen
      reds := a.reds ++ [suite]
      suites := a.suites.insert suite { redAt := now, suspects := suspects } }) suite [] .plain
        false
    by_cases hs : s = suite
    · subst hs
      rw [hmoves.here, hladder, if_pos rfl, if_pos ⟨rfl, hseen, by simpa using hgreen⟩]
      rfl
    · rw [hmoves.others s hs, hladder, if_neg hs, if_neg fun h ↦ hs h.1]

/-! ## Launches -/

theorem nextJobs_sane (ha : a.Sane) : a.nextJobs.2.Sane := by
  refine launches_induction _ ha fun b job b' hb _ hpop ↦ ?_
  refine hb.moves (launch_moves hpop) (hb.known job (.inl ?_))
  rw [live, (pop_queued hpop).1]
  exact Multiset.mem_add.mpr (.inl (Multiset.mem_cons_self job _))

/-- **Handing jobs out launches queued jobs of a suite one after another.** -/
theorem nextJobs_ladder (hl : a.ladder s = some l) :
    ∃ l', a.nextJobs.2.ladder s = some l' ∧ l.Launches l' := by
  refine launches_induction (P := fun b ↦ ∃ l', b.ladder s = some l' ∧ l.Launches l') _
    ⟨l, hl, .refl l⟩ fun b job b' hb _ hpop ↦ ?_
  obtain ⟨l', hl', hlaunches⟩ := hb
  have hmoves := launch_moves hpop
  by_cases hs : s = job.suite
  · refine ⟨l'.launch job, by rw [hs, hmoves.here, ← hs, hl']; rfl, hlaunches.launch ?_⟩
    rw [(mem_ladder hl' job).1, (pop_queued hpop).1]
    exact ⟨Multiset.mem_cons_self job _, hs.symm⟩
  · exact ⟨l', by rw [hmoves.others s hs, hl'], hlaunches⟩

theorem nextJobs_none (hl : a.ladder s = none) : a.nextJobs.2.ladder s = none := by
  refine launches_induction (P := fun b ↦ b.ladder s = none) _ hl fun b job b' hb _ hpop ↦ ?_
  have hsome := (launch_moves hpop).isSome s
  rw [hb] at hsome
  exact Option.isNone_iff_eq_none.mp (by simpa using hsome)

/-! ## Reports -/

/-- A report is of no running job, or moves the ladder of the suite of the one it names. -/
theorem onJobResult_cases (ha : a.Sane) (id : ℕ) (result : JobResult) (now : ℕ) :
    (∀ j ∈ a.running, j.id ≠ id) ∧ a.onJobResult id result now = a ∨
      ∃ job ∈ a.running, job.id = id ∧ (a.ladder job.suite).isSome ∧
        Moves a (a.onJobResult id result now) job.suite
          (Ladder.report · a.nextId a.shape job result now) := by
  cases hfind : a.running.find? (·.id = id) with
  | none =>
    refine .inl ⟨fun j hj hid ↦ ?_, by rw [onJobResult, hfind]⟩
    exact List.find?_eq_none.mp hfind j hj (decide_eq_true hid)
  | some job =>
    have hjob := List.mem_of_find?_eq_some hfind
    have hknown := ha.known job (.inl (Multiset.mem_add.mpr (.inr hjob)))
    obtain ⟨st, hst⟩ : ∃ st, a.suites[job.suite]? = some st := by
      rw [ladder, Option.isSome_map] at hknown
      exact Option.isSome_iff_exists.mp hknown
    refine .inr ⟨job, hjob, by simpa using List.find?_some hfind, hknown, ?_⟩
    exact onJobResult_moves result now (fun j hj hid ↦ ha.running_eq hj hjob hid) hfind hst

/-! ## Steps -/

theorem Sane.step (ha : a.Sane) (e : Event) : (a.step e).Sane := by
  cases e with
  | mainResult suite green suspects now => exact onMainResult_sane ha green suspects now
  | mainDone now => exact ⟨ha.nodup, ha.fresh, ha.known, ha.seen⟩
  | nextJobs => exact nextJobs_sane ha
  | jobResult id result now =>
    rcases onJobResult_cases ha id result now with ⟨-, h⟩ | ⟨job, -, -, hknown, hmoves⟩
    · show (a.onJobResult id result now).Sane
      rw [h]
      exact ha
    · exact ha.moves hmoves hknown

theorem run_sane (budget : Budget) (shape : Shape) (mainTotal : ℕ) (es : List Event) :
    (History.run Attributor.step (.new budget shape mainTotal) es).Sane := by
  induction es using List.reverseRecOn with
  | nil => exact Sane.new budget shape mainTotal
  | append_singleton es e ih =>
    rw [History.run_snoc]
    exact ih.step e

/-- **What a step does to a suite that is red.** -/
theorem step_ladder (ha : a.Sane) (e : Event) (hl : a.ladder s = some l) :
    ∃ l', (a.step e).ladder s = some l' ∧
      (l' = l ∧ (∀ job ∈ l.running, ∀ result now, e ≠ .jobResult job.id result now) ∨
        e = .nextJobs ∧ l.Launches l' ∨
        ∃ job result now, job ∈ l.running ∧ e = .jobResult job.id result now ∧
          l' = l.report a.nextId a.shape job result now) := by
  cases e with
  | mainResult suite green suspects now =>
    refine ⟨l, ?_, .inl ⟨rfl, fun _ _ _ _ ↦ Event.noConfusion⟩⟩
    show (a.onMainResult suite green suspects now).ladder s = some l
    rw [onMainResult_ladder ha, if_neg, hl]
    rintro ⟨rfl, hseen, -⟩
    exact hseen (ha.seen s (by rw [hl]; rfl))
  | mainDone now => exact ⟨l, hl, .inl ⟨rfl, fun _ _ _ _ ↦ Event.noConfusion⟩⟩
  | nextJobs =>
    obtain ⟨l', hl', hlaunches⟩ := nextJobs_ladder hl
    exact ⟨l', hl', .inr (.inl ⟨rfl, hlaunches⟩)⟩
  | jobResult id result now =>
    show ∃ l', (a.onJobResult id result now).ladder s = some l' ∧ _
    rcases onJobResult_cases ha id result now with ⟨hno, h⟩ | ⟨job, hjob, rfl, -, hmoves⟩
    · refine ⟨l, by rw [h, hl], .inl ⟨rfl, fun j hj _ _ he ↦ ?_⟩⟩
      cases he
      exact hno j ((mem_ladder hl j).2.1.mp hj).1 rfl
    · by_cases hs : s = job.suite
      · refine ⟨l.report a.nextId a.shape job result now, ?_, .inr (.inr ⟨job, result, now, ?_, rfl, rfl⟩)⟩
        · rw [hs, hmoves.here, ← hs, hl]
          rfl
        · exact (mem_ladder hl job).2.1.mpr ⟨hjob, hs.symm⟩
      · refine ⟨l, by rw [hmoves.others s hs, hl], .inl ⟨rfl, fun j hj _ _ he ↦ ?_⟩⟩
        obtain ⟨hrunning, hsuite⟩ := (mem_ladder hl j).2.1.mp hj
        have hid : job.id = j.id := by injection he
        rw [ha.running_eq hjob hrunning hid] at hs
        exact hs hsuite.symm

/-- **A suite turns red at a result of the main run.** -/
theorem step_red (ha : a.Sane) (e : Event) (hnone : a.ladder s = none) (hl : (a.step e).ladder s = some l) :
    ∃ suspects now, e = .mainResult s false suspects now ∧ l = .red s a.nextId suspects now := by
  cases e with
  | mainResult suite green suspects now =>
    change (a.onMainResult suite green suspects now).ladder s = some l at hl
    rw [onMainResult_ladder ha] at hl
    split at hl <;> rename_i h
    · obtain ⟨rfl, -, rfl⟩ := h
      cases hl
      exact ⟨suspects, now, rfl, rfl⟩
    · rw [hnone] at hl
      cases hl
  | mainDone now =>
    change a.ladder s = some l at hl
    rw [hnone] at hl
    cases hl
  | nextJobs =>
    change a.nextJobs.2.ladder s = some l at hl
    rw [nextJobs_none hnone] at hl
    cases hl
  | jobResult id result now =>
    change (a.onJobResult id result now).ladder s = some l at hl
    rcases onJobResult_cases ha id result now with ⟨-, h⟩ | ⟨job, -, -, -, hmoves⟩
    · rw [h, hnone] at hl
      cases hl
    · have hsome := hmoves.isSome s
      rw [hl, hnone] at hsome
      cases hsome

end Attributor

end Spira.Batcher
