import Spira.Batcher.Sound

/-!
# What attribution keeps

Over every run of the attributor (`Attributor.Good`): what runs and what is kept for the main run
fits the slots; a red is settled or has a job; and what a suite is settled on is decided by the
report that says it, and changes only from owners to other owners (`settles_soundly_iff`).

The slots are kept only while the suites left count as what they are: the count is cut to 32 bits
(`Recount`).
-/

set_option autoImplicit false

namespace Spira.Batcher

variable {shape : Shape} {l : Ladder} {job : Job} {n : ℕ} {members : List Id}
  {prereqs : Std.ExtTreeMap Id (List Id)}

/-! ## Decisions -/

/-- What a report has to be to decide a red so. -/
def Decides (shape : Shape) (job : Job) (result : JobResult) : Outcome → Prop
  | .flaky => result = .green ∧ job.purpose = .plain
  | .base => result = .red ∧ job.removal = shape.members
  | .owner xs => result = .green ∧ ∃ x, job.purpose = .without x ∧ xs = [x]
  | .unattributed => True

/-- The outcomes before and after a report: the same, a first one, or other owners. -/
def Changes (shape : Shape) (job : Job) (result : JobResult) (now : ℕ) (before after : Option (Outcome × ℕ)) :
    Prop :=
  after = before ∨
    (before = none ∧ ∃ outcome, after = some (outcome, now) ∧ Decides shape job result outcome) ∨
    result = .green ∧ ∃ xs ys t, before = some (.owner xs, t) ∧ after = some (.owner ys, t) ∧ ∃ x ∈ ys, x ∉ xs

namespace Ladder

theorem settle_changes (outcome : Outcome) (result : JobResult) (now : ℕ)
    (h : Decides shape job result outcome) :
    Changes shape job result now l.st.settled (l.settle outcome now).st.settled := by
  rw [settle_settled]
  cases hs : l.st.settled with
  | none => exact .inr (.inl ⟨rfl, outcome, rfl, h⟩)
  | some o => exact .inl rfl

theorem exhaust_settled (now : ℕ) : (l.exhaust now).st.settled = l.st.settled ∨
    l.st.settled = none ∧ (l.exhaust now).st.settled = some (.unattributed, now) := by
  rw [Ladder.exhaust]
  split <;> rename_i hex
  · rw [settle_settled, Option.isNone_iff_eq_none.mp hex.1]
    exact .inr ⟨rfl, rfl⟩
  · exact .inl rfl

theorem exhaust_changes (result : JobResult) (now : ℕ) :
    Changes shape job result now l.st.settled (l.exhaust now).st.settled := by
  rcases exhaust_settled (l := l) now with h | ⟨hnone, h⟩
  · exact .inl h
  · exact .inr (.inl ⟨hnone, .unattributed, h, trivial⟩)

/-- What the runs of a suite have shown. -/
def found (l : Ladder) : Bool × Bool × List (Id × List Id) :=
  (l.st.plainRed, l.st.baseGreen, l.st.owners)

@[simp] theorem settle_found (outcome : Outcome) (now : ℕ) : (l.settle outcome now).found = l.found := by
  show ((ite _ _ _ : SuiteState).plainRed, (ite _ _ _ : SuiteState).baseGreen,
    (ite _ _ _ : SuiteState).owners) = _
  split <;> rfl

@[simp] theorem exhaust_found (now : ℕ) : (l.exhaust now).found = l.found := by
  rw [Ladder.exhaust]
  split
  · exact settle_found .unattributed now
  · rfl

/-- **A fault is read as no result**: nothing is found, and at most the red is left unattributed. -/
theorem report_fault {shape : Shape} (job : Job) (now : ℕ) : (l.report n shape job .fault now).found = l.found ∧
    ((l.report n shape job .fault now).st.settled = l.st.settled ∨
      l.st.settled = none ∧
        (l.report n shape job .fault now).st.settled = some (.unattributed, now)) := by
  rw [Ladder.report]
  split
  · refine ⟨exhaust_found now, ?_⟩
    exact exhaust_settled (l := Ladder.add _ ⟨n, job.suite, job.removal, job.purpose⟩) now
  · split
    · refine ⟨(exhaust_found now).trans (settle_found .unattributed now), ?_⟩
      have hsettle (l' : Ladder) (hsame : l'.st.settled = l.st.settled) :
          ((l'.settle .unattributed now).exhaust now).st.settled = l.st.settled ∨
            l.st.settled = none ∧
              ((l'.settle .unattributed now).exhaust now).st.settled = some (.unattributed, now) := by
        rcases exhaust_settled (l := l'.settle .unattributed now) now with h | ⟨hnone, h⟩
        · rw [h, settle_settled, hsame]
          cases l.st.settled with
          | none => exact .inr ⟨rfl, rfl⟩
          | some o => exact .inl rfl
        · rw [settle_settled, hsame] at hnone
          cases hs : l.st.settled <;> rw [hs] at hnone <;> cases hnone
      exact hsettle _ rfl
    · exact ⟨exhaust_found now, exhaust_settled (l := { l.takeOff job with st := _ }) now⟩

theorem addAll_settled (js : List Job) : (l.addAll js).st.settled = l.st.settled := by
  induction js generalizing l with
  | nil => rfl
  | cons j js ih => exact ih (l := l.add j)

theorem Sound.addOwner_changes {x : Id} {removal : List Id} (h : l.Sound shape)
    (hpurpose : job.purpose = .without x) (hremoval : removal = shape.removalOf x)
    (hkey : some removal ∉ l.keys) (now : ℕ) :
    Changes shape job .green now l.st.settled (l.addOwner x removal now).st.settled := by
  rw [Ladder.addOwner]
  split
  case isFalse => exact .inl rfl
  rename_i howner
  split
  · exact .inl rfl
  show Changes shape job .green now l.st.settled
    (some (.owner (((l.st.owners.filter fun o ↦ !within removal o.2) ++ [(x, removal)]).map (·.1)),
      (l.st.settled.map (·.2)).getD now))
  cases hs : l.st.settled with
  | none =>
    rw [h.unowned hs]
    exact .inr (.inl ⟨rfl, _, rfl, rfl, x, hpurpose, rfl⟩)
  | some o =>
    obtain ⟨outcome, t⟩ := o
    cases outcome with
    | owner xs =>
      refine .inr (.inr ⟨rfl, xs, _, t, rfl, rfl, x, ?_, fun hx ↦ hkey ?_⟩)
      · rw [List.map_append]
        exact List.mem_append_right _ (List.mem_singleton_self x)
      · rw [h.named xs t hs] at hx
        obtain ⟨o, ho, rfl⟩ := List.mem_map.mp hx
        refine Multiset.mem_add.mpr (.inr (List.mem_map.mpr ⟨o, ho, ?_⟩))
        rw [hremoval, (h.owned o ho).2]
    | _ =>
      rw [hs] at howner
      cases howner

/-- **What a report does to the outcome.** -/
theorem Sound.report_changes (h : l.Sound (.new members prereqs)) (hjob : job ∈ l.running)
    (result : JobResult) (now : ℕ) :
    Changes (.new members prereqs) job result now l.st.settled
      (l.report n (.new members prereqs) job result now).st.settled := by
  obtain ⟨hoff, hkey, -⟩ := h.takeOff hjob
  have hkind := h.kinds job (Multiset.mem_add.mpr (.inr hjob))
  cases result with
  | fault =>
    rcases (report_fault (l := l) (n := n) job now).2 with h | ⟨hnone, h⟩
    · exact .inl h
    · exact .inr (.inl ⟨hnone, .unattributed, h, trivial⟩)
  | green =>
    cases hpurpose : job.purpose <;> rw [Job.Kind, hpurpose] at hkind <;>
      simp only [Ladder.report, hpurpose]
    case plain => exact settle_changes .flaky .green now ⟨rfl, hpurpose⟩
    case base => exact exhaust_changes .green now
    case without x =>
      refine hoff.addOwner_changes hpurpose hkind.2 (fun hin ↦ (Multiset.nodup_cons.mp hkey).1 ?_) now
      rw [Job.key, hpurpose, if_neg Purpose.noConfusion]
      exact hin
  | red =>
    cases hpurpose : job.purpose <;> rw [Job.Kind, hpurpose] at hkind <;>
      simp only [Ladder.report, hpurpose]
    case plain => exact .inl (addAll_settled _)
    case base => exact settle_changes .base .red now ⟨rfl, hkind⟩
    case without x =>
      split <;> rename_i hall
      · refine settle_changes .base .red now ⟨rfl, ?_⟩
        rw [hkind.2] at hall ⊢
        exact removalOf_all hkind.1 hall
      · exact exhaust_changes .red now

end Ladder

/-! ## Runs -/

/-- Suspects are members. -/
def Named (members : List Id) : Event → Prop
  | .mainResult _ green suspects _ => green = false → ∀ x ∈ suspects, x ∈ members
  | _ => True

namespace Attributor

variable {a a' : Attributor} {s suite : String} {e : Event} {es : List Event} {f : Ladder → Ladder}

theorem suites_ladder (a : Attributor) (s : String) : a.suites[s]? = (a.ladder s).map (·.st) := by
  rw [ladder, Option.map_map]
  cases a.suites[s]? <;> rfl

/-- What the attributor was made for. -/
def round (a : Attributor) : Shape × Budget × ℕ := (a.shape, a.budget, a.mainTotal)

theorem Moves.round_eq (h : Moves a a' suite f) : a'.round = a.round := by
  rw [h.same]
  rfl

theorem step_round (ha : a.Sane) (e : Event) : (a.step e).round = a.round := by
  cases e with
  | mainResult suite green suspects now =>
    show (a.onMainResult suite green suspects now).round = a.round
    rw [onMainResult]
    split
    · rfl
    · exact (enqueue_moves suite [] .plain false).round_eq
  | mainDone now => rfl
  | nextJobs =>
    refine launches_induction (P := fun b ↦ b.round = a.round) _ rfl fun b job b' hb _ hpop ↦ ?_
    exact (launch_moves hpop).round_eq.trans hb
  | jobResult id result now =>
    show (a.onJobResult id result now).round = a.round
    rcases onJobResult_cases ha id result now with ⟨-, h⟩ | ⟨job, -, -, -, h⟩
    · rw [h]
    · exact h.round_eq

theorem run_round (budget : Budget) (shape : Shape) (mainTotal : ℕ) (es : List Event) :
    (History.run step (.new budget shape mainTotal) es).round = (shape, budget, mainTotal) := by
  induction es using List.reverseRecOn with
  | nil => rfl
  | append_singleton es e ih =>
    rw [History.run_snoc]
    exact (step_round (run_sane budget shape mainTotal es) e).trans ih

/-- What a run keeps: of each red suite the ladder's invariant, and something to wait for. -/
structure Good (members : List Id) (prereqs : Std.ExtTreeMap Id (List Id)) (a : Attributor) : Prop where
  shape : a.shape = .new members prereqs
  sane : a.Sane
  sound : ∀ s l, a.ladder s = some l → l.Sound (.new members prereqs) ∧ l.Waits

theorem sound_launches {l l' : Ladder} (h : l.Launches l') (hl : l.Sound shape ∧ l.Waits) :
    l'.Sound shape ∧ l'.Waits := by
  induction h with
  | refl => exact hl
  | launch _ hjob ih =>
    obtain ⟨hsound, hwaits⟩ := ih
    refine ⟨hsound.launch hjob, fun hs ↦ ?_⟩
    rw [Ladder.live_launch hjob]
    exact hwaits hs

theorem Good.new (budget : Budget) (mainTotal : ℕ) :
    Good members prereqs (.new budget (.new members prereqs) mainTotal) where
  shape := rfl
  sane := Sane.new budget _ mainTotal
  sound s l hl := by
    have hsome := (Sane.new budget (.new members prereqs) mainTotal).seen s (by rw [hl]; rfl)
    cases hsome

theorem Good.fresh (ha : Good members prereqs a) (hl : a.ladder s = some l) : ∀ j ∈ l.live, j.id < a.nextId := by
  intro j hj
  rw [live_ladder hl] at hj
  exact ha.sane.fresh j (Multiset.mem_of_mem_filter hj)

/-- **A step keeps what a run keeps.** -/
theorem Good.step (ha : Good members prereqs a) (he : Named members e) : Good members prereqs (a.step e) where
  shape := (congrArg Prod.fst (step_round ha.sane e)).trans ha.shape
  sane := ha.sane.step e
  sound s l' hl' := by
    cases hl : a.ladder s with
    | none =>
      obtain ⟨suspects, now, rfl, rfl⟩ := step_red ha.sane e hl hl'
      refine ⟨Ladder.Sound.red s a.nextId now (he rfl), fun _ hlive ↦ ?_⟩
      exact Multiset.singleton_ne_zero _ hlive
    | some l =>
      obtain ⟨l'', heq, hcases⟩ := step_ladder ha.sane e hl
      rw [heq] at hl'
      cases hl'
      rcases hcases with ⟨rfl, -⟩ | ⟨-, hlaunches⟩ | ⟨job, result, now, hjob, -, rfl⟩
      · exact ha.sound s _ hl
      · exact sound_launches hlaunches (ha.sound s l hl)
      · have hsound := (ha.sound s l hl).1
        rw [ha.shape]
        exact ⟨hsound.report (ha.fresh hl) hjob result now, hsound.report_waits hjob result now⟩

theorem run_good (budget : Budget) (mainTotal : ℕ)
    (h : History.Always Attributor.step (fun _ e ↦ Named members e)
      (.new budget (.new members prereqs) mainTotal) es) :
    Good members prereqs (History.run Attributor.step (.new budget (.new members prereqs) mainTotal) es) :=
  History.invariant_of_always (Good.new budget mainTotal) (fun _ _ ha he ↦ ha.step he) h

/-! ## Slots -/

@[simp] theorem enqueue_running (removal : List Id) (purpose : Purpose) (front : Bool) :
    (a.enqueue suite removal purpose front).running = a.running := by
  rw [enqueue]
  split <;> rfl

@[simp] theorem settle_running (outcome : Outcome) (now : ℕ) :
    (a.settle suite outcome now).running = a.running := rfl

@[simp] theorem maybeExhausted_running (now : ℕ) : (a.maybeExhausted suite now).running = a.running := by
  rw [maybeExhausted]
  split
  · rfl
  · split <;> rfl

@[simp] theorem addOwner_running (x : Id) (removal : List Id) (now : ℕ) :
    (a.addOwner suite x removal now).running = a.running := by
  rw [addOwner]
  split
  · rfl
  · split
    · split <;> rfl
    · rfl

@[simp] theorem queueAttribution_running (suspects all : List Id) :
    (a.queueAttribution suite suspects all).running = a.running := by
  have hfold (ws : List (Id × List Id)) (b : Attributor) :
      (ws.foldl (fun b w ↦ b.enqueue suite w.2 (.without w.1) false) b).running = b.running := by
    induction ws generalizing b with
    | nil => rfl
    | cons w ws ih => exact (ih _).trans (enqueue_running ..)
  rw [queueAttribution, hfold]
  split
  · rfl
  · exact enqueue_running ..

@[simp] theorem onSuite_running (g : SuiteState → SuiteState) :
    (a.onSuite suite g).running = a.running := rfl

/-- A report takes jobs off those running, and puts none there. -/
theorem onJobResult_running (id : ℕ) (result : JobResult) (now : ℕ) :
    (a.onJobResult id result now).running.length ≤ a.running.length := by
  have hle : (a.running.filter (·.id ≠ id)).length ≤ a.running.length := List.length_filter_le _ _
  rw [onJobResult]
  split
  · exact Nat.le_refl _
  · rename_i job _
    dsimp only
    split
    · exact hle
    · rename_i st _
      cases result with
      | fault =>
        dsimp only
        rw [maybeExhausted_running]
        split
        · rw [enqueue_running]
          exact hle
        · split <;> exact hle
      | green =>
        cases job.purpose <;> dsimp only
        · exact hle
        · rw [maybeExhausted_running]
          exact hle
        · rw [addOwner_running]
          exact hle
      | red =>
        cases job.purpose <;> dsimp only
        · rw [queueAttribution_running]
          exact hle
        · exact hle
        · split
          · exact hle
          · rw [maybeExhausted_running]
            exact hle

/-- What runs and what is kept for the main run fits the slots. -/
def InBudget (a : Attributor) : Prop :=
  a.budget.maxpar ≤ a.budget.slots → a.running.length + a.mainInFlight ≤ a.budget.slots

/-- The first result of a suite while more suites are left than 32 bits count, none of which they
count, and the jobs running leave too little for what they will count next. -/
def Recount (a : Attributor) : Event → Prop
  | .mainResult suite _ _ _ =>
    suite ∉ a.mainSeen ∧ a.mainEndAt = none ∧ a.mainSeen.card < a.mainTotal ∧
      2 ^ 32 ∣ a.mainTotal - a.mainSeen.card ∧
      a.budget.maxpar ≤ a.budget.slots ∧
      a.budget.slots < a.running.length + min (2 ^ 32 - 1) a.budget.maxpar
  | _ => False

theorem onMainResult_mainSeen (suite : String) (green : Bool) (suspects : List Id) (now : ℕ) :
    let a' := a.onMainResult suite green suspects now
    a'.mainSeen = insert suite a.mainSeen ∧ a'.running = a.running ∧ a'.mainEndAt = a.mainEndAt ∧
      a'.budget = a.budget ∧ a'.mainTotal = a.mainTotal := by
  rw [onMainResult]
  split
  · exact ⟨rfl, rfl, rfl, rfl, rfl⟩
  · rw [enqueue, if_pos rfl]
    exact ⟨rfl, rfl, rfl, rfl, rfl⟩

/-- **A result of the main run keeps the slots, but at a recount.** -/
theorem InBudget.mainResult (h : a.InBudget) (green : Bool) (suspects : List Id) (now : ℕ) :
    (a.onMainResult suite green suspects now).InBudget ↔
      ¬a.Recount (.mainResult suite green suspects now) := by
  obtain ⟨hseen, hrunning, hend, hbudget, htotal⟩ := onMainResult_mainSeen (a := a) suite green suspects
    now
  rw [InBudget, mainInFlight, hbudget, hrunning, hend, hseen, htotal, Recount]
  rw [InBudget, mainInFlight] at h
  by_cases hknown : suite ∈ a.mainSeen
  · rw [Finset.insert_eq_of_mem hknown]
    exact ⟨fun _ hre ↦ hre.1 hknown, fun _ ↦ h⟩
  rw [Finset.card_insert_of_notMem hknown]
  cases hdone : a.mainEndAt with
  | some t =>
    rw [hdone] at h
    exact ⟨fun _ hre ↦ (nomatch hre.2.1), fun _ ↦ h⟩
  | none =>
    rw [hdone] at h
    simp only [Option.isSome_none, Bool.false_eq_true, if_false] at h ⊢
    generalize a.mainSeen.card = seen at *
    generalize a.mainTotal = total at *
    constructor
    · rintro hkept ⟨-, -, hlt, ⟨k, hk⟩, hmax, hover⟩
      have hle := hkept hmax
      have hnext : (total - (seen + 1)) % 2 ^ 32 = 2 ^ 32 - 1 := by omega
      rw [hnext] at hle
      omega
    · intro hno hmax
      have hle := h hmax
      by_cases hzero : total - seen = 0
      · have hnext : total - (seen + 1) = 0 := by omega
        rw [hnext]
        rw [hzero] at hle
        exact hle
      · by_cases hmod : (total - seen) % 2 ^ 32 = 0
        · have hdvd : 2 ^ 32 ∣ total - seen := Nat.dvd_of_mod_eq_zero hmod
          have hnext : (total - (seen + 1)) % 2 ^ 32 = 2 ^ 32 - 1 := by omega
          rw [hnext]
          by_contra hover
          exact hno ⟨hknown, trivial, by omega, hdvd, hmax, by omega⟩
        · have hnext : (total - (seen + 1)) % 2 ^ 32 ≤ (total - seen) % 2 ^ 32 := by omega
          have hmin : min ((total - (seen + 1)) % 2 ^ 32) a.budget.maxpar ≤
              min ((total - seen) % 2 ^ 32) a.budget.maxpar := min_le_min_right _ hnext
          omega

theorem InBudget.launch {job : Job} (hspare : a.spare ≠ 0) (hpop : a.pop = some (job, a')) :
    (a'.launch job).InBudget := by
  obtain ⟨-, hsame⟩ := pop_queued hpop
  rw [spare] at hspare
  intro _
  have hflight : (a'.launch job).mainInFlight = a.mainInFlight := by
    rw [hsame]
    rfl
  have hrunning : (a'.launch job).running.length = a.running.length + 1 := by
    rw [hsame]
    rfl
  have hslots : (a'.launch job).budget.slots = a.budget.slots := by
    rw [hsame]
    rfl
  omega

theorem InBudget.step (h : a.InBudget) (ha : a.Sane) (e : Event) :
    (a.step e).InBudget ↔ ¬a.Recount e := by
  cases e with
  | mainResult suite green suspects now => exact h.mainResult green suspects now
  | mainDone now =>
    refine iff_of_true (fun hmax ↦ ?_) id
    have hflight : (a.step (.mainDone now)).mainInFlight = 0 := by
      rw [mainInFlight]
      show (if (a.mainEndAt.or (some now)).isSome then 0 else _) = 0
      cases a.mainEndAt <;> rfl
    have hle : a.running.length + a.mainInFlight ≤ a.budget.slots := h hmax
    rw [hflight]
    exact (Nat.le_add_right _ _).trans hle
  | nextJobs =>
    refine iff_of_true (launches_induction (P := InBudget) _ h fun b job b' _ hspare hpop ↦ ?_) id
    exact .launch hspare hpop
  | jobResult id result now =>
    refine iff_of_true (fun hmax ↦ ?_) fun hre ↦ hre
    show (a.onJobResult id result now).running.length + (a.onJobResult id result now).mainInFlight ≤
      (a.onJobResult id result now).budget.slots
    have hle := onJobResult_running (a := a) id result now
    rcases onJobResult_cases ha id result now with ⟨-, hsame⟩ | ⟨job, -, -, -, hmoves⟩
    · rw [hsame]
      exact h (hsame ▸ hmax)
    · have hflight : (a.onJobResult id result now).mainInFlight = a.mainInFlight := by
        rw [hmoves.same]
        rfl
      have hbudget : (a.onJobResult id result now).budget = a.budget := by rw [hmoves.same]
      have hmax : (a.onJobResult id result now).budget.maxpar ≤
        (a.onJobResult id result now).budget.slots := hmax
      rw [hbudget] at hmax
      have hfits := h hmax
      rw [hflight, hbudget]
      omega

/-! ## What is kept -/

/-- The outcome of a suite, with when it was settled. -/
def outcome (a : Attributor) (s : String) : Option (Outcome × ℕ) := a.suites[s]?.bind (·.settled)

/-- What holds of a state besides its slots. -/
structure Keeps (a : Attributor) : Prop where
  waits : ∀ (s : String) (st : SuiteState), a.suites[s]? = some st → st.settled = none →
    ∃ job ∈ a.plainQ ++ a.attrQ ++ a.running, job.suite = s
  ends : a.mainEndAt.isSome → a.plainQ = [] → a.attrQ = [] → a.running = [] → a.settled = true
  twice : ∀ s p, a.launched.countP (fun j ↦ j.suite = s ∧ j.purpose = p) ≤ 2
  apart : ∀ (s : String) (st : SuiteState), a.suites[s]? = some st →
    st.owners.Pairwise fun o o' ↦ ¬o.2 ⊆ o'.2 ∧ ¬o'.2 ⊆ o.2

/-- The report of a job that is running. -/
def Reports (a : Attributor) (e : Event) (s : String) (result : JobResult) (now : ℕ) (job : Job) : Prop :=
  job ∈ a.running ∧ job.suite = s ∧ e = .jobResult job.id result now

/-- What holds of a step. -/
structure Decided (members : List Id) (a : Attributor) (e : Event) : Prop where
  kept : ∀ s o t, a.outcome s = some (o, t) → (a.step e).outcome s = some (o, t) ∨
    ∃ xs ys, o = .owner xs ∧ (a.step e).outcome s = some (.owner ys, t) ∧ xs.toFinset ≠ ys.toFinset
  flaky : ∀ s t, a.outcome s = none → (a.step e).outcome s = some (.flaky, t) →
    ∃ job, a.Reports e s .green t job ∧ job.purpose = .plain
  base : ∀ s t, a.outcome s = none → (a.step e).outcome s = some (.base, t) →
    ∃ job, a.Reports e s .red t job ∧ ∀ m ∈ members, m ∈ job.removal
  fault : ∀ s job now, a.Reports e s .fault now job → ∃ st st', a.suites[s]? = some st ∧
    (a.step e).suites[s]? = some st' ∧ st'.plainRed = st.plainRed ∧ st'.baseGreen = st.baseGreen ∧
    st'.owners = st.owners ∧ (st'.settled = st.settled ∨ st'.settled = some (.unattributed, now))

theorem outcome_ladder (hl : a.ladder s = some l) : a.outcome s = l.st.settled := by
  rw [outcome, suites_ladder, hl]
  rfl

theorem outcome_none (hl : a.ladder s = none) : a.outcome s = none := by
  rw [outcome, suites_ladder, hl]
  rfl

theorem Good.keeps (ha : Good members prereqs a) : a.Keeps := by
  have hsuite {s : String} {st : SuiteState} (hst : a.suites[s]? = some st) :
      ∃ l, a.ladder s = some l ∧ l.st = st := ladder_of hst
  have hwaits (s : String) (st : SuiteState) (hst : a.suites[s]? = some st) (hs : st.settled = none) :
      ∃ job ∈ a.plainQ ++ a.attrQ ++ a.running, job.suite = s := by
    obtain ⟨l, hl, rfl⟩ := hsuite hst
    obtain ⟨job, hjob⟩ := Multiset.exists_mem_of_ne_zero ((ha.sound s l hl).2 hs)
    rw [live_ladder hl, Multiset.mem_filter] at hjob
    refine ⟨job, ?_, hjob.2⟩
    rcases Multiset.mem_add.mp hjob.1 with hin | hin
    · exact List.mem_append_left _ hin
    · exact List.mem_append_right _ hin
  refine ⟨hwaits, fun hend hplain hattr hrunning ↦ ?_, fun s p ↦ ?_, fun s st hst ↦ ?_⟩
  · rw [settled, hend, Bool.true_and, List.all_eq_true]
    rintro ⟨s, st⟩ hmem
    rw [Std.ExtTreeMap.mem_toList_iff_getElem?_eq_some] at hmem
    by_contra hno
    obtain ⟨job, hjob, -⟩ := hwaits s st hmem (by simpa using hno)
    rw [hplain, hattr, hrunning] at hjob
    cases hjob
  · cases hl : a.ladder s with
    | none =>
      have hzero : a.launched.countP (fun j ↦ j.suite = s ∧ j.purpose = p) = 0 := by
        refine List.countP_eq_zero.mpr fun j hj hjs ↦ ?_
        have hknown := ha.sane.known j (.inr hj)
        rw [(of_decide_eq_true hjs).1, hl] at hknown
        cases hknown
      omega
    | some l =>
      have hle := (ha.sound s l hl).1.launches p
      have hcount : Ladder.count p l.launched = a.launched.countP (fun j ↦ j.suite = s ∧ j.purpose = p) := by
        obtain ⟨st, -, rfl⟩ := Option.map_eq_some_iff.mp hl
        rw [Ladder.count, Multiset.countP_filter, Multiset.coe_countP]
        refine List.countP_congr fun j _ ↦ ?_
        rw [decide_eq_true_eq, decide_eq_true_eq, and_comm]
      omega
  · obtain ⟨l, hl, rfl⟩ := hsuite hst
    exact (ha.sound s l hl).1.apart

/-- The outcome of a suite changes at the report of one of its jobs. -/
theorem Good.outcome_step (ha : Good members prereqs a) (e : Event) (s : String) :
    (a.step e).outcome s = a.outcome s ∨ ∃ job result now, a.Reports e s result now job ∧
      Changes (.new members prereqs) job result now (a.outcome s) ((a.step e).outcome s) := by
  cases hl : a.ladder s with
  | none =>
    refine .inl ?_
    rw [outcome_none hl]
    cases hl' : (a.step e).ladder s with
    | none => exact outcome_none hl'
    | some l' =>
      obtain ⟨suspects, now, -, rfl⟩ := step_red ha.sane e hl hl'
      exact outcome_ladder hl'
  | some l =>
    obtain ⟨l', hl', hcases⟩ := step_ladder ha.sane e hl
    rw [outcome_ladder hl, outcome_ladder hl']
    rcases hcases with ⟨rfl, -⟩ | ⟨-, hlaunches⟩ | ⟨job, result, now, hjob, rfl, rfl⟩
    · exact .inl rfl
    · refine .inl ?_
      clear hl'
      induction hlaunches with
      | refl => rfl
      | launch _ _ ih => exact ih
    · refine .inr ⟨job, result, now, ?_, ?_⟩
      · obtain ⟨hrunning, hsuite⟩ := (mem_ladder hl job).2.1.mp hjob
        exact ⟨hrunning, hsuite, rfl⟩
      · rw [ha.shape]
        exact (ha.sound s l hl).1.report_changes hjob result now

theorem Good.decided (ha : Good members prereqs a) (e : Event) : Decided members a e where
  kept s o t hs := by
    rcases ha.outcome_step e s with h | ⟨job, result, now, -, h⟩
    · exact .inl (h.trans hs)
    · rcases h with h | ⟨hnone, -⟩ | ⟨-, xs, ys, t', hbefore, hafter, x, hy, hx⟩
      · exact .inl (h.trans hs)
      · rw [hs] at hnone
        cases hnone
      · rw [hs] at hbefore
        cases hbefore
        refine .inr ⟨xs, ys, rfl, hafter, fun heq ↦ hx ?_⟩
        rw [← List.mem_toFinset, heq, List.mem_toFinset]
        exact hy
  flaky s t hnone hs := by
    rcases ha.outcome_step e s with h | ⟨job, result, now, hrep, h⟩
    · rw [hs, hnone] at h
      cases h
    · rw [hnone, hs] at h
      rcases h with h | ⟨-, o, heq, hdec⟩ | ⟨-, xs, ys, t', hbefore, -⟩
      · cases h
      · cases heq
        obtain ⟨rfl, hplain⟩ := hdec
        exact ⟨job, hrep, hplain⟩
      · cases hbefore
  base s t hnone hs := by
    rcases ha.outcome_step e s with h | ⟨job, result, now, hrep, h⟩
    · rw [hs, hnone] at h
      cases h
    · rw [hnone, hs] at h
      rcases h with h | ⟨-, o, heq, hdec⟩ | ⟨-, xs, ys, t', hbefore, -⟩
      · cases h
      · cases heq
        obtain ⟨rfl, hall⟩ := hdec
        exact ⟨job, hrep, fun m hm ↦ hall ▸ hm⟩
      · cases hbefore
  fault s job now hrep := by
    obtain ⟨hjob, rfl, he⟩ := hrep
    obtain ⟨l, hl⟩ := Option.isSome_iff_exists.mp
      (ha.sane.known job (.inl (Multiset.mem_add.mpr (.inr hjob))))
    obtain ⟨l', hl', hcases⟩ := step_ladder ha.sane e hl
    refine ⟨l.st, l'.st, by rw [suites_ladder, hl]; rfl, by rw [suites_ladder, hl']; rfl, ?_⟩
    rcases hcases with ⟨rfl, -⟩ | ⟨rfl, -⟩ | ⟨job', result, now', -, rfl, rfl⟩
    · exact ⟨rfl, rfl, rfl, .inl rfl⟩
    · cases he
    · injection he with _ hresult hnow
      subst hresult hnow
      obtain ⟨hfound, hsettled⟩ := Ladder.report_fault (l := l) (n := a.nextId) job' now'
      simp only [Ladder.found, Prod.mk.injEq] at hfound
      exact ⟨hfound.1, hfound.2.1, hfound.2.2, hsettled.imp_right fun h ↦ h.2⟩

/-- Of a run of the attributor: the slots are kept, and what else is kept. -/
def SettlesSoundly (members : List Id) (start : Attributor) (es : List Event) : Prop :=
  (∀ pre post, es = pre ++ post →
    (History.run step start pre).InBudget ∧ (History.run step start pre).Keeps) ∧
    History.Always step (Decided members) start es

/-- **Attribution settles soundly exactly where no result comes at a recount.** -/
theorem settles_soundly_iff (members : List Id) (prereqs : Std.ExtTreeMap Id (List Id)) (budget : Budget)
    (mainTotal : ℕ) (es : List Event)
    (hnamed : History.Always step (fun _ e ↦ Named members e)
      (.new budget (.new members prereqs) mainTotal) es) :
    SettlesSoundly members (.new budget (.new members prereqs) mainTotal) es ↔
      History.Always step (fun a e ↦ ¬a.Recount e) (.new budget (.new members prereqs) mainTotal) es := by
  have hgood {pre post : List Event} (heq : es = pre ++ post) :
      Good members prereqs (History.run step (.new budget (.new members prereqs) mainTotal) pre) :=
    run_good budget mainTotal (heq ▸ hnamed).of_append
  constructor
  · rintro ⟨hkept, -⟩ pre e post heq
    have hbefore := (hkept pre (e :: post) heq).1
    have hafter := (hkept (pre ++ [e]) post (by rw [heq, List.append_assoc]; rfl)).1
    rw [History.run_snoc] at hafter
    exact (hbefore.step (hgood heq).sane e).mp hafter
  · intro hno
    refine ⟨fun pre post heq ↦ ⟨?_, (hgood heq).keeps⟩, fun pre e post heq ↦ (hgood heq).decided e⟩
    have hboth : History.Always step (fun a e ↦ Named members e ∧ ¬a.Recount e)
        (.new budget (.new members prereqs) mainTotal) pre := fun p e q hp ↦
      ⟨hnamed p e (q ++ post) (by rw [heq, hp, List.append_assoc]; rfl),
        hno p e (q ++ post) (by rw [heq, hp, List.append_assoc]; rfl)⟩
    refine (History.invariant_of_always (I := fun a ↦ Good members prereqs a ∧ a.InBudget)
      ⟨Good.new budget mainTotal, fun hmax ↦ ?_⟩ (fun a e ha he ↦ ?_) hboth).2
    · show 0 + min _ _ ≤ _
      rw [Nat.zero_add]
      exact (min_le_right _ _).trans hmax
    · exact ⟨ha.1.step he.1, (ha.2.step ha.1.sane e).mpr he.2⟩

/-- A main run of as many suites as 32 bits count comes to no recount. -/
theorem no_recount (members : List Id) (prereqs : Std.ExtTreeMap Id (List Id)) (budget : Budget)
    {mainTotal : ℕ} (htotal : mainTotal ≤ 2 ^ 32) (es : List Event) :
    History.Always step (fun a e ↦ ¬a.Recount e) (.new budget (.new members prereqs) mainTotal) es := by
  intro pre e post _ hre
  generalize ha : History.run step (new budget (.new members prereqs) mainTotal) pre = a at hre
  have hsane : a.Sane := ha ▸ run_sane budget _ mainTotal pre
  have hround : a.mainTotal = mainTotal := ha ▸ congrArg (·.2.2) (run_round budget _ mainTotal pre)
  cases e with
  | mainResult suite green suspects now =>
    obtain ⟨-, -, hlt, hdvd, hmax, hover⟩ := hre
    have hle := Nat.le_of_dvd (by omega) hdvd
    have hseen : a.mainSeen = ∅ := Finset.card_eq_zero.mp (by omega)
    have hrunning : a.running = [] := by
      refine List.eq_nil_iff_forall_not_mem.mpr fun job hjob ↦ ?_
      have hin := hsane.seen _ (hsane.known job (.inl (Multiset.mem_add.mpr (.inr hjob))))
      rw [hseen] at hin
      cases hin
    rw [hrunning, List.length_nil] at hover
    omega
  | _ => exact hre

/-- Of two suites more than 32 bits count less one, the first is red and its plain rerun out; the
second is the recount. -/
def recounted : List Event :=
  [.mainResult "s" false ["m"] 0, .nextJobs, .mainResult "t" true [] 1]

theorem over_budget_past_count :
    History.Always step (fun _ e ↦ Named ["m"] e) (.new ⟨1, 1⟩ (.new ["m"] ∅) (2 ^ 32 + 1)) recounted ∧
      ¬SettlesSoundly ["m"] (.new ⟨1, 1⟩ (.new ["m"] ∅) (2 ^ 32 + 1)) recounted := by
  refine ⟨fun pre e post heq ↦ ?_, fun h ↦ ?_⟩
  · have hmem : e ∈ recounted := heq ▸ List.mem_append_right _ List.mem_cons_self
    rw [recounted] at hmem
    simp only [List.mem_cons, List.not_mem_nil, or_false] at hmem
    rcases hmem with rfl | rfl | rfl
    · exact fun _ x hx ↦ hx
    · trivial
    · exact fun hred ↦ nomatch hred
  · have hbudget := (h.1 recounted [] (List.append_nil _).symm).1
    exact absurd (hbudget (by decide)) (by decide)

/-- A red whose plain rerun faults once and is green the next time. -/
def retried : List Event :=
  [.mainResult "s" false ["m"] 0, .nextJobs, .jobResult 1 .fault 1, .nextJobs, .jobResult 2 .green 2,
    .mainDone 3]

theorem settles_soundly_retried : SettlesSoundly ["m"] (.new ⟨2, 1⟩ (.new ["m"] ∅) 1) retried := by
  refine (settles_soundly_iff ["m"] ∅ ⟨2, 1⟩ 1 retried fun pre e post heq ↦ ?_).mpr
    (no_recount ["m"] ∅ ⟨2, 1⟩ (by decide) retried)
  have hmem : e ∈ retried := heq ▸ List.mem_append_right _ List.mem_cons_self
  rw [retried] at hmem
  simp only [List.mem_cons, List.not_mem_nil, or_false] at hmem
  rcases hmem with rfl | rfl | rfl | rfl | rfl | rfl
  · exact fun _ x hx ↦ hx
  all_goals trivial

end Attributor

end Spira.Batcher
