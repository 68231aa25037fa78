import Mathlib.Data.Finset.Basic
import Spira.Lib.History
import Spira.Lifecycle.Batch.Machine

/-!
# What a landing rests on

A batch lands from GREEN.  In every run from a new batch, a row that is GREEN, being landed or
LANDED rests on one pass (`Tested`): the latest start of a pass, then its verdict, and from the
start on the head and the pass number have not moved, nobody was admitted, and after the verdict
nobody was ejected either (`tested_of_passed`).

Two things are left open by design.  A pass can be started and judged by the unnumbered events
(`ciStarted`, `rebuilt`, `green`) as well as by the numbered ones.  And an eject while the pass
runs is bookkeeping that does not move the batch, so the members that land can be fewer than those
the pass started with (`landed_untested`).
-/

set_option autoImplicit false

namespace Spira.Batch

open History

/-! ## The events of a pass -/

/-- A row as a round is cut or staged. -/
def New (row : BatchRow) : Prop :=
  ∃ batchId repo head base,
    row = .cut batchId repo head base ∨ ∃ parent, row = .staged batchId repo head base parent

/-- The pass of the row has its green verdict. -/
def BatchState.isPassed (s : BatchState) : Prop :=
  s = .green ∨ s = .landing ∨ s = .deploying ∨ s = .landed

/-- The event starts a pass. -/
def BatchEventKind.starts : BatchEventKind → Bool
  | .ciStarted _ | .passStarted _ _ | .rebuilt => true
  | _ => false

/-- The event judges a pass green. -/
def BatchEventKind.judges : BatchEventKind → Bool
  | .green | .passGreen _ _ _ => true
  | _ => false

def BatchEventKind.admits : BatchEventKind → Bool
  | .memberAdded _ _ => true
  | _ => false

def BatchEventKind.ejects : BatchEventKind → Bool
  | .eject _ _ => true
  | _ => false

/-- The event was applied, and is of this kind. -/
def Does (is : BatchEventKind → Bool) (row : BatchRow) (ev : BatchEvent) : Prop :=
  (apply row ev).applied = true ∧ is ev.kind = true

/-- What a step within a pass leaves alone. -/
structure Quiet (row : BatchRow) (ev : BatchEvent) : Prop where
  starts : ¬ Does BatchEventKind.starts row ev
  judges : ¬ Does BatchEventKind.judges row ev
  admits : ¬ Does BatchEventKind.admits row ev
  head : (step row ev).head = row.head
  pass : (step row ev).pass = row.pass

/-- The pass number a boundary event carries. -/
def BatchEventKind.passNumber : BatchEventKind → Option Nat
  | .passStarted n _ | .suitesStarted n | .passGreen n _ _ | .passRed n _ _ _
  | .passIncomplete n _ | .passPreempted n _ _ _ | .failed _ n => some n
  | _ => none

/-- What an applied event does to the set of members that were not ejected. -/
def BatchEventKind.members (kind : BatchEventKind) (members : Finset String) : Finset String :=
  match kind with
  | .memberAdded beadId _ => insert beadId members
  | .eject beadId _ => members.erase beadId
  | _ => members

/-- The row and the members of a batch, after an event. -/
def memberStep (s : BatchRow × Finset String) (ev : BatchEvent) : BatchRow × Finset String :=
  (step s.1 ev, if (apply s.1 ev).applied then ev.kind.members s.2 else s.2)

/-- The members of a batch cut with `members`, after a run. -/
def membersAfter (members : Finset String) (row : BatchRow) (es : List BatchEvent) :
    Finset String :=
  (run memberStep (row, members) es).2

section Step

variable {row : BatchRow} {ev : BatchEvent}

theorem not_does_of_refused {is : BatchEventKind → Bool} (h : (apply row ev).applied = false) :
    ¬ Does is row ev := by
  rintro ⟨ha, -⟩
  rw [h] at ha
  cases ha

theorem quiet_of_refused (h : (apply row ev).applied = false) : Quiet row ev := by
  have hrow : step row ev = row := apply_refused h
  exact ⟨not_does_of_refused h, not_does_of_refused h, not_does_of_refused h, by rw [hrow], by rw [hrow]⟩

theorem not_does {is : BatchEventKind → Bool} (h : is ev.kind = false) : ¬ Does is row ev := by
  rintro ⟨-, hk⟩
  rw [h] at hk
  cases hk

theorem quiet_of_kind (hs : ev.kind.starts = false) (hj : ev.kind.judges = false)
    (ha : ev.kind.admits = false) (hh : (step row ev).head = row.head)
    (hp : (step row ev).pass = row.pass) : Quiet row ev :=
  ⟨not_does hs, not_does hj, not_does ha, hh, hp⟩

/-- **A row is CI_RUNNING because a pass started, or because it was and nothing ended the pass.** -/
theorem running_step (h : (step row ev).state = .ciRunning) :
    (Does BatchEventKind.starts row ev ∧ (step row ev).phase = some .build) ∨
      (row.state = .ciRunning ∧ Quiet row ev ∧ ((step row ev).phase = some .suites →
        row.phase = some .suites ∨ Does (· = .suitesStarted row.pass) row ev)) := by
  obtain ⟨hf, hrow⟩ | ⟨ha, hm⟩ := step_cases row ev
  · rw [hrow] at h ⊢
    exact .inr ⟨h, quiet_of_refused hf, .inl⟩
  obtain ⟨expect, version, kind, actor⟩ := ev
  generalize hrow : step row ⟨expect, version, kind, actor⟩ = row' at hm h
  dsimp only at hm
  cases hm with
  | ciStarted | passStarted | rebuilt => exact .inl ⟨⟨ha, rfl⟩, rfl⟩
  | suitesStarted hs phase =>
    exact .inr ⟨hs, quiet_of_kind rfl rfl rfl (by rw [hrow]; rfl) (by rw [hrow]; rfl),
      fun _ ↦ .inr ⟨ha, by simp⟩⟩
  | failed hs phase =>
    exact .inr ⟨hs, quiet_of_kind rfl rfl rfl (by rw [hrow]; rfl) (by rw [hrow]; rfl),
      fun _ ↦ .inl phase⟩
  | ejectRunning hs =>
    exact .inr ⟨hs, quiet_of_kind rfl rfl rfl (by rw [hrow]; rfl) (by rw [hrow]; rfl), .inl⟩
  | memberAdded hs =>
    rw [show row.state = .ciRunning from h] at hs
    cases hs
  | ejectOpen hs =>
    obtain hs | hs := hs <;> rw [show row.state = .ciRunning from h] at hs <;> cases hs
  | attributed hs =>
    rw [show row.state = .ciRunning from h] at hs
    cases hs
  | _ => cases h

/-- **A row has passed because its pass was judged green, or because it had and is being landed.**
-/
theorem passed_step (h : (step row ev).state.isPassed) :
    (Does BatchEventKind.judges row ev ∧ row.state = .ciRunning ∧ (step row ev).head = row.head ∧
      (step row ev).pass = row.pass ∧ ∀ n suitesS buildS, ev.kind = .passGreen n suitesS buildS →
        n = row.pass ∧ row.phase = some .suites) ∨
      (row.state.isPassed ∧ Quiet row ev ∧ ¬ Does BatchEventKind.ejects row ev) := by
  obtain ⟨hf, hrow⟩ | ⟨ha, hm⟩ := step_cases row ev
  · rw [hrow] at h
    exact .inr ⟨h, quiet_of_refused hf, not_does_of_refused hf⟩
  obtain ⟨expect, version, kind, actor⟩ := ev
  generalize hrow : step row ⟨expect, version, kind, actor⟩ = row' at hm h
  dsimp only at hm
  have stays {s : BatchState} (hs : row.state = s) (hn : ¬ s.isPassed) (h : row.state.isPassed) :
      False := hn (hs ▸ h)
  cases hm with
  | green hs => exact .inl ⟨⟨ha, rfl⟩, hs, rfl, rfl, fun n suitesS buildS hk ↦ nomatch hk⟩
  | passGreen hs phase =>
    refine .inl ⟨⟨ha, rfl⟩, hs, rfl, rfl, fun n suitesS buildS hk ↦ ?_⟩
    cases hk
    exact ⟨rfl, phase⟩
  | fastForward hs | landStarted hs =>
    exact .inr ⟨.inl hs, quiet_of_kind rfl rfl rfl (by rw [hrow]; rfl) (by rw [hrow]; rfl), not_does rfl⟩
  | fastForwardLanding hs | landAborted hs =>
    exact .inr ⟨.inr (.inl hs),
      quiet_of_kind rfl rfl rfl (by rw [hrow]; rfl) (by rw [hrow]; rfl), not_does rfl⟩
  | deployed hs | deployFaulted hs =>
    exact .inr ⟨.inr (.inr (.inl hs)),
      quiet_of_kind rfl rfl rfl (by rw [hrow]; rfl) (by rw [hrow]; rfl), not_does rfl⟩
  | memberAdded hs | attributed hs | ejectRunning hs | failed hs =>
    exact (stays hs (by simp [BatchState.isPassed]) h).elim
  | ejectOpen hs =>
    obtain hs | hs := hs <;> exact (stays hs (by simp [BatchState.isPassed]) h).elim
  | _ => simp [BatchState.isPassed, BatchRow.moved] at h

/-- Starting a pass, and nothing else, raises the pass number, by one. -/
theorem pass_step (row : BatchRow) (ev : BatchEvent) :
    (Does BatchEventKind.starts row ev ∧ (step row ev).pass = row.pass + 1) ∨
      (¬ Does BatchEventKind.starts row ev ∧ (step row ev).pass = row.pass) := by
  obtain ⟨hf, hrow⟩ | ⟨ha, hm⟩ := step_cases row ev
  · exact .inr ⟨not_does_of_refused hf, by rw [hrow]⟩
  obtain ⟨expect, version, kind, actor⟩ := ev
  generalize hrow : step row ⟨expect, version, kind, actor⟩ = row' at hm
  dsimp only at hm
  cases hm with
  | ciStarted | passStarted | rebuilt => exact .inl ⟨⟨ha, rfl⟩, rfl⟩
  | red hs hk =>
    refine .inr ⟨not_does ?_, rfl⟩
    obtain rfl | ⟨_, _, _, rfl⟩ | ⟨_, rfl⟩ | ⟨_, _, _, rfl⟩ := hk <;> rfl
  | _ => exact .inr ⟨not_does rfl, rfl⟩

/-- A boundary of an older pass changes nothing. -/
theorem older_boundary {n : Nat} (hn : ev.kind.passNumber = some n) (h : n < row.pass) :
    step row ev = row := by
  obtain ⟨-, hrow⟩ | ⟨-, hm⟩ := step_cases row ev
  · exact hrow
  exfalso
  generalize ev.kind = kind at hn hm
  generalize step row ev = row' at hm
  cases hm with
  | passStarted | suitesStarted | failed | passGreen =>
    cases hn
    omega
  | red hs hk =>
    obtain rfl | ⟨_, _, _, rfl⟩ | ⟨_, rfl⟩ | ⟨_, _, _, rfl⟩ := hk <;> cases hn
    all_goals omega
  | _ => cases hn

end Step

/-! ## Every run -/

section Run

variable {row : BatchRow} {members : Finset String} {es fs pre mid post : List BatchEvent}
  {ev start verdict : BatchEvent}

/-- A step that moves neither the head nor the pass number. -/
def Stands (row : BatchRow) (ev : BatchEvent) : Prop :=
  (step row ev).head = row.head ∧ (step row ev).pass = row.pass

theorem stands_run (h : Always step Stands row es) :
    (run step row es).head = row.head ∧ (run step row es).pass = row.pass :=
  invariant_of_always (I := fun r ↦ r.head = row.head ∧ r.pass = row.pass) ⟨rfl, rfl⟩
    (fun _ _ hr hs ↦ ⟨hs.1.trans hr.1, hs.2.trans hr.2⟩) h

theorem Quiet.stands (h : Quiet row ev) : Stands row ev := ⟨h.head, h.pass⟩

theorem memberStep_fst (s : BatchRow × Finset String) : (run memberStep s es).1 = run step s.1 es := by
  induction es using List.reverseRecOn with
  | nil => rfl
  | append_singleton es ev ih => rw [run_snoc, run_snoc, ← ih]; rfl

theorem membersAfter_snoc : membersAfter members row (es ++ [ev]) =
    if (apply (run step row es) ev).applied then ev.kind.members (membersAfter members row es)
    else membersAfter members row es := by
  rw [membersAfter, run_snoc, memberStep, memberStep_fst]
  rfl

theorem membersAfter_append : membersAfter members row (es ++ fs) =
    membersAfter (membersAfter members row es) (run step row es) fs := by
  rw [membersAfter, run_append, membersAfter, membersAfter, ← memberStep_fst (row, members)]

/-- Within a pass members only leave. -/
theorem quiet_members (h : Always step Quiet row es) : membersAfter members row es ⊆ members := by
  refine always_induction (J := fun es ↦ membersAfter members row es ⊆ members)
    (Finset.Subset.refl _) (fun es ev _ ih hq ↦ ?_) es h
  rw [membersAfter_snoc]
  split
  · rename_i ha
    have hno := hq.admits
    obtain ⟨expect, version, kind, actor⟩ := ev
    cases kind with
    | memberAdded => exact absurd ⟨ha, rfl⟩ hno
    | eject => exact (Finset.erase_subset _ _).trans ih
    | _ => exact ih
  · exact ih

/-- With no eject they stay. -/
theorem still_members (h : Always step Quiet row es)
    (hno : Always step (fun row ev ↦ ¬ Does BatchEventKind.ejects row ev) row es) :
    membersAfter members row es = members := by
  induction es using List.reverseRecOn with
  | nil => rfl
  | append_singleton es ev ih =>
    obtain ⟨h, hq⟩ := always_snoc.mp h
    obtain ⟨hno, hne⟩ := always_snoc.mp hno
    have hna := hq.admits
    rw [membersAfter_snoc, ih h hno]
    split
    · rename_i ha
      obtain ⟨expect, version, kind, actor⟩ := ev
      cases kind with
      | memberAdded => exact absurd ⟨ha, rfl⟩ hna
      | eject => exact absurd ⟨ha, rfl⟩ hne
      | _ => rfl
    · rfl

/-- A pass that started with `start`, and runs. -/
structure Running (row : BatchRow) (pre : List BatchEvent) (start : BatchEvent)
    (mid : List BatchEvent) : Prop where
  starts : Does BatchEventKind.starts (run step row pre) start
  quiet : Always step Quiet (run step row (pre ++ [start])) mid
  suites : (run step row (pre ++ start :: mid)).phase = some .suites →
    ∃ p e q, mid = p ++ e :: q ∧
      Does (· = .suitesStarted (run step row (pre ++ [start])).pass) (run step row (pre ++ start :: p)) e

theorem append_start (pre mid : List BatchEvent) (start : BatchEvent) :
    pre ++ start :: mid = (pre ++ [start]) ++ mid := by simp

/-- **In a run from a new batch, a row is CI_RUNNING in the pass that started last.** -/
theorem running_of_state (hrow : row.state ≠ .ciRunning) (h : (run step row es).state = .ciRunning) :
    ∃ pre start mid, es = pre ++ start :: mid ∧ Running row pre start mid := by
  induction es using List.reverseRecOn with
  | nil => exact absurd h hrow
  | append_singleton es ev ih =>
    rw [run_snoc] at h
    obtain ⟨hstarts, hphase⟩ | ⟨hs, hquiet, hphase⟩ := running_step h
    · refine ⟨es, ev, [], rfl, hstarts, always_nil, fun hsuites ↦ ?_⟩
      rw [run_snoc, hphase] at hsuites
      cases hsuites
    · obtain ⟨pre, start, mid, rfl, hrun⟩ := ih hs
      refine ⟨pre, start, mid ++ [ev], by simp, hrun.starts, always_snoc.mpr ⟨hrun.quiet, ?_⟩, ?_⟩
      · rwa [← run_append, ← append_start]
      · intro hsuites
        rw [show pre ++ start :: (mid ++ [ev]) = (pre ++ start :: mid) ++ [ev] by simp, run_snoc]
          at hsuites
        obtain hbefore | hnow := hphase hsuites
        · obtain ⟨p, e, q, rfl, he⟩ := hrun.suites hbefore
          exact ⟨p, e, q ++ [ev], by simp, he⟩
        · refine ⟨mid, ev, [], rfl, ?_⟩
          rwa [append_start, run_append, (stands_run (hrun.quiet.mono fun _ _ ↦ Quiet.stands)).2, ← run_append,
            ← append_start] at hnow

/-- What a row that has passed rests on: the pass that `start` started and `verdict` judged. -/
structure Tested (row : BatchRow) (members : Finset String) (pre : List BatchEvent)
    (start : BatchEvent) (mid : List BatchEvent) (verdict : BatchEvent) (post : List BatchEvent) :
    Prop where
  starts : Does BatchEventKind.starts (run step row pre) start
  judges : Does BatchEventKind.judges (run step row (pre ++ start :: mid)) verdict
  /-- A numbered verdict is about the pass that started, and its suites had started. -/
  suites : ∀ n suitesS buildS, verdict.kind = .passGreen n suitesS buildS →
    n = (run step row (pre ++ [start])).pass ∧ ∃ p e q, mid = p ++ e :: q ∧
      Does (· = .suitesStarted n) (run step row (pre ++ start :: p)) e
  /-- No pass started since. -/
  lastStart : Always step (fun row ev ↦ ¬ Does BatchEventKind.starts row ev)
    (run step row (pre ++ [start])) (mid ++ verdict :: post)
  /-- It is judged once. -/
  lastVerdict : Always step (fun row ev ↦ ¬ Does BatchEventKind.judges row ev)
    (run step row (pre ++ [start])) mid ∧
    Always step (fun row ev ↦ ¬ Does BatchEventKind.judges row ev)
      (run step row (pre ++ start :: (mid ++ [verdict]))) post
  head : ∀ p q, mid ++ verdict :: post = p ++ q →
    (run step row (pre ++ start :: p)).head = (run step row (pre ++ [start])).head ∧
      (run step row (pre ++ start :: p)).pass = (run step row (pre ++ [start])).pass
  /-- Nobody was admitted since the start. -/
  admitted : membersAfter members row (pre ++ start :: (mid ++ verdict :: post)) ⊆
    membersAfter members row (pre ++ [start])
  /-- Nobody was ejected since, if nobody was while the pass ran. -/
  ejected : Always step (fun row ev ↦ ¬ Does BatchEventKind.ejects row ev)
      (run step row (pre ++ [start])) mid →
    membersAfter members row (pre ++ start :: (mid ++ verdict :: post)) =
      membersAfter members row (pre ++ [start])

/-- A pass that ran from `start` and was judged by `verdict`, and the landing since. -/
structure Judged (row : BatchRow) (pre : List BatchEvent) (start : BatchEvent)
    (mid : List BatchEvent) (verdict : BatchEvent) (post : List BatchEvent) : Prop where
  running : Running row pre start mid
  judges : Does BatchEventKind.judges (run step row (pre ++ start :: mid)) verdict
  stands : Stands (run step row (pre ++ start :: mid)) verdict
  suites : ∀ n suitesS buildS, verdict.kind = .passGreen n suitesS buildS →
    n = (run step row (pre ++ start :: mid)).pass ∧
      (run step row (pre ++ start :: mid)).phase = some .suites
  still : Always step (fun row ev ↦ Quiet row ev ∧ ¬ Does BatchEventKind.ejects row ev)
    (run step row (pre ++ start :: (mid ++ [verdict]))) post

/-- **In a run from a new batch, a row that has passed was judged, and nothing but its landing came
after.** -/
theorem judged_of_passed (hrow : row.state ≠ .ciRunning) (hnew : ¬ row.state.isPassed)
    (h : (run step row es).state.isPassed) : ∃ pre start mid verdict post,
      es = pre ++ start :: (mid ++ verdict :: post) ∧ Judged row pre start mid verdict post := by
  induction es using List.reverseRecOn with
  | nil => exact absurd h hnew
  | append_singleton es ev ih =>
    rw [run_snoc] at h
    obtain ⟨hjudges, hs, hh, hp, hsuites⟩ | ⟨hpassed, hquiet, hno⟩ := passed_step h
    · obtain ⟨pre, start, mid, rfl, hrun⟩ := running_of_state hrow hs
      exact ⟨pre, start, mid, ev, [], by simp, hrun, hjudges, ⟨hh, hp⟩, hsuites, always_nil⟩
    · obtain ⟨pre, start, mid, verdict, post, rfl, hjudged⟩ := ih hpassed
      refine ⟨pre, start, mid, verdict, post ++ [ev], by simp, hjudged.running, hjudged.judges,
        hjudged.stands, hjudged.suites, always_snoc.mpr ⟨hjudged.still, ?_⟩⟩
      rw [← run_append, show pre ++ start :: (mid ++ [verdict]) ++ post =
        pre ++ start :: (mid ++ verdict :: post) by simp]
      exact ⟨hquiet, hno⟩

/-- What holds of each step of a judged pass holds of the whole. -/
theorem Judged.always {ok : BatchRow → BatchEvent → Prop} (h : Judged row pre start mid verdict post)
    (hq : ∀ row ev, Quiet row ev → ok row ev) (hv : ok (run step row (pre ++ start :: mid)) verdict) :
    Always step ok (run step row (pre ++ [start])) (mid ++ verdict :: post) := by
  rw [show mid ++ verdict :: post = (mid ++ [verdict]) ++ post by simp, always_append, always_snoc,
    ← run_append, ← run_append, ← append_start, ← append_start]
  exact ⟨⟨h.running.quiet.mono hq, hv⟩, h.still.mono fun row ev hs ↦ hq row ev hs.1⟩

/-- The verdict changes no membership. -/
theorem members_of_judges {kind : BatchEventKind} (h : kind.judges = true) :
    kind.members members = members := by
  cases kind <;> first | rfl | cases h

theorem Judged.tested (h : Judged row pre start mid verdict post) :
    Tested row members pre start mid verdict post := by
  have hstands : Always step Stands _ _ := h.always (fun _ _ ↦ Quiet.stands) h.stands
  have hverdict : ¬ Does BatchEventKind.starts (run step row (pre ++ start :: mid)) verdict := by
    rintro ⟨-, hk⟩
    have hj := h.judges.2
    revert hk hj
    cases verdict.kind <;> simp [BatchEventKind.starts, BatchEventKind.judges]
  -- The members from the start to the end, by way of the verdict.
  have hsplit : pre ++ start :: (mid ++ verdict :: post) =
      ((pre ++ [start]) ++ mid ++ [verdict]) ++ post := by simp
  have hafter : membersAfter members row (pre ++ start :: (mid ++ verdict :: post)) =
      membersAfter (membersAfter members row (pre ++ [start])) (run step row (pre ++ [start])) mid := by
    have hstill : Always step (fun row ev ↦ Quiet row ev ∧ ¬ Does BatchEventKind.ejects row ev)
        (run step row ((pre ++ [start]) ++ mid ++ [verdict])) post := by simpa using h.still
    rw [hsplit, membersAfter_append, still_members (hstill.mono fun _ _ ↦ And.left)
      (hstill.mono fun _ _ ↦ And.right), membersAfter_snoc, members_of_judges h.judges.2, ite_self,
      membersAfter_append]
  refine ⟨h.running.starts, h.judges, fun n suitesS buildS hk ↦ ?_,
    h.always (fun _ _ ↦ Quiet.starts) hverdict,
    ⟨h.running.quiet.mono fun _ _ ↦ Quiet.judges, h.still.mono fun _ _ hs ↦ hs.1.judges⟩,
    fun p q hpq ↦ ?_, ?_, fun hno ↦ ?_⟩
  · obtain ⟨rfl, hphase⟩ := h.suites n suitesS buildS hk
    have hpass : (run step row (pre ++ start :: mid)).pass = (run step row (pre ++ [start])).pass := by
      rw [append_start, run_append]
      exact (stands_run (h.running.quiet.mono fun _ _ ↦ Quiet.stands)).2
    rw [hpass]
    exact ⟨rfl, h.running.suites hphase⟩
  · rw [append_start, run_append]
    rw [hpq] at hstands
    exact stands_run hstands.of_append
  · rw [hafter]
    exact quiet_members h.running.quiet
  · rw [hafter]
    exact still_members h.running.quiet hno

end Run

/-- **What every landing rests on**, and how pass numbers grow. -/
theorem landed_as_tested {row : BatchRow} (hnew : New row) (members : Finset String)
    (es : List BatchEvent) :
    ((run step row es).state.isPassed → ∃ pre start mid verdict post,
      es = pre ++ start :: (mid ++ verdict :: post) ∧
        Tested row members pre start mid verdict post) ∧
    ∀ pre ev post, es = pre ++ ev :: post →
      ((∃ sha, Does (· = .fastForward sha) (run step row pre) ev) → (run step row pre).state.isPassed) ∧
      (step (run step row pre) ev).pass = (run step row pre).pass +
        (if (apply (run step row pre) ev).applied && ev.kind.starts then 1 else 0) ∧
      ∀ n, ev.kind.passNumber = some n → n < (run step row pre).pass →
        step (run step row pre) ev = run step row pre := by
  have hfresh : row.state ≠ .ciRunning ∧ ¬ row.state.isPassed := by
    obtain ⟨_, _, _, _, rfl | ⟨_, rfl⟩⟩ := hnew <;>
      simp [BatchRow.cut, BatchRow.staged, BatchState.isPassed]
  refine ⟨fun h ↦ ?_, fun pre ev post _ ↦ ⟨?_, ?_, fun n ↦ older_boundary⟩⟩
  · obtain ⟨pre, start, mid, verdict, post, hes, hjudged⟩ := judged_of_passed hfresh.1 hfresh.2 h
    exact ⟨pre, start, mid, verdict, post, hes, hjudged.tested⟩
  · rintro ⟨sha, ha, hk⟩
    obtain ⟨hf, -⟩ | ⟨-, hm⟩ := step_cases (run step row pre) ev
    · rw [ha] at hf
      cases hf
    · rw [of_decide_eq_true hk] at hm
      generalize step (run step row pre) ev = row' at hm
      cases hm with
      | fastForward hs => exact .inl hs
      | fastForwardLanding hs => exact .inr (.inl hs)
      | red _ hk => obtain hk | ⟨_, _, _, hk⟩ | ⟨_, hk⟩ | ⟨_, _, _, hk⟩ := hk <;> cases hk
  · obtain ⟨⟨ha, hk⟩, hpass⟩ | ⟨hno, hpass⟩ := pass_step (run step row pre) ev
    · simp [ha, hk, hpass]
    · rw [hpass, if_neg (by simpa [Does] using hno), Nat.add_zero]

/-! ## Landings with less behind them -/

def sent (state : BatchState) (version : Version) (kind : BatchEventKind) : BatchEvent :=
  ⟨state, version, kind, "batcher"⟩

/-- A pass started and judged by the unnumbered events. -/
def unnumbered : List BatchEvent :=
  [sent .open 0 (.ciStarted "run-1"), sent .ciRunning 1 .green]

/-- A pass that loses a member while its suites run. -/
def ejectedMidPass : List BatchEvent :=
  [sent .open 0 (.passStarted 1 "head-1"), sent .ciRunning 1 (.suitesStarted 1),
    sent .ciRunning 2 (.eject "sp-1" "manual"), sent .ciRunning 3 (.passGreen 1 90 30)]

theorem landed_as_tested_unnumbered :
    ∃ start ∈ unnumbered, start.kind.starts = true := by
  obtain ⟨pre, start, mid, verdict, post, hes, h⟩ :=
    (landed_as_tested ⟨"b1", "spira", "head-1", "base-1", .inl rfl⟩ {"sp-1"} unnumbered).1
      (.inl (by decide))
  exact ⟨start, by rw [hes]; simp, h.starts.2⟩

theorem landed_untested :
    (¬ ∀ (row : BatchRow) (es : List BatchEvent) (sha : String) (version : Version), New row →
      (apply (run step row es) (sent .green version (.fastForward sha))).applied = true →
      ∃ ev ∈ es, ∃ n head, ev.kind = .passStarted n head) ∧
    ¬ ∀ (row : BatchRow) (members : Finset String) (pre post : List BatchEvent) (n : Nat)
      (head sha : String) (version : Version), New row → (∀ ev ∈ post, ev.kind.starts = false) →
      (apply (run step row (pre ++ sent .open 0 (.passStarted n head) :: post))
        (sent .green version (.fastForward sha))).applied = true →
      membersAfter members row (pre ++ sent .open 0 (.passStarted n head) :: post) =
        membersAfter members row (pre ++ [sent .open 0 (.passStarted n head)]) := by
  constructor
  · intro h
    obtain ⟨ev, hev, n, head, hk⟩ := h (.cut "b1" "spira" "head-1" "base-1") unnumbered "sha-1" 2
      ⟨_, _, _, _, .inl rfl⟩ (by decide)
    simp only [unnumbered, List.mem_cons, List.not_mem_nil, or_false] at hev
    obtain rfl | rfl := hev <;> cases hk
  · intro h
    have hmembers := h (.cut "b1" "spira" "head-1" "base-1") {"sp-1", "sp-2"} []
      (ejectedMidPass.drop 1) 1 "head-1" "sha-1" 4 ⟨_, _, _, _, .inl rfl⟩ (by decide) (by decide)
    revert hmembers
    decide

end Spira.Batch
