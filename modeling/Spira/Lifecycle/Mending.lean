import Spira.Lib.History
import Spira.Lifecycle.Outcome

/-!
# The mending machine

One row for each failure of a suite in a pass, from the moment a mender is picked for it to its
outcome.  The pickup fixes a deadline; while the mend waits on an ask the deadline does not bind,
and the resume fixes a fresh one.

Once a row is overdue nothing but its expiry should be left.  Every outcome is checked against the
deadline, and so is the end of triage; an `await` carries no time and is not.  So an overdue row
that is made to wait outlives its deadline, and can be resumed and mended after all.
`mendingLaw_iff` has the condition under which the deadline decides: no overdue row is made to
wait.
-/

set_option autoImplicit false

namespace Spira.Mending

open History

/-! ## Rows and events -/

inductive MendingState
  | waiting
  | mending
  | mended
  | environment
  | flaky
  | returned
  | unsure
  deriving DecidableEq, Repr

def MendingState.isTerminal : MendingState → Bool
  | waiting | mending => false
  | _ => true

def MendingState.asStr : MendingState → String
  | waiting => "WAITING"
  | mending => "MENDING"
  | mended => "MENDED"
  | environment => "ENVIRONMENT"
  | flaky => "FLAKY"
  | returned => "RETURNED"
  | unsure => "UNSURE"

structure MendingRow where
  batchId : String
  pass : Nat
  suite : String
  state : MendingState
  pickedAt : Option Int
  deadline : Option Int
  triageEndedAt : Option Int
  diagnosis : Option String
  /-- The open ask a mend waits on. -/
  awaitingAsk : Option String
  version : Version
  deriving DecidableEq

/-- The name a failure's row is kept under. -/
def key (batchId : String) (pass : Nat) (suite : String) : String :=
  batchId ++ "#" ++ toString pass ++ "#" ++ suite

/-- A failure as the batch opens it. -/
def MendingRow.failed (batchId : String) (pass : Nat) (suite : String) : MendingRow where
  batchId := batchId
  pass := pass
  suite := suite
  state := .waiting
  pickedAt := none
  deadline := none
  triageEndedAt := none
  diagnosis := none
  awaitingAsk := none
  version := 0

/-- Only a MENDING row carries a deadline that can be overdue. -/
def MendingRow.overdue (row : MendingRow) (now : Int) : Bool :=
  row.state = .mending && row.awaitingAsk.isNone && row.deadline.any (· ≤ now)

inductive MendingEventKind
  /-- A mender took the failure. -/
  | pickup (at_ : Int) (deadlineS : Nat)
  | triageEnded (at_ : Int)
  /-- Replaces the diagnosis written so far. -/
  | diagnosis (text : String)
  | mended (at_ : Int)
  | environment (at_ : Int)
  | flaky (at_ : Int)
  | unsure (at_ : Int)
  /-- The mender's own return, carrying its diagnosis. -/
  | return (at_ : Int) (diagnosis : String)
  /-- The mend waits on `ask`. -/
  | await (ask : String)
  /-- The awaited ask is closed. -/
  | resume (at_ : Int) (deadlineS : Nat)
  /-- The deadline has been reached. -/
  | expire (at_ : Int)
  deriving DecidableEq

structure MendingEvent where
  expect : MendingState
  version : Version
  kind : MendingEventKind
  actor : String
  deriving DecidableEq

abbrev MendingOutcome := Outcome MendingEventKind MendingRow

/-! ## The table -/

/-- Actors that may record an outcome for a failure no mender picked. -/
def maySettleUnpicked (actor : String) : Bool := actor = "concierge" || actor = "operator"

/-- The largest time there is. -/
def maxTime : Int := 9223372036854775807

/-- `at_ + deadlineS`, or the largest time. -/
def deadlineAfter (at_ : Int) (deadlineS : Nat) : Int := min (at_ + min (deadlineS : Int) maxTime) maxTime

section Table

variable (row : MendingRow)

def illegal (kind : MendingEventKind) : MendingOutcome :=
  .refuse row (.illegalTransition row.state.asStr kind)

/-- The deadline, if it binds and has been reached. -/
def pastDeadline (at_ : Int) : Option Int :=
  row.deadline.filter fun d ↦ d ≤ at_ && row.awaitingAsk.isNone

def MendingRow.bump : MendingRow := { row with version := row.version + 1 }

/-- The new row, unless the old one's deadline has passed. -/
def inTime (at_ : Int) (new : MendingRow) : MendingOutcome :=
  match pastDeadline row at_ with
  | some deadline => .refuse row (.deadlinePassed deadline at_)
  | none => .accepted new

def settle (new : MendingRow) (state : MendingState) (at_ : Int) : MendingOutcome :=
  inTime row at_ { new with state := state }

/-- The outcomes a row can be settled with, by the mender or by who may settle an unpicked one. -/
def settleTransition (kind : MendingEventKind) : MendingOutcome :=
  match kind with
  | .mended at_ => settle row row.bump .mended at_
  | .environment at_ => settle row row.bump .environment at_
  | .flaky at_ => settle row row.bump .flaky at_
  | .unsure at_ => settle row row.bump .unsure at_
  | .return at_ diagnosis => settle row { row.bump with diagnosis := some diagnosis } .returned at_
  | _ => illegal row kind

def waitingTransition (kind : MendingEventKind) (triager : Bool) : MendingOutcome :=
  match kind with
  | .triageEnded at_ =>
    if triager ∧ row.triageEndedAt = none then
      .accepted { row.bump with triageEndedAt := some at_ }
    else illegal row kind
  | .diagnosis text =>
    if triager then .accepted { row.bump with diagnosis := some text } else illegal row kind
  | .pickup at_ deadlineS =>
    .accepted
      { row.bump with
        state := .mending
        pickedAt := some at_
        deadline := some (deadlineAfter at_ deadlineS) }
  | _ => if triager then settleTransition row kind else illegal row kind

def mendingTransition (kind : MendingEventKind) : MendingOutcome :=
  match kind with
  | .triageEnded at_ =>
    if row.triageEndedAt = none then inTime row at_ { row.bump with triageEndedAt := some at_ }
    else illegal row kind
  -- Carries no time, and meets no deadline.
  | .await ask =>
    if row.awaitingAsk = none ∧ ask ≠ "" then .accepted { row.bump with awaitingAsk := some ask }
    else illegal row kind
  | .resume at_ deadlineS =>
    if row.awaitingAsk.isSome then
      .accepted
        { row.bump with awaitingAsk := none, deadline := some (deadlineAfter at_ deadlineS) }
    else illegal row kind
  | .diagnosis text => .accepted { row.bump with diagnosis := some text }
  | .expire at_ =>
    if row.overdue at_ then .accepted { row.bump with state := .returned } else illegal row kind
  | _ => settleTransition row kind

end Table

/-- Apply one event to one mending row. -/
def apply (row : MendingRow) (ev : MendingEvent) : MendingOutcome :=
  if ev.version ≠ row.version then .refuse row (.staleVersion ev.version row.version)
  else if ev.expect ≠ row.state then
    .refuse row (.expectMismatch ev.expect.asStr row.state.asStr)
  else
    match row.state with
    | .waiting => waitingTransition row ev.kind (maySettleUnpicked ev.actor)
    | .mending => mendingTransition row ev.kind
    | _ => .refuse row (.terminal row.state.asStr)

/-! ## The moves -/

/-- What an applied event can do to a row.  The outcomes are one move: they differ in the state
and in whether they bring a diagnosis. -/
inductive Move (row : MendingRow) : MendingEventKind → MendingRow → Prop
  | triageEnded {at_ : Int} (hs : row.state = .waiting ∨ pastDeadline row at_ = none) :
      Move row (.triageEnded at_) { row.bump with triageEndedAt := some at_ }
  | diagnosis {text : String} : Move row (.diagnosis text) { row.bump with diagnosis := some text }
  | settle {kind : MendingEventKind} {state : MendingState} {at_ : Int} {diagnosis : Option String}
      (hk : kind = .mended at_ ∨ kind = .environment at_ ∨ kind = .flaky at_ ∨ kind = .unsure at_ ∨
        ∃ text, kind = .return at_ text)
      (inTime : pastDeadline row at_ = none) (closed : state.isTerminal) :
      Move row kind { row.bump with state := state, diagnosis := diagnosis }
  | pickup {at_ : Int} {deadlineS : Nat} (hs : row.state = .waiting) :
      Move row (.pickup at_ deadlineS)
        { row.bump with
          state := .mending
          pickedAt := some at_
          deadline := some (deadlineAfter at_ deadlineS) }
  | await {ask : String} (hs : row.state = .mending) (free : row.awaitingAsk = none)
      (named : ask ≠ "") : Move row (.await ask) { row.bump with awaitingAsk := some ask }
  | resume {at_ : Int} {deadlineS : Nat} (hs : row.state = .mending)
      (awaiting : row.awaitingAsk.isSome) :
      Move row (.resume at_ deadlineS)
        { row.bump with awaitingAsk := none, deadline := some (deadlineAfter at_ deadlineS) }
  | expire {at_ : Int} (overdue : row.overdue at_ = true) :
      Move row (.expire at_) { row.bump with state := .returned }

section Inversion

variable {row : MendingRow} {ev : MendingEvent} {kind : MendingEventKind}

theorem inTime_grants {at_ : Int} {new : MendingRow} {P : MendingRow → Prop}
    (h : pastDeadline row at_ = none → P new) : (inTime row at_ new).Grants P := by
  unfold inTime
  split
  · simp
  · rename_i hp
    exact Outcome.grants_accepted.mpr (h hp)

theorem settleTransition_grants : (settleTransition row kind).Grants (Move row kind) := by
  cases kind with
  | mended => exact inTime_grants fun h ↦ .settle (.inl rfl) h rfl
  | environment => exact inTime_grants fun h ↦ .settle (.inr (.inl rfl)) h rfl
  | flaky => exact inTime_grants fun h ↦ .settle (.inr (.inr (.inl rfl))) h rfl
  | unsure => exact inTime_grants fun h ↦ .settle (.inr (.inr (.inr (.inl rfl)))) h rfl
  | «return» => exact inTime_grants fun h ↦ .settle (.inr (.inr (.inr (.inr ⟨_, rfl⟩)))) h rfl
  | _ => simp [settleTransition, illegal]

theorem waitingTransition_grants {triager : Bool} (hs : row.state = .waiting) :
    (waitingTransition row kind triager).Grants (Move row kind) := by
  unfold waitingTransition
  split
  · simp only [illegal, Outcome.grants_ite, Outcome.grants_accepted, Outcome.grants_refuse,
      implies_true, and_true]
    exact fun _ ↦ .triageEnded (.inl hs)
  · simp only [illegal, Outcome.grants_ite, Outcome.grants_accepted, Outcome.grants_refuse,
      implies_true, and_true]
    exact fun _ ↦ .diagnosis
  · exact Outcome.grants_accepted.mpr (.pickup hs)
  · simp only [illegal, Outcome.grants_ite, Outcome.grants_refuse, implies_true, and_true]
    exact fun _ ↦ settleTransition_grants

theorem mendingTransition_grants (hs : row.state = .mending) :
    (mendingTransition row kind).Grants (Move row kind) := by
  unfold mendingTransition
  split
  · simp only [illegal, Outcome.grants_ite, Outcome.grants_refuse, implies_true, and_true]
    exact fun _ ↦ inTime_grants fun h ↦ .triageEnded (.inr h)
  · simp only [illegal, Outcome.grants_ite, Outcome.grants_accepted, Outcome.grants_refuse,
      implies_true, and_true]
    exact fun h ↦ .await hs h.1 h.2
  · simp only [illegal, Outcome.grants_ite, Outcome.grants_accepted, Outcome.grants_refuse,
      implies_true, and_true]
    exact .resume hs
  · exact Outcome.grants_accepted.mpr .diagnosis
  · simp only [illegal, Outcome.grants_ite, Outcome.grants_accepted, Outcome.grants_refuse,
      implies_true, and_true]
    exact .expire
  · exact settleTransition_grants

theorem apply_grants : (apply row ev).Grants fun row' ↦ ¬ row.state.isTerminal ∧
    ev.version = row.version ∧ ev.expect = row.state ∧ Move row ev.kind row' := by
  simp only [apply, Outcome.grants_guard, not_not]
  rintro hv he
  split <;> rename_i hs
  · exact (waitingTransition_grants hs).mono fun _ h ↦ ⟨by simp [hs, MendingState.isTerminal], hv, he, h⟩
  · exact (mendingTransition_grants hs).mono fun _ h ↦ ⟨by simp [hs, MendingState.isTerminal], hv, he, h⟩
  · simp

theorem inTime_keeps {at_ : Int} {new : MendingRow} : (inTime row at_ new).Keeps row := by
  unfold inTime
  split <;> simp

theorem settleTransition_keeps : (settleTransition row kind).Keeps row := by
  cases kind <;> simp [settleTransition, settle, illegal, inTime_keeps]

theorem apply_refused (h : (apply row ev).applied = false) : (apply row ev).row = row := by
  suffices hk : (apply row ev).Keeps row from hk h
  simp only [apply, Outcome.keeps_ite, Outcome.keeps_refuse, implies_true, true_and]
  intros
  split
  · unfold waitingTransition
    split <;> simp [illegal, settleTransition_keeps]
  · unfold mendingTransition
    split <;> simp [illegal, inTime_keeps, settleTransition_keeps]
  · simp

/-- The row after an event, applied or refused. -/
def step (row : MendingRow) (ev : MendingEvent) : MendingRow := (apply row ev).row

/-- **A step is a refusal that changes nothing, or a move of an unsettled row.** -/
theorem step_cases (row : MendingRow) (ev : MendingEvent) :
    ((apply row ev).applied = false ∧ step row ev = row) ∨
      ((apply row ev).applied = true ∧ ¬ row.state.isTerminal ∧ ev.version = row.version ∧
        ev.expect = row.state ∧ Move row ev.kind (step row ev)) := by
  cases h : (apply row ev).applied with
  | false => exact .inl ⟨rfl, apply_refused h⟩
  | true => exact .inr ⟨rfl, apply_grants h⟩

end Inversion

/-! ## The law of the deadline -/

/-- An event and the time it is sent at. -/
structure Timed where
  now : Int
  ev : MendingEvent
  deriving DecidableEq

def stepAt (row : MendingRow) (e : Timed) : MendingRow := step row e.ev

/-- The time an event carries, if it carries one. -/
def MendingEventKind.time : MendingEventKind → Option Int
  | .pickup at_ _ | .triageEnded at_ | .mended at_ | .environment at_ | .flaky at_ | .unsure at_
  | .return at_ _ | .resume at_ _ | .expire at_ => some at_
  | .diagnosis _ | .await _ => none

/-- The event carries the time it is sent at. -/
def Stamped (e : Timed) : Prop := ∀ t, e.ev.kind.time = some t → t = e.now

/-- The row expires. -/
def Expires (row : MendingRow) (e : Timed) : Prop :=
  (apply row e.ev).applied = true ∧ ∃ at_, e.ev.kind = .expire at_

/-- The deadline is fixed, by a pickup or a resume. -/
def FixesDeadline (row : MendingRow) (e : Timed) : Prop :=
  (apply row e.ev).applied = true ∧
    ∃ at_ deadlineS, e.ev.kind = .pickup at_ deadlineS ∨ e.ev.kind = .resume at_ deadlineS

/-- The law, of one run. -/
structure MendingLaw (row : MendingRow) (es : List Timed) : Prop where
  /-- An overdue row stays overdue, at the same deadline, until it expires. -/
  decided : ∀ pre mid post now, es = pre ++ mid ++ post → (∀ e ∈ mid, now ≤ e.now) →
    (run stepAt row pre).overdue now = true →
    (run stepAt row (pre ++ mid)).deadline = (run stepAt row pre).deadline ∧
      ((run stepAt row (pre ++ mid)).overdue now = true ∨
        (run stepAt row (pre ++ mid)).state = .returned ∧ ∃ p e q, mid = p ++ e :: q ∧
          Expires (run stepAt row (pre ++ p)) e)
  deadline : Always stepAt
    (fun row e ↦ (stepAt row e).deadline = row.deadline ∨ FixesDeadline row e) row es
  settled : ∀ pre post, es = pre ++ post → (run stepAt row pre).state.isTerminal →
    run stepAt row es = run stepAt row pre

/-- An overdue row is made to wait on an ask. -/
def AwaitsLate (row : MendingRow) (e : Timed) : Prop :=
  row.overdue e.now = true ∧ e.ev.version = row.version ∧ e.ev.expect = row.state ∧
    ∃ ask, ask ≠ "" ∧ e.ev.kind = .await ask

section Step

variable {row : MendingRow} {e : Timed} {now : Int}

theorem overdue_iff : row.overdue now = true ↔ row.state = .mending ∧ row.awaitingAsk = none ∧
    ∃ d, row.deadline = some d ∧ d ≤ now := by
  simp [MendingRow.overdue, Option.any_eq_true, and_assoc]

theorem overdue_mono {later : Int} (h : row.overdue now = true) (hle : now ≤ later) :
    row.overdue later = true := by
  obtain ⟨hs, ha, d, hd, hdn⟩ := overdue_iff.mp h
  exact overdue_iff.mpr ⟨hs, ha, d, hd, Int.le_trans hdn hle⟩

theorem pastDeadline_of_overdue (h : row.overdue now = true) : pastDeadline row now ≠ none := by
  obtain ⟨-, ha, d, hd, hdn⟩ := overdue_iff.mp h
  simp [pastDeadline, ha, hd, hdn]

/-- **An overdue row is left as it is, but for its diagnosis, until it expires**, unless it is
made to wait. -/
theorem overdue_step (h : row.overdue now = true) (hle : now ≤ e.now) (hstamp : Stamped e)
    (hno : ¬ AwaitsLate row e) : (stepAt row e).deadline = row.deadline ∧
      ((stepAt row e).overdue now = true ∨ (stepAt row e).state = .returned ∧ Expires row e) := by
  have hlate := overdue_mono h hle
  obtain ⟨hs, ha, d, hd, hdn⟩ := overdue_iff.mp h
  obtain ⟨-, hrow⟩ | ⟨happ, -, hv, he, hm⟩ := step_cases row e.ev
  · rw [stepAt, hrow]
    exact ⟨rfl, .inl h⟩
  rw [stepAt]
  obtain ⟨at_, ⟨expect, version, kind, actor⟩⟩ := e
  generalize hnext : step row ⟨expect, version, kind, actor⟩ = row' at hm
  dsimp only at hm
  cases hm with
  | triageEnded hs' =>
    obtain rfl := hstamp _ rfl
    obtain hw | hp := hs'
    · rw [hs] at hw
      cases hw
    · exact absurd hp (pastDeadline_of_overdue hlate)
  | diagnosis => exact ⟨rfl, .inl (overdue_iff.mpr ⟨hs, ha, d, hd, hdn⟩)⟩
  | settle hk inTime =>
    obtain rfl | rfl | rfl | rfl | ⟨_, rfl⟩ := hk <;>
    · obtain rfl := hstamp _ rfl
      exact absurd inTime (pastDeadline_of_overdue hlate)
  | pickup hs' =>
    rw [hs] at hs'
    cases hs'
  | await hs' free named => exact absurd ⟨hlate, hv, he, _, named, rfl⟩ hno
  | resume _ awaiting =>
    rw [ha] at awaiting
    cases awaiting
  | expire => exact ⟨rfl, .inr ⟨rfl, happ, _, rfl⟩⟩

/-- A row made to wait is not overdue. -/
theorem not_overdue_of_awaitsLate (now : Int) (h : AwaitsLate row e) :
    (stepAt row e).overdue now = false ∧ (stepAt row e).state = .mending := by
  obtain ⟨hlate, hv, he, ask, hne, hk⟩ := h
  obtain ⟨hs, ha, -⟩ := overdue_iff.mp hlate
  have hstep : stepAt row e = { row.bump with awaitingAsk := some ask } := by
    simp [stepAt, step, apply, hv, he, hs, hk, mendingTransition, ha, hne]
  rw [hstep]
  exact ⟨by simp [MendingRow.overdue], hs⟩

theorem deadline_step : (stepAt row e).deadline = row.deadline ∨ FixesDeadline row e := by
  obtain ⟨-, hrow⟩ | ⟨happ, -, -, -, hm⟩ := step_cases row e.ev
  · rw [stepAt, hrow]
    exact .inl rfl
  rw [stepAt]
  obtain ⟨at_, ⟨expect, version, kind, actor⟩⟩ := e
  generalize step row ⟨expect, version, kind, actor⟩ = row' at hm
  dsimp only at hm
  cases hm with
  | pickup => exact .inr ⟨happ, _, _, .inl rfl⟩
  | resume => exact .inr ⟨happ, _, _, .inr rfl⟩
  | _ => exact .inl rfl

theorem settled_step (h : row.state.isTerminal) : stepAt row e = row := by
  obtain ⟨-, hrow⟩ | ⟨-, hopen, -⟩ := step_cases row e.ev
  · exact hrow
  · exact absurd h hopen

end Step

/-! ## Every run -/

section Run

variable {row : MendingRow} {es : List Timed}

theorem settled_run (h : row.state.isTerminal) : run stepAt row es = row := by
  induction es using List.reverseRecOn with
  | nil => rfl
  | append_singleton es e ih => rw [run_snoc, ih, settled_step h]

/-- **An overdue row stays overdue until it expires**, in a run that does not make it wait. -/
theorem overdue_run {now : Int} (h : row.overdue now = true) (hle : ∀ e ∈ es, now ≤ e.now)
    (hstamp : ∀ e ∈ es, Stamped e) (hno : Always stepAt (fun row e ↦ ¬ AwaitsLate row e) row es) :
    (run stepAt row es).deadline = row.deadline ∧ ((run stepAt row es).overdue now = true ∨
      (run stepAt row es).state = .returned ∧ ∃ p e q, es = p ++ e :: q ∧
        Expires (run stepAt row p) e) := by
  induction es using List.reverseRecOn with
  | nil => exact ⟨rfl, .inl h⟩
  | append_singleton es e ih =>
    obtain ⟨hno, hlast⟩ := always_snoc.mp hno
    obtain ⟨hd, hstate⟩ := ih (fun e he ↦ hle e (by simp [he])) (fun e he ↦ hstamp e (by simp [he])) hno
    rw [run_snoc]
    obtain hover | ⟨hret, p, e', q, rfl, hexp⟩ := hstate
    · obtain ⟨hd', hstate'⟩ := overdue_step hover (hle e (by simp)) (hstamp e (by simp)) hlast
      exact ⟨hd'.trans hd, hstate'.imp_right fun hx ↦ ⟨hx.1, es, e, [], rfl, hx.2⟩⟩
    · rw [settled_step (by rw [hret]; rfl)]
      exact ⟨hd, .inr ⟨hret, p, e', q ++ [e], by simp, hexp⟩⟩

/-- **The deadline decides in a run exactly when no overdue row is made to wait.** -/
theorem mendingLaw_iff (hstamp : ∀ e ∈ es, Stamped e) :
    MendingLaw row es ↔ Always stepAt (fun row e ↦ ¬ AwaitsLate row e) row es := by
  constructor
  · rintro h pre e post rfl hawaits
    obtain ⟨hover, hstate⟩ := not_overdue_of_awaitsLate e.now hawaits
    have hdecided := (h.decided pre [e] post e.now (by simp) (by simp) hawaits.1).2
    rw [run_snoc] at hdecided
    obtain h | ⟨h, -⟩ := hdecided
    · rw [hover] at h
      cases h
    · rw [hstate] at h
      cases h
  · intro hno
    refine ⟨?_, fun pre e post _ ↦ deadline_step, ?_⟩
    · rintro pre mid post now rfl hle hover
      have hmid := (always_append.mp (always_append.mp hno).1).2
      have hrun := overdue_run hover hle (fun e he ↦ hstamp e (by simp [he])) hmid
      rw [run_append]
      refine ⟨hrun.1, hrun.2.imp_right fun hx ↦ ⟨hx.1, ?_⟩⟩
      obtain ⟨p, e, q, hmid, hexp⟩ := hx.2
      exact ⟨p, e, q, hmid, by rwa [run_append]⟩
    · rintro pre post rfl ht
      rw [run_append]
      exact settled_run ht

end Run

/-! ## A mend past its deadline -/

def sent (now : Int) (expect : MendingState) (version : Version) (kind : MendingEventKind) : Timed :=
  ⟨now, expect, version, kind, "mender"⟩

def picked : List Timed := [sent 1000 .waiting 0 (.pickup 1000 300)]

/-- The deadline is 1300. -/
def mendedLate : List Timed :=
  picked ++ [sent 1400 .mending 1 (.await "ask-1"), sent 1500 .mending 2 (.resume 1500 300),
    sent 1600 .mending 3 (.mended 1600)]

theorem mendingLaw_picked :
    MendingLaw (.failed "b1" 1 "test-x.sh") (picked ++ [sent 1400 .mending 1 (.expire 1400)]) := by
  refine (mendingLaw_iff fun e he ↦ ?_).mpr fun pre e post h hawaits ↦ ?_
  · simp only [picked, sent, List.cons_append, List.nil_append, List.mem_cons, List.not_mem_nil,
      or_false] at he
    obtain rfl | rfl := he <;> simp [Stamped, MendingEventKind.time]
  · have he : e ∈ picked ++ [sent 1400 .mending 1 (.expire 1400)] := by rw [h]; simp
    obtain ⟨-, -, -, ask, -, hk⟩ := hawaits
    simp only [picked, sent, List.cons_append, List.nil_append, List.mem_cons, List.not_mem_nil,
      or_false] at he
    obtain rfl | rfl := he <;> cases hk

theorem mended_late :
    ¬ ∀ (batchId suite : String) (pass : Nat) (es : List Timed), (∀ e ∈ es, Stamped e) →
      es.Pairwise (·.now ≤ ·.now) → MendingLaw (.failed batchId pass suite) es := by
  intro h
  have hlaw := h "b1" "test-x.sh" 1 mendedLate ?_ (by decide)
  · obtain ⟨-, hover | ⟨hret, -⟩⟩ := hlaw.decided picked (mendedLate.drop 1) [] 1300 rfl (by decide)
      (by decide)
    · revert hover
      decide
    · revert hret
      decide
  · intro e he
    simp only [mendedLate, picked, sent, List.cons_append, List.nil_append, List.mem_cons,
      List.not_mem_nil, or_false] at he
    obtain rfl | rfl | rfl | rfl := he <;> simp [Stamped, MendingEventKind.time]

end Spira.Mending
