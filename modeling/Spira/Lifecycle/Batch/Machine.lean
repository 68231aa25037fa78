import Spira.Lifecycle.Outcome

/-!
# The batch machine

One row per round: the members cut together, tested together in passes, and landed together by one
fast-forward.  The row does not hold the members; an `eject` or a `memberAdded` only proves that the
batch took the change.

`apply` is the table of the source, state by state.  `Move` is the table inside out, the list of the
moves there are, and `step_cases` says that an event either changes nothing or is one of them.
-/

set_option autoImplicit false

namespace Spira.Batch

/-! ## Rows and events -/

inductive BatchState
  /-- Assembled behind a running round and not yet cut: its members are untouched. -/
  | staged
  | «open»
  | ciRunning
  | green
  /-- Green and being landed: the ref has not moved yet. -/
  | landing
  /-- The ref moved and the members are marked; the release is being published. -/
  | deploying
  | attributing
  | rebuilding
  | landed
  | settled
  | abandoned
  | discarded
  deriving DecidableEq, Repr

def BatchState.isTerminal : BatchState → Bool
  | landed | settled | abandoned | discarded => true
  | _ => false

def BatchState.asStr : BatchState → String
  | staged => "STAGED"
  | «open» => "OPEN"
  | ciRunning => "CI_RUNNING"
  | green => "GREEN"
  | landing => "LANDING"
  | deploying => "DEPLOYING"
  | attributing => "ATTRIBUTING"
  | rebuilding => "REBUILDING"
  | landed => "LANDED"
  | settled => "SETTLED"
  | abandoned => "ABANDONED"
  | discarded => "DISCARDED"

/-- Where inside a CI_RUNNING pass the round is. -/
inductive BatchPhase
  | build
  | suites
  deriving DecidableEq, Repr

def BatchPhase.asStr : BatchPhase → String
  | build => "build"
  | suites => "suites"

structure BatchRow where
  batchId : String
  repo : String
  state : BatchState
  parent : Option String
  head : Option String
  base : Option String
  run : Option String
  reason : Option String
  pass : Nat
  phase : Option BatchPhase
  version : Version
  deriving DecidableEq

/-- A round as it is cut: there is no prior row to swap. -/
def BatchRow.cut (batchId repo head base : String) : BatchRow where
  batchId := batchId
  repo := repo
  state := .open
  parent := none
  head := some head
  base := some base
  run := none
  reason := none
  pass := 0
  phase := none
  version := 0

/-- A round assembled behind `parent`, the round whose pass is still running. -/
def BatchRow.staged (batchId repo head base parent : String) : BatchRow :=
  { BatchRow.cut batchId repo head base with state := .staged, parent := some parent }

inductive BatchEventKind
  /-- Valid only while OPEN: proves the batch was still accepting members. -/
  | memberAdded (beadId tip : String)
  | ciStarted (run : String)
  /-- `n` must be the next pass number. -/
  | passStarted (n : Nat) (head : String)
  /-- Phase build to suites. -/
  | suitesStarted (n : Nat)
  | passGreen (n suitesS buildS : Nat)
  /-- The pass ran, and suites or the build failed. -/
  | passRed (n : Nat) (redSuites : List String) (suitesS buildS : Nat)
  /-- The pass produced no verdict. -/
  | passIncomplete (n : Nat) (reason : String)
  /-- The pass was stopped on purpose. -/
  | passPreempted (n done total : Nat) (redSuites : List String)
  /-- One suite of the running pass went red; the pass itself is untouched. -/
  | failed (suite : String) (n : Nat)
  /-- At the head the survivors were rebuilt to. -/
  | passRebuilt (head : String)
  | green
  | red
  | baseMoved
  | rebuilt
  | fastForward (sha : String)
  | landStarted
  | landAborted (reason : String)
  | deployed
  | deployFaulted (why : String)
  | attributed (beadId outcome : String)
  | settle
  | abandon (reason : String)
  /-- A manual eject of one member; of these, only the one of a GREEN batch moves it. -/
  | eject (beadId reason : String)
  /-- At the head and base the staged members were merged onto. -/
  | promote (head base : String)
  | discard (reason : String)
  deriving DecidableEq

structure BatchEvent where
  expect : BatchState
  version : Version
  kind : BatchEventKind
  actor : String
  deriving DecidableEq

abbrev BatchOutcome := Outcome BatchEventKind BatchRow

/-! ## The table -/

section Table

variable (row : BatchRow) (kind : BatchEventKind)

def whereIs : String :=
  match row.phase with
  | some p => row.state.asStr ++ " (pass " ++ toString row.pass ++ ", phase " ++ p.asStr ++ ")"
  | none =>
    if row.pass > 0 then row.state.asStr ++ " (pass " ++ toString row.pass ++ ")"
    else row.state.asStr

def illegal : BatchOutcome := .refuse row (.illegalTransition (whereIs row) kind)

def late (n : Nat) : BatchOutcome := .refuse row (.lateBoundary (whereIs row) kind n)

def terminal : BatchOutcome := .refuse row (.terminal row.state.asStr)

def BatchRow.moved (state : BatchState) (phase : Option BatchPhase) : BatchRow :=
  { row with state := state, phase := phase, version := row.version + 1 }

def BatchRow.stays : BatchRow := { row with version := row.version + 1 }

/-- A pass starts at `head`, if it is the next one. -/
def started (n : Nat) (head : String) : BatchOutcome :=
  if n ≠ row.pass + 1 then illegal row kind
  else .accepted { row.moved .ciRunning (some .build) with pass := n, head := some head }

def openTransition : BatchOutcome :=
  match kind with
  | .memberAdded _ _ | .eject _ _ => .accepted row.stays
  | .ciStarted run =>
    .accepted { row.moved .ciRunning (some .build) with run := some run, pass := row.pass + 1 }
  | .passStarted n head => started row kind n head
  | _ => illegal row kind

def ciRunningTransition : BatchOutcome :=
  match kind with
  | .green => .accepted (row.moved .green none)
  | .red => .accepted (row.moved .attributing none)
  | .eject _ _ => .accepted row.stays
  | .failed _ n =>
    if n < row.pass then late row kind n
    else if n = row.pass ∧ row.phase = some .suites then .accepted row.stays
    else illegal row kind
  | .suitesStarted n =>
    if n < row.pass then late row kind n
    else if n = row.pass ∧ row.phase = some .build then
      .accepted (row.moved .ciRunning (some .suites))
    else illegal row kind
  | .passGreen n _ _ =>
    if n = row.pass ∧ row.phase = some .suites then .accepted (row.moved .green none)
    else illegal row kind
  | .passRed n _ _ _ | .passIncomplete n _ | .passPreempted n _ _ _ =>
    if n = row.pass then .accepted (row.moved .attributing none) else illegal row kind
  | _ => illegal row kind

/-- A boundary of a pass that has its verdict is late; the rest of the table follows. -/
def judged (rest : BatchOutcome) : BatchOutcome :=
  match kind with
  | .suitesStarted n | .failed _ n => if n ≤ row.pass then late row kind n else illegal row kind
  | _ => rest

def greenTransition : BatchOutcome :=
  judged row kind <| match kind with
  | .fastForward sha => .accepted { row.moved .landed none with reason := some sha }
  | .landStarted => .accepted (row.moved .landing none)
  | .baseMoved => .accepted (row.moved .rebuilding none)
  | .eject _ _ => .accepted (row.moved .open none)
  | _ => illegal row kind

def landingTransition : BatchOutcome :=
  judged row kind <| match kind with
  | .fastForward sha => .accepted { row.moved .deploying none with reason := some sha }
  | .landAborted reason => .accepted { row.moved .green none with reason := some reason }
  | _ => illegal row kind

def deployingTransition : BatchOutcome :=
  judged row kind <| match kind with
  | .deployed => .accepted (row.moved .landed none)
  | .deployFaulted why =>
    let sha := row.reason.getD ""
    .accepted { row.moved .landed none with reason := some (sha ++ " deploy-fault: " ++ why) }
  | _ => illegal row kind

def rebuildingTransition : BatchOutcome :=
  judged row kind <| match kind with
  | .rebuilt => .accepted { row.moved .ciRunning (some .build) with pass := row.pass + 1 }
  | .passStarted n head => started row kind n head
  | _ => illegal row kind

def attributingTransition : BatchOutcome :=
  judged row kind <| match kind with
  | .passStarted n head => started row kind n head
  | .attributed _ _ | .eject _ _ => .accepted row.stays
  | .settle => .accepted (row.moved .settled none)
  | .passRebuilt head => .accepted { row.moved .open none with head := some head }
  | _ => illegal row kind

def stagedTransition : BatchOutcome :=
  match kind with
  | .promote head base =>
    .accepted { row.moved .open none with head := some head, base := some base }
  | .discard reason => .accepted { row.moved .discarded none with reason := some reason }
  | _ => illegal row kind

def primaryTransition : BatchOutcome :=
  match row.state with
  | .open => openTransition row kind
  | .ciRunning => ciRunningTransition row kind
  | .green => greenTransition row kind
  | .landing => landingTransition row kind
  | .deploying => deployingTransition row kind
  | .rebuilding => rebuildingTransition row kind
  | .attributing => attributingTransition row kind
  | .staged => stagedTransition row kind
  | .landed | .settled | .abandoned | .discarded => terminal row

end Table

/-- Apply one event to one batch row. -/
def apply (row : BatchRow) (ev : BatchEvent) : BatchOutcome :=
  if ev.version ≠ row.version then .refuse row (.staleVersion ev.version row.version)
  else if ev.expect ≠ row.state then
    .refuse row (.expectMismatch ev.expect.asStr row.state.asStr)
  else
    match ev.kind with
    -- Valid from any state that is not terminal, but for three.
    | .abandon reason =>
      if row.state.isTerminal then terminal row
      else if row.state = .staged ∨ row.state = .landing ∨ row.state = .deploying then
        illegal row ev.kind
      else .accepted { row.moved .abandoned none with reason := some reason }
    | _ => primaryTransition row ev.kind

/-! ## The moves -/

/-- What an applied event can do to a row. -/
inductive Move (row : BatchRow) : BatchEventKind → BatchRow → Prop
  | memberAdded {beadId tip : String} (hs : row.state = .open) :
      Move row (.memberAdded beadId tip) row.stays
  | ejectOpen {beadId reason : String} (hs : row.state = .open ∨ row.state = .attributing) :
      Move row (.eject beadId reason) row.stays
  | ejectRunning {beadId reason : String} (hs : row.state = .ciRunning) :
      Move row (.eject beadId reason) row.stays
  | ejectGreen {beadId reason : String} (hs : row.state = .green) :
      Move row (.eject beadId reason) (row.moved .open none)
  | ciStarted {run : String} (hs : row.state = .open) :
      Move row (.ciStarted run)
        { row.moved .ciRunning (some .build) with run := some run, pass := row.pass + 1 }
  | passStarted {head : String}
      (hs : row.state = .open ∨ row.state = .rebuilding ∨ row.state = .attributing) :
      Move row (.passStarted (row.pass + 1) head)
        { row.moved .ciRunning (some .build) with pass := row.pass + 1, head := some head }
  | rebuilt (hs : row.state = .rebuilding) :
      Move row .rebuilt { row.moved .ciRunning (some .build) with pass := row.pass + 1 }
  | suitesStarted (hs : row.state = .ciRunning) (phase : row.phase = some .build) :
      Move row (.suitesStarted row.pass) (row.moved .ciRunning (some .suites))
  | failed {suite : String} (hs : row.state = .ciRunning) (phase : row.phase = some .suites) :
      Move row (.failed suite row.pass) row.stays
  | green (hs : row.state = .ciRunning) : Move row .green (row.moved .green none)
  | passGreen {suitesS buildS : Nat} (hs : row.state = .ciRunning)
      (phase : row.phase = some .suites) :
      Move row (.passGreen row.pass suitesS buildS) (row.moved .green none)
  | red {kind : BatchEventKind} (hs : row.state = .ciRunning)
      (hk : kind = .red ∨ (∃ redSuites suitesS buildS, kind = .passRed row.pass redSuites suitesS buildS) ∨
        (∃ reason, kind = .passIncomplete row.pass reason) ∨
        ∃ done total redSuites, kind = .passPreempted row.pass done total redSuites) :
      Move row kind (row.moved .attributing none)
  | fastForward {sha : String} (hs : row.state = .green) :
      Move row (.fastForward sha) { row.moved .landed none with reason := some sha }
  | fastForwardLanding {sha : String} (hs : row.state = .landing) :
      Move row (.fastForward sha) { row.moved .deploying none with reason := some sha }
  | landStarted (hs : row.state = .green) : Move row .landStarted (row.moved .landing none)
  | landAborted {reason : String} (hs : row.state = .landing) :
      Move row (.landAborted reason) { row.moved .green none with reason := some reason }
  | deployed (hs : row.state = .deploying) : Move row .deployed (row.moved .landed none)
  | deployFaulted {why : String} (hs : row.state = .deploying) :
      Move row (.deployFaulted why)
        { row.moved .landed none with reason := some (row.reason.getD "" ++ " deploy-fault: " ++ why) }
  | baseMoved (hs : row.state = .green) : Move row .baseMoved (row.moved .rebuilding none)
  | attributed {beadId outcome : String} (hs : row.state = .attributing) :
      Move row (.attributed beadId outcome) row.stays
  | settle (hs : row.state = .attributing) : Move row .settle (row.moved .settled none)
  | passRebuilt {head : String} (hs : row.state = .attributing) :
      Move row (.passRebuilt head) { row.moved .open none with head := some head }
  | promote {head base : String} (hs : row.state = .staged) :
      Move row (.promote head base)
        { row.moved .open none with head := some head, base := some base }
  | discard {reason : String} (hs : row.state = .staged) :
      Move row (.discard reason) { row.moved .discarded none with reason := some reason }
  | abandon {reason : String} (hs : ¬ row.state.isTerminal)
      (held : row.state ≠ .staged ∧ row.state ≠ .landing ∧ row.state ≠ .deploying) :
      Move row (.abandon reason) { row.moved .abandoned none with reason := some reason }

section Inversion

variable {row : BatchRow} {kind : BatchEventKind}

theorem started_grants {n : Nat} {head : String}
    (hs : row.state = .open ∨ row.state = .rebuilding ∨ row.state = .attributing)
    (hk : kind = .passStarted n head) : (started row kind n head).Grants (Move row kind) := by
  simp only [started, illegal, Outcome.grants_guard, Outcome.grants_accepted, not_not]
  rintro rfl
  rw [hk]
  exact .passStarted hs

theorem judged_grants {rest : BatchOutcome} (h : rest.Grants (Move row kind)) :
    (judged row kind rest).Grants (Move row kind) := by
  unfold judged
  split
  · simp [late, illegal]
  · simp [late, illegal]
  · exact h

theorem ciRunningTransition_grants (hs : row.state = .ciRunning) :
    (ciRunningTransition row kind).Grants (Move row kind) := by
  cases kind with
  | green => exact Outcome.grants_accepted.mpr (.green hs)
  | red => exact Outcome.grants_accepted.mpr (.red hs (.inl rfl))
  | eject => exact Outcome.grants_accepted.mpr (.ejectRunning hs)
  | failed suite n =>
    simp only [ciRunningTransition, late, illegal, Outcome.grants_ite, Outcome.grants_accepted,
      Outcome.grants_refuse, implies_true, and_true, true_and]
    rintro - ⟨rfl, hp⟩
    exact .failed hs hp
  | suitesStarted n =>
    simp only [ciRunningTransition, late, illegal, Outcome.grants_ite, Outcome.grants_accepted,
      Outcome.grants_refuse, implies_true, and_true, true_and]
    rintro - ⟨rfl, hp⟩
    exact .suitesStarted hs hp
  | passGreen n =>
    simp only [ciRunningTransition, illegal, Outcome.grants_ite, Outcome.grants_accepted,
      Outcome.grants_refuse, implies_true, and_true]
    rintro ⟨rfl, hp⟩
    exact .passGreen hs hp
  | passRed n redSuites suitesS buildS =>
    simp only [ciRunningTransition, illegal, Outcome.grants_ite, Outcome.grants_accepted,
      Outcome.grants_refuse, implies_true, and_true]
    rintro rfl
    exact .red hs (.inr (.inl ⟨_, _, _, rfl⟩))
  | passIncomplete n reason =>
    simp only [ciRunningTransition, illegal, Outcome.grants_ite, Outcome.grants_accepted,
      Outcome.grants_refuse, implies_true, and_true]
    rintro rfl
    exact .red hs (.inr (.inr (.inl ⟨_, rfl⟩)))
  | passPreempted n done total redSuites =>
    simp only [ciRunningTransition, illegal, Outcome.grants_ite, Outcome.grants_accepted,
      Outcome.grants_refuse, implies_true, and_true]
    rintro rfl
    exact .red hs (.inr (.inr (.inr ⟨_, _, _, rfl⟩)))
  | _ => simp [ciRunningTransition, illegal]

theorem primaryTransition_grants : (primaryTransition row kind).Grants (Move row kind) := by
  unfold primaryTransition
  split <;> rename_i hs
  · cases kind with
    | memberAdded => exact Outcome.grants_accepted.mpr (.memberAdded hs)
    | eject => exact Outcome.grants_accepted.mpr (.ejectOpen (.inl hs))
    | ciStarted => exact Outcome.grants_accepted.mpr (.ciStarted hs)
    | passStarted n head => exact started_grants (.inl hs) rfl
    | _ => simp [openTransition, illegal]
  · exact ciRunningTransition_grants hs
  · refine judged_grants ?_
    cases kind with
    | fastForward => exact Outcome.grants_accepted.mpr (.fastForward hs)
    | landStarted => exact Outcome.grants_accepted.mpr (.landStarted hs)
    | baseMoved => exact Outcome.grants_accepted.mpr (.baseMoved hs)
    | eject => exact Outcome.grants_accepted.mpr (.ejectGreen hs)
    | _ => simp [illegal]
  · refine judged_grants ?_
    cases kind with
    | fastForward => exact Outcome.grants_accepted.mpr (.fastForwardLanding hs)
    | landAborted => exact Outcome.grants_accepted.mpr (.landAborted hs)
    | _ => simp [illegal]
  · refine judged_grants ?_
    cases kind with
    | deployed => exact Outcome.grants_accepted.mpr (.deployed hs)
    | deployFaulted => exact Outcome.grants_accepted.mpr (.deployFaulted hs)
    | _ => simp [illegal]
  · refine judged_grants ?_
    cases kind with
    | rebuilt => exact Outcome.grants_accepted.mpr (.rebuilt hs)
    | passStarted n head => exact started_grants (.inr (.inl hs)) rfl
    | _ => simp [illegal]
  · refine judged_grants ?_
    cases kind with
    | passStarted n head => exact started_grants (.inr (.inr hs)) rfl
    | attributed => exact Outcome.grants_accepted.mpr (.attributed hs)
    | eject => exact Outcome.grants_accepted.mpr (.ejectOpen (.inr hs))
    | settle => exact Outcome.grants_accepted.mpr (.settle hs)
    | passRebuilt => exact Outcome.grants_accepted.mpr (.passRebuilt hs)
    | _ => simp [illegal]
  · cases kind with
    | promote => exact Outcome.grants_accepted.mpr (.promote hs)
    | discard => exact Outcome.grants_accepted.mpr (.discard hs)
    | _ => simp [stagedTransition, illegal]
  all_goals simp [terminal]

theorem apply_grants {ev : BatchEvent} : (apply row ev).Grants (Move row ev.kind) := by
  obtain ⟨expect, version, kind, actor⟩ := ev
  simp only [apply, Outcome.grants_guard]
  rintro - -
  split
  · rename_i reason
    simp only [terminal, illegal, Outcome.grants_guard, Outcome.grants_accepted, not_or]
    exact fun hs held ↦ .abandon hs held
  · exact primaryTransition_grants

theorem started_keeps {n : Nat} {head : String} : (started row kind n head).Keeps row := by
  simp [started, illegal]

theorem judged_keeps {rest : BatchOutcome} (h : rest.Keeps row) : (judged row kind rest).Keeps row := by
  unfold judged
  split
  · simp [late, illegal]
  · simp [late, illegal]
  · exact h

theorem primaryTransition_keeps : (primaryTransition row kind).Keeps row := by
  unfold primaryTransition
  split
  · cases kind <;> simp [openTransition, illegal, started_keeps]
  · cases kind <;> simp [ciRunningTransition, illegal, late]
  · exact judged_keeps (by cases kind <;> simp [illegal])
  · exact judged_keeps (by cases kind <;> simp [illegal])
  · exact judged_keeps (by cases kind <;> simp [illegal])
  · exact judged_keeps (by cases kind <;> simp [illegal, started_keeps])
  · exact judged_keeps (by cases kind <;> simp [illegal, started_keeps])
  · cases kind <;> simp [stagedTransition, illegal]
  all_goals simp [terminal]

theorem apply_refused {ev : BatchEvent} (h : (apply row ev).applied = false) :
    (apply row ev).row = row := by
  suffices hk : (apply row ev).Keeps row from hk h
  simp only [apply, Outcome.keeps_ite, Outcome.keeps_refuse, implies_true, true_and]
  intros
  split
  · simp [terminal, illegal]
  · exact primaryTransition_keeps

/-- The row after an event, applied or refused. -/
def step (row : BatchRow) (ev : BatchEvent) : BatchRow := (apply row ev).row

/-- **A step is a refusal that changes nothing, or a move.** -/
theorem step_cases (row : BatchRow) (ev : BatchEvent) :
    ((apply row ev).applied = false ∧ step row ev = row) ∨
      ((apply row ev).applied = true ∧ Move row ev.kind (step row ev)) := by
  cases h : (apply row ev).applied with
  | false => exact .inl ⟨rfl, apply_refused h⟩
  | true => exact .inr ⟨rfl, apply_grants h⟩

end Inversion

end Spira.Batch
