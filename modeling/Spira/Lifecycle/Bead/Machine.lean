import Mathlib.Tactic.Simps.Basic
import Spira.Lifecycle.Bead.Row

/-!
# The bead machine

`apply` is the pure function that takes a row and an event to the next row, layered as the source
has it:

* `applyTransition` checks the compare-and-swap (version, then expected state) and the form of a
  submitted tip, answers the orthogonal events itself, and hands the state-shaped ones on;
* `primaryTransition` is one table for each state;
* `settled` is the bookkeeping that every change of state brings with it.

Each arm builds its new row by updating the fields the source updates.  `Spira.Lifecycle.Bead.Moves`
turns the tables inside out, into the list of the moves there are.
-/

set_option autoImplicit false

namespace Spira.Bead

/-! ## Arms that several states have -/

/-- The row with its version advanced, the part of every applied event. -/
@[simps] def BeadRow.bump (row : BeadRow) : BeadRow := { row with version := row.version + 1 }

/-- A prerequisite reached LANDED: it drops out of the stack. -/
def dropPrereq (row : BeadRow) (prereq : String) : BeadOutcome :=
  .accepted { row.bump with stack := row.stack.erase prereq }

@[simp] theorem baseWithdrawnApplies_iff {row : BeadRow} {prereq tip : String} :
    baseWithdrawnApplies row prereq tip = true ↔ row.stack[prereq]? = some tip := by
  simp [baseWithdrawnApplies]

/-- What a withdrawn base leaves in `reason`. -/
def baseWithdrawnNote (prereq tip : String) : String := "base_withdrawn: " ++ prereq ++ " " ++ tip

/-- A withdrawn base that is recorded where the row stands: WORKING, IN_DELIVERY and REWORK. -/
def noteBaseWithdrawn (row : BeadRow) (prereq tip : String) : BeadOutcome :=
  if !baseWithdrawnApplies row prereq tip then notInStack row prereq tip
  else .accepted { row.bump with reason := some (baseWithdrawnNote prereq tip) }

/-- A withdrawn base that sends the row to REWORK: SUBMITTED and CERTIFIED. -/
def reworkBaseWithdrawn (row : BeadRow) (prereq tip : String) : BeadOutcome :=
  if !baseWithdrawnApplies row prereq tip then notInStack row prereq tip
  else .accepted
    { row.bump with state := .rework, reason := some (baseWithdrawnNote prereq tip) }

/-- A round delivered a bead a dwarf holds or has been handed back for rework: the landed content
decides, the row closes LANDED and the holder finds a terminal row. -/
def landedUnderHolder (row : BeadRow) (mergeSha : String) : BeadOutcome :=
  .accepted { row.bump with state := .landed, reason := some mergeSha }

/-- The row as a claim takes it. -/
@[simps] def BeadRow.claimed (row : BeadRow) (source : BeadState) (holder : String) (leaseUntil : Int)
    (stack : Stack) (stackDepth : Nat) (persona : Option String) : BeadRow :=
  { row.bump with
    state := .working
    claimedFrom := some source
    holder := some holder
    persona := persona
    leaseUntil := some leaseUntil
    stack := stack
    stackDepth := stackDepth }

/-! ## The table, state by state -/

def readyTransition (row : BeadRow) (kind : BeadEventKind) : BeadOutcome :=
  match kind with
  | .claim holder leaseUntil stack stackDepth stackMaxDepth persona =>
    if stackDepth > stackMaxDepth then depthExceeded row stackDepth stackMaxDepth
    else .accepted (row.claimed .ready holder leaseUntil stack stackDepth persona)
  -- Not yet claimed: the wait hold is re-applied, and there is no stack to check.
  | .baseWithdrawn _ _ => .accepted { row.bump with holds := insert .wait row.holds }
  | .prereqLanded prereq => dropPrereq row prereq
  | .done delivers =>
    if .ask ∈ row.holds then awaitingReply row kind
    else .accepted { row.bump with state := .done, reason := some delivers }
  | .resubmit tip _ =>
    if .ask ∈ row.holds then awaitingReply row kind
    else if .wait ∈ row.holds then illegal row kind
    else .accepted
      { row.bump with state := .submitted, tip := some tip, gateKey := none, reason := none }
  | _ => illegal row kind

def workingTransition (row : BeadRow) (kind : BeadEventKind) : BeadOutcome :=
  match kind with
  | .release | .holderDead =>
    .accepted
      { row.bump with
        state := if row.claimedFrom = some .rework then .rework else .ready
        holder := none
        persona := none
        leaseUntil := none
        -- The claim this stack belonged to is voided.
        stack := ∅
        stackDepth := 0 }
  | .submit tip =>
    if row.ejectedRedTip = some tip then .refuse row (.ejectedRedTip tip)
    else .accepted
      { row.bump with
        state := .submitted
        tip := some tip
        gateKey := none
        holder := none
        persona := none
        leaseUntil := none }
  | .done delivers =>
    if .ask ∈ row.holds then awaitingReply row kind
    else .accepted { row.bump with state := .done, reason := some delivers }
  | .baseWithdrawn prereq tip => noteBaseWithdrawn row prereq tip
  | .prereqLanded prereq => dropPrereq row prereq
  -- The holder check is `applyTransition`'s; here only "forward, never back".
  | .renew leaseUntil =>
    if row.leaseUntil.any (leaseUntil ≤ ·) then illegal row kind
    else .accepted { row.bump with leaseUntil := some leaseUntil }
  | .delivered mergeSha _ => landedUnderHolder row mergeSha
  | _ => illegal row kind

def submittedTransition (row : BeadRow) (kind : BeadEventKind) : BeadOutcome :=
  match kind with
  -- A moved tip replaces the pending one; the same tip again changes nothing.
  | .submit tip =>
    if row.tip ≠ some tip then .accepted { row.bump with tip := some tip, gateKey := none }
    else .accepted row.bump
  | .gatePass tip gateKey =>
    if row.tip ≠ some tip then tipMismatch row tip
    else .accepted { row.bump with state := .certified, gateKey := some gateKey }
  | .gateRed tip reason =>
    if row.tip ≠ some tip then tipMismatch row tip
    else .accepted
      { row.bump with
        state := .rework
        reason := some reason.asStr
        ejectedRedTip := if gateRedBarsTip reason then row.tip else row.ejectedRedTip }
  -- A row written before `submit` cleared the holder keeps a dead one.
  | .holderDead =>
    .accepted { row.bump with holder := none, persona := none, leaseUntil := none }
  -- A round takes SUBMITTED beads directly: its full suite is the certification.
  | .deliver =>
    match row.tip.filter (row.ejectedRedTip = some ·) with
    | some tip => .refuse row (.ejectedRedTip tip)
    | none => .accepted { row.bump with state := .inDelivery, reason := some fromSubmitted }
  | .gateInfra tip =>
    if row.tip ≠ some tip then tipMismatch row tip else .accepted row.bump
  | .baseWithdrawn prereq tip => reworkBaseWithdrawn row prereq tip
  | .prereqLanded prereq => dropPrereq row prereq
  | _ => illegal row kind

def certifiedTransition (row : BeadRow) (kind : BeadEventKind) : BeadOutcome :=
  match kind with
  | .deliver => .accepted { row.bump with state := .inDelivery, reason := none }
  -- The tip invariant: a different tip voids the certification.
  | .submit tip =>
    if row.tip ≠ some tip then
      .accepted { row.bump with state := .submitted, tip := some tip, gateKey := none }
    else .accepted row.bump
  | .gateRed tip reason =>
    if row.tip ≠ some tip then tipMismatch row tip
    else .accepted
      { row.bump with
        state := .rework
        gateKey := none
        reason := some reason.asStr
        ejectedRedTip := if gateRedBarsTip reason then row.tip else row.ejectedRedTip }
  | .baseWithdrawn prereq tip => reworkBaseWithdrawn row prereq tip
  | .prereqLanded prereq => dropPrereq row prereq
  | _ => illegal row kind

def inDeliveryTransition (row : BeadRow) (kind : BeadEventKind) : BeadOutcome :=
  match kind with
  | .delivered mergeSha _ =>
    .accepted { row.bump with state := .landed, reason := some mergeSha }
  | .returned reason =>
    .accepted
      { row.bump with
        state := .rework
        reason := some reason.asStr
        ejectedRedTip := if returnedBarsTip reason then row.tip else row.ejectedRedTip }
  -- A requeue whose tip no longer matches the row's does not resurrect CERTIFIED.
  | .requeued tip =>
    let certifiedBefore := row.gateKey.isSome && row.reason ≠ some fromSubmitted
    if row.ejectedRedTip = some tip then
      .accepted { row.bump with state := .rework, reason := none }
    else .accepted
      { row.bump with
        state := if certifiedBefore ∧ row.tip = some tip then .certified else .submitted
        reason := none }
  | .baseWithdrawn prereq tip => noteBaseWithdrawn row prereq tip
  | .prereqLanded prereq => dropPrereq row prereq
  -- Recorded, not dropped: the row stays, and its reason marks the member for eject.
  | .gateRed tip reason =>
    if row.tip ≠ some tip then tipMismatch row tip
    else .accepted { row.bump with reason := some (gateRedMark ++ reason.asStr) }
  | _ => illegal row kind

def reworkTransition (row : BeadRow) (kind : BeadEventKind) : BeadOutcome :=
  match kind with
  | .claim holder leaseUntil stack stackDepth stackMaxDepth persona =>
    if stackDepth > stackMaxDepth then depthExceeded row stackDepth stackMaxDepth
    else if reworkClaimStackUnchanged row.stack row.reason stack then
      .refuse row (.stackUnchanged stack.keys)
    else .accepted (row.claimed .rework holder leaseUntil stack stackDepth persona)
  | .baseWithdrawn prereq tip => noteBaseWithdrawn row prereq tip
  | .prereqLanded prereq => dropPrereq row prereq
  -- Refused unless somebody holds the bead by hand.
  | .resubmit tip _ =>
    if .manual ∉ row.holds then .refuse row .notManuallyHeld
    else .accepted
      { row.bump with state := .submitted, tip := some tip, gateKey := none, reason := none }
  | .delivered mergeSha _ => landedUnderHolder row mergeSha
  | _ => illegal row kind

/-- The state-specific half of the table. -/
def primaryTransition (row : BeadRow) (kind : BeadEventKind) : BeadOutcome :=
  match row.state with
  | .ready => readyTransition row kind
  | .open => illegal row kind
  | .working => workingTransition row kind
  | .submitted => submittedTransition row kind
  | .certified => certifiedTransition row kind
  | .inDelivery => inDeliveryTransition row kind
  | .rework => reworkTransition row kind
  | .landed | .superseded | .dropped | .done => terminal row

/-! ## The orthogonal events -/

/-- The three events that close a bead from any state that is not terminal, unless an `ask` is
open. -/
def closeAs (row : BeadRow) (kind : BeadEventKind) (state : BeadState) (reason : String) :
    BeadOutcome :=
  if row.state.isTerminal then terminal row
  else if .ask ∈ row.holds then awaitingReply row kind
  else .accepted { row.bump with state := state, reason := some reason }

/-- The two events that lift an `ask`. -/
def liftAsk (row : BeadRow) (kind : BeadEventKind) (legal : Bool) (reason : String) :
    BeadOutcome :=
  if row.state.isTerminal then terminal row
  else if .ask ∉ row.holds || !legal then illegal row kind
  else .accepted { row.bump with holds := row.holds.erase .ask, reason := some reason }

/-- Whether lifting a hold of this kind readmits a red tip, which takes a break-glass record. -/
def gateHold (row : BeadRow) (kind : HoldKind) : Bool :=
  kind = .manual && row.state = .rework && row.ejectedRedTip.isSome && row.ejectedRedTip = row.tip

/-- The events that are answered by `applyTransition` itself, and those it hands to the table. -/
def dispatch (row : BeadRow) (ev : BeadEvent) : BeadOutcome :=
  match ev.kind with
  | .contentOnBase proof => closeAs row ev.kind .landed proof
  | .supersede successor => closeAs row ev.kind .superseded successor
  | .drop reason => closeAs row ev.kind .dropped reason.asStr
  | .done delivers =>
    if row.state = .dropped ∧ ev.actor = deliveredCorrectionActor then
      .accepted { row.bump with state := .done, reason := some delivers }
    else primaryTransition row ev.kind
  | .reclassify state rule =>
    if ev.actor ≠ "classifier" ∨ row.state = .working then illegal row ev.kind
    else if row.state.isTerminal ∧ row.reason ≠ some residueRule then terminal row
    else if row.state = state ∧ row.reason = some rule then illegal row ev.kind
    else .accepted { row.bump with state := state, reason := some rule }
  | .hold kind cause detail =>
    if row.state.isTerminal then terminal row
    else
      match if kind = .manual ∧ cause = .manualHold then manualReasonRefusal detail else none with
      | some refusal => .refuse row refusal
      | none => .accepted
        { row.bump with
          holds := insert kind row.holds
          reason := some (detail.getD cause.asStr) }
  | .express =>
    if row.state.isTerminal then terminal row else .accepted { row.bump with express := true }
  | .unexpress =>
    if row.state.isTerminal then terminal row else .accepted { row.bump with express := false }
  | .promote =>
    if row.state ≠ .open then illegal row ev.kind
    else .accepted { row.bump with state := .ready }
  | .sifted tip =>
    if ¬(row.state = .submitted ∨ row.state = .certified) then illegal row ev.kind
    else if row.tip ≠ some tip then tipMismatch row tip
    else .accepted { row.bump with siftedTip := some tip }
  | .restack tip stack stackDepth =>
    if ¬(row.state = .submitted ∨ row.state = .certified) then illegal row ev.kind
    else if stack.isEmpty ∨ stackDepth = 0 ∨ row.beadId ∈ stack then illegal row ev.kind
    else .accepted
      { row.bump with
        state := .submitted
        tip := some tip
        stack := stack
        stackDepth := stackDepth
        gateKey := none
        siftedTip := none }
  | .absolve tip breakGlass =>
    if row.state.isTerminal then terminal row
    else if row.ejectedRedTip ≠ some tip then illegal row ev.kind
    else
      match breakGlass.gap ev.actor tip with
      | some missing => .refuse row (.breakGlassIncomplete missing)
      | none =>
        let readmit := row.state = .rework ∧ row.tip = some tip
        .accepted
          { row.bump with
            ejectedRedTip := none
            state := if readmit then .submitted else row.state
            gateKey := if readmit then none else row.gateKey
            reason := some (breakGlass.stamp ev.actor tip) }
  | .unhold kind breakGlass =>
    if row.state.isTerminal then terminal row
    else if kind = .ask then awaitingReply row ev.kind
    else
      let tip := row.tip.getD ""
      match if gateHold row kind then breakGlass.gap ev.actor tip else none with
      | some missing => .refuse row (.breakGlassIncomplete missing)
      | none => .accepted
        { row.bump with
          holds := row.holds.erase kind
          reason := if gateHold row kind then some (breakGlass.stamp ev.actor tip)
            else row.reason }
  | .reply messageId => liftAsk row ev.kind (messageId ≠ "") ("reply: " ++ messageId)
  | .askWithdrawn => liftAsk row ev.kind true "ask withdrawn"
  | .resubmit tip breakGlass =>
    match if row.state = .ready ∨ row.state = .rework then breakGlass.gap ev.actor tip
      else none with
    | some missing => .refuse row (.breakGlassIncomplete missing)
    | none =>
      let out := primaryTransition row ev.kind
      if out.applied then
        { out with row := { out.row with reason := some (breakGlass.stamp ev.actor tip) } }
      else out
  | .phase phase =>
    if row.state.isTerminal then terminal row
    else if row.state ≠ .working then illegal row ev.kind
    else if row.holder ≠ some ev.actor then .refuse row (.notHolder ev.actor row.holder)
    else if row.phase.any (phase.rank ≤ ·.rank) then illegalInPhase row ev.kind
    else .accepted { row.bump with phase := some phase }
  | .disposition status note =>
    if row.state.isTerminal then terminal row
    else if row.state ≠ .working then illegal row ev.kind
    else if row.disposition.any (status.rank ≤ ·.rank) then illegalInPhase row ev.kind
    else .accepted { row.bump with disposition := some status, dispositionNote := some note }
  -- Holder-only: the one table event whose legality turns on who sends it.
  | .renew _ =>
    if row.state = .working ∧ row.holder ≠ some ev.actor then
      .refuse row (.notHolder ev.actor row.holder)
    else primaryTransition row ev.kind
  | _ => primaryTransition row ev.kind

def applyTransition (row : BeadRow) (ev : BeadEvent) : BeadOutcome :=
  if ev.version ≠ row.version then .refuse row (.staleVersion ev.version row.version)
  else if ev.expect ≠ row.state then
    .refuse row (.expectMismatch ev.expect.asStr row.state.asStr)
  else
    match ev.kind.submittedTip.filter (!isFullSha ·) with
    | some tip => .refuse row (.malformedTip tip)
    | none => dispatch row ev

/-! ## The machine -/

/-- Whether a row that moved from `old` to `new` loses its holder besides: nobody holds a row that
is back in REWORK, nor one that is closed. -/
def unholds (old new : BeadState) : Prop := (new ≠ old ∧ new = .rework) ∨ new.isTerminal

instance (old new : BeadState) : Decidable (unholds old new) := inferInstanceAs (Decidable (_ ∨ _))

/-- What an applied event that took the row out of `old` does besides its own arm. -/
@[simps] def settled (old : BeadState) (at_ : Option Int) (row : BeadRow) : BeadRow :=
  { row with
    since := if row.state ≠ old then at_ else row.since
    phase := if row.state ≠ old then
        if row.state = .working then some .claimed else none
      else row.phase
    disposition := if row.state ≠ old then none else row.disposition
    dispositionNote := if row.state ≠ old then none else row.dispositionNote
    claimedFrom := if row.state ≠ old ∧ row.state ≠ .working then none else row.claimedFrom
    holder := if unholds old row.state then none else row.holder
    persona := if unholds old row.state then none else row.persona
    leaseUntil := if unholds old row.state then none else row.leaseUntil }

/-- Apply one event to one row. -/
def apply (row : BeadRow) (ev : BeadEvent) : BeadOutcome :=
  let out := applyTransition row ev
  if out.applied then { out with row := settled row.state ev.at_ out.row } else out

end Spira.Bead
