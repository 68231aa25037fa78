import Mathlib.Data.Finset.Basic
import Spira.Lib.Text
import Spira.Lifecycle.Outcome
import Spira.Lifecycle.Reason

/-!
# The rows and events of the bead machine

One row per work bead.  The row never knows whether delivery is a batch, a PR or a push: that is the
delivery machine's job.  This file has the row, the events, the refusals and the small predicates
the machine's arms share; the machine itself is `Spira.Lifecycle.Bead.Machine`.

Counters are natural numbers and a lease is an integer, as in the source but for their width.
-/

set_option autoImplicit false

namespace Spira.Bead

/-! ## Rows -/

/-- The certified tip of each prerequisite a dependent's current work was built on, keyed by the
prerequisite's id. -/
abbrev Stack := Std.ExtTreeMap String String

inductive BeadState
  /-- A container (an epic): never claimable. -/
  | «open»
  | ready
  | working
  | submitted
  | certified
  | inDelivery
  | rework
  | landed
  | superseded
  | dropped
  | done
  deriving DecidableEq, Repr

/-- Terminal states have no outgoing transitions, for every actor. -/
def BeadState.isTerminal : BeadState → Bool
  | landed | superseded | dropped | done => true
  | _ => false

def BeadState.asStr : BeadState → String
  | «open» => "OPEN"
  | ready => "READY"
  | working => "WORKING"
  | submitted => "SUBMITTED"
  | certified => "CERTIFIED"
  | inDelivery => "IN_DELIVERY"
  | rework => "REWORK"
  | landed => "LANDED"
  | superseded => "SUPERSEDED"
  | dropped => "DROPPED"
  | done => "DONE"

/-- Where a WORKING bead's dwarf is in its own run. -/
inductive DwarfPhase
  | claimed
  | building
  | session
  | teardown
  deriving DecidableEq, Repr

/-- The place of a phase in the order of a run. -/
def DwarfPhase.rank : DwarfPhase → Nat
  | claimed => 0
  | building => 1
  | session => 2
  | teardown => 3

def DwarfPhase.asStr : DwarfPhase → String
  | claimed => "claimed"
  | building => "building"
  | session => "session"
  | teardown => "teardown"

/-- How a session was cut short. -/
inductive DispositionStatus
  | lapsed
  | thrash
  | slain
  deriving DecidableEq, Repr

/-- The teardown's precedence: a weaker word never overwrites a stronger one. -/
def DispositionStatus.rank : DispositionStatus → Nat
  | lapsed => 0
  | thrash => 1
  | slain => 2

/-- Holds are orthogonal to state. -/
inductive HoldKind
  | poison
  | ask
  | wait
  | manual
  deriving DecidableEq, Repr

structure BeadRow where
  beadId : String
  state : BeadState
  tip : Option String
  gateKey : Option String
  holder : Option String
  /-- The claiming persona, recorded at `claim`. -/
  persona : Option String
  leaseUntil : Option Int
  holds : Finset HoldKind
  reason : Option String
  version : Version
  /-- The prerequisite tips this bead's current work was built on, recorded at `claim`. -/
  stack : Stack
  stackDepth : Nat
  /-- The event time of the last change of state. -/
  since : Option Int
  express : Bool
  /-- The holder's place in its run; set only while WORKING. -/
  phase : Option DwarfPhase
  /-- How the session was cut short; set only while WORKING. -/
  disposition : Option DispositionStatus
  dispositionNote : Option String
  /-- The tip a round last ejected as red for this bead; `submit` refuses it. -/
  ejectedRedTip : Option String
  /-- The tip the pre-round screen last passed. -/
  siftedTip : Option String
  /-- The state the current claim was taken from; set only while WORKING. -/
  claimedFrom : Option BeadState
  deriving DecidableEq

/-- The row a bead starts in when it is filed. -/
def BeadRow.filed (beadId : String) : BeadRow where
  beadId := beadId
  state := .ready
  tip := none
  gateKey := none
  holder := none
  persona := none
  leaseUntil := none
  holds := ∅
  reason := none
  version := 0
  stack := ∅
  stackDepth := 0
  since := none
  express := false
  phase := none
  disposition := none
  dispositionNote := none
  ejectedRedTip := none
  siftedTip := none
  claimedFrom := none

/-- Recorded in `reason` when a SUBMITTED bead enters delivery, so a requeue returns it to SUBMITTED
and never promotes it to CERTIFIED. -/
def fromSubmitted : String := "delivered-from-submitted"

/-- Prefix of the reason an IN_DELIVERY row carries once a red gate verdict at its tip arrived. -/
def gateRedMark : String := "gate-red: "

/-- The classifier's no-evidence default for a closed bead; the one terminal reason a `reclassify`
may overwrite. -/
def residueRule : String := "residue-closed-no-landing-evidence"

/-- The only actor whose `done` may move a DROPPED row to DONE. -/
def deliveredCorrectionActor : String := "delivered-correction"

/-! ## Events -/

/-- The provenance a past-the-gate move carries: why the normal path was bypassed, and the checks
that ran on `evidenceTip`, which must be the tip admitted. -/
structure BreakGlass where
  reason : String
  evidence : String
  evidenceTip : String
  deriving DecidableEq, Repr

/-- The first missing or contradicted field of a move admitting `tip` as `actor`, by name. -/
def BreakGlass.gap (b : BreakGlass) (actor tip : String) : Option String :=
  if Text.trim actor = "" then some "actor (--by)"
  else if Text.trim b.reason = "" then some "reason (--reason)"
  else if Text.trim b.evidence = "" then
    some "evidence (--evidence: the checks run on the tip, command and result)"
  else if b.evidenceTip ≠ tip then
    some ("evidence tip (--evidence-tip must equal the tip " ++ tip ++ ", got " ++
      Text.quoted b.evidenceTip ++ ")")
  else none

def BreakGlass.stamp (b : BreakGlass) (actor tip : String) : String :=
  "break_glass=true actor=" ++ actor ++ " tip=" ++ tip ++ " reason=" ++ Text.trim b.reason ++
    " evidence=" ++ Text.trim b.evidence

inductive BeadEventKind
  /-- The stack is the caller's already-computed proposal, and `stackMaxDepth` its own config read. -/
  | claim (holder : String) (leaseUntil : Int) (stack : Stack) (stackDepth stackMaxDepth : Nat)
      (persona : Option String)
  | release
  | holderDead
  | submit (tip : String)
  | done (delivers : String)
  | gatePass (tip gateKey : String)
  | gateRed (tip : String) (reason : GateRedReason)
  | gateInfra (tip : String)
  | deliver
  | delivered (mergeSha proof : String)
  | returned (reason : ReturnedReason)
  | requeued (tip : String)
  | contentOnBase (proof : String)
  | supersede (successor : String)
  | drop (reason : DropReason)
  | hold (kind : HoldKind) (cause : HoldCause) (detail : Option String)
  | unhold (kind : HoldKind) (breakGlass : BreakGlass)
  /-- A prerequisite named in `stack` moved backwards. -/
  | baseWithdrawn (prereq tip : String)
  /-- A prerequisite named in `stack` reached LANDED. -/
  | prereqLanded (prereq : String)
  /-- The operator's answer to an `ask`, carrying the reply's message id. -/
  | reply (messageId : String)
  | askWithdrawn
  /-- The classifier's own correction of a row it wrote from a rule that has since changed. -/
  | reclassify (state : BeadState) (rule : String)
  /-- The holder's own lease renewal. -/
  | renew (leaseUntil : Int)
  | phase (phase : DwarfPhase)
  | disposition (status : DispositionStatus) (note : String)
  | express
  | unexpress
  /-- The pre-round screen passed `tip`. -/
  | sifted (tip : String)
  /-- A SUBMITTED or CERTIFIED row is re-cut onto a prerequisite's tip. -/
  | restack (tip : String) (stack : Stack) (stackDepth : Nat)
  /-- A bead is re-tipped and put back to SUBMITTED with no gate verdict: a break-glass move. -/
  | resubmit (tip : String) (breakGlass : BreakGlass)
  /-- Withdraw a red recorded against `tip` that was not the tree's fault: a break-glass move. -/
  | absolve (tip : String) (breakGlass : BreakGlass)
  | promote
  deriving DecidableEq

structure BeadEvent where
  expect : BeadState
  version : Version
  kind : BeadEventKind
  actor : String
  /-- The caller's clock, recorded as `since` on every change of state. -/
  at_ : Option Int
  deriving DecidableEq

/-- The event a dwarf sends that has read a row in this state and of this version. -/
def BeadEvent.given (state : BeadState) (version : Version) (kind : BeadEventKind) : BeadEvent :=
  ⟨state, version, kind, "dwarf", none⟩

/-- The outcome of one event on one bead row. -/
abbrev BeadOutcome := Outcome BeadEventKind BeadRow

/-! ## Refusals -/

def illegal (row : BeadRow) (kind : BeadEventKind) : BeadOutcome :=
  .refuse row (.illegalTransition row.state.asStr kind)

def illegalInPhase (row : BeadRow) (kind : BeadEventKind) : BeadOutcome :=
  let state := match row.phase with
    | some p => row.state.asStr ++ "/" ++ p.asStr
    | none => row.state.asStr
  .refuse row (.illegalTransition state kind)

def awaitingReply (row : BeadRow) (kind : BeadEventKind) : BeadOutcome :=
  .refuse row (.awaitingReply kind ("record the operator's answer with a reply event carrying " ++
    "its message id (mail reply), then close"))

/-- Whether the text is a bead's id, and nothing else. -/
def isBeadId (x : String) : Bool :=
  match x.toList with
  | a :: b :: c :: rest =>
    a.toLower = 's' && b.toLower = 'p' && c = '-' && !rest.isEmpty &&
      rest.all fun c ↦ c.isAlphanum || c = '.'
  | _ => false

def isSnoozeReason (reason : String) : Bool := Text.startsWith reason "snooze-until:"

/-- What a manual hold's reason may not be: empty, a bead's id, or a timed snooze. -/
def manualReasonRefusal (detail : Option String) : Option (Refusal BeadEventKind) :=
  let reason := Text.trim (detail.getD "")
  if reason = "" then
    some (.manualHoldReason reason "a manual hold needs a reason: say who lifts it and how")
  else if isBeadId reason then
    some (.manualHoldReason reason ("a hold whose whole reason is a bead waits on that bead: " ++
      "add the edge with `bead.sh dep add <id> <blocker>` and the graph releases it when " ++
      "the blocker lands"))
  else if isSnoozeReason reason then
    some (.manualHoldReason reason ("a timed snooze is a wait hold: " ++
      "`spira-lc hold <id> wait snooze-until:<epoch>`"))
  else none

def terminal (row : BeadRow) : BeadOutcome := .refuse row (.terminal row.state.asStr)

def tipMismatch (row : BeadRow) (eventTip : String) : BeadOutcome :=
  .refuse row (.tipMismatch eventTip (row.tip.getD ""))

def depthExceeded (row : BeadRow) (depth max : Nat) : BeadOutcome :=
  .refuse row (.depthExceeded depth max)

def notInStack (row : BeadRow) (prereq tip : String) : BeadOutcome :=
  .refuse row (.notInStack prereq tip)

/-! ## Predicates the arms share -/

/-- A `baseWithdrawn` is evidence about this row only when `stack` still names exactly that tip for
that prerequisite. -/
def baseWithdrawnApplies (row : BeadRow) (prereq tip : String) : Bool :=
  row.stack[prereq]? = some tip

/-- A red verdict on the tree itself bars that tip from resubmission; a rebase conflict or a killed
run says nothing about the tree. -/
def gateRedBarsTip (reason : GateRedReason) : Bool :=
  !(reason = .noRebase || reason = .timeout)

/-- The ejections that are a verdict on the member's own tip. -/
def returnedBarsTip (reason : ReturnedReason) : Bool :=
  reason = .batchEjectedRed || reason = .prChangesRequested

def isFullSha (tip : String) : Bool :=
  tip.toList.length = 40 && tip.toList.all fun c ↦ c.isDigit || ('a' ≤ c && c ≤ 'f')

/-- A REWORK claim on the stack the gate already went red on repeats the red. -/
def reworkClaimStackUnchanged (recorded : Stack) (reason : Option String) (proposed : Stack) :
    Bool :=
  !proposed.isEmpty && decide (proposed = recorded) &&
    reason.any fun r ↦ (GateRedReason.fromStr r).isSome

/-- The tip a `submit`, a `resubmit` or a `restack` names: the ones whose form is checked. -/
def BeadEventKind.submittedTip : BeadEventKind → Option String
  | .submit tip | .resubmit tip _ | .restack tip _ _ => some tip
  | _ => none

end Spira.Bead
