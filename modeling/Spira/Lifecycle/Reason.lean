/-!
# Typed reasons

The closed categories the bead machine's `returned`, `gate_red`, `hold` and `drop` events carry,
with the name each is recorded under.  A row's `reason` is free text, so what the machine later
reads out of it goes through these names: `GateRedReason.fromStr` is how a REWORK claim tells that
the last word on the row was a red gate verdict.
-/

set_option autoImplicit false

namespace Spira

/-- Why a delivery machine returned a bead to REWORK. -/
inductive ReturnedReason
  | prClosedUnmerged
  | prChangesRequested
  | pushRejected
  | batchEjected
  /-- As `batchEjected`, and the member's own tip is what a round judged red. -/
  | batchEjectedRed
  | baseWithdrawn
  deriving DecidableEq, Repr

def ReturnedReason.asStr : ReturnedReason → String
  | prClosedUnmerged => "pr-closed-unmerged"
  | prChangesRequested => "pr-changes-requested"
  | pushRejected => "push-rejected"
  | batchEjected => "batch-ejected"
  | batchEjectedRed => "batch-ejected-red"
  | baseWithdrawn => "base-withdrawn"

/-- Why the certifier's verdict was red. -/
inductive GateRedReason
  | suitesFailed
  | syntaxError
  | policyViolation
  | noRebase
  | timeout
  | confine
  | phantomBeadId
  deriving DecidableEq, Repr

def GateRedReason.asStr : GateRedReason → String
  | suitesFailed => "suites-failed"
  | syntaxError => "syntax"
  | policyViolation => "policy-violation"
  | noRebase => "no-rebase"
  | timeout => "timeout"
  | confine => "confine"
  | phantomBeadId => "phantom-bead-id"

def GateRedReason.fromStr (s : String) : Option GateRedReason :=
  match s with
  | "suites-failed" => some suitesFailed
  | "syntax" => some syntaxError
  | "policy-violation" => some policyViolation
  | "no-rebase" => some noRebase
  | "timeout" => some timeout
  | "confine" => some confine
  | "phantom-bead-id" => some phantomBeadId
  | _ => none

theorem GateRedReason.fromStr_asStr (r : GateRedReason) : fromStr r.asStr = some r := by
  cases r <;> rfl

/-- Why a bead was dropped. -/
inductive DropReason
  | closedNoBranch
  | unwanted
  deriving DecidableEq, Repr

def DropReason.asStr : DropReason → String
  | closedNoBranch => "closed-no-branch"
  | unwanted => "unwanted"

/-- Why a hold was placed. -/
inductive HoldCause
  | attemptsExhausted
  | operatorQuestion
  | unlandedBlocker
  | noProgressBackoff
  | supersedeRequest
  | manualHold
  deriving DecidableEq, Repr

def HoldCause.asStr : HoldCause → String
  | attemptsExhausted => "attempts-exhausted"
  | operatorQuestion => "operator-question"
  | unlandedBlocker => "unlanded-blocker"
  | noProgressBackoff => "no-progress-backoff"
  | supersedeRequest => "supersede-request"
  | manualHold => "manual-hold"

end Spira
