import Spira.Lifecycle.Batch.Machine
import Spira.Lifecycle.Bead.Row
import Spira.Lifecycle.Delivery
import Spira.Lifecycle.Mending

/-!
# The records of the control plane

The values stored under the control plane's keys.  A lifecycle record holds a machine's row and the
repository it is routed by; a round's record holds the batch machine's row and its members.

A machine event's audit carries the event itself where the source stores the event's name and its
encoding.
-/

set_option autoImplicit false

namespace Spira.Control

open Spira.Bead Spira.Batch Spira.Delivery Spira.Mending

structure LifecycleRecord where
  row : BeadRow
  /-- Fixed at create. -/
  repo : Option String
  /-- Epoch seconds of the last write, for display only. -/
  updatedAt : Int
  deriving DecidableEq

/-- A record as a create writes it: READY, or born SUBMITTED at `submittedTip`. -/
def LifecycleRecord.born (id : String) (repo submittedTip : Option String) (at_ : Int) :
    LifecycleRecord where
  row :=
    let row := { BeadRow.filed id with since := some at_ }
    match submittedTip with
    | some tip => { row with state := .submitted, tip := some tip, version := 1 }
    | none => row
  repo := repo
  updatedAt := at_

/-- A record whose filing has not finished: OPEN, so nothing claims it before its edges exist. -/
def LifecycleRecord.bornOpen (id : String) (repo : Option String) (at_ : Int) : LifecycleRecord :=
  let r := born id repo none at_
  { r with row := { r.row with state := .open } }

/-! ## Gates -/

/-- How a blocker stands toward the beads that wait on it. -/
inductive GateClass
  /-- READY with no tip. -/
  | idle
  | unfinished
  /-- Certified work a dependent of the same repo may stack on. -/
  | stackable
  | finished
  deriving DecidableEq, Repr

/-- The blocker-facing projection of a lifecycle record. -/
structure Gate where
  gateClass : GateClass
  tip : Option String
  deriving DecidableEq, Repr

scoped instance lawfulBEq_gate : LawfulBEq (Option Gate) := inferInstance

def gateClass (state : BeadState) (hasTip : Bool) : GateClass :=
  match state with
  | .ready => if !hasTip then .idle else .unfinished
  | .certified | .inDelivery => .stackable
  | s => if s.isTerminal then .finished else .unfinished

/-- The gate of a record in `state` at `tip`, which is kept only while it is stackable. -/
def gate (state : BeadState) (tip : Option String) : Gate :=
  let c := gateClass state tip.isSome
  ⟨c, if c = .stackable then tip else none⟩

/-- The projection a blocker's dependents compare. -/
def LifecycleRecord.gate (r : LifecycleRecord) : Gate := Control.gate r.row.state r.row.tip

/-! ## Readiness -/

/-- The dispatcher's reading of one record, under a key of its own, so that publishing it never
moves the record's revision. -/
structure Readiness where
  claimable : Bool := false
  blockedBy : List String := []
  verdict : Option String := none
  blocker : Option String := none
  runes : List String := []
  judgedAt : Option String := none
  judgedAtPlanningWatermark : Option String := none
  judgedAtRev : ℕ := 0
  /-- Every blocker the judgement read, with its gate as judged; `none` where it had no record.  A
  claim compares each. -/
  gates : Std.ExtTreeMap String (Option Gate) := ∅
  /-- A pass has judged the record for claims: `claimable` and `gates` are its answer. -/
  judgedForClaim : Bool := false
  /-- The record was escalated for staying OPEN with no open bead behind it. -/
  openEscalated : Bool := false
  deriving DecidableEq

/-! ## Rounds -/

/-- One member of a round, at the tip it was cut at. -/
structure Member where
  beadId : String
  tip : String
  deriving DecidableEq, Repr

/-- The queue's own fields of a round. -/
abbrev Fields := Std.ExtTreeMap String String

/-- A round: the batch machine's row with its members inside it. -/
structure BatchRecord where
  row : BatchRow
  members : List Member
  /-- Epoch seconds of the cut, for display only. -/
  openedAt : Int
  round : Fields
  deriving DecidableEq

/-- A failure's row, and when the round failed. -/
structure MendingRecord where
  row : MendingRow
  failedAt : Int
  deriving DecidableEq

def MendingRecord.failed (batchId : String) (pass : Nat) (suite : String) (at_ : Int) :
    MendingRecord :=
  ⟨.failed batchId pass suite, at_⟩

/-! ## Audits -/

/-- What an audit is of: an event of one of the machines, or a delivery (re)queued inside the cut
that takes it, which is no event of its machine. -/
inductive AuditEvent
  | bead (kind : BeadEventKind)
  | delivery (kind : DeliveryEventKind)
  | batch (kind : BatchEventKind)
  | enqueued
  deriving DecidableEq

/-- The event is a `Returned`, of either machine that has one. -/
def AuditEvent.isReturned : AuditEvent → Bool
  | bead (.returned _) | delivery (.returned _) => true
  | _ => false

/-- The event is a bead's `Deliver`. -/
def AuditEvent.isDeliver : AuditEvent → Bool
  | bead .deliver => true
  | _ => false

/-- One applied or refused machine event. -/
structure Audit where
  machine : String
  lcKey : String
  event : AuditEvent
  expect : String
  fromState : String
  toState : String
  applied : Bool
  refusal : Option String
  /-- The prerequisite a `Returned` followed out of its round. -/
  stackedOn : Option String
  actor : String
  at_ : Int
  deriving DecidableEq

/-- The newest applied event into each state. -/
abbrev Entered := Std.ExtTreeMap String Int

/-- One audit folded into `entered`, the later `at_` of a state kept. -/
def foldOne (id : String) (entered : Entered) (a : Audit) : Entered :=
  if a.machine ≠ "delivery" ∨ a.lcKey ≠ id ∨ !a.applied then entered
  else if entered[a.toState]?.all (· < a.at_) then entered.insert a.toState a.at_
  else entered

/-- `entered` with each applied delivery audit of `id` folded in. -/
def foldEntered (entered : Entered) (id : String) (audits : List Audit) : Entered :=
  audits.foldl (foldOne id) entered

/-! ## Values -/

/-- What is stored: one kind under each prefix, and the evidence of a request. -/
inductive Value
  | lifecycle (r : LifecycleRecord)
  | gate (g : Gate)
  | readiness (r : Readiness)
  /-- A delivery's `entered` rides beside its row; a record written before it has none. -/
  | delivery (row : DeliveryRow) (entered : Option Entered)
  | batch (r : BatchRecord)
  /-- The repo a round was cut in. -/
  | batchIndex (repo : String)
  | mending (r : MendingRecord)
  | history
  /-- The audits of either branch of a transaction. -/
  | audits (then_ els : List Audit)
  deriving DecidableEq

/-- The records a cascade reads and writes; a delivery is read back whatever rides beside it. -/
class Stored (T : Type) where
  encode : T → Value
  decode : Value → Option T
  decode_encode : ∀ t, decode (encode t) = some t
  decode_entered : ∀ row e e', decode (.delivery row e) = decode (.delivery row e')

instance : Stored LifecycleRecord where
  encode := .lifecycle
  decode | .lifecycle r => some r | _ => none
  decode_encode _ := rfl
  decode_entered _ _ _ := rfl

instance : Stored Gate where
  encode := .gate
  decode | .gate g => some g | _ => none
  decode_encode _ := rfl
  decode_entered _ _ _ := rfl

instance : Stored Readiness where
  encode := .readiness
  decode | .readiness r => some r | _ => none
  decode_encode _ := rfl
  decode_entered _ _ _ := rfl

instance : Stored DeliveryRow where
  encode row := .delivery row none
  decode | .delivery row _ => some row | _ => none
  decode_encode _ := rfl
  decode_entered _ _ _ := rfl

instance : Stored BatchRecord where
  encode := .batch
  decode | .batch r => some r | _ => none
  decode_encode _ := rfl
  decode_entered _ _ _ := rfl

instance : Stored MendingRecord where
  encode := .mending
  decode | .mending r => some r | _ => none
  decode_encode _ := rfl
  decode_entered _ _ _ := rfl

/-- Under a round's id: the repo it was cut in. -/
structure BatchIndex where
  repo : String
  deriving DecidableEq, Repr

instance : Stored BatchIndex where
  encode i := .batchIndex i.repo
  decode | .batchIndex repo => some ⟨repo⟩ | _ => none
  decode_encode _ := rfl
  decode_entered _ _ _ := rfl

end Spira.Control
