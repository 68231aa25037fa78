import Spira.Control.Rounds

/-!
# The verbs on one bead

Each applied transition is one transaction that compares the record's `modRev` and puts the
record's gate beside it whenever the transition moves it.  A claim takes the
`locks/lifecycle/<id>` lock in the transaction that writes the record, and every write of the
holder is fenced on that lock.

A verb is what it commits, given what it read: the transactions of a verb that commits several,
one after another, are acts of their own.
-/

set_option autoImplicit false

namespace Spira.Control

open Spira.Bead Store

/-! ## Transactions of a record -/

def beadAudit (id : String) (ev : BeadEvent) (from_ to_ : BeadState)
    (refusal : Option (Refusal BeadEventKind)) : Audit :=
  machineAudit "bead" id (if refusal.isNone then from_.asStr else ev.expect.asStr) from_.asStr to_.asStr
    (refusal.map refusalName) (.bead ev.kind) ev.actor (ev.at_.getD 0)

/-- The loss of a transition whose compares do not hold: a stale read. -/
def lostAudit (id : String) (ev : BeadEvent) (from_ : BeadState) : Audit :=
  { beadAudit id ev from_ from_ none with
    expect := ev.expect.asStr, applied := false, refusal := some "StaleVersion" }

def bornSubmitAudit (id tip : String) (at_ : Int) (actor : String) : Audit :=
  machineAudit "bead" id BeadState.ready.asStr BeadState.ready.asStr BeadState.submitted.asStr none
    (.bead (.submit tip)) actor at_

/-- An object with the metadata of the one that was read. -/
def objectLike (prev : Item Value) (v : Value) : Object Value := { prev.value with data := .payload v }

def gateObject (id : String) (g : Gate) : Object Value :=
  { metadata := { ownerReferences := [Keys.lifecycle id] }, data := .payload (.gate g) }

/-- The compare that holds when the gate of `id` still reads `g`. -/
def gateCompare (id : String) (g : Option Gate) : Compare Value :=
  .value (Keys.gate id) (g.map (gateObject id))

section Reads

variable (view : View)

/-- `t` with the gate of `id` put when the transition from `prev` to `next` moves it, or when the
record has none yet. -/
def gated (t : TxnOps Value) (id : String) (prev : Option LifecycleRecord) (next : LifecycleRecord) :
    TxnOps Value :=
  let gate := next.gate
  let unmoved := prev.map (·.gate) = some gate
  if unmoved ∧ (view (Keys.gate id)).isSome then t
  else { t with ops := t.ops ++ [.put (Keys.gate id) (gateObject id gate)] }

/-- The record of `id` with the item it was read from. -/
def recordRead (id : String) : Option (LifecycleRecord × Item Value) :=
  (view (Keys.lifecycle id)).bind fun item ↦ (decode item.value).map (·, item)

def nextOf (ev : BeadEvent) (cur : LifecycleRecord) (row : BeadRow) : LifecycleRecord :=
  { cur with row := row, updatedAt := ev.at_.getD cur.updatedAt }

/-- A request of a part of the verb's, with no evidence. -/
def partRequest (req : Request Value) (part : String) : Request Value :=
  { req with id := req.id ++ "/" ++ part, evidence := none }

def refuseCall (id : String) (ev : BeadEvent) (cur : LifecycleRecord)
    (refusal : Option (Refusal BeadEventKind)) (req : Request Value) (plannedAt : ℕ) : Call Value :=
  let refusal := refusal.getD (.illegalTransition cur.row.state.asStr ev.kind)
  auditedTxn {} [beadAudit id ev cur.row.state cur.row.state (some refusal)] [] req "refuse" plannedAt

/-- A record as it is born, with its gate. -/
def birthCall (id : String) (born : LifecycleRecord) (submittedTip : Option String)
    (req : Request Value) (plannedAt : ℕ) : Call Value :=
  let audits := submittedTip.toList.map fun tip ↦ bornSubmitAudit id tip born.updatedAt req.actor
  let value : Object Value :=
    { metadata := { finalizers := [Keys.planningClosed] }, data := .payload (.lifecycle born) }
  let t : TxnOps Value :=
    { compares := [.modRev (Keys.lifecycle id) none], ops := [.put (Keys.lifecycle id) value] }
  auditedTxn (gated view t id none born) audits [] req "create" plannedAt

/-- Whether a record is the one `other` was born as, whenever each was stamped. -/
def LifecycleRecord.sameBirth (r other : LifecycleRecord) : Bool :=
  let unstamped (r : LifecycleRecord) : LifecycleRecord :=
    { r with row := { r.row with since := none }, updatedAt := 0 }
  unstamped r = unstamped other

/-- An untouched READY or OPEN birth promoted to SUBMITTED at the tip its creation names. -/
def promoteBornCall (born cur : LifecycleRecord) (item : Item Value) (req : Request Value)
    (plannedAt : ℕ) : Call Value :=
  let id := born.row.beadId
  let t : TxnOps Value :=
    { compares := [.modRev (Keys.lifecycle id) (some item.modRev)]
      ops := [.put (Keys.lifecycle id) (objectLike item (.lifecycle born))] }
  auditedTxn (gated view t id (some cur) born)
    [bornSubmitAudit id (born.row.tip.getD "") born.updatedAt req.actor] [] req "promote" plannedAt

/-- What a creation commits: a birth where there is no record, the promotion of an untouched one
where it names a tip, and otherwise nothing. -/
def createCall (id : String) (born : LifecycleRecord) (submittedTip : Option String)
    (req : Request Value) (plannedAt : ℕ) : Option (Call Value) :=
  match view (Keys.lifecycle id) with
  | none => some (birthCall view id born submittedTip req plannedAt)
  | some item =>
    match (decode item.value : Option LifecycleRecord) with
    | none => none
    | some cur =>
      let untouched := [LifecycleRecord.born id born.repo none born.updatedAt,
        LifecycleRecord.bornOpen id born.repo born.updatedAt]
      if item.value.metadata.deletionTimestamp.isNone ∧ !cur.sameBirth born ∧ submittedTip.isSome ∧
          untouched.any cur.sameBirth then
        some (promoteBornCall view born cur item req plannedAt)
      else none

/-- The record written as `row`, under the compares of its read and, where the write is the
holder's, of its lock. -/
def writeCall (id : String) (ev : BeadEvent) (cur : LifecycleRecord) (item : Item Value)
    (row : BeadRow) (fence : Option Fence) (req : Request Value) (plannedAt : ℕ) : Call Value :=
  let next := nextOf ev cur row
  let t : TxnOps Value :=
    { compares := .modRev (Keys.lifecycle id) (some item.modRev) ::
        fence.toList.map fun f ↦ .lockCheck f.key f.token
      ops := [.put (Keys.lifecycle id) (objectLike item (.lifecycle next))] }
  auditedTxn (gated view t id (some cur) next) [beadAudit id ev cur.row.state next.row.state none]
    [lostAudit id ev cur.row.state] req "apply" plannedAt

/-- What a transition commits: the write, or the refusal. -/
def transition (id : String) (ev : BeadEvent) (fence : Option Fence) (req : Request Value)
    (plannedAt : ℕ) : Option (Call Value) :=
  (recordRead view id).map fun (cur, item) ↦
    let out := Bead.apply cur.row ev
    if !out.applied then refuseCall id ev cur out.refusal req plannedAt
    else writeCall view id ev cur item out.row fence req plannedAt

/-- The fence of the claim's lock as it was read, whatever its TTL. -/
def heldFence (id : String) : Option Fence :=
  (view (Keys.claimLock id)).map fun l ↦ ⟨Keys.claimResource id, l.createRev⟩

/-! ## Claims -/

/-- The TTL of a claim's lock for a lease running to `leaseUntil` from `at_`, raised to the floor.
-/
def leaseTtlMs (floor : ℕ) (leaseUntil at_ : Int) : ℕ :=
  max (min ((leaseUntil - at_).toNat * 1000) (2 ^ 64 - 1)) floor

/-- The blockers a claim compares, each with the gate it must still read: every one its readiness
was judged against, and each prerequisite its stack builds on, at the tip stacked. -/
def claimEdges (judged : Option Readiness) (stack : Stack) : List (String × Option Gate) :=
  let edges := (judged.map fun r ↦ r.gates.toList).getD []
  stack.toList.foldl (fun edges p ↦
    let g := gate .certified (some p.2)
    if edges.any fun e ↦ e.1 = p.1 ∧ e.2 = some g then edges else edges ++ [(p.1, some g)]) edges

/-- What a claim commits: the record with its lock, or the machine's refusal.  A record judged not
claimable is not claimed. -/
def claimCall (floor : ℕ) (id : String) (ev : BeadEvent) (req : Request Value) (plannedAt : ℕ) :
    Option (Call Value) :=
  match ev.kind, ev.at_ with
  | .claim _ leaseUntil _ _ _ _, some at_ =>
    (recordRead view id).bind fun (cur, item) ↦
      let out := Bead.apply cur.row ev
      if !out.applied then some (refuseCall id ev cur out.refusal req plannedAt)
      else
        match (view (Keys.readiness id)).map fun i ↦ (decode i.value : Option Readiness) with
        | some none => none
        | judged =>
          let judged := judged.join
          if judged.any fun j ↦ j.judgedForClaim && !j.claimable then none
          else
            let next := nextOf ev cur out.row
            let t : TxnOps Value :=
              { compares := .modRev (Keys.lifecycle id) (some item.modRev) ::
                  (claimEdges judged next.row.stack).map fun e ↦ gateCompare e.1 e.2
                ops := [.lockAcquire (Keys.claimLock id) (leaseTtlMs floor leaseUntil at_),
                  .put (Keys.lifecycle id) (objectLike item (.lifecycle next))] }
            some (auditedTxn (gated view t id (some cur) next)
              [beadAudit id ev cur.row.state next.row.state none] [lostAudit id ev cur.row.state] req
              "apply" plannedAt)
  | _, _ => none

/-- A claim under a request that has been applied: answered from the request's record. -/
def claimAgainCall (floor : ℕ) (id : String) (leaseUntil at_ : Int) (req : Request Value) :
    Call Value :=
  .txn { ops := [.lockAcquire (Keys.claimLock id) (leaseTtlMs floor leaseUntil at_)] }
    (partRequest req "apply")

/-! ## Events -/

/-- What an event on a record commits.  A claim takes its lock, a renewal is fenced on the live
lock as it was found, and with none live only the machine's refusal is written; every other event
is unfenced. -/
def eventCall (floor : ℕ) (live : Option Fence) (id : String) (ev : BeadEvent) (req : Request Value)
    (plannedAt : ℕ) : Option (Call Value) :=
  match ev.kind, live with
  | .claim _ _ _ _ _ _, _ => claimCall view floor id ev req plannedAt
  | .renew _, some fence => transition view id ev (some fence) req plannedAt
  | .renew _, none => (recordRead view id).bind fun (cur, _) ↦
      let out := Bead.apply cur.row ev
      if !out.applied then some (refuseCall id ev cur out.refusal req plannedAt) else none
  | _, _ => transition view id ev none req plannedAt

/-- The lock of a renewal, restarted under the new lease's TTL before the event is written. -/
def renewLockCall (floor : ℕ) (fence : Fence) (leaseUntil at_ : Int) (req : Request Value) :
    Call Value :=
  .renewFor fence (leaseTtlMs floor leaseUntil at_) (partRequest req "renew")

/-! ## Writes no event carries -/

/-- The planning plane has closed the bead: its record no longer waits on it. -/
def planningClosedCall (id : String) (attempt : ℕ) (req : Request Value) : Option (Call Value) :=
  (view (Keys.lifecycle id)).bind fun item ↦
    let finalizers := item.value.metadata.finalizers.filter (· ≠ Keys.planningClosed)
    if finalizers.length = item.value.metadata.finalizers.length then none
    else some (.txn
      { compares := [.modRev (Keys.lifecycle id) (some item.modRev)]
        ops := [.put (Keys.lifecycle id)
          { item.value with metadata := { item.value.metadata with finalizers := finalizers } }] }
      (partRequest req ("planning-closed/" ++ toString attempt)))

/-- The record's repo set or cleared, unless it is WORKING or `onlyIf` names another. -/
def setRepoCall (id : String) (repo onlyIf : Option String) (attempt : ℕ) (req : Request Value) :
    Option (Call Value) :=
  (recordRead view id).bind fun (rec, item) ↦
    if onlyIf.any (rec.repo ≠ some ·) then none
    else if rec.row.state = .working then none
    else some (.txn
      { compares := [.modRev (Keys.lifecycle id) (some item.modRev)]
        ops := [.put (Keys.lifecycle id) (objectLike item (.lifecycle { rec with repo := repo }))] }
      (partRequest req ("set-repo/" ++ toString attempt)))

/-- How a dependency changes the prerequisites a record waits on. -/
inductive Edge
  | blocks
  | unblocks
  deriving DecidableEq, Repr

/-- `dep` added to, or taken from, the prerequisites the readiness of `id` names as blocking it. -/
def setEdgeCall (id dep : String) (edge : Edge) (attempt : ℕ) (req : Request Value) :
    Option (Call Value) :=
  let owner := Keys.lifecycle id
  let key := Keys.readiness id
  if (view owner).isNone then none
  else
    let prior := view key
    match prior.map fun i ↦ (decode i.value : Option Readiness) with
    | some none => none
    | found =>
      let r : Readiness := found.join.getD {}
      let metadata := (prior.map (·.value.metadata)).getD { ownerReferences := [owner] }
      let kept := r.blockedBy.filter (· ≠ dep)
      let blockedBy :=
        match edge with
        | .blocks => (kept ++ [dep]).insertionSort (· ≤ ·)
        | .unblocks => kept
      if blockedBy = r.blockedBy ∧ prior.isSome then none
      else some (.txn
        { compares := [.modRev key (prior.map (·.modRev))]
          ops := [.put key ⟨metadata, .payload (.readiness { r with blockedBy := blockedBy })⟩] }
        (partRequest req ("edge/" ++ toString attempt)))

end Reads

end Spira.Control
