import Spira.Control.Cascade
import Spira.Lifecycle.Bead.Machine

/-!
# The cascades of a round

The batch and delivery machines on the control store.  A round is one record with its members inside
it, and a member's delivery a record of its own; cut, stage, stack and promote bring members into a
round, and settle, abandon, eject and land take them out.  Each verb plans one cascade.

What a verb reads beside its cascade is in `Reads`: the round as it looks it up before the cascade
reads it, what the history of a bead has, and which branches contain which, for which git is asked.
-/

set_option autoImplicit false

namespace Spira.Control

open Spira.Bead Spira.Batch Spira.Delivery Store

/-- What a verb reads. -/
structure Reads where
  /-- What the cascade reads of each key. -/
  view : View
  /-- What is read of each key before the cascade reads it. -/
  before : View
  /-- The audits of the bead's machine in the bead's history, oldest first. -/
  history : String → List Audit
  /-- The pairs of members of a round of which the first's branch contains the second's. -/
  branchContainment : BatchRow → List (String × String) → List (String × String)

/-- A machine event's audit. -/
def machineAudit (machine key expect from_ to_ : String) (refusal : Option String)
    (event : AuditEvent) (actor : String) (at_ : Int) : Audit where
  machine := machine
  lcKey := key
  event := event
  expect := expect
  fromState := from_
  toState := to_
  applied := refusal.isNone
  refusal := refusal
  stackedOn := none
  actor := actor
  at_ := at_

/-- A delivery (re)queued inside the cut that takes it. -/
def enqueued (id from_ actor : String) (at_ : Int) : Audit :=
  machineAudit "delivery" id from_ from_ DeliveryState.queued.asStr none .enqueued actor at_

/-- The name of a refusal, as an audit has it. -/
def refusalName {κ : Type} : Refusal κ → String
  | .expectMismatch _ _ => "ExpectMismatch"
  | .staleVersion _ _ => "StaleVersion"
  | .illegalTransition _ _ => "IllegalTransition"
  | .lateBoundary _ _ _ => "LateBoundary"
  | .tipMismatch _ _ => "TipMismatch"
  | .terminal _ => "Terminal"
  | .depthExceeded _ _ => "DepthExceeded"
  | .notInStack _ _ => "NotInStack"
  | .stackStale _ => "StackStale"
  | .awaitingReply _ _ => "AwaitingReply"
  | .notHolder _ _ => "NotHolder"
  | .manualHoldReason _ _ => "ManualHoldReason"
  | .ejectedRedTip _ => "EjectedRedTip"
  | .malformedTip _ => "MalformedTip"
  | .stackUnchanged _ => "StackUnchanged"
  | .notManuallyHeld => "NotManuallyHeld"
  | .breakGlassIncomplete _ => "BreakGlassIncomplete"
  | .deadlinePassed _ _ => "DeadlinePassed"

/-- A cut's or a stack's members, each at its tip, and the round they go into. -/
structure Cut where
  batchId : String
  repo : String
  head : String
  base : String
  parent : Option String
  members : List (String × String)
  actor : String
  at_ : Int
  deriving DecidableEq, Repr

/-- The most members one round may hold: `4 * n + 5` ops and `3 * n + 2` compares are within the
limits. -/
def maxCutMembers : ℕ := 30

/-- Every cascade of a round writes up to four keys a member, so a larger round could not be settled
or abandoned. -/
def overCap (verb : String) (members : ℕ) : Plan Unit :=
  if members > maxCutMembers then
    refused ("refused: " ++ verb ++ ": a round holds at most " ++ toString maxCutMembers ++
      " members, and this one would hold " ++ toString members)
  else return

/-- A delivery still in `batchId`: an ejected member keeps its place in the member list, but its
delivery has left the batch. -/
def stillInBatch (row : DeliveryRow) (batchId : String) : Bool :=
  row.state = .batched && row.batchId = some batchId

def nextRecord (cur : LifecycleRecord) (row : BeadRow) (at_ : Int) : LifecycleRecord :=
  { cur with row := row, updatedAt := at_ }

def pairs (members : List Member) : List (String × String) := members.map fun m ↦ (m.beadId, m.tip)

def membersOf (members : List (String × String)) : List Member := members.map fun m ↦ ⟨m.1, m.2⟩

/-- The event a cascade sends to a row as it finds it. -/
def beadEvent (row : BeadRow) (kind : BeadEventKind) (actor : String) (at_ : Int) : BeadEvent :=
  ⟨row.state, row.version, kind, actor, some at_⟩

def deliveryEvent (row : DeliveryRow) (kind : DeliveryEventKind) (actor : String) :
    DeliveryEvent :=
  ⟨row.state, row.version, kind, actor⟩

section Verbs

variable (r : Reads)

/-! ## Looking up a round -/

/-- The record of `T` that was read of `key` before the cascade. -/
def readBefore {T : Type} [Stored T] (key : String) : Plan (Option T) :=
  match r.before key with
  | none => return none
  | some i =>
    match decode i.value with
    | some t => return some t
    | none => fault (key ++ ": undecodable record")

/-- The round `id` and its key, whichever repo it was cut in, found through its id index. -/
def batch (id : String) : Plan (Option (String × BatchRecord)) := do
  match ← readBefore r (Keys.batchIndex id) with
  | none => return none
  | some (ix : BatchIndex) => do
    let key := Keys.batch ix.repo id
    return (← readBefore r key).map fun rec ↦ (key, rec)

/-- The round `id` read into the cascade, so that it compares it. -/
def round (id : String) : Plan (Option (String × BatchRecord)) := do
  match ← batch r id with
  | none => return none
  | some (key, _) => return (← Cascade.get r.view key).map fun rec ↦ (key, rec)

/-! ## Steps -/

/-- Plans `ev` on the round at `key`: the next record, or the audited refusal. -/
def batchStep (key : String) (stored : BatchRecord) (ev : BatchEvent) (at_ : Int) :
    Plan BatchRecord := do
  let cur : BatchRecord := (← Cascade.get r.view key).getD stored
  let out := Batch.apply cur.row ev
  let from_ := cur.row.state.asStr
  let audit (to_ : String) (refusal : Option String) : Audit :=
    machineAudit "batch" cur.row.batchId ev.expect.asStr from_ to_ refusal (.batch ev.kind) ev.actor at_
  if !out.applied then
    throw (.refuse (audit from_ (some ((out.refusal.map refusalName).getD "IllegalTransition"))))
  else do
    Cascade.step (audit out.row.state.asStr none)
    let next := { cur with row := out.row }
    Cascade.put r.view key next []
    return next

/-- Plans a bead-machine event inside a cascade: applied, it is a step; refused, it is left out.
The record's gate is written beside it whenever the step moves it. -/
def beadStep (id : String) (kind : BeadEventKind) (actor : String) (at_ : Int) :
    Plan (Except (Option (Refusal BeadEventKind)) Unit) := do
  let key := Keys.lifecycle id
  match ← Cascade.get r.view key with
  | none => return .error none
  | some (cur : LifecycleRecord) => do
    let out := Bead.apply cur.row (beadEvent cur.row kind actor at_)
    if !out.applied then return .error out.refusal
    else do
      let from_ := cur.row.state.asStr
      Cascade.step (machineAudit "bead" id from_ from_ out.row.state.asStr none (.bead kind) actor at_)
      let next := nextRecord cur out.row at_
      Cascade.put r.view key next []
      let gate := next.gate
      if (← Cascade.get r.view (Keys.gate id)) ≠ some gate then
        Cascade.put r.view (Keys.gate id) gate [key]
      return .ok ()

/-- Plans a delivery-machine event from wherever the row stands, as a cascade's step. -/
def deliveryStep (id : String) (row : DeliveryRow) (kind : DeliveryEventKind) (actor : String)
    (at_ : Int) : Plan (Option DeliveryRow) := do
  let out := Delivery.apply row (deliveryEvent row kind actor)
  if !out.applied then return none
  else do
    let from_ := row.state.asStr
    Cascade.step
      (machineAudit "delivery" id from_ from_ out.row.state.asStr none (.delivery kind) actor at_)
    Cascade.put r.view (Keys.delivery id) out.row [Keys.lifecycle id]
    return some out.row

/-! ## Admission -/

/-- Every member's record at its tip, in a state the verb admits. -/
def admitRecords (members : List (String × String)) (allowSubmitted : Bool) : Plan Unit :=
  members.zipIdx.forM fun p ↦ do
    let (id, tip) := p.1
    if (members.take p.2).any (·.1 = id) then
      cannotTell (id ++ " is named twice in --members")
    else
      match ← Cascade.get r.view (Keys.lifecycle id) with
      | none => refused ("refused: no bead row for " ++ id)
      | some (rec : LifecycleRecord) =>
        let row := rec.row
        let ok := row.state = .certified ∨ (allowSubmitted ∧ row.state = .submitted)
        if ¬ ok then
          refused ("refused: " ++ id ++ " is " ++ row.state.asStr ++ " not " ++
            if allowSubmitted then "SUBMITTED or CERTIFIED" else "CERTIFIED")
        else if row.tip ≠ some tip then
          refused ("refused: " ++ id ++ "'s certified tip does not match " ++ tip)
        else return

/-- A delivery still BATCHED elsewhere, or past cutting, refuses the whole verb. -/
def admitDelivery (id : String) (d : Option DeliveryRow) : Plan Unit :=
  match d with
  | none => return
  | some row =>
    match row.state with
    | .queued | .exited => return
    | .batched =>
      refused ("refused: " ++ id ++ " is still BATCHED in " ++ row.batchId.getD "another batch")
    | s => refused ("refused: " ++ id ++ "'s delivery is " ++ s.asStr ++ " and cannot be cut")

/-- Every member admitted at its tip, before anything is planned: a round takes SUBMITTED beads as
well as CERTIFIED ones, a stack only CERTIFIED ones. -/
def admitted (members : List (String × String)) (allowSubmitted : Bool) :
    Plan (List (Option DeliveryRow)) := do
  admitRecords r members allowSubmitted
  let deliveries ← members.foldlM (fun ds m ↦ do
    return ds ++ [← Cascade.get r.view (Keys.delivery m.1)]) []
  (members.zip deliveries).forM fun p ↦ admitDelivery p.1.1 p.2
  return deliveries

/-- One member's `MemberAdded` on the round, `Deliver` on its record, and its delivery (re)queued
and `Cut` into the round. -/
def planMember (actor : String) (at_ : Int) (verb : String) (round : BatchRow)
    (m : (String × String) × Option DeliveryRow) : Plan BatchRow := do
  let ((id, tip), delivery) := m
  let added : BatchEvent := ⟨round.state, round.version, .memberAdded id tip, actor⟩
  let out := Batch.apply round added
  if !out.applied then
    cannotTell (verb ++ ": MemberAdded refused unexpectedly for " ++ id ++ ": " ++
      (out.refusal.map refusalName).getD "None")
  else do
    let state := round.state.asStr
    Cascade.step (machineAudit "batch" round.batchId state state state none (.batch added.kind) actor at_)
    match ← beadStep r id .deliver actor at_ with
    | .error refusal =>
      cannotTell (verb ++ ": Deliver refused unexpectedly for " ++ id ++ ": " ++
        (refusal.map refusalName).getD "None")
    | .ok () => do
      let queued ←
        match delivery with
        | none => do
          Cascade.note (enqueued id "NONE" actor at_)
          pure (DeliveryRow.startQueue id)
        | some row =>
          if row.state = .exited then do
            Cascade.step (enqueued id row.state.asStr actor at_)
            pure { DeliveryRow.startQueue id with version := row.version + 1 }
          else pure row
      match ← deliveryStep r id queued (.cut out.row.batchId) actor at_ with
      | none => cannotTell (verb ++ ": Cut refused unexpectedly for " ++ id)
      | some _ => return out.row

/-- A delivery's step that has to be taken, and `row` after it. -/
def mustStep (id : String) (queued : DeliveryRow) (kind : DeliveryEventKind) (actor : String)
    (at_ : Int) (text : String) (row : BatchRow) : Plan BatchRow := do
  match ← deliveryStep r id queued kind actor at_ with
  | none => cannotTell text
  | some _ => return row

/-- Each member delivered into the round, folded onto `round` in order. -/
def planMembers (round : BatchRow) (members : List (String × String))
    (deliveries : List (Option DeliveryRow)) (actor : String) (at_ : Int) (verb : String) :
    Plan BatchRow :=
  (members.zip deliveries).foldlM (planMember r actor at_ verb) round

/-! ## Bringing members in -/

/-- The key of a round that is not there yet: its index and its key are read into the cascade, so
that its transaction compares both absent. -/
def newRound (repo id : String) : Plan (Option String) := do
  let key := Keys.batch repo id
  let indexed := (← (Cascade.get r.view (Keys.batchIndex id) : Plan (Option BatchIndex))).isSome
  let stored := (← (Cascade.get r.view key : Plan (Option BatchRecord))).isSome
  return if !indexed && !stored then some key else none

/-- Plans the round at `key` and, owned by it, its id index. -/
def putRound (key : String) (rec : BatchRecord) : Plan Unit := do
  Cascade.put r.view key rec []
  Cascade.put r.view (Keys.batchIndex rec.row.batchId) (BatchIndex.mk rec.row.repo) [key]

/-- `cut`: the round born OPEN with its members inside it, and each member delivered into it. -/
def planCut (cut : Cut) : Plan Unit := do
  overCap "cut" cut.members.length
  match ← newRound r cut.repo cut.batchId with
  | none => cannotTell ("cut: a batch row for " ++ cut.batchId ++ " already exists")
  | some key => do
    let deliveries ← admitted r cut.members true
    let born := { BatchRow.cut cut.batchId cut.repo cut.head cut.base with parent := cut.parent }
    let row ← planMembers r born cut.members deliveries cut.actor cut.at_ "cut"
    putRound r key ⟨row, membersOf cut.members, cut.at_, ∅⟩

/-- `stage`: a round born STAGED behind `cut.parent`, its members recorded at their tips and not yet
delivered. -/
def planStage (cut : Cut) : Plan Unit := do
  overCap "stage" cut.members.length
  match ← newRound r cut.repo cut.batchId with
  | none => cannotTell ("stage: a batch row for " ++ cut.batchId ++ " already exists")
  | some key => do
    admitRecords r cut.members true
    let row := BatchRow.staged cut.batchId cut.repo cut.head cut.base (cut.parent.getD "")
    putRound r key ⟨row, membersOf cut.members, cut.at_, ∅⟩

/-- `stack`: CERTIFIED members added to an OPEN round, each delivered into it as a cut delivers its
members. -/
def planStack (id : String) (members : List (String × String)) (actor : String) (at_ : Int) :
    Plan Unit := do
  match ← round r id with
  | none => cannotTell ("stack: no batch row for " ++ id)
  | some (key, rec) =>
    if rec.row.state ≠ .open then
      refused ("refused: " ++ id ++ " is " ++ rec.row.state.asStr ++ " not OPEN")
    else
      match members.find? fun m ↦ rec.members.any (·.beadId = m.1) with
      | some m => cannotTell ("stack: " ++ m.1 ++ " is already a member of " ++ id)
      | none => do
        overCap "stack" (rec.members.length + members.length)
        let deliveries ← admitted r members false
        let row ← planMembers r rec.row members deliveries actor at_ "stack"
        Cascade.put r.view key { rec with row := row, members := rec.members ++ membersOf members } []

/-- `promote`: STAGED to OPEN at `head` and `base`, and every staged member, still at its staged
tip, delivered into the round as a cut delivers it. -/
def planPromote (id head base actor : String) (at_ : Int) : Plan Unit := do
  match ← round r id with
  | none => cannotTell ("promote: no batch row for " ++ id)
  | some (key, rec) =>
    if rec.row.state ≠ .staged then
      refused ("refused: " ++ id ++ " is " ++ rec.row.state.asStr ++ " not STAGED")
    else do
      let members := pairs rec.members
      let deliveries ← admitted r members true
      let next ← batchStep r key rec ⟨.staged, rec.row.version, .promote head base, actor⟩ at_
      let row ← planMembers r next.row members deliveries actor at_ "promote"
      Cascade.put r.view key { next with row := row } []

/-! ## Taking members out -/

/-- A member leaving its delivery: the delivery's exit and the record's, each taken only where its
machine takes it. -/
def exit (id : String) (kind : DeliveryEventKind) (actor : String) (at_ : Int) : Plan Unit := do
  let beadKind ←
    match kind with
    | .returned reason => pure (BeadEventKind.returned reason)
    | .requeued tip => pure (.requeued tip)
    | _ => fault (id ++ ": not an exit a round's cascade takes")
  match ← Cascade.get r.view (Keys.delivery id) with
  | none => pure ()
  | some (d : DeliveryRow) =>
    let _ ← deliveryStep r id d kind actor at_
  let _ ← beadStep r id beadKind actor at_

/-- The rest of an exit, where it is `beadKind` to the bead. -/
def exitAs (id : String) (kind : DeliveryEventKind) (beadKind : BeadEventKind) (actor : String)
    (at_ : Int) : Plan Unit := do
  match ← Cascade.get r.view (Keys.delivery id) with
  | none => pure ()
  | some (d : DeliveryRow) =>
    let _ ← deliveryStep r id d kind actor at_
  let _ ← beadStep r id beadKind actor at_

/-- Where the last event of a list that `f` holds for is. -/
def lastIdx (f : AuditEvent → Bool) (applied : List AuditEvent) : Option ℕ :=
  applied.reverse.findIdx? f |>.map (applied.length - 1 - ·)

/-- Whether the record's last applied `Returned` follows its last `Deliver`. -/
def returnedSinceDelivery (history : List Audit) : Bool :=
  let applied := (history.filter (·.applied)).map (·.event)
  match lastIdx AuditEvent.isReturned applied, lastIdx AuditEvent.isDeliver applied with
  | some r, some d => d < r
  | some _, none => true
  | none, _ => false

/-- A released member's exit: an ejected one keeps its verdict, any other goes back to where it
entered delivery. -/
def releaseKind (id tip : String) : DeliveryEventKind :=
  if returnedSinceDelivery (r.history id) then .returned .batchEjectedRed else .requeued tip

scoped instance lawfulBEq_pair : LawfulBEq (String × String) := inferInstance

/-- What the walk has found: the ids it has seen, those it has still to follow, and the
dependents. -/
structure Walk where
  visited : List String
  frontier : List String
  dependents : List (String × String)
  deriving DecidableEq, Repr

/-- One member, held against the prerequisite that is followed: by declared stack or by branch
containment. -/
def Walk.visit (tips : String → Option String) (contained : List (String × String))
    (prereq : String) (w : Walk) (m : String × BeadRow) : Walk :=
  if m.1 ∈ w.visited then w
  else
    let declared := m.2.stack[prereq]?.any (tips prereq = some ·)
    if declared || (m.1, prereq) ∈ contained then
      ⟨w.visited ++ [m.1], w.frontier ++ [m.1], w.dependents ++ [(m.1, prereq)]⟩
    else w

/-- The frontier walk: the newest prerequisite is followed first. -/
def Walk.follow (memberStacks : List (String × BeadRow)) (tips : String → Option String)
    (contained : List (String × String)) : ℕ → Walk → Walk
  | 0, w => w
  | fuel + 1, w =>
    match w.frontier.getLast? with
    | none => w
    | some prereq => follow memberStacks tips contained fuel
        (memberStacks.foldl (Walk.visit tips contained prereq) { w with frontier := w.frontier.dropLast })

/-- The members stacked on any of `roots`, transitively, each with the one it was reached from;
every id is followed once, so there are no more turns than ids. -/
def stackedDependentsFrom (memberStacks : List (String × BeadRow)) (tips : String → Option String)
    (contained : List (String × String)) (roots : List String) : List (String × String) :=
  (Walk.follow memberStacks tips contained (memberStacks.length + roots.length) ⟨roots, roots, []⟩).dependents

/-- The tip a round lists a member at, the last one where it lists it twice. -/
def tipOf (members : List (String × String)) (id : String) : Option String :=
  (members.reverse.find? (·.1 = id)).map (·.2)

/-- The round's members stacked on any of `roots`; the roots themselves are never among them. -/
def stackedDependents (rec : BatchRecord) (roots : List String) : Plan (List (String × String)) := do
  let members := pairs rec.members
  let memberStacks ← members.foldlM (fun memberStacks m ↦ do
    match ← Cascade.get r.view (Keys.lifecycle m.1) with
    | none => return memberStacks
    | some (l : LifecycleRecord) => return memberStacks ++ [(m.1, l.row)]) []
  return stackedDependentsFrom memberStacks (tipOf members) (r.branchContainment rec.row members) roots

/-- Each dependent returned as collateral, its audits naming the member it followed out. -/
def withdraw (withdrawn : List (String × String)) (actor : String) (at_ : Int) : Plan Unit :=
  withdrawn.forM fun p ↦ do
    exit r p.1 (.returned .baseWithdrawn) actor at_
    Cascade.namePrerequisite p.1 p.2

/-- The ids of `eject` the round lists, each once: an id it never held has no delivery in it. -/
def namedMembers (rec : BatchRecord) (eject : List String) : List String :=
  eject.foldl (fun named e ↦
    if rec.members.any (·.beadId = e) && !named.contains e then named ++ [e] else named) []

/-- `settle`: `Settle` on the round; each member in `eject` returned red and each member stacked
on one returned as collateral; each other member in `requeue` requeued. -/
def planSettle (id : String) (ev : BatchEvent) (eject requeue : List String) (at_ : Int) :
    Plan Unit := do
  match ← round r id with
  | none => cannotTell ("settle: no batch row for " ++ id)
  | some (key, rec) => do
    let _ ← batchStep r key rec ev at_
    let eject := namedMembers rec eject
    let withdrawn := (← stackedDependents r rec eject).filter (!eject.contains ·.1)
    eject.forM fun e ↦ exit r e (.returned .batchEjectedRed) ev.actor at_
    withdraw r withdrawn ev.actor at_
    let carried (m : String) : Bool := eject.contains m || withdrawn.any (·.1 = m)
    (requeue.filter (!carried ·)).forM fun m ↦
      match rec.members.find? (·.beadId = m) with
      | none => pure ()
      | some member => exit r m (.requeued member.tip) ev.actor at_

/-- `abandon-batch`: `Abandon` on the round and every member released. -/
def planAbandon (id : String) (ev : BatchEvent) (at_ : Int) : Plan Unit := do
  match ← round r id with
  | none => cannotTell ("abandon-batch: no batch row for " ++ id)
  | some (key, rec) => do
    let _ ← batchStep r key rec ev at_
    rec.members.forM fun m ↦ exit r m.beadId (releaseKind r m.beadId m.tip) ev.actor at_

/-- `eject-member`: `Eject` on the round, the member requeued, and every member stacked on it
returned as collateral. -/
def planEject (id bead : String) (ev : BatchEvent) (at_ : Int) : Plan Unit := do
  match ← round r id with
  | none => cannotTell ("eject-member: no batch row for " ++ id)
  | some (key, rec) =>
    match rec.members.find? (·.beadId = bead) with
    | none => cannotTell ("eject-member: " ++ bead ++ " is not a member of " ++ id)
    | some member => do
      let _ ← batchStep r key rec ev at_
      let withdrawn ← stackedDependents r rec [bead]
      exit r bead (.requeued member.tip) ev.actor at_
      withdraw r withdrawn ev.actor at_

/-- A member that is still in the round: `Delivered` on its delivery and on its record. -/
def landMember (id sha actor : String) (at_ : Int) (m : Member) : Plan Unit := do
  match ← Cascade.get r.view (Keys.delivery m.beadId) with
  | none => pure ()
  | some (d : DeliveryRow) =>
    if !stillInBatch d id then pure ()
    else do
      let proof := "queue-fast-forward:" ++ m.tip
      let _ ← deliveryStep r m.beadId d (.delivered sha proof) actor at_
      let _ ← beadStep r m.beadId (.delivered sha proof) actor at_

/-- `land`: `FastForward` on the round, and every member still in it `Delivered` on its delivery
and its record. -/
def planLand (id : String) (ev : BatchEvent) (at_ : Int) : Plan Unit :=
  match ev.kind with
  | .fastForward sha => do
    match ← batch r id with
    | none => cannotTell ("land: no batch row for " ++ id)
    | some (key, rec) => do
      let _ ← batchStep r key rec ev at_
      rec.members.forM (landMember r id sha ev.actor at_)
  | _ => fault ("a landing of " ++ id ++ " is a FastForward")

/-- One batch-machine event.  A `Failed` opens its failure's mending row. -/
def planBatchEvent (id : String) (ev : BatchEvent) (at_ : Int) : Plan Unit := do
  match ← batch r id with
  | none => cannotTell ("event: no batch row for " ++ id)
  | some (key, rec) => do
    let _ ← batchStep r key rec ev at_
    match ev.kind with
    | .failed suite n =>
      Cascade.put r.view (Keys.mending (Mending.key id n suite)) (MendingRecord.failed id n suite at_) []
    | _ => pure ()

/-- One delivery-machine event. -/
def planDeliveryEvent (id : String) (ev : DeliveryEvent) (at_ : Int) : Plan Unit := do
  let key := Keys.delivery id
  match ← Cascade.get r.view key with
  | none => cannotTell ("event: no delivery row for " ++ id)
  | some (cur : DeliveryRow) =>
    let out := Delivery.apply cur ev
    let from_ := cur.state.asStr
    let audit (to_ : String) (refusal : Option String) : Audit :=
      machineAudit "delivery" id ev.expect.asStr from_ to_ refusal (.delivery ev.kind) ev.actor at_
    if !out.applied then
      throw (.refuse (audit from_ (some ((out.refusal.map refusalName).getD "IllegalTransition"))))
    else do
      Cascade.step (audit out.row.state.asStr none)
      Cascade.put r.view key out.row [Keys.lifecycle id]

end Verbs

end Spira.Control
