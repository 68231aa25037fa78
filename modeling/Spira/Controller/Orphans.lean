import Spira.Controller.Grounded
import Spira.Controller.Lander
import Spira.Controller.Slots

/-!
# Orphans and their re-drive

An orphan is a round that a runner drives and was leased once, with no live lease.  A re-drive
proves the old runner dead, takes a slot and a new lease, and launches under both; the schedule step
does the same for a round that was just cut, and a hand driver drives a round in a unit of its own.

The proof is one of the runner of the token that the orphan was listed with.  `acquire` compares the
round's revision, not that token.
-/

set_option autoImplicit false

namespace Spira.Controller

open Batch

/-! ## Units -/

/-- A word a unit's name may carry. -/
def validToken (s : String) : Bool :=
  s ≠ "" && !s.toList.head?.any (fun c ↦ c = '-' || c = '.') &&
    s.toList.all fun c ↦ c.isAlphanum || c = '-' || c = '_' || c = '.'

/-- A token as unit names carry it. -/
def tokenWord (token : ℕ) : String := s!"{token}-0"

/-- The runner of a round under a lease. -/
def unitName (batch : String) (token : ℕ) : Except String String :=
  match [("batch", batch), ("lease token", tokenWord token)].find? (!validToken ·.2) with
  | some (what, word) => .error s!"{what} {word.quote} cannot name a unit"
  | none => .ok s!"round-controller-run-{batch}-{tokenWord token}"

/-- The holder a hand driver records on the leases it takes. -/
def HAND_HOLDER : String := "round-recert"

/-- The unit a hand driver drives a round in under a lease. -/
def handUnitName (batch : String) (token : ℕ) : Except String String :=
  (unitName batch token).map fun _ ↦ s!"round-recert-{batch}-{tokenWord token}"

/-- Proof that the runner launched for a round under a token is dead. -/
def proveDead {ε : Type} (cfg : Settings) (batch : String) (token : ℕ) : Run ε Proof :=
  match unitName batch token with
  | .ok unit => proveRunnerDead cfg unit
  | .error why => return .unknown why

/-! ## Launches -/

/-- What `systemd-run` says of a launch. -/
inductive Said
  | started
  | refused (text : String)
  /-- It says nothing in time, though the unit starts. -/
  | unanswered (text : String)
  deriving DecidableEq

/-- What starting a runner came to. -/
inductive Launched
  | started (unit : String)
  /-- The unit was already running under this name, so it is this launch's runner. -/
  | running (unit : String)
  | failed (text : String)
  deriving DecidableEq

section Launches

variable {ε : Type} (said : World → Said)

/-- `systemd-run`, of a unit that drives the round: one that is up is not started again. -/
def systemdRun (batch : String) (token : ℕ) (r : Runner) : Run ε (Except String Unit) :=
  Verb.atom (fun _ ↦ true)
    (fun w ↦ if said w matches .refused _ || w.alive.any (·.unit = r.unit) then w
      else { w with alive := r :: w.alive, told := w.told ++ [.drives batch token r.unit] })
    fun w ↦ match said w with
      | .started => .ok (.ok ())
      | .refused text | .unanswered text => .ok (.error text)

/-- A refusal of `systemd-run` is a failure, unless the unit is running under the name anyway. -/
def startUnit (batch : String) (token : ℕ) (slot : SlotGrant) : Run ε Launched :=
  match unitName batch token with
  | .error text => return .failed text
  | .ok unit => do
    match ← systemdRun said batch token ⟨slot.slot, slot.token, unit⟩ with
    | .ok () => return .started unit
    | .error text =>
      match ← (access (fun _ ↦ true) silent fun w ↦ .ok (w.units unit) : Run ε UnitState) with
      | .running _ => return .running unit
      | _ => return .failed text

def LeaseError.text : LeaseError → String
  | .held _ _ => "Held"
  | .lost => "Lost"
  | .terminal => "Terminal"
  | .store why => s!"Store({why.quote})"

def SlotPool.word : SlotPool → String
  | .proxmox => "proxmox"
  | .ec2 => "ec2"

/-- Records the runner's unit under its slot before it is launched. -/
def recordUnit (slot : SlotGrant) (batch : String) (token : ℕ) : Run String SlotGrant :=
  match unitName batch token with
  | .error text => throw text
  | .ok unit => (slot.recordHolder unit none).mapError fun e ↦
      s!"slot {slot.slot.pool.word}/{slot.slot.n} did not record {unit}: {e.text}"

/-- The unit recorded and started; and the slot, as it was recorded. -/
def recordAndStart (batch : String) (token : ℕ) (slot : SlotGrant) :
    Run ε (SlotGrant × Launched) := do
  match ← Verb.tried (recordUnit slot batch token) with
  | .error text => return (slot, .failed text)
  | .ok slot => return (slot, ← startUnit said batch token slot)

end Launches

/-! ## The record of re-drives -/

def readAttempts (batch : String) : Run String (List Attempt × Option ℕ) := do
  match ← get (.redrive batch) with
  | none => return ([], none)
  | some item => return (item.value, some item.modRev)

/-- Failed attempts since the last launch that started. -/
def failuresOf (attempts : List Attempt) : ℕ :=
  (attempts.reverse.takeWhile (·.nextAttemptAtMs.isSome)).length

/-- Unfenced: a failed launch must be counted even where the lease it took has lapsed. -/
def appendAttempt (repo batch : String) (a : Attempt) : ℕ → Run String Unit
  | 0 => throw s!"{Key.text repo (.redrive batch)} moved under {tries} tries to record the attempt"
  | n + 1 => do
    let (attempts, rev) ← readAttempts batch
    let written ← txn silent
      ⟨[.modRev (.redrive batch) rev], [.put (.redrive batch) (attempts ++ [a])]⟩
    if written.isSome then return else appendAttempt repo batch a n

/-- A failed launch waits the lease's time, doubled for each failure before it. -/
def backoffMs (cfg : Settings) (failures : ℕ) : ℕ :=
  min (cfg.ttlMs * if failures - 1 < 64 then 2 ^ (failures - 1) else 2 ^ 64 - 1) (2 ^ 64 - 1)

/-! ## Orphans -/

/-- The states in which a runner drives a round: the Lander's, and those inside the land verb, are
not among them. -/
def runnerDrives (s : BatchState) : Bool :=
  !s.isTerminal && !s matches .green | .landing | .deploying

/-- A round whose runner was lost, and the token it was last leased under. -/
structure Orphan where
  batch : String
  expired : ℕ
  deriving DecidableEq

def orphansAmong : List (String × Records.Item Round) → Run String (List Orphan)
  | [] => return []
  | (batch, item) :: rest =>
    match item.value.lastLeaseToken.filter fun _ ↦ runnerDrives item.value.row.state with
    | none => orphansAmong rest
    | some expired => do
      if (← holderOf batch).isSome then orphansAmong rest
      else return ⟨batch, expired⟩ :: (← orphansAmong rest)

def orphans : Run String (List Orphan) := do orphansAmong (← listRounds)

inductive Redrive
  | launched (unit : String)
  | priorRunnerAlive (why : String)
  /-- No runner slot is free: nothing is leased, launched or recorded. -/
  | noSlot (no : NoSlot)
  | waiting (untilMs : ℕ)
  | failed (why : String) (nextAttemptAtMs : ℕ)
  | exhausted (failures : ℕ)
  /-- Another holder took the lease since the orphan was found. -/
  | leased (holder : Option String) (token : ℕ)
  /-- The round turned terminal since the orphan was found. -/
  | terminal
  | store (why : String)
  deriving DecidableEq

/-- What is told as a lease on a round is taken. -/
def leasing (batch : String) (round : Round) (w : World) : List Happened :=
  [.leased batch (w.store.head + 1) round.lastLeaseToken]

section Passes

variable {ε : Type} (cfg : Settings) (repo : String) (said : World → Said)

/-- A launch that failed is recorded, and gives its lease and slot back. -/
def giveBack (batch : String) (a : Attempt) (lease : Lease) (slot : SlotGrant) :
    Run ε (Except String Unit) := do
  let recorded ← Verb.tried (appendAttempt repo batch a tries)
  let _ ← Verb.tried lease.release
  let _ ← Verb.tried slot.release
  return recorded

/-- An orphan that is shown dead, on the slot that was taken for it. -/
def redriveOn (o : Orphan) (failures now : ℕ) (slot : SlotGrant) : Run ε Redrive := do
  match ← Verb.tried (acquireTelling (leasing o.batch) repo o.batch HOLDER tries) with
  | .error e =>
    let _ ← Verb.tried slot.release
    match e with
    | .held holder token => return .leased holder token
    | .terminal => return .terminal
    | e => return .store e.text
  | .ok lease =>
    let (slot, launched) ← recordAndStart said o.batch lease.token slot
    match launched with
    | .started unit =>
      let _ ← Verb.tried (appendAttempt repo o.batch ⟨o.expired, lease.token, "ok", now, none⟩ tries)
      return .launched unit
    | .running unit =>
      let _ ← Verb.tried
        (appendAttempt repo o.batch ⟨o.expired, lease.token, "running", now, none⟩ tries)
      return .launched unit
    | .failed why =>
      let next := min (now + backoffMs cfg (failures + 1)) (2 ^ 64 - 1)
      match ← giveBack repo o.batch ⟨o.expired, lease.token, why, now, some next⟩ lease slot with
      | .ok () => return .failed why next
      | .error e => return .store s!"launch failed ({why}) and {e}"

def redrive (o : Orphan) : Run ε Redrive := do
  match ← Verb.tried (readAttempts o.batch) with
  | .error e => return .store e
  | .ok (attempts, _) =>
    let now ← nowMs
    match (attempts.getLast?.bind (·.nextAttemptAtMs)).filter (now < ·) with
    | some untilMs => return .waiting untilMs
    | none =>
      if cfg.redriveRetries ≤ failuresOf attempts then return .exhausted (failuresOf attempts)
      else
        match ← proveDead cfg o.batch o.expired with
        | .unknown why => return .priorRunnerAlive why
        | .dead _ =>
          match ← Verb.tried (grant cfg HAND_PREFERENCE HOLDER) with
          | .error no => return .noSlot no
          | .ok slot => redriveOn cfg repo said o (failuresOf attempts) now slot

/-- The states out of which a round is superseded. -/
def supersedable : BatchState → Bool
  | .green | .ciRunning | .attributing | .rebuilding => true
  | _ => false

/-- The live rounds whose tested base can no longer land: the supersede step takes them.  Where the
lane or the rounds cannot be read there are none. -/
def superseding : Run ε (List String) := do
  let lane ← Verb.tried (readLane repo)
  let rounds ← Verb.tried (live repo)
  match lane, rounds with
  | .ok (some lane), .ok rounds =>
    return (rounds.filter fun r ↦ r.round.testedBase.isSome &&
      !((Stack.of lane rounds).height.lookup r.batch).isSome && supersedable r.round.row.state).map
        (·.batch)
  | _, _ => return []

def redriveEach : List Orphan → Run ε (List (Orphan × Redrive))
  | [] => return []
  | o :: rest => do
    let r ← redrive cfg repo said o
    return (o, r) :: (← redriveEach rest)

/-- The pass's orphans step: every orphan is re-driven, or held; one that the supersede step is about
to take is left to it. -/
def orphansStep : Run String (List (Orphan × Redrive)) := do
  let found ← orphans
  let doomed ← superseding repo
  redriveEach cfg repo said (found.filter (·.batch ∉ doomed))

/-! ## The schedule step -/

inductive Scheduled
  | launched (batch unit : String)
  | launchFailed (batch why : String) (nextAttemptAtMs : ℕ)
  deriving DecidableEq

inductive NotScheduled
  | noSlot (no : NoSlot)
  | leaseNotTaken (key text : String)
  | refused (refusal : Refusal)
  deriving DecidableEq

/-- Takes the lease of a round that was cut, and launches its runner on the slot.  A round whose lease
cannot be taken is abandoned at once. -/
def start (abandon : World → Except VerbRefusal Unit) (batch : String) (slot : SlotGrant) :
    Run NotScheduled Scheduled := do
  match ← Verb.tried (acquireTelling (leasing batch) repo batch HOLDER tries) with
  | .error e =>
    let _ ← (Verb.tried slot.release : Run NotScheduled _)
    let abandoned ← (access (fun _ ↦ true) silent fun w ↦ .ok (abandon w) :
      Run NotScheduled (Except VerbRefusal Unit))
    throw (.leaseNotTaken (Key.text repo (.roundLock batch)) (match abandoned with
      | .ok () => e.text
      | .error r => s!"{e.text}; and abandon refused: {r.text}"))
  | .ok lease =>
    let (slot, launched) ← recordAndStart said batch lease.token slot
    let now ← nowMs
    match launched with
    | .started unit | .running unit => return .launched batch unit
    | .failed text =>
      let next := min (now + backoffMs cfg 1) (2 ^ 64 - 1)
      match ← giveBack repo batch ⟨lease.token, lease.token, text, now, some next⟩ lease slot with
      | .ok () => return .launchFailed batch text next
      | .error e => return .launchFailed batch s!"{text}; and {e}" next

/-- What the schedule step asks of the cut and of the queue: whether there is anything to cut, the
round the cut opens, and what the queue answers when one is abandoned. -/
structure Cutting where
  plan : World → Except Refusal Bool
  cut : World → Except Refusal (Option String)
  abandon : World → Except VerbRefusal Unit

/-- Cuts and launches rounds while there is something to cut, each on a slot taken for it. -/
def scheduleEach (c : Cutting) : ℕ → Run NotScheduled (List Scheduled)
  | 0 => return []
  | n + 1 => do
    if ← access (fun _ ↦ true) silent fun w ↦ (c.plan w).mapError .refused then
      let slot ← (grant cfg HAND_PREFERENCE HOLDER).mapError .noSlot
      match ← (access (fun _ ↦ true) silent fun w ↦ .ok (c.cut w) :
          Run NotScheduled (Except Refusal (Option String))) with
      | .error e =>
        let _ ← (Verb.tried slot.release : Run NotScheduled _)
        throw (.refused e)
      | .ok none =>
        let _ ← (Verb.tried slot.release : Run NotScheduled _)
        return []
      | .ok (some batch) =>
        match ← start cfg repo said c.abandon batch slot with
        | .launchFailed batch why next => return [.launchFailed batch why next]
        | s => return s :: (← scheduleEach c n)
    else return []

def schedule (c : Cutting) : Run NotScheduled (List Scheduled) := do
  match ← (readLane repo).mapError .refused with
  | none => return []
  | some lane => scheduleEach cfg repo said c lane.depth

/-! ## Other takers of leases -/

/-- A hand driver takes a slot and the round's lease, and drives the round in a unit of its own; it
gives both back when it is done. -/
def drive (batch : String) : Run NoSlot Unit := do
  let slot ← grantForHand cfg HAND_HOLDER
  match ← Verb.tried (acquireTelling (leasing batch) repo batch HAND_HOLDER tries) with
  | .error _ =>
    let _ ← (Verb.tried slot.release : Run NoSlot _)
    return
  | .ok lease =>
    let unit := (handUnitName batch lease.token).toOption.getD ""
    let recorded ← (Verb.tried (slot.recordHolder unit none) : Run NoSlot _)
    let slot := recorded.toOption.getD slot
    let _ ← (systemdRun said batch lease.token ⟨slot.slot, slot.token, unit⟩ : Run NoSlot _)
    let _ ← (Verb.tried lease.release : Run NoSlot _)
    let _ ← (Verb.tried slot.release : Run NoSlot _)
    return

/-- Any other holder takes the round's lease, and gives it back when it is done. -/
def leaseFor (batch holder : String) : Run LeaseError Unit := do
  (← acquireTelling (leasing batch) repo batch holder tries).release

end Passes

/-! ## What is only read -/

section Within

variable {R G : World → World → Prop} {keys : Key → Prop} {repo batch : String}

theorem readAttempts_within (h : Bears R G keys) : (readAttempts batch).Within R G := by
  refine h.bind (h.get _) fun item ↦ ?_
  cases item <;> exact Verb.within_pure

theorem orphansAmong_within (h : Bears R G keys) (rounds : List (String × Records.Item Round)) :
    (orphansAmong rounds).Within R G := by
  induction rounds with
  | nil => exact Verb.within_pure
  | cons r rest ih =>
    rw [orphansAmong]
    split
    · exact ih
    · refine h.bind (holderOf_within h) fun holder ↦ ?_
      split
      · exact ih
      · exact h.bind ih fun _ ↦ Verb.within_pure

theorem orphans_within (h : Bears R G keys) : orphans.Within R G :=
  h.bind h.listRounds fun _ ↦ orphansAmong_within h _

theorem superseding_within {ε : Type} (h : Bears R G keys) :
    (superseding repo : Run ε _).Within R G := by
  refine h.bind (readLane_within h).tried fun lane ↦ h.bind (live_within h).tried fun rounds ↦ ?_
  split <;> exact Verb.within_pure

end Within

end Spira.Controller
