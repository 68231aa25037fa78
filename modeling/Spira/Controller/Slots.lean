import Spira.Controller.Lease

/-!
# Runner slots

A budget in two pools, each slot a lock with its last holder recorded beside it.  A slot whose
holder lapsed without releasing is granted again only once that holder's runner is proven dead.
-/

set_option autoImplicit false

namespace Spira.Controller

/-- What the deployment declares. -/
structure Settings where
  ec2Slots : ℕ
  /-- Whether a pass may be placed on EC2. -/
  spill : Bool
  ttlMs : ℕ
  redriveRetries : ℕ
  ec2MaxLifetimeMs : ℕ

/-! ## Proof of death -/

/-- Proof that a runner is dead; none where it is not shown to be, which holds its round and slot.
-/
inductive Proof
  | dead (evidence : String)
  | unknown (why : String)
  deriving DecidableEq

/-- What a VM fact says of a runner whose unit has stopped. -/
def vmSays (cfg : Settings) (unit : String) (now : ℕ) : VmFact → Except String String
  | .noVm => .ok "no VM"
  | .running vm => .error s!"VM {vm} of {unit} is running"
  | .unreadable why => .error s!"VM of {unit} unreadable: {why}"
  | .ec2Unreadable instance_ launchedAtMs =>
    if now < launchedAtMs + cfg.ec2MaxLifetimeMs then
      .error s!"EC2 {instance_} of {unit} unreadable and inside its lifetime"
    else .ok s!"EC2 {instance_} past its self-termination deadline"

/-- The unit is not running, and then there is no VM for its pass.  The second answer is one of
death only where no runner of that unit is alive. -/
def proveRunnerDead {ε : Type} (cfg : Settings) (unit : String) : Run ε Proof := do
  match ← (access (fun _ ↦ true) silent fun w ↦ .ok (w.units unit) : Run ε UnitState) with
  | .running s => return .unknown s!"unit {unit} is {s}"
  | .unreadable why => return .unknown s!"unit {unit} unreadable: {why}"
  | .stopped said =>
    access
      (fun w ↦ match vmSays cfg unit w.now (w.vms unit) with
        | .ok _ => w.alive.all (·.unit ≠ unit)
        | .error _ => true)
      (fun w ↦ match vmSays cfg unit w.now (w.vms unit) with
        | .ok _ => [.dead unit]
        | .error _ => [])
      fun w ↦ match vmSays cfg unit w.now (w.vms unit) with
        | .ok vm => .ok (.dead s!"unit {unit} {said}; {vm}")
        | .error why => .ok (.unknown why)

/-! ## Grants -/

/-- Why one slot was not granted. -/
inductive Taken
  | held (holder unit : Option String)
  /-- Its last holder lapsed without releasing it and is not shown dead. -/
  | unproven (holder why : String)
  | unreadable (why : String)
  deriving DecidableEq

/-- No slot in the pools asked was free. -/
structure NoSlot where
  holders : List (Slot × Taken)
  closed : List (SlotPool × String)
  deriving DecidableEq

structure SlotGrant where
  slot : Slot
  token : ℕ
  record : SlotRecord
  /-- The proof that the slot's last holder was dead, when it lapsed without releasing. -/
  evidence : Option String
  deriving DecidableEq

/-- The local hypervisor runs one round at a time. -/
def PROXMOX_SLOTS : ℕ := 1

def budget (cfg : Settings) : SlotPool → ℕ
  | .proxmox => PROXMOX_SLOTS
  | .ec2 => if cfg.spill then cfg.ec2Slots else 0

def closed (cfg : Settings) : SlotPool → Option String
  | .proxmox => none
  | .ec2 =>
    if !cfg.spill then some "SPIRA_ROUND_VM_SPILL does not allow spill"
    else if cfg.ec2Slots = 0 then some "SPIRA_ROUND_RUNNER_SLOTS_EC2 is 0"
    else none

/-- Why the slot's last holder no longer stands in the way: it released the slot, or recorded no
unit and so launched none, or its unit is proven dead. -/
def lastGone (cfg : Settings) : Option SlotRecord → Run Taken (Option String)
  | none => return none
  | some r =>
    if r.released then return none
    else match r.unit with
      | none => return some s!"{r.holder} recorded no unit, so launched none"
      | some unit => do
        match ← proveRunnerDead cfg unit with
        | .dead evidence => return some evidence
        | .unknown why => throw (.unproven r.holder why)

/-- The record of a new holder. -/
def SlotRecord.of (holder : String) : SlotRecord := ⟨holder, none, none, false⟩

def take (cfg : Settings) (slot : Slot) (holder : String) : Run Taken SlotGrant := do
  let item ← (get (.slot slot)).mapError .unreadable
  let last := item.map (·.value)
  let lock ← (get (.slotLock slot)).mapError .unreadable
  if lock.isSome then throw (.held (last.map (·.holder)) (last.bind (·.unit)))
  else
    let evidence ← lastGone cfg last
    let taken ← (txn (fun w ↦ [.granted slot (w.store.head + 1)])
      ⟨[.modRev (.slot slot) (item.map (·.modRev)), .createRev (.slotLock slot) none],
        [.put (.slotLock slot) (), .put (.slot slot) (.of holder)]⟩).mapError .unreadable
    match taken with
    | some token => return ⟨slot, token, .of holder, evidence⟩
    | none =>
      match ← (Verb.tried (get (.slotLock slot)) : Run Taken _) with
      | .ok (some _) => throw (.held none none)
      | _ => throw (.unreadable "moved while it was being granted")

def grantFrom (cfg : Settings) (holder : String) : List Slot → NoSlot → Run NoSlot SlotGrant
  | [], no => throw no
  | slot :: rest, no => do
    match ← Verb.tried (take cfg slot holder) with
    | .ok g => return g
    | .error taken => grantFrom cfg holder rest { no with holders := no.holders ++ [(slot, taken)] }

/-- The slots of the pools asked, in their order. -/
def offered (cfg : Settings) (prefer : List SlotPool) : List Slot :=
  (prefer.filter (closed cfg · = none)).flatMap fun pool ↦
    (List.range (budget cfg pool)).map (⟨pool, ·⟩)

/-- The first free slot in the pools asked, taken for the holder. -/
def grant (cfg : Settings) (prefer : List SlotPool) (holder : String) : Run NoSlot SlotGrant :=
  grantFrom cfg holder (offered cfg prefer)
    ⟨[], prefer.filterMap fun pool ↦ (closed cfg pool).map (pool, ·)⟩

/-- The pools a hand driver asks, in order: the same pools the controller draws from. -/
def HAND_PREFERENCE : List SlotPool := [.proxmox, .ec2]

def grantForHand (cfg : Settings) (holder : String) : Run NoSlot SlotGrant :=
  grant cfg HAND_PREFERENCE holder

namespace SlotGrant

variable (g : SlotGrant)

/-- A holder's write to the slot's record, under its token. -/
def write (told : World → List Happened) (record : SlotRecord) : Run LeaseError Unit := do
  let written ← (txn told ⟨[.createRev (.slotLock g.slot) (some g.token)],
    [.put (.slot g.slot) record]⟩).mapError .store
  if written.isNone then throw .lost

def renew : Run LeaseError Unit := do
  let renewed ← (txn silent ⟨[.createRev (.slotLock g.slot) (some g.token)],
    [.put (.slotLock g.slot) ()]⟩).mapError .store
  if renewed.isNone then throw .lost

/-- Records the runner under this slot: its unit before it is launched, and its VM once there is
one. -/
def recordHolder (unit : String) (vm : Option String) : Run LeaseError SlotGrant := do
  let record := { g.record with unit := some unit, vm := vm }
  g.write (fun _ ↦ [.unitRecorded ⟨g.slot, g.token, unit⟩]) record
  return { g with record := record }

/-- The store's release of the slot's lock, under its token. -/
def unlock : Run LeaseError Unit := do
  let released ← (txn silent ⟨[.createRev (.slotLock g.slot) (some g.token)],
    [.delete (.slotLock g.slot)]⟩).mapError .store
  if released.isNone then throw .lost

/-- Gives the slot back, only once the runner's VM is gone: a released slot is granted again without
proof of death. -/
def release : Run LeaseError Unit := do
  g.write (fun w ↦ [.gaveBack g.slot g.token w.alive]) { g.record with released := true }
  g.unlock

end SlotGrant

end Spira.Controller
