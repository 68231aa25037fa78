import Spira.StateStore.Object

/-!
# The control plane's key layout

Every record has its key under a prefix of its kind's own, so no two keys of different kinds are
one.
-/

set_option autoImplicit false

namespace Spira.Control

open KeyPrefix (starts)
open Store (pad20)

namespace Keys

def lifecyclePrefix : String := "lifecycle/"
def deliveriesPrefix : String := "deliveries/"
def mendingsPrefix : String := "mendings/"
def batchesPrefix : String := "batches/"
/-- Each round's id, naming the repo it was cut in: a round id is unique across repos. -/
def batchIdsPrefix : String := "batch-ids/"
def historyPrefix : String := "history/"
/-- Each record's blocker-facing projection. -/
def gatesPrefix : String := "gates/"
def readinessPrefix : String := "readiness/"

def lifecycle (id : String) : String := lifecyclePrefix ++ id

def gate (id : String) : String := gatesPrefix ++ id

def readiness (id : String) : String := readinessPrefix ++ id

def delivery (id : String) : String := deliveriesPrefix ++ id

def mending (id : String) : String := mendingsPrefix ++ id

def batch (repo id : String) : String := batchesPrefix ++ repo ++ "/" ++ id

def batchIndex (id : String) : String := batchIdsPrefix ++ id

/-- The resource a claim of `id` locks. -/
def claimResource (id : String) : String := lifecycle id

def claimLock (id : String) : String := Store.lockKey (claimResource id)

/-- The finalizer of a record whose bead the planning plane still has open. -/
def planningClosed : String := "planning-closed"

/-- Every history entry of `id`: one for each transaction whose audit names it. -/
def history (id : String) : String := historyPrefix ++ id ++ "/"

/-- The entry in `id`'s history of the transaction of `request`. -/
def historyEntry (id : String) (plannedAt : ℕ) (request : String) : String :=
  history id ++ pad20 plannedAt ++ "/" ++ request

/-- The id a key under `pre` names, unless it is not directly under it. -/
def idOf (pre key : String) : Option String :=
  if starts pre key then
    some (String.ofList (key.toList.drop pre.toList.length)) |>.filter fun id ↦
      id ≠ "" && !id.toList.contains '/'
  else none

/-- The key of a delivery names its id, where the id has no slash of its own. -/
theorem idOf_delivery {id : String} (hne : id ≠ "") (hslash : '/' ∉ id.toList) :
    idOf deliveriesPrefix (delivery id) = some id := by
  rw [idOf, delivery, KeyPrefix.starts_append, if_pos rfl, String.toList_append, List.drop_left,
    String.ofList_toList]
  simp [hne, hslash]

/-! ## Keys of different kinds -/

section Distinct

variable {id id' repo : String}

@[simp] theorem lifecycle_inj : lifecycle id = lifecycle id' ↔ id = id' := by simp [lifecycle]

@[simp] theorem gate_inj : gate id = gate id' ↔ id = id' := by simp [gate]

@[simp] theorem delivery_inj : delivery id = delivery id' ↔ id = id' := by simp [delivery]

@[simp] theorem batchIndex_inj : batchIndex id = batchIndex id' ↔ id = id' := by
  simp [batchIndex]

@[simp] theorem claimLock_inj : claimLock id = claimLock id' ↔ id = id' := by
  simp [claimLock, claimResource, Store.lockKey]

theorem starts_lifecycle (id : String) : starts lifecyclePrefix (lifecycle id) :=
  KeyPrefix.starts_append _ _

theorem starts_gate (id : String) : starts gatesPrefix (gate id) := KeyPrefix.starts_append _ _

theorem starts_readiness (id : String) : starts readinessPrefix (readiness id) :=
  KeyPrefix.starts_append _ _

theorem starts_claimLock (id : String) : starts Store.locksPrefix (claimLock id) :=
  Store.starts_lockKey _

theorem starts_delivery (id : String) : starts deliveriesPrefix (delivery id) :=
  KeyPrefix.starts_append _ _

theorem starts_mending (id : String) : starts mendingsPrefix (mending id) :=
  KeyPrefix.starts_append _ _

theorem starts_batch (repo id : String) : starts batchesPrefix (batch repo id) := by
  rw [batch, String.append_assoc, String.append_assoc]
  exact KeyPrefix.starts_append _ _

theorem starts_batchIndex (id : String) : starts batchIdsPrefix (batchIndex id) :=
  KeyPrefix.starts_append _ _

theorem starts_historyEntry (id : String) (plannedAt : ℕ) (request : String) :
    starts historyPrefix (historyEntry id plannedAt request) := by
  rw [historyEntry, history]
  simp only [String.append_assoc]
  exact KeyPrefix.starts_append _ _

/-- A key is under one prefix only. -/
theorem ne_of_starts {p q k k' : String} (hk : starts p k) (hk' : starts q k')
    (hpq : starts p q = false) (hqp : starts q p = false) : k ≠ k' := by
  rintro rfl
  have hq := KeyPrefix.not_starts hk hpq hqp
  rw [hk'] at hq
  cases hq

end Distinct

end Keys

end Spira.Control
