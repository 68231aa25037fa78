import Mathlib.Algebra.GroupWithZero.Nat
import Spira.StateStore.Backend

/-!
# Objects, keys and what a caller asks

The values the contract stores: an object is its metadata, which the contract reserves, and its
data.  The data is the caller's, or one of the three records the contract keeps under prefixes of
its own: a lock, the record of a request, an audit record.

An object's encoding is not modelled; only its length enters a decision, and `Config` carries it.
-/

set_option autoImplicit false

namespace Spira.Store

open KeyPrefix (starts)

/-! ## Keys -/

def eventsPrefix : String := "events/"
def requestsPrefix : String := "requests/"
def locksPrefix : String := "locks/"
/-- Writes under this prefix are regenerable telemetry: revisioned and watched, never audited. -/
def telemetryPrefix : String := "telemetry/"
def intentsPrefix : String := "intents/"
/-- Prefixes whose every put must carry `ttlSecs > 0`. -/
def ttlPrefixes : List String := [telemetryPrefix, intentsPrefix]
def requestTtlSecs : ℕ := 24 * 60 * 60

/-- `main` in decimal, padded with zeros to twenty digits. -/
def pad20 (main : ℕ) : String :=
  String.ofList (List.replicate (20 - (Nat.toDigits 10 main).length) '0' ++ Nat.toDigits 10 main)

def eventsKey (main : ℕ) : String := eventsPrefix ++ pad20 main

def requestKey (id : String) : String := requestsPrefix ++ id

def lockKey (resource : String) : String := locksPrefix ++ resource

theorem eventsKey_inj {m n : ℕ} : eventsKey m = eventsKey n ↔ m = n := by
  refine ⟨fun h ↦ ?_, congrArg _⟩
  have hpad : pad20 m = pad20 n := by simpa [eventsKey] using h
  -- Leading zeros do not change what the digits denote.
  have hval (k : ℕ) : Nat.ofDigitChars 10 (pad20 k).toList 0 = k := by
    rw [pad20, String.toList_ofList, Nat.ofDigitChars_append, Nat.ofDigitChars_replicate_zero,
      Nat.mul_zero, Nat.ofDigitChars_ten_toDigits]
  rw [← hval m, hpad, hval]

theorem starts_eventsKey (main : ℕ) : starts eventsPrefix (eventsKey main) :=
  KeyPrefix.starts_append _ _

theorem starts_requestKey (id : String) : starts requestsPrefix (requestKey id) :=
  KeyPrefix.starts_append _ _

theorem starts_lockKey (resource : String) : starts locksPrefix (lockKey resource) :=
  KeyPrefix.starts_append _ _

/-! ## Objects -/

/-- The metadata envelope the contract reserves in every value. -/
structure Meta where
  finalizers : List String := []
  /-- Keys of the owners; the key is collected once none of them exists. -/
  ownerReferences : List String := []
  /-- Wall milliseconds, for display only: nothing is ordered by it. -/
  deletionTimestamp : Option ℕ := none
  ttlSecs : Option ℕ := none
  deriving DecidableEq, Repr

/-- What a staged write does, as the audit record names it. -/
inductive StagedOp
  | put
  | delete
  | markDeleted
  deriving DecidableEq, Repr

/-- A write of an audited transaction, as its record has it. -/
structure Sub where
  key : String
  sub : ℕ
  op : StagedOp
  prevModRev : Option Rev
  deriving DecidableEq, Repr

/-- The audit record of a transaction. -/
structure EventRecord (P : Type) where
  actor : String
  kind : String
  evidence : Option P
  request : String
  refused : Bool
  subs : List Sub
  deriving DecidableEq, Repr

/-- An object's data: the caller's, or one of the contract's own records. -/
inductive Data (P : Type)
  | payload (p : P)
  | lock (ttlMs : ℕ)
  | request (main : ℕ) (succeeded : Bool)
  | event (record : EventRecord P)
  deriving DecidableEq, Repr

structure Object (P : Type) where
  metadata : Meta := {}
  data : Data P
  deriving DecidableEq, Repr

/-- A key's value with the revisions of its last write and of its creation. -/
structure Item (P : Type) where
  key : String
  value : Object P
  modRev : Rev
  createRev : Rev
  deriving DecidableEq, Repr

def lockValue {P : Type} (ttlMs : ℕ) : Object P := { data := .lock ttlMs }

/-- The TTL a lock's data carries. -/
def Data.ttlMs? {P : Type} : Data P → Option ℕ
  | .lock ttlMs => some ttlMs
  | _ => none

/-- The prefixes whose keys may carry `ttlSecs`. -/
def ttlAllowed (key : String) : Bool :=
  starts requestsPrefix key || ttlPrefixes.any (starts · key)

/-- The TTL the contract keeps `key` holding `v` for: a lock's, or that of a key under a prefix
whose keys expire. -/
def ttlMs {P : Type} (key : String) (v : Object P) : Option ℕ :=
  if starts locksPrefix key then v.data.ttlMs?
  else if !ttlAllowed key then none
  else (v.metadata.ttlSecs.filter (0 < ·)).map (· * 1000)

/-! ## Requests and transactions -/

/-- Every mutating call carries one: its id makes a retry idempotent, and the rest is the audit
record. -/
structure Request (P : Type) where
  id : String
  actor : String
  kind : String
  evidence : Option P := none
  deriving DecidableEq, Repr

/-- Equality compares; `none` means the key is absent. -/
inductive Compare (P : Type)
  | modRev (key : String) (want : Option Rev)
  | createRev (key : String) (want : Option Rev)
  | value (key : String) (want : Option (Object P))
  /-- The lock at `key` is live and held under `token`. -/
  | lockCheck (key : String) (token : Rev)
  deriving DecidableEq, Repr

def Compare.key {P : Type} : Compare P → String
  | modRev key _ | createRev key _ | value key _ | lockCheck key _ => key

inductive Op (P : Type)
  | put (key : String) (value : Object P)
  /-- Marks the key for deletion instead while it has finalizers. -/
  | delete (key : String)
  /-- Takes the lock at `key` in the transaction's own commit. -/
  | lockAcquire (key : String) (ttlMs : ℕ)
  deriving DecidableEq, Repr

def Op.key {P : Type} : Op P → String
  | put key _ | delete key | lockAcquire key _ => key

/-- What a caller asks to be done if every compare holds, and otherwise. -/
structure TxnOps (P : Type) where
  compares : List (Compare P) := []
  ops : List (Op P) := []
  elseOps : List (Op P) := []
  deriving DecidableEq, Repr

def TxnOps.lockKeys {P : Type} (t : TxnOps P) : List String :=
  t.ops.filterMap fun
    | .lockAcquire key _ => some key
    | _ => none

/-- A lock holder's proof: the lock's `createRev` is the token. -/
structure Fence where
  resource : String
  token : Rev
  deriving DecidableEq, Repr

def Fence.key (f : Fence) : String := lockKey f.resource

/-! ## Errors and limits -/

/-- Each limit of the store's largest deployment, named in the refusal. -/
inductive Limit
  | ops (max got : ℕ)
  | compares (max got : ℕ)
  | requestBytes (max got : ℕ)
  | duplicateKey (key : String)
  deriving DecidableEq, Repr

inductive Error (P : Type)
  /-- `create` found the key holding a different value. -/
  | conflict (key : String) (existing : Item P)
  | notFound (key : String)
  /-- `delete`'s expected revision is not the key's. -/
  | revMismatch (key : String) (expected actual : Rev)
  | limit (l : Limit)
  | ttlRequired (key : String)
  /-- `ttlSecs` on a key outside the prefixes whose keys expire. -/
  | ttlNotAllowed (key : String)
  /-- Caller writes may not touch the contract's own prefixes. -/
  | reservedKey (key : String)
  | locked (resource : String) (token : Rev)
  /-- The fence's lock expired or is held under another token. -/
  | lockLost (resource : String)
  | lockTtlBelowMinimum (minMs gotMs : ℕ)
  | waitTooLong (maxMs gotMs : ℕ)
  | backend (e : BackendError)
  deriving DecidableEq, Repr

instance {P : Type} : Inhabited (Error P) := ⟨.backend (.backend "")⟩

/-- What a contract is built with: its shortest lock, and how long an object's encoding is. -/
structure Config (P : Type) where
  minLockTtlMs : ℕ
  encodedLen : Object P → ℕ

def maxTxnOps : ℕ := 128
def maxTxnCompares : ℕ := 128
def maxRequestBytes : ℕ := 1572864

section Checks

variable {P : Type}

/-- The keys and values the compares carry. -/
def compareBytes (cfg : Config P) (compares : List (Compare P)) : ℕ :=
  (compares.map fun
    | .modRev k _ | .createRev k _ | .lockCheck k _ => k.utf8ByteSize
    | .value k v => k.utf8ByteSize + (v.map cfg.encodedLen).getD 0).sum

def checkBytes (got : ℕ) : Except (Error P) Unit :=
  if got > maxRequestBytes then .error (.limit (.requestBytes maxRequestBytes got)) else .ok ()

/-- The first key that occurs twice. -/
def firstDuplicate : List String → List String → Option String
  | _, [] => none
  | seen, k :: ks => if k ∈ seen then some k else firstDuplicate (k :: seen) ks

/-- Refuses what breaks the op, compare and duplicate-key limits; `bookkeeping` is the keys the
contract adds to a branch. -/
def checkLimits (t : TxnOps P) (bookkeeping : ℕ) : Except (Error P) Unit :=
  let ops := max t.ops.length t.elseOps.length + bookkeeping
  if ops > maxTxnOps then .error (.limit (.ops maxTxnOps ops))
  else if t.compares.length > maxTxnCompares then
    .error (.limit (.compares maxTxnCompares t.compares.length))
  else
    match (firstDuplicate [] (t.ops.map Op.key)).or (firstDuplicate [] (t.elseOps.map Op.key)) with
    | some key => .error (.limit (.duplicateKey key))
    | none => .ok ()

def isReserved (key : String) : Bool :=
  [eventsPrefix, requestsPrefix, locksPrefix].any (starts · key)

/-- A transaction is kept out of the audit history only when every key it writes is telemetry. -/
def audited (keys : List String) : Bool := keys.isEmpty || keys.any (!starts telemetryPrefix ·)

/-- One op of a branch; `mayLock`: the branch may take locks, which only a then-branch may. -/
def validateOp (mayLock : Bool) (o : Op P) : Except (Error P) Unit :=
  let refused :=
    match o with
    | .lockAcquire key _ => !mayLock || !starts locksPrefix key
    | _ => isReserved o.key
  if refused then .error (.reservedKey o.key)
  else
    match o with
    | .put k v =>
      if ttlPrefixes.any (starts · k) && v.metadata.ttlSecs.getD 0 == 0 then
        .error (.ttlRequired k)
      else if !ttlAllowed k && v.metadata.ttlSecs.isSome then .error (.ttlNotAllowed k)
      else .ok ()
    | _ => .ok ()

def validate (ops : List (Op P)) (mayLock : Bool) : Except (Error P) Unit :=
  ops.forM (validateOp mayLock)

end Checks

end Spira.Store
