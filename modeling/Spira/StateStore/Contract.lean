import Mathlib.Data.List.Induction
import Spira.Lib.Interleave
import Spira.StateStore.Object

/-!
# The contract: every verb above a backend

The verbs are programs over a `World`: the backend, the map of deadlines beside it with the lock
that guards the map, and the clocks.  One step is one call of the backend, one look at a clock or
one use of the map, and anything another client does may fall between two of them.  A verb plans at
the head it read and commits guarded by that head, and plans again when another commit won.

The lock of the deadlines is held from a backend commit until the deadlines of what it wrote are
set, so a commit is two steps: `backendCommit` leaves the world with deadlines `pending`, and no
step that looks at the map is ready until `stampDeadlines` has settled them.

`World.trace` is no part of the program.  It is the list of what was committed, newest first, and
is only ever added to.
-/

set_option autoImplicit false

namespace Spira.Store

open KeyPrefix (starts)

/-! ## The world -/

/-- A write resolved against a snapshot: `value` is `none` for a delete. -/
structure Staged (P : Type) where
  key : String
  value : Option (Object P)
  prev : Option (Item P)
  op : StagedOp
  deriving DecidableEq, Repr

/-- Which keys a controller pass collects. -/
inductive CollectKind
  | finalize
  | orphan
  deriving DecidableEq, Repr

def CollectKind.text : CollectKind → String
  | finalize => "gc.finalize"
  | orphan => "gc.orphan"

/-- The verbs as they are called. -/
inductive Call (P : Type)
  | create (key : String) (value : Object P) (req : Request P)
  | txn (t : TxnOps P) (req : Request P)
  | delete (key : String) (expect : Option Rev) (req : Request P)
  | lock (resource : String) (ttlMs : ℕ) (req : Request P)
  | renew (f : Fence) (req : Request P)
  | renewFor (f : Fence) (ttlMs : ℕ) (req : Request P)
  | release (f : Fence) (req : Request P)
  /-- A controller pass whose `now` is `lag` behind the clock it starts at. -/
  | tick (lag : ℕ)
  deriving DecidableEq, Repr

/-- Who a commit is made by. -/
inductive Author (P : Type)
  | call (c : Call P)
  | expire
  | collect (kind : CollectKind)
  deriving DecidableEq, Repr

/-- A commit: who made it, on which branch, at which head, what it wrote and when. -/
structure Committed (P : Type) where
  author : Author P
  ok : Bool
  head : ℕ
  staged : List (Staged P)
  now : ℕ
  deriving DecidableEq, Repr

/-- What happened to the store: it was opened, a batch was committed, or one failed. -/
inductive Happened (P : Type)
  | opened (now : ℕ)
  | committed (c : Committed P)
  | failed (staged : List (Staged P))
  deriving DecidableEq, Repr

/-- The backend, the deadlines beside it, and the clocks. -/
structure World (P : Type) where
  store : Mvcc String (Object P)
  /-- Each TTL'd key's expiry on the monotonic clock. -/
  deadlines : KeyMap String ℕ
  /-- The commit that holds the lock of `deadlines`, and whether the backend took it. -/
  pending : Option (List (Staged P) × Bool)
  mono : ℕ
  /-- Only stamps `deletionTimestamp`. -/
  wall : ℕ
  /-- Whether the backend fails the next commit. -/
  failing : Bool
  trace : List (Happened P)

section World

variable {P : Type}

def Item.ofVersion (key : String) (v : Version (Object P)) : Item P :=
  ⟨key, v.value, v.modRev, v.createRev⟩

/-- The key as the snapshot at `at_` has it. -/
def World.itemAt (w : World P) (at_ : ℕ) (key : String) : Option (Item P) :=
  (snapshot w.store.history at_)[key]?.map (Item.ofVersion key)

/-- The write of transaction `main` at its place. -/
def writeOf (main : ℕ) (p : Staged P × ℕ) : Write String (Object P) :=
  match p.1.value with
  | some v =>
    .put p.1.key v ((p.1.prev.map (·.createRev)).getD ⟨main, p.2⟩) (p.1.prev.map (·.modRev))
  | none => .delete p.1.key ((p.1.prev.map (·.modRev)).getD ⟨0, 0⟩)

/-- The batch `staged` is committed as, as transaction `main`. -/
def writesOf (main : ℕ) (staged : List (Staged P)) : List (Write String (Object P)) :=
  staged.zipIdx.map (writeOf main)

/-- The deadline a staged write leaves: a TTL starts anew even where the commit failed, and a key
without one loses its deadline only where it did not. -/
def stampOne (now : ℕ) (ok : Bool) (d : KeyMap String ℕ) (s : Staged P) : KeyMap String ℕ :=
  match s.value.bind (ttlMs s.key) with
  | some ttl => d.insert s.key (now + ttl)
  | none => if ok then d.erase s.key else d

/-- The pending deadlines are set, and the lock is free. -/
def World.stamp (w : World P) : World P :=
  match w.pending with
  | none => w
  | some (staged, ok) =>
    { w with pending := none, deadlines := staged.foldl (stampOne w.mono ok) w.deadlines }

/-- The backend takes the batch. -/
def World.taken (w : World P) (author : Author P) (ok : Bool) (staged : List (Staged P)) :
    World P :=
  { w with
    store := w.store.append (writesOf (w.store.head + 1) staged)
    pending := some (staged, true)
    trace := .committed ⟨author, ok, w.store.head, staged, w.mono⟩ :: w.trace }

/-- The backend fails the batch, and stores nothing. -/
def World.failed (w : World P) (staged : List (Staged P)) : World P :=
  { w with pending := some (staged, false), trace := .failed staged :: w.trace }

/-- Each key loses a deadline that has passed at `now`. -/
def dropDue (now : ℕ) (d : KeyMap String ℕ) (keys : List String) : KeyMap String ℕ :=
  keys.foldl (fun d k ↦ if d[k]?.any (· ≤ now) then d.erase k else d) d

end World

/-! ## Opening -/

def page : ℕ := 1000

/-- A key with a TTL gets a deadline that TTL after `now`. -/
def restart {P : Type} (now : ℕ) (d : KeyMap String ℕ) (e : String × Version (Object P)) :
    KeyMap String ℕ :=
  match ttlMs e.1 e.2.value with
  | some ttl => d.insert e.1 (now + ttl)
  | none => d

/-- The deadlines of the keys of a snapshot from `after` on, page by page. -/
def restartPages {P : Type} (m : Snapshot String (Object P)) (now : ℕ) :
    ℕ → Option String → KeyMap String ℕ → KeyMap String ℕ
  | 0, _, d => d
  | fuel + 1, after, d =>
    let items := m.gcRange eventsPrefix after page
    let d := items.foldl (restart now) d
    if items.length < page then d
    else restartPages m now fuel (items.getLast?.map (·.1)) d

/-- The store is opened anew: every TTL, locks' included, restarts at `now`. -/
def World.reopen {P : Type} (now : ℕ) (w : World P) : World P :=
  let m := snapshot w.store.history w.store.head
  { w with
    deadlines := restartPages m now (m.toList.length + 1) none ∅
    pending := none
    mono := now
    trace := .opened now :: w.trace }

/-- The store nothing was committed to, just opened. -/
def World.init (P : Type) : World P := ⟨.empty, ∅, none, 0, 0, false, [.opened 0]⟩

/-- What moves by itself. -/
inductive Env
  | advance (d : ℕ)
  | setWall (t : ℕ)
  | setFailing (b : Bool)
  | compact (rev : ℕ)
  | jump (through : ℕ)

def World.env {P : Type} (e : Env) (w : World P) : World P :=
  match e with
  | .advance d => { w with mono := w.mono + d }
  | .setWall t => { w with wall := t }
  | .setFailing b => { w with failing := b }
  | .compact rev => { w with store := w.store.compact rev }
  | .jump through =>
    if h : w.store.head < through then { w with store := w.store.jump through h } else w

/-! ## What one step is -/

/-- A program of the contract. -/
abbrev Run (P α : Type) := Verb (World P) (Error P) α

namespace Contract

variable {P : Type}

/-- A check that looks at nothing. -/
def pureCheck {α : Type} (r : Except (Error P) α) : Run P α :=
  match r with
  | .ok a => pure a
  | .error e => throw e

/-- A step that only uses what the lock of the deadlines guards. -/
def guarded {α : Type} (effect : World P → World P) (answer : World P → α) : Run P α :=
  Verb.atom (·.pending.isNone) effect fun w ↦ .ok (answer w)

def head : Run P ℕ := Verb.look fun w ↦ .ok w.store.head

def nowMs : Run P ℕ := Verb.look fun w ↦ .ok w.mono

def wallMs : Run P ℕ := Verb.look fun w ↦ .ok w.wall

/-- The key as of `at_`. -/
def read (key : String) (at_ : ℕ) : Run P (Option (Item P)) :=
  Verb.look fun w ↦
    match w.store.get key at_ with
    | .ok v => .ok (v.map (Item.ofVersion key))
    | .error e => .error (.backend e)

def get (key : String) : Run P (Option (Item P)) := do read key (← head)

def gcPage (after : Option String) (at_ : ℕ) : Run P (List (Item P)) :=
  Verb.look fun w ↦
    match w.store.readable at_ with
    | .ok _ => .ok (((snapshot w.store.history at_).gcRange eventsPrefix after page).map
        fun e ↦ Item.ofVersion e.1 e.2)
    | .error e => .error (.backend e)

def deadline (key : String) : Run P (Option ℕ) := guarded id fun w ↦ w.deadlines[key]?

/-- Keys whose TTL has run out at `now`, in key order. -/
def due (now : ℕ) : Run P (List String) :=
  guarded id fun w ↦ (w.deadlines.toList.filter (·.2 ≤ now)).map (·.1)

def dropDeadlines (now : ℕ) (keys : List String) : Run P Unit :=
  guarded (fun w ↦ { w with deadlines := dropDue now w.deadlines keys }) fun _ ↦ ()

def live (key : String) : Run P Bool := do
  let now ← nowMs
  let d ← deadline key
  return d.any (now < ·)

def isDue (key : String) (now : ℕ) : Run P Bool := do
  let d ← deadline key
  return d.all (· ≤ now)

/-- The backend's part of a commit, under the lock of the deadlines unless it is stale. -/
def backendCommit (author : Author P) (ok : Bool) (head : ℕ) (staged : List (Staged P)) :
    Run P (Except BackendError ℕ) :=
  guarded
    (fun w ↦
      if w.store.head ≠ head then w
      else if w.failing then w.failed staged
      else w.taken author ok staged)
    fun w ↦
      if w.store.head ≠ head then .error (.stale head w.store.head)
      else if w.failing then .error (.backend "commit")
      else .ok (head + 1)

def stampDeadlines : Run P Unit := Verb.atom (fun _ ↦ true) World.stamp fun _ ↦ .ok ()

def commit (author : Author P) (ok : Bool) (head : ℕ) (staged : List (Staged P)) :
    Run P (Except BackendError ℕ) := do
  match ← backendCommit author ok head staged with
  | .error (.stale expected head) => return .error (.stale expected head)
  | res => do
    stampDeadlines
    return res

/-! ## Staging -/

/-- The value with the mark its key already has. -/
def keepMark (marked : Option ℕ) (v : Object P) : Object P :=
  match marked with
  | some _ => { v with metadata := { v.metadata with deletionTimestamp := marked } }
  | none => v

/-- Resolves one op against `head`: a delete of an absent key is dropped, a delete of a key with
finalizers marks it, and a write to a marked key keeps the mark. -/
def stageOne (head : ℕ) (o : Op P) : Run P (Option (Staged P)) := do
  let prev ← read o.key head
  let marked := prev.bind (·.value.metadata.deletionTimestamp)
  match o, prev with
  | .put k v, prev => return some ⟨k, some (keepMark marked v), prev, .put⟩
  | .lockAcquire k ttlMs, prev => return some ⟨k, some (lockValue ttlMs), prev, .put⟩
  | .delete _, none => return none
  | .delete k, some p =>
    if p.value.metadata.finalizers = [] then return some ⟨k, none, some p, .delete⟩
    else
      match marked with
      | some _ => return some ⟨k, some (keepMark marked p.value), some p, .markDeleted⟩
      | none => do
        let now ← wallMs
        return some ⟨k, some (keepMark (some now) p.value), some p, .markDeleted⟩

def stage (head : ℕ) : List (Op P) → Run P (List (Staged P))
  | [] => return []
  | o :: ops => do
    let s ← stageOne head o
    let rest ← stage head ops
    return s.toList ++ rest

/-- The audit records the contract keeps of a verb. -/
structure Record where
  audited : Bool
  idempotent : Bool
  /-- The keys and values the compares carry, which count toward the request size. -/
  compareBytes : ℕ := 0

def Record.bookkeeping (r : Record) : ℕ := r.idempotent.toNat + r.audited.toNat

def subsOf (staged : List (Staged P)) : List Sub :=
  staged.zipIdx.map fun p ↦ ⟨p.1.key, p.2, p.1.op, p.1.prev.map (·.modRev)⟩

/-- The record of request `id`, from which a retry is answered. -/
def requestWrite (id : String) (main : ℕ) (ok : Bool) : Staged P where
  key := requestKey id
  value := some
    { metadata := { ttlSecs := some requestTtlSecs }, data := .request main ok }
  prev := none
  op := .put

/-- The audit record of transaction `main`. -/
def eventWrite (req : Request P) (main : ℕ) (ok : Bool) (subs : List Sub) : Staged P where
  key := eventsKey main
  value := some
    { data := .event ⟨req.actor, req.kind, req.evidence, req.id, !ok, subs⟩ }
  prev := none
  op := .put

/-- The batch for `ops` at `head`: the ops resolved, then the request's record and the audit
record. -/
def build (req : Request P) (rec : Record) (ok : Bool) (ops : List (Op P)) (head : ℕ) :
    Run P (List (Staged P)) := do
  let staged ← stage head ops
  return staged ++ (if rec.idempotent then [requestWrite req.id (head + 1) ok] else []) ++
    (if rec.audited then [eventWrite req (head + 1) ok (subsOf staged)] else [])

def stagedBytes (cfg : Config P) (staged : List (Staged P)) : ℕ :=
  (staged.map fun s ↦ s.key.utf8ByteSize + (s.value.map cfg.encodedLen).getD 0).sum

/-! ## The engine -/

/-- What a plan decides at one snapshot head. -/
inductive Step (P T : Type)
  /-- Answered without writing. -/
  | done (t : T)
  /-- Commit `ops` (the then-branch if `ok`, else the else-branch). -/
  | apply (ok : Bool) (ops : List (Op P))

inductive Outcome (T : Type)
  | done (t : T)
  | applied (rev : ℕ) (ok : Bool)
  /-- The request key already existed: the original commit's revision and branch. -/
  | already (rev : ℕ) (ok : Bool)
  /-- A refused, unaudited transaction with nothing to write stored nothing. -/
  | nothing (head : ℕ)

/-- The revision and the branch in the record of a request. -/
def Data.original : Data P → ℕ × Bool
  | .request main ok => (main, ok)
  | _ => (0, false)

/-- The record of an earlier commit of the same request. -/
def already (req : Request P) (rec : Record) (head : ℕ) : Run P (Option (ℕ × Bool)) :=
  if rec.idempotent then do
    let r ← read (requestKey req.id) head
    return r.map fun i ↦ Data.original i.value.data
  else return none

/-- Plans at the current head and commits guarded by it, planning again if another commit won; so
every verb is evaluated and applied at one snapshot.  What the last plan noted is handed back. -/
def engine {T X : Type} (cfg : Config P) (author : Author P) (req : Request P) (rec : Record)
    (plan : ℕ → Run P (Step P T × X)) : ℕ → Run P (Outcome T × Option X)
  | 0 => Verb.stuck
  | fuel + 1 => do
    let head ← head
    match ← already req rec head with
    | some (main, ok) => return (.already main ok, none)
    | none =>
      match ← plan head with
      | (.done t, x) => return (.done t, some x)
      | (.apply ok ops, x) =>
        -- A refused telemetry transaction, and a pass that found nothing, store nothing.
        if ops.isEmpty && (!rec.idempotent || (!ok && !rec.audited)) then
          return (.nothing head, some x)
        else do
          let staged ← build req rec ok ops head
          pureCheck (checkBytes (rec.compareBytes + stagedBytes cfg staged))
          match ← commit author ok head staged with
          | .ok rev => return (.applied rev ok, some x)
          | .error (.stale _ _) => engine cfg author req rec plan fuel
          | .error e => throw (.backend e)

/-! ## Expiry -/

/-- The keys of `chunk` still due at `now`: those to delete, and those that are gone or marked. -/
def sortDue (now head : ℕ) : List String → Run P (List String × List String)
  | [] => return ([], [])
  | k :: ks => do
    if ← isDue k now then
      let i ← read k head
      let (planned, settled) ← sortDue now head ks
      match i with
      | some i =>
        if i.value.metadata.deletionTimestamp.isNone then return (k :: planned, settled)
        else return (planned, k :: settled)
      | none => return (planned, k :: settled)
    else sortDue now head ks

def gcRequest (kind : String) : Request P := ⟨"", "gc", kind, none⟩

/-- Consecutive parts of at most `n` elements. -/
def chunks {α : Type} (n : ℕ) (l : List α) : List (List α) :=
  (List.range ((l.length + n - 1) / n)).map fun i ↦ (l.drop (i * n)).take n

/-- What a pass does with each part, one after the other. -/
def eachChunk (f : List String → Run P (List String)) : List (List String) → Run P (List String)
  | [] => return []
  | c :: cs => do
    let done ← f c
    let rest ← eachChunk f cs
    return done ++ rest

def expireChunk (cfg : Config P) (fuel now : ℕ) (chunk : List String) : Run P (List String) := do
  let (_, x) ← engine (T := Empty) cfg .expire (gcRequest "gc.expire") ⟨false, false, 0⟩
    (fun head ↦ do
      let (planned, settled) ← sortDue now head chunk
      return (.apply true (planned.map .delete), planned, settled)) fuel
  let (planned, settled) := x.getD ([], [])
  dropDeadlines now settled
  return planned

/-- Deletes the keys still due at `now` in transactions that write no audit record.  A key marked
for deletion is left to its finalizers. -/
def expire (cfg : Config P) (fuel now : ℕ) (keys : List String) : Run P (List String) :=
  eachChunk (expireChunk cfg fuel now) (chunks maxTxnOps keys)

def deadLocks : List String → Run P (List String)
  | [] => return []
  | k :: ks => do
    if (← get k).isSome then
      if ← live k then deadLocks ks
      else
        let rest ← deadLocks ks
        return k :: rest
    else deadLocks ks

/-- Deletes each lock in `keys` that is present but past its TTL, so the request can take it.  A
retry skips it: its outcome is the original's. -/
def expireDeadLocks (cfg : Config P) (fuel : ℕ) (keys : List String) (req : Request P) :
    Run P Unit := do
  if keys.isEmpty then return
  else if (← get (requestKey req.id)).isSome then return
  else do
    let dead ← deadLocks keys
    if dead.isEmpty then return
    else do
      let now ← nowMs
      let _ ← expire cfg fuel now dead
      return

/-! ## Compares -/

section Compares

variable [DecidableEq P]

/-- A compare at `head`.  A lock past its TTL reads as absent. -/
def compareHolds (head : ℕ) (c : Compare P) : Run P Bool := do
  let cur ← read c.key head
  match c, cur with
  | .modRev _ want, cur => return cur.map (·.modRev) == want
  | .createRev _ want, none => return want == none
  | .createRev k want, some i =>
    if !starts locksPrefix k then return some i.createRev == want
    else if ← live k then return some i.createRev == want
    else return want == none
  | .value _ want, cur => return cur.map (·.value) == want
  | .lockCheck _ _, none => return false
  | .lockCheck key token, some i => if ← live key then return i.createRev == token else return false

def holds (head : ℕ) : List (Compare P) → Run P Bool
  | [] => return true
  | c :: cs => do if ← compareHolds head c then holds head cs else return false

def locksFree (head : ℕ) : List String → Run P Bool
  | [] => return true
  | k :: ks => do if (← read k head).isSome then return false else locksFree head ks

/-- Whether `t` runs its then-branch at `head`: its compares hold and every lock it takes is
free. -/
def takesThen (t : TxnOps P) (head : ℕ) : Run P Bool := do
  if ← holds head t.compares then locksFree head t.lockKeys else return false

end Compares

/-! ## The verbs -/

structure Created where
  modRev : Rev
  /-- The key already held an equal value; nothing was written. -/
  existed : Bool
  deriving DecidableEq, Repr

structure TxnResult where
  /-- The transaction's revision; for a refusal that stored nothing, the head it was judged at. -/
  rev : ℕ
  succeeded : Bool
  /-- A retry of a request already committed: `rev` and `succeeded` are the original's. -/
  alreadyApplied : Bool
  /-- One per lock taken, in op order; empty unless `succeeded`. -/
  fences : List Fence
  deriving DecidableEq, Repr

inductive Deleted
  | removed (rev : ℕ)
  /-- Finalizers remain: the key is marked. -/
  | pending (rev : ℕ)
  deriving DecidableEq, Repr

section Verbs

variable [DecidableEq P] (cfg : Config P) (fuel : ℕ)

def create (key : String) (value : Object P) (req : Request P) : Run P Created := do
  let t : TxnOps P := { compares := [.modRev key none], ops := [.put key value] }
  pureCheck (validate t.ops false)
  let rec_ : Record := ⟨audited [key], true, compareBytes cfg t.compares⟩
  pureCheck (checkLimits t rec_.bookkeeping)
  let (out, _) ← engine cfg (.call (.create key value req)) req rec_
    (fun head ↦ do
      match ← read key head with
      | some cur =>
        if cur.value = value then return (.done (⟨cur.modRev, true⟩ : Created), ())
        else throw (.conflict key cur)
      | none => return (.apply true t.ops, ())) fuel
  match out with
  | .done c => return c
  | .applied rev _ | .already rev _ | .nothing rev => return ⟨⟨rev, 0⟩, false⟩

/-- The lock's token in the audit record: its `createRev`. -/
def fenceOf (main : ℕ) (subs : List Sub) (key : String) : Except (Error P) Fence :=
  match subs.find? (·.key = key) with
  | some s => .ok ⟨String.ofList (key.toList.drop locksPrefix.length), ⟨main, s.sub⟩⟩
  | none => .error (.backend (.backend (eventsKey main ++ " records no sub for " ++ key)))

def Data.subs : Data P → List Sub
  | .event r => r.subs
  | _ => []

/-- The fences of the locks the transaction at `main` took, from its audit record. -/
def fencesAt (locks : List String) (main : ℕ) : Run P (List Fence) :=
  if locks.isEmpty then return []
  else do
    match ← get (eventsKey main) with
    | none => throw (.backend (.backend (eventsKey main ++ " is missing")))
    | some ev => pureCheck (locks.mapM (fenceOf main (Data.subs ev.value.data)))

def checkLockTtl (ttlMs : ℕ) : Except (Error P) Unit :=
  if ttlMs < cfg.minLockTtlMs then .error (.lockTtlBelowMinimum cfg.minLockTtlMs ttlMs)
  else .ok ()

/-- Every TTL of a lock the branch takes is long enough. -/
def checkLockTtls (ops : List (Op P)) : Except (Error P) Unit :=
  ops.forM fun
    | .lockAcquire _ ttlMs => checkLockTtl cfg ttlMs
    | _ => .ok ()

def TxnResult.ofOutcome : Outcome Empty → ℕ × Bool × Bool
  | .applied rev ok => (rev, ok, false)
  | .already rev ok => (rev, ok, true)
  | .nothing head => (head, false, false)

def txn (t : TxnOps P) (req : Request P) : Run P TxnResult := do
  pureCheck (validate t.ops true)
  pureCheck (validate t.elseOps false)
  pureCheck (checkLockTtls cfg t.ops)
  let rec_ : Record :=
    ⟨audited ((t.ops ++ t.elseOps).map Op.key), true, compareBytes cfg t.compares⟩
  pureCheck (checkLimits t rec_.bookkeeping)
  let locks := t.lockKeys
  expireDeadLocks cfg fuel locks req
  let (out, _) ← engine cfg (.call (.txn t req)) req rec_
    (fun head ↦ do
      let ok ← takesThen t head
      return (.apply ok (if ok then t.ops else t.elseOps), ())) fuel
  let (rev, succeeded, alreadyApplied) := TxnResult.ofOutcome out
  let fences ← if succeeded then fencesAt locks rev else pure []
  return ⟨rev, succeeded, alreadyApplied, fences⟩

/-- Removes the key, or marks it while it has finalizers. -/
def delete (key : String) (expect : Option Rev) (req : Request P) : Run P Deleted := do
  let t : TxnOps P := { ops := [.delete key] }
  pureCheck (validate t.ops false)
  let rec_ : Record := ⟨audited [key], true, 0⟩
  pureCheck (checkLimits t rec_.bookkeeping)
  let (out, _) ← engine (T := Empty) cfg (.call (.delete key expect req)) req rec_
    (fun head ↦ do
      match ← read key head with
      | none => throw (.notFound key)
      | some cur =>
        match expect with
        | some e =>
          if e ≠ cur.modRev then throw (.revMismatch key e cur.modRev)
          else return (.apply true t.ops, ())
        | none => return (.apply true t.ops, ())) fuel
  let (rev, at_) ←
    match out with
    | .applied rev _ => pure (rev, rev)
    | .already rev _ => do pure (rev, ← head)
    | .nothing head => pure (head, head)
  return if (← read key at_).isSome then .pending rev else .removed rev

/-- The lock on `resource`, whose `createRev` is the fencing token. -/
def lock (resource : String) (ttlMs : ℕ) (req : Request P) : Run P Fence := do
  pureCheck (checkLockTtl cfg ttlMs)
  let key := lockKey resource
  expireDeadLocks cfg fuel [key] req
  let (out, _) ← engine (T := Empty) cfg (.call (.lock resource ttlMs req)) req ⟨true, true, 0⟩
    (fun head ↦ do
      match ← read key head with
      | some cur => throw (.locked resource cur.createRev)
      | none => return (.apply true [.put key (lockValue ttlMs)], ())) fuel
  match out with
  | .applied rev _ | .already rev _ => return ⟨resource, ⟨rev, 0⟩⟩
  | .nothing _ => throw (.lockLost resource)

/-- A holder's write to its own lock: a renew, under a new TTL when it names one, or a release. -/
inductive HolderWrite
  | renew (ttlMs : Option ℕ)
  | release
  deriving DecidableEq, Repr

/-- Whether the fence's lock is held under its token, and live unless it is being released. -/
def held (f : Fence) (write : HolderWrite) (head : ℕ) : Run P (Option (Item P)) := do
  match ← read f.key head with
  | none => return none
  | some cur =>
    if cur.createRev ≠ f.token then return none
    else if write = .release then return some cur
    else if ← live f.key then return some cur
    else return none

def holderWrite (call : Call P) (f : Fence) (req : Request P) (write : HolderWrite) :
    Run P Unit := do
  let _ ← engine (T := Empty) cfg (.call call) req ⟨true, true, 0⟩
    (fun head ↦ do
      match ← held f write head with
      | none => throw (.lockLost f.resource)
      | some cur =>
        let op : Op P :=
          match write with
          | .renew (some ttlMs) => .put f.key (lockValue ttlMs)
          | .renew none => .put f.key cur.value
          | .release => .delete f.key
        return (.apply true [op], ())) fuel
  return

/-- Restarts the lock's TTL. -/
def renew (f : Fence) (req : Request P) : Run P Unit :=
  holderWrite cfg fuel (.renew f req) f req (.renew none)

/-- Restarts the lock under a new TTL, keeping its token. -/
def renewFor (f : Fence) (ttlMs : ℕ) (req : Request P) : Run P Unit := do
  pureCheck (checkLockTtl cfg ttlMs)
  holderWrite cfg fuel (.renewFor f ttlMs req) f req (.renew (some ttlMs))

def release (f : Fence) (req : Request P) : Run P Unit :=
  holderWrite cfg fuel (.release f req) f req .release

end Verbs

/-! ## The controller -/

section Tick

variable (cfg : Config P) (fuel : ℕ)

/-- The keys of `chunk` that `still` holds for at `head`. -/
def stillHeld (still : Item P → ℕ → Run P Bool) (head : ℕ) : List String → Run P (List String)
  | [] => return []
  | k :: ks => do
    match ← read k head with
    | none => stillHeld still head ks
    | some i => do
      let h ← still i head
      let rest ← stillHeld still head ks
      return if h then k :: rest else rest

/-- Deletes each key `still` holds for at the commit's head; audited, because collecting is an
act. -/
def collect (kind : CollectKind) (still : Item P → ℕ → Run P Bool) (keys : List String) :
    Run P (List String) :=
  eachChunk (fun chunk ↦ do
    let (_, x) ← engine (T := Empty) cfg (.collect kind) (gcRequest kind.text)
      ⟨audited chunk, false, 0⟩
      (fun head ↦ do
        let planned ← stillHeld still head chunk
        return (.apply true (planned.map .delete), planned)) fuel
    return x.getD []) (chunks (maxTxnOps - 1) keys)

def finalized (i : Item P) : Bool :=
  i.value.metadata.deletionTimestamp.isSome && i.value.metadata.finalizers.isEmpty

/-- None of the owners is alive. -/
def noneAlive (alive : String → Run P Bool) : List String → Run P Bool
  | [] => return true
  | o :: os => do if ← alive o then return false else noneAlive alive os

def orphan (alive : String → Run P Bool) (i : Item P) : Run P Bool :=
  if i.value.metadata.ownerReferences.isEmpty || i.value.metadata.deletionTimestamp.isSome then
    return false
  else noneAlive alive i.value.metadata.ownerReferences

def existsAt (key : String) (head : ℕ) : Run P Bool := return (← read key head).isSome

/-- The items from `after` on, page by page. -/
def gcPages (head : ℕ) : ℕ → Option String → Run P (List (Item P))
  | 0, _ => Verb.stuck
  | fuel + 1, after => do
    let items ← gcPage after head
    if items.length < page then return items
    else return items ++ (← gcPages head fuel (items.getLast?.map (·.key)))

/-- Every key but the audit history, from one snapshot. -/
def gcItems : Run P (List (Item P)) := do gcPages (← head) fuel none

/-- Those of `items` that `keep` holds for. -/
def filterItems (keep : Item P → Run P Bool) : List (Item P) → Run P (List (Item P))
  | [] => return []
  | i :: is => do if ← keep i then return i :: (← filterItems keep is) else filterItems keep is

structure Tick where
  finalized : List String
  orphans : List String
  expired : List String
  deriving DecidableEq, Repr

/-- Removes finalized keys, collects orphans and expires keys whose TTL has run out. -/
def tick (nowMs : ℕ) : Run P Tick := do
  let items ← gcItems fuel
  let ready := (items.filter finalized).map (·.key)
  let done ← collect cfg fuel .finalize (fun i _ ↦ return finalized i) ready
  let present := items.map (·.key)
  let candidates ← filterItems (orphan fun o ↦ return o ∈ present && o ∉ done) items
  let orphans ← collect cfg fuel .orphan (fun i head ↦ orphan (existsAt · head) i)
    (candidates.map (·.key))
  let due ← due nowMs
  let expired ← expire cfg fuel nowMs due
  return ⟨done, orphans, expired⟩

end Tick

/-! ## Any number of callers -/

inductive Answer
  | created (c : Created)
  | txn (r : TxnResult)
  | deleted (d : Deleted)
  | locked (f : Fence)
  | written
  | tick (t : Tick)
  deriving DecidableEq, Repr

section Call

variable [DecidableEq P] (cfg : Config P) (fuel : ℕ)

/-- The program of a call. -/
def call : Call P → Run P Answer
  | .create key value req => do return .created (← create cfg fuel key value req)
  | .txn t req => do return .txn (← txn cfg fuel t req)
  | .delete key expect req => do return .deleted (← delete cfg fuel key expect req)
  | .lock resource ttlMs req => do return .locked (← lock cfg fuel resource ttlMs req)
  | .renew f req => do
    renew cfg fuel f req
    return .written
  | .renewFor f ttlMs req => do
    renewFor cfg fuel f ttlMs req
    return .written
  | .release f req => do
    release cfg fuel f req
    return .written
  | .tick lag => do
    let now ← nowMs
    return .tick (← tick cfg fuel (now - lag))

/-- The store from its first opening on, under any number of callers that take turns in any order,
while the clocks, the backend's failures and its compactions move as they like, and the process is
now and then started anew. -/
abbrev runs (turns : List (Turn Env ℕ (Call P))) :
    Pool (World P) (Except (Error P) Answer) (Call P) :=
  Pool.run World.env World.reopen (call cfg fuel) (World.init P) turns

end Call

end Contract

end Spira.Store
