import Spira.Lib.Form

/-!
# The wire

The calls a remote client makes of the contract and their answers, as JSON.  An answer is an exit
code and one object: 0 `{"ok": …}`, 3 `{"error": …}` and 2 `{"cannot_tell": …}`; a failure of the
backend is "cannot tell", never a refusal.

What is sent arrives (`wire_round_trip`), up to the two things the reader of the texts does not
hold to: data that nests too deep makes a text it refuses, and a float in the data may be read as
the one beside it.
-/

set_option autoImplicit false

namespace Spira.Store.Wire

open Form (Shallow Exact)

/-! ## Values -/

structure Rev where
  main : UInt64
  sub : UInt32
  deriving DecidableEq, Repr

def Rev.form : Form Rev :=
  .record (.cons (.required "main" .u64) (.cons (.required "sub" .u32) .nil))
    ⟨fun r ↦ (r.main, r.sub, ()), fun (main, sub, ()) ↦ ⟨main, sub⟩, fun _ ↦ rfl, fun _ ↦ rfl⟩
    (by decide)

structure Meta where
  finalizers : List String
  ownerReferences : List String
  deletionTimestamp : Option UInt64
  ttlSecs : Option UInt64
  deriving DecidableEq, Repr

def Meta.default : Meta := ⟨[], [], none, none⟩

def optionU64 : Form (Option UInt64) := .option .u64 fun _ ↦ nofun

def Meta.form : Form Meta :=
  .record
    (.cons (.unlessEmpty "finalizers" (.list .string))
      (.cons (.unlessEmpty "ownerReferences" (.list .string))
        (.cons (.unlessNone "deletionTimestamp" optionU64)
          (.cons (.unlessNone "ttl_secs" optionU64) .nil))))
    ⟨fun m ↦ (m.finalizers, m.ownerReferences, m.deletionTimestamp, m.ttlSecs, ()),
      fun (f, o, d, t, ()) ↦ ⟨f, o, d, t⟩, fun _ ↦ rfl, fun _ ↦ rfl⟩
    (by decide)

structure Object where
  metadata : Meta
  data : Json
  deriving DecidableEq, Repr

def Object.form : Form Object :=
  .record
    (.cons (.orDefault "metadata" Meta.form Meta.default)
      (.cons (.orDefault "data" .json .null) .nil))
    ⟨fun o ↦ (o.metadata, o.data, ()), fun (m, d, ()) ↦ ⟨m, d⟩, fun _ ↦ rfl, fun _ ↦ rfl⟩
    (by decide)

structure Item where
  key : String
  value : Object
  modRev : Rev
  createRev : Rev
  lockExpiresAtMs : Option UInt64
  deriving DecidableEq, Repr

def Item.form : Form Item :=
  .record
    (.cons (.required "key" .string)
      (.cons (.required "value" Object.form)
        (.cons (.required "mod_rev" Rev.form)
          (.cons (.required "create_rev" Rev.form)
            (.cons (.optional "lock_expires_at_ms" optionU64) .nil)))))
    ⟨fun i ↦ (i.key, i.value, i.modRev, i.createRev, i.lockExpiresAtMs, ()),
      fun (k, v, m, c, l, ()) ↦ ⟨k, v, m, c, l⟩, fun _ ↦ rfl, fun _ ↦ rfl⟩
    (by decide)

/-- Each limit of the store's largest deployment, named in the refusal. -/
inductive Limit
  | ops (max got : UInt64)
  | compares (max got : UInt64)
  | requestBytes (max got : UInt64)
  | duplicateKey (key : String)
  deriving DecidableEq, Repr

/-- How many there may be and how many there are. -/
def maxGot : Form (UInt64 × UInt64) := .two "max" "got" .u64 .u64 (by decide)

def Limit.form : Form Limit :=
  .choice
    [.of "ops" maxGot (fun (m, g) ↦ .ops m g)
        (fun | .ops m g => some (m, g) | _ => none)
        (by rintro ⟨⟩ _ <;> simp [Prod.ext_iff]),
      .of "compares" maxGot (fun (m, g) ↦ .compares m g)
        (fun | .compares m g => some (m, g) | _ => none)
        (by rintro ⟨⟩ _ <;> simp [Prod.ext_iff]),
      .of "request_bytes" maxGot (fun (m, g) ↦ .requestBytes m g)
        (fun | .requestBytes m g => some (m, g) | _ => none)
        (by rintro ⟨⟩ _ <;> simp [Prod.ext_iff]),
      .of "duplicate_key" (.one "key" .string) .duplicateKey
        (fun | .duplicateKey k => some k | _ => none)
        (by rintro ⟨⟩ _ <;> simp)]
    (by decide) (by rintro ⟨⟩ <;> rfl)

inductive Error
  /-- `create` found the key holding a different value. -/
  | conflict (key : String) (existing : Item)
  | notFound (key : String)
  /-- `delete`'s expected revision is not the key's. -/
  | revMismatch (key : String) (expected actual : Rev)
  | limit (l : Limit)
  | ttlRequired (key : String)
  /-- `ttlSecs` on a key outside the prefixes whose keys expire. -/
  | ttlNotAllowed (key : String)
  /-- Caller writes may not touch the contract's own prefixes. -/
  | reservedKey (key : String)
  /-- The revision asked for has been compacted away. -/
  | tooOld (compacted : UInt64)
  /-- A read at a revision the store has not reached. -/
  | futureRev (rev head : UInt64)
  | locked (resource : String) (token : Rev)
  /-- The fence's lock expired or is held under another token. -/
  | lockLost (resource : String)
  | lockTtlBelowMinimum (minMs gotMs : UInt64)
  | waitTooLong (maxMs gotMs : UInt64)
  /-- `commit`'s guard: the head moved since the batch was read. -/
  | stale (expected head : UInt64)
  | backend (text : String)
  deriving DecidableEq, Repr

def Error.form : Form Error :=
  .choice
    [.of "conflict" (.two "key" "existing" .string Item.form (by decide))
        (fun (k, i) ↦ .conflict k i) (fun | .conflict k i => some (k, i) | _ => none)
        (by rintro ⟨⟩ _ <;> simp [Prod.ext_iff]),
      .of "not_found" (.one "key" .string) .notFound
        (fun | .notFound k => some k | _ => none) (by rintro ⟨⟩ _ <;> simp),
      .of "rev_mismatch"
        (.record
          (.cons (.required "key" .string)
            (.cons (.required "expected" Rev.form) (.cons (.required "actual" Rev.form) .nil)))
          (.refl _) (by decide))
        (fun (k, e, a, ()) ↦ .revMismatch k e a)
        (fun | .revMismatch k e a => some (k, e, a, ()) | _ => none)
        (by rintro ⟨⟩ _ <;> simp [Prod.ext_iff]),
      .of "limit" Limit.form .limit (fun | .limit l => some l | _ => none)
        (by rintro ⟨⟩ _ <;> simp),
      .of "ttl_required" (.one "key" .string) .ttlRequired
        (fun | .ttlRequired k => some k | _ => none) (by rintro ⟨⟩ _ <;> simp),
      .of "ttl_not_allowed" (.one "key" .string) .ttlNotAllowed
        (fun | .ttlNotAllowed k => some k | _ => none) (by rintro ⟨⟩ _ <;> simp),
      .of "reserved_key" (.one "key" .string) .reservedKey
        (fun | .reservedKey k => some k | _ => none) (by rintro ⟨⟩ _ <;> simp),
      .of "too_old" (.one "compacted" .u64) .tooOld
        (fun | .tooOld c => some c | _ => none) (by rintro ⟨⟩ _ <;> simp),
      .of "future_rev" (.two "rev" "head" .u64 .u64 (by decide)) (fun (r, h) ↦ .futureRev r h)
        (fun | .futureRev r h => some (r, h) | _ => none)
        (by rintro ⟨⟩ _ <;> simp [Prod.ext_iff]),
      .of "locked" (.two "resource" "token" .string Rev.form (by decide))
        (fun (r, t) ↦ .locked r t) (fun | .locked r t => some (r, t) | _ => none)
        (by rintro ⟨⟩ _ <;> simp [Prod.ext_iff]),
      .of "lock_lost" (.one "resource" .string) .lockLost
        (fun | .lockLost r => some r | _ => none) (by rintro ⟨⟩ _ <;> simp),
      .of "lock_ttl_below_minimum" (.two "min_ms" "got_ms" .u64 .u64 (by decide))
        (fun (m, g) ↦ .lockTtlBelowMinimum m g)
        (fun | .lockTtlBelowMinimum m g => some (m, g) | _ => none)
        (by rintro ⟨⟩ _ <;> simp [Prod.ext_iff]),
      .of "wait_too_long" (.two "max_ms" "got_ms" .u64 .u64 (by decide))
        (fun (m, g) ↦ .waitTooLong m g) (fun | .waitTooLong m g => some (m, g) | _ => none)
        (by rintro ⟨⟩ _ <;> simp [Prod.ext_iff]),
      .of "stale" (.two "expected" "head" .u64 .u64 (by decide)) (fun (e, h) ↦ .stale e h)
        (fun | .stale e h => some (e, h) | _ => none)
        (by rintro ⟨⟩ _ <;> simp [Prod.ext_iff]),
      .of "backend" .string .backend (fun | .backend t => some t | _ => none)
        (by rintro ⟨⟩ _ <;> simp)]
    (by decide) (by rintro ⟨⟩ <;> rfl)

/-! ## Requests -/

/-- Every mutating call carries one: its id makes a retry idempotent, and the rest is the audit
record. -/
structure Request where
  id : String
  actor : String
  kind : String
  evidence : Json
  deriving DecidableEq, Repr

def Request.form : Form Request :=
  .record
    (.cons (.required "id" .string)
      (.cons (.required "actor" .string)
        (.cons (.required "kind" .string) (.cons (.orDefault "evidence" .json .null) .nil))))
    ⟨fun r ↦ (r.id, r.actor, r.kind, r.evidence, ()), fun (i, a, k, e, ()) ↦ ⟨i, a, k, e⟩,
      fun _ ↦ rfl, fun _ ↦ rfl⟩
    (by decide)

def optionRev : Form (Option Rev) := .option Rev.form fun _ ↦ nofun

def optionObject : Form (Option Object) := .option Object.form fun _ ↦ nofun

/-- Equality compares; `none` means the key is absent. -/
inductive Compare
  | modRev (key : String) (want : Option Rev)
  | createRev (key : String) (want : Option Rev)
  | value (key : String) (want : Option Object)
  /-- The lock at `key` is live and held under `token`. -/
  | lockCheck (key : String) (token : Rev)
  deriving DecidableEq, Repr

def Compare.form : Form Compare :=
  .choice
    [.of "mod_rev" (.pair .string optionRev) (fun (k, w) ↦ .modRev k w)
        (fun | .modRev k w => some (k, w) | _ => none)
        (by rintro ⟨⟩ _ <;> simp [Prod.ext_iff]),
      .of "create_rev" (.pair .string optionRev) (fun (k, w) ↦ .createRev k w)
        (fun | .createRev k w => some (k, w) | _ => none)
        (by rintro ⟨⟩ _ <;> simp [Prod.ext_iff]),
      .of "value" (.pair .string optionObject) (fun (k, w) ↦ .value k w)
        (fun | .value k w => some (k, w) | _ => none)
        (by rintro ⟨⟩ _ <;> simp [Prod.ext_iff]),
      .of "lock_check" (.two "key" "token" .string Rev.form (by decide))
        (fun (k, t) ↦ .lockCheck k t) (fun | .lockCheck k t => some (k, t) | _ => none)
        (by rintro ⟨⟩ _ <;> simp [Prod.ext_iff])]
    (by decide) (by rintro ⟨⟩ <;> rfl)

inductive Op
  | put (key : String) (value : Object)
  /-- Marks the key for deletion instead while it has finalizers. -/
  | delete (key : String)
  /-- Takes the lock at `key` in the transaction's own commit. -/
  | lockAcquire (key : String) (ttlMs : UInt64)
  deriving DecidableEq, Repr

def Op.form : Form Op :=
  .choice
    [.of "put" (.pair .string Object.form) (fun (k, v) ↦ .put k v)
        (fun | .put k v => some (k, v) | _ => none) (by rintro ⟨⟩ _ <;> simp [Prod.ext_iff]),
      .of "delete" .string .delete (fun | .delete k => some k | _ => none)
        (by rintro ⟨⟩ _ <;> simp),
      .of "lock_acquire" (.two "key" "ttl_ms" .string .u64 (by decide))
        (fun (k, t) ↦ .lockAcquire k t) (fun | .lockAcquire k t => some (k, t) | _ => none)
        (by rintro ⟨⟩ _ <;> simp [Prod.ext_iff])]
    (by decide) (by rintro ⟨⟩ <;> rfl)

structure Txn where
  compares : List Compare
  ops : List Op
  elseOps : List Op
  deriving DecidableEq, Repr

def Txn.form : Form Txn :=
  .record
    (.cons (.required "compares" (.list Compare.form))
      (.cons (.required "ops" (.list Op.form))
        (.cons (.required "else_ops" (.list Op.form)) .nil)))
    ⟨fun t ↦ (t.compares, t.ops, t.elseOps, ()), fun (c, o, e, ()) ↦ ⟨c, o, e⟩, fun _ ↦ rfl,
      fun _ ↦ rfl⟩
    (by decide)

/-- A lock holder's proof: the lock's `createRev` is the token. -/
structure Fence where
  resource : String
  token : Rev
  deriving DecidableEq, Repr

def Fence.form : Form Fence :=
  .record (.cons (.required "resource" .string) (.cons (.required "token" Rev.form) .nil))
    ⟨fun f ↦ (f.resource, f.token, ()), fun (r, t, ()) ↦ ⟨r, t⟩, fun _ ↦ rfl, fun _ ↦ rfl⟩
    (by decide)

structure TxnResult where
  rev : UInt64
  succeeded : Bool
  alreadyApplied : Bool
  fences : List Fence
  deriving DecidableEq, Repr

def TxnResult.form : Form TxnResult :=
  .record
    (.cons (.required "rev" .u64)
      (.cons (.required "succeeded" .bool)
        (.cons (.required "already_applied" .bool)
          (.cons (.required "fences" (.list Fence.form)) .nil))))
    ⟨fun r ↦ (r.rev, r.succeeded, r.alreadyApplied, r.fences, ()),
      fun (r, s, a, f, ()) ↦ ⟨r, s, a, f⟩, fun _ ↦ rfl, fun _ ↦ rfl⟩
    (by decide)

inductive Selector
  | everything
  /-- The value at this JSON pointer into `data` equals this. -/
  | eq (ptr : String) (want : Json)
  deriving DecidableEq, Repr

def Selector.form : Form Selector :=
  .choice
    [.unit "everything" .everything (· = .everything) fun _ ↦ decide_eq_true_iff,
      .of "eq" (.pair .string .json) (fun (p, w) ↦ .eq p w)
        (fun | .eq p w => some (p, w) | _ => none) (by rintro ⟨⟩ _ <;> simp [Prod.ext_iff])]
    (by decide) (by rintro ⟨⟩ <;> rfl)

/-! ## Calls -/

/-- The calls, by the word that names each on a command line. -/
inductive Verb
  | get
  | list
  | txn
  | lock
  | renew
  | release
  deriving DecidableEq, Repr

namespace Verb

def all : List Verb := [get, list, txn, lock, renew, release]

def word : Verb → String
  | get => "get"
  | list => "list"
  | txn => "txn"
  | lock => "lock"
  | renew => "renew"
  | release => "release"

def fromWord (w : String) : Option Verb := all.find? (·.word = w)

theorem fromWord_word (v : Verb) : fromWord v.word = some v := by cases v <;> decide

end Verb

structure Get where
  key : String
  deriving DecidableEq, Repr

def Get.form : Form Get :=
  .record (.cons (.required "key" .string) .nil)
    ⟨fun g ↦ (g.key, ()), fun (k, ()) ↦ ⟨k⟩, fun _ ↦ rfl, fun _ ↦ rfl⟩ (by decide)

structure ListCall where
  prefixes : List String
  selector : Selector
  /-- When given, only the items whose state is one of these. -/
  states : List String
  /-- With `states`: the most items the answer may hold. -/
  limit : Option UInt64
  deriving DecidableEq, Repr

def ListCall.form : Form ListCall :=
  .record
    (.cons (.required "prefixes" (.list .string))
      (.cons (.required "selector" Selector.form)
        (.cons (.unlessEmpty "states" (.list .string))
          (.cons (.unlessNone "limit" optionU64) .nil))))
    ⟨fun c ↦ (c.prefixes, c.selector, c.states, c.limit, ()),
      fun (p, s, t, l, ()) ↦ ⟨p, s, t, l⟩, fun _ ↦ rfl, fun _ ↦ rfl⟩
    (by decide)

structure TxnCall where
  txn : Txn
  request : Request
  deriving DecidableEq, Repr

def TxnCall.form : Form TxnCall :=
  .record (.cons (.required "txn" Txn.form) (.cons (.required "request" Request.form) .nil))
    ⟨fun c ↦ (c.txn, c.request, ()), fun (t, r, ()) ↦ ⟨t, r⟩, fun _ ↦ rfl, fun _ ↦ rfl⟩
    (by decide)

structure Lock where
  resource : String
  ttlMs : UInt64
  request : Request
  deriving DecidableEq, Repr

def Lock.form : Form Lock :=
  .record
    (.cons (.required "resource" .string)
      (.cons (.required "ttl_ms" .u64) (.cons (.required "request" Request.form) .nil)))
    ⟨fun l ↦ (l.resource, l.ttlMs, l.request, ()), fun (r, t, q, ()) ↦ ⟨r, t, q⟩, fun _ ↦ rfl,
      fun _ ↦ rfl⟩
    (by decide)

/-- `renew` and `release`: the holder's fence. -/
structure Fenced where
  fence : Fence
  request : Request
  deriving DecidableEq, Repr

def Fenced.form : Form Fenced :=
  .record (.cons (.required "fence" Fence.form) (.cons (.required "request" Request.form) .nil))
    ⟨fun c ↦ (c.fence, c.request, ()), fun (f, r, ()) ↦ ⟨f, r⟩, fun _ ↦ rfl, fun _ ↦ rfl⟩
    (by decide)

/-- `list`'s answer. -/
structure Listed where
  items : List Item
  listRev : UInt64
  deriving DecidableEq, Repr

def Listed.form : Form Listed :=
  .record (.cons (.required "items" (.list Item.form)) (.cons (.required "list_rev" .u64) .nil))
    ⟨fun l ↦ (l.items, l.listRev, ()), fun (i, r, ()) ↦ ⟨i, r⟩, fun _ ↦ rfl, fun _ ↦ rfl⟩
    (by decide)

/-- What each call sends. -/
def Verb.Body : Verb → Type
  | .get => Get
  | .list => ListCall
  | .txn => TxnCall
  | .lock => Lock
  | .renew | .release => Fenced

def Verb.body : (v : Verb) → Form v.Body
  | .get => Get.form
  | .list => ListCall.form
  | .txn => TxnCall.form
  | .lock => Lock.form
  | .renew | .release => Fenced.form

/-- What each call answers. -/
def Verb.Answer : Verb → Type
  | .get => Option Item
  | .list => Listed
  | .txn => TxnResult
  | .lock => Fence
  | .renew | .release => Unit

def Verb.answer : (v : Verb) → Form v.Answer
  | .get => .option Item.form fun _ ↦ nofun
  | .list => Listed.form
  | .txn => TxnResult.form
  | .lock => Fence.form
  | .renew | .release => .unit

/-! ## Answers -/

def exitOk : ℤ := 0
def exitCannotTell : ℤ := 2
def exitRefused : ℤ := 3

section Answers

variable (codec : Json.Codec) {A : Type} (F : Form A)

def text (v : Json) : String := .ofList (codec.print v)

def ok (a : A) : ℤ × String := (exitOk, text codec (.obj [("ok", F.write a)]))

def cannotTell (reason : String) : ℤ × String :=
  (exitCannotTell, text codec (.obj [("cannot_tell", .str reason)]))

def refused : Error → ℤ × String
  | .backend why => cannotTell codec why
  | e => (exitRefused, text codec (.obj [("error", Error.form.write e)]))

def answer : Except Error A → ℤ × String
  | .ok a => ok codec F a
  | .error e => refused codec e

/-- An entry of the object an exit code came with. -/
def fieldOf (code : ℤ) (v : Json) (name : String) : Except Error Json :=
  match v.get name with
  | some w => .ok w
  | none => .error (.backend ("exit " ++ toString code ++ " without " ++ name.quote ++ ": " ++
      text codec v))

def undecodable (code : ℤ) (v : Json) (e : String) : Error :=
  .backend ("exit " ++ toString code ++ ": " ++ e ++ ": " ++ text codec v)

/-- The answer an exit code and a value carry. -/
def answerOf (code : ℤ) (v : Json) : Except Error A := do
  if code = exitOk then
    (F.read (← fieldOf codec code v "ok")).mapError (undecodable codec code v)
  else if code = exitRefused then
    throw (← (Error.form.read (← fieldOf codec code v "error")).mapError (undecodable codec code v))
  else if code = exitCannotTell then
    match ← fieldOf codec code v "cannot_tell" with
    | .str s => throw (.backend s)
    | other => throw (.backend (text codec other))
  else
    throw (.backend ("exit " ++ toString code ++ ": " ++ text codec v))

/-- The answer an exit code and its output carry.  Anything but a well-formed `ok` or `error` is
`backend`, carrying the text, so nothing unreadable passes for an answer. -/
def decode (code : ℤ) (stdout : String) : Except Error A :=
  match codec.parse (Text.trim stdout).toList with
  | .ok v => answerOf codec F code v
  | .error e => .error
    (.backend ("exit " ++ toString code ++ ", not JSON (" ++ e ++ "): " ++ Text.trim stdout))

end Answers

/-! ## The data of a message -/

/-- The data of an error, with how deep it stands in the answer. -/
def Error.data : Error → List (ℕ × Json)
  | .conflict _ i => [(5, i.value.data)]
  | _ => []

/-- The data of what a call answers, with how deep it stands in the answer. -/
def Verb.answerData : (v : Verb) → Except Error v.Answer → List (ℕ × Json)
  | _, .error e => e.data
  | .get, .ok i => (i : Option Item).toList.map fun i ↦ (3, i.value.data)
  | .list, .ok l => (l : Listed).items.map fun i ↦ (5, i.value.data)
  | .txn, .ok _ | .lock, .ok _ | .renew, .ok _ | .release, .ok _ => []

def Compare.data : Compare → List (ℕ × Json)
  | .value _ (some o) => [(6, o.data)]
  | _ => []

def Op.data : Op → List (ℕ × Json)
  | .put _ o => [(6, o.data)]
  | _ => []

/-- The data of what a call sends, with how deep it stands there. -/
def Verb.bodyData : (v : Verb) → v.Body → List (ℕ × Json)
  | .get, _ => []
  | .list, c => match (c : ListCall).selector with
    | .eq _ want => [(3, want)]
    | .everything => []
  | .txn, c =>
    (c : TxnCall).txn.compares.flatMap Compare.data ++ c.txn.ops.flatMap Op.data ++
      c.txn.elseOps.flatMap Op.data ++ [(2, c.request.evidence)]
  | .lock, c => [(2, (c : Lock).request.evidence)]
  | .renew, c | .release, c => [(2, (c : Fenced).request.evidence)]

open Form (inside)

theorem Meta.data_form (m : Meta) : Meta.form.data m = [] := by
  have hstrings (l : List String) : (Form.list .string).data l = [] :=
    Form.data_list_nil (fun _ ↦ rfl) l
  have hu64 (n : Option UInt64) : optionU64.data n = [] := by cases n <;> rfl
  show inside (_ ++ (_ ++ (_ ++ (_ ++ [])))) = []
  rw [Form.Field.data_nil hstrings, Form.Field.data_nil hstrings, Form.Field.data_nil hu64,
    Form.Field.data_nil hu64]
  rfl

theorem Object.data_form (o : Object) : Object.form.data o = [(1, o.data)] := by
  show inside (Meta.form.data o.metadata ++ _) = _
  rw [Meta.data_form]
  rfl

theorem Item.data_form (i : Item) : Item.form.data i = [(2, i.value.data)] := by
  show inside ([] ++ (Object.form.data i.value ++ ([] ++ ([] ++ (optionU64.data _ ++ []))))) = _
  rw [Object.data_form]
  cases i.lockExpiresAtMs <;> rfl

theorem Listed.data_form (l : Listed) :
    inside (Listed.form.data l) = l.items.map fun i ↦ (5, i.value.data) := by
  show inside (inside (inside (l.items.flatMap Item.form.data) ++ ([] ++ []))) = _
  rw [funext Item.data_form, ← List.map_eq_flatMap, List.append_nil, List.append_nil]
  simp only [inside, List.map_map]
  rfl

theorem TxnResult.data_form (r : TxnResult) : TxnResult.form.data r = [] := by
  show inside ([] ++ ([] ++ ([] ++ ((Form.list Fence.form).data r.fences ++ [])))) = _
  rw [Form.data_list_nil fun _ ↦ rfl]
  rfl

theorem Error.data_form (e : Error) : inside (Error.form.data e) = e.data := by
  cases e with
  | conflict k i =>
    show inside (inside (inside ([] ++ (Item.form.data i ++ [])))) = _
    rw [Item.data_form]
    rfl
  | limit l => cases l <;> rfl
  | _ => rfl

theorem Verb.data_answer (v : Verb) (a : v.Answer) :
    inside (v.answer.data a) = v.answerData (.ok a) := by
  cases v with
  | get =>
    cases a with
    | none => rfl
    | some i =>
      show inside (Item.form.data i) = _
      rw [Item.data_form]
      rfl
  | list => exact Listed.data_form a
  | txn => exact congrArg inside (TxnResult.data_form a)
  | lock => rfl
  | renew => rfl
  | release => rfl

theorem Selector.data_form (s : Selector) :
    Selector.form.data s = match s with
      | .eq _ want => [(2, want)]
      | .everything => [] := by
  cases s <;> rfl

theorem Compare.data_form (c : Compare) :
    inside (inside (inside (Compare.form.data c))) = c.data := by
  cases c with
  | value k o =>
    cases o with
    | none => rfl
    | some o =>
      show inside (inside (inside (inside (inside ([] ++ Object.form.data o))))) = _
      rw [Object.data_form]
      rfl
  | modRev k r => cases r <;> rfl
  | createRev k r => cases r <;> rfl
  | lockCheck k t => rfl

theorem Op.data_form (o : Op) : inside (inside (inside (Op.form.data o))) = o.data := by
  cases o with
  | put k v =>
    show inside (inside (inside (inside (inside ([] ++ Object.form.data v))))) = _
    rw [Object.data_form]
    rfl
  | delete k => rfl
  | lockAcquire k t => rfl

/-- The data of a list that stands in two objects. -/
theorem data_list {A : Type} {F : Form A} {D : A → List (ℕ × Json)}
    (h : ∀ a, inside (inside (inside (F.data a))) = D a) (l : List A) :
    inside (inside ((Form.list F).data l)) = l.flatMap D := by
  have hstep (G : A → List (ℕ × Json)) : inside (l.flatMap G) = l.flatMap fun a ↦ inside (G a) :=
    List.map_flatMap
  show inside (inside (inside (l.flatMap F.data))) = _
  rw [hstep, hstep, hstep, funext h]

theorem TxnCall.data_form (c : TxnCall) : TxnCall.form.data c =
    c.txn.compares.flatMap Compare.data ++ c.txn.ops.flatMap Op.data ++
      c.txn.elseOps.flatMap Op.data ++ [(2, c.request.evidence)] := by
  have happend (l m : List (ℕ × Json)) : inside (l ++ m) = inside l ++ inside m := List.map_append
  show inside (inside ((Form.list Compare.form).data c.txn.compares ++
    ((Form.list Op.form).data c.txn.ops ++ ((Form.list Op.form).data c.txn.elseOps ++ []))) ++
      (Request.form.data c.request ++ [])) = _
  simp only [List.append_nil, happend]
  rw [data_list Compare.data_form, data_list Op.data_form, data_list Op.data_form]
  simp only [List.append_assoc]
  rfl

theorem Verb.data_body (v : Verb) (b : v.Body) : v.body.data b = v.bodyData b := by
  cases v with
  | get => rfl
  | list =>
    obtain ⟨ps, sel, states, limit⟩ := (b : ListCall)
    have hps (l : List String) : (Form.list .string).data l = [] :=
      Form.data_list_nil (fun _ ↦ rfl) l
    have hlimit (n : Option UInt64) : optionU64.data n = [] := by cases n <;> rfl
    show inside ((Form.list .string).data ps ++ (Selector.form.data sel ++
      ((Form.Field.unlessEmpty "states" (.list .string)).data states ++
        ((Form.Field.unlessNone "limit" optionU64).data limit ++ [])))) = _
    rw [hps, Form.Field.data_nil hps, Form.Field.data_nil hlimit]
    cases sel <;> rfl
  | txn => exact TxnCall.data_form b
  | lock => rfl
  | renew => rfl
  | release => rfl

/-! ## What arrives -/

section Arrival

variable {codec : Json.Codec} {A : Type} {F : Form A}

/-- What kind of answer there is. -/
inductive Kind
  | answered
  | refused
  | cannotTell
  deriving DecidableEq, Repr

def kind : Except Error A → Kind
  | .ok _ => .answered
  | .error (.backend _) => .cannotTell
  | .error _ => .refused

theorem decode_text (code : ℤ) {v : Json} (h : v.depth < Json.maxDepth) :
    decode codec F code (text codec v) = answerOf codec F code (v.mapFloats codec.read) := by
  rw [decode, text, codec.trim, String.toList_ofList, codec.parse_print h]

theorem decode_deep (code : ℤ) {v : Json} (h : Json.maxDepth ≤ v.depth) :
    ∃ why, decode codec F code (text codec v) = .error (.backend why) := by
  obtain ⟨why, hwhy⟩ := codec.parse_deep h
  rw [decode, text, codec.trim, String.toList_ofList, hwhy]
  exact ⟨_, rfl⟩

/-- A value of a form, in an object of its own. -/
theorem shallow_under (name : String) {B : Type} {G : Form B} {b : B}
    (hdepth : G.depth + 1 < Json.maxDepth) :
    Shallow (inside (G.data b)) ↔ (Json.obj [(name, G.write b)]).depth < Json.maxDepth := by
  have hone : (Form.one name G).depth < Json.maxDepth := by
    show max G.depth 0 + 1 < _
    rwa [max_zero]
  have hiff := Form.shallow_iff (a := b) hone
  rwa [show (Form.one name G).data b = inside (G.data b ++ []) from rfl, List.append_nil] at hiff

theorem exact_inside {l : List (ℕ × Json)} : Exact codec (inside l) ↔ Exact codec l :=
  Form.forall_inside

theorem decode_ok {a : A} (hdepth : F.depth + 1 < Json.maxDepth) :
    (Shallow (inside (F.data a)) →
      decode codec F (ok codec F a).1 (ok codec F a).2 = .ok (F.mapFloats codec.read a)) ∧
    (¬ Shallow (inside (F.data a)) →
      ∃ why, decode codec F (ok codec F a).1 (ok codec F a).2 = .error (.backend why)) := by
  rw [shallow_under "ok" hdepth]
  refine ⟨fun h ↦ ?_, fun h ↦ decode_deep _ (not_lt.mp h)⟩
  rw [ok, decode_text _ h]
  show (F.read ((F.write a).mapFloats codec.read)).mapError _ = _
  rw [F.read_write]
  rfl

theorem decode_cannotTell (why : String) :
    decode codec F (cannotTell codec why).1 (cannotTell codec why).2 = .error (.backend why) := by
  have hdepth : (Json.obj [("cannot_tell", .str why)]).depth < Json.maxDepth :=
    show 1 < 128 by decide
  rw [cannotTell, decode_text _ hdepth]
  rfl

theorem decode_refused {e : Error} (he : ∀ why, e ≠ .backend why) :
    (Shallow e.data → decode codec F (refused codec e).1 (refused codec e).2 =
      .error (Error.form.mapFloats codec.read e)) ∧
    (¬ Shallow e.data →
      ∃ why, decode codec F (refused codec e).1 (refused codec e).2 = .error (.backend why)) := by
  have hrefused : refused codec e =
      (exitRefused, text codec (.obj [("error", Error.form.write e)])) := by
    rw [refused.eq_def]
    split
    · rename_i why
      exact absurd rfl (he why)
    · rfl
  rw [hrefused, ← Error.data_form, shallow_under "error" (by decide)]
  refine ⟨fun h ↦ ?_, fun h ↦ decode_deep _ (not_lt.mp h)⟩
  rw [decode_text _ h]
  show (do throw (← (Error.form.read ((Error.form.write e).mapFloats codec.read)).mapError _)) = _
  rw [Error.form.read_write]
  rfl

theorem kind_mapFloats (f : UInt64 → UInt64) (e : Error) :
    kind (A := A) (.error (Error.form.mapFloats f e)) = kind (A := A) (.error e) := by
  cases e <;> rfl

end Arrival

section Calls

variable (codec : Json.Codec)

/-- What the client makes of what a call answers. -/
def received (v : Verb) (r : Except Error v.Answer) : Except Error v.Answer :=
  decode codec v.answer (answer codec v.answer r).1 (answer codec v.answer r).2

variable {codec} {v : Verb}

theorem received_backend (why : String) :
    received codec v (.error (.backend why)) = .error (.backend why) := decode_cannotTell why

/-- An answer or a refusal arrives, its floats as they are read, or is too deep and nothing can be
told of it. -/
theorem received_cases (r : Except Error v.Answer) :
    (Shallow (v.answerData r) → kind (received codec v r) = kind r ∧
      (received codec v r = r ↔ Exact codec (v.answerData r))) ∧
    (¬ Shallow (v.answerData r) → kind r ≠ .cannotTell ∧
      ∃ why, received codec v r = .error (.backend why)) := by
  cases r with
  | ok a =>
    have hdepth : v.answer.depth + 1 < Json.maxDepth := by cases v <;> decide
    obtain ⟨hcarried, hdeep⟩ := @decode_ok codec _ _ a hdepth
    rw [← Verb.data_answer, exact_inside, Form.exact_iff]
    refine ⟨fun h ↦ ?_, fun h ↦ ⟨nofun, hdeep h⟩⟩
    have heq : received codec v (.ok a) = .ok (v.answer.mapFloats codec.read a) := hcarried h
    rw [heq, Except.ok.injEq]
    exact ⟨rfl, .rfl⟩
  | error e =>
    rw [show v.answerData (.error e) = e.data by cases v <;> rfl]
    by_cases hbackend : ∃ why, e = .backend why
    · obtain ⟨why, rfl⟩ := hbackend
      rw [received_backend]
      exact ⟨fun _ ↦ ⟨rfl, fun _ ↦ nofun, fun _ ↦ rfl⟩, fun h ↦ absurd nofun h⟩
    · obtain ⟨hcarried, hdeep⟩ := @decode_refused codec _ v.answer e
        fun why heq ↦ hbackend ⟨why, heq⟩
      constructor
      · intro h
        have heq : received codec v (.error e) = .error (Error.form.mapFloats codec.read e) :=
          hcarried h
        rw [heq, Except.error.injEq, ← Error.data_form, exact_inside, Form.exact_iff]
        exact ⟨kind_mapFloats _ e, .rfl⟩
      · refine fun h ↦ ⟨fun hkind ↦ ?_, hdeep h⟩
        cases e with
        | backend why => exact hbackend ⟨why, rfl⟩
        | _ => cases hkind

/-- **What is sent arrives** exactly where its data does not nest deeper than a text may and each
float in it is read as it was printed; and what kind of answer it is, where the data does not. -/
theorem wire_round_trip (codec : Json.Codec) :
    (∀ (v : Verb) (r : Except Error v.Answer),
      (received codec v r = r ↔ Shallow (v.answerData r) ∧ Exact codec (v.answerData r)) ∧
      (kind (received codec v r) = kind r ↔ Shallow (v.answerData r))) ∧
    ∀ (v : Verb) (b : v.Body), Form.parse codec v.body (Form.print codec v.body b) = .ok b ↔
      Shallow (v.bodyData b) ∧ Exact codec (v.bodyData b) := by
  refine ⟨fun v r ↦ ?_, fun v b ↦ ?_⟩
  · obtain ⟨hcarried, hdeep⟩ := @received_cases codec v r
    by_cases h : Shallow (v.answerData r)
    · obtain ⟨hkind, hiff⟩ := hcarried h
      exact ⟨hiff.trans (and_iff_right h).symm, iff_of_true hkind h⟩
    · obtain ⟨hkind, why, hwhy⟩ := hdeep h
      have hne : kind (received codec v r) ≠ kind r := by
        rw [hwhy]
        exact hkind.symm
      exact ⟨iff_of_false (fun heq ↦ hne (congrArg kind heq)) fun h' ↦ h h'.1,
        iff_of_false hne h⟩
  · rw [← Verb.data_body]
    exact Form.parse_print_iff (by cases v <;> decide)

end Calls

/-! ## An item too deep -/

/-- An array in an array, and so on. -/
def nested : ℕ → Json
  | 0 => .null
  | n + 1 => .arr [nested n]

theorem depth_nested : ∀ n : ℕ, (nested n).depth = n
  | 0 => rfl
  | n + 1 => by
    rw [nested, Json.depth, Json.depthOf, Json.depthOf, depth_nested n, Nat.max_zero]

def deepItem (n : ℕ) : Item := ⟨"k", ⟨Meta.default, nested n⟩, ⟨1, 0⟩, ⟨1, 0⟩, none⟩

theorem not_shallow_deepItem {n : ℕ} (hn : 125 ≤ n) :
    ¬ Shallow (Verb.get.answerData (.ok (some (deepItem n)))) := by
  intro h
  have hlt : 3 + (nested n).depth < 128 := h (3, nested n) List.mem_cons_self
  rw [depth_nested] at hlt
  omega

/-- The store holds data that its `get` does not get to the client. -/
theorem deep_not_received :
    ¬ ∃ codec : Json.Codec, ∀ (v : Verb) (r : Except Error v.Answer), received codec v r = r := by
  rintro ⟨codec, h⟩
  obtain ⟨-, why, hwhy⟩ := (@received_cases codec .get _).2 (not_shallow_deepItem (le_refl 125))
  rw [h .get] at hwhy
  cases hwhy

end Spira.Store.Wire
