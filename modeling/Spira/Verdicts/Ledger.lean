import Spira.Controller.Cut
import Spira.Lib.Interleave
import Spira.Lib.Records

/-!
# The verdict ledger

A verdict on an identity is one attempt, under its own key, and the summary of the identity's
attempts, which is written where it still is what was read.  Beside them stand the members proven
red and the faults that stop a lane.  Any number of callers write, between any two accesses of one
the others may do anything, and any access may fail, also once it has been made; a transaction is
one step, and one whose request is remembered is answered from what is remembered of it.  A record
whose owners are all gone may be collected.

The world remembers what was told of the ledger, in its order, and the ledger holds what was told of
it (`Kept`).  So a summary counts the attempts told since it was last collected, none of them lost
or counted twice.
-/

set_option autoImplicit false

namespace Spira.Verdicts

open Controller.Planner (Backoff LedgerRefusal PassIdentity faultKey)

/-! ## Verdicts -/

inductive Cause
  | image (digest : String)
  | base
  | install
  | vm
  | overCap
  | fencesCap
  deriving DecidableEq

/-- The causes that stop the repository's lane; the rest back the identity off. -/
def Cause.isLane : Cause → Bool
  | image _ | base | install => true
  | vm | overCap | fencesCap => false

def Cause.word : Cause → String
  | image _ => "image"
  | base => "base"
  | install => "install"
  | vm => "vm"
  | overCap => "over-cap"
  | fencesCap => "fences-cap"

inductive Class
  | green
  | red (step : String)
  | fault (cause : Cause)
  | flaky
  deriving DecidableEq

/-- Red and fault verdicts are kept while their members live; green and flaky with the round. -/
def Class.retainedByMembers : Class → Bool
  | red _ | fault _ => true
  | green | flaky => false

def Class.isRed : Class → Bool
  | red _ => true
  | _ => false

/-- A fault that backs the identity off. -/
def Class.isTransient : Class → Bool
  | fault cause => !cause.isLane
  | _ => false

inductive InitiatedBy
  | planner
  | judge
  deriving DecidableEq

inductive SubPassKind
  | rerun
  | base
  deriving DecidableEq

structure SubPass where
  kind : SubPassKind
  green : Bool
  deriving DecidableEq

structure Attempt where
  class_ : Class
  initiatedBy : InitiatedBy
  subPasses : List SubPass
  evidence : String
  at_ : ℕ
  deriving DecidableEq

structure Summary where
  class_ : Class
  attempts : ℕ
  /-- Transient faults in a row, ending with the latest attempt. -/
  transientFaults : ℕ
  backoffUntil : Option Backoff
  /-- When the latest attempt was made. -/
  lastAttempt : ℕ
  deriving DecidableEq

structure FaultPolicy where
  backoffSecs : ℕ
  retries : ℕ
  deriving DecidableEq

def maxU64 : ℕ := 2 ^ 64 - 1

def saturatingMul (a b : ℕ) : ℕ := min (a * b) maxU64

/-- The back-off after the `n`-th transient fault in a row. -/
def FaultPolicy.backoff (p : FaultPolicy) (n at_ : ℕ) : Backoff :=
  if n > p.retries then .standing
  else
    let factor := if n - 1 < 64 then 2 ^ (n - 1) else maxU64
    .until (min (at_ + saturatingMul (saturatingMul p.backoffSecs 1000) factor) maxU64)

/-- The summary with one more attempt. -/
def Summary.next (policy : FaultPolicy) (prev : Option Summary) (a : Attempt) : Summary :=
  let faults := if a.class_.isTransient then prev.elim 1 (·.transientFaults + 1) else 0
  { class_ := a.class_
    attempts := prev.elim 0 (·.attempts) + 1
    transientFaults := faults
    backoffUntil := if a.class_.isTransient then some (policy.backoff faults a.at_) else none
    lastAttempt := a.at_ }

structure ProvenRed where
  hash : String
  base : String
  imageDigest : String
  harnessVersion : String
  at_ : ℕ
  deriving DecidableEq

structure LaneFault where
  cause : Cause
  evidence : String
  since : ℕ
  deriving DecidableEq

/-! ## The world -/

inductive Key
  | summary (repo hash : String)
  | attempt (repo hash : String) (n : ℕ)
  | byMember (repo : String) (m : String × String)
  | fault (repo base imageDigest : String)
  | lifecycle (id : String)
  | round (repo batch : String)
  | lane (repo : String)
  deriving DecidableEq

/-- What is kept under a key of the ledger, with its owners; no data where it does not decode. -/
structure Owned (α : Type) where
  owners : List Key
  data : Option α

/-- Of a lifecycle record the ledger reads the tip that it states as ejected red: `some none` where
that is no text. -/
@[reducible] def Key.Val : Key → Type
  | summary .. => Owned Summary
  | attempt .. => Owned Attempt
  | byMember .. => Owned ProvenRed
  | fault .. => Owned LaneFault
  | lifecycle _ => Option (Option String)
  | round .. | lane _ => Unit

def Key.owners : (k : Key) → k.Val → List Key
  | summary .., v => v.owners
  | attempt .., v => v.owners
  | byMember .., v => v.owners
  | fault .., v => v.owners
  | lifecycle _, _ | round .., _ | lane _, _ => []

def Key.isLedger : Key → Bool
  | summary .. | attempt .. | byMember .. | fault .. => true
  | lifecycle _ | round .. | lane _ => false

abbrev Store := Records.Store Key Key.Val

abbrev Txn := Records.Txn Key Key.Val

/-- The requests of the ledger's transactions. -/
inductive Req
  | attempt (hash : String) (n : ℕ) (digest : String)
  | proven (hash digest : String)
  | fault (digest : String) (nonce : ℕ)
  | clear (digest : String) (nonce : ℕ)
  deriving DecidableEq

/-- An attempt as it was recorded, by which round and under which policy. -/
structure Written where
  id : PassIdentity
  batch : String
  policy : FaultPolicy
  attempt : Attempt
  deriving DecidableEq

/-- What is told of the ledger. -/
inductive Told
  | attempt (e : Written)
  | proven (id : PassIdentity) (m : String × String) (at_ : ℕ)
  | fault (repo base imageDigest : String) (f : LaneFault)
  | cleared (repo base imageDigest : String)
  | collected (k : Key)
  deriving DecidableEq

structure World where
  store : Store
  /-- The outcomes that are remembered of requests. -/
  requests : List (Req × Bool)
  /-- Whether an access reaches the store, and whether its answer comes back. -/
  up : Bool
  heard : Bool
  now : ℕ
  told : List Told

inductive LedgerError
  | store
  | contended (repo hash : String)
  | undecodable (k : Key)
  | notAMember (id : String)
  | notRed (hash : String)
  | notALaneCause (cause : Cause)
  deriving DecidableEq

abbrev Program (α : Type) := Verb World LedgerError α

/-- What happens around the ledger's callers. -/
inductive Env
  | reach (up heard : Bool)
  | tick (ms : ℕ)
  /-- A request is no longer remembered. -/
  | forget (r : Req)
  /-- Another writer writes. -/
  | other (t : Txn)
  /-- The collector comes by. -/
  | collect (k : Key)

/-- No other writer writes the ledger. -/
def spares (t : Txn) : Bool := t.ops.all fun o ↦ !o.key.isLedger

/-- A record of the ledger that had owners and has none left. -/
def orphan (s : Store) (k : Key) : Bool :=
  k.isLedger && (s.items k).any fun i ↦
    !(k.owners i.value).isEmpty && (k.owners i.value).all fun o ↦ (s.items o).isNone

def env : Env → World → World
  | .reach up heard, w => { w with up := up, heard := heard }
  | .tick ms, w => { w with now := w.now + ms }
  | .forget r, w => { w with requests := w.requests.filter (·.1 ≠ r) }
  | .other t, w => if spares t then { w with store := t.run w.store } else w
  | .collect k, w =>
    if orphan w.store k then
      { w with store := w.store.commit [.delete k], told := w.told ++ [.collected k] }
    else w

/-! ## Accesses -/

def get (k : Key) : Program (Option (Records.Item k.Val)) :=
  Verb.look fun w ↦ if w.up && w.heard then .ok (w.store.items k) else .error .store

def nowMs : Program ℕ := Verb.look fun w ↦ .ok w.now

/-- A record's data. -/
def decoded {α : Type} (k : Key) (v : Owned α) : Program α :=
  match v.data with
  | some a => pure a
  | none => throw (.undecodable k)

/-- One transaction, under its request; whether it was made.  None puts a key twice. -/
def commit (req : Req) (t : Txn) (told : List Told) : Program Bool :=
  Verb.atom (fun _ ↦ true)
    (fun w ↦
      if w.up ∧ (t.ops.map Records.Op.key).Nodup ∧ w.requests.lookup req = none then
        if t.takes w.store then
          { w with
            store := w.store.commit t.ops
            requests := (req, true) :: w.requests
            told := w.told ++ told }
        else { w with requests := (req, false) :: w.requests }
      else w)
    fun w ↦
      if w.up ∧ w.heard ∧ (t.ops.map Records.Op.key).Nodup then
        .ok ((w.requests.lookup req).getD (t.takes w.store))
      else .error .store

/-! ## The ledger -/

/-- The digests that keys and requests are named by. -/
structure Digests where
  identity : PassIdentity → String
  attempt : String → Attempt → String
  members : List (String × String) → String
  key : Key → String

section Ledger

variable (h : Digests)

def owners (id : PassIdentity) (batch : String) (c : Class) : List Key :=
  if id.members.isEmpty then [.lane id.repo]
  else if c.retainedByMembers then id.members.map fun m ↦ .lifecycle m.1
  else [.round id.repo batch]

/-- The owners a summary had, and those that it has not yet. -/
def keptOwners (read own : List Key) : List Key :=
  own.foldl (fun kept o ↦ if o ∈ kept then kept else kept ++ [o]) read

/-- The `n`-th attempt, where there is none, and the summary, where it is what was read. -/
def attemptTxn (id : PassIdentity) (batch : String) (n : ℕ) (a : Attempt) (summary : Summary)
    (read : Option (Records.Item (Owned Summary))) : Txn where
  compares := [.modRev (.attempt id.repo (h.identity id) n) none,
    .modRev (.summary id.repo (h.identity id)) (read.map (·.modRev))]
  ops := [.put (.attempt id.repo (h.identity id) n) ⟨owners id batch a.class_, some a⟩,
    .put (.summary id.repo (h.identity id))
      ⟨keptOwners (read.elim [] (·.value.owners)) (owners id batch a.class_), some summary⟩]

/-- The attempt is the latest that the summary counts. -/
def isLatest (id : PassIdentity) (a : Attempt) (s : Summary) : Program Bool := do
  match ← get (.attempt id.repo (h.identity id) s.attempts) with
  | none => return false
  | some i =>
    let last ← decoded (.attempt id.repo (h.identity id) s.attempts) i.value
    return last = a

/-- The attempt put after those of the summary that was read; whether it was. -/
def putAttempt (id : PassIdentity) (batch : String) (a : Attempt) (policy : FaultPolicy)
    (cur : Option (Records.Item (Owned Summary))) (prev : Option Summary) : Program Bool :=
  let n := prev.elim 0 (·.attempts) + 1
  commit (.attempt (h.identity id) n (h.attempt batch a))
    (attemptTxn h id batch n a (.next policy prev a) cur)
    [.attempt ⟨id, batch, policy, a⟩]

/-- Records one attempt, in so many tries: its number. -/
def recordAttempt (id : PassIdentity) (batch : String) (a : Attempt) (policy : FaultPolicy) :
    ℕ → Program ℕ
  | 0 => throw (.contended id.repo (h.identity id))
  | tries + 1 => do
    match ← get (.summary id.repo (h.identity id)) with
    | none =>
      if ← putAttempt h id batch a policy none none then return 1
      else recordAttempt id batch a policy tries
    | some i =>
      let s ← decoded (.summary id.repo (h.identity id)) i.value
      if ← isLatest h id a s then return s.attempts
      else if ← putAttempt h id batch a policy (some i) (some s) then return s.attempts + 1
      else recordAttempt id batch a policy tries

def provenRed (id : PassIdentity) (at_ : ℕ) : ProvenRed :=
  ⟨h.identity id, id.base, id.imageDigest, id.harnessVersion, at_⟩

/-- Marks members of a red identity as proven red at their tips. -/
def markProven (id : PassIdentity) (proven : List (String × String)) (at_ : ℕ) : Program Unit :=
  match proven.find? (· ∉ id.members) with
  | some m => throw (.notAMember m.1)
  | none => do
    if proven.isEmpty then return
    match ← get (.summary id.repo (h.identity id)) with
    | none => throw (.notRed (h.identity id))
    | some i =>
      let s ← decoded (.summary id.repo (h.identity id)) i.value
      if !s.class_.isRed then throw (.notRed (h.identity id))
      let _ ← commit (.proven (h.identity id) (h.members proven))
        ⟨[], proven.map fun m ↦
          .put (.byMember id.repo m) ⟨[.lifecycle m.1], some (provenRed h id at_)⟩⟩
        (proven.map fun m ↦ .proven id m at_)

/-- Stops the lane on a base and an image digest; whether it was not stopped already. -/
def recordLaneFault (repo base imageDigest : String) (f : LaneFault) (nonce : ℕ) : Program Bool :=
  if !f.cause.isLane then throw (.notALaneCause f.cause)
  else
    commit (.fault (h.key (.fault repo base imageDigest)) nonce)
      ⟨[.modRev (.fault repo base imageDigest) none],
        [.put (.fault repo base imageDigest) ⟨[], some f⟩]⟩
      [.fault repo base imageDigest f]

def clearLaneFault (repo base imageDigest : String) (nonce : ℕ) : Program Unit := do
  let _ ← commit (.clear (h.key (.fault repo base imageDigest)) nonce)
    ⟨[], [.delete (.fault repo base imageDigest)]⟩ [.cleared repo base imageDigest]

/-- The lifecycle withdrew the red at this tip. -/
def absolved (m : String × String) : Program Bool := do
  let i ← get (.lifecycle m.1)
  return i.any fun i ↦ i.value.any (· ≠ some m.2)

/-- The verdict on the identity itself, where it is one that refuses it. -/
def verdictOf (id : PassIdentity) (s : Summary) : Program (Option LedgerRefusal) :=
  match s.class_, s.backoffUntil with
  | .red step, _ => pure (some (.redIdentity (h.identity id) step))
  | .fault _, some .standing => pure (some (.backingOff (h.identity id) none))
  | .fault _, some (.until t) => do
    if (← nowMs) < t then return some (.backingOff (h.identity id) (some t)) else return none
  | _, _ => pure none

/-- The member is proven red on the identity's base, image and harness, and not absolved. -/
def redOn (id : PassIdentity) (m : String × String) : Program (Option LedgerRefusal) := do
  match ← get (.byMember id.repo m) with
  | none => return none
  | some i =>
    let r ← decoded (.byMember id.repo m) i.value
    if (r.base, r.imageDigest, r.harnessVersion) ≠ (id.base, id.imageDigest, id.harnessVersion) then
      return none
    if ← absolved m then return none
    return some (.redMember m.1 m.2 r.hash)

def redMember (id : PassIdentity) : List (String × String) → Program (Option LedgerRefusal)
  | [] => return none
  | m :: ms => do
    match ← redOn id m with
    | some r => return some r
    | none => redMember id ms

/-- Why the planner may not open the identity. -/
def refuses (id : PassIdentity) : Program (Option LedgerRefusal) := do
  match ← get (.fault id.repo id.base id.imageDigest) with
  | some i =>
    let f ← decoded (.fault id.repo id.base id.imageDigest) i.value
    return some (.laneFault (faultKey id.repo id.base id.imageDigest) f.cause.word)
  | none =>
    match ← get (.summary id.repo (h.identity id)) with
    | none => redMember id id.members
    | some i =>
      let s ← decoded (.summary id.repo (h.identity id)) i.value
      match ← verdictOf h id s with
      | some r => return some r
      | none => redMember id id.members

/-- The calls on the ledger. -/
inductive Call
  | recordAttempt (id : PassIdentity) (batch : String) (a : Attempt) (policy : FaultPolicy)
  | markProven (id : PassIdentity) (proven : List (String × String)) (at_ : ℕ)
  | recordLaneFault (repo base imageDigest : String) (f : LaneFault) (nonce : ℕ)
  | clearLaneFault (repo base imageDigest : String) (nonce : ℕ)
  | refuses (id : PassIdentity)

inductive Answer
  | recorded (n : ℕ)
  | proven
  | fault (new : Bool)
  | cleared
  | refusal (r : Option LedgerRefusal)

def Call.program : Call → Program Answer
  | .recordAttempt id batch a policy =>
    do return .recorded (← Verdicts.recordAttempt h id batch a policy 2)
  | .markProven id proven at_ => do
    Verdicts.markProven h id proven at_
    return .proven
  | .recordLaneFault repo base imageDigest f nonce =>
    do return .fault (← Verdicts.recordLaneFault h repo base imageDigest f nonce)
  | .clearLaneFault repo base imageDigest nonce => do
    Verdicts.clearLaneFault h repo base imageDigest nonce
    return .cleared
  | .refuses id => do return .refusal (← Verdicts.refuses h id)

/-- The calls on the ledger, and what happens around them. -/
abbrev Turns := List (Turn Env Empty Call)

def run (start : World) (turns : Turns) : Pool World (Except LedgerError Answer) Call :=
  Pool.run env (fun d _ ↦ d.elim) (Call.program h) start turns

end Ledger

/-! ## What was told -/

section Told

variable {h : Digests} {repo hash : String} {l : List Written} {e : Written} {told : List Told}
  {t : Told}

/-- The attempts told of an identity since its summary was last collected. -/
def attemptsStep (h : Digests) (repo hash : String) (l : List Written) : Told → List Written
  | .attempt e => if (e.id.repo, h.identity e.id) = (repo, hash) then l ++ [e] else l
  | .collected k => if k = .summary repo hash then [] else l
  | .proven .. | .fault .. | .cleared .. => l

def attemptsOf (h : Digests) (told : List Told) (repo hash : String) : List Written :=
  told.foldl (attemptsStep h repo hash) []

/-- How many transient faults there are in a row at the end. -/
def faultsInARow (l : List Written) : ℕ :=
  (l.reverse.takeWhile (·.attempt.class_.isTransient)).length

/-- What the attempts of an identity come to. -/
def summaryOf (l : List Written) : Option Summary :=
  l.getLast?.map fun e ↦
    { class_ := e.attempt.class_
      attempts := l.length
      transientFaults := faultsInARow l
      backoffUntil :=
        if e.attempt.class_.isTransient then
          some (e.policy.backoff (faultsInARow l) e.attempt.at_)
        else none
      lastAttempt := e.attempt.at_ }

/-- The red proven of a member since it was last collected. -/
def provenStep (h : Digests) (repo : String) (m : String × String) (r : Option ProvenRed) :
    Told → Option ProvenRed
  | .proven id m' at_ => if (id.repo, m') = (repo, m) then some (provenRed h id at_) else r
  | .collected k => if k = .byMember repo m then none else r
  | .attempt .. | .fault .. | .cleared .. => r

def provenOf (h : Digests) (told : List Told) (repo : String) (m : String × String) :
    Option ProvenRed :=
  told.foldl (provenStep h repo m) none

/-- The fault of a lane since it was last cleared. -/
def faultStep (repo base imageDigest : String) (f : Option LaneFault) : Told → Option LaneFault
  | .fault r b d f' => if (r, b, d) = (repo, base, imageDigest) then some f' else f
  | .cleared r b d => if (r, b, d) = (repo, base, imageDigest) then none else f
  | .attempt .. | .proven .. | .collected _ => f

def faultOf (told : List Told) (repo base imageDigest : String) : Option LaneFault :=
  told.foldl (faultStep repo base imageDigest) none

theorem attemptsOf_concat :
    attemptsOf h (told ++ [t]) repo hash =
      attemptsStep h repo hash (attemptsOf h told repo hash) t := by
  rw [attemptsOf, List.foldl_append]
  rfl

theorem faultOf_concat {base imageDigest : String} : faultOf (told ++ [t]) repo base imageDigest =
    faultStep repo base imageDigest (faultOf told repo base imageDigest) t := by
  rw [faultOf, List.foldl_append]
  rfl

theorem provenOf_concat {m : String × String} : provenOf h (told ++ [t]) repo m =
    provenStep h repo m (provenOf h told repo m) t := by
  rw [provenOf, List.foldl_append]
  rfl

theorem faultsInARow_concat : faultsInARow (l ++ [e]) =
    if e.attempt.class_.isTransient then faultsInARow l + 1 else 0 := by
  rw [faultsInARow, List.reverse_append, List.reverse_singleton, List.singleton_append,
    List.takeWhile_cons]
  split
  · rfl
  · rfl

/-- **What the attempts come to is what their summaries come to, one after the other.** -/
theorem summaryOf_concat :
    summaryOf (l ++ [e]) = some (.next e.policy (summaryOf l) e.attempt) := by
  have hcount : (summaryOf l).elim 0 (·.attempts) = l.length := by
    obtain rfl | ⟨l', e', rfl⟩ := List.eq_nil_or_concat' l
    · rfl
    · rw [summaryOf, List.getLast?_concat]
      rfl
  have hfaults : (summaryOf l).elim 1 (·.transientFaults + 1) = faultsInARow l + 1 := by
    obtain rfl | ⟨l', e', rfl⟩ := List.eq_nil_or_concat' l
    · rfl
    · rw [summaryOf, List.getLast?_concat]
      rfl
  rw [Summary.next, hcount, hfaults, ← faultsInARow_concat, summaryOf, List.getLast?_concat,
    Option.map_some, List.length_append, List.length_singleton]

theorem summaryOf_eq_none : summaryOf l = none ↔ l = [] := by
  rw [summaryOf, Option.map_eq_none_iff, List.getLast?_eq_none_iff]

theorem attempts_of_summaryOf {s : Summary} (h : summaryOf l = some s) :
    s.attempts = l.length := by
  rw [summaryOf] at h
  obtain ⟨e, -, rfl⟩ := Option.map_eq_some_iff.mp h
  rfl

/-- What was told is lawful: each attempt is another than the one before it, where that one was not
collected; who is proven is a member of an identity that was red; and a lane is stopped for a cause
of its own, where it was not stopped already. -/
structure Lawful (h : Digests) (told : List Told) : Prop where
  another : ∀ pre post e e', told = pre ++ .attempt e :: post →
    (attemptsOf h pre e.id.repo (h.identity e.id)).getLast? = some e' → e'.attempt = e.attempt →
      .collected (.attempt e.id.repo (h.identity e.id)
        (attemptsOf h pre e.id.repo (h.identity e.id)).length) ∈ pre
  proven : ∀ pre post id m at_, told = pre ++ .proven id m at_ :: post → m ∈ id.members ∧
    ∃ pre', pre' <+: pre ∧
      (summaryOf (attemptsOf h pre' id.repo (h.identity id))).any (·.class_.isRed)
  fault : ∀ pre post repo base imageDigest f, told = pre ++ .fault repo base imageDigest f :: post →
    f.cause.isLane ∧ faultOf pre repo base imageDigest = none

theorem Lawful.nil : Lawful h [] where
  another _ _ _ _ heq := absurd heq.symm (List.append_ne_nil_of_right_ne_nil _ (by simp))
  proven _ _ _ _ _ heq := absurd heq.symm (List.append_ne_nil_of_right_ne_nil _ (by simp))
  fault _ _ _ _ _ _ heq := absurd heq.symm (List.append_ne_nil_of_right_ne_nil _ (by simp))

/-- Where one more is told, it is the last or what was told before is cut. -/
theorem Lawful.concat (hl : Lawful h told)
    (hanother : ∀ e e', t = .attempt e →
      (attemptsOf h told e.id.repo (h.identity e.id)).getLast? = some e' →
        e'.attempt = e.attempt → .collected (.attempt e.id.repo (h.identity e.id)
          (attemptsOf h told e.id.repo (h.identity e.id)).length) ∈ told)
    (hproven : ∀ id m at_, t = .proven id m at_ → m ∈ id.members ∧ ∃ pre', pre' <+: told ∧
      (summaryOf (attemptsOf h pre' id.repo (h.identity id))).any (·.class_.isRed))
    (hfault : ∀ repo base imageDigest f, t = .fault repo base imageDigest f →
      f.cause.isLane ∧ faultOf told repo base imageDigest = none) : Lawful h (told ++ [t]) where
  another pre post e e' heq := by
    rcases Records.cut_concat heq with ⟨rfl, ht⟩ | ⟨post', heq'⟩
    · exact hanother e e' ht.symm
    · exact hl.another pre post' e e' heq'
  proven pre post id m at_ heq := by
    rcases Records.cut_concat heq with ⟨rfl, ht⟩ | ⟨post', heq'⟩
    · exact hproven id m at_ ht.symm
    · exact hl.proven pre post' id m at_ heq'
  fault pre post repo base imageDigest f heq := by
    rcases Records.cut_concat heq with ⟨rfl, ht⟩ | ⟨post', heq'⟩
    · exact hfault repo base imageDigest f ht.symm
    · exact hl.fault pre post' repo base imageDigest f heq'

/-- The attempt is told as the `n`-th of its identity. -/
def Numbered (h : Digests) (told : List Told) (e : Written) (n : ℕ) : Prop :=
  ∃ pre post, told = pre ++ .attempt e :: post ∧
    (attemptsOf h pre e.id.repo (h.identity e.id)).length + 1 = n

theorem Numbered.mono {told' : List Told} {n : ℕ} (hn : Numbered h told e n)
    (hpre : told <+: told') : Numbered h told' e n := by
  obtain ⟨pre, post, rfl, hlen⟩ := hn
  obtain ⟨more, rfl⟩ := hpre
  exact ⟨pre, post ++ more, by rw [List.append_assoc, List.cons_append], hlen⟩

end Told

end Spira.Verdicts
