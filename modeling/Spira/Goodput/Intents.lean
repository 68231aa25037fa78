import Spira.Goodput.Assemble
import Spira.Lib.Ownership
import Spira.Lib.Records

/-!
# Passes over the intents

A pass takes the reconciler's lock, reads the sections, the intents and the knobs at one revision,
and writes the judgements and the steps that are planned from them, each with its token.  An owner
applies an intent, the knob and the acknowledgement in one transaction.  Any number of passes and
owners take turns, an access may fail, also once it has been made, and the lock may lapse under a
pass at any moment, as an intent may.

The world remembers what is told of the knobs.
-/

set_option autoImplicit false

namespace Spira.Goodput

open DesiredState (formatRfc3339 parseRfc3339)

/-! ## The world -/

inductive Key
  | intent (key : String)
  | knob (key : String)
  /-- The lock that every write of a pass is fenced on. -/
  | lock
  | pass
  deriving DecidableEq

@[reducible] def Key.Val : Key → Type
  | intent _ => Intent
  | knob _ => Setting
  | lock => Unit
  | pass => PassRecord

abbrev Store := Records.Store Key Key.Val

abbrev Txn := Records.Txn Key Key.Val

/-- What is told of the knobs. -/
inductive Told
  | set (knob : String) (v : Setting)
  /-- An intent, and the revision it was written at, moved the knob. -/
  | moved (knob key : String) (rev : ℕ) (from_ to_ : Setting)
  deriving DecidableEq

structure World where
  store : Store
  nowMs : ℕ
  /-- Whether an access reaches the store, and whether its answer comes back. -/
  up : Bool
  heard : Bool
  sections : List Section
  told : List Told

inductive VerbError
  | store
  | missing
  | refused (field code : String)
  /-- The pass was not recorded, or the lock not released. -/
  | unfinished (recorded released : Bool)
  deriving DecidableEq

abbrev Program (α : Type) := Verb World VerbError α

def World.commit (w : World) (t : Txn) (told : List Told) : World :=
  { w with store := w.store.commit t.ops, told := w.told ++ told }

/-- What happens around the passes and the owners. -/
inductive Env
  | reach (up heard : Bool)
  | tick (ms : ℕ)
  | publish (sections : List Section)
  /-- A record has outlived its time to live.  A knob has none. -/
  | lapse (k : Key)

def Key.isKnob : Key → Bool
  | knob _ => true
  | intent _ | lock | pass => false

def env : Env → World → World
  | .reach up heard, w => { w with up := up, heard := heard }
  | .tick ms, w => { w with nowMs := w.nowMs + ms }
  | .publish sections, w => { w with sections := sections }
  | .lapse k, w => if k.isKnob then w else w.commit ⟨[], [.delete k]⟩ []

/-! ## Accesses -/

def get (k : Key) : Program (Option (Records.Item k.Val)) :=
  Verb.look fun w ↦ if w.up && w.heard then .ok (w.store.items k) else .error .store

def nowMs : Program ℕ := Verb.look fun w ↦ .ok w.nowMs

def head : Program ℕ :=
  Verb.look fun w ↦ if w.up && w.heard then .ok w.store.head else .error .store

/-- One transaction: its revision, where it was made. -/
def transact (t : Txn) (told : List Told) : Program (Option ℕ) :=
  Verb.atom (fun _ ↦ true) (fun w ↦ if w.up && t.takes w.store then w.commit t told else w)
    fun w ↦
      if w.up && w.heard then
        .ok (if t.takes w.store then some (w.store.head + 1) else none)
      else .error .store

def decided {α : Type} : Except VerbError α → Program α
  | .ok a => pure a
  | .error e => throw e

/-! ## The lock -/

/-- The token under which the lock is held. -/
def lockToken (s : Store) : Option ℕ := (s.items .lock).map (·.createRev)

def fence (token : ℕ) : Records.Compare Key := .createRev .lock (some token)

def lockAcquire : Program ℕ := do
  match ← transact ⟨[.createRev .lock none], [.put .lock ()]⟩ [] with
  | some token => return token
  | none => throw (.refused "resource" "locked")

def lockLost : VerbError := .refused "--token" "token"

def lockRelease (token : ℕ) : Program Unit := do
  match ← transact ⟨[fence token], [.delete .lock]⟩ [] with
  | some _ => return ()
  | none => throw (.refused "--token" "lock-lost")

def holdsLock (token : ℕ) : Program Bool := do return (← get .lock).any (·.createRev = token)

/-! ## The intents -/

def reconciler : String := "reconciler"

/-- The registered kinds: who owns a section of the kind, and what it declares. -/
structure Kinds where
  owner : String → Option String
  isNumeric : (kind field : String) → Bool
  declares : (kind condition : String) → Bool

def Kinds.registered (kinds : Kinds) (kind : String) : Except VerbError String :=
  if kind = andon then .error (.refused "kind" "unknown-kind")
  else
    match kinds.owner kind with
    | some owner => .ok owner
    | none => .error (.refused "kind" "unknown-kind")

/-- The first address that the kind does not declare. -/
def undeclared (kinds : Kinds) (kind : String) (addresses : List String) : Option VerbError :=
  (addresses.zipIdx.find? fun c ↦ !kinds.declares kind c.1).map fun c ↦
    .refused s!"addresses[{c.2}]" "addresses"

/-- The schema of a new intent, written under a token. -/
def admitPut (kinds : Kinds) (key : String) (i : Intent) (token : ℕ) : Except VerbError Unit :=
  match parseKey key with
  | none => .error (.refused "key" "key")
  | some k => do
    let _ ← kinds.registered k.1
    refuseIf (i.id ≠ k.2.2) (.refused "id" "key")
    refuseIf (i.by_.lockToken ≠ token) (.refused "by.lock_token" "token")
    refuseIf i.ack.isSome (.refused "ack" "ownership")
    refuseIf i.judgement.isSome (.refused "judgement" "ownership")
    refuseIf (!kinds.isNumeric k.1 i.moves) (.refused "moves" "moves")
    refuseSome (undeclared kinds k.1 i.addresses)
    refuseIf (parseDuration i.horizon).isNone (.refused "horizon" "duration")
    refuseIf (parseRfc3339 i.takenAt).isNone (.refused "taken_at" "time")

def putTxn (token : ℕ) (key : String) (i : Intent) : Txn :=
  ⟨[fence token, .modRev (.intent key) none], [.put (.intent key) i]⟩

def intentPut (kinds : Kinds) (actor : String) (token : ℕ) (key : String) (i : Intent) :
    Program Unit := do
  if actor ≠ reconciler then throw (.refused "actor" "ownership")
  decided (admitPut kinds key i token)
  if !(← holdsLock token) then throw lockLost
  if (← get (.intent key)).isSome then throw (.refused "key" "exists")
  match ← transact (putTxn token key i) [] with
  | some _ => return ()
  | none => if ← holdsLock token then throw (.refused "key" "exists") else throw lockLost

def readIntent (key : String) : Program (Records.Item Intent) := do
  match ← get (.intent key) with
  | some i => return i
  | none => throw .missing

/-- An intent that its section's owner has not acknowledged. -/
def ownedIntent (kinds : Kinds) (actor key : String) : Program (Records.Item Intent) := do
  match parseKey key with
  | none => throw (.refused "key" "key")
  | some k =>
    let owner ← decided (kinds.registered k.1)
    if actor ≠ owner then throw (.refused "actor" "ownership")
    let i ← readIntent key
    if i.value.ack.isSome then throw (.refused "ack" "once")
    return i

def ackTxn (key : String) (item : Records.Item Intent) (ack : Ack) : Txn :=
  ⟨[.modRev (.intent key) (some item.modRev)],
    [.put (.intent key) { item.value with ack := some ack }]⟩

def intentAck (kinds : Kinds) (actor key : String) (result : AckResult) : Program Unit := do
  let now ← nowMs
  let item ← ownedIntent kinds actor key
  let rev ← head
  match ← transact (ackTxn key item ⟨formatRfc3339 (now / 1000), result, rev⟩) [] with
  | some _ => return ()
  | none => throw (.refused "ack" "once")

def judgeTxn (token : ℕ) (key : String) (item : Records.Item Intent) (j : Judgement) : Txn :=
  ⟨[fence token, .modRev (.intent key) (some item.modRev)],
    [.put (.intent key) { item.value with judgement := some j }]⟩

def intentJudge (actor : String) (token : ℕ) (key : String) (result : JudgementResult)
    (observed : ℚ) : Program Unit := do
  let now ← nowMs
  if actor ≠ reconciler then throw (.refused "actor" "ownership")
  let item ← readIntent key
  if item.value.ack.isNone then throw (.refused "ack" "unacknowledged")
  if item.value.judgement.isSome then throw (.refused "judgement" "once")
  if !(← holdsLock token) then throw lockLost
  match ← transact (judgeTxn token key item ⟨formatRfc3339 (now / 1000), result, observed⟩) [] with
  | some _ => return ()
  | none => if ← holdsLock token then throw (.refused "judgement" "once") else throw lockLost

/-! ## The knobs -/

def knobsPrefix : String := "knobs/"

/-- A key that may be a knob's. -/
def isKnobKey (knob : String) : Bool :=
  (stripPrefix knob knobsPrefix).any fun rest ↦ rest ≠ [] ∧ rest.head? ≠ some '/'

def applied (i : Intent) (value : Setting) : AckResult :=
  if value = i.from_ then .applied
  else if value = i.to_ then .alreadyApplied
  else .refused "stale" (some value)

/-- The intent with its acknowledgement, and the knob where it moves. -/
def applyTxn (key knob : String) (item : Records.Item Intent) (cur : Option (Records.Item Setting))
    (ack : Ack) : Txn where
  compares := [.modRev (.intent key) (some item.modRev), .modRev (.knob knob) (cur.map (·.modRev))]
  ops := .put (.intent key) { item.value with ack := some ack } ::
    if ack.result = .applied then [.put (.knob knob) item.value.to_] else []

/-- The knob and the acknowledgement in one transaction.  An absent knob is null. -/
def intentApply (kinds : Kinds) (actor key knob : String) : Program AckResult := do
  let now ← nowMs
  if !isKnobKey knob then throw (.refused "--knob" "knob")
  let item ← ownedIntent kinds actor key
  let own := (sectionOf key).map fun sec ↦ knobsPrefix ++ sec ++ "/"
  if knob ≠ item.value.target ∨ ¬ own.any (Text.startsWith knob) then
    throw (.refused "--knob" "knob")
  let cur ← get (.knob knob)
  let result := applied item.value (cur.elim .null (·.value))
  let rev ← head
  let ack : Ack := ⟨formatRfc3339 (now / 1000), result, rev⟩
  match ← transact (applyTxn key knob item cur ack)
      (if result = .applied then
        [.moved knob key item.createRev item.value.from_ item.value.to_] else []) with
  | some _ => return result
  | none => throw (.refused "ack" "once")

/-- The kind of the section whose knob a key is. -/
def knobKind (knob : String) : Option String :=
  (stripPrefix knob knobsPrefix).bind fun rest ↦
    (Text.splitOnce '/' rest).bind fun kind ↦
      (Text.splitOnce '/' kind.2).bind fun name ↦
        if kind.1 ≠ [] ∧ name.1 ≠ [] ∧ name.2 ≠ [] then some (String.ofList kind.1) else none

/-- The first value of a knob. -/
def knobInit (kinds : Kinds) (actor knob : String) (value : Setting) : Program Bool := do
  match knobKind knob with
  | none => throw (.refused "knob" "knob")
  | some kind =>
    let owner ← decided (kinds.registered kind)
    if actor ≠ owner then throw (.refused "actor" "ownership")
    match ← get (.knob knob) with
    | some _ => return false
    | none =>
      match ← transact ⟨[.modRev (.knob knob) none], [.put (.knob knob) value]⟩
        [.set knob value] with
      | some _ => return true
      | none => throw (.refused "knob" "exists")

/-! ## A pass -/

/-- The intents there are, by their keys. -/
def listedAt (s : Store) : Key → Option ListedIntent
  | .intent key => (s.items (.intent key)).map fun i ↦ ⟨key, i.value⟩
  | .knob _ | .lock | .pass => none

def listed (s : Store) : List ListedIntent :=
  (s.keys.filterMap (listedAt s)).insertionSort fun x y ↦ x.key ≤ y.key

def snapshotOf (w : World) : Snapshot where
  listRev := w.store.head
  sections := w.sections
  intents := listed w.store
  pass := (w.store.items .pass).map (·.value)
  knobs k := (w.store.items (.knob k)).map (·.value)

def snapshot : Program Snapshot :=
  Verb.look fun w ↦ if w.up && w.heard then .ok (snapshotOf w) else .error .store

structure PassConfig where
  holder : String
  timeoutSecs : ℕ
  shadow : List String
  halted : Bool

/-- The facts that every leg of a pass carries. -/
structure LegConfig where
  token : ℕ
  holder : String
  shadow : List String
  halted : Bool
  deadlineAtMs : ℕ

/-- Whether a write may still be made.  Once the deadline has passed, none is. -/
def mayWrite (cfg : LegConfig) (hit : Bool) : Program Bool := do
  return !(hit || decide (cfg.deadlineAtMs ≤ (← nowMs)))

def VerbError.code (otherwise : String) : VerbError → String
  | refused _ code => code
  | store | missing | unfinished .. => otherwise

def VerbError.text : VerbError → String
  | store => "the store does not answer"
  | missing => "not found"
  | refused field code => s!"refused: {field}, {code}"
  | unfinished recorded released => s!"recorded={recorded} released={released}"

/-- What has become of a leg: whether the deadline was hit, what was written, and what was not. -/
structure Leg (α : Type) where
  hit : Bool := false
  made : List α := []
  refused : List Refused := []

/-- A leg with one judgement more, or what it was refused for. -/
def Leg.judging (leg : Leg Judged) (j : Judge) : Except VerbError Unit → Leg Judged
  | .ok _ => { leg with made := leg.made ++ [⟨j.key, j.result, j.baseline, j.observed⟩] }
  | .error e =>
    { leg with refused := leg.refused ++ [⟨j.section_, "judge", e.code "judge-failed", e.text⟩] }

def judgeAll (cfg : LegConfig) (leg : Leg Judged) : List Judge → Program (Leg Judged)
  | [] => pure leg
  | j :: js =>
    if cfg.halted || isShadowed cfg.shadow (kindOf j.section_) then judgeAll cfg leg js
    else do
      if !(← mayWrite cfg leg.hit) then judgeAll cfg { leg with hit := true } js
      else
        let r ← (Verb.tried (intentJudge reconciler cfg.token j.key j.result j.observed) :
          Program (Except VerbError Unit))
        judgeAll cfg (leg.judging j r) js

def asStep (p : Planned) (intent : Option String) : Step where
  section_ := p.section_
  action := p.action
  target := p.intent.target
  from_ := p.intent.from_
  to_ := p.intent.to_
  intent
  held := p.held

/-- Writes the intent and reads it back. -/
def putStep (kinds : Kinds) (cfg : LegConfig) (p : Planned) : Program (Except Refused Step) := do
  match ← (Verb.tried (intentPut kinds reconciler cfg.token p.key p.intent) :
      Program (Except VerbError Unit)) with
  | .error e => return .error ⟨p.section_, p.action, e.code "put-failed", e.text⟩
  | .ok () =>
    match ← (Verb.tried (readIntent p.key) : Program (Except VerbError (Records.Item Intent))) with
    | .error e => return .error ⟨p.section_, p.action, "no-read-back", e.text⟩
    | .ok i =>
      if i.value.id = p.intent.id then return .ok (asStep p (some p.key))
      else return .error ⟨p.section_, p.action, "no-read-back", ""⟩

def Leg.stepping (leg : Leg Step) : Except Refused Step → Leg Step
  | .ok s => { leg with made := leg.made ++ [s] }
  | .error r => { leg with refused := leg.refused ++ [r] }

def stepAll (kinds : Kinds) (cfg : LegConfig) (leg : Leg Step) : List Planned → Program (Leg Step)
  | [] => pure leg
  | p :: ps => do
    if !(← mayWrite cfg leg.hit) then
      stepAll kinds cfg
        { leg with
          hit := true
          refused := leg.refused ++ [⟨p.section_, p.action, "deadline",
            "the pass's deadline passed before the step was written"⟩] } ps
    else
      let r ← putStep kinds cfg p
      stepAll kinds cfg (leg.stepping r) ps

def modeOf (halted : Bool) (steps wouldStep : List Step) : Mode :=
  if halted then .halted else if steps.isEmpty && !wouldStep.isEmpty then .shadow else .acting

def inputsOf (cfg : LegConfig) (rank : Assembled → List RankedGap) (a : Assembled) (now : ℕ) :
    Inputs where
  assembled := a
  gaps := rank a
  shadow := cfg.shadow
  halted := cfg.halted
  nowMs := now
  token := cfg.token

/-- The record of a pass before its steps. -/
def recordOf (cfg : LegConfig) (inp : Inputs) (plan : Plan) (leg : Leg Judged) : PassRecord where
  n := inp.assembled.n
  listRev := inp.assembled.listRev
  at_ := formatRfc3339 (inp.nowMs / 1000)
  holder := cfg.holder
  mode := modeOf cfg.halted [] (plan.wouldStep.map (asStep · none))
  gaps := openGaps inp
  steps := []
  wouldStep := plan.wouldStep.map (asStep · none)
  judged := leg.made
  acksRefused := plan.acksRefused
  refused := plan.refused ++ leg.refused
  exhausted := plan.exhausted
  noLever := plan.noLever
  shadowKinds := cfg.shadow

/-- The snapshot under the lock, the plan, and the judgements written. -/
def judgeLeg (cfg : LegConfig) (rank : Assembled → List RankedGap) :
    Program (PassRecord × List Planned) := do
  let snap ← snapshot
  let now ← nowMs
  let inp := inputsOf cfg rank (assemble snap now) now
  let plan := select inp
  let leg ← judgeAll cfg {} plan.judged
  return (recordOf cfg inp plan leg, plan.steps)

def withSteps (cfg : LegConfig) (record : PassRecord) (leg : Leg Step) : PassRecord :=
  { record with
    steps := leg.made
    refused := record.refused ++ leg.refused
    mode := modeOf cfg.halted leg.made record.wouldStep }

def recordLeg (token : ℕ) (record : PassRecord) : Program Unit := do
  if !(← holdsLock token) then throw lockLost
  match ← transact ⟨[fence token], [.put .pass record]⟩ [] with
  | some _ => return ()
  | none => throw lockLost

structure Passed where
  record : PassRecord
  deadlineHit : Bool
  recorded : Bool
  released : Bool

inductive Outcome
  | standby
  | passed (p : Passed)

def isOk {α : Type} : Except VerbError α → Bool
  | .ok _ => true
  | .error _ => false

/-- What a pass does under its lock, up to the lock's release. -/
def underLock (kinds : Kinds) (rank : Assembled → List RankedGap) (cfg : LegConfig) :
    Program (PassRecord × Bool × Bool) := do
  let judged ← judgeLeg cfg rank
  let leg ← stepAll kinds cfg {} judged.2
  let record := withSteps cfg judged.1 leg
  if (← nowMs) < cfg.deadlineAtMs then
    let r ← (Verb.tried (recordLeg cfg.token record) : Program (Except VerbError Unit))
    return (record, leg.hit, isOk r)
  else return (record, true, false)

def pass (kinds : Kinds) (rank : Assembled → List RankedGap) (cfg : PassConfig) :
    Program Outcome := do
  let started ← nowMs
  match ← (Verb.tried lockAcquire : Program (Except VerbError ℕ)) with
  | .error (.refused field code) =>
    if code = "locked" then return .standby else throw (.refused field code)
  | .error e => throw e
  | .ok token =>
    let leg : LegConfig :=
      ⟨token, cfg.holder, cfg.shadow, cfg.halted, started + cfg.timeoutSecs * 1000⟩
    let result ← (Verb.tried (underLock kinds rank leg) :
      Program (Except VerbError (PassRecord × Bool × Bool)))
    let released ← (Verb.tried (lockRelease token) : Program (Except VerbError Unit))
    match result with
    | .error e => throw e
    | .ok r =>
      if !isOk released || (!r.2.2 && !r.2.1) then throw (.unfinished r.2.2 (isOk released))
      else return .passed ⟨r.1, r.2.1, r.2.2, isOk released⟩

/-- The calls on the store. -/
inductive Call
  | pass (cfg : PassConfig)
  | ack (actor key : String) (result : AckResult)
  | apply (actor key knob : String)
  | init (actor knob : String) (value : Setting)

inductive Answer
  | pass (o : Outcome)
  | acked
  | applied (result : AckResult)
  | init (new : Bool)

section Run

variable (kinds : Kinds) (rank : Assembled → List RankedGap)

def Call.program : Call → Program Answer
  | .pass cfg => do return .pass (← Goodput.pass kinds rank cfg)
  | .ack actor key result => do
    intentAck kinds actor key result
    return .acked
  | .apply actor key knob => do return .applied (← intentApply kinds actor key knob)
  | .init actor knob value => do return .init (← knobInit kinds actor knob value)

abbrev Turns := List (Turn Env Empty Call)

def run (start : World) (turns : Turns) : Pool World (Except VerbError Answer) Call :=
  Pool.run env (fun d _ ↦ d.elim) (Call.program kinds rank) start turns

end Run

end Spira.Goodput
