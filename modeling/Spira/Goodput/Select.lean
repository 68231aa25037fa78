import Mathlib.Data.List.Dedup
import Mathlib.Data.List.Sort
import Mathlib.Logic.Function.Basic
import Spira.DesiredState.Step
import Spira.DesiredState.Timestamp

/-!
# The action selector

From the sections, the ranked gaps and every intent there is, `select` plans at most one step for
each open gap.  A step touches its neighbourhood: its target and, where it moves capacity, what its
section consumes with everyone who produces that.  An intent in flight holds its neighbourhood, and
so does every step that is planned before.

No two steps of a plan touch one thing, nor does a step touch what an intent in flight holds
(`select_sound`).
-/

set_option autoImplicit false

namespace Spira.Goodput

open DesiredState (Value parseRfc3339 formatRfc3339 stepTo)

/-! ## Sections -/

inductive Freshness
  | fresh
  | stale (ageSecs : Option ℕ) (reason : String)
  deriving DecidableEq

inductive ConditionStatus
  | true
  | false
  | unknown
  deriving DecidableEq

structure Condition where
  type_ : String
  status : ConditionStatus
  reason : String

inductive ActionClass
  | local_
  | capacityRaise
  | capacityLower
  | destructive
  deriving DecidableEq

def ActionClass.isCapacity : ActionClass → Bool
  | capacityRaise | capacityLower => true
  | local_ | destructive => false

structure Action where
  name : String
  class_ : ActionClass
  step : String
  moves : String
  addresses : List String
  expectedEffect : ℚ
  horizon : String
  stopping : Option Bool

/-- One member at one tip that a hold keeps out of the cut. -/
structure RepeatHold where
  id : String
  tip : String

/-- What the assembler adds to a section's own conditions. -/
inductive Derived
  | intentsUnacknowledged (n : ℕ)

structure Current where
  freshness : Freshness
  /-- The name in the section's metadata. -/
  name : String
  conditions : List Condition
  /-- The status fields that have a number for their value. -/
  values : String → Option ℚ
  repeatIdentityHolds : List RepeatHold
  derived : List Derived
  consumes : List String
  produces : List String
  actions : List Action

/-! ## Intents -/

/-- The value of a knob. -/
inductive Setting
  | null
  | number (v : Value)
  | hold (liftedBy : String)
  /-- Any other, as its text. -/
  | other (text : String)
  deriving DecidableEq

def Setting.toValue : Setting → Value
  | number v => v
  | null | hold _ | other _ => .other

inductive AckResult
  | applied
  | alreadyApplied
  | refused (reason : String) (stale : Option Setting)
  deriving DecidableEq

structure Ack where
  at_ : String
  result : AckResult
  observedRev : ℕ
  deriving DecidableEq

inductive JudgementResult
  | fulfilled
  | failed
  deriving DecidableEq

structure Judgement where
  at_ : String
  result : JudgementResult
  observed : ℚ
  deriving DecidableEq

structure By where
  pass : String
  lockToken : ℕ
  deriving DecidableEq

structure Intent where
  id : String
  action : String
  target : String
  from_ : Setting
  to_ : Setting
  moves : String
  /-- The value of the field that it moves, when the step was taken. -/
  baseline : ℚ
  expectedEffect : ℚ
  horizon : String
  addresses : List String
  takenAt : String
  by_ : By
  ack : Option Ack
  judgement : Option Judgement
  deriving DecidableEq

structure ListedIntent where
  key : String
  intent : Intent

def intentsPrefix : String := "intents/"

def intentKey (kind name id : String) : String := intentsPrefix ++ kind ++ "/" ++ name ++ "/" ++ id

def stripPrefix (s p : String) : Option (List Char) :=
  if Text.startsWith s p then some (s.toList.drop p.length) else none

/-- The kind, section name and id that an intent key names. -/
def parseKey (key : String) : Option (String × String × String) :=
  (stripPrefix key intentsPrefix).bind fun rest ↦
    (Text.splitOnce '/' rest).bind fun kind ↦
      (Text.splitOnce '/' kind.2).bind fun name ↦
        if '/' ∉ name.2 ∧ kind.1 ≠ [] ∧ name.1 ≠ [] ∧ name.2 ≠ [] then
          some (String.ofList kind.1, String.ofList name.1, String.ofList name.2)
        else none

/-- The seconds that a unit is. -/
def multOf : Char → Option ℕ
  | 's' => some 1
  | 'm' => some 60
  | 'h' => some 3600
  | 'd' => some 86400
  | _ => none

def parseDuration (s : String) : Option ℕ :=
  (s.toList.getLast?.bind multOf).bind fun mult ↦
    let digits := s.toList.dropLast
    if digits ≠ [] ∧ digits.all Char.isDigit then
      let n := Digits.value digits
      if n < 2 ^ 64 ∧ 0 < n ∧ n * mult < 2 ^ 64 then some (n * mult) else none
    else none

/-! ## What is planned from -/

structure NoLever where
  section_ : String
  conditions : List String
  since : ℕ
  deriving DecidableEq

structure AckRefused where
  intent : String
  reason : String
  deriving DecidableEq

structure Refused where
  section_ : String
  action : String
  code : String
  reason : String
  deriving DecidableEq

structure Judged where
  intent : String
  result : JudgementResult
  baseline : ℚ
  observed : ℚ

structure Step where
  section_ : String
  action : String
  target : String
  from_ : Setting
  to_ : Setting
  /-- The key that the intent was written at. -/
  intent : Option String
  /-- Why it was not. -/
  held : Option String

inductive Mode
  | acting
  | standby
  | halted
  | shadow

/-- What a pass leaves for the next. -/
structure PassRecord where
  n : ℕ
  listRev : ℕ
  at_ : String
  holder : String
  mode : Mode
  /-- The open gaps. -/
  gaps : List String
  steps : List Step
  wouldStep : List Step
  judged : List Judged
  acksRefused : List AckRefused
  refused : List Refused
  exhausted : List String
  noLever : List NoLever
  shadowKinds : List String

def nextN (prev : Option PassRecord) : ℕ := prev.elim 1 (·.n + 1)

structure Assembled where
  /-- The pass's number. -/
  n : ℕ
  listRev : ℕ
  /-- The sections by their names, in their order. -/
  sections : List (String × Current)
  intents : List ListedIntent
  prev : Option PassRecord
  knobs : String → Option Setting
  /-- Whether a section's status has caught up with its spec. -/
  caughtUp : String → Option Bool

def Assembled.current (a : Assembled) (sec : String) : Option Current := a.sections.lookup sec

structure RankedGap where
  section_ : String
  open_ : Bool

structure Inputs where
  assembled : Assembled
  gaps : List RankedGap
  shadow : List String
  halted : Bool
  nowMs : ℕ
  /-- The lock token that every intent of the pass carries. -/
  token : ℕ

/-! ## The plan -/

structure Planned where
  section_ : String
  action : String
  key : String
  intent : Intent
  /-- Why it is not written. -/
  held : Option String

structure Judge where
  key : String
  section_ : String
  result : JudgementResult
  baseline : ℚ
  observed : ℚ

structure Plan where
  judged : List Judge := []
  acksRefused : List AckRefused := []
  steps : List Planned := []
  wouldStep : List Planned := []
  refused : List Refused := []
  exhausted : List String := []
  noLever : List NoLever := []
  terms : List String := []

/-- What one candidate is refused for. -/
inductive Refusal
  | staleInput (s : String)
  | notCaughtUp
  | backOff (until_ : ℕ)
  | inFlight (key : String)
  | upstreamAbsent (resource : String)
  | upstreamStale (s : String)
  | upstreamGapped (s : String)
  | noAndon
  | andonPulled (s : String)
  | stopping
  | knobAbsent (knob : String)
  | knobNotNumeric (knob : String)
  | movesUnreadable (field : String)
  | noHoldTarget (s : String)
  deriving DecidableEq

def repeatIdentityHolds : String := "repeat_identity_holds"

def Refusal.code : Refusal → String
  | staleInput _ => "stale-input"
  | notCaughtUp => "not-caught-up"
  | backOff _ => "back-off"
  | inFlight _ => "in-flight"
  | upstreamAbsent _ => "upstream-absent"
  | upstreamStale _ => "upstream-stale"
  | upstreamGapped _ => "upstream-gapped"
  | noAndon => "no-andon"
  | andonPulled _ => "andon-pulled"
  | stopping => "stopping"
  | knobAbsent _ => "knob-absent"
  | knobNotNumeric _ => "knob-not-numeric"
  | movesUnreadable _ => "moves-unreadable"
  | noHoldTarget _ => "no-hold-target"

def Refusal.reason : Refusal → String
  | staleInput s => s!"stale input: {s}"
  | notCaughtUp => "the target section has not caught up with its spec"
  | backOff until_ => s!"in back-off until {formatRfc3339 until_}"
  | inFlight k => s!"{k} is in flight in this neighbourhood"
  | upstreamAbsent r => s!"upstream absent: no section produces {r}"
  | upstreamStale s => s!"upstream stale: {s}"
  | upstreamGapped s => s!"upstream gapped: {s}"
  | noAndon => "a destructive step needs an andon section, and none exists"
  | andonPulled s => s!"the andon cord is pulled on {s}"
  | stopping => "stops belong to the andon cord"
  | knobAbsent k => s!"{k} is absent, so no from can be read"
  | knobNotNumeric k => s!"{k} is not a number"
  | movesUnreadable f => s!"{f} has no value to take a baseline from"
  | noHoldTarget s =>
    s!"{s} names no member at a tip to hold in {repeatIdentityHolds} that is not held already"

/-! ## Targets -/

def intentsUnacknowledged : String := "IntentsUnacknowledged"

/-- Back-off never exceeds a day. -/
def backoffCapSecs : ℕ := 24 * 3600

/-- `horizon × 2 ^ k` for `k` failures in a row, and at most a day. -/
def backoffSecs (horizon k : ℕ) : ℕ :=
  if k < 64 ∧ horizon * 2 ^ k < 2 ^ 64 then min (horizon * 2 ^ k) backoffCapSecs else backoffCapSecs

def knobKey (sec action : String) : String := "knobs/" ++ sec ++ "/" ++ action

/-- The repository a member of which the action holds. -/
def holdRepo (sec action : String) : Option String :=
  (Text.splitOnce '/' sec.toList).bind fun kind ↦
    if String.ofList kind.1 = "RoundController" ∧ action = "hold-member" then
      some (String.ofList kind.2)
    else none

def holdKey (repo id tip : String) : String :=
  "knobs/RoundController/" ++ repo ++ "/hold/" ++ id ++ "/" ++ tip

def holdLiftedBy : String := "reconciler"

/-- The knob that a step moves: of holds, the first that there is not yet. -/
def targetOf (sec : String) (cur : Current) (act : Action) (knobs : String → Option Setting) :
    Except Refusal String :=
  match holdRepo sec act.name with
  | none => .ok (knobKey sec act.name)
  | some repo =>
    match (cur.repeatIdentityHolds.map fun h ↦ holdKey repo h.id h.tip).find?
        fun k ↦ (knobs k).isNone with
    | some k => .ok k
    | none => .error (.noHoldTarget sec)

def fromTo (sec : String) (act : Action) (target : String) (knobs : String → Option Setting) :
    Except Refusal (Setting × Setting) :=
  if (holdRepo sec act.name).isSome then .ok (.null, .hold holdLiftedBy)
  else
    match knobs target with
    | none => .error (.knobAbsent target)
    | some start =>
      match stepTo act.step start.toValue with
      | none => .error (.knobNotNumeric target)
      | some v => .ok (start, .number v)

def sectionOf (key : String) : Option String := (parseKey key).map fun k ↦ k.1 ++ "/" ++ k.2.1

def kindOf (sec : String) : String :=
  match Text.splitOnce '/' sec.toList with
  | some (kind, _) => String.ofList kind
  | none => sec

/-! ## The intents read back -/

def horizonEnd (i : Intent) : Option ℕ :=
  (parseRfc3339 i.takenAt).bind fun taken ↦ (parseDuration i.horizon).map (taken + ·)

/-- Moving from `baseline` to `observed` meets what was expected, in its direction. -/
def met (baseline observed expected : ℚ) : Bool :=
  if expected < 0 then observed - baseline ≤ expected else observed - baseline ≥ expected

/-- What the selector learns from an intent. -/
inductive ReadBack
  | inFlight
  | unacknowledged
  | refused
  | judged (result : JudgementResult) (at_ : ℕ)
  deriving DecidableEq

/-- The end of the intent's horizon has not passed. -/
def within (now : ℕ) (i : Intent) : Bool := (horizonEnd i).any fun e ↦ now ≤ e

/-- The value that an intent's field has, where the section is fresh. -/
def observedOf (a : Assembled) (sec : String) (i : Intent) : Option ℚ :=
  ((a.current sec).filter fun c ↦ c.freshness = .fresh).bind fun c ↦ c.values i.moves

def resultOf (i : Intent) (observed : ℚ) : JudgementResult :=
  if met i.baseline observed i.expectedEffect then .fulfilled else .failed

def readBack (a : Assembled) (now : ℕ) (i : Intent) (sec : String) : ReadBack :=
  match i.judgement with
  | some j => .judged j.result ((parseRfc3339 j.at_).getD now)
  | none =>
    match i.ack with
    | none => if within now i then .inFlight else .unacknowledged
    | some ack =>
      match ack.result with
      | .refused .. => .refused
      | .applied | .alreadyApplied =>
        if within now i then .inFlight
        else
          match observedOf a sec i with
          | none => .inFlight
          | some observed => .judged (resultOf i observed) now

/-- The refusal that an intent's owner acknowledged it with, where that is since the last pass. -/
def ackRefusedOf (a : Assembled) (key : String) (i : Intent) : List AckRefused :=
  match i.judgement, i.ack with
  | none, some ⟨at_, .refused reason _, _⟩ =>
    let since := a.prev.bind fun p ↦ parseRfc3339 p.at_
    if since.all fun p ↦ (parseRfc3339 at_).all fun t ↦ p < t then [⟨key, reason⟩] else []
  | _, _ => []

/-- The judgement that is due on an intent. -/
def judgeOf (a : Assembled) (now : ℕ) (key : String) (i : Intent) (sec : String) : List Judge :=
  match i.judgement, i.ack with
  | none, some ⟨_, .applied, _⟩ | none, some ⟨_, .alreadyApplied, _⟩ =>
    if within now i then []
    else
      match observedOf a sec i with
      | none => []
      | some observed => [⟨key, sec, resultOf i observed, i.baseline, observed⟩]
  | _, _ => []

structure JudgedAt where
  taken : ℕ
  result : JudgementResult
  at_ : ℕ

/-- The attempts of one action on one target. -/
structure Attempts where
  lastTaken : ℕ := 0
  judged : List JudgedAt := []
  horizon : ℕ := 0

/-- How many of the latest attempts failed. -/
def failures (sorted : List JudgedAt) : ℕ :=
  (sorted.reverse.takeWhile fun j ↦ j.result = .failed).length

/-- When back-off ends, if it has not. -/
def Attempts.backoffUntil (h : Attempts) (now : ℕ) : Option ℕ :=
  let sorted := h.judged.insertionSort fun x y ↦ x.taken ≤ y.taken
  let k := failures sorted
  (sorted.getLast?.filter fun _ ↦ 0 < k).bind fun last ↦
    let until_ := last.at_ + backoffSecs h.horizon k
    if now < until_ then some until_ else none

/-! ## The flow -/

def producers (a : Assembled) (resource : String) : List String :=
  (a.sections.filter fun s ↦ resource ∈ s.2.produces).map (·.1)

def consumes (a : Assembled) (sec : String) : List String := (a.current sec).elim [] (·.consumes)

/-- The members of a set of texts, in their order. -/
def inOrder (l : List String) : List String := l.dedup.insertionSort (· ≤ ·)

/-- What a step touches. -/
def neighbourhood (a : Assembled) (sec : String) (class_ : ActionClass) (target : String) :
    List String :=
  inOrder (("target:" ++ target) ::
    if class_.isCapacity then
      (consumes a sec).flatMap fun r ↦
        ("resource:" ++ r) :: (producers a r).map ("section:" ++ ·)
    else [])

def neighbourSections (a : Assembled) (sec : String) (class_ : ActionClass) : List String :=
  if class_.isCapacity then (consumes a sec).flatMap (producers a) else []

def Derived.condition : Derived → String
  | intentsUnacknowledged _ => Goodput.intentsUnacknowledged

def openConditions (cur : Current) : List String :=
  (cur.conditions.filter fun c ↦ c.status = .true).map (·.type_) ++ cur.derived.map (·.condition)

def andon : String := "Andon"

def andonSections (a : Assembled) : List Current :=
  (a.sections.filter fun s ↦ kindOf s.1 = andon).map (·.2)

/-- A pulled cord names what it stops, a section or a knob. -/
def andonPulledOn (a : Assembled) (sec target : String) : Bool :=
  (andonSections a).any fun c ↦
    c.conditions.any fun cond ↦ cond.status = .true ∧ (cond.reason = sec ∨ cond.reason = target)

def isFresh (cur : Option Current) : Bool := cur.any fun c ↦ c.freshness = .fresh

def isShadowed (shadow : List String) (kind : String) : Bool :=
  shadow.any fun k ↦ k = "*" ∨ k = kind

/-! ## The selector -/

/-- The attempts, by section, action and target. -/
abbrev AttemptsMap := List ((String × String × String) × Attempts)

def AttemptsMap.put (m : AttemptsMap) (k : String × String × String) (h : Attempts) : AttemptsMap :=
  match m with
  | [] => [(k, h)]
  | e :: m => if e.1 = k then (k, h) :: m else e :: AttemptsMap.put m k h

/-- What is held, and by which intent. -/
abbrev Held := String → Option String

def hold (held : Held) (members : List String) (key : String) : Held :=
  members.foldl (fun held m ↦ Function.update held m (some key)) held

def opens (inp : Inputs) (sec : String) : Bool := inp.gaps.any fun g ↦ g.open_ ∧ g.section_ = sec

def refuseIf {ε : Type} (b : Bool) (r : ε) : Except ε Unit := if b then .error r else .ok ()

def refuseSome {ε : Type} (r : Option ε) : Except ε Unit :=
  match r with
  | some r => .error r
  | none => .ok ()

/-- Why a section that consumes may not raise its capacity. -/
def upstream (inp : Inputs) (sec : String) : Option Refusal :=
  (consumes inp.assembled sec).findSome? fun r ↦
    let producers := producers inp.assembled r
    if producers.isEmpty then some (.upstreamAbsent r)
    else
      producers.findSome? fun p ↦
        if !isFresh (inp.assembled.current p) then some (.upstreamStale p)
        else if opens inp p then some (.upstreamGapped p)
        else none

/-- The step that an action takes, or why it may not be taken. -/
def eligible (inp : Inputs) (attempts : AttemptsMap) (held : Held) (sec : String) (cur : Current)
    (act : Action) : Except Refusal Planned := do
  let a := inp.assembled
  let now := inp.nowMs / 1000
  refuseIf (cur.freshness ≠ .fresh) (.staleInput sec)
  refuseIf (a.caughtUp sec ≠ some true) .notCaughtUp
  refuseSome (if act.class_ = .capacityRaise then upstream inp sec else none)
  refuseSome (((neighbourSections a sec act.class_).find? fun n ↦ !isFresh (a.current n)).map
    .staleInput)
  refuseSome (((andonSections a).find? fun c ↦ c.freshness ≠ .fresh).map fun c ↦
    .staleInput (andon ++ "/" ++ c.name))
  refuseIf (act.stopping = some true) .stopping
  let target ← targetOf sec cur act a.knobs
  refuseSome (((attempts.lookup (sec, act.name, target)).bind (·.backoffUntil now)).map .backOff)
  refuseSome (((neighbourhood a sec act.class_ target).findSome? held).map .inFlight)
  refuseIf (act.class_ = .destructive ∧ (andonSections a).isEmpty) .noAndon
  refuseIf (andonPulledOn a sec target) (.andonPulled sec)
  let fromTo ← fromTo sec act target a.knobs
  match cur.values act.moves with
  | none => throw (.movesUnreadable act.moves)
  | some baseline =>
    let id := s!"p{a.n}-r{a.listRev}-{act.name}"
    let kind := kindOf sec
    let name := match Text.splitOnce '/' sec.toList with
      | some (_, name) => String.ofList name
      | none => ""
    return {
      section_ := sec
      action := act.name
      key := intentKey kind name id
      intent := {
        id
        action := act.name
        target
        from_ := fromTo.1
        to_ := fromTo.2
        moves := act.moves
        baseline
        expectedEffect := act.expectedEffect
        horizon := act.horizon
        addresses := act.addresses
        takenAt := formatRfc3339 now
        by_ := ⟨toString a.n, inp.token⟩
        ack := none
        judgement := none }
      held :=
        if inp.halted then some "world halted"
        else if isShadowed inp.shadow kind then some s!"shadow: {kind}"
        else none }

def lastAttempt (attempts : AttemptsMap) (sec act : String) : ℕ :=
  ((attempts.filter fun h ↦ h.1.1 = sec ∧ h.1.2.1 = act).map (·.2.lastTaken)).foldl max 0

/-- The candidate whose last attempt is longest ago comes first. -/
def before (attempts : AttemptsMap) (sec : String) (x y : Action) : Prop :=
  lastAttempt attempts sec x.name < lastAttempt attempts sec y.name ∨
    lastAttempt attempts sec x.name = lastAttempt attempts sec y.name ∧ x.name ≤ y.name

instance (attempts : AttemptsMap) (sec : String) : DecidableRel (before attempts sec) :=
  fun _ _ ↦ inferInstanceAs (Decidable (_ ∨ _))

/-- The first candidate that may be taken, or what each of them is refused for. -/
def choose (elig : Action → Except Refusal Planned) :
    List Action → List (String × Refusal) ⊕ (Action × Planned)
  | [] => .inl []
  | act :: acts =>
    match elig act with
    | .ok p => .inr (act, p)
    | .error r =>
      match choose elig acts with
      | .inl refusals => .inl ((act.name, r) :: refusals)
      | .inr taken => .inr taken

def Refusal.isBackOff : Refusal → Bool
  | backOff _ => true
  | _ => false

/-- The selector as it walks the gaps. -/
structure Selector where
  held : Held
  plan : Plan

def sinceOf (a : Assembled) (sec : String) (conditions : List String) : ℕ :=
  ((a.prev.bind fun p ↦ p.noLever.find? fun l ↦ l.section_ = sec ∧ l.conditions = conditions).map
    (·.since)).getD a.n

/-- The candidates that address an open condition. -/
def candidatesOf (attempts : AttemptsMap) (sec : String) (cur : Current) : List Action :=
  (cur.actions.filter fun act ↦ act.addresses.any (· ∈ openConditions cur)).insertionSort
    (before attempts sec)

/-- The open conditions that no action addresses. -/
def unaddressedOf (cur : Current) : List String :=
  (openConditions cur).filter fun c ↦ !cur.actions.any fun act ↦ c ∈ act.addresses

/-- The conditions of a gap that no action addresses are noted. -/
def noteNoLever (inp : Inputs) (attempts : AttemptsMap) (sec : String) (cur : Current)
    (plan : Plan) : Plan :=
  let unaddressed := unaddressedOf cur
  if !unaddressed.isEmpty || (candidatesOf attempts sec cur).isEmpty then
    { plan with
      noLever := plan.noLever ++ [⟨sec, unaddressed, sinceOf inp.assembled sec unaddressed⟩] }
  else plan

/-- The step that was chosen for a gap, or why there is none. -/
def settle (a : Assembled) (sec : String) (s : Selector) :
    List (String × Refusal) ⊕ (Action × Planned) → Selector
  | .inr (act, p) =>
    { held := hold s.held (neighbourhood a sec act.class_ p.intent.target) p.key
      plan :=
        if p.held.isSome then { s.plan with wouldStep := s.plan.wouldStep ++ [p] }
        else { s.plan with steps := s.plan.steps ++ [p] } }
  | .inl refusals =>
    if refusals.all fun r ↦ r.2.isBackOff then
      { s with plan := { s.plan with exhausted := s.plan.exhausted ++ [sec] } }
    else
      { s with
        plan := { s.plan with
          refused := s.plan.refused ++ refusals.map fun r ↦ ⟨sec, r.1, r.2.code, r.2.reason⟩ } }

/-- An owner that has not acknowledged its intents takes no more of them. -/
def ownerSilent (cur : Current) : Bool := intentsUnacknowledged ∈ unaddressedOf cur

def gap (inp : Inputs) (attempts : AttemptsMap) (s : Selector) (sec : String) : Selector :=
  match inp.assembled.current sec with
  | none => s
  | some cur =>
    if cur.actions.isEmpty then { s with plan := { s.plan with terms := s.plan.terms ++ [sec] } }
    else
      let noted := { s with plan := noteNoLever inp attempts sec cur s.plan }
      let candidates := candidatesOf attempts sec cur
      if candidates.isEmpty || ownerSilent cur then noted
      else
        settle inp.assembled sec noted
          (choose (eligible inp attempts s.held sec cur) candidates)

/-- The selector as it reads the intents back. -/
structure History where
  attempts : AttemptsMap
  held : Held
  judged : List Judge
  acksRefused : List AckRefused

/-- The class of an intent's action.  One that is declared no longer holds as widely as a capacity
step could. -/
def classOf (a : Assembled) (sec action : String) : ActionClass :=
  (((a.current sec).bind fun c ↦ c.actions.find? (·.name = action)).map (·.class_)).getD
    .capacityRaise

/-- An intent that is read back so holds its neighbourhood.  A late owner may still apply a capacity
step, so that one keeps the shared resource. -/
def holds (rb : ReadBack) (class_ : ActionClass) : Bool :=
  match rb with
  | .inFlight => true
  | .unacknowledged => class_.isCapacity
  | .refused | .judged .. => false

def Attempts.taking (h : Attempts) (taken : ℕ) (i : Intent) (rb : ReadBack) : Attempts where
  lastTaken := max h.lastTaken taken
  horizon :=
    if h.lastTaken ≤ taken then (parseDuration i.horizon).getD backoffCapSecs else h.horizon
  judged :=
    match rb with
    | .judged result at_ => h.judged ++ [⟨taken, result, at_⟩]
    | .inFlight | .unacknowledged | .refused => h.judged

def History.visit (a : Assembled) (now : ℕ) (h : History) (li : ListedIntent) : History :=
  match sectionOf li.key with
  | none => h
  | some sec =>
    let i := li.intent
    let rb := readBack a now i sec
    let attempts := (h.attempts.lookup (sec, i.action, i.target)).getD {}
    let class_ := classOf a sec i.action
    { attempts :=
        h.attempts.put (sec, i.action, i.target)
          (attempts.taking ((parseRfc3339 i.takenAt).getD 0) i rb)
      held :=
        if holds rb class_ then hold h.held (neighbourhood a sec class_ i.target) li.key else h.held
      judged := h.judged ++ judgeOf a now li.key i sec
      acksRefused := h.acksRefused ++ ackRefusedOf a li.key i }

def history (a : Assembled) (now : ℕ) : History :=
  a.intents.foldl (History.visit a now) ⟨[], fun _ ↦ none, [], []⟩

def openGaps (inp : Inputs) : List String := (inp.gaps.filter (·.open_)).map (·.section_)

def select (inp : Inputs) : Plan :=
  let h := history inp.assembled (inp.nowMs / 1000)
  ((openGaps inp).foldl (gap inp h.attempts)
    ⟨h.held, { judged := h.judged, acksRefused := h.acksRefused }⟩).plan

/-! ## What holds what -/

theorem hold_apply (held : Held) (members : List String) (key m : String) :
    hold held members key m = if m ∈ members then some key else held m := by
  induction members generalizing held with
  | nil => rfl
  | cons x members ih =>
    rw [hold, List.foldl_cons]
    refine (ih _).trans ?_
    by_cases hm : m ∈ members
    · rw [if_pos hm, if_pos (List.mem_cons_of_mem x hm)]
    · rw [if_neg hm]
      by_cases hx : m = x
      · rw [hx, Function.update_self, if_pos List.mem_cons_self]
      · rw [Function.update_of_ne hx, if_neg fun h ↦ (List.mem_cons.mp h).elim hx hm]

theorem hold_of_mem {held : Held} {members : List String} {key m : String} (h : m ∈ members) :
    hold held members key m = some key := by
  rw [hold_apply, if_pos h]

/-- What is held stays held. -/
theorem isSome_hold {held : Held} {members : List String} {key m : String}
    (h : (held m).isSome) : (hold held members key m).isSome := by
  rw [hold_apply]
  split
  · rfl
  · exact h

theorem mem_inOrder {l : List String} {x : String} : x ∈ inOrder l ↔ x ∈ l :=
  (List.mem_insertionSort _).trans List.mem_dedup

/-- A step touches its target. -/
theorem target_mem_neighbourhood (a : Assembled) (sec : String) (class_ : ActionClass)
    (target : String) : "target:" ++ target ∈ neighbourhood a sec class_ target :=
  mem_inOrder.mpr List.mem_cons_self

/-! ## One step -/

theorem refuseIf_eq_ok {ε : Type} {b : Bool} {r : ε} {u : Unit} :
    refuseIf b r = .ok u ↔ b = false := by
  rw [refuseIf]
  by_cases hb : b = true
  · rw [if_pos hb, hb]
    simp
  · rw [if_neg hb]
    exact iff_of_true rfl (Bool.eq_false_iff.mpr hb)

theorem refuseSome_eq_ok {ε : Type} {r : Option ε} {u : Unit} :
    refuseSome r = .ok u ↔ r = none := by
  obtain rfl | ⟨r, rfl⟩ := r.eq_none_or_eq_some
  · exact iff_of_true rfl rfl
  · simp [refuseSome]

theorem bind_eq_ok {ε α β : Type} {x : Except ε α} {f : α → Except ε β} {b : β} :
    (x >>= f) = .ok b ↔ ∃ a, x = .ok a ∧ f a = .ok b := by
  cases x with
  | ok a =>
    constructor
    · exact fun h ↦ ⟨a, rfl, h⟩
    · rintro ⟨a', ha, h⟩
      exact Except.ok.inj ha ▸ h
  | error e =>
    constructor
    · rintro ⟨⟩
    · rintro ⟨a, ⟨⟩, -⟩

/-- What is known of a step that an action takes. -/
structure Takes (inp : Inputs) (attempts : AttemptsMap) (sec : String) (cur : Current)
    (act : Action) (p : Planned) : Prop where
  section_ : p.section_ = sec
  action : p.action = act.name
  fresh : cur.freshness = .fresh
  caughtUp : inp.assembled.caughtUp sec = some true
  upstream : act.class_ = .capacityRaise → upstream inp sec = none
  neighbours : ∀ n ∈ neighbourSections inp.assembled sec act.class_,
    isFresh (inp.assembled.current n) = true
  andons : ∀ c ∈ andonSections inp.assembled, c.freshness = .fresh
  notStopping : act.stopping ≠ some true
  target : targetOf sec cur act inp.assembled.knobs = .ok p.intent.target
  /-- It is in no back-off. -/
  rested : ∀ h, attempts.lookup (sec, act.name, p.intent.target) = some h →
    h.backoffUntil (inp.nowMs / 1000) = none
  andon : act.class_ = .destructive → andonSections inp.assembled ≠ []
  notPulled : andonPulledOn inp.assembled sec p.intent.target = false
  fromTo : fromTo sec act p.intent.target inp.assembled.knobs = .ok (p.intent.from_, p.intent.to_)
  baseline : cur.values act.moves = some p.intent.baseline
  moves : p.intent.moves = act.moves
  expected : p.intent.expectedEffect = act.expectedEffect
  horizon : p.intent.horizon = act.horizon
  taken : p.intent.takenAt = formatRfc3339 (inp.nowMs / 1000)
  token : p.intent.by_.lockToken = inp.token
  ack : p.intent.ack = none
  judgement : p.intent.judgement = none
  /-- It is written just where the world goes on and the section's kind is not shadowed. -/
  written : p.held = none ↔ inp.halted = false ∧ isShadowed inp.shadow (kindOf sec) = false

/-- **A step that is eligible is in order**, and touches nothing that is held. -/
theorem eligible_eq_ok {inp : Inputs} {attempts : AttemptsMap} {held : Held} {sec : String}
    {cur : Current} {act : Action} {p : Planned}
    (h : eligible inp attempts held sec cur act = .ok p) :
    Takes inp attempts sec cur act p ∧
      ∀ m ∈ neighbourhood inp.assembled sec act.class_ p.intent.target, held m = none := by
  rw [eligible] at h
  obtain ⟨_, hfresh, h⟩ := bind_eq_ok.mp h
  obtain ⟨_, hcaught, h⟩ := bind_eq_ok.mp h
  obtain ⟨_, hupstream, h⟩ := bind_eq_ok.mp h
  obtain ⟨_, hneighbours, h⟩ := bind_eq_ok.mp h
  obtain ⟨_, handons, h⟩ := bind_eq_ok.mp h
  obtain ⟨_, hstopping, h⟩ := bind_eq_ok.mp h
  obtain ⟨target, htarget, h⟩ := bind_eq_ok.mp h
  obtain ⟨_, hbackoff, h⟩ := bind_eq_ok.mp h
  obtain ⟨_, hfree, h⟩ := bind_eq_ok.mp h
  obtain ⟨_, handon, h⟩ := bind_eq_ok.mp h
  obtain ⟨_, hpulled, h⟩ := bind_eq_ok.mp h
  obtain ⟨fromTo, hfromTo, h⟩ := bind_eq_ok.mp h
  rw [refuseIf_eq_ok] at hfresh hcaught hstopping handon hpulled
  rw [refuseSome_eq_ok] at hupstream hneighbours handons hbackoff hfree
  obtain hnone | ⟨baseline, hbaseline⟩ := (cur.values act.moves).eq_none_or_eq_some
  · rw [hnone] at h
    cases h
  rw [hbaseline] at h
  obtain rfl := Except.ok.inj h
  refine ⟨?_, fun m hm ↦ List.findSome?_eq_none_iff.mp (Option.map_eq_none_iff.mp hfree) m hm⟩
  exact {
    section_ := rfl
    action := rfl
    fresh := of_not_not (of_decide_eq_false hfresh)
    caughtUp := of_not_not (of_decide_eq_false hcaught)
    upstream := fun hraise ↦ (if_pos hraise).symm.trans hupstream
    neighbours := fun n hn ↦ by
      have hn := List.find?_eq_none.mp (Option.map_eq_none_iff.mp hneighbours) n hn
      rwa [Bool.not_eq_true, Bool.not_eq_false'] at hn
    andons := fun c hc ↦ by
      have hc := List.find?_eq_none.mp (Option.map_eq_none_iff.mp handons) c hc
      exact of_not_not fun hne ↦ hc (decide_eq_true hne)
    notStopping := of_decide_eq_false hstopping
    target := htarget
    rested := fun h hh ↦ by
      rw [hh] at hbackoff
      exact Option.map_eq_none_iff.mp hbackoff
    andon := fun hclass hempty ↦
      of_decide_eq_false handon ⟨hclass, List.isEmpty_iff.mpr hempty⟩
    notPulled := hpulled
    fromTo := hfromTo
    baseline := hbaseline
    moves := rfl
    expected := rfl
    horizon := rfl
    taken := rfl
    token := rfl
    ack := rfl
    judgement := rfl
    written := by
      show (if inp.halted = true then some "world halted"
        else if isShadowed inp.shadow (kindOf sec) = true then _ else none) = none ↔ _
      by_cases hhalted : inp.halted = true
      · rw [if_pos hhalted, hhalted]
        simp
      · rw [if_neg hhalted]
        by_cases hshadow : isShadowed inp.shadow (kindOf sec) = true
        · rw [if_pos hshadow, hshadow]
          simp
        · rw [if_neg hshadow]
          exact iff_of_true rfl ⟨Bool.eq_false_iff.mpr hhalted, Bool.eq_false_iff.mpr hshadow⟩ }


/-! ## The intents -/

section History

variable {a : Assembled} {now : ℕ} {li : ListedIntent} {sec m : String}

/-- An intent of this section holds its neighbourhood. -/
def Holds (a : Assembled) (now : ℕ) (li : ListedIntent) (sec : String) : Prop :=
  sectionOf li.key = some sec ∧
    holds (readBack a now li.intent sec) (classOf a sec li.intent.action) = true

/-- What an intent touches. -/
def reach (a : Assembled) (li : ListedIntent) (sec : String) : List String :=
  neighbourhood a sec (classOf a sec li.intent.action) li.intent.target

theorem isSome_visit {h : History} (hm : (h.held m).isSome) :
    ((h.visit a now li).held m).isSome := by
  rw [History.visit]
  obtain hnone | ⟨sec, hsec⟩ := (sectionOf li.key).eq_none_or_eq_some
  · rw [hnone]
    exact hm
  · rw [hsec]
    dsimp only
    split
    · exact isSome_hold hm
    · exact hm

theorem held_visit (h : History) (hli : Holds a now li sec) (hm : m ∈ reach a li sec) :
    ((h.visit a now li).held m).isSome := by
  rw [reach] at hm
  rw [History.visit, hli.1]
  dsimp only
  rw [if_pos hli.2, hold_of_mem hm]
  rfl

theorem history_append (l : List ListedIntent) (h : History) (hm : (h.held m).isSome) :
    ((l.foldl (History.visit a now) h).held m).isSome := by
  induction l generalizing h with
  | nil => exact hm
  | cons li l ih => exact ih _ (isSome_visit hm)

/-- **What an intent in flight touches is held.** -/
theorem held_history (hmem : li ∈ a.intents) (hli : Holds a now li sec) (hm : m ∈ reach a li sec) :
    ((history a now).held m).isSome := by
  obtain ⟨pre, post, hsplit⟩ := List.append_of_mem hmem
  rw [history, hsplit, List.foldl_append, List.foldl_cons]
  exact history_append post _ (held_visit _ hli hm)

/-- The judgements that are due on an intent. -/
def dueOn (a : Assembled) (now : ℕ) (li : ListedIntent) : List Judge :=
  (sectionOf li.key).elim [] (judgeOf a now li.key li.intent)

theorem judged_foldl (l : List ListedIntent) (h : History) :
    (l.foldl (History.visit a now) h).judged = h.judged ++ l.flatMap (dueOn a now) := by
  induction l generalizing h with
  | nil => exact (List.append_nil _).symm
  | cons li l ih =>
    rw [List.foldl_cons, ih, List.flatMap_cons, ← List.append_assoc]
    congr 1
    rw [History.visit, dueOn]
    obtain hnone | ⟨sec, hsec⟩ := (sectionOf li.key).eq_none_or_eq_some
    · rw [hnone]
      exact (List.append_nil _).symm
    · rw [hsec]
      rfl

theorem judged_history : (history a now).judged = a.intents.flatMap (dueOn a now) :=
  judged_foldl a.intents _

/-- A judgement is due on an intent that its owner took, past its horizon, from a fresh value. -/
theorem mem_judgeOf {key : String} {i : Intent} {j : Judge} (h : j ∈ judgeOf a now key i sec) :
    i.judgement = none ∧ (∃ ack, i.ack = some ack ∧ ∀ r v, ack.result ≠ .refused r v) ∧
      within now i = false ∧ j.key = key ∧
      ∃ observed, observedOf a sec i = some observed ∧ j.observed = observed ∧
        j.result = resultOf i observed := by
  rw [judgeOf] at h
  split at h
  case h_3 => cases h
  all_goals
    rename_i at_ rev hjudgement hack
    by_cases hwithin : within now i = true
    · rw [if_pos hwithin] at h
      cases h
    rw [if_neg hwithin] at h
    obtain hnone | ⟨observed, hobserved⟩ := (observedOf a sec i).eq_none_or_eq_some
    · rw [hnone] at h
      cases h
    rw [hobserved] at h
    obtain rfl := List.mem_singleton.mp h
    refine ⟨hjudgement, ⟨_, hack, fun r v ↦ by simp⟩, Bool.eq_false_iff.mpr hwithin, rfl, observed,
      hobserved, rfl, rfl⟩

end History

/-! ## The gaps -/

section Gaps

variable {inp : Inputs} {h : History} {secs : List String} {s : Selector} {sec : String}

theorem choose_eq_inr {elig : Action → Except Refusal Planned} {acts : List Action} {act : Action}
    {p : Planned} (h : choose elig acts = .inr (act, p)) : act ∈ acts ∧ elig act = .ok p := by
  induction acts with
  | nil => cases h
  | cons x acts ih =>
    rw [choose] at h
    cases hx : elig x with
    | ok q =>
      rw [hx] at h
      cases h
      exact ⟨List.mem_cons_self, hx⟩
    | error r =>
      rw [hx] at h
      dsimp only at h
      cases hrest : choose elig acts with
      | inl refusals =>
        rw [hrest] at h
        cases h
      | inr taken =>
        rw [hrest] at h
        cases h
        obtain ⟨hmem, hok⟩ := ih hrest
        exact ⟨List.mem_cons_of_mem x hmem, hok⟩

/-- What a step that was taken touches. -/
def touches (a : Assembled) (t : Action × Planned) : List String :=
  neighbourhood a t.2.section_ t.1.class_ t.2.intent.target

/-- A step is one of its section's actions, which addresses a condition that is open there. -/
def Due (inp : Inputs) (attempts : AttemptsMap) (t : Action × Planned) : Prop :=
  ∃ cur, inp.assembled.current t.2.section_ = some cur ∧ t.1 ∈ cur.actions ∧
    (∃ c ∈ t.1.addresses, c ∈ openConditions cur) ∧ ownerSilent cur = false ∧
    Takes inp attempts t.2.section_ cur t.1 t.2

/-- What is known of the steps that are taken for some of the gaps. -/
structure Steps (inp : Inputs) (h : History) (secs : List String)
    (taken : List (Action × Planned)) : Prop where
  due : ∀ t ∈ taken, Due inp h.attempts t
  /-- No gap has more than one. -/
  sections : (taken.map (·.2.section_)).Sublist secs
  free : ∀ t ∈ taken, ∀ m ∈ touches inp.assembled t, h.held m = none
  apart : taken.Pairwise fun t u ↦
    (touches inp.assembled t).Disjoint (touches inp.assembled u)

/-- What is known of the selector after some of the gaps. -/
structure Walked (inp : Inputs) (h : History) (secs : List String) (s : Selector)
    (taken : List (Action × Planned)) : Prop where
  took : Steps inp h secs taken
  steps : s.plan.steps = (taken.map (·.2)).filter (·.held.isNone)
  wouldStep : s.plan.wouldStep = (taken.map (·.2)).filter (·.held.isSome)
  judged : s.plan.judged = h.judged
  held : ∀ m, (h.held m).isSome ∨ (∃ t ∈ taken, m ∈ touches inp.assembled t) → (s.held m).isSome

theorem Steps.skip {taken : List (Action × Planned)} (hs : Steps inp h secs taken) :
    Steps inp h (secs ++ [sec]) taken :=
  { hs with sections := hs.sections.trans (List.sublist_append_left _ _) }

theorem steps_noteNoLever {attempts : AttemptsMap} {cur : Current} {plan : Plan} :
    (noteNoLever inp attempts sec cur plan).steps = plan.steps ∧
      (noteNoLever inp attempts sec cur plan).wouldStep = plan.wouldStep ∧
      (noteNoLever inp attempts sec cur plan).judged = plan.judged := by
  rw [noteNoLever]
  split <;> exact ⟨rfl, rfl, rfl⟩

/-- A walk goes on where only what is noted changes. -/
theorem Walked.noted {taken : List (Action × Planned)} {s' : Selector}
    (hw : Walked inp h secs s taken) (hheld : s'.held = s.held)
    (hplan : s'.plan.steps = s.plan.steps ∧ s'.plan.wouldStep = s.plan.wouldStep ∧
      s'.plan.judged = s.plan.judged) : Walked inp h (secs ++ [sec]) s' taken where
  took := hw.took.skip
  steps := hplan.1.trans hw.steps
  wouldStep := hplan.2.1.trans hw.wouldStep
  judged := hplan.2.2.trans hw.judged
  held m hm := by
    rw [hheld]
    exact hw.held m hm

/-- A walk takes a step that touches nothing held. -/
theorem Walked.step {taken : List (Action × Planned)} {s' : Selector} {act : Action} {p : Planned}
    (hw : Walked inp h secs s taken)
    (hplan : s'.plan.steps = s.plan.steps ∧ s'.plan.wouldStep = s.plan.wouldStep ∧
      s'.plan.judged = s.plan.judged) (hsec : p.section_ = sec) (hdue : Due inp h.attempts (act, p))
    (hfree : ∀ m ∈ neighbourhood inp.assembled sec act.class_ p.intent.target, s.held m = none)
    (hheld : s'.held = s.held) :
    Walked inp h (secs ++ [sec]) (settle inp.assembled sec s' (.inr (act, p)))
      (taken ++ [(act, p)]) := by
  have htouches : touches inp.assembled (act, p) =
      neighbourhood inp.assembled sec act.class_ p.intent.target := by rw [touches, hsec]
  have hfreed {m : String} (hm : m ∈ touches inp.assembled (act, p)) : s.held m = none :=
    hfree m (htouches ▸ hm)
  have hplanned : (taken ++ [(act, p)]).map (·.2) = taken.map (·.2) ++ [p] := by
    rw [List.map_append]
    rfl
  refine ⟨⟨fun t ht ↦ ?_, ?_, fun t ht m hm ↦ ?_, ?_⟩, ?_, ?_, ?_, fun m hm ↦ ?_⟩
  · rcases List.mem_append.mp ht with ht | ht
    · exact hw.took.due t ht
    · rw [List.mem_singleton.mp ht]
      exact hdue
  · rw [List.map_append]
    refine hw.took.sections.append ?_
    rw [List.map_singleton, hsec]
  · rcases List.mem_append.mp ht with ht | ht
    · exact hw.took.free t ht m hm
    · rw [List.mem_singleton.mp ht] at hm
      by_contra hne
      have hsome := hw.held m (.inl (Option.isSome_iff_ne_none.mpr hne))
      rw [hfreed hm] at hsome
      cases hsome
  · refine List.pairwise_append.mpr ⟨hw.took.apart, List.pairwise_singleton _ _, ?_⟩
    intro t ht u hu m hmt hmu
    rw [List.mem_singleton.mp hu] at hmu
    have hsome := hw.held m (.inr ⟨t, ht, hmt⟩)
    rw [hfreed hmu] at hsome
    cases hsome
  · rw [hplanned, List.filter_append, ← hw.steps, ← hplan.1, settle]
    by_cases hp : p.held.isSome = true
    · simp [hp, Option.isSome_iff_ne_none.mp hp]
    · simp [Option.not_isSome_iff_eq_none.mp hp]
  · rw [hplanned, List.filter_append, ← hw.wouldStep, ← hplan.2.1, settle]
    by_cases hp : p.held.isSome = true
    · simp [hp]
    · simp [hp]
  · rw [settle]
    dsimp only
    split <;> exact hplan.2.2.trans hw.judged
  · rw [settle]
    dsimp only
    rcases hm with hm | ⟨t, ht, hm⟩
    · exact isSome_hold (hheld ▸ hw.held m (.inl hm))
    · rcases List.mem_append.mp ht with ht | ht
      · exact isSome_hold (hheld ▸ hw.held m (.inr ⟨t, ht, hm⟩))
      · rw [List.mem_singleton.mp ht, htouches] at hm
        rw [hold_of_mem hm]
        rfl

/-- A gap is walked past, or takes a step. -/
theorem Walked.gap {taken : List (Action × Planned)} (hw : Walked inp h secs s taken) :
    ∃ taken', Walked inp h (secs ++ [sec]) (gap inp h.attempts s sec) taken' := by
  rw [Goodput.gap]
  obtain hnone | ⟨cur, hcur⟩ := (inp.assembled.current sec).eq_none_or_eq_some
  · rw [hnone]
    exact ⟨taken, hw.noted rfl ⟨rfl, rfl, rfl⟩⟩
  rw [hcur]
  dsimp only
  by_cases hactions : cur.actions.isEmpty = true
  · rw [if_pos hactions]
    exact ⟨taken, hw.noted rfl ⟨rfl, rfl, rfl⟩⟩
  rw [if_neg hactions]
  by_cases hidle : ((candidatesOf h.attempts sec cur).isEmpty || ownerSilent cur) = true
  · rw [if_pos hidle]
    exact ⟨taken, hw.noted rfl steps_noteNoLever⟩
  rw [if_neg hidle]
  cases hchoose : choose (eligible inp h.attempts s.held sec cur) (candidatesOf h.attempts sec cur)
    with
  | inl refusals =>
    refine ⟨taken, hw.noted ?_ ?_⟩
    all_goals
      rw [settle]
      split
    · rfl
    · rfl
    · exact steps_noteNoLever
    · exact steps_noteNoLever
  | inr t =>
    obtain ⟨act, p⟩ := t
    obtain ⟨hmem, helig⟩ := choose_eq_inr hchoose
    obtain ⟨htakes, hfree⟩ := eligible_eq_ok helig
    obtain ⟨hact, haddresses⟩ := List.mem_filter.mp ((List.mem_insertionSort _).mp hmem)
    obtain ⟨c, hc, hopen⟩ := List.any_eq_true.mp haddresses
    have hsilent : ownerSilent cur = false := by
      by_contra hs
      exact hidle (by rw [Bool.eq_true_of_not_eq_false hs, Bool.or_true])
    have hsec := htakes.section_
    refine ⟨taken ++ [(act, p)], hw.step steps_noteNoLever hsec
      ⟨cur, hsec ▸ hcur, hact, ⟨c, hc, of_decide_eq_true hopen⟩, hsilent, hsec ▸ htakes⟩ hfree rfl⟩

theorem walked_gaps (gaps : List String) {taken : List (Action × Planned)}
    (hw : Walked inp h secs s taken) :
    ∃ taken', Walked inp h (secs ++ gaps) (gaps.foldl (gap inp h.attempts) s) taken' := by
  induction gaps generalizing secs s taken with
  | nil => exact ⟨taken, by rwa [List.append_nil]⟩
  | cons sec gaps ih =>
    obtain ⟨taken', hw'⟩ : ∃ taken',
      Walked inp h (secs ++ [sec]) (gap inp h.attempts s sec) taken' := hw.gap
    rw [List.append_cons]
    exact ih hw'

theorem walked_select (inp : Inputs) : ∃ s taken,
    (select inp) = Selector.plan s ∧
      Walked inp (history inp.assembled (inp.nowMs / 1000)) (openGaps inp) s taken := by
  have hstart : Walked inp (history inp.assembled (inp.nowMs / 1000)) []
      ⟨(history inp.assembled (inp.nowMs / 1000)).held,
        { judged := (history inp.assembled (inp.nowMs / 1000)).judged
          acksRefused := (history inp.assembled (inp.nowMs / 1000)).acksRefused }⟩ [] := by
    refine ⟨⟨by simp, List.Sublist.refl [], by simp, List.Pairwise.nil⟩, rfl, rfl, rfl,
      fun m hm ↦ ?_⟩
    rcases hm with hm | ⟨t, ht, -⟩
    · exact hm
    · cases ht
  obtain ⟨taken, hw⟩ := walked_gaps (openGaps inp) hstart
  rw [List.nil_append] at hw
  exact ⟨_, taken, rfl, hw⟩

/-- A step that is taken touches nothing that an intent in flight holds. -/
theorem Steps.disjoint {a : Assembled} {now : ℕ} {taken : List (Action × Planned)}
    (hs : Steps inp (history a now) secs taken) (ha : inp.assembled = a) {t : Action × Planned}
    (ht : t ∈ taken) {li : ListedIntent} (hli : li ∈ a.intents) (hholds : Holds a now li sec) :
    (touches a t).Disjoint (reach a li sec) := by
  intro m hmt hmli
  have hsome := held_history hli hholds hmli
  rw [hs.free t ht m (ha.symm ▸ hmt)] at hsome
  cases hsome

end Gaps

/-! ## The plan -/

/-- **A plan's steps are taken for different gaps, each of them due, and touch nothing in common**,
neither with one another nor with an intent in flight. -/
theorem select_sound (inp : Inputs) : ∃ taken : List (Action × Planned),
    (select inp).steps = (taken.map (·.2)).filter (·.held.isNone) ∧
    (select inp).wouldStep = (taken.map (·.2)).filter (·.held.isSome) ∧
    (taken.map (·.2.section_)).Sublist (openGaps inp) ∧
    (∀ t ∈ taken, Due inp (history inp.assembled (inp.nowMs / 1000)).attempts t) ∧
    (taken.Pairwise fun t u ↦ (touches inp.assembled t).Disjoint (touches inp.assembled u)) ∧
    ∀ t ∈ taken, ∀ li ∈ inp.assembled.intents, ∀ sec,
      Holds inp.assembled (inp.nowMs / 1000) li sec →
        (touches inp.assembled t).Disjoint (reach inp.assembled li sec) := by
  obtain ⟨s, taken, hselect, hw⟩ := walked_select inp
  rw [hselect]
  exact ⟨taken, hw.steps, hw.wouldStep, hw.took.sections, hw.took.due, hw.took.apart,
    fun t ht li hli sec hholds ↦ hw.took.disjoint rfl ht hli hholds⟩

end Spira.Goodput
