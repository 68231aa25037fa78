import Mathlib.Data.Finset.Card
import Mathlib.Data.String.Basic
import Spira.Lib.History
import Std.Data.ExtTreeMap.Lemmas

/-!
# Attribution of a round's reds

The pure half of it: which reruns a red suite needs, in what order, how many may run at once, and
what their results mean.  The driver streams the main run's results in and launches the jobs it is
handed; nothing here looks at a clock, so a schedule is a list of events (`Event`) and a run of
the attributor is what `Attributor.step` makes of one.
-/

set_option autoImplicit false

namespace Spira.Batcher

open Std (ExtTreeMap)

abbrev Id := String

/-- Why a job runs. -/
inductive Purpose
  | plain
  | base
  /-- The removal set of the suspect is dropped. -/
  | without (x : Id)
  deriving DecidableEq

/-- One rerun: the suite alone, on the round tree minus `removal`. -/
structure Job where
  id : ℕ
  suite : String
  removal : List Id
  purpose : Purpose
  deriving DecidableEq

inductive JobResult
  | green
  | red
  /-- The harness failed to run the job. -/
  | fault
  deriving DecidableEq

inductive Outcome
  /-- Green without each named member. -/
  | owner (ids : List Id)
  /-- Green on a plain rerun with every member present. -/
  | flaky
  /-- Red with every member removed. -/
  | base
  | unattributed
  deriving DecidableEq

def Outcome.isOwner : Outcome → Bool
  | owner _ => true
  | _ => false

/-! ## The round's shape -/

/-- The round's members in merge order, and of each its removal set: itself, with every member
stacked on it. -/
structure Shape where
  members : List Id
  closure : ExtTreeMap Id (List Id)

/-- One pass over the members: each that is stacked on one of `set` joins it. -/
def pass (members : List Id) (prereqs : ExtTreeMap Id (List Id)) (set : Finset Id) : Finset Id :=
  members.foldl (fun set m ↦ if prereqs[m]?.any (·.any (· ∈ set)) then insert m set else set) set

/-- Passes until one adds nothing. -/
def stackedOn (members : List Id) (prereqs : ExtTreeMap Id (List Id)) : ℕ → Finset Id → Finset Id
  | 0, set => set
  | n + 1, set =>
    let next := pass members prereqs set
    if next.card = set.card then next else stackedOn members prereqs n next

/-- The removal set of `x`, in round order.  A pass that does not end the loop adds a member. -/
def removalSet (members : List Id) (prereqs : ExtTreeMap Id (List Id)) (x : Id) : List Id :=
  members.filter (· ∈ stackedOn members prereqs (members.length + 1) {x})

/-- `prereqs`: the members each member is stacked on. -/
def Shape.new (members : List Id) (prereqs : ExtTreeMap Id (List Id)) : Shape where
  members := members
  closure := members.foldl (fun closure x ↦ closure.insert x (removalSet members prereqs x)) ∅

def Shape.removalOf (s : Shape) (x : Id) : List Id := s.closure[x]?.getD [x]

/-! ## The attributor -/

/-- The slots of the round, of which the main run keeps `maxpar` while it has that many suites
left. -/
structure Budget where
  slots : ℕ
  maxpar : ℕ
  deriving DecidableEq

/-- What is known of a red suite. -/
structure SuiteState where
  redAt : ℕ
  suspects : List Id
  plainRed : Bool := false
  settled : Option (Outcome × ℕ) := none
  owners : List (Id × List Id) := []
  reruns : ℕ := 0
  faults : Purpose → ℕ := fun _ ↦ 0
  /-- Jobs of this suite queued or running. -/
  outstanding : Finset ℕ := ∅
  baseGreen : Bool := false

structure Attributor where
  budget : Budget
  shape : Shape
  mainTotal : ℕ
  mainSeen : Finset String := ∅
  mainEndAt : Option ℕ := none
  suites : ExtTreeMap String SuiteState := ∅
  reds : List String := []
  plainQ : List Job := []
  attrQ : List Job := []
  running : List Job := []
  nextId : ℕ := 1
  /-- Every job ever handed out, in launch order. -/
  launched : List Job := []

namespace Attributor

def new (budget : Budget) (shape : Shape) (mainTotal : ℕ) : Attributor where
  budget := budget
  shape := shape
  mainTotal := mainTotal

variable (a : Attributor)

/-- Main-run suites still owed a slot: none once it ended, else at most `maxpar`. -/
def mainInFlight : ℕ :=
  if a.mainEndAt.isSome then 0
  -- What is left is cut to 32 bits before it is compared.
  else min ((a.mainTotal - a.mainSeen.card) % 2 ^ 32) a.budget.maxpar

/-- Slots attribution may take right now. -/
def spare : ℕ := a.budget.slots - a.mainInFlight - a.running.length

/-- The state of one suite changed, where it is known. -/
def onSuite (suite : String) (f : SuiteState → SuiteState) : Attributor :=
  { a with suites := a.suites.modify suite f }

/-- A new job, on the queue of its purpose. -/
def enqueue (suite : String) (removal : List Id) (purpose : Purpose) (front : Bool) : Attributor :=
  let job : Job := ⟨a.nextId, suite, removal, purpose⟩
  let push (q : List Job) := if front then job :: q else q ++ [job]
  let a' := a.onSuite suite fun st ↦ { st with outstanding := insert a.nextId st.outstanding }
  if purpose = .plain then { a' with nextId := a.nextId + 1, plainQ := push a.plainQ }
  else { a' with nextId := a.nextId + 1, attrQ := push a.attrQ }

/-- One final result of the main run.  `suspects` is the suite's suspect order, read only on red. -/
def onMainResult (suite : String) (green : Bool) (suspects : List Id) (now : ℕ) : Attributor :=
  if suite ∈ a.mainSeen ∨ green then { a with mainSeen := insert suite a.mainSeen }
  else
    { a with
      mainSeen := insert suite a.mainSeen
      reds := a.reds ++ [suite]
      suites := a.suites.insert suite { redAt := now, suspects := suspects } }.enqueue suite [] .plain
        false

def onMainDone (now : ℕ) : Attributor := { a with mainEndAt := a.mainEndAt.or (some now) }

/-- The next queued job: plain reruns before attribution runs, each in arrival order. -/
def pop : Option (Job × Attributor) :=
  match a.plainQ, a.attrQ with
  | job :: q, _ => some (job, { a with plainQ := q })
  | [], job :: q => some (job, { a with attrQ := q })
  | [], [] => none

def launch (job : Job) : Attributor :=
  { a.onSuite job.suite fun st ↦ { st with reruns := st.reruns + 1 } with
    running := job :: a.running
    launched := a.launched ++ [job] }

/-- Hands out queued jobs while there are spare slots, `n` of them at most. -/
def launches : ℕ → Attributor → List Job × Attributor
  | 0, a => ([], a)
  | n + 1, a =>
    if a.spare = 0 then ([], a)
    else
      match a.pop with
      | none => ([], a)
      | some (job, a') =>
        let (out, a'') := launches n (a'.launch job)
        (job :: out, a'')

/-- Hands out as many queued jobs as there are spare slots. -/
def nextJobs : List Job × Attributor := launches (a.plainQ.length + a.attrQ.length) a

def cancelQueued (suite : String) : Attributor :=
  let dropped := (a.attrQ ++ a.plainQ).filter (·.suite = suite)
  { a.onSuite suite fun st ↦
      { st with outstanding := st.outstanding \ (dropped.map (·.id)).toFinset } with
    attrQ := a.attrQ.filter (·.suite ≠ suite)
    plainQ := a.plainQ.filter (·.suite ≠ suite) }

def settle (suite : String) (outcome : Outcome) (now : ℕ) : Attributor :=
  (a.onSuite suite fun st ↦
    if st.settled.isNone then { st with settled := some (outcome, now) } else st).cancelQueued suite

/-- Nothing left to run for the suite and still unsettled: unattributed. -/
def maybeExhausted (suite : String) (now : ℕ) : Attributor :=
  match a.suites[suite]? with
  | none => a
  | some st =>
    if st.settled.isNone ∧ st.outstanding = ∅ ∧ st.plainRed then a.settle suite .unattributed now else a

end Attributor

/-- The suspects with their removal sets, each set once. -/
def Shape.withouts (s : Shape) (xs : List Id) : List (Id × List Id) :=
  xs.foldl (fun seen x ↦
    let removal := s.removalOf x
    if seen.any (·.2 = removal) then seen else seen ++ [(x, removal)]) []

/-- The removal set `o` is shorter than `r`, and all of it is in `r`. -/
def within (o r : List Id) : Bool := o.length < r.length && o.all (· ∈ r)

namespace Attributor

variable (a : Attributor)

/-- The base run, unless a suspect's run is it, then a run without each suspect. -/
def queueAttribution (suite : String) (suspects all : List Id) : Attributor :=
  let withouts := a.shape.withouts (suspects ++ all)
  let a := if withouts.any (·.2 = all) then a else a.enqueue suite all .base false
  withouts.foldl (fun a w ↦ a.enqueue suite w.2 (.without w.1) false) a

/-- Green without `x`.  A removal set that strictly contains an owner's explains nothing new; one
strictly inside an owner's replaces it. -/
def addOwner (suite : String) (x : Id) (removal : List Id) (now : ℕ) : Attributor :=
  match a.suites[suite]? with
  | none => a
  | some st =>
    if st.settled.all (·.1.isOwner) then
      if st.owners.any fun o ↦ within o.2 removal then a
      else
        let owners := (st.owners.filter fun o ↦ !within removal o.2) ++ [(x, removal)]
        let at_ := (st.settled.map (·.2)).getD now
        (a.onSuite suite fun st ↦
          { st with owners := owners, settled := some (.owner (owners.map (·.1)), at_) }).cancelQueued
            suite
    else a

def onJobResult (jobId : ℕ) (result : JobResult) (now : ℕ) : Attributor :=
  match a.running.find? (·.id = jobId) with
  | none => a
  | some job =>
    let suite := job.suite
    let a := { a with running := a.running.filter (·.id ≠ jobId) }
    match a.suites[suite]? with
    | none => a
    | some st =>
      let a := a.onSuite suite fun st ↦ { st with outstanding := st.outstanding.erase jobId }
      match result, job.purpose with
      | .fault, purpose =>
        let n := st.faults purpose + 1
        let a := a.onSuite suite fun st ↦ { st with faults := Function.update st.faults purpose n }
        let a :=
          if n < 2 ∧ st.settled.isNone then a.enqueue suite job.removal purpose true
          else if purpose = .plain then a.settle suite .unattributed now
          else a
        a.maybeExhausted suite now
      | .green, .plain => a.settle suite .flaky now
      | .red, .plain =>
        (a.onSuite suite fun st ↦ { st with plainRed := true }).queueAttribution suite st.suspects
          a.shape.members
      | .green, .base =>
        (a.onSuite suite fun st ↦ { st with baseGreen := true }).maybeExhausted suite now
      | .red, .base => a.settle suite .base now
      | .green, .without x => a.addOwner suite x job.removal now
      | .red, .without _ =>
        -- A removal set of the whole round makes this the base run too.
        if job.removal.length = a.shape.members.length then a.settle suite .base now
        else a.maybeExhausted suite now

/-- Every red settled and the main run over: the round has its decision. -/
def settled : Bool := a.mainEndAt.isSome && a.suites.toList.all (·.2.settled.isSome)

end Attributor

/-! ## Runs -/

inductive Event
  | mainResult (suite : String) (green : Bool) (suspects : List Id) (now : ℕ)
  | mainDone (now : ℕ)
  | nextJobs
  | jobResult (id : ℕ) (result : JobResult) (now : ℕ)
  deriving DecidableEq

def Attributor.step (a : Attributor) : Event → Attributor
  | .mainResult suite green suspects now => a.onMainResult suite green suspects now
  | .mainDone now => a.onMainDone now
  | .nextJobs => a.nextJobs.2
  | .jobResult id result now => a.onJobResult id result now

end Spira.Batcher
