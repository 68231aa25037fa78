import Spira.Controller.Stack

/-!
# Recording the lane

The lane is kept naming the commit git's landing ref is at, and the image and harness the
repository's rounds run on.
-/

set_option autoImplicit false

namespace Spira.Controller

open Batch

inductive Recorded
  | notRounds
  | unchanged
  | written
  deriving DecidableEq

/-- Where a refusal to read the installed release's round image or harness is keyed. -/
def INSTALLED_KEY : String := "installed/round-image"

def laneInputs : Run Refusal (Option (String × String)) :=
  access (fun _ ↦ true) silent fun w ↦ w.installed.mapError (.unreadable INSTALLED_KEY)

variable (git : Ancestry) (repo : String)

/-- Whether the landing ref holds the head of one of these rounds. -/
def anyLanded : List Live → Run Refusal Bool
  | [] => return false
  | r :: rest =>
    match r.round.row.head with
    | none => anyLanded rest
    | some head => do
      if ← reading (gitKey repo) (underLandingRef git head) then return true else anyLanded rest

def unrecordedLanding : Run Refusal Bool := do anyLanded git repo (← live repo)

/-- The lane moves only forward to git's landing ref, and not past a live round whose head the ref
already holds: that landing is the Lander's to record. -/
def followsGit (was : String) : Run Refusal Bool := do
  let forward ← reading (gitKey repo) (underLandingRef git was)
  if forward then return !(← unrecordedLanding git repo) else return false

/-- The lane's next landing ref: git's, or the one it has, where it does not follow. -/
def landingFrom (at_ : String) : Option String → Run Refusal String
  | none => return at_
  | some was => do
    if was = at_ then return at_
    else if ← followsGit git repo was then return at_ else return was

/-- The lane with its landing ref and inputs as they are now; what others keep in it stays. -/
def laneOf (item : Option (Item .lane)) (landing image harness : String) : Lane :=
  match item with
  | none => ⟨landing, image, harness, "all", none⟩
  | some item =>
    { item.value with landingRef := landing, imageDigest := image, harnessVersion := harness }

def recordLane (image harness : String) : ℕ → Run Refusal Recorded
  | 0 => throw (.unreadable (Key.text repo .lane) s!"moved under {tries} tries to record the lane")
  | n + 1 => do
    let key := Key.text repo .lane
    let item ← reading key (get .lane)
    -- Read after the lane, so that a landing the Lander recorded in between is never moved back.
    let at_ ← reading (gitKey repo) landingSha
    let landing ← landingFrom git repo at_ (item.map (·.value.landingRef))
    let lane := laneOf item landing image harness
    if item.any (·.value = lane) then return .unchanged
    else
      let written ← reading key (txn (fun _ ↦ [.lane landing])
        ⟨[.modRev .lane (item.map (·.modRev))], [.put .lane lane]⟩)
      if written.isSome then return .written else recordLane image harness n

/-- Writes the lane from git's landing ref and the installed round image and harness, and reads it
again when another writer moved it first. -/
def record : Run Refusal Recorded := do
  match ← laneInputs with
  | none => return .notRounds
  | some (image, harness) => recordLane git repo image harness tries

end Spira.Controller
