import Mathlib.Logic.Function.Iterate
import Spira.Controller.World

/-!
# The stack

A live round is grounded when what it was tested on is the landing ref or the head of a grounded
round, which is exactly when it can still land.
-/

set_option autoImplicit false

namespace Spira.Controller

open Batch

inductive Refusal
  /-- The repository has no lane record. -/
  | laneUnknown (key : String)
  | unreadable (key text : String)
  | verb (batch : Option String) (refusal : VerbRefusal)
  deriving DecidableEq

/-- An access whose failure is a refusal that names the key. -/
def reading {α : Type} (key : String) (x : Run String α) : Run Refusal α :=
  x.mapError (.unreadable key)

def readLane (repo : String) : Run Refusal (Option Lane) := do
  return (← reading (Key.text repo .lane) (get .lane)).map (·.value)

/-- A round that is not terminal, and whether a runner holds its lease. -/
structure Live where
  batch : String
  round : Round
  leased : Bool
  deriving DecidableEq

def liveAmong (repo : String) : List (String × Records.Item Round) → Run Refusal (List Live)
  | [] => return []
  | (batch, item) :: rest => do
    if item.value.row.state.isTerminal then liveAmong repo rest
    else
      let lock ← reading (Key.text repo (.roundLock batch)) (get (.roundLock batch))
      return ⟨batch, item.value, lock.isSome⟩ :: (← liveAmong repo rest)

/-- The rounds that are not terminal, by batch id. -/
def live (repo : String) : Run Refusal (List Live) := do
  liveAmong repo (← reading (Key.text repo (.round "")) listRounds)

/-- The grounded rounds: how high each stands above the landing ref, and the one it was tested on.
-/
structure Stack where
  height : List (String × ℕ)
  below : List (String × String)
  heads : List (String × String)

def Stack.empty : Stack := ⟨[], [], []⟩

/-- One round met: it is grounded on the landing ref, or on a head that is grounded already. -/
def Stack.meet (lane : Lane) (s : Stack) (r : Live) : Stack :=
  if (s.height.lookup r.batch).isSome then s
  else match r.round.testedBase with
    | none => s
    | some tb =>
      let found : Option (ℕ × Option String) :=
        if tb = lane.landingRef then some (1, none)
        else (s.heads.lookup tb).map fun k ↦ ((s.height.lookup k).getD 0 + 1, some k)
      match found with
      | none => s
      | some (h, below) =>
        { height := s.height ++ [(r.batch, h)]
          below := s.below ++ (below.map (r.batch, ·)).toList
          heads := match r.round.row.head with
            | some head => if (s.heads.lookup head).isSome then s.heads
                else s.heads ++ [(head, r.batch)]
            | none => s.heads }

/-- Every round met again and again, until a time that grounds none: each time but the last grounds
one more. -/
def Stack.of (lane : Lane) (rounds : List Live) : Stack :=
  (fun s ↦ rounds.foldl (Stack.meet lane) s)^[rounds.length + 1] .empty

/-! ## Reads of the lane and the rounds -/

section Within

variable {R G : World → World → Prop} {keys : Key → Prop} {repo : String}

theorem reading_within {α : Type} {key : String} {x : Run String α} (hx : x.Within R G) :
    (reading key x).Within R G := hx.mapError

theorem readLane_within (h : Bears R G keys) : (readLane repo).Within R G :=
  h.bind (reading_within (h.get _)) fun _ ↦ Verb.within_pure

theorem liveAmong_within (h : Bears R G keys) (rounds : List (String × Records.Item Round)) :
    (liveAmong repo rounds).Within R G := by
  induction rounds with
  | nil => exact Verb.within_pure
  | cons r rest ih =>
    rw [liveAmong]
    split
    · exact ih
    · exact h.bind (reading_within (h.get _)) fun _ ↦ h.bind ih fun _ ↦ Verb.within_pure

theorem live_within (h : Bears R G keys) : (live repo).Within R G :=
  h.bind (reading_within h.listRounds) fun _ ↦ liveAmong_within h _

end Within

end Spira.Controller
