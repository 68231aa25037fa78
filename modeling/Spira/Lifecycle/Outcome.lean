import Mathlib.Logic.Basic

/-!
# Outcomes and refusals

Every lifecycle machine is a pure function from a row and an event to an `Outcome`: either the
event was applied and the outcome holds the new row, or it was refused and the outcome holds the
row untouched with the check that failed.

A refusal names the event it refuses.  The source prints that event into the refusal's text; here
the refusal carries the event itself, so `Refusal` has the machine's event type as a parameter.

`Outcome.Grants o P` — "if `o` was applied, its row satisfies `P`" — is the weakest precondition of
one step.  It passes through a machine's guards by the simp lemmas below, so what a step can do is
read off its definition one branch at a time.
-/

set_option autoImplicit false

namespace Spira

/-- The row-version a compare-and-swap checks. -/
abbrev Version := Nat

/-- Why a machine refused an event of type `κ`. -/
inductive Refusal (κ : Type)
  /-- The event's `expect` did not match the row's current state. -/
  | expectMismatch (expected actual : String)
  /-- The event's `version` did not match the row's current version. -/
  | staleVersion (given current : Version)
  /-- No transition exists for this (state, event) pair. -/
  | illegalTransition (state : String) (event : κ)
  /-- A pass boundary for a pass that already has its verdict. -/
  | lateBoundary (state : String) (event : κ) (pass : Nat)
  /-- The event's evidence names a tip other than the row's tip. -/
  | tipMismatch (eventTip rowTip : String)
  /-- The row is in a terminal state. -/
  | terminal (state : String)
  /-- A `claim`'s proposed stack depth exceeds the cap. -/
  | depthExceeded (depth max : Nat)
  /-- A cascade named a prerequisite and a tip the row's own stack does not carry. -/
  | notInStack (prereq tip : String)
  /-- A stack that names a prerequisite tip that is no longer current. -/
  | stackStale (prereqs : List String)
  /-- The row holds an `ask`: it closes only through a reply. -/
  | awaitingReply (event : κ) (exit : String)
  /-- A holder-only event sent by an actor that does not hold the row. -/
  | notHolder (actor : String) (holder : Option String)
  /-- A `manual` hold with no reason, a bare bead id or a snooze. -/
  | manualHoldReason (reason exit : String)
  /-- `submit` at the tip a round already ejected as red for this bead: the same tree is red
  again, so only a changed tip can be submitted. -/
  | ejectedRedTip (tip : String)
  /-- `submit` of a tip that is not a full 40-hex object name. -/
  | malformedTip (tip : String)
  /-- `claim` of a REWORK row after a red verdict, proposing the very stack that was red. -/
  | stackUnchanged (prereqs : List String)
  /-- A `resubmit` of a REWORK row that carries no manual hold. -/
  | notManuallyHeld
  /-- A break-glass move with a field missing or contradicted. -/
  | breakGlassIncomplete (missing : String)
  /-- A mender's outcome that arrived at or after the deadline: only an expiry is left. -/
  | deadlinePassed (deadline at_ : Int)
  deriving DecidableEq

/-- The result of applying one event to one row. -/
structure Outcome (κ Row : Type) where
  applied : Bool
  row : Row
  refusal : Option (Refusal κ)
  deriving DecidableEq

namespace Outcome

variable {κ Row : Type}

/-- The event was applied and left this row. -/
def accepted (row : Row) : Outcome κ Row := ⟨true, row, none⟩

/-- The event was refused: the row comes back as it was. -/
def refuse (row : Row) (refusal : Refusal κ) : Outcome κ Row := ⟨false, row, some refusal⟩

@[simp] theorem accepted_applied (row : Row) : (accepted row : Outcome κ Row).applied = true := rfl

@[simp] theorem accepted_row (row : Row) : (accepted row : Outcome κ Row).row = row := rfl

@[simp] theorem refuse_applied (row : Row) (r : Refusal κ) : (refuse row r).applied = false := rfl

@[simp] theorem refuse_row (row : Row) (r : Refusal κ) : (refuse row r).row = row := rfl

/-- If the event was applied, the new row satisfies `P`. -/
def Grants (o : Outcome κ Row) (P : Row → Prop) : Prop := o.applied = true → P o.row

/-- The outcome leaves `row` as it was unless the event was applied. -/
def Keeps (o : Outcome κ Row) (row : Row) : Prop := o.applied = false → o.row = row

variable {P : Row → Prop} {row row' : Row} {r : Refusal κ}

@[simp] theorem grants_accepted : (accepted row : Outcome κ Row).Grants P ↔ P row := by
  simp [Grants]

@[simp] theorem grants_refuse : (refuse row r).Grants P ↔ True := by simp [Grants]

@[simp] theorem grants_ite {c : Prop} [Decidable c] {a b : Outcome κ Row} :
    (if c then a else b).Grants P ↔ (c → a.Grants P) ∧ (¬ c → b.Grants P) := by
  split <;> simp_all

/-- A guard that refuses leaves the rest to be shown where it does not hold. -/
@[simp] theorem grants_guard {c : Prop} [Decidable c] {b : Outcome κ Row} :
    (if c then refuse row r else b).Grants P ↔ (¬ c → b.Grants P) := by
  simp

@[simp] theorem keeps_accepted : (accepted row' : Outcome κ Row).Keeps row ↔ True := by
  simp [Keeps]

@[simp] theorem keeps_refuse : (refuse row' r).Keeps row ↔ row' = row := by simp [Keeps]

@[simp] theorem keeps_ite {c : Prop} [Decidable c] {a b : Outcome κ Row} :
    (if c then a else b).Keeps row ↔ (c → a.Keeps row) ∧ (¬ c → b.Keeps row) := by
  split <;> simp_all

theorem Grants.mono {o : Outcome κ Row} {Q : Row → Prop} (h : o.Grants P)
    (hPQ : ∀ row, P row → Q row) : o.Grants Q :=
  fun ha ↦ hPQ _ (h ha)

end Outcome

end Spira
