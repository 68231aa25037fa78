import Mathlib.Data.Finset.Basic
import Mathlib.Data.List.Basic

/-!
# The store of beads

A store is the list of the beads that were read, each with the edges that it has to others.  A
partition looks at the beads with its labels, and knows which of them the pipeline is carrying.
-/

set_option autoImplicit false

namespace Spira.Strand

inductive Status
  | opened
  | inProgress
  | deferred
  | closed
  | other (s : String)
  deriving DecidableEq

structure Dependency where
  dependsOnId : Option String
  depType : Option String
  id : Option String
  deriving DecidableEq

/-- The target of a `blocks` edge. -/
def Dependency.blocksTarget (d : Dependency) : Option String :=
  if d.depType = some "blocks" then (d.dependsOnId <|> d.id).filter fun s ↦ s ≠ "" else none

structure Bead where
  id : String
  status : Status
  issueType : Option String
  labels : List String
  dependencies : List Dependency
  deriving DecidableEq

namespace Bead

variable (b : Bead)

def has (label : String) : Bool := label ≠ "" ∧ label ∈ b.labels

def isClosed : Bool := b.status = .closed

def isEpic : Bool := b.issueType = some "epic"

def blocksTargets : List String := b.dependencies.filterMap Dependency.blocksTarget

end Bead

structure Store where
  beads : List Bead

/-- Of the beads with one id, the last is the one that is found. -/
def Store.get (σ : Store) (id : String) : Option Bead := σ.beads.reverse.find? fun b ↦ b.id = id

theorem Store.id_of_get {σ : Store} {id : String} {b : Bead} (h : σ.get id = some b) : b.id = id := by
  rw [get] at h
  exact of_decide_eq_true (List.find?_some h :)

theorem Store.mem_of_get {σ : Store} {id : String} {b : Bead} (h : σ.get id = some b) :
    b ∈ σ.beads :=
  List.mem_reverse.mp (List.mem_of_find?_eq_some h)

structure Vocab where
  submitted : String
  queueWait : String

structure Partition where
  store : Store
  /-- A bead is in the partition when it carries all of them. -/
  labels : List String
  /-- Beads that can be claimed. -/
  ready : Finset String
  /-- Beads that a builder holds. -/
  working : Finset String
  heldAsk : Finset String
  heldPoison : Finset String
  vocab : Vocab

namespace Partition

variable (P : Partition) (b : Bead)

def member : Bool := P.labels.all fun l ↦ l ∈ b.labels

/-- The pipeline is carrying it. -/
def moving : Bool :=
  b.id ∈ P.working || b.has P.vocab.submitted || b.has P.vocab.queueWait || b.id ∈ P.ready

def parked : Bool := b.id ∈ P.heldAsk || b.status = .deferred

def poisoned : Bool := b.id ∈ P.heldPoison

end Partition

end Spira.Strand
