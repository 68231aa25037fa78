import Mathlib.Algebra.BigOperators.Group.List.Basic
import Mathlib.Algebra.GroupWithZero.Nat
import Mathlib.Data.Finset.Basic
import Spira.Lib.History

/-!
# A lease pool

A pool of the host's admission is a directory: a `slot.<n>` file for each lease and a `wait.<pid>`
file for each waiter, each naming a process by its pid and start time.  A scan holds the pool's
mutex, so it is one step of a run; what the acquire loop does outside the mutex (`unwait`) is a
step of its own, and so are the clock and the processes that start and end (`Event`).

The directory is kept as what its files say.  The clock is in whole seconds, and the stagger and
the stall are off.
-/

set_option autoImplicit false

namespace Spira.Admission

/-- Who holds or waits for a slot: a process, and the units of the pool its job takes. -/
structure Holder where
  pid : ℕ
  start : ℕ
  who : String
  weight : ℕ
  deriving DecidableEq

/-- A `slot.<n>` file. -/
structure Lease where
  slot : ℕ
  pid : ℕ
  start : ℕ
  who : String
  since : ℕ
  waited : ℕ
  last : ℕ
  weight : ℕ
  deriving DecidableEq

def Lease.is (l : Lease) (h : Holder) : Bool := l.pid = h.pid && l.start = h.start

/-- A `wait.<pid>` file. -/
structure Waiter where
  pid : ℕ
  start : ℕ
  who : String
  since : ℕ
  weight : ℕ
  deriving DecidableEq

structure Dir where
  leases : List Lease
  waits : List Waiter
  deriving DecidableEq

namespace Dir

variable (d : Dir)

/-- The `slot.<n>` file of a lease is written. -/
def putLease (l : Lease) : Dir := { d with leases := l :: d.leases.filter (·.slot ≠ l.slot) }

def removeLease (n : ℕ) : Dir := { d with leases := d.leases.filter (·.slot ≠ n) }

def putWait (w : Waiter) : Dir := { d with waits := w :: d.waits.filter (·.pid ≠ w.pid) }

def removeWait (pid : ℕ) : Dir := { d with waits := d.waits.filter (·.pid ≠ pid) }

end Dir

/-! ## Processes -/

/-- The process table: of a pid its start time and its parent. -/
structure Procs where
  startOf : ℕ → Option ℕ
  ppidOf : ℕ → Option ℕ

def Procs.alive (procs : Procs) (pid start : ℕ) : Bool := procs.startOf pid = some start

/-- The ancestors of `pid`, nearest first, `n` at most. -/
def ancestors (procs : Procs) : ℕ → ℕ → List ℕ
  | 0, _ => []
  | n + 1, pid =>
    match procs.ppidOf pid with
    | some pp => if 1 < pp ∧ pp ≠ pid then pp :: ancestors procs n pp else []
    | none => []

/-! ## Scans -/

/-- The outcome of one scan. -/
inductive Take
  | admitted (slot : ℕ) (fresh : Bool)
  | inherited (slot pid : ℕ)
  | busy (holders : List Lease)
  deriving DecidableEq

/-- What `takeNow` did. -/
inductive Now
  | took (slot heldBefore : ℕ) (fresh : Bool)
  | inherited (slot : ℕ)
  deriving DecidableEq

/-- The files of dead processes are gone, the rest is left. -/
def reap (d : Dir) (procs : Procs) : Dir where
  leases := d.leases.filter fun l ↦ procs.alive l.pid l.start
  waits := d.waits.filter fun w ↦ procs.alive w.pid w.start

/-- The leases in slot order. -/
def Dir.live (d : Dir) : List Lease := d.leases.mergeSort fun l l' ↦ l.slot ≤ l'.slot

/-- The waiters, oldest first. -/
def Dir.waiters (d : Dir) : List Waiter :=
  d.waits.mergeSort fun w w' ↦ w.since < w'.since ∨ w.since = w'.since ∧ w.pid ≤ w'.pid

/-- The units of leases, counted in 64 bits. -/
def units (leases : List Lease) : ℕ := (leases.map fun l ↦ max l.weight 1).sum % 2 ^ 64

/-- The lowest slot from 1 on that no lease has. -/
def freeSlot (leases : List Lease) : ℕ :=
  ((List.range' 1 (leases.length + 1)).find? fun n ↦ !leases.any (·.slot = n)).getD 1

/-- One scan: already ours, inherited from an ancestor's lease, admitted, or busy. -/
def tryTake (d : Dir) (size : ℕ) (me : Holder) (waited now : ℕ) (procs : Procs) : Take × Dir :=
  let d := reap d procs
  match d.live.find? (·.is me) with
  | some l =>
    (.admitted l.slot false, if l.last < now then d.putLease { l with last := now } else d)
  | none =>
    match d.live.find? fun l ↦ l.pid ∈ ancestors procs 64 me.pid with
    | some l => (.inherited l.slot l.pid, d)
    | none =>
      let used := units d.live
      let first := d.waiters.head?.all (·.pid = me.pid)
      let fits := used = 0 ∨ (used + max me.weight 1) % 2 ^ 64 ≤ max size 1
      if first ∧ fits then
        let n := freeSlot d.live
        (.admitted n true,
          (d.putLease ⟨n, me.pid, me.start, me.who, now, waited, now, max me.weight 1⟩).removeWait me.pid)
      else
        let queued := d.waits.any fun w ↦ w.pid = me.pid && w.start = me.start
        -- Written once: `since` is the queue position.
        (.busy d.live,
          if queued then d else d.putWait ⟨me.pid, me.start, me.who, now, max me.weight 1⟩)

/-- A gate's build takes a lease whatever the pool holds. -/
def takeNow (d : Dir) (me : Holder) (now : ℕ) (procs : Procs) : Now × Dir :=
  let d := reap d procs
  let heldBefore := units (d.live.filter (!·.is me))
  match d.live.find? (·.is me) with
  | some l => (.took l.slot heldBefore false, d)
  | none =>
    match d.live.find? fun l ↦ l.pid ∈ ancestors procs 64 me.pid with
    | some l => (.inherited l.slot, d)
    | none =>
      let n := freeSlot d.live
      (.took n heldBefore true,
        d.putLease ⟨n, me.pid, me.start, me.who, now, 0, now, max me.weight 1⟩)

/-- Release `slot` if it still names `me`. -/
def release (d : Dir) (slot : ℕ) (me : Holder) : Dir :=
  match d.leases.find? (·.slot = slot) with
  | some l => if l.is me then d.removeLease slot else d
  | none => d

/-- A waiter gives up or is inherited. -/
def unwait (d : Dir) (me : Holder) : Dir := d.removeWait me.pid

/-! ## Runs -/

/-- The pool, the processes, and the clock. -/
structure World where
  dir : Dir
  procs : Procs
  now : ℕ
  /-- Every process there has been. -/
  born : Finset (ℕ × ℕ)

def World.start : World where
  dir := ⟨[], []⟩
  procs := ⟨fun _ ↦ none, fun _ ↦ none⟩
  now := 0
  born := ∅

inductive Event
  | tryTake (size : ℕ) (me : Holder) (waited : ℕ)
  | takeNow (me : Holder)
  | release (slot : ℕ) (me : Holder)
  /-- The acquire loop of `me` returns with what it inherited, or gives up. -/
  | unwait (me : Holder)
  | tick (seconds : ℕ)
  | spawn (pid start ppid : ℕ)
  | exit (pid : ℕ)
  deriving DecidableEq

def World.step (w : World) : Event → World
  | .tryTake size me waited => { w with dir := (Admission.tryTake w.dir size me waited w.now w.procs).2 }
  | .takeNow me => { w with dir := (Admission.takeNow w.dir me w.now w.procs).2 }
  | .release slot me => { w with dir := Admission.release w.dir slot me }
  | .unwait me => { w with dir := Admission.unwait w.dir me }
  | .tick seconds => { w with now := w.now + seconds }
  | .spawn pid start ppid =>
    { w with
      procs := ⟨Function.update w.procs.startOf pid (some start),
        Function.update w.procs.ppidOf pid (some ppid)⟩
      born := insert (pid, start) w.born }
  | .exit pid =>
    { w with procs := ⟨Function.update w.procs.startOf pid none, Function.update w.procs.ppidOf pid none⟩ }

/-- What the host does: a pid is used again only once its process is gone, and by a process of
another start time; and who asks is a process there has been. -/
def Real (w : World) : Event → Prop
  | .spawn pid start _ => w.procs.startOf pid = none ∧ (pid, start) ∉ w.born
  | .tryTake _ me _ | .takeNow me | .release _ me | .unwait me => (me.pid, me.start) ∈ w.born
  | _ => True

instance (w : World) : (e : Event) → Decidable (Real w e)
  | .spawn pid start _ => inferInstanceAs (Decidable (w.procs.startOf pid = none ∧ (pid, start) ∉ w.born))
  | .tryTake _ me _ | .takeNow me | .release _ me | .unwait me =>
    inferInstanceAs (Decidable ((me.pid, me.start) ∈ w.born))
  | .tick _ | .exit _ => isTrue trivial

/-! ## The acquire loop -/

/-- What a turn of the loop comes to: another one, or the end, with a slot of its own or an
ancestor's. -/
inductive Turn
  | again
  | gaveUp
  | held (slot : ℕ)
  | inherited (slot : ℕ)
  deriving DecidableEq

/-- One turn of `acquire`, begun at `t0`, and the events it makes. -/
def acquireTurn (w : World) (me : Holder) (size t0 : ℕ) (stopped : Bool) : Turn × List Event :=
  if stopped then (.gaveUp, [.unwait me])
  else
    let scan : Event := .tryTake size me (w.now - t0)
    match (tryTake w.dir size me (w.now - t0) w.now w.procs).1 with
    | .admitted slot _ => (.held slot, [scan])
    | .inherited slot _ => (.inherited slot, [scan, .unwait me])
    | .busy _ => (.again, [scan])

end Spira.Admission
