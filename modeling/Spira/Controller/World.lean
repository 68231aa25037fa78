import Mathlib.Data.List.Sort
import Spira.Lib.Interleave
import Spira.Lib.Records
import Spira.Lifecycle.Batch.Machine

/-!
# What the round controller shares

The controller's programs, each of one repository, meet in three places: the records of the state
store, in which every transaction is one step; the repository's landing ref in git, which only moves
forward; and the runners, whose units and VMs come and go on their own.  Anything may happen between
two accesses of one program, and any access may fail.

The world also remembers what was told of the accesses, in their order: it is what the laws are
stated over.
-/

set_option autoImplicit false

namespace Spira.Controller

open Batch

/-! ## Commits -/

/-- `git merge-base --is-ancestor`: whether the first commit is in the history of the second. -/
structure Ancestry where
  under : String → String → Bool
  refl (a : String) : under a a
  trans {a b c : String} : under a b → under b c → under a c
  antisymm {a b : String} : under a b → under b a → a = b

/-- A strict ancestor. -/
def Ancestry.Behind (git : Ancestry) (a b : String) : Prop := git.under a b ∧ a ≠ b

instance (git : Ancestry) (a b : String) : Decidable (git.Behind a b) :=
  inferInstanceAs (Decidable (_ ∧ _))

theorem Ancestry.not_behind (git : Ancestry) {a b : String} (h : git.under a b) :
    ¬ git.Behind b a := fun hb ↦ hb.2 (git.antisymm hb.1 h)

/-! ## Records -/

/-- What a cut on the repository is tested on. -/
structure Lane where
  /-- The commit the landing ref points at. -/
  landingRef : String
  imageDigest : String
  harnessVersion : String
  selection : String
  concurrency : Option ℕ
  deriving DecidableEq

/-- A round: the lifecycle's row, and what the controller keeps beside it. -/
structure Round where
  row : BatchRow
  testedBase : Option String
  /-- The token of the lease its runner was last launched under. -/
  lastLeaseToken : Option ℕ
  leaseHolder : Option String
  deriving DecidableEq

/-- Why a green round was not landed. -/
inductive Blocker
  | stackedOnUnlanded (parent : String) (parentState : Option String) (parentLeased : Bool)
  | refused (text : String)
  | deployFault (why : String)
  deriving DecidableEq

/-- What a held round's refusal was answered against. -/
structure Inputs where
  head : String
  base : String
  parent : Option String
  parentState : Option String
  parentHead : Option String
  deriving DecidableEq

structure Status where
  blocker : Blocker
  inputs : Inputs
  greenSeenMs : ℕ
  deriving DecidableEq

/-- One attempt to drive a round whose runner was lost. -/
structure Attempt where
  expiredToken : ℕ
  leaseToken : ℕ
  launchResult : String
  atMs : ℕ
  nextAttemptAtMs : Option ℕ
  deriving DecidableEq

inductive SlotPool
  | proxmox
  | ec2
  deriving DecidableEq

structure Slot where
  pool : SlotPool
  n : ℕ
  deriving DecidableEq

/-- Who took a slot, the unit and the VM it recorded, and whether it gave the slot back. -/
structure SlotRecord where
  holder : String
  unit : Option String
  vm : Option String
  released : Bool
  deriving DecidableEq

inductive Key
  | lane
  | round (batch : String)
  | roundLock (batch : String)
  | status (batch : String)
  | redrive (batch : String)
  | slot (slot : Slot)
  | slotLock (slot : Slot)
  deriving DecidableEq

/-- What is kept under a key.  A lock keeps nothing: its token is the revision it was created at. -/
@[reducible] def Key.Val : Key → Type
  | lane => Lane
  | round _ => Round
  | roundLock _ => Unit
  | status _ => Status
  | redrive _ => List Attempt
  | slot _ => SlotRecord
  | slotLock _ => Unit

abbrev Store := Records.Store Key Key.Val

abbrev Item (k : Key) := Records.Item k.Val

abbrev Compare := Records.Compare Key

abbrev Op := Records.Op Key Key.Val

abbrev Txn := Records.Txn Key Key.Val

/-- The rounds of the repository, by batch id. -/
def roundsOf (s : Store) : List (String × Records.Item Round) :=
  (s.keys.filterMap fun
    | .round batch => (s.items (.round batch)).map (batch, ·)
    | _ => none).insertionSort fun a b ↦ a.1 ≤ b.1

/-- The key's words, as a refusal names it. -/
def Key.text (repo : String) : Key → String
  | lane => s!"lanes/{repo}"
  | round batch => s!"batches/{repo}/{batch}"
  | roundLock batch => s!"locks/round/{repo}/{batch}"
  | status batch => s!"batches/{repo}/{batch}/status"
  | redrive batch => s!"batches/{repo}/{batch}/redrive"
  | slot ⟨.proxmox, n⟩ => s!"slots/proxmox/{n}"
  | slot ⟨.ec2, n⟩ => s!"slots/ec2/{n}"
  | slotLock ⟨.proxmox, n⟩ => s!"locks/runner-slot/proxmox/{n}"
  | slotLock ⟨.ec2, n⟩ => s!"locks/runner-slot/ec2/{n}"

/-- Where the landing ref is read from, for a refusal that names it. -/
def gitKey (repo : String) : String := s!"git/{repo}/landing-ref"

/-! ## The world -/

/-- A queue verb that did not do its act.  There is no code when it never ran to an exit. -/
structure VerbRefusal where
  verb : String
  code : Option ℤ
  text : String
  deriving DecidableEq

/-- What systemd answers for a unit. -/
inductive UnitState
  | stopped (word : String)
  | running (word : String)
  | unreadable (why : String)
  deriving DecidableEq

/-- What round-vm says about the VM of a runner's pass. -/
inductive VmFact
  | noVm
  | running (vm : String)
  | unreadable (why : String)
  /-- An instance whose state cannot be read: it shuts itself down by its maximum lifetime. -/
  | ec2Unreadable (instance_ : String) (launchedAtMs : ℕ)
  deriving DecidableEq

/-- A runner: the unit that was launched, the slot it was launched on and the slot's token. -/
structure Runner where
  slot : Slot
  token : ℕ
  unit : String
  deriving DecidableEq

/-- What is told of an access. -/
inductive Happened
  /-- The Lander that holds lease `token` looked, for the first time under it, at the landing ref. -/
  | decided (token : ℕ)
  /-- A Lander that set out to land `head` met its round naming `found`. -/
  | named (head : String) (found : Option String)
  /-- The Lander that holds lease `token` read the lane, to record `at_` in it. -/
  | readLane (token : ℕ) (at_ : String)
  /-- The lane's landing ref was recorded as `at_`. -/
  | lane (at_ : String)
  /-- A round was recorded as landed, with the landing ref at `ref`. -/
  | recorded (round : Round) (ref : String)
  /-- A slot was granted. -/
  | granted (slot : Slot) (token : ℕ)
  /-- A slot's holder recorded the unit of its runner. -/
  | unitRecorded (runner : Runner)
  | launched (runner : Runner)
  /-- The runner of a unit was shown dead. -/
  | dead (unit : String)
  /-- A slot's holder recorded that it gives the slot back, with these runners alive. -/
  | gaveBack (slot : Slot) (token : ℕ) (alive : List Runner)
  /-- A lease on a round was taken, whose record named `last` as its last token. -/
  | leased (batch : String) (token : ℕ) (last : Option ℕ)
  /-- A runner of a round was launched, in a unit, under a lease on it. -/
  | drives (batch : String) (token : ℕ) (unit : String)
  deriving DecidableEq

structure World where
  store : Store
  /-- Why the store answers nothing, where it does not. -/
  storeDown : Option String
  /-- The commit the landing ref points at. -/
  ref : String
  gitDown : Option String
  /-- What the queue answers the next `land` and the next `supersede`. -/
  lands : Except VerbRefusal Unit
  supersedes : Except VerbRefusal Unit
  /-- The installed round image and harness; none for a repository that does not land by rounds. -/
  installed : Except String (Option (String × String))
  /-- The runners that are alive: their unit runs, or their VM does. -/
  alive : List Runner
  /-- What systemd and round-vm answer for a unit. -/
  units : String → UnitState
  vms : String → VmFact
  now : ℕ
  told : List Happened

/-- One thing told before another. -/
theorem sublist_pair {told new : List Happened} {e e' : Happened} (he : e ∈ told) (he' : e' ∈ new) :
    List.Sublist [e, e'] (told ++ new) :=
  (List.singleton_sublist.mpr he).append (List.singleton_sublist.mpr he')

/-- The commit the lane records. -/
def World.landingRef (w : World) : Option String :=
  (w.store.items .lane).map (·.value.landingRef)

/-! ## Accesses -/

/-- How often a program compares and writes before it gives up. -/
def tries : ℕ := 3

abbrev Run (ε α : Type) := Verb World ε α

/-- The world, once more was told. -/
def World.tell (w : World) (new : List Happened) : World := { w with told := w.told ++ new }

/-- One access, once the world is ready for it: it changes nothing but what is told. -/
def access {ε α : Type} (ready : World → Bool) (told : World → List Happened)
    (answer : World → Except ε α) : Run ε α :=
  Verb.atom ready (fun w ↦ w.tell (told w)) answer

/-- What a part of the world answers, unless it is down. -/
def unlessDown {α : Type} (down : Option String) (a : α) : Except String α :=
  match down with
  | some why => .error why
  | none => .ok a

@[simp] theorem unlessDown_eq_ok {α : Type} {down : Option String} {a b : α} :
    unlessDown down a = .ok b ↔ down = none ∧ a = b := by
  cases down <;> simp [unlessDown]

def silent (_ : World) : List Happened := []

def getTelling (told : World → List Happened) (k : Key) : Run String (Option (Item k)) :=
  access (fun _ ↦ true) told fun w ↦ unlessDown w.storeDown (w.store.items k)

def get (k : Key) : Run String (Option (Item k)) := getTelling silent k

def listRounds : Run String (List (String × Records.Item Round)) :=
  access (fun _ ↦ true) silent fun w ↦ unlessDown w.storeDown (roundsOf w.store)

/-- A transaction in one step: the revision it was committed at, where its compares hold. -/
def txn (told : World → List Happened) (t : Txn) : Run String (Option ℕ) :=
  Verb.atom (fun _ ↦ true)
    (fun w ↦ if w.storeDown.isNone && t.takes w.store then
        { w with store := t.run w.store }.tell (told w)
      else w)
    fun w ↦ unlessDown w.storeDown (if t.takes w.store then some (w.store.head + 1) else none)

def landingSha : Run String String :=
  access (fun _ ↦ true) silent fun w ↦ unlessDown w.gitDown w.ref

def underTelling (git : Ancestry) (told : World → List Happened) (commit : String) :
    Run String Bool :=
  access (fun _ ↦ true) told fun w ↦ unlessDown w.gitDown (git.under commit w.ref)

def underLandingRef (git : Ancestry) (commit : String) : Run String Bool :=
  underTelling git silent commit

def nowMs {ε : Type} : Run ε ℕ := access (fun _ ↦ true) silent fun w ↦ .ok w.now

/-! ## The rules of accesses -/

/-- What the others keep to, and a program's own accesses do. -/
structure Rules (R G : World → World → Prop) : Prop where
  refl (a : World) : R a a
  trans {a b c : World} (h : R a b) (h' : R b c) : R a c
  idle (a : World) : G a a
  within {a b : World} (h : G a b) : R a b

section Rules

variable {R G : World → World → Prop} {ε α β : Type}

/-- An access tells what it tells and answers of the world it meets. -/
theorem Rules.keeps_access (h : Rules R G) {ready : World → Bool} {told : World → List Happened}
    {answer : World → Except ε α} {Q : α → World → Prop} {s : World}
    (hstep : ∀ s₁, R s s₁ → ready s₁ → G s₁ (s₁.tell (told s₁)))
    (hQ : ∀ s₁, R s s₁ → ready s₁ → ∀ s₂, R s₁ s₂ → R (s₁.tell (told s₁)) s₂ →
      ∀ a, answer s₁ = .ok a → Q a s₂) :
    (access ready told answer).Keeps R G Q (fun _ ↦ True) s :=
  Verb.keeps_atom fun s₁ hs₁ hr ↦ ⟨hstep s₁ hs₁ hr, fun s₂ hs₂ ↦
    ⟨hQ s₁ hs₁ hr s₂ (h.trans (h.within (hstep s₁ hs₁ hr)) hs₂) hs₂, fun _ _ ↦ trivial⟩⟩

/-- A transaction that keeps to `G` where its compares hold. -/
theorem Rules.keeps_txn (h : Rules R G) {told : World → List Happened} {t : Txn} {f : String → ε}
    {Q : Option ℕ → World → Prop} {s : World}
    (hstep : ∀ s₁, R s s₁ → t.takes s₁.store → G s₁ ({ s₁ with store := t.run s₁.store }.tell (told s₁)))
    (hQ : ∀ rev s₁, R s s₁ → (rev.isSome → ∃ s₀ : World, R s s₀ ∧ t.takes s₀.store ∧
      R ({ s₀ with store := t.run s₀.store }.tell (told s₀)) s₁) → Q rev s₁) :
    ((txn told t).mapError f).Keeps R G Q (fun _ ↦ True) s := by
  refine Verb.keeps_mapError (Verb.keeps_atom fun s₁ hs₁ _ ↦ ?_)
  have hG : G s₁ (if s₁.storeDown.isNone && t.takes s₁.store then
      { s₁ with store := t.run s₁.store }.tell (told s₁) else s₁) := by
    split
    · rename_i htakes
      exact hstep s₁ hs₁ (Bool.and_eq_true_iff.mp htakes).2
    · exact h.idle _
  refine ⟨hG, fun s₂ hs₂ ↦ ⟨fun rev hrev ↦
    hQ rev s₂ (h.trans hs₁ (h.trans (h.within hG) hs₂)) fun hsome ↦ ?_, fun _ _ ↦ trivial⟩⟩
  obtain ⟨hdown, rfl⟩ := unlessDown_eq_ok.mp hrev
  have htakes : t.takes s₁.store := by
    by_contra hno
    simp [hno] at hsome
  have hcond : (s₁.storeDown.isNone && t.takes s₁.store) = true := by rw [hdown, htakes]; rfl
  rw [if_pos hcond] at hs₂
  exact ⟨s₁, hs₁, htakes, hs₂⟩

/-- What follows a program whose accesses are within `G`. -/
theorem Rules.then_keeps (h : Rules R G) {x : Run ε α} {f : α → Run ε β} {Q : β → World → Prop}
    {s : World} (hx : x.Within R G)
    (hf : ∀ a s', R s s' → (f a).Keeps R G Q (fun _ ↦ True) s') :
    (x >>= f).Keeps R G Q (fun _ ↦ True) s :=
  hx.keeps_bind h.refl h.trans h.within hf

end Rules

/-! ## Accesses that change little -/

/-- Accesses that tell nothing, and writes to these keys alone, are within `G`. -/
structure Bears (R G : World → World → Prop) (keys : Key → Prop) : Prop where
  refl (a : World) : R a a
  access {ε α : Type} (ready : World → Bool) (answer : World → Except ε α) :
    (access ready silent answer).Within R G
  txn (t : Txn) (ht : ∀ o ∈ t.ops, keys o.key) : (txn silent t).Within R G

section Bears

variable {R G : World → World → Prop} {keys : Key → Prop}

theorem Bears.get (h : Bears R G keys) (k : Key) : (get k).Within R G := h.access _ _

theorem Bears.listRounds (h : Bears R G keys) : listRounds.Within R G := h.access _ _

theorem Bears.landingSha (h : Bears R G keys) : landingSha.Within R G := h.access _ _

theorem Bears.underLandingRef (h : Bears R G keys) (git : Ancestry) (commit : String) :
    (underLandingRef git commit).Within R G := h.access _ _

theorem Bears.nowMs {ε : Type} (h : Bears R G keys) : (nowMs : Run ε ℕ).Within R G := h.access _ _

theorem Bears.bind {ε α β : Type} {x : Run ε α} {f : α → Run ε β} (h : Bears R G keys)
    (hx : x.Within R G) (hf : ∀ a, (f a).Within R G) : (x >>= f).Within R G :=
  Verb.Within.bind h.refl hx hf

end Bears

end Spira.Controller
