import Spira.Batcher.Rounds

/-!
# The end of a red pass

Once every mender has an outcome, the next pass is decided once, from the outcomes, the round's
members and what the previous pass left behind.  A pass whose failures were all the box's is run
again as it was, and the second such pass at one head stops the round.  From any other pass leave
the members that a failure names for good, with all that is stacked on them (`mem_leaving`).
-/

set_option autoImplicit false

namespace Spira.Batcher.Mender

open Relation (ReflTransGen)
open Settle (settle settle_keeps settle_settled)
open Std (ExtTreeMap)

inductive Outcome
  | mended
  | environment
  | flaky
  | returned
  | unsure
  deriving DecidableEq, Repr

structure Failure where
  suite : String
  outcome : Outcome
  diagnosis : String
  /-- Who leaves on a return, who is suspected when unsure. -/
  members : List Id

/-- What a pass leaves for the next one. -/
structure Prior where
  /-- The head of the previous pass, when every one of its failures was environment or flaky. -/
  environmentHead : Option String
  /-- Suites that the previous pass judged unsure, with the diagnosis given. -/
  unsure : ExtTreeMap String String

structure Left where
  id : Id
  why : String
  deriving DecidableEq

inductive Next
  /-- Run again with `members`; `retry` is the same head run again unchanged. -/
  | pass (members : List Member) (left : List Left) (retry : Bool)
  /-- A fault of the box that retrying cannot fix. -/
  | stop (page : String)
  deriving DecidableEq

structure Decision where
  next : Next
  prior : Prior
  /-- Returns that named no member. -/
  unattributed : List String

def isEnvironment : Outcome → Bool
  | .environment | .flaky => true
  | .mended | .returned | .unsure => false

/-- Who leaves, and why. -/
abbrev Leaving := ExtTreeMap Id (List String)

/-- The reasons of one more failure, for each member it names. -/
def addReasons (ids : List Id) (why : List String) (leaving : Leaving) : Leaving :=
  ids.foldl (fun leaving id ↦ leaving.insert id (leaving.getD id [] ++ why)) leaving

/-- What the failures so far come to. -/
structure Collected where
  leaving : Leaving
  unattributed : List String
  unsure : ExtTreeMap String String

def collectOne (prior : Prior) (c : Collected) (f : Failure) : Collected :=
  match f.outcome with
  | .returned =>
    if f.members.isEmpty then { c with unattributed := c.unattributed ++ [f.suite] }
    else { c with leaving := addReasons f.members [f.diagnosis] c.leaving }
  | .unsure => match prior.unsure[f.suite]? with
    | some earlier =>
      if f.members.isEmpty then { c with unattributed := c.unattributed ++ [f.suite] }
      else { c with leaving := addReasons f.members [earlier, f.diagnosis] c.leaving }
    | none => { c with unsure := c.unsure.insert f.suite f.diagnosis }
  | .mended | .environment | .flaky => c

def collect (prior : Prior) (failures : List Failure) : Collected :=
  failures.foldl (collectOne prior) ⟨∅, [], ∅⟩

/-- A member stacked on one that leaves leaves with it. -/
def stackOne (leaving : Leaving) (m : Member) : Leaving :=
  match m.stack.find? (·.1 ∈ leaving) with
  | some p => leaving.insertIfNew m.id ["stacked on " ++ p.1 ++ ", which was returned from the round"]
  | none => leaving

def stackPass (round : List Member) (leaving : Leaving) : Leaving := round.foldl stackOne leaving

/-- Who leaves the round in the end. -/
def leavingOf (round : List Member) (prior : Prior) (failures : List Failure) : Leaving :=
  settle ExtTreeMap.size (stackPass round) (round.length + 1) (collect prior failures).leaving

def decide (head : String) (round : List Member) (mended : ExtTreeMap Id String)
    (failures : List Failure) (prior : Prior) : Decision :=
  if !failures.isEmpty && failures.all (isEnvironment ·.outcome) then
    let nextPrior : Prior := ⟨some head, ∅⟩
    if prior.environmentHead = some head then
      { next := .stop ("a second all-environment pass on head " ++ head ++ ": " ++
          ", ".intercalate (failures.map (·.suite)))
        prior := nextPrior
        unattributed := [] }
    else { next := .pass round [] true, prior := nextPrior, unattributed := [] }
  else
    let leaving := leavingOf round prior failures
    let members := (round.filter (·.id ∉ leaving)).map fun m ↦
      { m with tip := mended.getD m.id m.tip }
    let left := round.filterMap fun m ↦
      leaving[m.id]?.map fun why ↦ (⟨m.id, "\n---\n".intercalate why⟩ : Left)
    { next := .pass members left false
      prior := ⟨none, (collect prior failures).unsure⟩
      unattributed := (collect prior failures).unattributed }

/-! ## Who is named -/

/-- The failure is a return, or its suite was unsure in the pass before too. -/
def Failure.Expels (prior : Prior) (f : Failure) : Prop :=
  f.outcome = .returned ∨ f.outcome = .unsure ∧ f.suite ∈ prior.unsure

/-- A failure names the member for good. -/
def Named (prior : Prior) (failures : List Failure) (id : Id) : Prop :=
  ∃ f ∈ failures, f.Expels prior ∧ id ∈ f.members

variable {prior : Prior} {failures : List Failure} {round : List Member} {leaving : Leaving}
  {id : Id}

theorem mem_addReasons (ids : List Id) (why : List String) (leaving : Leaving) :
    id ∈ addReasons ids why leaving ↔ id ∈ ids ∨ id ∈ leaving := by
  rw [addReasons]
  induction ids generalizing leaving with
  | nil => simp
  | cons x ids ih =>
    rw [List.foldl_cons, ih, ExtTreeMap.mem_insert, compare_eq_iff_eq, List.mem_cons, ← or_assoc,
      or_comm (b := x = id), eq_comm (a := x)]

theorem mem_collectOne (c : Collected) (f : Failure) :
    (id ∈ (collectOne prior c f).leaving ↔ (f.Expels prior ∧ id ∈ f.members) ∨ id ∈ c.leaving) ∧
      ∀ suite, suite ∈ (collectOne prior c f).unattributed ↔
        (f.Expels prior ∧ f.members = [] ∧ f.suite = suite) ∨ suite ∈ c.unattributed := by
  cases hout : f.outcome with
  | returned =>
    have hexpels : f.Expels prior := .inl hout
    cases hm : f.members <;>
      simp [collectOne, hout, hm, hexpels, mem_addReasons, or_comm, eq_comm]
  | unsure =>
    cases hp : prior.unsure[f.suite]? with
    | none =>
      have hexpels : ¬ f.Expels prior := by
        simp [Failure.Expels, hout, ← ExtTreeMap.isSome_getElem?_iff_mem, hp]
      simp [collectOne, hout, hp, hexpels]
    | some earlier =>
      have hexpels : f.Expels prior := by
        simp [Failure.Expels, hout, ← ExtTreeMap.isSome_getElem?_iff_mem, hp]
      cases hm : f.members <;>
        simp [collectOne, hout, hp, hm, hexpels, mem_addReasons, or_comm, eq_comm]
  | mended => simp [collectOne, hout, Failure.Expels]
  | environment => simp [collectOne, hout, Failure.Expels]
  | flaky => simp [collectOne, hout, Failure.Expels]

theorem mem_collect (prior : Prior) (failures : List Failure) :
    (id ∈ (collect prior failures).leaving ↔ Named prior failures id) ∧
      ∀ suite, suite ∈ (collect prior failures).unattributed ↔
        ∃ f ∈ failures, f.Expels prior ∧ f.members = [] ∧ f.suite = suite := by
  have hfold : ∀ (failures : List Failure) (c : Collected),
      (id ∈ (failures.foldl (collectOne prior) c).leaving ↔
        Named prior failures id ∨ id ∈ c.leaving) ∧
      ∀ suite, suite ∈ (failures.foldl (collectOne prior) c).unattributed ↔
        (∃ f ∈ failures, f.Expels prior ∧ f.members = [] ∧ f.suite = suite) ∨
          suite ∈ c.unattributed := by
    intro failures
    induction failures with
    | nil => simp [Named]
    | cons f failures ih =>
      intro c
      obtain ⟨hleaving, hsuites⟩ := ih (collectOne prior c f)
      obtain ⟨hleaving', hsuites'⟩ := @mem_collectOne prior id c f
      refine ⟨?_, fun suite ↦ ?_⟩
      · rw [List.foldl_cons, hleaving, hleaving']
        simp only [Named, List.exists_mem_cons_iff]
        exact or_left_comm.trans or_assoc.symm
      · rw [List.foldl_cons, hsuites, hsuites']
        simp only [List.exists_mem_cons_iff]
        exact or_left_comm.trans or_assoc.symm
  have h := hfold failures ⟨∅, [], ∅⟩
  exact ⟨by simpa [collect] using h.1, fun suite ↦ by simpa [collect] using h.2 suite⟩

/-! ## Who leaves -/

/-- A member of that id is stacked on `p`. -/
def StackedOn (round : List Member) (p id : Id) : Prop :=
  ∃ m ∈ round, m.id = id ∧ p ∈ m.stack.map Prod.fst

/-- One that a failure names for good leaves, and what is stacked on one that leaves. -/
def Leaves (round : List Member) (prior : Prior) (failures : List Failure) (id : Id) : Prop :=
  ∃ named, Named prior failures named ∧ ReflTransGen (StackedOn round) named id

/-- The member is stacked on one that leaves. -/
def Member.Touched (leaving : Leaving) (m : Member) : Prop := ∃ p ∈ m.stack.map Prod.fst, p ∈ leaving

theorem stackOne_spec (leaving : Leaving) (m : Member) :
    (∀ id, id ∈ stackOne leaving m ↔ id ∈ leaving ∨ id = m.id ∧ Member.Touched leaving m) ∧
      ((stackOne leaving m).size = leaving.size ∧ (Member.Touched leaving m → m.id ∈ leaving) ∨
        leaving.size < (stackOne leaving m).size ∧ m.id ∉ leaving ∧ Member.Touched leaving m) := by
  rw [stackOne]
  cases hfind : m.stack.find? (·.1 ∈ leaving) with
  | none =>
    have huntouched : ¬ Member.Touched leaving m := by
      rintro ⟨p, hp, hin⟩
      obtain ⟨e, he, rfl⟩ := List.mem_map.mp hp
      exact absurd (decide_eq_true hin) (List.find?_eq_none.mp hfind e he)
    exact ⟨fun id ↦ by simp [huntouched], .inl ⟨rfl, fun h ↦ absurd h huntouched⟩⟩
  | some e =>
    have htouched : Member.Touched leaving m :=
      ⟨e.1, List.mem_map_of_mem (List.mem_of_find?_eq_some hfind), by
        simpa using List.find?_some hfind⟩
    refine ⟨fun id ↦ ?_, ?_⟩
    · rw [ExtTreeMap.mem_insertIfNew, compare_eq_iff_eq, or_comm, eq_comm (a := m.id)]
      simp [htouched]
    · rw [ExtTreeMap.size_insertIfNew]
      by_cases hin : m.id ∈ leaving
      · exact .inl ⟨if_pos hin, fun _ ↦ hin⟩
      · rw [if_neg hin]
        exact .inr ⟨Nat.lt_succ_self _, hin, htouched⟩

/-- A pass that adds nobody finds nobody stacked on one that leaves. -/
theorem stackPass_spec (l : List Member) (leaving : Leaving) :
    (∀ id ∈ leaving, id ∈ stackPass l leaving) ∧
      ((stackPass l leaving).size = leaving.size ∧ (∀ id ∈ stackPass l leaving, id ∈ leaving) ∧
          (∀ m ∈ l, Member.Touched leaving m → m.id ∈ leaving) ∨
        leaving.size < (stackPass l leaving).size ∧
          ∃ m ∈ l, m.id ∉ leaving ∧ m.id ∈ stackPass l leaving) := by
  induction l generalizing leaving with
  | nil => exact ⟨fun _ h ↦ h, .inl ⟨rfl, fun _ h ↦ h, nofun⟩⟩
  | cons m l ih =>
    have hcons : stackPass (m :: l) leaving = stackPass l (stackOne leaving m) := rfl
    obtain ⟨hmem, hone⟩ := stackOne_spec leaving m
    obtain ⟨hkeep, hrest⟩ := ih (stackOne leaving m)
    rw [hcons]
    have hstep : ∀ id ∈ leaving, id ∈ stackOne leaving m := fun id h ↦ (hmem id).mpr (.inl h)
    refine ⟨fun id h ↦ hkeep id (hstep id h), ?_⟩
    rcases hone with ⟨hsize, hclosed⟩ | ⟨hsize, hnew, htouched⟩
    · have hsame : ∀ id, id ∈ stackOne leaving m ↔ id ∈ leaving := by
        intro id
        rw [hmem]
        refine or_iff_left_of_imp ?_
        rintro ⟨rfl, htouched⟩
        exact hclosed htouched
      rcases hrest with ⟨hsize', hback, hclosed'⟩ | ⟨hsize', m', hm', hnew, hin⟩
      · refine .inl ⟨hsize'.trans hsize, fun id h ↦ (hsame id).mp (hback id h), ?_⟩
        rintro m' (_ | ⟨_, hm'⟩)
        · exact hclosed
        · rintro ⟨p, hp, hin⟩
          exact (hsame _).mp (hclosed' m' hm' ⟨p, hp, (hsame p).mpr hin⟩)
      · exact .inr ⟨hsize ▸ hsize', m', List.mem_cons_of_mem _ hm', fun h ↦ hnew (hstep _ h), hin⟩
    · refine .inr ⟨?_, m, List.mem_cons_self, hnew, hkeep _ ((hmem _).mpr (.inr ⟨rfl, htouched⟩))⟩
      rcases hrest with ⟨hsize', -⟩ | ⟨hsize', -⟩ <;> omega

theorem stackPass_leaves (h : ∀ id ∈ leaving, Leaves round prior failures id) :
    ∀ id ∈ stackPass round leaving, Leaves round prior failures id := by
  have hfold : ∀ (l : List Member) (leaving : Leaving), l ⊆ round →
      (∀ id ∈ leaving, Leaves round prior failures id) →
        ∀ id ∈ stackPass l leaving, Leaves round prior failures id := by
    intro l
    induction l with
    | nil => exact fun _ _ h ↦ h
    | cons m l ih =>
      intro leaving hl h
      refine ih (stackOne leaving m) (List.subset_of_cons_subset hl) fun id hid ↦ ?_
      rcases ((stackOne_spec leaving m).1 id).mp hid with hid | ⟨rfl, p, hp, hin⟩
      · exact h id hid
      · obtain ⟨named, hnamed, hreach⟩ := h p hin
        exact ⟨named, hnamed, hreach.tail ⟨m, hl List.mem_cons_self, rfl, hp⟩⟩
  exact hfold round leaving (List.Subset.refl round) h

/-- **Those leave whom a failure names for good, and what is stacked on them.** -/
theorem mem_leavingOf : id ∈ leavingOf round prior failures ↔ Leaves round prior failures id := by
  let staying : Leaving → Finset Id := fun leaving ↦
    (round.map (·.id)).toFinset.filter (· ∉ leaving)
  let I : Leaving → Prop := fun leaving ↦ (∀ id ∈ (collect prior failures).leaving, id ∈ leaving) ∧
    ∀ id ∈ leaving, Leaves round prior failures id
  have hstart : I (collect prior failures).leaving :=
    ⟨fun _ h ↦ h, fun id h ↦ ⟨id, (mem_collect prior failures).1.mp h, .refl⟩⟩
  have hpass : ∀ leaving, I leaving → I (stackPass round leaving) := fun leaving h ↦
    ⟨fun id hid ↦ (stackPass_spec round leaving).1 id (h.1 id hid), stackPass_leaves h.2⟩
  have hless : ∀ leaving, I leaving → (stackPass round leaving).size ≠ leaving.size →
      (staying (stackPass round leaving)).card < (staying leaving).card := by
    intro leaving _ hne
    obtain ⟨hkeep, ⟨hsame, -⟩ | ⟨-, m, hm, hnew, hin⟩⟩ := stackPass_spec round leaving
    · exact absurd hsame hne
    · refine Finset.card_lt_card (Finset.ssubset_iff_subset_ne.mpr ⟨fun id hid ↦ ?_, fun heq ↦ ?_⟩)
      · obtain ⟨hround, hstays⟩ := Finset.mem_filter.mp hid
        exact Finset.mem_filter.mpr ⟨hround, fun h ↦ hstays (hkeep id h)⟩
      · have hstays : m.id ∈ staying leaving :=
          Finset.mem_filter.mpr ⟨List.mem_toFinset.mpr (List.mem_map_of_mem hm), hnew⟩
        rw [← heq] at hstays
        exact (Finset.mem_filter.mp hstays).2 hin
  have hmany : (staying (collect prior failures).leaving).card < round.length + 1 := by
    have hcard := (Finset.card_filter_le (round.map (·.id)).toFinset
      (· ∉ (collect prior failures).leaving)).trans (List.toFinset_card_le _)
    rw [List.length_map] at hcard
    exact Nat.lt_succ_of_le hcard
  obtain ⟨last, hlast, hsize, heq⟩ :=
    settle_settled hpass (fun leaving ↦ (staying leaving).card) hless hstart hmany
  rw [leavingOf, heq]
  obtain ⟨hkeep, ⟨-, hback, hclosed⟩ | ⟨hlt, -⟩⟩ := stackPass_spec round last
  · refine ⟨(hpass last hlast).2 id, ?_⟩
    rintro ⟨named, hnamed, hreach⟩
    refine hkeep id ?_
    induction hreach with
    | refl => exact hlast.1 named ((mem_collect prior failures).1.mpr hnamed)
    | tail _ hstacked ih =>
      obtain ⟨m, hm, rfl, hp⟩ := hstacked
      exact hclosed m hm ⟨_, hp, ih⟩
  · omega

/-! ## The decision -/

/-- The failures are there, and all the box's. -/
def AllEnvironment (failures : List Failure) : Prop :=
  failures ≠ [] ∧ ∀ f ∈ failures, isEnvironment f.outcome = true

theorem allEnvironment_iff :
    (!failures.isEmpty && failures.all (isEnvironment ·.outcome)) = true ↔ AllEnvironment failures := by
  simp [AllEnvironment]

/-- Where not all was the box's. -/
theorem decide_of_judged (head : String) (mended : ExtTreeMap Id String)
    (h : ¬ AllEnvironment failures) :
    decide head round mended failures prior =
      { next := .pass ((round.filter (·.id ∉ leavingOf round prior failures)).map fun m ↦
            { m with tip := mended.getD m.id m.tip })
          (round.filterMap fun m ↦ (leavingOf round prior failures)[m.id]?.map fun why ↦
            ⟨m.id, "\n---\n".intercalate why⟩) false
        prior := ⟨none, (collect prior failures).unsure⟩
        unattributed := (collect prior failures).unattributed } :=
  if_neg fun hall ↦ h (allEnvironment_iff.mp hall)

theorem left_ids (leaving : Leaving) (round : List Member) (text : List String → String) :
    (round.filterMap fun m ↦ leaving[m.id]?.map fun why ↦ (⟨m.id, text why⟩ : Left)).map (·.id) =
      (round.filter (·.id ∈ leaving)).map (·.id) := by
  induction round with
  | nil => rfl
  | cons m round ih =>
    rw [List.filterMap_cons, List.filter_cons]
    by_cases hin : m.id ∈ leaving
    · obtain ⟨why, hwhy⟩ := Option.isSome_iff_exists.mp (ExtTreeMap.isSome_getElem?_iff_mem.mpr hin)
      rw [hwhy, if_pos (decide_eq_true hin)]
      exact congrArg (m.id :: ·) ih
    · rw [ExtTreeMap.getElem?_eq_none hin, if_neg (by simpa using hin)]
      exact ih

/-- What the next pass is made of. -/
structure NextPass (round : List Member) (mended : ExtTreeMap Id String) (failures : List Failure)
    (prior : Prior) (stays : Member → Bool) (members : List Member) (left : List Left) : Prop where
  members : members = (round.filter stays).map fun m ↦ { m with tip := mended.getD m.id m.tip }
  left : left.map (·.id) = (round.filter (!stays ·)).map (·.id)
  /-- A member leaves for a failure that names it, or for what it is stacked on. -/
  leaves : ∀ m, stays m = false ↔ Leaves round prior failures m.id
  stacked : ∀ m gone : Member, stays m → ReflTransGen (StackedOn round) gone.id m.id → stays gone

/-- **The next pass**: the second pass at one head whose failures are all the box's stops the round,
and the first is run again unchanged.  From any other, those leave whom a failure names for good,
with what is stacked on them, and the rest carry their mended tips.  A failure that names somebody
for good takes every member of the round that it names, and one that names nobody is listed. -/
theorem decide_next (head : String) (round : List Member) (mended : ExtTreeMap Id String)
    (failures : List Failure) (prior : Prior) :
    let d := decide head round mended failures prior
    ((∃ page, d.next = .stop page) ↔
        AllEnvironment failures ∧ prior.environmentHead = some head) ∧
      (AllEnvironment failures → prior.environmentHead ≠ some head →
        d.next = .pass round [] true) ∧
      (¬ AllEnvironment failures → ∃ stays members left, d.next = .pass members left false ∧
        NextPass round mended failures prior stays members left) ∧
      ∀ f ∈ failures, f.Expels prior → (f.members = [] → f.suite ∈ d.unattributed) ∧
        ∀ m ∈ round, m.id ∈ f.members → ∃ members left retry,
          d.next = .pass members left retry ∧ m.id ∈ left.map (·.id) := by
  intro d
  have hbox : AllEnvironment failures → d.next = if prior.environmentHead = some head then
      .stop ("a second all-environment pass on head " ++ head ++ ": " ++
        ", ".intercalate (failures.map (·.suite))) else .pass round [] true := by
    intro hall
    dsimp only [d]
    rw [decide, if_pos (allEnvironment_iff.mpr hall)]
    split <;> rfl
  have hjudged : ¬ AllEnvironment failures → d = _ := decide_of_judged head mended
  have hleaves : ∀ m ∈ round, Leaves round prior failures m.id →
      m.id ∈ (round.filter (·.id ∈ leavingOf round prior failures)).map (·.id) := fun m hm h ↦
    List.mem_map_of_mem (List.mem_filter.mpr ⟨hm, decide_eq_true (mem_leavingOf.mpr h)⟩)
  refine ⟨⟨?_, ?_⟩, ?_, fun hnot ↦ ?_, fun f hf hexpels ↦ ?_⟩
  · rintro ⟨page, hstop⟩
    by_cases hall : AllEnvironment failures
    · refine ⟨hall, ?_⟩
      by_contra hhead
      rw [hbox hall, if_neg hhead] at hstop
      cases hstop
    · rw [hjudged hall] at hstop
      cases hstop
  · rintro ⟨hall, hhead⟩
    exact ⟨_, (hbox hall).trans (if_pos hhead)⟩
  · intro hall hhead
    exact (hbox hall).trans (if_neg hhead)
  · refine ⟨fun m ↦ m.id ∉ leavingOf round prior failures, _, _, congrArg Decision.next (hjudged hnot),
      rfl, ?_, fun m ↦ ?_, fun m gone hstays hreach ↦ ?_⟩
    · rw [left_ids]
      simp
    · rw [decide_eq_false_iff_not, not_not, mem_leavingOf]
    · rw [decide_eq_true_eq, mem_leavingOf] at hstays ⊢
      rintro ⟨named, hnamed, hgone⟩
      exact hstays ⟨named, hnamed, hgone.trans hreach⟩
  · have hnot : ¬ AllEnvironment failures := by
      rintro ⟨-, hall⟩
      have henv := hall f hf
      rcases hexpels with hout | ⟨hout, -⟩ <;> rw [hout] at henv <;> cases henv
    rw [hjudged hnot]
    refine ⟨fun hnone ↦ ?_, fun m hm hnamed ↦ ⟨_, _, _, rfl, ?_⟩⟩
    · exact ((@mem_collect f.suite prior failures).2 f.suite).mpr ⟨f, hf, hexpels, hnone, rfl⟩
    · rw [left_ids]
      exact hleaves m hm ⟨m.id, ⟨f, hf, hexpels, hnamed⟩, .refl⟩

/-- A member at the tip it came with. -/
def unmended : Member := ⟨"a", "a0", none, false, false, 0, [], []⟩

/-- The first pass whose failures are all the box's keeps the old tip of a mended member. -/
theorem retry_keeps_tip :
    let mended : ExtTreeMap Id String := (∅ : ExtTreeMap Id String).insert "a" "a1"
    (decide "h" [unmended] mended [⟨"t1", .environment, "", []⟩] ⟨none, ∅⟩).next =
        .pass [unmended] [] true ∧
      mended.getD unmended.id unmended.tip = "a1" ∧ unmended.tip = "a0" :=
  ⟨rfl, ExtTreeMap.getD_insert_self, rfl⟩

end Spira.Batcher.Mender
