import Spira.Goodput.Select

/-!
# The assembler

From one snapshot, `assemble` makes what the selector plans from: every section with its freshness,
and with a condition of its own where intents of it have stayed unacknowledged past their horizon.

No step is taken for a section that is stale or behind its spec, nor for one whose owner has left an
intent unacknowledged, unless an action addresses that (`assembled_ready`).
-/

set_option autoImplicit false

namespace Spira.Goodput

open DesiredState (parseRfc3339)

/-- A section as its owner has published it. -/
structure Section where
  kind : String
  name : String
  /-- Bumped on a change of the spec. -/
  generation : Option ℕ
  observedAt : Option String
  maxAge : Option String
  observedGeneration : ℕ
  conditions : List Condition
  /-- The status fields that have a number for their value. -/
  values : String → Option ℚ
  repeatIdentityHolds : List RepeatHold
  consumes : List String
  produces : List String
  actions : List Action

def sectionRef (s : Section) : String := s.kind ++ "/" ++ s.name

def freshness (s : Section) (nowMs : ℕ) : Freshness :=
  let now := nowMs / 1000
  match s.observedAt.bind parseRfc3339 with
  | none => .stale none "no status has been published"
  | some observed =>
    let age := now - observed
    match s.maxAge.bind parseDuration with
    | none => .stale (some age) "no max_age is declared"
    | some maxAge =>
      if age ≤ maxAge then .fresh
      else .stale (some age) s!"observed {age}s ago, past max_age {maxAge}s"

/-- A fresh section may still be behind its spec. -/
def caughtUp (s : Section) : Bool := s.generation.getD 0 ≤ s.observedGeneration

/-- The sections, the intents, the pass record and the knobs, read at one revision. -/
structure Snapshot where
  listRev : ℕ
  sections : List Section
  intents : List ListedIntent
  pass : Option PassRecord
  knobs : String → Option Setting

/-- An intent has no acknowledgement, and its horizon has passed.  One whose times do not read
cannot be shown inside its horizon. -/
def isOverdue (now : ℕ) (i : Intent) : Bool :=
  i.ack.isNone && (horizonEnd i).all fun e ↦ decide (e < now)

/-- The section that an intent's key names, or the key itself. -/
def attributedTo (key : String) : String := (sectionOf key).getD key

/-- How many intents of a section are overdue. -/
def unacknowledged (intents : List ListedIntent) (now : ℕ) (ref : String) : ℕ :=
  (intents.filter fun li ↦ isOverdue now li.intent && attributedTo li.key == ref).length

def derivedOf (intents : List ListedIntent) (now : ℕ) (ref : String) : List Derived :=
  let n := unacknowledged intents now ref
  if n = 0 then [] else [.intentsUnacknowledged n]

def currentOf (snap : Snapshot) (nowMs : ℕ) (s : Section) : Current where
  freshness := freshness s nowMs
  name := s.name
  conditions := s.conditions
  values := s.values
  repeatIdentityHolds := s.repeatIdentityHolds
  derived := derivedOf snap.intents (nowMs / 1000) (sectionRef s)
  consumes := s.consumes
  produces := s.produces
  actions := s.actions

/-- The sections by their references. -/
def ordered (snap : Snapshot) : List Section :=
  snap.sections.insertionSort fun x y ↦ sectionRef x ≤ sectionRef y

def assemble (snap : Snapshot) (nowMs : ℕ) : Assembled where
  n := nextN snap.pass
  listRev := snap.listRev
  sections := (ordered snap).map fun s ↦ (sectionRef s, currentOf snap nowMs s)
  intents := snap.intents
  prev := snap.pass
  knobs := snap.knobs
  caughtUp ref := ((ordered snap).find? (sectionRef · = ref)).map caughtUp

section Assemble

variable {snap : Snapshot} {nowMs : ℕ} {sec : String}

theorem lookup_sections (f : Section → Current) (l : List Section) (ref : String) :
    (l.map fun s ↦ (sectionRef s, f s)).lookup ref = (l.find? (sectionRef · = ref)).map f := by
  induction l with
  | nil => rfl
  | cons s l ih =>
    rw [List.map_cons, List.lookup_cons, List.find?_cons]
    by_cases hs : sectionRef s = ref
    · rw [decide_eq_true hs, beq_iff_eq.mpr hs.symm]
      rfl
    · rw [decide_eq_false hs, beq_eq_false_iff_ne.mpr (Ne.symm hs)]
      exact ih

/-- A section of the document is one that is published. -/
theorem current_assemble {cur : Current} (h : (assemble snap nowMs).current sec = some cur) :
    ∃ s ∈ snap.sections, sectionRef s = sec ∧ cur = currentOf snap nowMs s ∧
      (assemble snap nowMs).caughtUp sec = some (caughtUp s) := by
  rw [Assembled.current] at h
  replace h : ((ordered snap).map fun s ↦ (sectionRef s, currentOf snap nowMs s)).lookup sec =
      some cur := h
  rw [lookup_sections] at h
  obtain ⟨s, hs, rfl⟩ := Option.map_eq_some_iff.mp h
  have href := List.find?_some hs
  refine ⟨s, (List.mem_insertionSort _).mp (List.mem_of_find?_eq_some hs), of_decide_eq_true href,
    rfl, ?_⟩
  show ((ordered snap).find? (sectionRef · = sec)).map caughtUp = _
  rw [hs]
  rfl

/-- An intent that is overdue is the owner's own condition. -/
theorem silent_of_overdue {s : Section} {li : ListedIntent} (hli : li ∈ snap.intents)
    (hkey : attributedTo li.key = sectionRef s)
    (hoverdue : isOverdue (nowMs / 1000) li.intent = true)
    (hno : ∀ act ∈ s.actions, intentsUnacknowledged ∉ act.addresses) :
    ownerSilent (currentOf snap nowMs s) = true := by
  have hmem : li ∈ snap.intents.filter fun li ↦
      isOverdue (nowMs / 1000) li.intent && attributedTo li.key == sectionRef s := by
    refine List.mem_filter.mpr ⟨hli, ?_⟩
    rw [hoverdue, hkey]
    exact beq_self_eq_true _
  have hcount : unacknowledged snap.intents (nowMs / 1000) (sectionRef s) ≠ 0 :=
    (List.length_pos_of_mem hmem).ne'
  have hderived : (currentOf snap nowMs s).derived = [.intentsUnacknowledged
      (unacknowledged snap.intents (nowMs / 1000) (sectionRef s))] := if_neg hcount
  refine decide_eq_true (List.mem_filter.mpr ⟨List.mem_append_right _ ?_, ?_⟩)
  · rw [hderived]
    exact List.mem_cons_self
  · rw [Bool.not_eq_true', List.any_eq_false]
    intro act hact haddresses
    exact hno act hact (of_decide_eq_true haddresses)

/-- **A step is taken only for a section that is fresh, has caught up with its spec, and whose owner
has left no intent unacknowledged past its horizon**, unless an action of its addresses that. -/
theorem assembled_ready (inp : Inputs) (hinp : inp.assembled = assemble snap inp.nowMs)
    (p : Planned) (hp : p ∈ (select inp).steps ++ (select inp).wouldStep) :
    ∃ s ∈ snap.sections, sectionRef s = p.section_ ∧ freshness s inp.nowMs = .fresh ∧
      caughtUp s = true ∧ (p.action ∈ s.actions.map Action.name) ∧
      ((∀ act ∈ s.actions, intentsUnacknowledged ∉ act.addresses) →
        ∀ li ∈ snap.intents, attributedTo li.key = p.section_ →
          isOverdue (inp.nowMs / 1000) li.intent = false) := by
  obtain ⟨s, taken, hselect, hw⟩ := walked_select inp
  have hmem : p ∈ taken.map (·.2) := by
    rw [hselect, hw.steps, hw.wouldStep] at hp
    rcases List.mem_append.mp hp with hp | hp
    · exact (List.mem_filter.mp hp).1
    · exact (List.mem_filter.mp hp).1
  obtain ⟨t, ht, rfl⟩ := List.mem_map.mp hmem
  obtain ⟨cur, hcur, hact, -, hsilent, htakes⟩ := hw.took.due t ht
  have hcaught := htakes.caughtUp
  rw [hinp] at hcur hcaught
  obtain ⟨s, hs, href, rfl, hcaughtUp⟩ := current_assemble hcur
  refine ⟨s, hs, href, htakes.fresh, Option.some.inj (hcaughtUp.symm.trans hcaught),
    htakes.action ▸ List.mem_map_of_mem hact, fun hno li hli hkey ↦ ?_⟩
  by_contra hoverdue
  rw [silent_of_overdue hli (hkey.trans href.symm) (Bool.eq_true_of_not_eq_false hoverdue) hno]
    at hsilent
  cases hsilent

end Assemble

namespace Sample

def rig : Section where
  kind := "Rig"
  name := "a"
  generation := some 1
  observedAt := some "2023-11-14T22:13:00Z"
  maxAge := some "1h"
  observedGeneration := 1
  conditions := [⟨"Slow", .true, "queue"⟩]
  values field := if field = "depth" then some 10 else none
  repeatIdentityHolds := []
  consumes := []
  produces := []
  actions := [⟨"widen", .local_, "+1", "depth", ["Slow"], -1, "10m", none⟩]

def knob : String := "knobs/Rig/a/widen"

def rank (_ : Assembled) : List RankedGap := [⟨"Rig/a", true⟩]

def snapshot : Snapshot where
  listRev := 7
  sections := [rig]
  intents := []
  pass := none
  knobs k := if k = knob then some (.number (.posInt 3)) else none

def inputs : Inputs :=
  ⟨assemble snapshot 1700000000000, [⟨"Rig/a", true⟩], [], false, 1700000000000, 6⟩

theorem planned : ∃ p, (select inputs).steps.head? = some p :=
  Option.isSome_iff_exists.mp (by decide +kernel)

end Sample

theorem assembled_ready_planned : ∃ p ∈ (select Sample.inputs).steps,
    ∃ s ∈ Sample.snapshot.sections, sectionRef s = p.section_ ∧
      freshness s Sample.inputs.nowMs = .fresh ∧ caughtUp s = true := by
  obtain ⟨p, hp⟩ := Sample.planned
  have hmem := List.mem_of_head? hp
  obtain ⟨s, hs, href, hfresh, hcaught, -⟩ :=
    assembled_ready Sample.inputs rfl p (List.mem_append_left _ hmem)
  exact ⟨p, hmem, s, hs, href, hfresh, hcaught⟩

end Spira.Goodput
