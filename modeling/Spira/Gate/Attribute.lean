import Mathlib.Data.Int.Notation
import Mathlib.Data.String.Basic
import Spira.Lib.Text

/-!
# Whose fault a failed trial is

The reds of a trial are read out of its output: suites by their status words, the steps of the gate
by their lines, and phases.  `gateAttribute` judges each red of the branch against what the trial of
the base printed.

A step that the base did not show is the branch's own as soon as the base showed any other step
(`unrun_step_blamed`).  Each red is judged on its own unit exactly where no such step comes before
the reds that are the branch's own (`gateAttribute_judges`).
-/

set_option autoImplicit false

namespace Spira.Gate

/-! ## Reading an output -/

def endsWith (s p : String) : Bool := p.toList.isSuffixOf s.toList

def stripPrefix (s p : String) : Option String :=
  if Text.startsWith s p then some (String.ofList (s.toList.drop p.length)) else none

/-- What stands before the first `sep` and after it. -/
def splitOnceOn (sep : List Char) : List Char → Option (List Char × List Char)
  | [] => none
  | c :: s =>
    if sep.isPrefixOf (c :: s) then some ([], (c :: s).drop sep.length)
    else (splitOnceOn sep s).map fun parts ↦ (c :: parts.1, parts.2)

def push (seen : List String) (u : String) : List String := if u ∈ seen then seen else seen ++ [u]

/-- The suites that words name as `<x>.sh <STATUS>`, or `<x>.sh was killed`. -/
def suiteWords (statuses : List String) (killed : Bool) : List String → List String
  | a :: b :: rest =>
    let more := suiteWords statuses killed (b :: rest)
    let hit := b ∈ statuses || (killed && b = "was" && rest.head? = some "killed")
    if endsWith a ".sh" && hit then a :: more else more
  | _ => []

/-- The suites an output names with one of the statuses, each once. -/
def suitesWhere (out : String) (statuses : List String) (killed : Bool) : List String :=
  ((Text.lines out).flatMap fun l ↦ suiteWords statuses killed (Text.words l)).foldl push []

def redSuites (out : String) : List String := suitesWhere out ["RED", "TIMEOUT", "FAILED"] true

/-- Every suite the runner reported any status for. -/
def ranSuites (out : String) : List String :=
  suitesWhere out ["ok", "SKIPPED", "SKIP-REQ", "TIMEOUT", "RED", "QUARANTINED-RED", "DISABLED",
    "UNREACHED", "FAILED", "FAULT"] true

def timedOutSuites (out : String) : List String := suitesWhere out ["TIMEOUT"] true

/-- The unit of a `gate-step` line, and whether it is red. -/
def stepUnit (line : String) : Option (String × Bool) := do
  let rest ← stripPrefix (Text.trim line) "gate-step "
  let (head, unit) ← splitOnceOn " :: ".toList rest.toList
  let unit := Text.trim (String.ofList unit)
  if unit ≠ "" then some (unit, Text.startsWith (String.ofList head) "RED") else none

def stepUnits (out : String) : List (String × Bool) := (Text.lines out).filterMap stepUnit

/-- The unit of a line that says a phase failed. -/
def phaseUnit (line : String) : Option String :=
  (stripPrefix (Text.trim line) ("gate: phase " ++ String.singleton (Char.ofNat 39))).map fun r ↦
    "phase:" ++ String.ofList (r.toList.takeWhile (· ≠ Char.ofNat 39))

/-- Every unit that is red in an output; the suites step only where it names no suite. -/
def redUnits (out : String) : List String :=
  let suites := redSuites out
  let named := suites ≠ []
  let steps := (stepUnits out).foldl (fun units step ↦
    if step.2 && !(named && step.1 = "suites") then push units step.1 else units) suites
  ((Text.lines out).filterMap phaseUnit).foldl push steps

/-! ## Attribution -/

inductive Attribution
  | branchRed (u : String)
  | baseRed (u : String)
  | baseTimeout (u : String)
  | baseUntestable
  deriving DecidableEq

/-- Whether a red of the branch is its own; `none` where the base did not tell. -/
def own (baseRc : ℤ) (baseOut : String) (absentOnBase : List String) (u : String) : Option Bool :=
  if u ∈ absentOnBase then some true
  else if u ∈ redUnits baseOut then some false
  else if endsWith u ".sh" then
    if u ∈ ranSuites baseOut then some true else none
  else if Text.startsWith u "phase:" then
    if baseRc = 0 then some true else none
  else if stepUnits baseOut = [] then
    if baseRc = 0 then some true else none
  else some true

/-- The rule of the base, where every red of the branch is red on it too. -/
def baseRule (baseOut : String) : Attribution :=
  let timeouts := timedOutSuites baseOut
  let genuine := ((redUnits baseOut).filter fun s ↦ s ∉ timeouts).length
  if timeouts ≠ [] ∧ genuine = 0 then .baseTimeout (timeouts.headD "")
  else .baseRed ((redUnits baseOut).headD "-")

/-- `attribute` of the source. -/
def gateAttribute (branchOut : String) (baseRan : Bool) (baseRc : ℤ) (baseOut : String)
    (absentOnBase : List String) : Attribution :=
  if !baseRan then .baseUntestable
  else
    let branchReds := redUnits branchOut
    if branchReds = [] then
      -- A red that names no unit: judged on the command whole.
      if baseRc = 0 then .branchRed "-" else baseRule baseOut
    else
      match branchReds.find? fun u ↦ own baseRc baseOut absentOnBase u = some true with
      | some s => .branchRed s
      | none =>
        if branchReds.any fun u ↦ own baseRc baseOut absentOnBase u = none then .baseUntestable
        else baseRule baseOut

/-! ## What the base shows of a unit -/

/-- A unit that is neither a suite nor a phase. -/
def IsStep (u : String) : Prop := endsWith u ".sh" = false ∧ Text.startsWith u "phase:" = false

/-- The output of the base shows that the unit ran. -/
def Shown (baseOut u : String) : Prop :=
  if endsWith u ".sh" then u ∈ ranSuites baseOut
  else if Text.startsWith u "phase:" then False
  else ∃ red, (u, red) ∈ stepUnits baseOut

/-- The unit is red on the base. -/
def RedOn (baseOut u : String) : Prop :=
  u ∈ redUnits baseOut ∨ IsStep u ∧ (u, true) ∈ stepUnits baseOut

/-- The output of the base cannot show that the unit ran. -/
def Unshowable (baseOut u : String) : Prop :=
  endsWith u ".sh" = false ∧ (Text.startsWith u "phase:" = true ∨ stepUnits baseOut = [])

/-- A red of the branch that is its own. -/
def Own (baseRc : ℤ) (baseOut : String) (absentOnBase : List String) (u : String) : Prop :=
  u ∈ absentOnBase ∨
    ¬ RedOn baseOut u ∧ (Shown baseOut u ∨ Unshowable baseOut u ∧ baseRc = 0)

/-- A step the base has, as far as is known, that is not among its reds, and that its output does
not show green, though it shows others. -/
def Unrun (baseOut : String) (absentOnBase : List String) (u : String) : Prop :=
  IsStep u ∧ u ∉ absentOnBase ∧ u ∉ redUnits baseOut ∧ stepUnits baseOut ≠ [] ∧
    ¬ ((u, false) ∈ stepUnits baseOut ∧ (u, true) ∉ stepUnits baseOut)

section Own

variable {baseRc : ℤ} {baseOut branchOut u v : String} {absentOnBase : List String}

theorem not_own_of_unrun (h : Unrun baseOut absentOnBase u) :
    ¬ Own baseRc baseOut absentOnBase u := by
  obtain ⟨⟨hsuite, hphase⟩, habsent, -, hsteps, hgreen⟩ := h
  rintro (hin | ⟨hred, hshown | ⟨⟨-, h⟩, -⟩⟩)
  · exact habsent hin
  · rw [Shown, hsuite, if_neg Bool.false_ne_true, hphase, if_neg Bool.false_ne_true] at hshown
    obtain ⟨red, hmem⟩ := hshown
    have hnot : (u, true) ∉ stepUnits baseOut := fun h ↦ hred (.inr ⟨⟨hsuite, hphase⟩, h⟩)
    cases red with
    | true => exact hnot hmem
    | false => exact hgreen ⟨hmem, hnot⟩
  · obtain h | h := h
    · rw [hphase] at h
      cases h
    · exact hsteps h

/-- What the code takes for the branch's own: what is, and the steps that the base did not run. -/
theorem own_eq_true : own baseRc baseOut absentOnBase u = some true ↔
    Own baseRc baseOut absentOnBase u ∨ Unrun baseOut absentOnBase u := by
  rw [own]
  by_cases habsent : u ∈ absentOnBase
  · rw [if_pos habsent]
    exact iff_of_true rfl (.inl (.inl habsent))
  rw [if_neg habsent, Own, or_iff_right habsent]
  by_cases hred : u ∈ redUnits baseOut
  · rw [if_pos hred]
    refine iff_of_false (by decide) ?_
    rintro (⟨h, -⟩ | ⟨-, -, h, -⟩)
    · exact h (.inl hred)
    · exact h hred
  rw [if_neg hred]
  by_cases hsuite : endsWith u ".sh" = true
  · have hstep : ¬ IsStep u := fun h ↦ Bool.false_ne_true (h.1.symm.trans hsuite)
    have hunrun : ¬ Unrun baseOut absentOnBase u := fun h ↦ hstep h.1
    have hno : ¬ RedOn baseOut u := fun h ↦ h.elim hred fun h ↦ hstep h.1
    have hshown : Shown baseOut u ↔ u ∈ ranSuites baseOut := by
      rw [Shown, if_pos hsuite]
    have hunshowable : ¬ (Unshowable baseOut u ∧ baseRc = 0) :=
      fun h ↦ Bool.false_ne_true (h.1.1.symm.trans hsuite)
    rw [if_pos hsuite, or_iff_left hunrun, and_iff_right hno, or_iff_left hunshowable, hshown]
    by_cases hran : u ∈ ranSuites baseOut
    · rw [if_pos hran]
      exact iff_of_true rfl hran
    · rw [if_neg hran]
      exact iff_of_false (by decide) hran
  rw [if_neg hsuite]
  rw [Bool.not_eq_true] at hsuite
  by_cases hphase : Text.startsWith u "phase:" = true
  · have hstep : ¬ IsStep u := fun h ↦ Bool.false_ne_true (h.2.symm.trans hphase)
    have hunrun : ¬ Unrun baseOut absentOnBase u := fun h ↦ hstep h.1
    have hno : ¬ RedOn baseOut u := fun h ↦ h.elim hred fun h ↦ hstep h.1
    have hshown : ¬ Shown baseOut u := by
      rw [Shown, hsuite, if_neg Bool.false_ne_true, if_pos hphase]
      exact id
    have hunshowable : Unshowable baseOut u := ⟨hsuite, .inl hphase⟩
    rw [if_pos hphase, or_iff_left hunrun, and_iff_right hno, or_iff_right hshown,
      and_iff_right hunshowable]
    by_cases hrc : baseRc = 0
    · rw [if_pos hrc]
      exact iff_of_true rfl hrc
    · rw [if_neg hrc]
      exact iff_of_false (by decide) hrc
  rw [if_neg hphase]
  rw [Bool.not_eq_true] at hphase
  have hstep : IsStep u := ⟨hsuite, hphase⟩
  have hshown : Shown baseOut u ↔ ∃ red, (u, red) ∈ stepUnits baseOut := by
    rw [Shown, hsuite, if_neg Bool.false_ne_true, hphase, if_neg Bool.false_ne_true]
  by_cases hsteps : stepUnits baseOut = []
  · have hnone (red : Bool) : (u, red) ∉ stepUnits baseOut := hsteps ▸ List.not_mem_nil
    have hno : ¬ RedOn baseOut u := fun h ↦ h.elim hred fun h ↦ hnone true h.2
    have hunshowable : Unshowable baseOut u := ⟨hsuite, .inr hsteps⟩
    have hunshown : ¬ Shown baseOut u := fun h ↦ (hshown.mp h).elim hnone
    have hunrun : ¬ Unrun baseOut absentOnBase u := fun h ↦ h.2.2.2.1 hsteps
    rw [if_pos hsteps, or_iff_left hunrun, and_iff_right hno, or_iff_right hunshown,
      and_iff_right hunshowable]
    by_cases hrc : baseRc = 0
    · rw [if_pos hrc]
      exact iff_of_true rfl hrc
    · rw [if_neg hrc]
      exact iff_of_false (by decide) hrc
  · rw [if_neg hsteps]
    refine iff_of_true rfl ?_
    by_cases hgreen : (u, false) ∈ stepUnits baseOut ∧ (u, true) ∉ stepUnits baseOut
    · refine .inl ⟨fun h ↦ h.elim hred fun h ↦ hgreen.2 h.2, .inl (hshown.mpr ⟨false, hgreen.1⟩)⟩
    · exact .inr ⟨hstep, habsent, hred, hsteps, hgreen⟩

theorem own_eq_false : own baseRc baseOut absentOnBase u = some false ↔
    u ∉ absentOnBase ∧ u ∈ redUnits baseOut := by
  rw [own]
  by_cases habsent : u ∈ absentOnBase
  · rw [if_pos habsent]
    exact iff_of_false (by decide) fun h ↦ h.1 habsent
  rw [if_neg habsent]
  by_cases hred : u ∈ redUnits baseOut
  · rw [if_pos hred]
    exact iff_of_true rfl ⟨habsent, hred⟩
  rw [if_neg hred]
  refine iff_of_false ?_ fun h ↦ hred h.2
  split_ifs <;> decide

/-- Where the base does not tell, it neither showed the unit nor has it red. -/
theorem own_eq_none (h : own baseRc baseOut absentOnBase u = none) :
    ¬ RedOn baseOut u ∧ ¬ Shown baseOut u := by
  have hown : ¬ (Own baseRc baseOut absentOnBase u ∨ Unrun baseOut absentOnBase u) := by
    rw [← own_eq_true, h]
    decide
  have habsent : u ∉ absentOnBase := fun hin ↦ hown (.inl (.inl hin))
  have hred : u ∉ redUnits baseOut := by
    intro hred
    rw [own_eq_false.mpr ⟨habsent, hred⟩] at h
    cases h
  have hno : ¬ RedOn baseOut u := by
    rintro (hin | ⟨hstep, hin⟩)
    · exact hred hin
    · exact hown (.inr ⟨hstep, habsent, hred, List.ne_nil_of_mem hin, fun h ↦ h.2 hin⟩)
  exact ⟨hno, fun hshown ↦ hown (.inl (.inr ⟨hno, .inl hshown⟩))⟩

/-- The answer judges each red of the branch on its own unit. -/
structure Judges (branchOut : String) (baseRc : ℤ) (baseOut : String) (absentOnBase : List String)
    (answer : Attribution) : Prop where
  branch : redUnits branchOut ≠ [] → ∀ u, answer = .branchRed u →
    u ∈ redUnits branchOut ∧ Own baseRc baseOut absentOnBase u
  unnamed : redUnits branchOut = [] → ∀ u, answer = .branchRed u → u = "-" ∧ baseRc = 0
  untestable : answer = .baseUntestable ↔
    (∀ u ∈ redUnits branchOut, ¬ Own baseRc baseOut absentOnBase u) ∧
      ∃ u ∈ redUnits branchOut, ¬ RedOn baseOut u ∧ ¬ Shown baseOut u
  base : ∀ u, answer = .baseRed u ∨ answer = .baseTimeout u →
    ∀ v ∈ redUnits branchOut, RedOn baseOut v
  timeout : ∀ u, answer = .baseTimeout u → ∀ v ∈ redUnits baseOut, v ∈ timedOutSuites baseOut

/-- Wherever a red of the branch that the base did not run comes among the others, one that is the
branch's own comes before it. -/
def Led (branchOut : String) (baseRc : ℤ) (baseOut : String) (absentOnBase : List String) : Prop :=
  ∀ pre u post, redUnits branchOut = pre ++ u :: post → Unrun baseOut absentOnBase u →
    ∃ v ∈ pre, Own baseRc baseOut absentOnBase v

theorem baseRule_cases (baseOut : String) : (∃ u, baseRule baseOut = .baseRed u) ∨
    ∃ u, baseRule baseOut = .baseTimeout u ∧
      ∀ v ∈ redUnits baseOut, v ∈ timedOutSuites baseOut := by
  rw [baseRule]
  split
  · rename_i h
    refine .inr ⟨_, rfl, fun v hv ↦ by_contra fun hnot ↦ ?_⟩
    have hmem : v ∈ (redUnits baseOut).filter fun s ↦ s ∉ timedOutSuites baseOut :=
      List.mem_filter.mpr ⟨hv, decide_eq_true hnot⟩
    rw [List.length_eq_zero_iff.mp h.2] at hmem
    cases hmem
  · exact .inl ⟨_, rfl⟩

/-- A red that the code takes for the branch's own, the first of them. -/
def FirstOwn (branchOut : String) (baseRc : ℤ) (baseOut : String) (absentOnBase : List String)
    (s : String) : Prop :=
  own baseRc baseOut absentOnBase s = some true ∧
    ∃ pre post, redUnits branchOut = pre ++ s :: post ∧
      ∀ v ∈ pre, own baseRc baseOut absentOnBase v ≠ some true

/-- The ways an attribution ends. -/
theorem gateAttribute_cases (branchOut : String) (baseRc : ℤ) (baseOut : String)
    (absentOnBase : List String) :
    (redUnits branchOut = [] ∧ baseRc = 0 ∧
      gateAttribute branchOut true baseRc baseOut absentOnBase = .branchRed "-") ∨
    (redUnits branchOut ≠ [] ∧ ∃ s, FirstOwn branchOut baseRc baseOut absentOnBase s ∧
      gateAttribute branchOut true baseRc baseOut absentOnBase = .branchRed s) ∨
    ((∀ u ∈ redUnits branchOut, own baseRc baseOut absentOnBase u ≠ some true) ∧
      (∃ u ∈ redUnits branchOut, own baseRc baseOut absentOnBase u = none) ∧
      gateAttribute branchOut true baseRc baseOut absentOnBase = .baseUntestable) ∨
    ((∀ u ∈ redUnits branchOut, own baseRc baseOut absentOnBase u = some false) ∧
      gateAttribute branchOut true baseRc baseOut absentOnBase = baseRule baseOut) := by
  rw [gateAttribute, Bool.not_true, if_neg Bool.false_ne_true]
  dsimp only
  by_cases hnil : redUnits branchOut = []
  · rw [if_pos hnil]
    by_cases hrc : baseRc = 0
    · rw [if_pos hrc]
      exact .inl ⟨hnil, hrc, rfl⟩
    · rw [if_neg hrc]
      refine .inr (.inr (.inr ⟨fun u hu ↦ ?_, rfl⟩))
      rw [hnil] at hu
      cases hu
  · rw [if_neg hnil]
    cases hfind : (redUnits branchOut).find? fun u ↦
        own baseRc baseOut absentOnBase u = some true with
    | some s =>
      rw [List.find?_eq_some_iff_append] at hfind
      obtain ⟨hs, pre, post, hreds, hpre⟩ := hfind
      refine .inr (.inl ⟨hnil, s, ⟨of_decide_eq_true hs, pre, post, hreds, fun v hv ↦ ?_⟩, rfl⟩)
      simpa using hpre v hv
    | none =>
      have hno (u : String) (hu : u ∈ redUnits branchOut) :
          own baseRc baseOut absentOnBase u ≠ some true := by
        simpa using List.find?_eq_none.mp hfind u hu
      dsimp only
      by_cases hany : ∃ u ∈ redUnits branchOut, own baseRc baseOut absentOnBase u = none
      · have hany' : (redUnits branchOut).any
            (fun u ↦ own baseRc baseOut absentOnBase u = none) = true := by
          simpa using hany
        rw [if_pos hany']
        exact .inr (.inr (.inl ⟨hno, hany, rfl⟩))
      · have hany' : ¬ (redUnits branchOut).any
            (fun u ↦ own baseRc baseOut absentOnBase u = none) = true := by
          simpa using hany
        rw [if_neg hany']
        refine .inr (.inr (.inr ⟨fun u hu ↦ ?_, rfl⟩))
        have hsome : own baseRc baseOut absentOnBase u ≠ none := fun h ↦ hany ⟨u, hu, h⟩
        obtain ⟨b, hb⟩ := Option.ne_none_iff_exists'.mp hsome
        cases b with
        | true => exact absurd hb (hno u hu)
        | false => exact hb

/-- **Each red is judged on its own unit** exactly where no step that the base did not run leads the
reds that are the branch's own. -/
theorem gateAttribute_judges (branchOut : String) (baseRc : ℤ) (baseOut : String)
    (absentOnBase : List String) :
    Judges branchOut baseRc baseOut absentOnBase
        (gateAttribute branchOut true baseRc baseOut absentOnBase) ↔
      Led branchOut baseRc baseOut absentOnBase := by
  obtain ⟨hnil, hrc, hanswer⟩ | ⟨hne, s, ⟨hs, pre, post, hreds, hpre⟩, hanswer⟩ |
    ⟨hno, ⟨u, hu, hnone⟩, hanswer⟩ | ⟨hall, hanswer⟩ :=
      gateAttribute_cases branchOut baseRc baseOut absentOnBase
  · rw [hanswer]
    refine iff_of_true ?_ fun pre u post hreds ↦ ?_
    · constructor
      case branch => exact fun h ↦ absurd hnil h
      case unnamed =>
        rintro - u ⟨⟩
        exact ⟨rfl, hrc⟩
      case untestable =>
        refine iff_of_false (by decide) ?_
        rintro ⟨-, u, hu, -⟩
        rw [hnil] at hu
        cases hu
      case base => rintro u (h | h) <;> cases h
      case timeout => rintro u ⟨⟩
    · rw [hnil] at hreds
      exact absurd hreds.symm (List.append_ne_nil_of_right_ne_nil pre (List.cons_ne_nil u post))
  · rw [hanswer]
    constructor
    · intro hjudges pre' u post' hreds' hunrun
      obtain ⟨-, hown⟩ := hjudges.branch hne s rfl
      refine ⟨s, ?_, hown⟩
      have hu : own baseRc baseOut absentOnBase u = some true := own_eq_true.mpr (.inr hunrun)
      have hus : u ≠ s := fun h ↦ not_own_of_unrun hunrun (h ▸ hown)
      rw [hreds, List.append_eq_append_iff] at hreds'
      obtain ⟨mid, rfl, hmid⟩ | ⟨mid, rfl, hmid⟩ := hreds'
      · cases mid with
        | nil => exact absurd (List.cons.inj hmid).1.symm hus
        | cons t mid =>
          obtain ⟨rfl, -⟩ := List.cons.inj hmid
          exact List.mem_append_right pre List.mem_cons_self
      · cases mid with
        | nil => exact absurd (List.cons.inj hmid).1 hus
        | cons t mid =>
          obtain ⟨rfl, -⟩ := List.cons.inj hmid
          exact absurd hu (hpre u (List.mem_append_right pre' List.mem_cons_self))
    · intro hled
      have hown : Own baseRc baseOut absentOnBase s := by
        refine (own_eq_true.mp hs).resolve_right fun hunrun ↦ ?_
        obtain ⟨v, hv, hown⟩ := hled pre s post hreds hunrun
        exact hpre v hv (own_eq_true.mpr (.inl hown))
      have hmem : s ∈ redUnits branchOut := hreds ▸ List.mem_append_right pre List.mem_cons_self
      constructor
      case branch =>
        rintro - u ⟨⟩
        exact ⟨hmem, hown⟩
      case unnamed => exact fun h ↦ absurd h hne
      case untestable => exact iff_of_false (fun h ↦ by cases h) fun h ↦ h.1 s hmem hown
      case base => rintro u (h | h) <;> cases h
      case timeout => rintro u ⟨⟩
  · rw [hanswer]
    have hneither (v : String) (hv : v ∈ redUnits branchOut) :
        ¬ (Own baseRc baseOut absentOnBase v ∨ Unrun baseOut absentOnBase v) :=
      fun h ↦ hno v hv (own_eq_true.mpr h)
    refine iff_of_true ?_ fun pre v post hreds hunrun ↦ ?_
    · constructor
      case branch => rintro - u ⟨⟩
      case unnamed => rintro - u ⟨⟩
      case untestable =>
        exact iff_of_true rfl ⟨fun v hv h ↦ hneither v hv (.inl h), u, hu, own_eq_none hnone⟩
      case base => rintro u (h | h) <;> cases h
      case timeout => rintro u ⟨⟩
    · exact absurd (.inr hunrun)
        (hneither v (hreds ▸ List.mem_append_right pre List.mem_cons_self))
  · have hred (v : String) (hv : v ∈ redUnits branchOut) : v ∈ redUnits baseOut :=
      (own_eq_false.mp (hall v hv)).2
    have hled : Led branchOut baseRc baseOut absentOnBase := fun pre v post hreds hunrun ↦
      absurd (hred v (hreds ▸ List.mem_append_right pre List.mem_cons_self)) hunrun.2.2.1
    have huntestable : ¬ ((∀ u ∈ redUnits branchOut, ¬ Own baseRc baseOut absentOnBase u) ∧
        ∃ u ∈ redUnits branchOut, ¬ RedOn baseOut u ∧ ¬ Shown baseOut u) := by
      rintro ⟨-, u, hu, hno, -⟩
      exact hno (.inl (hred u hu))
    rw [hanswer]
    refine iff_of_true ?_ hled
    obtain ⟨t, hrule⟩ | ⟨t, hrule, htimeouts⟩ := baseRule_cases baseOut
    · rw [hrule]
      constructor
      case branch => rintro - u ⟨⟩
      case unnamed => rintro - u ⟨⟩
      case untestable => exact iff_of_false (fun h ↦ by cases h) huntestable
      case base => exact fun _ _ v hv ↦ .inl (hred v hv)
      case timeout => rintro u ⟨⟩
    · rw [hrule]
      constructor
      case branch => rintro - u ⟨⟩
      case unnamed => rintro - u ⟨⟩
      case untestable => exact iff_of_false (fun h ↦ by cases h) huntestable
      case base => exact fun _ _ v hv ↦ .inl (hred v hv)
      case timeout => exact fun _ _ ↦ htimeouts

end Own

/-- The suites step of the branch is red, and names no suite; the base only ran its fences. -/
theorem unrun_step_blamed : ¬ ∀ branchOut baseRc baseOut absentOnBase,
    Judges branchOut baseRc baseOut absentOnBase
      (gateAttribute branchOut true baseRc baseOut absentOnBase) := by
  intro h
  have hjudges := h "gate-step RED rc=1 :: suites" 0 "gate-step ok rc=0 :: spira-lint" []
  have hanswer : gateAttribute "gate-step RED rc=1 :: suites" true 0
      "gate-step ok rc=0 :: spira-lint" [] = .branchRed "suites" := by decide
  have hunrun : Unrun "gate-step ok rc=0 :: spira-lint" [] "suites" :=
    ⟨⟨by decide, by decide⟩, by decide, by decide, by decide, by decide⟩
  exact not_own_of_unrun hunrun (hjudges.branch (by decide) "suites" hanswer).2

end Spira.Gate
