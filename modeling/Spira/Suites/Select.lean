import Mathlib.Data.List.TakeWhile
import Spira.Suites.Glob
import Spira.Suites.Shell

/-!
# Selection

Which suites of a corpus a list of changed paths selects: those whose `# covers:` names one, those
that run a binary one reaches, and those whose events one is.
-/

set_option autoImplicit false

namespace Spira.Suites

/-! ## The corpus -/

inductive Tier
  | T0
  | T1
  | T2
  | T3
  | T4
  deriving DecidableEq

def Tier.asStr : Tier → String
  | T0 => "T0"
  | T1 => "T1"
  | T2 => "T2"
  | T3 => "T3"
  | T4 => "T4"

structure Suite where
  /-- The basename, `test-<x>.sh`. -/
  name : String
  /-- `# covers:` tokens; none when undeclared or empty, and then the suite is always run. -/
  covers : Option (List String)
  /-- `# tier:`; none when undeclared. -/
  tier : Option Tier
  /-- `# selects-on:` events. -/
  selectsOn : List String
  /-- Words of the lines that are not comments: the shell functions it can call. -/
  words : List String
  /-- What it invokes: reach matches only these. -/
  invokes : List String
  /-- Tokens with `.` kept, so that a script it runs is one token. -/
  tokens : List String

/-- The suites of a directory, by name, and its scripts. -/
structure Corpus where
  suites : List Suite
  shell : ShellGraph
  sorted : suites.Pairwise (·.name < ·.name)

def Corpus.get (corpus : Corpus) (name : String) : Option Suite :=
  corpus.suites.find? (·.name = name)

/-- A shell `test-*.sh` basename. -/
def isSuiteFile (name : String) : Bool :=
  Text.startsWith name "test-" && ".sh".toList.isSuffixOf name.toList &&
    "test-.sh".utf8ByteSize ≤ name.utf8ByteSize

/-! ## What selects -/

/-- One changed path. -/
structure Change where
  path : String
  added : Bool
  deleted : Bool
  /-- The mode of an existing file changed. -/
  modeChanged : Bool
  deriving DecidableEq

/-- The file buckets, as case patterns. -/
structure Buckets where
  inert : List String
  source : List String
  plumbing : List String

def anyMatch (pats : List String) (path : String) : Bool := pats.any (caseMatch · path)

structure Options where
  /-- An unplaced or plumbing file does not select the whole corpus. -/
  noAllFallback : Bool
  /-- Leaves out the always-run suites. -/
  noNocov : Bool
  /-- Keeps only suites whose tier is listed, and every untiered one. -/
  tiers : Option (List String)
  /-- None: only `# covers:` selects. -/
  reach : Option Reach

def Options.tierOk (opts : Options) (s : Suite) : Bool :=
  match opts.tiers, s.tier with
  | none, _ => true
  | _, none => true
  | some ts, some t => ts.any (· = t.asStr)

inductive Mode
  /-- Selected from the diff. -/
  | diff
  /-- The whole corpus. -/
  | all
  deriving DecidableEq

structure Selection where
  suites : List String
  mode : Mode
  /-- Live changed files no suite claims, and that are not source files. -/
  unplaced : List String
  log : List String
  deriving DecidableEq

/-- Changed source files that no suite claims. -/
structure Unclaimed where
  files : List String
  unplaced : List String
  deriving DecidableEq

def pushOnce (v : List String) (s : String) : List String := if s ∈ v then v else v ++ [s]

/-- Every suite, tier-filtered. -/
def all (corpus : Corpus) (opts : Options) : Selection :=
  ⟨(corpus.suites.filter opts.tierOk).map (·.name), .all, [], []⟩

def nocov (corpus : Corpus) (opts : Options) : List String :=
  if opts.noNocov then [] else (corpus.suites.filter (·.covers.isNone)).map (·.name)

/-- Where a changed line lies outside every function: nothing narrows. -/
def TOP_LEVEL : String := "<top-level>"

/-- Whether a change's whole-file claims narrow to the functions it touches. -/
def functionScoped (corpus : Corpus) (c : Change) : Bool :=
  !c.added && !c.deleted && c.path ∈ FUNCTION_SCOPED && corpus.shell.knows c.path

/-- Whether a suite calls one of these: a function, or a script that reaches one. -/
def reaches (s : Suite) (affected : List String) : Bool := (s.words ++ s.tokens).any (· ∈ affected)

/-- Whether a suite that names the file as a whole is reached by the change, once its claim
narrows to the functions named. -/
def wholeFileClaimReached (corpus : Corpus) (s : Suite) (c : Change) (fns : List String) : Bool :=
  if !functionScoped corpus c || fns.isEmpty || TOP_LEVEL ∈ fns then true
  else reaches s (corpus.shell.affected fns)

/-! ## The selection -/

/-- The two halves of a token `file#function`. -/
def splitToken (pat : String) : Option (String × String) :=
  (Text.splitOnce '#' pat.toList).map fun (f, n) ↦ (String.ofList f, String.ofList n)

/-- What the covers of the suites make of one change. -/
structure Claims where
  hit : Bool
  fnPairs : List (String × String)
  selected : List String
  cut : ℕ

/-- One token of one suite. -/
def claim (path : String) (narrowed : Option (List String)) (a : Claims) (s : Suite) (pat : String) :
    Claims :=
  match splitToken pat with
  | some (fpat, fname) =>
    if caseMatch fpat path then { a with hit := true, fnPairs := a.fnPairs ++ [(s.name, fname)] }
    else a
  | none =>
    if caseMatch pat path then
      -- A suite with events claims the file, but selects only on them.
      if s.selectsOn.isEmpty then
        match narrowed with
        | some affected =>
          if reaches s affected then { a with hit := true, selected := pushOnce a.selected s.name }
          else { a with hit := true, cut := a.cut + 1 }
        | none => { a with hit := true, selected := pushOnce a.selected s.name }
      else { a with hit := true }
    else a

/-- The names a change's whole-file claims narrow to, where they do. -/
def narrowedTo (corpus : Corpus) (c : Change) (fns : List String) : Option (List String) :=
  if functionScoped corpus c && !fns.isEmpty && TOP_LEVEL ∉ fns then some (corpus.shell.affected fns)
  else none

/-- What is selected so far, the changes no suite claims, and the log. -/
structure Progress where
  selected : List String
  unmapped : List Change
  log : List String

/-- One live change. -/
def selectChange (corpus : Corpus) (fnChanged : String → List String) (opts : Options) (p : Progress)
    (c : Change) : Progress :=
  let fns := fnChanged c.path
  let a := corpus.suites.foldl (fun a s ↦ (s.covers.getD []).foldl
    (fun a pat ↦ claim c.path (narrowedTo corpus c fns) a s pat) a) ⟨false, [], p.selected, 0⟩
  let log := if 0 < a.cut then p.log ++
      [s!"select: {c.path} → function-level: {a.cut} suite(s) naming the file reach none of " ++
        " ".intercalate fns ++ " (over-broad-scopes #6)"]
    else p.log
  let named := a.fnPairs.filter fun (_, fname) ↦ fname ∈ fns
  -- Code outside a declared function cannot be narrowed.
  let selected := ((if named.isEmpty then a.fnPairs else named).map (·.1)).foldl pushOnce a.selected
  let selected := match opts.reach with
    | none => selected
    | some reach =>
      let bins := reach.binsFor c.path
      ((corpus.suites.filter fun s ↦ s.selectsOn.isEmpty && s.invokes.any (· ∈ bins)).map
        (·.name)).foldl pushOnce selected
  ⟨selected, if a.hit then p.unmapped else p.unmapped ++ [c], log⟩

/-- Whether a suite's events are among the changes. -/
def fires (changes : List Change) (s : Suite) (cov : List String) : Bool :=
  let plain := cov.filter ('#' ∉ ·.toList)
  s.selectsOn.any fun event ↦
    let files : List String := match event with
      | "added" => (changes.filter (·.added)).map (·.path)
      | "mode" => (changes.filter (·.modeChanged)).map (·.path)
      | _ => []
    files.any fun f ↦ plain.any (caseMatch · f)

/-- The suites whose events are among the changes. -/
def onEvents (corpus : Corpus) (changes : List Change) : List String :=
  (corpus.suites.filter fun s ↦ !s.selectsOn.isEmpty && s.covers.any (fires changes s)).map (·.name)

/-- The selection.  `fnChanged` names the shell functions with a changed line in a file: empty for
none, and where that is not known. -/
def select (corpus : Corpus) (changes : List Change) (fnChanged : String → List String)
    (buckets : Buckets) (opts : Options) : Except Unclaimed Selection :=
  let tierFilter (names : List String) : List String :=
    names.filter fun n ↦ (corpus.get n).any opts.tierOk
  let live := changes.filter (!anyMatch buckets.inert ·.path)
  if live.isEmpty then .ok ⟨tierFilter (nocov corpus opts), .diff, [], []⟩
  else
    let plumbing := (live.filter (anyMatch buckets.plumbing ·.path)).map (·.path)
    let p := live.foldl (selectChange corpus fnChanged opts) ⟨[], [], []⟩
    let isUnclaimed (c : Change) : Bool := !c.deleted && anyMatch buckets.source c.path
    let unclaimed := (p.unmapped.filter isUnclaimed).map (·.path)
    let unplaced := (p.unmapped.filter (!isUnclaimed ·)).map (·.path)
    if !unclaimed.isEmpty then .error ⟨unclaimed, unplaced⟩
    else if (!unplaced.isEmpty || !plumbing.isEmpty) && !opts.noAllFallback then
      .ok { all corpus opts with
        unplaced := unplaced
        log := unplaced.map (fun f ↦ s!"select: {f} → [all: unmapped]") ++
          plumbing.map (fun f ↦ s!"select: {f} → [all: plumbing]") ++
          [s!"select: fallback — running all {corpus.suites.length} suites"] }
    else
      let selected := (onEvents corpus changes ++ nocov corpus opts).foldl pushOnce p.selected
      let suites := tierFilter selected
      .ok ⟨suites, .diff, unplaced, p.log ++ [s!"select: {suites.length} suite(s) selected"]⟩

/-! ## What selects a suite -/

section Selected

variable {corpus : Corpus} {changes : List Change} {fnChanged : String → List String}
  {buckets : Buckets} {opts : Options}

theorem mem_foldl_pushOnce {v l : List String} {n : String} :
    n ∈ l.foldl pushOnce v ↔ n ∈ v ∨ n ∈ l := by
  induction l generalizing v with
  | nil => simp
  | cons x l ih =>
    have hpush : n ∈ pushOnce v x ↔ n ∈ v ∨ n = x := by
      rw [pushOnce]
      split
      · rename_i hx
        exact ⟨.inl, fun h ↦ h.elim id fun e ↦ e ▸ hx⟩
      · simp
    rw [List.foldl_cons, ih, hpush, List.mem_cons, or_assoc]

/-- What stands before the first `#`. -/
def filePart (token : String) : String := String.ofList (token.toList.takeWhile (· ≠ '#'))

theorem splitOnce_eq {c : Char} {s : List Char} :
    (∃ r, Text.splitOnce c s = some (s.takeWhile (· ≠ c), r)) ∧ c ∈ s ∨
      Text.splitOnce c s = none ∧ c ∉ s := by
  induction s with
  | nil => exact .inr ⟨rfl, List.not_mem_nil⟩
  | cons x s ih =>
    rw [Text.splitOnce]
    by_cases hx : x = c
    · rw [if_pos hx]
      exact .inl ⟨⟨s, by simp [hx]⟩, by simp [hx]⟩
    · rw [if_neg hx]
      rcases ih with ⟨⟨r, hr⟩, hc⟩ | ⟨hnone, hc⟩
      · exact .inl ⟨⟨r, by simp [hr, hx]⟩, List.mem_cons_of_mem _ hc⟩
      · exact .inr ⟨by simp [hnone], by simp [Ne.symm hx, hc]⟩

theorem filePart_of_notMem {pat : String} (h : '#' ∉ pat.toList) : filePart pat = pat := by
  have hall : pat.toList.takeWhile (· ≠ '#') = pat.toList :=
    List.takeWhile_eq_self_iff.mpr fun c hc ↦ by simpa using fun e : c = '#' ↦ h (e ▸ hc)
  rw [filePart, hall, String.ofList_toList]

theorem filePart_of_splitToken {pat : String} :
    (∀ f n, splitToken pat = some (f, n) → f = filePart pat) ∧
      (splitToken pat = none → filePart pat = pat) := by
  rw [splitToken]
  rcases splitOnce_eq (c := '#') (s := pat.toList) with ⟨⟨r, hr⟩, -⟩ | ⟨hnone, hno⟩
  · rw [hr]
    refine ⟨fun f n h ↦ ?_, fun h ↦ nomatch h⟩
    exact (Prod.mk.inj (Option.some.inj h)).1.symm
  · rw [hnone]
    exact ⟨fun _ _ h ↦ (nomatch h), fun _ ↦ filePart_of_notMem hno⟩

/-- A change is one a suite's covers name, or reaches a binary the suite runs. -/
def Touches (reach : Option Reach) (c : Change) (s : Suite) : Prop :=
  (∃ covers, s.covers = some covers ∧ ∃ pat ∈ covers, caseMatch (filePart pat) c.path) ∨
    ∃ r, reach = some r ∧ ∃ b ∈ s.invokes, b ∈ r.binsFor c.path

/-- A suite of the name that the change touches. -/
def TouchedBy (corpus : Corpus) (reach : Option Reach) (c : Change) (n : String) : Prop :=
  ∃ s ∈ corpus.suites, s.name = n ∧ Touches reach c s

/-- What was selected before a change, or is a suite it touches. -/
def Because (corpus : Corpus) (reach : Option Reach) (c : Change) (before : List String)
    (n : String) : Prop :=
  n ∈ before ∨ TouchedBy corpus reach c n

/-- What is selected, and what is paired with a function, is such. -/
def AllBecause (corpus : Corpus) (reach : Option Reach) (c : Change) (before : List String)
    (a : Claims) : Prop :=
  (∀ n ∈ a.selected, Because corpus reach c before n) ∧
    ∀ e ∈ a.fnPairs, Because corpus reach c before e.1

/-- A token selects only such. -/
theorem claim_because {c : Change} {narrowed : Option (List String)} {a : Claims} {s : Suite}
    {pat : String} {before : List String} (hs : s ∈ corpus.suites)
    (hpat : pat ∈ s.covers.getD []) (ha : AllBecause corpus opts.reach c before a) :
    AllBecause corpus opts.reach c before (claim c.path narrowed a s pat) := by
  have htouch : caseMatch (filePart pat) c.path → Because corpus opts.reach c before s.name := by
    intro hm
    refine .inr ⟨s, hs, rfl, .inl ?_⟩
    cases hcov : s.covers with
    | none => simp [hcov] at hpat
    | some covers => exact ⟨covers, rfl, pat, by simpa [hcov] using hpat, hm⟩
  have hpush : caseMatch (filePart pat) c.path →
      ∀ n ∈ pushOnce a.selected s.name, Because corpus opts.reach c before n := by
    intro hm n hn
    rcases (mem_foldl_pushOnce (l := [s.name])).mp hn with hn | hn
    · exact ha.1 n hn
    · exact List.mem_singleton.mp hn ▸ htouch hm
  unfold claim
  split
  · rename_i f n hsplit
    split
    · rename_i hm
      rw [filePart_of_splitToken.1 f n hsplit] at hm
      refine ⟨ha.1, fun e he ↦ ?_⟩
      rcases List.mem_append.mp he with he | he
      · exact ha.2 e he
      · rw [List.mem_singleton.mp he]
        exact htouch hm
    · exact ha
  · rename_i hsplit
    split
    · rename_i hm
      rw [← filePart_of_splitToken.2 hsplit] at hm
      split
      · split
        · split
          · exact ⟨hpush hm, ha.2⟩
          · exact ha
        · exact ⟨hpush hm, ha.2⟩
      · exact ha
    · exact ha

/-- A change selects what it touches, and nothing else. -/
theorem selectChange_because {p : Progress} {c : Change} {n : String}
    (hn : n ∈ (selectChange corpus fnChanged opts p c).selected) :
    Because corpus opts.reach c p.selected n := by
  set a := corpus.suites.foldl (fun a s ↦ (s.covers.getD []).foldl
    (fun a pat ↦ claim c.path (narrowedTo corpus c (fnChanged c.path)) a s pat) a)
      (⟨false, [], p.selected, 0⟩ : Claims) with ha
  have hclaims : AllBecause corpus opts.reach c p.selected a :=
    List.foldlRecOn (motive := AllBecause corpus opts.reach c p.selected) corpus.suites _
      ⟨fun _ h ↦ .inl h, fun _ h ↦ nomatch h⟩ fun a ha s hs ↦
        List.foldlRecOn (motive := AllBecause corpus opts.reach c p.selected) (s.covers.getD []) _ ha
          fun a ha pat hpat ↦ claim_because hs hpat ha
  have hpaired : ∀ x ∈ ((if (a.fnPairs.filter fun e ↦ e.2 ∈ fnChanged c.path).isEmpty then a.fnPairs
      else a.fnPairs.filter fun e ↦ e.2 ∈ fnChanged c.path).map (·.1)).foldl pushOnce a.selected,
      Because corpus opts.reach c p.selected x := by
    intro x hx
    rcases mem_foldl_pushOnce.mp hx with hx | hx
    · exact hclaims.1 x hx
    · obtain ⟨e, he, rfl⟩ := List.mem_map.mp hx
      split at he
      · exact hclaims.2 e he
      · exact hclaims.2 e (List.mem_of_mem_filter he)
  unfold selectChange at hn
  dsimp only at hn
  cases hreach : opts.reach with
  | none =>
    rw [hreach] at hn hpaired
    exact hpaired n hn
  | some r =>
    rw [hreach] at hn hpaired
    rcases mem_foldl_pushOnce.mp hn with hn | hn
    · exact hpaired n hn
    · obtain ⟨s, hs, rfl⟩ := List.mem_map.mp hn
      obtain ⟨hs, hbins⟩ := List.mem_filter.mp hs
      obtain ⟨b, hb, hbin⟩ := List.any_eq_true.mp (Bool.and_eq_true_iff.mp hbins).2
      exact .inr ⟨s, hs, rfl, .inr ⟨r, rfl, b, hb, of_decide_eq_true hbin⟩⟩

theorem touches_of_fires (reach : Option Reach) {s : Suite} {cov : List String}
    (hcov : s.covers = some cov) (h : fires changes s cov) : ∃ c ∈ changes, Touches reach c s := by
  have hplain {c : Change} {pat : String} (hpat : pat ∈ cov.filter ('#' ∉ ·.toList))
      (hm : caseMatch pat c.path) : Touches reach c s := by
    obtain ⟨hmem, hno⟩ := List.mem_filter.mp hpat
    exact .inl ⟨cov, hcov, pat, hmem, (filePart_of_notMem (of_decide_eq_true hno)).symm ▸ hm⟩
  obtain ⟨event, -, hfiles⟩ := List.any_eq_true.mp h
  obtain ⟨f, hf, hpats⟩ := List.any_eq_true.mp hfiles
  obtain ⟨pat, hpat, hm⟩ := List.any_eq_true.mp hpats
  split at hf
  · obtain ⟨c, hc, rfl⟩ := List.mem_map.mp hf
    exact ⟨c, List.mem_of_mem_filter hc, hplain hpat hm⟩
  · obtain ⟨c, hc, rfl⟩ := List.mem_map.mp hf
    exact ⟨c, List.mem_of_mem_filter hc, hplain hpat hm⟩
  · cases hf

theorem covers_of_mem_nocov {n : String} (h : n ∈ nocov corpus opts) :
    ∃ s ∈ corpus.suites, s.name = n ∧ s.covers = none := by
  rw [nocov] at h
  split at h
  · cases h
  · obtain ⟨s, hs, rfl⟩ := List.mem_map.mp h
    obtain ⟨hs, hnone⟩ := List.mem_filter.mp hs
    exact ⟨s, hs, rfl, Option.isNone_iff_eq_none.mp hnone⟩

/-- **What a diff selects, a change touches**, unless it is always run. -/
theorem because_of_selected {sel : Selection}
    (h : select corpus changes fnChanged buckets opts = .ok sel) (hmode : sel.mode = .diff)
    {n : String} (hn : n ∈ sel.suites) :
    (∃ s ∈ corpus.suites, s.name = n ∧ s.covers = none) ∨
      ∃ c ∈ changes, TouchedBy corpus opts.reach c n := by
  unfold select at h
  dsimp only at h
  split at h
  · cases h
    exact .inl (covers_of_mem_nocov (List.mem_of_mem_filter hn))
  · split at h
    · cases h
    · split at h
      · cases h
        cases hmode
      · cases h
        have hlive : ∀ x ∈ ((changes.filter (!anyMatch buckets.inert ·.path)).foldl
            (selectChange corpus fnChanged opts) ⟨[], [], []⟩).selected,
            ∃ c ∈ changes, TouchedBy corpus opts.reach c x :=
          List.foldlRecOn (motive := fun p : Progress ↦
              ∀ x ∈ p.selected, ∃ c ∈ changes, TouchedBy corpus opts.reach c x) _ _
            (fun _ h ↦ nomatch h) fun p hp c hc x hx ↦
              (selectChange_because hx).elim (hp x) fun ht ↦ ⟨c, List.mem_of_mem_filter hc, ht⟩
        rcases mem_foldl_pushOnce.mp (List.mem_of_mem_filter hn) with hn | hn
        · exact .inr (hlive n hn)
        · rcases List.mem_append.mp hn with hn | hn
          · obtain ⟨s, hs, rfl⟩ := List.mem_map.mp hn
            obtain ⟨hs, hevent⟩ := List.mem_filter.mp hs
            obtain ⟨cov, hcov, hfires⟩ :=
              (Option.any_eq_true _ _).mp (Bool.and_eq_true_iff.mp hevent).2
            obtain ⟨c, hc, ht⟩ := touches_of_fires opts.reach hcov hfires
            exact .inr ⟨c, hc, s, hs, rfl, ht⟩
          · exact .inl (covers_of_mem_nocov hn)

/-- A corpus has one suite of a name. -/
theorem suite_eq_of_name {s s' : Suite} (hs : s ∈ corpus.suites) (hs' : s' ∈ corpus.suites)
    (h : s.name = s'.name) : s = s' := by
  have hnodup : (corpus.suites.map (·.name)).Nodup :=
    List.pairwise_map.mpr (corpus.sorted.imp fun h ↦ ne_of_lt h)
  exact List.inj_on_of_nodup_map hnodup hs hs' h

end Selected

end Spira.Suites
