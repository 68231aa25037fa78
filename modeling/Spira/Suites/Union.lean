import Spira.Suites.Select

/-!
# The union of selections

A change selects suites of its own, whatever was selected before it, and a suite's events are found
change by change; only a list of inert files is cut short.  So the selection of two lists of changes
is the union of theirs, and of the suites on whose events the inert list bears where the other has a
live file (`select_append`).
-/

set_option autoImplicit false

namespace Spira.Suites

section Changes

variable {corpus : Corpus} {fnChanged : String → List String} {opts : Options} {n : String}

/-! ## One change -/

/-- What the covers of the suites make of a change, after what was selected before. -/
def claimsOn (corpus : Corpus) (fnChanged : String → List String) (c : Change)
    (before : List String) : Claims :=
  corpus.suites.foldl (fun a s ↦ (s.covers.getD []).foldl
    (fun a pat ↦ claim c.path (narrowedTo corpus c (fnChanged c.path)) a s pat) a)
      ⟨false, [], before, 0⟩

/-- The claims differ only by what was selected before. -/
structure Beyond (before : List String) (a a' : Claims) : Prop where
  hit : a.hit = a'.hit
  fnPairs : a.fnPairs = a'.fnPairs
  selected : ∀ n, n ∈ a.selected ↔ n ∈ before ∨ n ∈ a'.selected

theorem mem_pushOnce {v : List String} {s : String} : n ∈ pushOnce v s ↔ n ∈ v ∨ n = s := by
  have h := mem_foldl_pushOnce (v := v) (l := [s]) (n := n)
  rwa [List.mem_singleton] at h

theorem Beyond.push {before : List String} {a a' : Claims} (h : Beyond before a a') (s : String) :
    Beyond before { a with hit := true, selected := pushOnce a.selected s }
      { a' with hit := true, selected := pushOnce a'.selected s } :=
  ⟨rfl, h.fnPairs, fun n ↦ by rw [mem_pushOnce, mem_pushOnce, h.selected, or_assoc]⟩

theorem Beyond.claim {before : List String} {a a' : Claims} (h : Beyond before a a')
    (path : String) (narrowed : Option (List String)) (s : Suite) (pat : String) :
    Beyond before (claim path narrowed a s pat) (claim path narrowed a' s pat) := by
  unfold Suites.claim
  split
  · split
    · exact ⟨rfl, by rw [h.fnPairs], h.selected⟩
    · exact h
  · split
    · split
      · split
        · split
          · exact h.push s.name
          · exact ⟨rfl, h.fnPairs, h.selected⟩
        · exact h.push s.name
      · exact ⟨rfl, h.fnPairs, h.selected⟩
    · exact h

theorem beyond_claimsOn (corpus : Corpus) (fnChanged : String → List String) (c : Change)
    (before : List String) :
    Beyond before (claimsOn corpus fnChanged c before) (claimsOn corpus fnChanged c []) := by
  have hsuite (s : Suite) (l : List String) : ∀ a a', Beyond before a a' →
      Beyond before
        (l.foldl (fun a pat ↦ claim c.path (narrowedTo corpus c (fnChanged c.path)) a s pat) a)
        (l.foldl (fun a pat ↦ claim c.path (narrowedTo corpus c (fnChanged c.path)) a s pat) a') := by
    induction l with
    | nil => exact fun _ _ h ↦ h
    | cons pat l ih => exact fun a a' h ↦ ih _ _ (h.claim _ _ s pat)
  have hstart : Beyond before ⟨false, [], before, 0⟩ ⟨false, [], [], 0⟩ :=
    ⟨rfl, rfl, fun n ↦ by simp⟩
  rw [claimsOn, claimsOn]
  generalize (⟨false, [], before, 0⟩ : Claims) = a at hstart ⊢
  generalize (⟨false, [], [], 0⟩ : Claims) = a' at hstart ⊢
  induction corpus.suites generalizing a a' with
  | nil => exact hstart
  | cons s suites ih => exact ih _ _ (hsuite s _ a a' hstart)

/-- What a change selects beside the suites that name its file as a whole. -/
def picksBeside (corpus : Corpus) (fnChanged : String → List String) (opts : Options) (c : Change)
    (pairs : List (String × String)) : List String :=
  let named := pairs.filter fun (_, fname) ↦ fname ∈ fnChanged c.path
  (if named.isEmpty then pairs else named).map (·.1) ++ match opts.reach with
    | none => []
    | some reach => (corpus.suites.filter fun s ↦
        s.selectsOn.isEmpty && s.invokes.any (· ∈ reach.binsFor c.path)).map (·.name)

/-- What a change selects by itself. -/
def picks (corpus : Corpus) (fnChanged : String → List String) (opts : Options) (c : Change) :
    List String :=
  (claimsOn corpus fnChanged c []).selected ++
    picksBeside corpus fnChanged opts c (claimsOn corpus fnChanged c []).fnPairs

/-- **A change selects what it selects by itself**, and is unmapped where no suite claims it. -/
theorem selectChange_spec (corpus : Corpus) (fnChanged : String → List String) (opts : Options)
    (p : Progress) (c : Change) (n : String) :
    (n ∈ (selectChange corpus fnChanged opts p c).selected ↔
      n ∈ p.selected ∨ n ∈ picks corpus fnChanged opts c) ∧
    (selectChange corpus fnChanged opts p c).unmapped =
      p.unmapped ++ [c].filter fun c ↦ !(claimsOn corpus fnChanged c []).hit := by
  have hbeyond := beyond_claimsOn corpus fnChanged c p.selected
  constructor
  · have hselected : n ∈ (selectChange corpus fnChanged opts p c).selected ↔
        n ∈ (claimsOn corpus fnChanged c p.selected).selected ∨
          n ∈ picksBeside corpus fnChanged opts c (claimsOn corpus fnChanged c p.selected).fnPairs := by
      rw [selectChange, picksBeside, claimsOn]
      dsimp only
      cases opts.reach with
      | none => rw [mem_foldl_pushOnce, List.append_nil]
      | some reach => rw [mem_foldl_pushOnce, mem_foldl_pushOnce, List.mem_append, or_assoc]
    rw [hselected, hbeyond.selected, hbeyond.fnPairs, picks, List.mem_append, or_assoc]
  · have hunmapped : (selectChange corpus fnChanged opts p c).unmapped =
        if (claimsOn corpus fnChanged c p.selected).hit then p.unmapped else p.unmapped ++ [c] := rfl
    rw [hunmapped, hbeyond.hit, List.filter_singleton]
    cases (claimsOn corpus fnChanged c []).hit <;> simp

/-! ## The live changes -/

theorem foldl_selectChange (corpus : Corpus) (fnChanged : String → List String) (opts : Options)
    (l : List Change) (p : Progress) (n : String) :
    (n ∈ (l.foldl (selectChange corpus fnChanged opts) p).selected ↔
      n ∈ p.selected ∨ ∃ c ∈ l, n ∈ picks corpus fnChanged opts c) ∧
    (l.foldl (selectChange corpus fnChanged opts) p).unmapped =
      p.unmapped ++ l.filter fun c ↦ !(claimsOn corpus fnChanged c []).hit := by
  induction l generalizing p with
  | nil => simp
  | cons c l ih =>
    obtain ⟨hselected, hunmapped⟩ := selectChange_spec corpus fnChanged opts p c n
    obtain ⟨ihselected, ihunmapped⟩ := ih (selectChange corpus fnChanged opts p c)
    rw [List.foldl_cons, ihselected, ihunmapped, hselected, hunmapped, List.append_assoc,
      ← List.filter_append, List.exists_mem_cons_iff, or_assoc]
    exact ⟨Iff.rfl, rfl⟩

/-! ## Events -/

theorem fires_iff {changes : List Change} {s : Suite} {cov : List String} :
    fires changes s cov ↔ ∃ c ∈ changes, fires [c] s cov := by
  simp only [fires, List.any_eq_true]
  constructor
  · rintro ⟨event, hevent, f, hf, hpat⟩
    split at hf
    · obtain ⟨c, hc, rfl⟩ := List.mem_map.mp hf
      obtain ⟨hc, hadded⟩ := List.mem_filter.mp hc
      exact ⟨c, hc, _, hevent, c.path, by simp [hadded], hpat⟩
    · obtain ⟨c, hc, rfl⟩ := List.mem_map.mp hf
      obtain ⟨hc, hmode⟩ := List.mem_filter.mp hc
      exact ⟨c, hc, _, hevent, c.path, by simp [hmode], hpat⟩
    · cases hf
  · rintro ⟨c, hc, event, hevent, f, hf, hpat⟩
    refine ⟨event, hevent, f, ?_, hpat⟩
    split at hf
    · obtain ⟨c', hc', rfl⟩ := List.mem_map.mp hf
      obtain ⟨hc', hadded⟩ := List.mem_filter.mp hc'
      obtain rfl := List.mem_singleton.mp hc'
      exact List.mem_map_of_mem (List.mem_filter.mpr ⟨hc, hadded⟩)
    · obtain ⟨c', hc', rfl⟩ := List.mem_map.mp hf
      obtain ⟨hc', hmode⟩ := List.mem_filter.mp hc'
      obtain rfl := List.mem_singleton.mp hc'
      exact List.mem_map_of_mem (List.mem_filter.mpr ⟨hc, hmode⟩)
    · cases hf

/-- A suite's events are found change by change. -/
theorem mem_onEvents (changes : List Change) :
    n ∈ onEvents corpus changes ↔ ∃ c ∈ changes, n ∈ onEvents corpus [c] := by
  have hone (l : List Change) : n ∈ onEvents corpus l ↔ ∃ s ∈ corpus.suites, s.name = n ∧
      s.selectsOn ≠ [] ∧ ∃ cov, s.covers = some cov ∧ fires l s cov := by
    simp only [onEvents, List.mem_map, List.mem_filter, Bool.and_eq_true, Option.any_eq_true,
      Bool.not_eq_true', List.isEmpty_eq_false_iff]
    exact ⟨fun ⟨s, ⟨hs, hevents, hfires⟩, hname⟩ ↦ ⟨s, hs, hname, hevents, hfires⟩,
      fun ⟨s, hs, hname, hevents, hfires⟩ ↦ ⟨s, ⟨hs, hevents, hfires⟩, hname⟩⟩
  simp only [hone]
  constructor
  · rintro ⟨s, hs, hname, hevents, cov, hcov, hfires⟩
    obtain ⟨c, hc, hfires⟩ := fires_iff.mp hfires
    exact ⟨c, hc, s, hs, hname, hevents, cov, hcov, hfires⟩
  · rintro ⟨c, hc, s, hs, hname, hevents, cov, hcov, hfires⟩
    exact ⟨s, hs, hname, hevents, cov, hcov, fires_iff.mpr ⟨c, hc, hfires⟩⟩

/-! ## The selection -/

/-- Every file is inert. -/
def Idle (buckets : Buckets) (changes : List Change) : Prop :=
  ∀ c ∈ changes, anyMatch buckets.inert c.path

/-- A live source file, not deleted, that no suite claims. -/
def Stray (corpus : Corpus) (fnChanged : String → List String) (buckets : Buckets) (c : Change) :
    Prop :=
  ¬ anyMatch buckets.inert c.path ∧ ¬ (claimsOn corpus fnChanged c []).hit ∧ ¬ c.deleted ∧
    anyMatch buckets.source c.path

/-- The tier filter keeps the suite. -/
def Kept (corpus : Corpus) (opts : Options) (n : String) : Prop := (corpus.get n).any opts.tierOk

/-- **What is selected**, where no file selects the whole corpus: the suites that are always run, and
with a live file those its changes select and those whose events they are. -/
theorem select_spec (corpus : Corpus) (fnChanged : String → List String) (buckets : Buckets)
    (hnone : opts.noAllFallback = true) (changes : List Change) :
    ((∃ sel, select corpus changes fnChanged buckets opts = .ok sel) ↔
      ∀ c ∈ changes, ¬ Stray corpus fnChanged buckets c) ∧
    ∀ sel, select corpus changes fnChanged buckets opts = .ok sel → ∀ n, n ∈ sel.suites ↔
      Kept corpus opts n ∧ (n ∈ nocov corpus opts ∨ ¬ Idle buckets changes ∧
        ((∃ c ∈ changes, ¬ anyMatch buckets.inert c.path ∧ n ∈ picks corpus fnChanged opts c) ∨
          n ∈ onEvents corpus changes)) := by
  have hlive {c : Change} : c ∈ changes.filter (!anyMatch buckets.inert ·.path) ↔
      c ∈ changes ∧ ¬ anyMatch buckets.inert c.path := by
    rw [List.mem_filter, Bool.not_eq_true', Bool.not_eq_true]
  have hidle : changes.filter (!anyMatch buckets.inert ·.path) = [] ↔ Idle buckets changes := by
    rw [List.filter_eq_nil_iff]
    exact forall₂_congr fun c _ ↦ by simp
  have hfold := foldl_selectChange corpus fnChanged opts
    (changes.filter (!anyMatch buckets.inert ·.path)) ⟨[], [], []⟩
  unfold select
  dsimp only
  by_cases hempty : changes.filter (!anyMatch buckets.inert ·.path) = []
  · rw [if_pos (List.isEmpty_iff.mpr hempty)]
    have hall := hidle.mp hempty
    refine ⟨iff_of_true ⟨_, rfl⟩ fun c hc hstray ↦ hstray.1 (hall c hc), fun sel hsel n ↦ ?_⟩
    obtain rfl := Except.ok.inj hsel
    rw [List.mem_filter, and_comm, or_iff_left fun h ↦ h.1 hall]
    exact Iff.rfl
  · rw [if_neg fun h ↦ hempty (List.isEmpty_iff.mp h)]
    have hstray : (((changes.filter (!anyMatch buckets.inert ·.path)).foldl
        (selectChange corpus fnChanged opts) ⟨[], [], []⟩).unmapped.filter fun c ↦
          !c.deleted && anyMatch buckets.source c.path) = [] ↔
            ∀ c ∈ changes, ¬ Stray corpus fnChanged buckets c := by
      rw [(hfold "").2, List.nil_append, List.filter_filter, List.filter_eq_nil_iff]
      simp only [hlive, Stray]
      exact ⟨fun h c hc hs ↦ h c ⟨hc, hs.1⟩ (by simp [hs.2.1, hs.2.2.1, hs.2.2.2]),
        fun h c hc hs ↦ h c hc.1 ⟨hc.2, by simpa [and_comm, and_assoc] using hs⟩⟩
    split
    · rename_i hne
      have hsome : ¬ ∀ c ∈ changes, ¬ Stray corpus fnChanged buckets c := by
        rw [← hstray]
        intro hnil
        simp [hnil] at hne
      refine ⟨iff_of_false ?_ hsome, fun _ h ↦ by cases h⟩
      rintro ⟨_, ⟨⟩⟩
    · rename_i hne
      have hnil := hstray.mp (by simpa using hne)
      rw [if_neg (by simp [hnone])]
      refine ⟨iff_of_true ⟨_, rfl⟩ hnil, fun sel hsel n ↦ ?_⟩
      obtain rfl := Except.ok.inj hsel
      have hbusy : ¬ Idle buckets changes := fun h ↦ hempty (hidle.mpr h)
      rw [List.mem_filter, and_comm, mem_foldl_pushOnce, (hfold n).1, List.mem_append]
      simp only [hlive, List.not_mem_nil, false_or, hbusy, not_false_eq_true, true_and, and_assoc, Kept]
      refine and_congr_right fun _ ↦ ?_
      rw [← or_assoc, or_comm]

/-! ## The union -/

/-- The selection with the fallback to the whole corpus off, as every caller for a branch has it. -/
def selectBranch (corpus : Corpus) (fnChanged : String → List String) (buckets : Buckets)
    (opts : Options) (changes : List Change) : Except Unclaimed Selection :=
  select corpus changes fnChanged buckets { opts with noAllFallback := true }

theorem idle_append {buckets : Buckets} {xs ys : List Change} :
    Idle buckets (xs ++ ys) ↔ Idle buckets xs ∧ Idle buckets ys := by
  simp only [Idle, List.mem_append, or_imp, forall_and]

theorem onEvents_append {xs ys : List Change} :
    n ∈ onEvents corpus (xs ++ ys) ↔ n ∈ onEvents corpus xs ∨ n ∈ onEvents corpus ys := by
  rw [mem_onEvents, mem_onEvents xs, mem_onEvents ys]
  simp only [List.mem_append, or_and_right, exists_or]

/-- The logic of the union: of a list with no live file only what is always run is selected. -/
theorem union_iff {K N X Y P Q E F : Prop} (hx : X → ¬ P) (hy : Y → ¬ Q) :
    K ∧ (N ∨ ¬ (X ∧ Y) ∧ ((P ∨ Q) ∨ E ∨ F)) ↔
      K ∧ (N ∨ ¬ X ∧ (P ∨ E)) ∨ K ∧ (N ∨ ¬ Y ∧ (Q ∨ F)) ∨ K ∧ (X ∧ ¬ Y ∧ E ∨ Y ∧ ¬ X ∧ F) := by
  by_cases hX : X <;> by_cases hY : Y <;> by_cases hK : K <;> grind

/-- **The selection of two lists of changes is the union of theirs**, and of the suites with an event
in the list that has no live file where the other has one; it fails just where one of theirs does. -/
theorem select_append (corpus : Corpus) (fnChanged : String → List String) (buckets : Buckets)
    (opts : Options) (xs ys : List Change) :
    ((∃ sel, selectBranch corpus fnChanged buckets opts (xs ++ ys) = .ok sel) ↔
      (∃ sx, selectBranch corpus fnChanged buckets opts xs = .ok sx) ∧
        ∃ sy, selectBranch corpus fnChanged buckets opts ys = .ok sy) ∧
    ∀ sel sx sy, selectBranch corpus fnChanged buckets opts (xs ++ ys) = .ok sel →
      selectBranch corpus fnChanged buckets opts xs = .ok sx →
      selectBranch corpus fnChanged buckets opts ys = .ok sy →
        ∀ n, n ∈ sel.suites ↔ n ∈ sx.suites ∨ n ∈ sy.suites ∨ Kept corpus opts n ∧
          (Idle buckets xs ∧ ¬ Idle buckets ys ∧ n ∈ onEvents corpus xs ∨
            Idle buckets ys ∧ ¬ Idle buckets xs ∧ n ∈ onEvents corpus ys) := by
  have hspec (l : List Change) : _ ∧ _ := select_spec corpus fnChanged buckets
    (show { opts with noAllFallback := true }.noAllFallback = true from rfl) l
  constructor
  · rw [selectBranch, selectBranch, selectBranch, (hspec _).1, (hspec xs).1, (hspec ys).1]
    simp only [List.mem_append, or_imp, forall_and]
  · intro sel sx sy hsel hx hy n
    rw [(hspec _).2 sel hsel, (hspec xs).2 sx hx, (hspec ys).2 sy hy, idle_append, onEvents_append]
    have hpicks (l : List Change) (hidle : Idle buckets l) : ¬ ∃ c ∈ l, ¬ anyMatch buckets.inert c.path ∧
        n ∈ picks corpus fnChanged { opts with noAllFallback := true } c :=
      fun ⟨c, hc, hlive, _⟩ ↦ hlive (hidle c hc)
    simp only [List.mem_append, or_and_right, exists_or]
    exact union_iff (hpicks xs) (hpicks ys)

end Changes

/-! ## An inert file that fires -/

namespace Inert

def coverSuite : Suite := ⟨"test-a.sh", some ["*.sh"], none, [], [], [], []⟩

def addedSuite : Suite := ⟨"test-docs.sh", some ["*.md"], none, ["added"], [], [], []⟩

def corpus : Corpus := ⟨[coverSuite, addedSuite], ⟨[], [], []⟩, by decide⟩

def run (changes : List Change) : Except Unclaimed Selection :=
  selectBranch corpus (fun _ ↦ []) ⟨["*.md"], [], []⟩ ⟨true, false, none, none⟩ changes

end Inert

/-- An inert file that is added fires no suite by itself, and does beside a live file. -/
theorem inert_fires_beside :
    Inert.run [⟨"notes.md", true, false, false⟩] = .ok ⟨[], .diff, [], []⟩ ∧
    Inert.run [⟨"a.sh", false, false, false⟩] =
      .ok ⟨["test-a.sh"], .diff, [], ["select: 1 suite(s) selected"]⟩ ∧
    Inert.run [⟨"notes.md", true, false, false⟩, ⟨"a.sh", false, false, false⟩] =
      .ok ⟨["test-a.sh", "test-docs.sh"], .diff, [], ["select: 2 suite(s) selected"]⟩ := by
  decide

end Spira.Suites
