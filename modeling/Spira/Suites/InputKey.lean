import Spira.Suites.Closure

/-!
# Selection and input keys

A suite that a change selects must not be skipped for a key it shares with the base.  What selects
a suite is of its closure (`mem_closure_of_selected`), and the keys of two trees are equal exactly
where they agree on the closure (`key_eq_iff`): so they differ unless nothing of the closure but
file modes changed, which a blob id does not show.
-/

set_option autoImplicit false

namespace Spira.Suites

open Worklist

/-! ## Maps -/

section Maps

variable {p : String}

theorem sorted_eq_of_mem {l l' : List String} (h : ∀ x, x ∈ l ↔ x ∈ l') : sorted l = sorted l' := by
  refine List.Perm.eq_of_pairwise (fun a b _ _ (h : a ≤ b) (h' : b ≤ a) ↦ le_antisymm h h')
    (List.pairwise_insertionSort _ _) (List.pairwise_insertionSort _ _) ?_
  refine (List.perm_insertionSort _ _).trans (.trans ?_ (List.perm_insertionSort _ _).symm)
  exact (List.perm_ext_iff_of_nodup (List.nodup_dedup _) (List.nodup_dedup _)).mpr (by simpa using h)

theorem isSome_lookup {β : Type} {l : List (String × β)} : (l.lookup p).isSome ↔ p ∈ l.map (·.1) := by
  rw [List.lookup_isSome_iff, List.mem_map]
  exact exists_congr fun e ↦ and_congr_right fun _ ↦ ⟨fun h ↦ (eq_of_beq h).symm, fun h ↦ by simp [h]⟩

theorem mem_of_lookup {β : Type} {l : List (String × β)} {b : β} (h : l.lookup p = some b) : (p, b) ∈ l := by
  obtain ⟨l₁, l₂, rfl, -⟩ := List.lookup_eq_some_iff.mp h
  simp

/-- A map has the entry that stands. -/
theorem lookup_mapOf {l : List (String × String)} : (mapOf l).lookup p = l.reverse.lookup p := by
  have hkeys (ks : List String) : (ks.filterMap fun q ↦ (l.reverse.lookup q).map (q, ·)).lookup p =
      if p ∈ ks then l.reverse.lookup p else none := by
    induction ks with
    | nil => rfl
    | cons q ks ih =>
      rw [List.filterMap_cons]
      by_cases hpq : p = q
      · subst hpq
        cases hl : l.reverse.lookup p with
        | none => simp [ih, hl]
        | some b => simp
      · have hmem : p ∈ q :: ks ↔ p ∈ ks := by simp [hpq]
        cases hl : l.reverse.lookup q with
        | none => simp [ih, hmem]
        | some b =>
          dsimp only [Option.map_some]
          rw [List.lookup_cons, beq_eq_false_iff_ne.mpr hpq]
          simp [ih, hmem]
  rw [mapOf, hkeys]
  split
  · rfl
  · rename_i h
    have hno : ¬ (l.reverse.lookup p).isSome := by
      rw [isSome_lookup]
      simpa using h
    exact (Option.not_isSome_iff_eq_none.mp hno).symm

end Maps

/-! ## Listings -/

section Listings

variable {text path blob : String}

theorem mem_of_splitOnce {c : Char} {s l r : List Char} (h : Text.splitOnce c s = some (l, r)) :
    s = l ++ c :: r ∧ c ∉ l := by
  induction s generalizing l with
  | nil => cases h
  | cons x s ih =>
    rw [Text.splitOnce] at h
    split at h
    · rename_i hx
      cases h
      simp [hx]
    · rename_i hx
      obtain ⟨⟨l', r'⟩, hs, he⟩ := Option.map_eq_some_iff.mp h
      obtain ⟨rfl, rfl⟩ := Prod.mk.inj he
      obtain ⟨rfl, hl⟩ := ih hs
      exact ⟨rfl, fun hm ↦ (List.mem_cons.mp hm).elim (fun e ↦ hx e.symm) hl⟩

/-- A listed path is of one line, and a blob id is a word. -/
theorem listed_of_lookup (h : (parseLsTree text).lookup path = some blob) :
    '\n' ∉ path.toList ∧ ∀ c ∈ blob.toList, Text.isWhite c = false := by
  rw [parseLsTree, lookup_mapOf] at h
  obtain ⟨line, hline, hcol⟩ := List.mem_filterMap.mp (List.mem_reverse.mp (mem_of_lookup h))
  obtain ⟨cs, hcs, rfl⟩ := List.mem_map.mp hline
  obtain ⟨⟨path', info⟩, hentry, hinfo⟩ := Option.bind_eq_some_iff.mp hcol
  obtain ⟨word, hword, he⟩ := Option.map_eq_some_iff.mp hinfo
  obtain ⟨rfl, rfl⟩ := Prod.mk.inj he
  obtain ⟨⟨l, r⟩, hsplit, he⟩ := Option.map_eq_some_iff.mp hentry
  obtain ⟨rfl, rfl⟩ := Prod.mk.inj he
  rw [String.toList_ofList] at hsplit
  have hnl := Text.newline_notMem_linesFrom List.not_mem_nil hcs
  rw [(mem_of_splitOnce hsplit).1] at hnl
  constructor
  · rw [String.toList_ofList]
    exact fun hm ↦ hnl (List.mem_append_right _ (List.mem_cons_of_mem _ hm))
  · intro c hc
    obtain ⟨field, hfield, rfl⟩ := List.mem_map.mp (List.mem_of_getElem? hword)
    rw [String.toList_ofList] at hc
    exact Text.sep_notMem_fieldsFrom (by simp) hfield hc

end Listings

/-! ## The text of a key -/

section KeyText

theorem append_cons_inj {α : Type} {a : α} {x x' z z' : List α} (hx : a ∉ x) (hx' : a ∉ x')
    (h : x ++ a :: z = x' ++ a :: z') : x = x' ∧ z = z' := by
  induction x generalizing x' with
  | nil =>
    cases x' with
    | nil => exact ⟨rfl, (List.cons.inj h).2⟩
    | cons b x' => exact absurd ((List.cons.inj h).1 ▸ List.mem_cons_self) hx'
  | cons b x ih =>
    cases x' with
    | nil => exact absurd ((List.cons.inj h).1 ▸ List.mem_cons_self) hx
    | cons b' x' =>
      obtain ⟨rfl, htail⟩ := List.cons.inj h
      obtain ⟨rfl, rfl⟩ := ih (fun hm ↦ hx (List.mem_cons_of_mem _ hm))
        (fun hm ↦ hx' (List.mem_cons_of_mem _ hm)) htail
      exact ⟨rfl, rfl⟩

/-- The line of a path and its blob id. -/
def keyLine (e : String × String) : List Char := e.1.toList ++ ' ' :: (e.2.toList ++ ['\n'])

/-- A path that is of one line, with a blob id that is a word. -/
def Plain (e : String × String) : Prop :=
  '\n' ∉ e.1.toList ∧ ∀ c ∈ e.2.toList, Text.isWhite c = false

theorem keyLine_inj {e e' : String × String} {r r' : List Char} (he : Plain e) (he' : Plain e')
    (h : keyLine e ++ r = keyLine e' ++ r') : e = e' ∧ r = r' := by
  have hline {e : String × String} (he : Plain e) : '\n' ∉ e.1.toList ++ ' ' :: e.2.toList := by
    intro hm
    rcases List.mem_append.mp hm with hm | hm
    · exact he.1 hm
    · rcases List.mem_cons.mp hm with hm | hm
      · cases hm
      · exact absurd (he.2 _ hm) (by decide)
  have hspace {e : String × String} (he : Plain e) : ' ' ∉ e.2.toList.reverse := fun hm ↦
    absurd (he.2 _ (List.mem_reverse.mp hm)) (by decide)
  have hsplit {e : String × String} {r : List Char} :
      keyLine e ++ r = (e.1.toList ++ ' ' :: e.2.toList) ++ '\n' :: r := by
    simp [keyLine]
  rw [hsplit, hsplit] at h
  obtain ⟨hl, rfl⟩ := append_cons_inj (hline he) (hline he') h
  have hrev := congrArg List.reverse hl
  simp only [List.reverse_append, List.reverse_cons, List.append_assoc, List.singleton_append] at hrev
  obtain ⟨hb, hp⟩ := append_cons_inj (hspace he) (hspace he') hrev
  refine ⟨Prod.ext (String.toList_injective (List.reverse_injective hp))
    (String.toList_injective (List.reverse_injective hb)), rfl⟩

theorem keyLines_inj {es es' : List (String × String)} (h : es.flatMap keyLine = es'.flatMap keyLine)
    (hes : ∀ e ∈ es, Plain e) (hes' : ∀ e ∈ es', Plain e) : es = es' := by
  induction es generalizing es' with
  | nil =>
    cases es' with
    | nil => rfl
    | cons e' es' => simp [keyLine] at h
  | cons e es ih =>
    cases es' with
    | nil => simp [keyLine] at h
    | cons e' es' =>
      rw [List.flatMap_cons, List.flatMap_cons] at h
      obtain ⟨rfl, htail⟩ := keyLine_inj (hes e List.mem_cons_self) (hes' e' List.mem_cons_self) h
      rw [ih htail (fun x hx ↦ hes x (List.mem_cons_of_mem _ hx))
        fun x hx ↦ hes' x (List.mem_cons_of_mem _ hx)]

end KeyText

/-! ## What is in a closure -/

section Scripts

variable {files : List (String × String)} {name path : String}

theorem path_of_scriptOf (h : scriptOf path = some name) : path = "spira/" ++ name := by
  rw [scriptOf] at h
  split at h
  · rename_i hstart
    dsimp only at h
    split at h
    · obtain ⟨rest, hrest⟩ := List.isPrefixOf_iff_prefix.mp hstart
      have hname := Option.some.inj h
      have hlist : name.toList = rest := by
        rw [← hname, String.toList_ofList, ← hrest]
        exact List.drop_left' rfl
      exact String.toList_injective (by rw [String.toList_append, hlist, hrest])
    · cases h
  · cases h

theorem lookup_scripts :
    (scripts files).lookup name = some path ↔ path ∈ files.map (·.1) ∧ scriptOf path = some name := by
  have hmem {q : String} : (name, q) ∈ scripts files ↔
      q ∈ files.map (·.1) ∧ scriptOf q = some name := by
    rw [scripts, List.mem_filterMap, List.mem_map]
    constructor
    · rintro ⟨e, he, hn⟩
      obtain ⟨n, hscript, hq⟩ := Option.map_eq_some_iff.mp hn
      obtain ⟨rfl, rfl⟩ := Prod.mk.inj hq
      exact ⟨⟨e, he, rfl⟩, hscript⟩
    · rintro ⟨⟨e, he, rfl⟩, hn⟩
      exact ⟨e, he, by rw [hn]; rfl⟩
  constructor
  · exact fun h ↦ hmem.mp (mem_of_lookup h)
  · intro h
    have hsome : ((scripts files).lookup name).isSome :=
      isSome_lookup.mpr (List.mem_map_of_mem (hmem.mpr h))
    obtain ⟨q, hq⟩ := Option.isSome_iff_exists.mp hsome
    rw [hq, path_of_scriptOf h.2, path_of_scriptOf (hmem.mp (mem_of_lookup hq)).2]

end Scripts

theorem sum_toFinset_le {α : Type} [DecidableEq α] (l : List α) (f : α → ℕ) :
    ∑ x ∈ l.toFinset, f x ≤ (l.map f).sum := by
  induction l with
  | nil => simp
  | cons x l ih =>
    rw [List.toFinset_cons, List.map_cons, List.sum_cons]
    by_cases hx : x ∈ l.toFinset
    · rw [Finset.insert_eq_of_mem hx]
      omega
    · rw [Finset.sum_insert hx]
      omega

section Closure

variable {corpus : Corpus} {s : Suite} {reach : Option Reach} {always : List String}
  {files files' : List (String × String)} {byName : List (String × String)} {n p : String}
  {paths paths' : List String}

/-- The scripts run are those that the suite's tokens lead to. -/
theorem mem_scriptsRun : n ∈ scriptsRun corpus s byName ↔
    ∃ t ∈ s.tokens.filter fun t ↦ (byName.lookup t).isSome, Leads (runsOf corpus byName) t n := by
  have hname {t : String} (h : (byName.lookup t).isSome) : t ∈ (byName.map (·.1)).toFinset :=
    List.mem_toFinset.mpr (isSome_lookup.mp h)
  rw [scriptsRun, mem_walk (U := (byName.map (·.1)).toFinset)]
  · simp only [List.mem_reverse]
  · exact fun x _ y hy ↦ hname (List.mem_filter.mp hy).2
  · exact fun t ht ↦ hname (List.mem_filter.mp (List.mem_reverse.mp ht)).2
  · have hsum := sum_toFinset_le (byName.map (·.1)) fun x ↦ (runsOf corpus byName x).length
    rw [List.map_map] at hsum
    rw [List.length_reverse]
    exact Nat.add_le_add_right hsum _

/-- A closure is of files of its tree. -/
theorem mem_files_of_mem_closure (h : closurePaths corpus s reach files always = some paths)
    (hp : p ∈ paths) : (files.lookup p).isSome := by
  obtain ⟨covers, -, rfl⟩ := Option.map_eq_some_iff.mp h
  rw [isSome_lookup]
  rw [mem_sorted, List.mem_append, List.mem_append] at hp
  rcases hp with (hp | hp) | hp
  · exact List.mem_of_mem_filter hp
  · obtain ⟨n, -, hn⟩ := List.mem_filterMap.mp hp
    exact (lookup_scripts.mp hn).1
  · exact List.mem_of_mem_filter hp

/-- Two trees hold the same of these paths. -/
def Agree (files files' : List (String × String)) (paths : List String) : Prop :=
  ∀ p ∈ paths, files.lookup p = files'.lookup p

/-- What a tree's closure has, it has in a tree that agrees on it. -/
theorem closure_subset (h : closurePaths corpus s reach files always = some paths)
    (h' : closurePaths corpus s reach files' always = some paths')
    (hagree : Agree files files' paths) : ∀ p ∈ paths, p ∈ paths' := by
  obtain ⟨covers, hcovers, rfl⟩ := Option.map_eq_some_iff.mp h
  obtain ⟨covers', hcovers', rfl⟩ := Option.map_eq_some_iff.mp h'
  obtain rfl := Option.some.inj (hcovers.symm.trans hcovers')
  have hthere {p : String} (hp : p ∈ sorted ((files.map (·.1)).filter
      (anyMatch (closurePats s covers always)) ++ (scriptsRun corpus s (scripts files)).filterMap
        (fun n ↦ (scripts files).lookup n) ++ (files.map (·.1)).filter (isBuilt s reach))) :
      p ∈ files'.map (·.1) :=
    isSome_lookup.mp (hagree p hp ▸ mem_files_of_mem_closure h hp)
  intro p hp
  have hp' := hthere hp
  rw [mem_sorted, List.mem_append, List.mem_append] at hp ⊢
  refine hp.imp (Or.imp (fun hp ↦ ?_) fun hp ↦ ?_) fun hp ↦ ?_
  · exact List.mem_filter.mpr ⟨hp', (List.mem_filter.mp hp).2⟩
  · -- Every script on the way is of the closure, and so there.
    obtain ⟨n, hn, hnp⟩ := List.mem_filterMap.mp hp
    have hkept {n q : String} (hn : n ∈ scriptsRun corpus s (scripts files))
        (hq : (scripts files).lookup n = some q) : (scripts files').lookup n = some q := by
      refine lookup_scripts.mpr ⟨hthere (mem_sorted.mpr (List.mem_append_left _
        (List.mem_append_right _ (List.mem_filterMap.mpr ⟨n, hn, hq⟩)))), (lookup_scripts.mp hq).2⟩
    have hsome {n : String} (hn : n ∈ scriptsRun corpus s (scripts files))
        (hq : ((scripts files).lookup n).isSome) : ((scripts files').lookup n).isSome := by
      obtain ⟨q, hq⟩ := Option.isSome_iff_exists.mp hq
      exact Option.isSome_iff_exists.mpr ⟨q, hkept hn hq⟩
    refine List.mem_filterMap.mpr ⟨n, ?_, hkept hn hnp⟩
    obtain ⟨t, ht, htn⟩ := mem_scriptsRun.mp hn
    obtain ⟨htoken, hts⟩ := List.mem_filter.mp ht
    refine mem_scriptsRun.mpr ⟨t, List.mem_filter.mpr
      ⟨htoken, hsome (mem_scriptsRun.mpr ⟨t, ht, .refl⟩) hts⟩, ?_⟩
    clear hn hnp
    induction htn with
    | refl => exact .refl
    | tail hlead hstep ih =>
      obtain ⟨htok, hys⟩ := List.mem_filter.mp hstep
      exact ih.tail (List.mem_filter.mpr
        ⟨htok, hsome (mem_scriptsRun.mpr ⟨t, ht, hlead.tail hstep⟩) hys⟩)
  · exact List.mem_filter.mpr ⟨hp', (List.mem_filter.mp hp).2⟩

theorem closure_eq (h : closurePaths corpus s reach files always = some paths)
    (h' : closurePaths corpus s reach files' always = some paths') (ha : Agree files files' paths)
    (ha' : Agree files files' paths') : paths = paths' := by
  have hmem : ∀ p, p ∈ paths ↔ p ∈ paths' := fun p ↦ ⟨closure_subset h h' ha p,
    closure_subset h' h (fun q hq ↦ (ha' q hq).symm) p⟩
  obtain ⟨covers, -, rfl⟩ := Option.map_eq_some_iff.mp h
  obtain ⟨covers', -, rfl⟩ := Option.map_eq_some_iff.mp h'
  exact sorted_eq_of_mem fun p ↦ by simpa only [mem_sorted] using hmem p

end Closure

/-! ## Keys -/

section Keys

variable {corpus : Corpus} {s : Suite} {reach : Option Reach} {always : List String}
  {files files' : List (String × String)} {paths paths' : List String}

theorem toList_keyText (text : String) (hpaths : ∀ p ∈ paths, (files.lookup p).isSome) :
    (paths.foldl (fun text p ↦ text ++ (p ++ " " ++ (files.lookup p).getD "" ++ "\n")) text).toList =
      text.toList ++ (paths.map fun p ↦ (p, (files.lookup p).getD "")).flatMap keyLine := by
  induction paths generalizing text with
  | nil => simp
  | cons p paths ih =>
    rw [List.foldl_cons, ih _ fun q hq ↦ hpaths q (List.mem_cons_of_mem _ hq)]
    simp [keyLine, String.toList_append]

/-- The entries that a key is a text of. -/
theorem entries_plain {text : String}
    (h : closurePaths corpus s reach (parseLsTree text) always = some paths) :
    ∀ e ∈ paths.map fun p ↦ (p, ((parseLsTree text).lookup p).getD ""), Plain e := by
  intro e he
  obtain ⟨p, hp, rfl⟩ := List.mem_map.mp he
  obtain ⟨b, hb⟩ := Option.isSome_iff_exists.mp (mem_files_of_mem_closure h hp)
  rw [hb]
  exact listed_of_lookup hb

/-- **Two trees give a suite one key exactly where they agree on its closures.** -/
theorem key_eq_iff {text text' : String}
    (h : closurePaths corpus s reach (parseLsTree text) always = some paths)
    (h' : closurePaths corpus s reach (parseLsTree text') always = some paths') :
    suiteKey corpus s reach (some (parseLsTree text)) always =
        suiteKey corpus s reach (some (parseLsTree text')) always ↔
      Agree (parseLsTree text) (parseLsTree text') paths ∧
        Agree (parseLsTree text) (parseLsTree text') paths' := by
  have hkey : suiteKey corpus s reach (some (parseLsTree text)) always =
        suiteKey corpus s reach (some (parseLsTree text')) always ↔
      (paths.map fun p ↦ (p, ((parseLsTree text).lookup p).getD "")) =
        paths'.map fun p ↦ (p, ((parseLsTree text').lookup p).getD "") := by
    simp only [suiteKey, Option.bind_some, h, h', Option.map_some, Option.some.injEq]
    rw [← String.toList_inj, toList_keyText _ fun p ↦ mem_files_of_mem_closure h,
      toList_keyText _ fun p ↦ mem_files_of_mem_closure h', List.append_cancel_left_eq]
    exact ⟨fun he ↦ keyLines_inj he (entries_plain h) (entries_plain h'), fun he ↦ by rw [he]⟩
  rw [hkey]
  constructor
  · intro he
    have hpaths : paths = paths' := by
      simpa [Function.comp_def] using congrArg (List.map Prod.fst) he
    subst hpaths
    have hagree : Agree (parseLsTree text) (parseLsTree text') paths := by
      intro p hp
      obtain ⟨b, hb⟩ := Option.isSome_iff_exists.mp (mem_files_of_mem_closure h hp)
      obtain ⟨b', hb'⟩ := Option.isSome_iff_exists.mp (mem_files_of_mem_closure h' hp)
      have hblob := (Prod.mk.inj (List.map_inj_left.mp he p hp)).2
      rw [hb, hb'] at hblob ⊢
      exact congrArg some hblob
    exact ⟨hagree, hagree⟩
  · rintro ⟨ha, ha'⟩
    obtain rfl := closure_eq h h' ha ha'
    exact List.map_congr_left fun p hp ↦ by rw [ha p hp]

/-- **A change that touches a suite is of its closure**, in a tree that has the file. -/
theorem mem_closure_of_touches {w : Option Workspace} {c : Change}
    (h : closurePaths corpus s (w.map Reach.load) files always = some paths) (hc : c.path ≠ "")
    (hfile : (files.lookup c.path).isSome) (ht : Touches (w.map Reach.load) c s) :
    c.path ∈ paths := by
  obtain ⟨covers, hcovers, rfl⟩ := Option.map_eq_some_iff.mp h
  have hmem := isSome_lookup.mp hfile
  rw [mem_sorted, List.mem_append, List.mem_append]
  rcases ht with ⟨covers', hcovers', pat, hpat, hm⟩ | ⟨r, hr, b, hb, hbin⟩
  · obtain rfl := Option.some.inj (hcovers.symm.trans hcovers')
    refine .inl (.inl (List.mem_filter.mpr ⟨hmem, List.any_eq_true.mpr ⟨filePart pat, ?_, hm⟩⟩))
    have hne : filePart pat ≠ "" := by
      intro he
      rw [he] at hm
      exact hc (eq_empty_of_caseMatch_empty hm)
    simp only [closurePats, List.cons_append, List.mem_cons, List.mem_append, List.mem_filter,
      List.mem_map]
    exact .inr (.inl (.inl ⟨⟨pat, hpat, rfl⟩, decide_eq_true hne⟩))
  · obtain ⟨w, rfl, rfl⟩ := Option.map_eq_some_iff.mp hr
    obtain ⟨d, hd, hunder⟩ := underDir_of_mem_binsFor hbin
    have hdirs : d ∈ s.invokes.flatMap (Reach.load w).sourcesOf := List.mem_flatMap.mpr ⟨b, hb, hd⟩
    refine .inr (List.mem_filter.mpr ⟨hmem, Bool.and_eq_true_iff.mpr ⟨?_, ?_⟩⟩)
    · rw [List.isEmpty_eq_false_iff_exists_mem.mpr ⟨d, hdirs⟩]
      rfl
    · exact Bool.or_eq_true_iff.mpr (.inr (List.any_eq_true.mpr ⟨d, hdirs, hunder⟩))

end Keys

/-! ## Two trees -/

/-- The changes between two trees, given by their listings. -/
structure Between (base head : String) (changes : List Change) : Prop where
  named {c : Change} (hc : c ∈ changes) : c.path ≠ ""
  added {c : Change} (hc : c ∈ changes) (ha : c.added) :
    (parseLsTree base).lookup c.path = none ∧ ((parseLsTree head).lookup c.path).isSome
  deleted {c : Change} (hc : c ∈ changes) (hd : c.deleted) :
    ((parseLsTree base).lookup c.path).isSome ∧ (parseLsTree head).lookup c.path = none
  /-- A file that was in both has other contents, or another mode. -/
  modified {c : Change} (hc : c ∈ changes) (ha : c.added = false) (hd : c.deleted = false) :
    ((parseLsTree base).lookup c.path).isSome ∧ ((parseLsTree head).lookup c.path).isSome ∧
      ((parseLsTree base).lookup c.path ≠ (parseLsTree head).lookup c.path ∨ c.modeChanged)
  mode {c : Change} (hc : c ∈ changes) (hm : c.modeChanged) :
    (modesOf base).lookup c.path ≠ (modesOf head).lookup c.path
  complete {p : String} (h : (parseLsTree base).lookup p ≠ (parseLsTree head).lookup p ∨
    (modesOf base).lookup p ≠ (modesOf head).lookup p) : ∃ c ∈ changes, c.path = p

section Trees

variable (corpus : Corpus) (reach : Option Reach) (always : List String)

/-- A suite's key in a tree. -/
def keyIn (text : String) (s : Suite) : Option String :=
  ((suiteInputs corpus reach (some (parseLsTree text)) always).lookup s.name).join

/-- A suite's closure in a tree. -/
def closureIn (text : String) (s : Suite) : List String :=
  (closurePaths corpus s reach (parseLsTree text) always).getD []

/-- A suite has no key in one of two trees, or has different keys in them. -/
def Rekeyed (base head : String) (s : Suite) : Prop :=
  keyIn corpus reach always base s = none ∨ keyIn corpus reach always head s = none ∨
    keyIn corpus reach always base s ≠ keyIn corpus reach always head s

/-- A file of the suite's closure was added, deleted, or has other contents. -/
def InputChanged (base head : String) (changes : List Change) (s : Suite) : Prop :=
  ∃ c ∈ changes, (c.path ∈ closureIn corpus reach always base s ∨
      c.path ∈ closureIn corpus reach always head s) ∧
    (parseLsTree base).lookup c.path ≠ (parseLsTree head).lookup c.path

variable {corpus reach always} {base head text : String} {changes : List Change} {s : Suite}

theorem keyIn_eq (hs : s ∈ corpus.suites) :
    keyIn corpus reach always text s = suiteKey corpus s reach (some (parseLsTree text)) always := by
  have hlookup : (suiteInputs corpus reach (some (parseLsTree text)) always).lookup s.name =
      some (suiteKey corpus s reach (some (parseLsTree text)) always) := by
    have hsome : ((suiteInputs corpus reach (some (parseLsTree text)) always).lookup s.name).isSome :=
      isSome_lookup.mpr (List.mem_map_of_mem (List.mem_map_of_mem hs))
    obtain ⟨k, hk⟩ := Option.isSome_iff_exists.mp hsome
    obtain ⟨s', hs', he⟩ := List.mem_map.mp (mem_of_lookup hk)
    obtain ⟨hname, rfl⟩ := Prod.mk.inj he
    rw [hk, suite_eq_of_name hs' hs hname]
  rw [keyIn, hlookup]
  rfl

end Trees

/-- A changed file is in one of the trees. -/
theorem Between.file {base head : String} {changes : List Change} (hb : Between base head changes)
    {c : Change} (hc : c ∈ changes) :
    ((parseLsTree base).lookup c.path).isSome ∨ ((parseLsTree head).lookup c.path).isSome := by
  by_cases ha : c.added
  · exact .inr (hb.added hc ha).2
  · by_cases hd : c.deleted
    · exact .inl (hb.deleted hc hd).1
    · exact .inl (hb.modified hc (Bool.eq_false_of_not_eq_true ha)
        (Bool.eq_false_of_not_eq_true hd)).1

/-- **A selected suite is given another key exactly where contents of its closure changed**, not
where only modes did; what selects it is of its closure; and where it is given one key, the
closure's paths and blobs are the same. -/
theorem selected_rekeyed_iff (corpus : Corpus) (w : Option Workspace) (always : List String)
    (base head : String) (changes : List Change) (hb : Between base head changes)
    (fnChanged : String → List String) (buckets : Buckets) (opts : Options) (sel : Selection)
    (hsel : select corpus changes fnChanged buckets { opts with reach := w.map Reach.load } = .ok sel)
    (hmode : sel.mode = .diff) (s : Suite) (hs : s ∈ corpus.suites) (hcovers : s.covers.isSome) :
    (s.name ∈ sel.suites →
      (Rekeyed corpus (w.map Reach.load) always base head s ↔
        InputChanged corpus (w.map Reach.load) always base head changes s) ∧
      ∃ c ∈ changes, Touches (w.map Reach.load) c s ∧
        (c.path ∈ closureIn corpus (w.map Reach.load) always base s ∨
          c.path ∈ closureIn corpus (w.map Reach.load) always head s)) ∧
    (keyIn corpus (w.map Reach.load) always base s = keyIn corpus (w.map Reach.load) always head s →
      closureIn corpus (w.map Reach.load) always base s =
          closureIn corpus (w.map Reach.load) always head s ∧
        ∀ p ∈ closureIn corpus (w.map Reach.load) always base s,
          (parseLsTree base).lookup p = (parseLsTree head).lookup p) := by
  have hclosure (text : String) : closurePaths corpus s (w.map Reach.load) (parseLsTree text) always =
      some (closureIn corpus (w.map Reach.load) always text s) := by
    obtain ⟨covers, hcov⟩ := Option.isSome_iff_exists.mp hcovers
    rw [closureIn, closurePaths, hcov, Option.map_some, Option.getD_some]
  have hkeyed (text : String) : keyIn corpus (w.map Reach.load) always text s ≠ none := by
    rw [keyIn_eq hs, suiteKey, Option.bind_some, hclosure text]
    exact Option.some_ne_none _
  have hkeys := key_eq_iff (hclosure base) (hclosure head)
  rw [← keyIn_eq hs, ← keyIn_eq hs] at hkeys
  refine ⟨fun hselected ↦ ⟨⟨fun hr ↦ ?_, fun ⟨c, hc, hmem, hne⟩ ↦ .inr (.inr fun he ↦ ?_)⟩, ?_⟩,
    fun he ↦ ?_⟩
  · have hne := (hr.resolve_left (hkeyed base)).resolve_left (hkeyed head)
    rw [Ne, hkeys, not_and_or] at hne
    have hp : ∃ p, (p ∈ closureIn corpus (w.map Reach.load) always base s ∨
        p ∈ closureIn corpus (w.map Reach.load) always head s) ∧
        (parseLsTree base).lookup p ≠ (parseLsTree head).lookup p := by
      rcases hne with hne | hne
      · simp only [Agree, not_forall] at hne
        obtain ⟨p, hp, hne⟩ := hne
        exact ⟨p, .inl hp, hne⟩
      · simp only [Agree, not_forall] at hne
        obtain ⟨p, hp, hne⟩ := hne
        exact ⟨p, .inr hp, hne⟩
    obtain ⟨p, hp, hne⟩ := hp
    obtain ⟨c, hc, rfl⟩ := hb.complete (.inl hne)
    exact ⟨c, hc, hp, hne⟩
  · obtain ⟨ha, ha'⟩ := hkeys.mp he
    exact hne (hmem.elim (ha _) (ha' _))
  · rcases because_of_selected hsel hmode hselected with ⟨s', hs', hname, hnone⟩ | ⟨c, hc, ht⟩
    · rw [suite_eq_of_name hs' hs hname] at hnone
      rw [hnone] at hcovers
      cases hcovers
    · obtain ⟨s', hs', hname, ht⟩ := ht
      rw [suite_eq_of_name hs' hs hname] at ht
      refine ⟨c, hc, ht, (hb.file hc).imp (fun hfile ↦ ?_) fun hfile ↦ ?_⟩
      · exact mem_closure_of_touches (hclosure base) (hb.named hc) hfile ht
      · exact mem_closure_of_touches (hclosure head) (hb.named hc) hfile ht
  · obtain ⟨ha, ha'⟩ := hkeys.mp he
    exact ⟨closure_eq (hclosure base) (hclosure head) ha ha', ha⟩

/-! ## A key that is shared -/

/-- A suite that is selected by the modes of the files it covers. -/
def modeSuite : Suite := ⟨"test-a.sh", some ["a.sh"], none, ["mode"], [], [], []⟩

/-- A suite that is selected by the files it covers. -/
def coverSuite : Suite := ⟨"test-b.sh", some ["a.sh"], none, [], [], [], []⟩

def twoSuites : Corpus := ⟨[modeSuite, coverSuite], ⟨[], [], []⟩, by decide⟩

/-- Buckets in which the one script is a source file. -/
def scriptBuckets : Buckets := ⟨["*.md"], ["*.sh"], []⟩

def noOptions : Options := ⟨true, false, none, none⟩

/-- The listing of a script. -/
def listing (mode blob : String) : String := mode ++ " blob " ++ blob ++ "\ta.sh"

/-- The script is made executable. -/
def modeChange : Change := ⟨"a.sh", false, false, true⟩

/-- The script is edited. -/
def edit : Change := ⟨"a.sh", false, false, false⟩

theorem eq_of_lookup_ne {k x y p : String} {l : List (String × String)}
    (h : ((k, x) :: l).lookup p ≠ ((k, y) :: l).lookup p) : p = k := by
  by_contra hp
  refine h ?_
  rw [List.lookup_cons, List.lookup_cons, beq_eq_false_iff_ne.mpr hp]

theorem between_mode :
    Between (listing "100644" "aa") (listing "100755" "aa") [modeChange] where
  named hc := by
    rw [List.mem_singleton.mp hc]
    decide
  added hc ha := by
    rw [List.mem_singleton.mp hc] at ha
    cases ha
  deleted hc hd := by
    rw [List.mem_singleton.mp hc] at hd
    cases hd
  modified hc _ _ := by
    rw [List.mem_singleton.mp hc]
    decide
  mode hc _ := by
    rw [List.mem_singleton.mp hc]
    decide
  complete {p} h := by
    have hblobs : parseLsTree (listing "100644" "aa") = parseLsTree (listing "100755" "aa") := by
      decide
    have hbase : modesOf (listing "100644" "aa") = [("a.sh", "100644")] := by
      decide
    have hhead : modesOf (listing "100755" "aa") = [("a.sh", "100755")] := by
      decide
    rw [hblobs, hbase, hhead] at h
    exact ⟨modeChange, List.mem_singleton_self _,
      (eq_of_lookup_ne (h.resolve_left (not_not_intro rfl))).symm⟩

/-- Two trees that differ in the mode of a script: both suites are selected, one for the event and
one for the file, and neither is given another key. -/
theorem mode_shares_key : ∃ (corpus : Corpus) (w : Option Workspace) (always : List String)
    (base head : String) (changes : List Change) (fnChanged : String → List String)
    (buckets : Buckets) (opts : Options) (sel : Selection), Between base head changes ∧
      select corpus changes fnChanged buckets { opts with reach := w.map Reach.load } = .ok sel ∧
      sel.mode = .diff ∧ ∀ s ∈ corpus.suites, s.covers.isSome ∧ s.name ∈ sel.suites ∧
        ¬ Rekeyed corpus (w.map Reach.load) always base head s := by
  refine ⟨twoSuites, none, [], listing "100644" "aa", listing "100755" "aa", [modeChange],
    fun _ ↦ [], scriptBuckets, noOptions, ⟨["test-b.sh", "test-a.sh"], .diff, [],
      ["select: 2 suite(s) selected"]⟩, between_mode, by decide, rfl, ?_⟩
  intro s hs
  simp only [twoSuites, List.mem_cons, List.not_mem_nil, or_false] at hs
  rcases hs with rfl | rfl
  · refine ⟨rfl, by decide, ?_⟩
    rw [Rekeyed]
    decide
  · refine ⟨rfl, by decide, ?_⟩
    rw [Rekeyed]
    decide

theorem between_edit : Between (listing "100644" "aa") (listing "100644" "cc") [edit] where
  named hc := by
    rw [List.mem_singleton.mp hc]
    decide
  added hc ha := by
    rw [List.mem_singleton.mp hc] at ha
    cases ha
  deleted hc hd := by
    rw [List.mem_singleton.mp hc] at hd
    cases hd
  modified hc _ _ := by
    rw [List.mem_singleton.mp hc]
    decide
  mode hc hm := by
    rw [List.mem_singleton.mp hc] at hm
    cases hm
  complete {p} h := by
    have hbase : parseLsTree (listing "100644" "aa") = [("a.sh", "aa")] := by
      decide
    have hhead : parseLsTree (listing "100644" "cc") = [("a.sh", "cc")] := by
      decide
    have hmodes : modesOf (listing "100644" "aa") = modesOf (listing "100644" "cc") := by
      decide
    rw [hmodes, hbase, hhead] at h
    exact ⟨edit, List.mem_singleton_self _,
      (eq_of_lookup_ne (h.resolve_right (not_not_intro rfl))).symm⟩

/-- An edit of the script gives the suite that covers it another key. -/
theorem edit_rekeys :
    Rekeyed twoSuites none [] (listing "100644" "aa") (listing "100644" "cc") coverSuite := by
  have hsel : select twoSuites [edit] (fun _ ↦ []) scriptBuckets
      { noOptions with reach := (none : Option Workspace).map Reach.load } =
        .ok ⟨["test-b.sh"], .diff, [], ["select: 1 suite(s) selected"]⟩ := by decide
  have hkeyed := selected_rekeyed_iff twoSuites none [] _ _ [edit] between_edit (fun _ ↦ [])
    scriptBuckets noOptions _ hsel rfl coverSuite (by simp [twoSuites]) rfl
  refine (hkeyed.1 (by decide)).1.mpr ⟨edit, List.mem_singleton_self _, ?_, ?_⟩
  · exact .inl (by decide)
  · decide

end Spira.Suites
