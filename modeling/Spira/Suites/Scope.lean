import Spira.Suites.Select

/-!
# Narrowing to functions

A diff of a function-scoped file is placed in the functions of its head text, and a suite that
names the file as a whole is kept only where it reaches one of them: by the selection of a diff,
and by the gate's own list when its suites are off.
-/

set_option autoImplicit false

namespace Spira.Suites

/-! ## The functions a diff changes -/

/-- The head text being read: the function whose lines are read, and that of each line so far. -/
structure Owning where
  cur : Option String
  owner : List (Option String)

def Owning.line (o : Owning) (l : List Char) : Owning :=
  let cur := match fnDef l with
    | some (name, _) => some name
    | none => o.cur
  ⟨if l.head? = some '\x7d' then none else cur, o.owner ++ [cur]⟩

/-- The function of each line; lines count from one. -/
def ownerOf (ls : List (List Char)) : List (Option String) :=
  (ls.foldl Owning.line ⟨none, [none]⟩).owner

def ownerAt (owner : List (Option String)) (n : ℕ) : Option String := (owner[n]?).join

def parseNat (s : List Char) : Option ℕ :=
  if s.isEmpty || !s.all (·.isDigit) then none else some (Nat.ofDigitChars 10 s 0)

/-- What follows the first plus sign of a hunk's header: where its lines start in the head, and how
many they are. -/
def placeOf (l : List Char) : Option (ℕ × ℕ) :=
  match Text.splitOnce '+' l with
  | none => none
  | some (_, rest) =>
    let spec := rest.takeWhile fun c ↦ c.isDigit || c = ','
    match Text.splitOnce ',' spec with
    | none => (parseNat spec).map (·, 1)
    | some (start, more) =>
      (parseNat start).map (·, (parseNat (more.takeWhile (· ≠ ','))).getD 0)

/-- The functions a hunk lies in. -/
def scopeOf (owner : List (Option String)) (start count : ℕ) : List (Option String) :=
  if count = 0 then
    -- A deletion after a line: inside a function only when both its neighbours are.
    match ownerAt owner start, ownerAt owner (start + 1) with
    | some a, some b => if a = b then [some a] else [none]
    | _, _ => [none]
  else (List.range' start count).map (ownerAt owner)

/-- The functions of the head that a diff without context changes, and `TOP_LEVEL` where it changes
what lies outside all of them. -/
def changedScope (diff head : String) : List String :=
  let owner := ownerOf (Text.linesFrom [] head.toList)
  let hunks := ((Text.linesFrom [] diff.toList).filter ("@@".toList.isPrefixOf ·)).filterMap placeOf
  (hunks.flatMap fun p ↦ scopeOf owner p.1 p.2).foldl
    (fun out o ↦ pushOnce out (o.getD TOP_LEVEL)) []

/-- The functions changed in a file, none where its diff or its text is not known. -/
def fnChangedIn (diff text : String → Option String) (path : String) : List String :=
  match diff path, text path with
  | some d, some t => changedScope d t
  | _, _ => []

/-! ## The gate with its suites off -/

structure GateOut where
  suites : List String
  log : List String

/-- Whether a covers token names the change, and the suite is reached where it names it as a
whole. -/
def carves (corpus : Corpus) (s : Suite) (c : Change) (fns : List String) (token : String) : Bool :=
  match splitToken token with
  | some (f, _) => !f.isEmpty && caseMatch f c.path
  | none => !token.isEmpty && caseMatch token c.path && wholeFileClaimReached corpus s c fns

/-- Only the suites that cover a changed file of the ones always covered.  A list of files has no
diff to place, so it narrows nothing. -/
def carveOut (corpus : Corpus) (alwaysCovers : List String) (changes : List Change) (listed : Bool)
    (diff text : String → Option String) : GateOut :=
  let crit := changes.filter (anyMatch alwaysCovers ·.path)
  if crit.isEmpty then
    ⟨[], ["suite-select gate: SPIRA_GATE_SUITES=off — no suites here; the batch CI run is the suite gate"]⟩
  else
    let fns (c : Change) : List String := if listed then [] else fnChangedIn diff text c.path
    ⟨((corpus.suites.filter fun s ↦ (s.covers.getD []).any fun token ↦
        crit.any fun c ↦ carves corpus s c (fns c) token).map (·.name)).insertionSort (· ≤ ·),
      [s!"suite-select gate: SPIRA_GATE_SUITES=off but the diff touches " ++
        " ".intercalate (crit.map (·.path)) ++ " — running its covering suite(s) anyway"]⟩

/-! ## What leaves a suite out -/

section LeftOut

variable {corpus : Corpus} {changes : List Change} {fnChanged : String → List String}
  {buckets : Buckets} {opts : Options} {c : Change} {s : Suite}

/-- A suite names a file as a whole. -/
def Suite.NamesWhole (s : Suite) (path : String) : Prop :=
  ∃ token ∈ s.covers.getD [], splitToken token = none ∧ caseMatch token path = true

/-- The selection of a diff leaves out a suite that names a changed file as a whole, though
neither the tiers nor the suite's events hold it back. -/
structure LeftOut (corpus : Corpus) (changes : List Change) (fnChanged : String → List String)
    (buckets : Buckets) (opts : Options) (c : Change) (s : Suite) : Prop where
  suite : s ∈ corpus.suites
  names : s.NamesWhole c.path
  plain : s.selectsOn = []
  tier : opts.tierOk s = true
  change : c ∈ changes
  live : anyMatch buckets.inert c.path = false
  out : ∃ sel, select corpus changes fnChanged buckets opts = .ok sel ∧ s.name ∉ sel.suites

/-- The gate with its suites off leaves out a suite that names a critical file as a whole. -/
structure CarvedOut (corpus : Corpus) (alwaysCovers : List String) (changes : List Change)
    (diff text : String → Option String) (c : Change) (s : Suite) : Prop where
  suite : s ∈ corpus.suites
  names : s.NamesWhole c.path
  change : c ∈ changes
  critical : anyMatch alwaysCovers c.path = true
  out : s.name ∉ (carveOut corpus alwaysCovers changes false diff text).suites

theorem wholeFileClaimReached_eq (fns : List String) :
    wholeFileClaimReached corpus s c fns =
      ((narrowedTo corpus c fns).map (reaches s)).getD true := by
  rw [wholeFileClaimReached, narrowedTo]
  cases functionScoped corpus c <;> cases fns.isEmpty <;> by_cases h : TOP_LEVEL ∈ fns <;> simp [h]

/-- What every step keeps and one of them makes, a fold makes. -/
theorem foldl_of_mem {α β : Type} {P : β → Prop} {f : β → α → β} {l : List α} {x : α}
    (hkeep : ∀ b, ∀ y ∈ l, P b → P (f b y)) (hx : x ∈ l) (hmake : ∀ b, P (f b x)) (b : β) :
    P (l.foldl f b) := by
  obtain ⟨l₁, l₂, rfl⟩ := List.append_of_mem hx
  rw [List.foldl_append, List.foldl_cons]
  exact List.foldlRecOn (motive := P) l₂ f (hmake _) fun b hb y hy ↦ hkeep b y (by simp [hy]) hb

theorem claim_keeps {path n : String} {narrowed : Option (List String)} {a : Claims} {s : Suite}
    {pat : String} (h : n ∈ a.selected) : n ∈ (claim path narrowed a s pat).selected := by
  have hpush : n ∈ pushOnce a.selected s.name :=
    (mem_foldl_pushOnce (l := [s.name])).mpr (.inl h)
  unfold claim
  split <;> split
  · exact h
  · exact h
  · split
    · split
      · split
        · exact hpush
        · exact h
      · exact hpush
    · exact h
  · exact h

theorem claim_selects {narrowed : Option (List String)} {a : Claims} {pat : String}
    (hplain : s.selectsOn = []) (hsplit : splitToken pat = none) (hm : caseMatch pat c.path = true)
    (hreach : (narrowed.map (reaches s)).getD true = true) :
    s.name ∈ (claim c.path narrowed a s pat).selected := by
  have hpush : s.name ∈ pushOnce a.selected s.name :=
    (mem_foldl_pushOnce (l := [s.name])).mpr (.inr (List.mem_singleton_self _))
  unfold claim
  rw [hsplit]
  dsimp only
  rw [if_pos hm, if_pos (by rw [hplain]; rfl)]
  cases narrowed with
  | none => exact hpush
  | some affected =>
    dsimp only
    rw [if_pos (by simpa using hreach)]
    exact hpush

/-- A change keeps what is selected. -/
theorem selectChange_keeps {p : Progress} {n : String} (h : n ∈ p.selected) :
    n ∈ (selectChange corpus fnChanged opts p c).selected := by
  have hclaims : n ∈ (corpus.suites.foldl (fun a s ↦ (s.covers.getD []).foldl
      (fun a pat ↦ claim c.path (narrowedTo corpus c (fnChanged c.path)) a s pat) a)
        (⟨false, [], p.selected, 0⟩ : Claims)).selected :=
    List.foldlRecOn (motive := fun a : Claims ↦ n ∈ a.selected) _ _ h fun a ha s _ ↦
      List.foldlRecOn (motive := fun a : Claims ↦ n ∈ a.selected) _ _ ha fun a ha pat _ ↦
        claim_keeps ha
  unfold selectChange
  dsimp only
  split
  · exact mem_foldl_pushOnce.mpr (.inl hclaims)
  · exact mem_foldl_pushOnce.mpr (.inl (mem_foldl_pushOnce.mpr (.inl hclaims)))

/-- A change selects a suite that names its file as a whole and is reached. -/
theorem selectChange_selects {p : Progress} (hs : s ∈ corpus.suites) (hnames : s.NamesWhole c.path)
    (hplain : s.selectsOn = [])
    (hreach : wholeFileClaimReached corpus s c (fnChanged c.path) = true) :
    s.name ∈ (selectChange corpus fnChanged opts p c).selected := by
  obtain ⟨token, htoken, hsplit, hm⟩ := hnames
  rw [wholeFileClaimReached_eq] at hreach
  have hclaims : s.name ∈ (corpus.suites.foldl (fun a s ↦ (s.covers.getD []).foldl
      (fun a pat ↦ claim c.path (narrowedTo corpus c (fnChanged c.path)) a s pat) a)
        (⟨false, [], p.selected, 0⟩ : Claims)).selected := by
    refine foldl_of_mem (P := fun a : Claims ↦ s.name ∈ a.selected) (fun a t _ ha ↦ ?_) hs
      (fun a ↦ ?_) _
    · exact List.foldlRecOn (motive := fun a : Claims ↦ s.name ∈ a.selected) _ _ ha
        fun a ha pat _ ↦ claim_keeps ha
    · exact foldl_of_mem (P := fun a : Claims ↦ s.name ∈ a.selected)
        (f := fun a pat ↦ claim c.path (narrowedTo corpus c (fnChanged c.path)) a s pat)
        (fun a pat _ ha ↦ claim_keeps ha) htoken (fun a ↦ claim_selects hplain hsplit hm hreach) a
  unfold selectChange
  dsimp only
  split
  · exact mem_foldl_pushOnce.mpr (.inl hclaims)
  · exact mem_foldl_pushOnce.mpr (.inl (mem_foldl_pushOnce.mpr (.inl hclaims)))

/-- **A suite that names a changed file as a whole is left out only where its claim narrows.** -/
theorem LeftOut.not_reached (h : LeftOut corpus changes fnChanged buckets opts c s) :
    wholeFileClaimReached corpus s c (fnChanged c.path) = false := by
  refine Bool.eq_false_of_not_eq_true fun hreach ↦ ?_
  obtain ⟨sel, hsel, hout⟩ := h.out
  have hlive : c ∈ changes.filter (!anyMatch buckets.inert ·.path) :=
    List.mem_filter.mpr ⟨h.change, by simp [h.live]⟩
  have hget : corpus.get s.name = some s := by
    cases hfind : corpus.get s.name with
    | none => simpa using List.find?_eq_none.mp hfind s h.suite
    | some t =>
      have hname : t.name = s.name := by simpa using List.find?_some hfind
      rw [suite_eq_of_name (List.mem_of_find?_eq_some hfind) h.suite hname]
  have hkept {names : List String} (hn : s.name ∈ names) :
      s.name ∈ names.filter fun n ↦ (corpus.get n).any opts.tierOk :=
    List.mem_filter.mpr ⟨hn, by simp [hget, h.tier]⟩
  unfold select at hsel
  dsimp only at hsel
  rw [if_neg (by simpa using ⟨c, h.change, h.live⟩)] at hsel
  split at hsel
  · cases hsel
  · split at hsel
    · cases hsel
      exact hout (List.mem_map_of_mem (List.mem_filter.mpr ⟨h.suite, h.tier⟩))
    · cases hsel
      refine hout (hkept (mem_foldl_pushOnce.mpr (.inl ?_)))
      exact foldl_of_mem (P := fun p : Progress ↦ s.name ∈ p.selected)
        (f := selectChange corpus fnChanged opts) (fun p c' _ hp ↦ selectChange_keeps hp) hlive
        (fun p ↦ selectChange_selects h.suite h.names h.plain hreach) _

/-- **So does the gate's own list.** -/
theorem CarvedOut.not_reached {alwaysCovers : List String} {diff text : String → Option String}
    (h : CarvedOut corpus alwaysCovers changes diff text c s) (hpath : c.path ≠ "") :
    wholeFileClaimReached corpus s c (fnChangedIn diff text c.path) = false := by
  refine Bool.eq_false_of_not_eq_true fun hreach ↦ h.out ?_
  have hcrit : c ∈ changes.filter (anyMatch alwaysCovers ·.path) :=
    List.mem_filter.mpr ⟨h.change, h.critical⟩
  obtain ⟨token, htoken, hsplit, hm⟩ := h.names
  have htokenNe : token.isEmpty = false := by
    refine Bool.eq_false_of_not_eq_true fun hempty ↦ hpath (eq_empty_of_caseMatch_empty ?_)
    rwa [← String.isEmpty_iff.mp hempty]
  unfold carveOut
  dsimp only
  rw [if_neg (by simpa using ⟨c, h.change, h.critical⟩)]
  rw [List.mem_insertionSort]
  refine List.mem_map_of_mem (List.mem_filter.mpr ⟨h.suite, ?_⟩)
  refine List.any_eq_true.mpr ⟨token, htoken, List.any_eq_true.mpr ⟨c, hcrit, ?_⟩⟩
  rw [carves, hsplit]
  simp [htokenNe, hm, hreach]

end LeftOut

end Spira.Suites
