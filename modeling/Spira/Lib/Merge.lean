import Spira.Lib.Paging

/-!
# Merging sorted tables that are read page by page

What is done with the rows of a table may stop before the last of them (`foldUntil`), as it does
where so many are kept (`foldUntil_keep`).  Taking them page by page is taking them one after the
other (`takePages_eq`).

Several tables are read as one: each has a buffer of rows already read, a table whose buffer is
empty is read on, and the next row is the least of the rows at the front of the buffers.  The rows
so come in the order of their keys, whatever the tables are (`merge_eq`).
-/

set_option autoImplicit false

namespace Paging

variable {K α S β γ ε σ : Type}

/-! ## Folding until enough is seen -/

/-- Takes one row after the other, until a row says that it was the last; whether one has. -/
def foldUntil (take : σ → β → Except ε (σ × Bool)) : σ → List β → Except ε (σ × Bool)
  | s, [] => .ok (s, false)
  | s, e :: es =>
    match take s e with
    | .error err => .error err
    | .ok (s, true) => .ok (s, true)
    | .ok (s, false) => foldUntil take s es

/-- The first rows, where there is a limit. -/
def firstOf (limit : Option ℕ) (rows : List γ) : List γ :=
  match limit with
  | none => rows
  | some n => rows.take n

/-- As many rows as there may be. -/
def full (limit : Option ℕ) (rows : List γ) : Bool := limit.any (· ≤ rows.length)

theorem foldUntil_append {take : σ → β → Except ε (σ × Bool)} {rows rows' : List β} {s : σ} :
    foldUntil take s (rows ++ rows') =
      match foldUntil take s rows with
      | .error err => .error err
      | .ok (s, true) => .ok (s, true)
      | .ok (s, false) => foldUntil take s rows' := by
  induction rows generalizing s with
  | nil => rfl
  | cons e rows ih =>
    rw [List.cons_append, foldUntil, foldUntil]
    split
    · rfl
    · rfl
    · exact ih

/-- **Rows that are kept until there are as many as there may be** are the first of those to keep.
-/
theorem foldUntil_keep {take : List γ → β → Except ε (List γ × Bool)} {keep : β → Option γ}
    {limit : Option ℕ} {rows : List β} {out : List γ}
    (htake : ∀ out, full limit out = false → ∀ e ∈ rows, take out e =
      .ok (out ++ (keep e).toList, full limit (out ++ (keep e).toList)))
    (hout : full limit out = false) :
    ∃ stopped, foldUntil take out rows =
      .ok (firstOf limit (out ++ rows.filterMap keep), stopped) := by
  have hle {l : List γ} (h : full limit l = false) : firstOf limit l = l := by
    cases limit with
    | none => rfl
    | some n =>
      have hn : ¬ n ≤ l.length := by simpa [full] using h
      exact List.take_of_length_le (by omega)
  induction rows generalizing out with
  | nil =>
    refine ⟨false, ?_⟩
    rw [foldUntil, List.filterMap_nil, List.append_nil, hle hout]
  | cons e rows ih =>
    have hnext : (out ++ (keep e).toList) ++ rows.filterMap keep =
        out ++ (e :: rows).filterMap keep := by
      rw [List.append_assoc]
      cases hk : keep e <;> simp [hk]
    rw [foldUntil, htake out hout e List.mem_cons_self, ← hnext]
    cases hfull : full limit (out ++ (keep e).toList) with
    | false => exact ih (fun out' ho e' he' ↦ htake out' ho e' (List.mem_cons_of_mem _ he')) hfull
    | true =>
      refine ⟨true, ?_⟩
      -- the row has filled what there may be
      cases limit with
      | none => cases hfull
      | some n =>
        have hn : n ≤ (out ++ (keep e).toList).length := by simpa [full] using hfull
        have ho : ¬ n ≤ out.length := by simpa [full] using hout
        have hlength : (out ++ (keep e).toList).length ≤ n := by
          rw [List.length_append]
          cases keep e <;> simp <;> omega
        dsimp only [firstOf]
        rw [List.take_append_of_le_length hn, List.take_of_length_le hlength]

variable [LinearOrder K]

/-! ## Page by page -/

/-- Takes the rows of a table page by page, until one says that it was the last or a page is not
full.  `none` where the fuel runs out. -/
def takePages (read : Option K → ℕ → List (K × α)) (size : ℕ)
    (take : σ → K × α → Except ε (σ × Bool)) : ℕ → Option K → σ → Except ε (Option σ)
  | 0, _, _ => .ok none
  | fuel + 1, cursor, s =>
    let page := read cursor size
    match foldUntil take s page with
    | .error err => .error err
    | .ok (s, true) => .ok (some s)
    | .ok (s, false) =>
      if page.length < size then .ok (some s)
      else takePages read size take fuel (lastKey page) s

/-- **Taking the rows page by page is taking them one after the other.** -/
theorem takePages_eq {read : Option K → ℕ → List (K × α)} {size : ℕ} {rows : List (K × α)}
    {take : σ → K × α → Except ε (σ × Bool)} (hsorted : rows.Pairwise (·.1 < ·.1))
    (hsize : 0 < size) (hread : ∀ c, read c size = (rowsPast rows c).take size) :
    ∀ {fuel : ℕ} {cursor : Option K} {s : σ}, (rowsPast rows cursor).length < fuel →
      takePages read size take fuel cursor s =
        (foldUntil take s (rowsPast rows cursor)).map fun p ↦ some p.1
  | 0, _, _, hfuel => absurd hfuel (Nat.not_lt_zero _)
  | fuel + 1, cursor, s, hfuel => by
    rw [takePages, hread]
    set rest := rowsPast rows cursor with hrest
    have hfold : foldUntil take s (rest.take size ++ rest.drop size) = _ := foldUntil_append
    rw [List.take_append_drop] at hfold
    rw [hfold]
    cases foldUntil take s (rest.take size) with
    | error err => rfl
    | ok p =>
      obtain ⟨s', stopped⟩ := p
      cases stopped with
      | true => rfl
      | false =>
        dsimp only
        by_cases hshort : (rest.take size).length < size
        · have hdrop : rest.drop size = [] := by
            rw [List.length_take] at hshort
            exact List.drop_eq_nil_of_le (by omega)
          rw [if_pos hshort, hdrop]
          rfl
        · have hfull : (rest.take size).length = size := by
            rw [List.length_take] at hshort ⊢
            omega
          obtain ⟨hnext, -⟩ := rowsPast_lastKey hsorted hsize hfull
          rw [if_neg hshort, ← hnext]
          refine takePages_eq hsorted hsize hread ?_
          rw [hnext, List.length_drop, ← hrest]
          rw [List.length_take] at hfull
          omega

/-! ## From cursor to cursor -/

/-- Reads page after page, each past the last row of the one before, until one is empty.  `none`
where the fuel runs out. -/
def readPages (page : Option K → Except ε (Option (List γ))) (key : γ → K) :
    ℕ → Option K → Except ε (Option (List (List γ)))
  | 0, _ => .ok none
  | fuel + 1, after =>
    match page after with
    | .error err => .error err
    | .ok none => .ok none
    | .ok (some rows) =>
      match rows.getLast? with
      | none => .ok (some [])
      | some last => (readPages page key fuel (some (key last))).map (·.map (rows :: ·))

/-- **The pages are the rows in order, each once**, where each page is the first rows past its
cursor. -/
theorem readPages_eq {page : Option K → Except ε (Option (List γ))} {key : γ → K} {n : ℕ}
    {rows : List (K × γ)} (hsorted : rows.Pairwise (·.1 < ·.1)) (hkey : ∀ e ∈ rows, key e.2 = e.1)
    (hn : 0 < n) (hpage : ∀ c, page c = .ok (some (((rowsPast rows c).take n).map (·.2)))) :
    ∀ {fuel : ℕ} {after : Option K}, (rowsPast rows after).length < fuel →
      ∃ pages, readPages page key fuel after = .ok (some pages) ∧
        pages.flatten = (rowsPast rows after).map (·.2) ∧ ∀ p ∈ pages, p.length ≤ n
  | 0, _, hfuel => absurd hfuel (Nat.not_lt_zero _)
  | fuel + 1, after, hfuel => by
    rw [readPages, hpage]
    dsimp only
    rw [List.getLast?_map]
    cases hlast : ((rowsPast rows after).take n).getLast? with
    | none =>
      -- nothing is left, since a page is empty only where no row is
      refine ⟨[], rfl, ?_, by simp⟩
      have hnil := List.getLast?_eq_none_iff.mp hlast
      rw [List.take_eq_nil_iff] at hnil
      rw [hnil.resolve_left hn.ne']
      rfl
    | some e =>
      have hmem : e ∈ (rowsPast rows after).take n := List.mem_of_getLast? hlast
      have hnext := rowsPast_getLast hsorted hlast
      have hshort : (rowsPast rows (some e.1)).length < fuel := by
        have hpos := List.length_pos_of_mem hmem
        rw [List.length_take] at hpos
        rw [hnext, List.length_drop]
        omega
      obtain ⟨pages, hpages, hflat, hlength⟩ := readPages_eq hsorted hkey hn hpage hshort
      refine ⟨((rowsPast rows after).take n).map (·.2) :: pages, ?_, ?_, ?_⟩
      · rw [Option.map_some]
        dsimp only
        rw [hkey e (List.mem_of_mem_filter (List.mem_of_mem_take hmem)), hpages]
        rfl
      · rw [List.flatten_cons, hflat, hnext, ← List.map_append, List.take_append_drop]
      · intro p hp
        rcases List.mem_cons.mp hp with rfl | hp
        · rw [List.length_map, List.length_take]
          exact Nat.min_le_left _ _
        · exact hlength p hp

/-- From the first row on the pages are all the rows. -/
theorem readPages_all {page : Option K → Except ε (Option (List γ))} {key : γ → K} {n : ℕ}
    {rows : List (K × γ)} (hsorted : rows.Pairwise (·.1 < ·.1)) (hkey : ∀ e ∈ rows, key e.2 = e.1)
    (hn : 0 < n) (hpage : ∀ c, page c = .ok (some (((rowsPast rows c).take n).map (·.2))))
    {fuel : ℕ} (hfuel : rows.length < fuel) :
    ∃ pages, readPages page key fuel none = .ok (some pages) ∧
      pages.flatten = rows.map (·.2) ∧ ∀ p ∈ pages, p.length ≤ n := by
  have hall : (rowsPast rows none).length < fuel := by rwa [rowsPast_none]
  have hpages := readPages_eq hsorted hkey hn hpage hall
  rwa [rowsPast_none] at hpages

/-! ## The tables -/

/-- A table that is read page by page: how far, what of it is not taken yet, and whether it has been
read to its end. -/
structure PagedRun (S K α : Type) where
  source : S
  cursor : Option K
  buf : List (K × α)
  done : Bool

/-- A table whose rows past `after` are to be read. -/
def PagedRun.start (after : Option K) (source : S) : PagedRun S K α := ⟨source, after, [], false⟩

/-- The table read on, where nothing of it is left to take. -/
def PagedRun.refill (read : S → Option K → ℕ → List (K × α)) (size : ℕ) (r : PagedRun S K α) :
    PagedRun S K α :=
  if r.buf.isEmpty && !r.done then
    let page := read r.source r.cursor size
    { r with
      done := page.length < size
      cursor := (lastKey page).or r.cursor
      buf := page }
  else r

/-- The least row at the front of a buffer, the first of several, and the tables without it. -/
def popMin : List (PagedRun S K α) → Option ((K × α) × List (PagedRun S K α))
  | [] => none
  | r :: rs =>
    match r.buf, popMin rs with
    | [], next => next.map fun p ↦ (p.1, r :: p.2)
    | e :: buf, none => some (e, { r with buf := buf } :: rs)
    | e :: buf, some (e', rs') =>
      if e.1 ≤ e'.1 then some (e, { r with buf := buf } :: rs) else some (e', r :: rs')

/-- Takes the rows of the tables in the order of their keys.  `none` where the fuel runs out. -/
def merge (read : S → Option K → ℕ → List (K × α)) (size : ℕ)
    (take : σ → K × α → Except ε (σ × Bool)) :
    ℕ → List (PagedRun S K α) → σ → Except ε (Option σ)
  | 0, _, _ => .ok none
  | fuel + 1, runs, s =>
    match popMin (runs.map (PagedRun.refill read size)) with
    | none => .ok (some s)
    | some (e, runs) =>
      match take s e with
      | .error err => .error err
      | .ok (s, true) => .ok (some s)
      | .ok (s, false) => merge read size take fuel runs s

/-! ## What is left to take -/

section Rest

variable {read : S → Option K → ℕ → List (K × α)} {size : ℕ} {rows : S → List (K × α)}
  {r : PagedRun S K α} {runs : List (PagedRun S K α)}

/-- What is left to take of a table. -/
def PagedRun.rest (rows : S → List (K × α)) (r : PagedRun S K α) : List (K × α) :=
  r.buf ++ if r.done then [] else rowsPast (rows r.source) r.cursor

theorem PagedRun.rest_start (after : Option K) (s : S) :
    (PagedRun.start after s).rest rows = rowsPast (rows s) after := rfl

/-- Reading on takes nothing. -/
theorem PagedRun.rest_refill (hsorted : ∀ s, (rows s).Pairwise (·.1 < ·.1)) (hsize : 0 < size)
    (hread : ∀ s c, read s c size = (rowsPast (rows s) c).take size) (r : PagedRun S K α) :
    (r.refill read size).rest rows = r.rest rows := by
  rw [PagedRun.refill]
  split
  · rename_i hread'
    rw [Bool.and_eq_true, List.isEmpty_iff, Bool.not_eq_true'] at hread'
    obtain ⟨hbuf, hdone⟩ := hread'
    rw [PagedRun.rest, PagedRun.rest, hbuf, hdone, List.nil_append, if_neg Bool.false_ne_true,
      hread]
    dsimp only
    by_cases hfull : ((rowsPast (rows r.source) r.cursor).take size).length < size
    · rw [if_pos (decide_eq_true hfull), List.append_nil]
      rw [List.length_take] at hfull
      exact List.take_of_length_le (by omega)
    · have hlength : ((rowsPast (rows r.source) r.cursor).take size).length = size := by
        rw [List.length_take] at hfull ⊢
        omega
      obtain ⟨hnext, e, -, hkey⟩ := rowsPast_lastKey (hsorted r.source) hsize hlength
      rw [if_neg (by rw [decide_eq_false hfull]; exact Bool.false_ne_true)]
      rw [hkey] at hnext ⊢
      rw [Option.some_or, hnext, List.take_append_drop]
  · rfl

/-- A table read on whose buffer is empty is at its end. -/
theorem PagedRun.rest_eq_nil (hsize : 0 < size) (h : (r.refill read size).buf = []) :
    (r.refill read size).rest rows = [] := by
  rw [PagedRun.rest, h, List.nil_append]
  rw [PagedRun.refill] at h ⊢
  split at h <;> rename_i hread'
  · rw [if_pos hread']
    have hpage : read r.source r.cursor size = [] := h
    simp [hpage, hsize]
  · rw [if_neg hread']
    rw [Bool.and_eq_true, List.isEmpty_iff, Bool.not_eq_true'] at hread'
    have hdone : r.done = true := by
      by_contra hdone
      exact hread' ⟨h, Bool.eq_false_of_not_eq_true hdone⟩
    rw [if_pos hdone]

/-- Nothing is left where there is no least row. -/
theorem popMin_none (h : popMin runs = none) : ∀ r ∈ runs, r.buf = [] := by
  induction runs with
  | nil => exact fun r hr ↦ nomatch hr
  | cons r rs ih =>
    rw [popMin] at h
    cases hbuf : r.buf with
    | nil =>
      simp only [hbuf, Option.map_eq_none_iff] at h
      intro r' hr'
      rcases List.mem_cons.mp hr' with rfl | hr'
      · exact hbuf
      · exact ih h r' hr'
    | cons e buf =>
      simp only [hbuf] at h
      split at h
      · cases ‹_ :: _ = []›
      · cases h
      · split at h <;> cases h

/-- **The least row** is at the front of a buffer and before every other, and what is left is all
but it. -/
theorem popMin_some (rows : S → List (K × α)) {e : K × α} {runs' : List (PagedRun S K α)}
    (h : popMin runs = some (e, runs')) :
    (∀ r ∈ runs, ∀ e' ∈ r.buf.head?, e.1 ≤ e'.1) ∧
      (runs.flatMap (PagedRun.rest rows)).Perm (e :: runs'.flatMap (PagedRun.rest rows)) ∧
      ∀ r' ∈ runs', r' ∈ runs ∨ ∃ r ∈ runs, r.rest rows = e :: r'.rest rows := by
  induction runs generalizing e runs' with
  | nil => cases h
  | cons r rs ih =>
    -- the front of the first table is taken
    have htaken {e₀ : K × α} {buf : List (K × α)} (hbuf : r.buf = e₀ :: buf) :
        r.rest rows = e₀ :: PagedRun.rest rows { r with buf := buf } := by
      rw [PagedRun.rest, hbuf]
      rfl
    -- or that of a later one
    have hlater {p : (K × α) × List (PagedRun S K α)} (hp : popMin rs = some p)
        (hhead : ∀ e' ∈ r.buf.head?, p.1.1 ≤ e'.1) :
        (∀ r' ∈ r :: rs, ∀ e' ∈ r'.buf.head?, p.1.1 ≤ e'.1) ∧
          ((r :: rs).flatMap (PagedRun.rest rows)).Perm
            (p.1 :: (r :: p.2).flatMap (PagedRun.rest rows)) ∧
          ∀ r' ∈ r :: p.2, r' ∈ r :: rs ∨ ∃ r₀ ∈ r :: rs, r₀.rest rows = p.1 :: r'.rest rows := by
      obtain ⟨hle, hperm, hrest⟩ := ih hp
      refine ⟨fun r' hr' ↦ ?_, ?_, fun r' hr' ↦ ?_⟩
      · rcases List.mem_cons.mp hr' with rfl | hr'
        · exact hhead
        · exact hle r' hr'
      · rw [List.flatMap_cons, List.flatMap_cons]
        exact (hperm.append_left _).trans List.perm_middle
      · rcases List.mem_cons.mp hr' with rfl | hr'
        · exact .inl List.mem_cons_self
        · refine (hrest r' hr').imp (List.mem_cons_of_mem _) ?_
          rintro ⟨r₀, hr₀, heq⟩
          exact ⟨r₀, List.mem_cons_of_mem _ hr₀, heq⟩
    have hfirst {e₀ : K × α} {buf : List (K × α)} (hbuf : r.buf = e₀ :: buf)
        (hle : ∀ r' ∈ rs, ∀ e' ∈ r'.buf.head?, e₀.1 ≤ e'.1) :
        (∀ r' ∈ r :: rs, ∀ e' ∈ r'.buf.head?, e₀.1 ≤ e'.1) ∧
          ((r :: rs).flatMap (PagedRun.rest rows)).Perm
            (e₀ :: ({ r with buf := buf } :: rs).flatMap (PagedRun.rest rows)) ∧
          ∀ r' ∈ ({ r with buf := buf } :: rs : List (PagedRun S K α)), r' ∈ r :: rs ∨
            ∃ r₀ ∈ r :: rs, r₀.rest rows = e₀ :: r'.rest rows := by
      refine ⟨fun r' hr' e' he' ↦ ?_, ?_, fun r' hr' ↦ ?_⟩
      · rcases List.mem_cons.mp hr' with rfl | hr'
        · rw [hbuf] at he'
          cases he'
          exact le_refl _
        · exact hle r' hr' e' he'
      · rw [List.flatMap_cons, htaken hbuf, List.flatMap_cons]
        rfl
      · rcases List.mem_cons.mp hr' with rfl | hr'
        · exact .inr ⟨r, List.mem_cons_self, htaken hbuf⟩
        · exact .inl (List.mem_cons_of_mem _ hr')
    rw [popMin] at h
    cases hbuf : r.buf with
    | nil =>
      simp only [hbuf, Option.map_eq_some_iff] at h
      obtain ⟨p, hp, hpair⟩ := h
      cases hpair
      exact hlater hp (by simp [hbuf])
    | cons e₀ buf =>
      cases hnext : popMin rs with
      | none =>
        simp only [hbuf, hnext] at h
        cases h
        refine hfirst hbuf fun r' hr' e' he' ↦ ?_
        rw [popMin_none hnext r' hr'] at he'
        cases he'
      | some p =>
        simp only [hbuf, hnext] at h
        split at h <;> rename_i hle
        · cases h
          exact hfirst hbuf fun r' hr' e' he' ↦ hle.trans ((ih hnext).1 r' hr' e' he')
        · cases h
          refine hlater hnext ?_
          rw [hbuf]
          rintro e' he'
          cases he'
          exact (not_le.mp hle).le

/-- **The rows are taken in the order of their keys.** -/
theorem merge_eq {take : σ → K × α → Except ε (σ × Bool)}
    (hsorted : ∀ s, (rows s).Pairwise (·.1 < ·.1)) (hsize : 0 < size)
    (hread : ∀ s c, read s c size = (rowsPast (rows s) c).take size) :
    ∀ {L : List (K × α)} {runs : List (PagedRun S K α)} {fuel : ℕ} {s : σ},
      L.Pairwise (·.1 < ·.1) → (runs.flatMap (PagedRun.rest rows)).Perm L →
      (∀ r ∈ runs, (r.rest rows).Pairwise (·.1 < ·.1)) → L.length < fuel →
      merge read size take fuel runs s = (foldUntil take s L).map fun p ↦ some p.1
  | _, _, 0, _, _, _, _, hfuel => absurd hfuel (Nat.not_lt_zero _)
  | L, runs, fuel + 1, s, hL, hperm, hruns, hfuel => by
    have hrest : (runs.map (PagedRun.refill read size)).flatMap (PagedRun.rest rows) =
        runs.flatMap (PagedRun.rest rows) := by
      rw [List.flatMap_map]
      exact List.flatMap_congr fun r _ ↦ r.rest_refill hsorted hsize hread
    rw [merge]
    cases hpop : popMin (runs.map (PagedRun.refill read size)) with
    | none =>
      have hnil : runs.flatMap (PagedRun.rest rows) = [] := by
        rw [← hrest]
        refine List.flatMap_eq_nil_iff.mpr fun r hr ↦ ?_
        have hbuf := popMin_none hpop r hr
        obtain ⟨r₀, -, rfl⟩ := List.mem_map.mp hr
        exact PagedRun.rest_eq_nil hsize hbuf
      rw [hnil] at hperm
      rw [List.nil_perm.mp hperm, foldUntil]
      rfl
    | some p =>
      obtain ⟨e, runs'⟩ := p
      obtain ⟨hle, hpopped, hfrom⟩ := popMin_some rows hpop
      rw [hrest] at hpopped
      have hall := hperm.symm.trans hpopped
      -- the row is the first of all that are left
      cases L with
      | nil => exact absurd hall.symm.eq_nil (List.cons_ne_nil _ _)
      | cons e₀ L =>
        obtain ⟨hfirst, hL'⟩ := List.pairwise_cons.mp hL
        have hmem : e₀ ∈ runs.flatMap (PagedRun.rest rows) := hperm.mem_iff.mpr List.mem_cons_self
        have hsame : e = e₀ := by
          rcases List.mem_cons.mp (hall.symm.mem_iff.mp List.mem_cons_self : e ∈ e₀ :: L) with
            heq | hin
          · exact heq
          · obtain ⟨r, hr, he₀⟩ := List.mem_flatMap.mp hmem
            rw [← r.rest_refill hsorted hsize hread] at he₀
            have hpair : ((r.refill read size).rest rows).Pairwise (·.1 < ·.1) := by
              rw [r.rest_refill hsorted hsize hread]
              exact hruns r hr
            have hr' : r.refill read size ∈ runs.map (PagedRun.refill read size) :=
              List.mem_map_of_mem hr
            cases hbuf : (r.refill read size).buf with
            | nil =>
              rw [PagedRun.rest_eq_nil hsize hbuf] at he₀
              cases he₀
            | cons e' buf =>
              have hhead := hle _ hr' e' (by rw [hbuf]; rfl)
              rw [PagedRun.rest, hbuf, List.cons_append] at he₀ hpair
              have hlt := hfirst e hin
              rcases List.mem_cons.mp he₀ with heq | he₀
              · rw [← heq] at hhead
                exact absurd hlt hhead.not_gt
              · have hbefore := (List.pairwise_cons.mp hpair).1 e₀ he₀
                exact absurd hlt (hhead.trans hbefore.le).not_gt
        subst hsame
        have hleft : (runs'.flatMap (PagedRun.rest rows)).Perm L := (hall.cons_inv).symm
        have hruns' : ∀ r' ∈ runs', (r'.rest rows).Pairwise (·.1 < ·.1) := by
          intro r' hr'
          have hrefilled : ∀ r ∈ runs.map (PagedRun.refill read size),
              (r.rest rows).Pairwise (·.1 < ·.1) := by
            intro r hr
            obtain ⟨r₀, hr₀, rfl⟩ := List.mem_map.mp hr
            rw [r₀.rest_refill hsorted hsize hread]
            exact hruns r₀ hr₀
          rcases hfrom r' hr' with hr' | ⟨r, hr, heq⟩
          · exact hrefilled r' hr'
          · have hpair := hrefilled r hr
            rw [heq] at hpair
            exact (List.pairwise_cons.mp hpair).2
        have hshort : L.length < fuel := by
          simp only [List.length_cons] at hfuel
          omega
        rw [foldUntil]
        dsimp only
        cases take s e with
        | error err => rfl
        | ok next =>
          obtain ⟨s', stop⟩ := next
          cases stop with
          | true => rfl
          | false => exact merge_eq hsorted hsize hread hL' hleft hruns' hshort

end Rest

end Paging
