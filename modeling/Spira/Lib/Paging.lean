import Mathlib.Data.List.Sort
import Spira.Lib.Prefix

/-!
# Reading a sorted table page by page

A table is its rows in the order of their keys, and a page of it is at most so many of the rows
past a key.  A reader that resumes each page after the last key of the one before it misses no row
and reads none twice: what follows a page is what is past its last key (`rowsPast_getLast`).

`scan` is the loop that reads so until it has kept enough rows or reads a page that is not full.
`scan_eq` says what it returns, the first of the rows that it is to keep, and how many pages it
reads at most.
-/

set_option autoImplicit false

namespace Paging

open KeyPrefix (past)

variable {K α ε : Type} [LinearOrder K] {rows : List (K × α)} {after : Option K}

/-- The rows past a key. -/
def rowsPast (rows : List (K × α)) (after : Option K) : List (K × α) :=
  rows.filter fun e ↦ past after e.1

/-- The key the next page resumes after. -/
def lastKey (page : List (K × α)) : Option K := page.getLast?.map Prod.fst

@[simp] theorem rowsPast_none : rowsPast rows none = rows :=
  List.filter_eq_self.mpr fun _ _ ↦ rfl

theorem sorted_rowsPast (hl : rows.Pairwise (·.1 < ·.1)) :
    (rowsPast rows after).Pairwise (·.1 < ·.1) :=
  hl.filter _

/-- What follows a page is what is past its last key. -/
theorem rowsPast_getLast {n : ℕ} {e : K × α} (hl : rows.Pairwise (·.1 < ·.1))
    (he : ((rowsPast rows after).take n).getLast? = some e) :
    rowsPast rows (some e.1) = (rowsPast rows after).drop n := by
  have hsorted : (rowsPast rows after).Pairwise (·.1 < ·.1) := sorted_rowsPast hl
  have hmem : e ∈ rowsPast rows after := List.mem_of_mem_take (List.mem_of_getLast? he)
  -- only rows past `after` are past `e`, which is itself past it
  have hsub : rowsPast rows (some e.1) = (rowsPast rows after).filter fun e' ↦
      past (some e.1) e'.1 := by
    rw [rowsPast, rowsPast, List.filter_filter]
    refine List.filter_congr fun e' _ ↦ ?_
    rw [Bool.eq_iff_iff, Bool.and_eq_true, KeyPrefix.past_some]
    refine ⟨fun h ↦ ⟨h, ?_⟩, fun h ↦ h.1⟩
    cases after with
    | none => rfl
    | some a =>
      have ha := (List.mem_filter.mp hmem).2
      rw [KeyPrefix.past_some] at ha ⊢
      exact ha.trans h
  obtain ⟨init, htake⟩ := List.getLast?_eq_some_iff.mp he
  have happ := List.take_append_drop n (rowsPast rows after)
  rw [htake] at happ
  rw [← happ] at hsorted
  obtain ⟨hinit, -, hlater⟩ := List.pairwise_append.mp hsorted
  obtain ⟨-, -, hlast⟩ := List.pairwise_append.mp hinit
  rw [hsub, ← happ, List.filter_append, List.filter_eq_nil_iff.mpr, List.nil_append,
    List.filter_eq_self.mpr]
  · rw [happ]
  · intro e' he'
    rw [KeyPrefix.past_some]
    exact hlater e (by simp) e' he'
  · intro e' he'
    rw [KeyPrefix.past_some, not_lt]
    obtain he' | he' := List.mem_append.mp he'
    · exact (hlast e' he' e (by simp)).le
    · rw [List.mem_singleton.mp he']

/-- After a full page the table goes on past its last key. -/
theorem rowsPast_lastKey {n : ℕ} (hl : rows.Pairwise (·.1 < ·.1)) (hn : 0 < n)
    (hfull : ((rowsPast rows after).take n).length = n) :
    rowsPast rows (lastKey ((rowsPast rows after).take n)) = (rowsPast rows after).drop n ∧
      ∃ e ∈ rows, lastKey ((rowsPast rows after).take n) = some e.1 := by
  cases hlast : ((rowsPast rows after).take n).getLast? with
  | none =>
    rw [List.getLast?_eq_none_iff.mp hlast] at hfull
    exact absurd hfull hn.ne
  | some e =>
    have hkey : lastKey ((rowsPast rows after).take n) = some e.1 := by
      rw [lastKey, hlast, Option.map_some]
    rw [hkey]
    exact ⟨rowsPast_getLast hl hlast, e,
      List.mem_of_mem_filter (List.mem_of_mem_take (List.mem_of_getLast? hlast)), rfl⟩

/-- A filter leaves a page as it is if and only if it keeps every row of the page. -/
theorem take_filter_iff {β : Type} {q : β → Bool} :
    ∀ {l : List β} {n : ℕ}, (l.filter q).take n = l.take n ↔ ∀ e ∈ l.take n, q e
  | [], n => by simp
  | e :: l, 0 => by simp
  | e :: l, n + 1 => by
    by_cases he : q e
    · rw [List.filter_cons_of_pos he, List.take_succ_cons, List.take_succ_cons, List.forall_mem_cons,
        List.cons_inj_right, take_filter_iff]
      exact (and_iff_right he).symm
    · rw [List.filter_cons_of_neg he, List.take_succ_cons]
      refine ⟨fun h ↦ ?_, fun h ↦ absurd (h e List.mem_cons_self) he⟩
      -- the page would begin with a row that the filter drops
      have hmem : e ∈ l.filter q := List.mem_of_mem_take (h ▸ List.mem_cons_self)
      exact absurd (List.of_mem_filter hmem) he

/-! ## Reading until enough is kept -/

/-- Reads pages of `size` rows, each resumed after the last key of the one before, and keeps what
`keep` selects until `limit` rows are kept or a page is not full.  `none` where the fuel runs out.
-/
def scan (read : Option K → ℕ → Except ε (List (K × α))) (keep : K × α → Bool) (size limit : ℕ) :
    ℕ → Option K → List (K × α) → Except ε (Option (List (K × α)))
  | 0, _, _ => .ok none
  | fuel + 1, cursor, out =>
    if out.length < limit then do
      let page ← read cursor size
      if page.length = size then
        scan read keep size limit fuel (lastKey page) (out ++ page.filter keep)
      else
        return some ((out ++ page.filter keep).take limit)
    else
      return some (out.take limit)

variable {read : Option K → ℕ → Except ε (List (K × α))} {keep : K × α → Bool} {size limit : ℕ}

/-- A scan of a table whose reads answer wherever it resumes returns the first `limit` rows that it
is to keep, and has read at most one page more than there are rows. -/
theorem scan_eq (hl : rows.Pairwise (·.1 < ·.1)) (hsize : 0 < size)
    (hread : ∀ e ∈ rows, read (some e.1) size = .ok ((rowsPast rows (some e.1)).take size)) :
    ∀ {fuel : ℕ} {cursor : Option K} {out : List (K × α)},
      read cursor size = .ok ((rowsPast rows cursor).take size) →
      (rowsPast rows cursor).length < fuel →
      scan read keep size limit fuel cursor out =
        .ok (some ((out ++ (rowsPast rows cursor).filter keep).take limit))
  | 0, _, _, _, hfuel => absurd hfuel (Nat.not_lt_zero _)
  | fuel + 1, cursor, out, hcursor, hfuel => by
    rw [scan]
    by_cases hlen : out.length < limit
    · rw [if_pos hlen, hcursor]
      simp only [bind, Except.bind]
      set rest := rowsPast rows cursor with hrest
      have happ : (rest.take size).filter keep ++ (rest.drop size).filter keep =
          rest.filter keep := by
        rw [← List.filter_append, List.take_append_drop]
      by_cases hfull : (rest.take size).length = size
      · obtain ⟨hnext, e, he, hkey⟩ := rowsPast_lastKey hl hsize hfull
        rw [if_pos hfull, ← happ, ← List.append_assoc, ← hnext]
        refine scan_eq hl hsize hread ?_ ?_
        · rw [hkey]
          exact hread e he
        · rw [hnext, List.length_drop, ← hrest]
          rw [List.length_take] at hfull
          omega
      · have hdrop : rest.drop size = [] := by
          rw [List.length_take] at hfull
          exact List.drop_eq_nil_of_le (by omega)
        rw [if_neg hfull, ← happ, hdrop, List.filter_nil, List.append_nil]
        rfl
    · rw [if_neg hlen, List.take_append_of_le_length (by omega)]
      rfl

omit [LinearOrder K] in
/-- A scan whose first page is empty returns what it has. -/
theorem scan_of_empty {fuel : ℕ} {cursor : Option K} (hsize : 0 < size)
    (hread : read cursor size = .ok []) :
    scan read keep size limit (fuel + 1) cursor [] = .ok (some []) := by
  rw [scan, hread]
  split
  · simp only [bind, Except.bind, List.length_nil, hsize.ne, if_false]
    simp [pure, Except.pure]
  · rw [List.take_nil]
    rfl

end Paging
