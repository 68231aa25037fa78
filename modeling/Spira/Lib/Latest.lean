import Mathlib.Data.List.Basic
import Mathlib.Data.List.Dedup
import Mathlib.Order.MinMax
import Std.Data.ExtTreeMap

/-!
# The greatest value of each key

A map that keeps the greatest value seen of each key (`raise`), and the map that is built of a whole
list at once, a group of a key's values at a time (`groupMax`).  Raising by the pairs of a list is
grouping them, in whatever order and however many at a time they come (`foldl_raise_empty`).
-/

set_option autoImplicit false

namespace Latest

open Std (ExtTreeMap TransOrd LawfulEqOrd)

variable {κ ν : Type}

section Values

variable [DecidableEq κ] {k : κ} {l l' : List (κ × ν)}

/-- The values a list has of `k`. -/
def valuesOf (k : κ) (l : List (κ × ν)) : List ν := (l.filter (·.1 = k)).map (·.2)

theorem mem_valuesOf {v : ν} : v ∈ valuesOf k l ↔ (k, v) ∈ l := by
  simp [valuesOf]

theorem valuesOf_append : valuesOf k (l ++ l') = valuesOf k l ++ valuesOf k l' := by
  rw [valuesOf, List.filter_append, List.map_append, valuesOf, valuesOf]

theorem valuesOf_eq_nil : valuesOf k l = [] ↔ k ∉ l.map (·.1) := by
  constructor
  · intro h hk
    obtain ⟨⟨k, v⟩, hp, rfl⟩ := List.mem_map.mp hk
    have hv : v ∈ valuesOf k l := mem_valuesOf.mpr hp
    rw [h] at hv
    cases hv
  · intro h
    refine List.eq_nil_iff_forall_not_mem.mpr fun v hv ↦ h ?_
    exact List.mem_map_of_mem (f := Prod.fst) (mem_valuesOf.mp hv)

end Values

variable [DecidableEq κ] [Ord κ] [TransOrd κ] [LawfulEqOrd κ] [LinearOrder ν]

/-- The map with the pair in it, unless its key has a value as great. -/
def raise (m : ExtTreeMap κ ν) (p : κ × ν) : ExtTreeMap κ ν :=
  if m[p.1]?.all (· < p.2) then m.insert p.1 p.2 else m

/-- Each key of the list with the greatest of its values. -/
def groupMax (l : List (κ × ν)) : ExtTreeMap κ ν :=
  .ofList <| (l.map (·.1)).dedup.filterMap fun k ↦ (valuesOf k l).max?.map (k, ·)

variable {k : κ} {m : ExtTreeMap κ ν} {p : κ × ν} {l l' : List (κ × ν)}

omit [DecidableEq κ] [Ord κ] [TransOrd κ] [LawfulEqOrd κ] in
/-- The maximum of what comes after the maximum of what came before. -/
theorem max?_append (l l' : List ν) : (l.max?.toList ++ l').max? = (l ++ l').max? := by
  cases l with
  | nil => rfl
  | cons a l =>
    rw [List.max?_cons', Option.toList_some, List.singleton_append, List.cons_append, List.max?_cons',
      List.max?_cons', List.foldl_append]

omit [DecidableEq κ] [Ord κ] [TransOrd κ] [LawfulEqOrd κ] in
/-- A maximum is of what a list has, not of where and how often it has it. -/
theorem max?_congr {l l' : List ν} (h : ∀ v, v ∈ l ↔ v ∈ l') : l.max? = l'.max? := by
  cases hv : l.max? with
  | none =>
    obtain rfl := List.max?_eq_none_iff.mp hv
    have hnil : l' = [] := List.eq_nil_iff_forall_not_mem.mpr fun v hv ↦ by simpa using (h v).mpr hv
    rw [hnil, List.max?_nil]
  | some v =>
    obtain ⟨hmem, hle⟩ := List.max?_eq_some_iff.mp hv
    exact (List.max?_eq_some_iff.mpr ⟨(h v).mp hmem, fun u hu ↦ hle u ((h u).mpr hu)⟩).symm

theorem getElem?_raise : (raise m p)[k]? = (m[k]?.toList ++ valuesOf k [p]).max? := by
  obtain ⟨k', v⟩ := p
  by_cases hk : k' = k
  · subst hk
    have hvalues : valuesOf k' [(k', v)] = [v] := by simp [valuesOf]
    rw [hvalues, raise]
    cases hm : m[k']? with
    | none => simp
    | some u =>
      by_cases huv : u < v
      · simp [huv, max_eq_right huv.le]
      · simp [huv, hm, max_eq_left (not_lt.mp huv)]
  · have hvalues : valuesOf k [(k', v)] = [] := by simp [valuesOf, hk]
    have hsame : (raise m (k', v))[k]? = m[k]? := by
      rw [raise]
      split
      · rw [ExtTreeMap.getElem?_insert, if_neg (mt Std.LawfulEqCmp.eq_of_compare hk)]
      · rfl
    rw [hvalues, hsame, List.append_nil]
    cases m[k]? <;> rfl

/-- **Raised by a list**, a map has of each key the greatest of what it had and what the list has.
-/
theorem getElem?_foldl_raise :
    (l.foldl raise m)[k]? = (m[k]?.toList ++ valuesOf k l).max? := by
  induction l generalizing m with
  | nil =>
    rw [List.foldl_nil, valuesOf_eq_nil.mpr List.not_mem_nil, List.append_nil]
    cases m[k]? <;> rfl
  | cons p l ih =>
    rw [List.foldl_cons, ih, getElem?_raise, max?_append, List.append_assoc, ← valuesOf_append,
      List.singleton_append]

theorem getElem?_groupMax : (groupMax l)[k]? = (valuesOf k l).max? := by
  cases hv : (valuesOf k l).max? with
  | none =>
    refine ExtTreeMap.getElem?_ofList_of_contains_eq_false ?_
    rw [Bool.eq_false_iff, ne_eq, List.contains_iff_mem, List.mem_map]
    rintro ⟨q, hq, rfl⟩
    obtain ⟨k, -, hk⟩ := List.mem_filterMap.mp hq
    obtain ⟨v, hv', rfl⟩ := Option.map_eq_some_iff.mp hk
    rw [hv] at hv'
    cases hv'
  | some v =>
    refine ExtTreeMap.getElem?_ofList_of_mem (k := k) Std.ReflCmp.compare_self ?_ ?_
    · -- A key is there once, with its one maximum.
      refine List.Pairwise.filterMap (R := (· ≠ ·)) _ (fun a b hab p hp q hq ↦ ?_) (List.nodup_dedup _)
      obtain ⟨_, -, rfl⟩ := Option.map_eq_some_iff.mp hp
      obtain ⟨_, -, rfl⟩ := Option.map_eq_some_iff.mp hq
      exact mt Std.LawfulEqCmp.eq_of_compare hab
    · refine List.mem_filterMap.mpr ⟨k, List.mem_dedup.mpr ?_, by rw [hv]; rfl⟩
      by_contra hno
      rw [valuesOf_eq_nil.mpr hno] at hv
      cases hv

/-- **Raising and grouping come to one map.** -/
theorem foldl_raise_empty : l.foldl raise ∅ = groupMax l := by
  refine ExtTreeMap.ext_getElem? fun {k} ↦ ?_
  rw [getElem?_foldl_raise, getElem?_groupMax, ExtTreeMap.getElem?_empty]
  rfl

/-- What a map was grouped of, raised by more, is what it is grouped of all. -/
theorem foldl_raise_groupMax : l'.foldl raise (groupMax l) = groupMax (l ++ l') := by
  rw [← foldl_raise_empty, ← List.foldl_append, foldl_raise_empty]

/-- A map is grouped of what a list has, not of where and how often it has it. -/
theorem groupMax_congr (h : ∀ p, p ∈ l ↔ p ∈ l') : groupMax l = groupMax l' := by
  refine ExtTreeMap.ext_getElem? fun {k} ↦ ?_
  rw [getElem?_groupMax, getElem?_groupMax]
  refine max?_congr fun v ↦ ?_
  rw [mem_valuesOf, mem_valuesOf, h]

end Latest
