import Spira.StateStore.Listing

/-!
# Pages of a prefix, of what the collector visits, and of one state

Both backends page by key: under a prefix, over everything outside the audit history, and over the
objects whose data has a given state.  The reference backend makes the last two out of the first,
by scanning it; the durable one has an index for each, and for the state only at the head.

They do not page alike everywhere.

* The reference backend starts right after `after` and stops at the first key outside the prefix, and
  so returns nothing where `after` is before the prefix and a key stands between the two.
* The scan reads a state as `serde` reads a structure, for which a list of one element is also an
  object with one field; the index asks SQLite for the field of an object.

`paged_alike_iff` says when neither is met.
-/

set_option autoImplicit false

namespace Spira.Store

open KeyPrefix (Byte starts past successor lowerBound)
open Paging (rowsPast scan)

/-! ## The state of an object -/

/-- An object as it is stored: its metadata and its data. -/
structure Stored where
  metadata : Json
  data : Json
  deriving DecidableEq

def Stored.json (o : Stored) : Json := .obj [("metadata", o.metadata), ("data", o.data)]

/-- A structure whose only field may be absent, as `serde` reads it: from an object, or from a
list of exactly its fields.  `none` is a value it cannot be read from. -/
def oneField (field : String) (v : Json) : Option (Option Json) :=
  let given (v : Option Json) : Option Json := if v = some .null then none else v
  match v with
  | .obj fields => some (given (fields.lookup field))
  | .arr [v] => some (given (some v))
  | _ => none

/-- The value's `data.state`, when it is a JSON object carrying one as a string. -/
def stateOf (o : Stored) : Option String :=
  match oneField "data" o.json with
  | some (some data) =>
    match oneField "state" data with
    | some (some (.str s)) => some s
    | _ => none
  | _ => none

/-- How deep SQLite reads JSON. -/
def jsonMaxDepth : ℕ := 1000

/-- The column the index is on: the text at `$.data.state`, of a value that is valid JSON. -/
def indexState (o : Stored) : Option String :=
  if o.json.depth ≤ jsonMaxDepth then
    match (o.json.get "data").bind (·.get "state") with
    | some (.str s) => some s
    | _ => none
  else none

theorem stateOf_eq (o : Stored) :
    stateOf o = match oneField "state" o.data with
      | some (some (.str s)) => some s
      | _ => none := by
  have hdata : oneField "data" o.json = some (if some o.data = some .null then none
      else some o.data) := by
    simp [oneField, Stored.json, List.lookup_cons]
  rw [stateOf, hdata]
  by_cases hnull : o.data = .null
  · simp [hnull, oneField]
  · simp [hnull]

theorem indexState_eq (o : Stored) :
    indexState o = if o.json.depth ≤ jsonMaxDepth then
      match o.data.get "state" with
      | some (.str s) => some s
      | _ => none
    else none := by
  have hdata : o.json.get "data" = some o.data := by
    simp [Stored.json, Json.get, List.lookup_cons]
  rw [indexState, hdata, Option.bind_some]

/-- What the index has under a state, the scan finds under it. -/
theorem stateOf_of_index {o : Stored} {s : String} (h : indexState o = some s) :
    stateOf o = some s := by
  rw [indexState_eq] at h
  rw [stateOf_eq]
  split_ifs at h with hdepth
  cases hd : o.data with
  | obj fields =>
    rw [hd, Json.get] at h
    rw [oneField]
    cases hf : fields.lookup "state" with
    | none => simp [hf] at h
    | some v =>
      cases v <;> simp_all
  | _ => simp [hd, Json.get] at h

/-- The index lacks what the scan reads out of a list, and what nests too deep for SQLite. -/
theorem index_iff {o : Stored} {s : String} (h : stateOf o = some s) :
    indexState o = some s ↔ o.data ≠ .arr [.str s] ∧ o.json.depth ≤ jsonMaxDepth := by
  rw [stateOf_eq] at h
  rw [indexState_eq]
  cases hd : o.data with
  | obj fields =>
    rw [hd, oneField] at h
    cases hf : fields.lookup "state" with
    | none => simp [hf] at h
    | some v => cases v <;> simp_all [Json.get]
  | arr items =>
    rw [hd] at h
    match items, h with
    | [v], h => cases v <;> simp_all [oneField, Json.get]
    | [], h => simp [oneField] at h
    | _ :: _ :: _, h => simp [oneField] at h
  | _ => simp [hd, oneField] at h

/-! ## The three pages -/

/-- The objects under a prefix with a state, strictly after `after`, in key order, at most
`limit`. -/
def Snapshot.inState (m : Snapshot Key Stored) (p : Key) (state : String) (after : Option Key)
    (limit : ℕ) : List (Key × Version Stored) :=
  (m.toList.filter fun e ↦ starts p e.1 && past after e.1 && stateOf e.2.value = some state).take limit

/-- How many rows a scan reads at a time. -/
def scanPage : ℕ := 1000

/-- The pages through `range`, filtered on the state. -/
def rangeInStateByScan (range : Key → Option Key → ℕ → ℕ → Except BackendError
    (List (Key × Version Stored))) (fuel : ℕ) (p : Key) (state : String) (after : Option Key)
    (limit at_ : ℕ) : Except BackendError (Option (List (Key × Version Stored))) :=
  scan (range p · · at_) (fun e ↦ stateOf e.2.value = some state) scanPage limit fuel after []

namespace MemBackend

/-- What the collector visits, by paging through everything. -/
def gcRange {V : Type} (s : MemBackend Key V) (fuel : ℕ) (after : Option Key) (limit at_ : ℕ) :
    Except BackendError (Option (List (Key × Version V))) :=
  scan (s.range [] · · at_) (fun e ↦ !starts SqliteBackend.eventsPrefix e.1) limit limit fuel after []

def rangeInState (s : MemBackend Key Stored) := rangeInStateByScan s.range

end MemBackend

namespace SqliteBackend

/-- Live keys of the index from `lo` up to `hi`, in key order, at most `limit`. -/
def stateRows (s : SqliteBackend Stored) (state : String) (lo : Key) (hi : Option Key) (limit : ℕ) :
    List (Key × Version Stored) :=
  ((s.latest.toList.filter fun e ↦ indexState e.2.value = some state && within lo hi e.1).take
    limit).map fun e ↦ (e.1, e.2.toVersion)

/-- At the head, one range of the index; below it, the scan. -/
def rangeInState (s : SqliteBackend Stored) (fuel : ℕ) (p : Key) (state : String)
    (after : Option Key) (limit at_ : ℕ) :
    Except BackendError (Option (List (Key × Version Stored))) := do
  s.readable at_
  if at_ = s.metaHead then
    return some (s.stateRows state (lowerBound p after) (successor p) limit)
  else rangeInStateByScan s.range fuel p state after limit at_

end SqliteBackend

/-- A call that reads page after page returns these rows, given fuel enough. -/
def Returns {α : Type} (call : ℕ → Except BackendError (Option α)) (rows : α) : Prop :=
  ∃ n, ∀ fuel, n ≤ fuel → call fuel = .ok (some rows)

theorem Returns.eq {α : Type} {call : ℕ → Except BackendError (Option α)} {l l' : α}
    (h : Returns call l) (h' : Returns call l') : l = l' := by
  obtain ⟨n, hn⟩ := h
  obtain ⟨n', hn'⟩ := h'
  have heq := (hn (n + n') (by omega)).symm.trans (hn' (n + n') (by omega))
  simpa using heq

/-! ## What the scans return -/

section Scans

variable {m : Snapshot Key Stored} {a : Mvcc Key Stored} {p : Key} {state : String}
  {after : Option Key} {limit at_ : ℕ}

theorem inState_eq :
    m.inState p state after limit =
      ((rowsPast (rowsUnder m p) after).filter (stateOf ·.2.value = some state)).take limit := by
  rw [Snapshot.inState, rowsPast, rowsUnder, List.filter_filter, List.filter_filter]
  refine congrArg (List.take limit) (List.filter_congr fun e _ ↦ ?_)
  rw [Bool.and_comm (starts p e.1), Bool.and_comm, Bool.and_assoc]

/-- Where a range answers as the snapshot does, the scan of it is right. -/
theorem returns_byScan {range : Key → Option Key → ℕ → ℕ →
      Except BackendError (List (Key × Version Stored))}
    (hrange : ∀ c, c = after ∨ Resumes [p] c → ∀ n, range p c n at_ = .ok (m.range p c n)) :
    Returns (rangeInStateByScan range · p state after limit at_) (m.inState p state after limit) := by
  have hread : ∀ c, c = after ∨ Resumes [p] c →
      range p c scanPage at_ = .ok ((rowsPast (rowsUnder m p) c).take scanPage) := fun c hc ↦ by
    rw [hrange c hc, range_eq_take]
  refine ⟨(rowsPast (rowsUnder m p) after).length + 1, fun fuel hfuel ↦ ?_⟩
  rw [inState_eq]
  refine Paging.scan_eq sorted_rowsUnder (by decide) (fun e he ↦ ?_) (hread after (.inl rfl)) hfuel
  exact hread _ (.inr (KeyPrefix.starts_list.mp (List.mem_filter.mp he).2))

end Scans

namespace MemBackend

variable {V : Type} {s : MemBackend Key V} {a : Mvcc Key V} {p : Key} {after : Option Key}
  {limit at_ : ℕ}

theorem clear_nil : s.Clear [] after := fun _ _ k _ _ ↦ KeyPrefix.nil_le k

theorem Refines.gcRange (h : s.Refines a) (hr : a.readable at_ = .ok ()) (after : Option Key)
    (limit : ℕ) :
    Returns (s.gcRange · after limit at_)
      ((snapshot a.history at_).gcRange SqliteBackend.eventsPrefix after limit) := by
  set m := snapshot a.history at_ with hm
  have hread : ∀ c, s.range [] c limit at_ = .ok ((rowsPast m.toList c).take limit) := fun c ↦ by
    rw [h.range_of_clear clear_nil, Mvcc.range, hr]
    change Except.ok (m.range [] c limit) = _
    rw [Snapshot.range, rowsPast]
    refine congrArg (fun rows ↦ Except.ok (List.take limit rows)) (List.filter_congr fun e _ ↦ ?_)
    rw [KeyPrefix.starts_list.mpr List.nil_prefix, Bool.true_and]
  have hspec : m.gcRange SqliteBackend.eventsPrefix after limit =
      ((rowsPast m.toList after).filter
        (!starts SqliteBackend.eventsPrefix ·.1)).take limit := by
    rw [Snapshot.gcRange, rowsPast, List.filter_filter]
  rw [hspec]
  by_cases hlimit : limit = 0
  · refine ⟨1, fun fuel hfuel ↦ ?_⟩
    obtain ⟨fuel, rfl⟩ : ∃ k, fuel = k + 1 := ⟨fuel - 1, by omega⟩
    change scan _ _ _ _ (fuel + 1) after [] = _
    rw [hlimit, scan, if_neg (by simp)]
    rfl
  · refine ⟨(rowsPast m.toList after).length + 1, fun fuel hfuel ↦ ?_⟩
    exact Paging.scan_eq (KeyMap.pairwise_toList m) (Nat.pos_of_ne_zero hlimit)
      (fun e _ ↦ hread _) (hread after) hfuel

/-- A range is right unless a key stands between `after` and the prefix, and something is to be
returned. -/
theorem Refines.range_iff (h : s.Refines a) (hr : a.readable at_ = .ok ()) (p : Key)
    (after : Option Key) (limit : ℕ) :
    s.range p after limit at_ = .ok ((snapshot a.history at_).range p after limit) ↔
      s.Clear p after ∨ (snapshot a.history at_).range p after limit = [] := by
  by_cases hclear : s.Clear p after
  · rw [h.range_of_clear hclear, Mvcc.range, hr]
    exact ⟨fun _ ↦ .inl hclear, fun _ ↦ rfl⟩
  · rw [range_of_not_clear hclear ((h.readable at_).trans hr), Except.ok.injEq, eq_comm]
    exact ⟨.inr, fun h ↦ h.resolve_left hclear⟩

theorem Refines.rangeInState_iff {s : MemBackend Key Stored} {a : Mvcc Key Stored}
    (h : s.Refines a) (hr : a.readable at_ = .ok ()) (p : Key) (state : String)
    (after : Option Key) (limit : ℕ) :
    Returns (s.rangeInState · p state after limit at_)
        ((snapshot a.history at_).inState p state after limit) ↔
      s.Clear p after ∨ (snapshot a.history at_).inState p state after limit = [] := by
  by_cases hclear : s.Clear p after
  · refine ⟨fun _ ↦ .inl hclear, fun _ ↦ returns_byScan fun c hc n ↦ ?_⟩
    have hc : s.Clear p c := by
      obtain rfl | hc := hc
      · exact hclear
      · cases c with
        | none => exact clear_none
        | some b => exact clear_of_le (KeyPrefix.le_of_isPrefix hc)
    rw [h.range_of_clear hc, Mvcc.range, hr]
    rfl
  · have hnil : Returns (s.rangeInState · p state after limit at_) [] := by
      refine ⟨1, fun fuel hfuel ↦ ?_⟩
      obtain ⟨fuel, rfl⟩ : ∃ k, fuel = k + 1 := ⟨fuel - 1, by omega⟩
      have hempty : s.range p after scanPage at_ = .ok [] :=
        range_of_not_clear hclear ((h.readable at_).trans hr)
      change rangeInStateByScan s.range (fuel + 1) p state after limit at_ = _
      rw [rangeInStateByScan]
      exact Paging.scan_of_empty (by decide) hempty
    refine ⟨fun hret ↦ .inr (hret.eq hnil), fun hor ↦ ?_⟩
    rwa [hor.resolve_left hclear]

end MemBackend

namespace SqliteBackend

variable {s : SqliteBackend Stored} {rows : List (VersionRow Stored)} {a : Mvcc Key Stored} {p : Key}
  {state : String} {after : Option Key} {limit at_ : ℕ}

/-- The rows of `latest` are what the head reads. -/
theorem Refines.toList_latest (h : s.Refines rows a) :
    (s.latest.toList.map fun e ↦ (e.1, e.2.toVersion)) = (snapshot a.history a.head).toList := by
  have hsorted : (s.latest.toList.map fun e ↦ (e.1, e.2.toVersion)).Pairwise (·.1 < ·.1) :=
    List.pairwise_map.mpr (KeyMap.pairwise_toList s.latest)
  have heq := Snapshot.eq_filter_toList (m := snapshot a.history a.head) (p := fun _ ↦ true) hsorted
    fun k v ↦ by
      rw [← h.latest, Option.map_eq_some_iff, List.mem_map, and_iff_left rfl]
      constructor
      · rintro ⟨⟨k', r⟩, hr, he⟩
        obtain ⟨rfl, rfl⟩ := Prod.mk.inj he
        exact ⟨r, KeyMap.mem_toList.mp hr, rfl⟩
      · rintro ⟨r, hr, rfl⟩
        exact ⟨(k, r), KeyMap.mem_toList.mpr hr, rfl⟩
  rw [heq, List.filter_eq_self.mpr fun _ _ ↦ rfl]

/-- The index at the head: the objects under the prefix that it has under the state. -/
theorem Refines.stateRows (h : s.Refines rows a) :
    s.stateRows state (lowerBound p after) (successor p) limit =
      ((rowsPast (rowsUnder (snapshot a.history a.head) p) after).filter
        (indexState ·.2.value = some state)).take limit := by
  rw [SqliteBackend.stateRows, List.map_take, rowsPast, rowsUnder, ← h.toList_latest,
    List.filter_filter, List.filter_filter, List.filter_map]
  refine congrArg (fun l ↦ List.take limit (List.map _ l)) (List.filter_congr fun e _ ↦ ?_)
  rw [within_bounds, Bool.and_comm (starts p e.1), ← Bool.and_assoc]
  rfl

theorem Refines.rangeInState_iff (h : s.Refines rows a) (hr : a.readable at_ = .ok ()) (p : Key)
    (state : String) (after : Option Key) (limit : ℕ) :
    Returns (s.rangeInState · p state after limit at_)
        ((snapshot a.history at_).inState p state after limit) ↔
      (at_ = a.head → ∀ e ∈ (snapshot a.history at_).inState p state after limit,
        indexState e.2.value = some state) := by
  by_cases hhead : at_ = a.head
  · subst hhead
    have hrows : Returns (s.rangeInState · p state after limit a.head)
        (((rowsPast (rowsUnder (snapshot a.history a.head) p) after).filter
          (indexState ·.2.value = some state)).take limit) := by
      refine ⟨0, fun fuel _ ↦ ?_⟩
      rw [← h.stateRows]
      simp only [SqliteBackend.rangeInState, h.readable, hr, h.metaHead, if_true]
      rfl
    rw [inState_eq]
    set left := rowsPast (rowsUnder (snapshot a.history a.head) p) after
    have hsub : left.filter (indexState ·.2.value = some state) =
        (left.filter (stateOf ·.2.value = some state)).filter (indexState ·.2.value = some state) := by
      rw [List.filter_filter]
      refine List.filter_congr fun e _ ↦ ?_
      by_cases hi : indexState e.2.value = some state
      · simp [hi, stateOf_of_index hi]
      · simp [hi]
    have hiff := Paging.take_filter_iff (q := fun e ↦ indexState e.2.value = some state)
      (l := left.filter (stateOf ·.2.value = some state)) (n := limit)
    rw [← hsub] at hiff
    simp only [decide_eq_true_eq] at hiff
    refine ⟨fun hret _ ↦ hiff.mp (hrows.eq hret), fun hall ↦ ?_⟩
    rw [← hiff.mpr (hall rfl)]
    exact hrows
  · refine ⟨fun _ he ↦ absurd he hhead, fun _ ↦ ?_⟩
    have hscan : Returns (rangeInStateByScan s.range · p state after limit at_)
        ((snapshot a.history at_).inState p state after limit) := returns_byScan fun c _ n ↦ by
      rw [h.range, Mvcc.range, hr]
      rfl
    obtain ⟨n, hn⟩ := hscan
    refine ⟨n, fun fuel hfuel ↦ ?_⟩
    rw [← hn fuel hfuel]
    simp only [SqliteBackend.rangeInState, h.readable, hr, h.metaHead, hhead, if_false]
    rfl

end SqliteBackend

/-! ## Both backends -/

/-- Over one content, read at `at_`, every page of both backends is the page of the snapshot. -/
structure PagedAlike (mem : MemBackend Key Stored) (db : SqliteBackend Stored)
    (m : Snapshot Key Stored) (p : Key) (state : String) (after : Option Key) (limit at_ : ℕ) : Prop where
  memRange : mem.range p after limit at_ = .ok (m.range p after limit)
  dbRange : db.range p after limit at_ = .ok (m.range p after limit)
  memGc : Returns (mem.gcRange · after limit at_) (m.gcRange SqliteBackend.eventsPrefix after limit)
  dbGc : db.gcRange after limit at_ = .ok (m.gcRange SqliteBackend.eventsPrefix after limit)
  memState : Returns (mem.rangeInState · p state after limit at_) (m.inState p state after limit)
  dbState : Returns (db.rangeInState · p state after limit at_) (m.inState p state after limit)

theorem inState_eq_nil {m : Snapshot Key Stored} {p : Key} {state : String} {after : Option Key}
    {limit : ℕ} (h : m.range p after limit = []) : m.inState p state after limit = [] := by
  rw [range_eq_take, List.take_eq_nil_iff] at h
  rw [inState_eq]
  obtain h | h := h
  · rw [h, List.take_zero]
  · rw [h, List.filter_nil, List.take_nil]

/-- **When both backends page alike.**  After any calls that committed the same transactions, at a
revision both read, every page of both is that of the snapshot if and only if no key the reference
backend keeps stands between `after` and the prefix, or nothing is past `after` under it anyway;
and, at the durable backend's head, no object of the state's page has a list for its data or nests
too deep for SQLite. -/
theorem paged_alike_iff {calls : List (MemBackend.Call Key Stored)}
    {calls' : List (SqliteBackend.Call Stored)} {at_ : ℕ}
    (hsame : (MemBackend.committed calls).history = (SqliteBackend.run calls').2)
    (hmem : (MemBackend.run calls).readable at_ = .ok ())
    (hdb : (SqliteBackend.run calls').1.readable at_ = .ok ()) (p : Key) (state : String)
    (after : Option Key) (limit : ℕ) :
    PagedAlike (MemBackend.run calls) (SqliteBackend.run calls').1
        (snapshot (SqliteBackend.run calls').2 at_) p state after limit at_ ↔
      ((MemBackend.run calls).Clear p after ∨
        (snapshot (SqliteBackend.run calls').2 at_).range p after limit = []) ∧
      (at_ = (SqliteBackend.run calls').1.head →
        ∀ e ∈ (snapshot (SqliteBackend.run calls').2 at_).inState p state after limit,
          e.2.value.data ≠ .arr [.str state] ∧ e.2.value.json.depth ≤ jsonMaxDepth) := by
  have h := MemBackend.refines_run calls
  obtain ⟨rows, a', h', ha'⟩ := SqliteBackend.refines_run calls'
  rw [h.readable] at hmem
  rw [h'.readable] at hdb
  obtain ⟨hc', hh'⟩ := Mvcc.readable_ok hdb
  have hrange := h.range_iff hmem p after limit
  have hmemState := h.rangeInState_iff hmem p state after limit
  have hdbState := h'.rangeInState_iff hdb p state after limit
  have hgc := h.gcRange hmem after limit
  rw [hsame] at hrange hmemState hgc
  rw [ha', ← h'.head] at hdbState
  set m := snapshot (SqliteBackend.run calls').2 at_ with hm
  have hindex : (∀ e ∈ m.inState p state after limit, indexState e.2.value = some state) ↔
      ∀ e ∈ m.inState p state after limit,
        e.2.value.data ≠ .arr [.str state] ∧ e.2.value.json.depth ≤ jsonMaxDepth := by
    refine forall₂_congr fun e he ↦ index_iff ?_
    rw [inState_eq] at he
    have hkept := List.of_mem_filter (List.mem_of_mem_take he)
    exact of_decide_eq_true hkept
  rw [hindex] at hdbState
  constructor
  · intro hp
    exact ⟨hrange.mp hp.memRange, hdbState.mp hp.dbState⟩
  · rintro ⟨hclear, harr⟩
    refine ⟨hrange.mpr hclear, ?_, hgc, ?_, hmemState.mpr (hclear.imp_right inState_eq_nil),
      hdbState.mpr harr⟩
    · rw [h'.range, Mvcc.range, hdb, ha']
      rfl
    · rw [h'.gcRange hc' hh', ha']

/-! ## Where they do not -/

/-- An object with this data and no metadata. -/
def plain (data : Json) : Stored := ⟨.obj [], data⟩

/-- A key before the prefix `p`, and one under it whose data is a list of one state. -/
def apartBatch : List (Write Key Stored) :=
  [.put [98] (plain .null) ⟨1, 0⟩ none, .put [112, 49] (plain (.arr [.str "OPEN"])) ⟨1, 1⟩ none]

def apartMem : List (MemBackend.Call Key Stored) := [.commit 0 apartBatch]
def apartDb : List (SqliteBackend.Call Stored) := [.commit 0 apartBatch]

/-- Resumed before the prefix, the reference backend returns nothing and the durable one the key;
and of the objects in the list's state the reference backend returns it and the durable one
nothing. -/
theorem not_paged_alike :
    ¬ PagedAlike (MemBackend.run apartMem) (SqliteBackend.run apartDb).1
        (snapshot (SqliteBackend.run apartDb).2 1) [112] "OPEN" (some [97]) 1 1 ∧
      (MemBackend.run apartMem).rangeInState 1 [112] "OPEN" none 1 1 ≠
        (SqliteBackend.run apartDb).1.rangeInState 1 [112] "OPEN" none 1 1 := by
  constructor
  · intro h
    have hne : (MemBackend.run apartMem).range [112] (some [97]) 1 1 ≠
        (SqliteBackend.run apartDb).1.range [112] (some [97]) 1 1 := by decide
    exact hne (h.memRange.trans h.dbRange.symm)
  · decide

/-- From the prefix on, and in a state no list has, they do. -/
theorem paged_alike_apart :
    PagedAlike (MemBackend.run apartMem) (SqliteBackend.run apartDb).1
      (snapshot (SqliteBackend.run apartDb).2 1) [112] "CLOSED" none 1 1 :=
  (paged_alike_iff rfl (by decide) (by decide) [112] "CLOSED" none 1).mpr
    ⟨.inl MemBackend.clear_none, fun _ e he ↦ by
      have hnil : (snapshot (SqliteBackend.run apartDb).2 1).inState [112] "CLOSED" none 1 = [] := by
        decide
      rw [hnil] at he
      exact absurd he List.not_mem_nil⟩

end Spira.Store
