import Spira.Lib.Json
import Spira.StateStore.Mem
import Spira.StateStore.Sqlite

/-!
# Listing under prefixes, page by page

`listPage` reads one page of the items under a list of prefixes, from a snapshot that the first
page pins, and hands out the cursor the next page resumes at: which prefix it was reading, and the
last key it read there.  A page counts the rows it has read, not those it returns, so it may be
short, or empty, with more to come.

Others may commit between any two reads, so a listing is given the backend as each of its reads
finds it.  `restRows` is what a cursor has still to read.  A page reads the first rows of that and
leaves the others to its cursor (`walk_spec`), and so the pages together are the whole of it
(`pagesFrom_spec`); what remains is that the normalised prefixes cover what the given ones do,
each key once (`lists_normalize`).
-/

set_option autoImplicit false

namespace Spira.Store

open KeyPrefix (Byte starts past)
open Paging (rowsPast lastKey)

/-- A key, as its bytes. -/
abbrev Key := List Byte

variable {V : Type}

/-! ## The code -/

/-- What a listing asks of its backend. -/
structure Reader (V : Type) where
  head : ℕ
  range : Key → Option Key → ℕ → ℕ → Except BackendError (List (Key × Version V))

def MemBackend.reader (s : MemBackend Key V) : Reader V := ⟨s.head, s.range⟩

def SqliteBackend.reader (s : SqliteBackend V) : Reader V := ⟨s.head, s.range⟩

/-- Which items a listing returns. -/
inductive Selector
  | everything
  /-- The value at this JSON pointer into `data` equals this. -/
  | eq (ptr : String) (want : Json)

def selected (data : V → Json) (sel : Selector) (v : V) : Bool :=
  match sel with
  | .everything => true
  | .eq ptr want => ((data v).pointer ptr).any (Json.same · want)

/-- Sorted, with every prefix another one already covers dropped, so no key is listed twice. -/
def normalize (prefixes : List Key) : List Key :=
  (prefixes.dedup.insertionSort (· ≤ ·)).foldl
    (fun out x ↦ if out.any (starts · x) then out else out ++ [x]) []

/-- Where the next page of a list resumes: the same snapshot, the same prefix, after this key. -/
structure Cursor where
  listRev : ℕ
  pi : ℕ
  after : Option Key

structure ListPage (V : Type) where
  items : List (Key × Version V)
  listRev : ℕ
  next : Option Cursor

/-- Where a page stops: the items it has, the prefix it stops in and the key it stops after there,
and how many reads it has made. -/
structure Stop (V : Type) where
  items : List (Key × Version V)
  pi : ℕ
  after : Option Key
  reads : ℕ

/-- The loop of a page: reads on through the prefixes that remain until it has read `want` rows
more, keeping what `keep` selects.  `s` is the backend as the listing's reads find it. -/
def walk (s : ℕ → Reader V) (keep : V → Bool) (listRev : ℕ) :
    List Key → (reads pi want : ℕ) → Option Key → Except BackendError (Stop V)
  | [], reads, pi, _, after => .ok ⟨[], pi, after, reads⟩
  | p :: rest, reads, pi, want, after =>
    if want = 0 then .ok ⟨[], pi, after, reads⟩
    else do
      let batch ← (s reads).range p after want listRev
      if batch.length < want then
        let stop ← walk s keep listRev rest (reads + 1) (pi + 1) (want - batch.length) none
        return { stop with items := batch.filter (keep ·.2.value) ++ stop.items }
      else
        return ⟨batch.filter (keep ·.2.value), pi, lastKey batch, reads + 1⟩

/-- A page from a cursor on, and the reads made by then. -/
def pageFrom (s : ℕ → Reader V) (keep : V → Bool) (prefixes : List Key) (limit reads : ℕ)
    (c : Cursor) : Except BackendError (ListPage V × ℕ) := do
  let stop ← walk s keep c.listRev (prefixes.drop c.pi) reads c.pi (max limit 1) c.after
  let next := if stop.pi < prefixes.length then some ⟨c.listRev, stop.pi, stop.after⟩ else none
  return (⟨stop.items, c.listRev, next⟩, stop.reads)

/-- One page; its `next` is passed back to read the following one from the same snapshot. -/
def listPage (s : ℕ → Reader V) (data : V → Json) (prefixes : List Key) (sel : Selector)
    (limit reads : ℕ) (cursor : Option Cursor) : Except BackendError (ListPage V × ℕ) :=
  match cursor with
  | some c => pageFrom s (selected data sel) (normalize prefixes) limit reads c
  | none =>
    pageFrom s (selected data sel) (normalize prefixes) limit (reads + 1) ⟨(s reads).head, 0, none⟩

/-- The pages read one after another, each from the cursor of the one before it. -/
def pages (s : ℕ → Reader V) (data : V → Json) (prefixes : List Key) (sel : Selector) (limit : ℕ) :
    (fuel reads : ℕ) → Option Cursor → Except BackendError (Option (List (ListPage V)))
  | 0, _, _ => .ok none
  | fuel + 1, reads, cursor => do
    let (page, reads) ← listPage s data prefixes sel limit reads cursor
    match page.next with
    | none => return some [page]
    | some next => return (← pages s data prefixes sel limit fuel reads (some next)).map (page :: ·)

/-! ## What a cursor has still to read -/

/-- The items under a prefix. -/
def rowsUnder (m : Snapshot Key V) (p : Key) : List (Key × Version V) :=
  m.toList.filter fun e ↦ starts p e.1

/-- What is still to be read: under the first prefix what is past `after`, and all that is under the
others. -/
def restRows (m : Snapshot Key V) : List Key → Option Key → List (Key × Version V)
  | [], _ => []
  | p :: rest, after => rowsPast (rowsUnder m p) after ++ rest.flatMap (rowsUnder m)

/-- A listing resumes under the prefix it stopped in. -/
def Resumes : List Key → Option Key → Prop
  | p :: _, some a => p <+: a
  | _, _ => True

variable {m : Snapshot Key V} {s : ℕ → Reader V} {rev : ℕ}

theorem restRows_none {l : List Key} : restRows m l none = l.flatMap (rowsUnder m) := by
  cases l with
  | nil => rfl
  | cons p rest => rw [restRows, Paging.rowsPast_none, List.flatMap_cons]

theorem resumes_none {l : List Key} : Resumes l none := by
  cases l <;> exact trivial

theorem sorted_rowsUnder {p : Key} : (rowsUnder m p).Pairwise (·.1 < ·.1) :=
  (KeyMap.pairwise_toList m).filter _

theorem range_eq_take {p : Key} {after : Option Key} {n : ℕ} :
    m.range p after n = (rowsPast (rowsUnder m p) after).take n := by
  rw [Snapshot.range, rowsPast, rowsUnder, List.filter_filter]
  refine congrArg (List.take n) (List.filter_congr fun e _ ↦ ?_)
  rw [Bool.and_comm]

/-- Every read of a listing is of the one snapshot, whatever is committed between them. -/
def Serves (s : ℕ → Reader V) (rev : ℕ) (m : Snapshot Key V) : Prop :=
  ∀ reads p after n, Resumes [p] after → (s reads).range p after n rev = .ok (m.range p after n)

/-- **A page reads the first rows of what is left**, and its cursor has the others. -/
theorem walk_spec (keep : V → Bool) (hs : Serves s rev m) :
    ∀ (remaining : List Key) (reads pi want : ℕ) {after : Option Key}, Resumes remaining after →
      ∃ stop batch done rest, walk s keep rev remaining reads pi want after = .ok stop ∧
        stop.items = batch.filter (keep ·.2.value) ∧
        remaining = done ++ rest ∧ stop.pi = pi + done.length ∧ Resumes rest stop.after ∧
        restRows m remaining after = batch ++ restRows m rest stop.after ∧
        (rest ≠ [] → batch.length = want)
  | [], reads, pi, _, after, _ =>
    ⟨⟨[], pi, after, reads⟩, [], [], [], rfl, rfl, rfl, rfl, trivial, rfl, fun h ↦ absurd rfl h⟩
  | p :: rest, reads, pi, want, after, hres => by
    rw [walk]
    by_cases hwant : want = 0
    · rw [if_pos hwant]
      exact ⟨_, [], [], p :: rest, rfl, rfl, rfl, rfl, hres, rfl, fun _ ↦ hwant.symm⟩
    · have hone : Resumes [p] after := by
        cases after with
        | none => exact trivial
        | some a => exact hres
      rw [if_neg hwant, hs reads p after want hone, range_eq_take]
      simp only [bind, Except.bind]
      set left := rowsPast (rowsUnder m p) after with hleft
      by_cases hshort : (left.take want).length < want
      · -- the prefix is read to its end
        have hall : left.take want = left := by
          rw [List.length_take] at hshort
          exact List.take_of_length_le (by omega)
        obtain ⟨stop, batch, done, rest', hwalk, hitems, hrem, hpi, hres', hrows, hfull⟩ :=
          walk_spec keep hs rest (reads + 1) (pi + 1) (want - (left.take want).length) resumes_none
        rw [if_pos hshort, hwalk]
        refine ⟨_, left.take want ++ batch, p :: done, rest', rfl, ?_, ?_, ?_, hres', ?_, ?_⟩
        · rw [hitems, List.filter_append]
        · rw [hrem, List.cons_append]
        · rw [hpi, List.length_cons]
          omega
        · rw [restRows, ← hleft, ← restRows_none, hrows, hall, List.append_assoc]
        · intro hne
          rw [List.length_append, hfull hne]
          omega
      · have hfull : (left.take want).length = want := by
          rw [List.length_take] at hshort ⊢
          omega
        obtain ⟨hnext, e, he, hkey⟩ :=
          Paging.rowsPast_lastKey sorted_rowsUnder (Nat.pos_of_ne_zero hwant) hfull
        rw [if_neg hshort]
        refine ⟨_, left.take want, [], p :: rest, rfl, rfl, rfl, rfl, ?_, ?_, fun _ ↦ hfull⟩
        · rw [hkey]
          exact KeyPrefix.starts_list.mp (List.mem_filter.mp he).2
        · rw [restRows, restRows, hnext, ← hleft, ← List.append_assoc, List.take_append_drop]

/-- The pages from a cursor on are what it has still to read, and there are no more of them than
that has rows, and one. -/
theorem pagesFrom_spec {data : V → Json} {prefixes : List Key} {sel : Selector} {limit : ℕ}
    (hs : Serves s rev m) :
    ∀ {n : ℕ} (reads : ℕ) (c : Cursor), c.listRev = rev → Resumes ((normalize prefixes).drop c.pi) c.after →
      (restRows m ((normalize prefixes).drop c.pi) c.after).length ≤ n →
      ∃ ps : List (ListPage V),
        (∀ fuel, n < fuel → pages s data prefixes sel limit fuel reads (some c) = .ok (some ps)) ∧
        ps.flatMap (·.items) =
          (restRows m ((normalize prefixes).drop c.pi) c.after).filter (selected data sel ·.2.value) ∧
        ∀ page ∈ ps, page.listRev = rev := by
  intro n
  induction n using Nat.strong_induction_on with
  | h n ih =>
    rintro reads c rfl hres hlen
    obtain ⟨stop, batch, done, rest, hwalk, hitems, hrem, hpi, hres', hrows, hfull⟩ :=
      walk_spec (selected data sel) hs ((normalize prefixes).drop c.pi) reads c.pi (max limit 1) hres
    have hdrop : (normalize prefixes).drop stop.pi = rest := by
      rw [hpi, ← List.drop_drop, hrem, List.drop_left]
    have hpage : listPage s data prefixes sel limit reads (some c) =
        .ok (⟨stop.items, c.listRev, if stop.pi < (normalize prefixes).length then
          some ⟨c.listRev, stop.pi, stop.after⟩ else none⟩, stop.reads) := by
      rw [listPage, pageFrom, hwalk]
      rfl
    by_cases hmore : stop.pi < (normalize prefixes).length
    · have hne : rest ≠ [] := by
        rw [← hdrop, Ne, List.drop_eq_nil_iff]
        omega
      have hbatch := hfull hne
      have hless : (restRows m rest stop.after).length < n := by
        rw [hrows, List.length_append] at hlen
        omega
      obtain ⟨ps, hps, hcat, hrev⟩ := ih _ hless stop.reads ⟨c.listRev, stop.pi, stop.after⟩ rfl
        (by rwa [hdrop]) (by rw [hdrop])
      refine ⟨⟨stop.items, c.listRev, some ⟨c.listRev, stop.pi, stop.after⟩⟩ :: ps, ?_, ?_, ?_⟩
      · intro fuel hfuel
        obtain ⟨fuel, rfl⟩ : ∃ k, fuel = k + 1 := ⟨fuel - 1, by omega⟩
        rw [pages, hpage, if_pos hmore]
        simp only [bind, Except.bind]
        rw [hps fuel (by omega)]
        rfl
      · rw [List.flatMap_cons, hcat, hrows, List.filter_append, hdrop, hitems]
      · intro page hmem
        obtain rfl | hmem := List.mem_cons.mp hmem
        · rfl
        · exact hrev page hmem
    · have hnil : rest = [] := by
        rw [← hdrop, List.drop_eq_nil_iff]
        omega
      refine ⟨[⟨stop.items, c.listRev, none⟩], ?_, ?_, ?_⟩
      · intro fuel hfuel
        obtain ⟨fuel, rfl⟩ : ∃ k, fuel = k + 1 := ⟨fuel - 1, by omega⟩
        rw [pages, hpage, if_neg hmore]
        rfl
      · rw [hrows, hnil, restRows, List.append_nil, List.flatMap_singleton, hitems]
      · intro page hmem
        rw [List.mem_singleton.mp hmem]

/-! ## The normalised prefixes -/

/-- Prefixes in order, none of them under another. -/
def Apart (out : List Key) : Prop := out.Pairwise fun p q ↦ p < q ∧ ¬ p <+: q

/-- Every key under a prefix of one list is under a prefix of the other. -/
def SameCover (l out : List Key) : Prop := ∀ k, (∃ p ∈ l, p <+: k) ↔ ∃ p ∈ out, p <+: k

theorem foldl_normalize :
    ∀ {l : List Key}, l.Pairwise (· < ·) →
      let out := l.foldl (fun out x ↦ if out.any (starts · x) then out else out ++ [x]) []
      Apart out ∧ SameCover l out ∧ ∀ p ∈ out, p ∈ l := by
  intro l
  induction l using List.reverseRecOn with
  | nil => exact fun _ ↦ ⟨.nil, fun _ ↦ Iff.rfl, fun _ h ↦ h⟩
  | append_singleton l x ih =>
    intro hl
    obtain ⟨hl, -, hx⟩ := List.pairwise_append.mp hl
    obtain ⟨hapart, hcover, hsub⟩ := ih hl
    rw [List.foldl_append, List.foldl_cons, List.foldl_nil]
    set out := l.foldl (fun out x ↦ if out.any (starts · x) then out else out ++ [x]) []
    split <;> rename_i hany
    · obtain ⟨o, ho, hox⟩ := List.any_eq_true.mp hany
      refine ⟨hapart, fun k ↦ ⟨?_, ?_⟩, fun p hp ↦ List.mem_append_left _ (hsub p hp)⟩
      · rintro ⟨p, hp, hpk⟩
        obtain hp | hp := List.mem_append.mp hp
        · exact (hcover k).mp ⟨p, hp, hpk⟩
        · rw [List.mem_singleton.mp hp] at hpk
          exact ⟨o, ho, (KeyPrefix.starts_list.mp hox).trans hpk⟩
      · intro h
        obtain ⟨p, hp, hpk⟩ := (hcover k).mpr h
        exact ⟨p, List.mem_append_left _ hp, hpk⟩
    · refine ⟨List.pairwise_append.mpr ⟨hapart, List.pairwise_singleton _ _, fun p hp q hq ↦ ?_⟩,
        fun k ↦ ?_, fun p hp ↦ ?_⟩
      · rw [List.mem_singleton.mp hq]
        refine ⟨hx p (hsub p hp) x (List.mem_singleton_self x), fun h ↦ hany ?_⟩
        exact List.any_eq_true.mpr ⟨p, hp, KeyPrefix.starts_list.mpr h⟩
      · have hk := hcover k
        simp only [List.mem_append, List.mem_singleton, or_and_right, exists_or, exists_eq_left]
        rw [hk]
      · obtain hp | hp := List.mem_append.mp hp
        · exact List.mem_append_left _ (hsub p hp)
        · exact List.mem_append_right _ hp

theorem normalize_spec (prefixes : List Key) :
    Apart (normalize prefixes) ∧ SameCover prefixes (normalize prefixes) := by
  have hsort : (prefixes.dedup.insertionSort (· ≤ ·)).Pairwise (· < ·) := by
    have hle : (prefixes.dedup.insertionSort (· ≤ ·)).Pairwise (· ≤ ·) :=
      List.pairwise_insertionSort _ _
    have hne : (prefixes.dedup.insertionSort (· ≤ ·)).Nodup :=
      (List.perm_insertionSort _ _).nodup_iff.mpr prefixes.nodup_dedup
    exact hle.imp₂ (fun _ _ h h' ↦ lt_of_le_of_ne h h') hne
  obtain ⟨hapart, hcover, -⟩ := foldl_normalize hsort
  refine ⟨hapart, fun k ↦ (Iff.trans ?_ (hcover k))⟩
  simp only [List.mem_insertionSort, List.mem_dedup]

/-- What is under prefixes apart is in key order. -/
theorem sorted_flatMap : ∀ {out : List Key}, Apart out →
    (out.flatMap (rowsUnder m)).Pairwise (·.1 < ·.1)
  | [], _ => .nil
  | p :: out, h => by
    obtain ⟨hp, hout⟩ := List.pairwise_cons.mp h
    rw [List.flatMap_cons]
    refine List.pairwise_append.mpr ⟨sorted_rowsUnder, sorted_flatMap hout, fun e he e' he' ↦ ?_⟩
    obtain ⟨q, hq, he'⟩ := List.mem_flatMap.mp he'
    obtain ⟨hlt, hno⟩ := hp q hq
    have hpe := (List.mem_filter.mp he).2
    have hqe := (List.mem_filter.mp he').2
    -- were the later prefix's key not later, the prefix itself would be under the earlier one
    by_contra hle
    exact hno (KeyPrefix.starts_list.mp (KeyPrefix.starts_of_between hpe hlt.le
      ((KeyPrefix.le_of_starts hqe).trans (not_lt.mp hle))))

/-- The items of a snapshot that a listing is of: those under a prefix that the selector selects,
each once and in key order. -/
structure Lists (m : Snapshot Key V) (data : V → Json) (prefixes : List Key) (sel : Selector)
    (items : List (Key × Version V)) : Prop where
  sorted : items.Pairwise (·.1 < ·.1)
  mem : ∀ k v, (k, v) ∈ items ↔
    m[k]? = some v ∧ (∃ p ∈ prefixes, p <+: k) ∧ selected data sel v.value

theorem lists_normalize {data : V → Json} {prefixes : List Key} {sel : Selector} :
    Lists m data prefixes sel
      (((normalize prefixes).flatMap (rowsUnder m)).filter (selected data sel ·.2.value)) := by
  obtain ⟨hapart, hcover⟩ := normalize_spec prefixes
  refine ⟨(sorted_flatMap hapart).filter _, fun k v ↦ ?_⟩
  rw [List.mem_filter, List.mem_flatMap, hcover k, ← and_assoc]
  refine and_congr_left fun _ ↦ ⟨?_, ?_⟩
  · rintro ⟨p, hp, hrow⟩
    obtain ⟨hmem, hpk⟩ := List.mem_filter.mp hrow
    exact ⟨KeyMap.mem_toList.mp hmem, p, hp, KeyPrefix.starts_list.mp hpk⟩
  · rintro ⟨hget, p, hp, hpk⟩
    exact ⟨p, hp, List.mem_filter.mpr ⟨KeyMap.mem_toList.mpr hget, KeyPrefix.starts_list.mpr hpk⟩⟩

/-- A listing of a backend that serves one snapshot is of that snapshot, and ends. -/
theorem pages_spec {data : V → Json} {prefixes : List Key} {sel : Selector} {limit : ℕ}
    (hs : Serves s (s 0).head m) :
    ∃ (n : ℕ) (ps : List (ListPage V)),
      (∀ fuel, n ≤ fuel → pages s data prefixes sel limit fuel 0 none = .ok (some ps)) ∧
      Lists m data prefixes sel (ps.flatMap (·.items)) ∧ ∀ page ∈ ps, page.listRev = (s 0).head := by
  set all := (normalize prefixes).flatMap (rowsUnder m) with hall
  have hrest : restRows m ((normalize prefixes).drop 0) none = all := by
    rw [List.drop_zero, restRows_none]
  let first : Cursor := ⟨(s 0).head, 0, none⟩
  obtain ⟨ps, hps, hcat, hrev⟩ : ∃ ps : List (ListPage V),
      (∀ fuel, all.length < fuel →
        pages s data prefixes sel limit fuel 1 (some first) = .ok (some ps)) ∧ _ :=
    pagesFrom_spec hs 1 first rfl resumes_none (le_of_eq (congrArg List.length hrest))
  refine ⟨all.length + 1, ps, fun fuel hfuel ↦ ?_, ?_, hrev⟩
  · obtain ⟨fuel, rfl⟩ : ∃ k, fuel = k + 1 := ⟨fuel - 1, by omega⟩
    rw [← hps (fuel + 1) hfuel]
    rfl
  · rw [hcat, hrest]
    exact lists_normalize

/-! ## A listing among commits -/

/-- The batches others commit, each at the head it was made for, before each read of a listing. -/
abbrev Commits (V : Type) := ℕ → List (ℕ × List (Write Key V))

/-- Those made before the listing's read `n`. -/
def Commits.before (commits : Commits V) (n : ℕ) : List (ℕ × List (Write Key V)) :=
  (List.range n).flatMap commits

namespace MemBackend

/-- The backend as read `n` of a listing begun after `calls` finds it. -/
def during (calls : List (Call Key V)) (commits : Commits V) (n : ℕ) : MemBackend Key V :=
  run (calls ++ (commits.before n).map fun c ↦ .commit c.1 c.2)

theorem compacted_commits (calls : List (Call Key V)) (batches : List (ℕ × List (Write Key V))) :
    (committed (calls ++ batches.map fun c ↦ .commit c.1 c.2)).compacted =
      (committed calls).compacted := by
  induction batches using List.reverseRecOn with
  | nil => rw [List.map_nil, List.append_nil]
  | append_singleton batches c ih =>
    rw [List.map_append, ← List.append_assoc, List.map_singleton, committed_snoc, meaning,
      Mvcc.commit, ← ih]
    split_ifs <;> rfl

theorem serves_during (calls : List (Call Key V)) (commits : Commits V) :
    Serves (fun n ↦ (during calls commits n).reader) (run calls).head
      (snapshot (committed calls).history (run calls).head) := by
  intro n p after limit hres
  have h := refines_run calls
  have h' := refines_run (calls ++ (commits.before n).map fun c ↦ .commit c.1 c.2)
  have hclear : (during calls commits n).Clear p after := by
    cases after with
    | none => exact clear_none
    | some a => exact clear_of_le (KeyPrefix.le_of_isPrefix hres)
  have hc := (compacted_commits calls (commits.before n)).trans_le (committed calls).compacted_le
  change (during calls commits n).range p after limit (run calls).head = _
  rw [during, h'.range_of_clear hclear, h.head,
    (extends_committed calls _).range hc (le_refl _), Mvcc.range,
    Mvcc.readable_of_le (committed calls).compacted_le (le_refl _)]
  rfl

end MemBackend

namespace SqliteBackend

/-- The backend as read `n` of a listing begun after `calls` finds it. -/
def during (calls : List (Call V)) (commits : Commits V) (n : ℕ) : SqliteBackend V :=
  (run (calls ++ (commits.before n).map fun c ↦ .commit c.1 c.2)).1

theorem refines_commits {calls : List (Call V)} {rows : List (VersionRow V)} {a : Mvcc Key V}
    (h : (run calls).1.Refines rows a) (batches : List (ℕ × List (Write Key V))) :
    ∃ rows' a', (run (calls ++ batches.map fun c ↦ .commit c.1 c.2)).1.Refines rows' a' ∧
      a.Extends a' ∧ a'.compacted = a.compacted := by
  induction batches using List.reverseRecOn with
  | nil =>
    rw [List.map_nil, List.append_nil]
    exact ⟨rows, a, h, .refl a, rfl⟩
  | append_singleton batches c ih =>
    obtain ⟨rows', a', h', hext, hcomp⟩ := ih
    rw [List.map_append, ← List.append_assoc, List.map_singleton, run, List.foldl_append,
      List.foldl_cons, List.foldl_nil, ← run, step, call]
    cases hs : (run (calls ++ batches.map fun c ↦ .commit c.1 c.2)).1.commit c.1 c.2 with
    | error e => exact ⟨rows', a', h', hext, hcomp⟩
    | ok r =>
      obtain ⟨-, -, rows'', h''⟩ := h'.commit hs
      exact ⟨rows'', _, h'', hext.trans (a'.extends_append _), hcomp⟩

theorem serves_during (calls : List (Call V)) (commits : Commits V) :
    Serves (fun n ↦ (during calls commits n).reader) (run calls).1.head
      (snapshot (run calls).2 (run calls).1.head) := by
  intro n p after limit _
  obtain ⟨rows, a, h, ha⟩ := refines_run calls
  obtain ⟨rows', a', h', hext, hcomp⟩ := refines_commits h (commits.before n)
  change (during calls commits n).range p after limit (run calls).1.head = _
  rw [during, h'.range, ← ha, h.head,
    hext.range (hcomp.trans_le a.compacted_le) (le_refl _), Mvcc.range,
    Mvcc.readable_of_le a.compacted_le (le_refl _)]
  rfl

end SqliteBackend

end Spira.Store
