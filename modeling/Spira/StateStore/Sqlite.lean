import Mathlib.Data.List.Dedup
import Mathlib.Data.List.Sort
import Spira.StateStore.Backend

/-!
# The durable backend

Three tables: `versions` has a row for every write, `latest` the newest version of every live key,
and `meta` the head, the compaction point and the compaction floor.  A statement is given its SQL
meaning over lists of rows: `WHERE` is a filter, `ORDER BY` a sort, `LIMIT` a `take`.

`SqliteBackend.Refines` relates the tables to the abstract store.  Under it `versions` is the log of
every row ever written, compacted at the compaction point, and `latest` is what the head reads of
that log; so a read through `latest` and a read through `versions` agree, and a compaction need only
look at the rows written since the last one (`UpdateLog.compact_window`).

Keys are strings of bytes, as SQLite compares them.
-/

set_option autoImplicit false

namespace Spira.Store

open KeyPrefix (Byte successor lowerBound)

/-! ## The tables -/

/-- A row of `versions`. -/
structure VersionRow (V : Type) where
  key : List Byte
  main : ℕ
  sub : ℕ
  /-- `value`, `create_main` and `create_sub`: all of them `NULL` in a delete. -/
  live : Option (V × Rev)
  version : ℕ
  prev : Option Rev

/-- A row of `latest`, at its key. -/
structure LatestRow (V : Type) where
  main : ℕ
  sub : ℕ
  value : V
  create : Rev
  version : ℕ

/-- The durable backend's state. -/
structure SqliteBackend (V : Type) where
  /-- In the order of their rowids. -/
  versions : List (VersionRow V)
  latest : KeyMap (List Byte) (LatestRow V)
  jumps : List (ℕ × ℕ)
  metaHead : ℕ
  compacted : ℕ
  floor : Option ℕ
  /-- The head kept in memory, beside the tables. -/
  head : ℕ

variable {V : Type}

scoped instance transCmp_bytes : Std.TransCmp (LinearOrder.toOrd (α := List Byte)).compare :=
  inferInstance

/-- The row as a read returns it. -/
def VersionRow.version? (r : VersionRow V) : Option (Version V) :=
  r.live.map fun l ↦ ⟨l.1, ⟨r.main, r.sub⟩, l.2⟩

/-- The row as the watch log serves it. -/
def VersionRow.entry (r : VersionRow V) : LogEntry (List Byte) V :=
  ⟨r.key, ⟨r.main, r.sub⟩, r.live.map (·.1), r.live.map (·.2), r.prev⟩

/-- The row as it stands in `latest`. -/
def VersionRow.latest? (r : VersionRow V) : Option (LatestRow V) :=
  r.live.map fun l ↦ ⟨r.main, r.sub, l.1, l.2, r.version⟩

def LatestRow.toVersion (r : LatestRow V) : Version V := ⟨r.value, ⟨r.main, r.sub⟩, r.create⟩

/-- The live row of `k` at `n`. -/
abbrev liveRow (rows : List (VersionRow V)) (k : List Byte) (n : ℕ) : Option (VersionRow V) :=
  UpdateLog.live VersionRow.key VersionRow.main (·.live.isNone) rows k n

/-- The rows compacted at `c`, from the whole table. -/
abbrev compactRows (c : ℕ) (rows : List (VersionRow V)) : List (VersionRow V) :=
  UpdateLog.compact VersionRow.key VersionRow.main (·.live.isNone) c rows

namespace SqliteBackend

/-! ## Commit -/

def new : SqliteBackend V := ⟨[], ∅, [], 0, 0, none, 0⟩

/-- A revision as SQLite's integer. -/
def mainI64 (v : ℕ) : Except BackendError ℕ :=
  if v < 2 ^ 63 then .ok v
  else .error (.backend ("revision " ++ toString v ++ " exceeds SQLite's integer"))

/-- `INSERT INTO versions`, whose primary key is the key and the main. -/
def insertVersion (s : SqliteBackend V) (r : VersionRow V) :
    Except BackendError (SqliteBackend V) :=
  if ∃ o ∈ s.versions, o.key = r.key ∧ o.main = r.main then
    .error (.backend "sqlite: UNIQUE constraint failed: versions.key, versions.main")
  else .ok { s with versions := s.versions ++ [r] }

/-- The version a put makes of its key: the first, or the one after that in `latest`. -/
def nextVersion (s : SqliteBackend V) (key : List Byte) (prev : Option Rev) : ℕ :=
  match prev with
  | none => 1
  | some _ => (s.latest[key]?.map (·.version)).getD 0 + 1

/-- One write of transaction `main`, into both tables. -/
def write (main : ℕ) (s : SqliteBackend V) (p : Write (List Byte) V × ℕ) :
    Except BackendError (SqliteBackend V) :=
  match p.1 with
  | .put key value createRev prev => do
    let version := s.nextVersion key prev
    let create : Rev := ⟨← mainI64 createRev.main, createRev.sub⟩
    let s ← s.insertVersion ⟨key, main, p.2, some (value, create), version, prev⟩
    return { s with latest := s.latest.insert key ⟨main, p.2, value, create, version⟩ }
  | .delete key prev => do
    let s ← s.insertVersion ⟨key, main, p.2, none, 0, some prev⟩
    return { s with latest := s.latest.erase key }

def commit (s : SqliteBackend V) (expect : ℕ) (batch : List (Write (List Byte) V)) :
    Except BackendError (SqliteBackend V × ℕ) :=
  if s.head ≠ expect then .error (.stale expect s.head)
  else do
    let main ← mainI64 (expect + 1)
    let s ← batch.zipIdx.foldlM (write main) s
    return ({ s with metaHead := main, head := main }, main)

/-! ## Reads -/

def readable (s : SqliteBackend V) (at_ : ℕ) : Except BackendError Unit :=
  if at_ < s.compacted then .error (.tooOld s.compacted)
  else if at_ > s.metaHead then .error (.futureRev at_ s.metaHead)
  else .ok ()

/-- Which rows a read takes: the head's from `latest`, an older revision's from `versions`. -/
inductive Source
  | head
  | at_ (rev : ℕ)

def source (s : SqliteBackend V) (at_ : ℕ) : Source :=
  if at_ = s.metaHead then .head else .at_ at_

/-- One key, as the source has it. -/
def select (s : SqliteBackend V) (key : List Byte) : Source → Option (Version V)
  | .head => s.latest[key]?.map LatestRow.toVersion
  | .at_ rev =>
    let at_ := (mainI64 rev).toOption.getD (2 ^ 63 - 1)
    let rows := s.versions.filter fun r ↦ r.key = key ∧ r.main ≤ at_
    (rows.insertionSort fun a b ↦ b.main ≤ a.main).head?.bind VersionRow.version?

def get (s : SqliteBackend V) (key : List Byte) (at_ : ℕ) :
    Except BackendError (Option (Version V)) := do
  s.readable at_
  return s.select key (s.source at_)

/-- `lo ≤ key` and `key < hi`, where there is an upper bound. -/
def within (lo : List Byte) (hi : Option (List Byte)) (key : List Byte) : Bool :=
  lo ≤ key && hi.all (key < ·)

/-- `GROUP BY key` with `max(main)`: of each key the row with the greatest main, which the primary
key makes the only one. -/
def groupByKey (rows : List (VersionRow V)) : List (VersionRow V) :=
  rows.filter fun r ↦ ∀ o ∈ rows, o.key = r.key → o.main ≤ r.main

/-- Live keys from `lo` up to `hi` as the source has them, in key order, at most `limit`. -/
def rangeRows (s : SqliteBackend V) (lo : List Byte) (hi : Option (List Byte)) (limit : ℕ) :
    Source → Except BackendError (List (List Byte × Version V))
  | .head =>
    let rows := s.latest.toList.filter fun e ↦ within lo hi e.1
    .ok ((rows.take limit).map fun e ↦ (e.1, e.2.toVersion))
  | .at_ rev => do
    let at_ ← mainI64 rev
    let rows := groupByKey (s.versions.filter fun r ↦ within lo hi r.key ∧ r.main ≤ at_)
    let rows := (rows.filter (·.live.isSome)).insertionSort fun a b ↦ a.key ≤ b.key
    return (rows.take limit).filterMap fun r ↦ r.version?.map (r.key, ·)

def range (s : SqliteBackend V) (p : List Byte) (after : Option (List Byte)) (limit at_ : ℕ) :
    Except BackendError (List (List Byte × Version V)) := do
  s.readable at_
  s.rangeRows (lowerBound p after) (successor p) limit (s.source at_)

/-- The bytes of `"events/"`. -/
def eventsPrefix : List Byte := [101, 118, 101, 110, 116, 115, 47]

/-- The two key ranges either side of `events/`. -/
def gcRange (s : SqliteBackend V) (after : Option (List Byte)) (limit at_ : ℕ) :
    Except BackendError (List (List Byte × Version V)) := do
  s.readable at_
  let pastEvents := (successor eventsPrefix).getD []
  let lo := lowerBound [] after
  let below := if lo < eventsPrefix then s.rangeRows lo (some eventsPrefix) limit (s.source at_)
    else .ok []
  let out ← below
  if out.length < limit then
    let rest ← s.rangeRows (max lo pastEvents) none (limit - out.length) (s.source at_)
    return out ++ rest
  else return out

def log (s : SqliteBackend V) (from_ maxMains : ℕ) :
    Except BackendError (List (LogEntry (List Byte) V)) :=
  if from_ < s.compacted then .error (.tooOld s.compacted)
  else if maxMains = 0 then .ok []
  else do
    let from_ ← mainI64 from_
    let mains := ((s.versions.map (·.main)).filter (from_ < ·)).dedup
    match ((mains.insertionSort (· ≤ ·)).take maxMains).max? with
    | none => return []
    | some through =>
      let rows := s.versions.filter fun r ↦ from_ < r.main ∧ r.main ≤ through
      let rows := rows.insertionSort fun a b ↦
        a.main < b.main ∨ (a.main = b.main ∧ a.sub ≤ b.sub)
      return rows.map VersionRow.entry

/-! ## Compaction, floors and jumps -/

/-- Drops the superseded versions at or below `rev`, and the deletes there, but never above the
floor: it looks only at the rows written since the last compaction. -/
def compact (s : SqliteBackend V) (rev : ℕ) : Except BackendError (SqliteBackend V) :=
  let to_ := min (min rev s.metaHead) (s.floor.getD (2 ^ 64 - 1))
  if to_ ≤ s.compacted then .ok s
  else do
    let from_ ← mainI64 s.compacted
    let to_ ← mainI64 to_
    let versions := s.versions.filter fun o ↦
      ¬ ∃ n ∈ s.versions, n.key = o.key ∧ o.main < n.main ∧ from_ < n.main ∧ n.main ≤ to_
    let versions := versions.filter fun o ↦
      ¬ (from_ < o.main ∧ o.main ≤ to_ ∧ o.live.isNone)
    return { s with versions, compacted := to_ }

def setCompactionFloor (s : SqliteBackend V) (rev : ℕ) :
    Except BackendError (SqliteBackend V) := do
  return { s with floor := some (← mainI64 rev) }

def clearCompactionFloor (s : SqliteBackend V) : SqliteBackend V := { s with floor := none }

/-- Records the revisions up to `through` as never used, and moves the head there. -/
def recordJump (s : SqliteBackend V) (head through : ℕ) :
    Except BackendError (SqliteBackend V) :=
  if through ≤ head then
    .error (.backend ("a jump to " ++ toString through ++ " does not pass the head " ++
      toString head))
  else if s.metaHead ≠ head then
    .error (.backend ("a jump from " ++ toString head ++ " found the head at " ++
      toString s.metaHead))
  else do
    let from_ ← mainI64 (head + 1)
    let through ← mainI64 through
    if s.jumps.any (·.1 = from_) then
      .error (.backend "sqlite: UNIQUE constraint failed: jumps.from_main")
    else return { s with jumps := s.jumps ++ [(from_, through)], metaHead := through }

def jump (s : SqliteBackend V) (from_ through : ℕ) : Except BackendError (SqliteBackend V) :=
  if from_ ≠ s.head + 1 then
    .error (.backend ("a jump from " ++ toString from_ ++ " does not follow the head " ++
      toString s.head))
  else do
    let s ← s.recordJump s.head through
    return { s with head := through }

/-! ## What a call does to the tables -/

section Calls

variable {s s' : SqliteBackend V} {main : ℕ} {p : Write (List Byte) V × ℕ}

theorem mainI64_ok {v w : ℕ} : mainI64 v = .ok w ↔ v < 2 ^ 63 ∧ w = v := by
  rw [mainI64]
  split <;> simp_all [eq_comm]

theorem mainI64_of_lt {v : ℕ} (h : v < 2 ^ 63) : mainI64 v = .ok v := mainI64_ok.mpr ⟨h, rfl⟩

/-- The tables with a row put into both of them. -/
@[simps] def insert (s : SqliteBackend V) (r : VersionRow V) : SqliteBackend V :=
  { s with
    versions := s.versions ++ [r]
    latest :=
      match r.latest? with
      | some l => s.latest.insert r.key l
      | none => s.latest.erase r.key }

/-- **A write is one new row, at a key the transaction has not written.** -/
theorem write_cases (h : write main s p = .ok s') :
    ∃ r : VersionRow V, r.main = main ∧ r.key = p.1.key ∧ r.entry = p.1.entry ⟨main, p.2⟩ ∧
      (∀ o ∈ s.versions, o.key = r.key → o.main ≠ main) ∧ s' = s.insert r := by
  obtain ⟨⟨key, value, createRev, prev⟩ | ⟨key, prev⟩, sub⟩ := p
  · simp only [write, insertVersion] at h
    cases hc : mainI64 createRev.main with
    | error e => simp [hc, bind, Except.bind] at h
    | ok create =>
      obtain ⟨-, rfl⟩ := mainI64_ok.mp hc
      simp only [hc, bind, Except.bind] at h
      split at h
      · cases h
      rename_i heq
      split at heq
      · cases heq
      rename_i hnew
      cases heq
      cases h
      refine ⟨_, rfl, rfl, rfl, fun o ho hk hm ↦ hnew ⟨o, ho, hk, hm⟩, rfl⟩
  · simp only [write, insertVersion, bind, Except.bind] at h
    split at h
    · cases h
    rename_i heq
    split at heq
    · cases heq
    rename_i hnew
    cases heq
    cases h
    exact ⟨_, rfl, rfl, rfl, fun o ho hk hm ↦ hnew ⟨o, ho, hk, hm⟩, rfl⟩

theorem getElem?_latest_insert {r : VersionRow V} {k : List Byte} :
    (s.insert r).latest[k]? = if r.key = k then r.latest? else s.latest[k]? := by
  rw [insert_latest]
  cases r.latest? <;>
    simp only [Std.ExtTreeMap.getElem?_insert, Std.ExtTreeMap.getElem?_erase, compare_eq_iff_eq]

end Calls

/-! ## What the tables hold -/

/-- The tables hold `rows`, of which none is stamped above `n`, compacted at `c`. -/
structure Tables (s : SqliteBackend V) (rows : List (VersionRow V)) (c n : ℕ) : Prop where
  ordered : UpdateLog.Ordered VersionRow.key VersionRow.main rows
  stamped : ∀ r ∈ rows, r.main ≤ n
  versions : s.versions = compactRows c rows
  latest : ∀ k : List Byte, s.latest[k]? = (liveRow rows k n).bind VersionRow.latest?

/-- The state `s`, to which `rows` were written, stands for the abstract store `a`. -/
structure Refines (s : SqliteBackend V) (rows : List (VersionRow V)) (a : Mvcc (List Byte) V) :
    Prop where
  tables : s.Tables rows a.compacted a.head
  written : rows.map VersionRow.entry = entries a.history
  head : s.head = a.head
  metaHead : s.metaHead = a.head
  compacted : s.compacted = a.compacted
  bound : a.head < 2 ^ 63

section Tables

variable {s s' : SqliteBackend V} {rows : List (VersionRow V)} {a : Mvcc (List Byte) V}
  {c n m main : ℕ} {k : List Byte}

theorem refines_new : (new : SqliteBackend V).Refines [] .empty where
  tables := ⟨.nil, by simp, rfl, fun k ↦ by simp [new, UpdateLog.live]⟩
  written := rfl
  head := rfl
  metaHead := rfl
  compacted := rfl
  bound := Nat.two_pow_pos 63

theorem Tables.mono (h : s.Tables rows c n) (hle : n ≤ m) : s.Tables rows c m where
  ordered := h.ordered
  stamped r hr := (h.stamped r hr).trans hle
  versions := h.versions
  latest k := by rw [h.latest, liveRow, liveRow, UpdateLog.live_mono h.stamped hle]

theorem Tables.write {p : Write (List Byte) V × ℕ} (h : s.Tables rows c main) (hc : c < main)
    (hw : write main s p = .ok s') :
    s'.compacted = s.compacted ∧ ∃ r : VersionRow V, r.entry = p.1.entry ⟨main, p.2⟩ ∧
      s'.Tables (rows ++ [r]) c main := by
  obtain ⟨r, hr, -, hentry, hnew, rfl⟩ := write_cases hw
  refine ⟨rfl, r, hentry, ?_, fun o ho ↦ ?_, ?_, fun k ↦ ?_⟩
  · refine List.pairwise_append.mpr ⟨h.ordered, List.pairwise_singleton _ _, fun o ho r' hr' ↦ ?_⟩
    obtain rfl := List.mem_singleton.mp hr'
    refine ⟨hr ▸ h.stamped o ho, fun hk ↦ ?_⟩
    -- A row of this transaction is above the compaction point, so the table still has it.
    have hne : o.main ≠ main := fun hm ↦ by
      refine hnew o ?_ hk hm
      rw [h.versions, UpdateLog.mem_compact]
      exact ⟨ho, .inl (hm ▸ hc)⟩
    have := h.stamped o ho
    omega
  · obtain ho | ho := List.mem_append.mp ho
    · exact h.stamped o ho
    · rw [List.mem_singleton.mp ho, hr]
  · rw [insert_versions, h.versions, compactRows, compactRows,
      UpdateLog.compact_append_later fun o ho ↦ by rw [List.mem_singleton.mp ho, hr]; exact hc]
  · have hlive : liveRow (rows ++ [r]) k main = _ := UpdateLog.live_snoc
    rw [getElem?_latest_insert, h.latest, hlive]
    by_cases hk : r.key = k
    · rw [if_pos hk, if_pos ⟨hk, hr.le⟩]
      cases hl : r.live <;> simp [VersionRow.latest?, hl]
    · rw [if_neg hk, if_neg fun h ↦ hk h.1]

/-- **A transaction is new rows at the end of those written before.** -/
theorem Tables.writes {ps : List (Write (List Byte) V × ℕ)} (hc : c < main)
    (h : s.Tables rows c main) (hw : ps.foldlM (SqliteBackend.write main) s = .ok s') :
    s'.compacted = s.compacted ∧ ∃ new : List (VersionRow V),
      new.map VersionRow.entry = ps.map (fun p ↦ p.1.entry ⟨main, p.2⟩) ∧
      s'.Tables (rows ++ new) c main := by
  induction ps generalizing s rows with
  | nil =>
    cases hw
    exact ⟨rfl, [], rfl, by rwa [List.append_nil]⟩
  | cons p ps ih =>
    rw [List.foldlM_cons] at hw
    cases hp : SqliteBackend.write main s p with
    | error e => simp [hp, bind, Except.bind] at hw
    | ok t =>
      obtain ⟨hcomp, r, hr, ht⟩ := h.write hc hp
      rw [hp] at hw
      obtain ⟨hcomp', new, hnew, hs'⟩ := ih ht hw
      refine ⟨hcomp'.trans hcomp, r :: new, by simp [hr, hnew], ?_⟩
      rwa [List.append_assoc] at hs'

theorem Refines.commit {expect at_ : ℕ} {batch : List (Write (List Byte) V)}
    (h : s.Refines rows a) (hs : s.commit expect batch = .ok (s', at_)) :
    expect = a.head ∧ at_ = a.head + 1 ∧ ∃ rows', s'.Refines rows' (a.append batch) := by
  rw [SqliteBackend.commit] at hs
  split at hs
  · cases hs
  rename_i he
  have he : expect = a.head := by
    rw [← h.head]
    exact (not_not.mp he).symm
  cases hm : mainI64 (expect + 1) with
  | error e => simp [hm, bind, Except.bind] at hs
  | ok main =>
    obtain ⟨hbound, rfl⟩ := mainI64_ok.mp hm
    cases hw : batch.zipIdx.foldlM (SqliteBackend.write (expect + 1)) s with
    | error e => simp [hm, hw, bind, Except.bind] at hs
    | ok t =>
      simp only [hm, hw, bind, Except.bind, pure, Except.pure, Except.ok.injEq,
        Prod.mk.injEq] at hs
      obtain ⟨rfl, rfl⟩ := hs
      subst he
      have hc : a.compacted < a.head + 1 := Nat.lt_succ_of_le a.compacted_le
      obtain ⟨hcomp, new, hnew, ht⟩ := (h.tables.mono (Nat.le_succ a.head)).writes hc hw
      refine ⟨rfl, rfl, rows ++ new, ⟨ht.ordered, ht.stamped, ht.versions, ht.latest⟩, ?_, rfl, rfl,
        hcomp.trans h.compacted, hbound⟩
      rw [List.map_append, h.written, hnew, Mvcc.append_history, entries_append, entries_cons,
        entries_nil, List.append_nil, Txn.entries]

/-- **A compaction of the window is one of the whole table.** -/
theorem Refines.compact (h : s.Refines rows a) (rev : ℕ) :
    ∃ s', s.compact rev = .ok s' ∧ s'.versions = compactRows s'.compacted s.versions ∧
      ∃ a', s'.Refines rows a' ∧ a'.history = a.history := by
  rw [SqliteBackend.compact, h.compacted, h.metaHead]
  generalize hto : min (min rev a.head) (s.floor.getD (2 ^ 64 - 1)) = to_
  split
  · refine ⟨s, rfl, ?_, a, h, rfl⟩
    rw [h.compacted, h.tables.versions, compactRows, compactRows,
      UpdateLog.compact_compact (le_refl _)]
  · rename_i hlt
    have hle : to_ ≤ a.head := by omega
    have hcomp : (a.compact to_).compacted = to_ := by
      rw [Mvcc.compact_compacted, min_eq_left hle, max_eq_right (by omega)]
    have hbound := h.bound
    have hc := a.compacted_le
    rw [mainI64_of_lt (by omega : a.compacted < 2 ^ 63), mainI64_of_lt (by omega : to_ < 2 ^ 63)]
    have hwindow : UpdateLog.compactWindow VersionRow.key VersionRow.main (·.live.isNone)
        a.compacted to_ s.versions = compactRows to_ s.versions := by
      refine UpdateLog.compact_window fun r hr ↦ ?_
      rw [h.tables.versions] at hr ⊢
      exact UpdateLog.survives_compact hr
    refine ⟨_, rfl, hwindow, a.compact to_, ⟨⟨h.tables.ordered, h.tables.stamped, ?_,
      h.tables.latest⟩, h.written, h.head, rfl, hcomp.symm, h.bound⟩, rfl⟩
    rw [hcomp]
    refine hwindow.trans ?_
    rw [h.tables.versions, compactRows, compactRows, UpdateLog.compact_compact (by omega)]

theorem Refines.setCompactionFloor {rev : ℕ} (h : s.Refines rows a)
    (hs : s.setCompactionFloor rev = .ok s') : s'.Refines rows a := by
  rw [SqliteBackend.setCompactionFloor] at hs
  cases hm : mainI64 rev with
  | error e => simp [hm, bind, Except.bind] at hs
  | ok rev =>
    rw [hm] at hs
    cases hs
    exact ⟨⟨h.tables.ordered, h.tables.stamped, h.tables.versions, h.tables.latest⟩, h.written,
      h.head, h.metaHead, h.compacted, h.bound⟩

theorem Refines.clearCompactionFloor (h : s.Refines rows a) :
    s.clearCompactionFloor.Refines rows a :=
  ⟨⟨h.tables.ordered, h.tables.stamped, h.tables.versions, h.tables.latest⟩, h.written, h.head,
    h.metaHead, h.compacted, h.bound⟩

/-- A jump moves the head and writes no row. -/
theorem Refines.jump {from_ through : ℕ} (h : s.Refines rows a)
    (hs : s.jump from_ through = .ok s') : ∃ a', s'.Refines rows a' ∧ a'.history = a.history := by
  rw [SqliteBackend.jump] at hs
  split at hs
  · cases hs
  rw [recordJump, h.head] at hs
  split at hs
  · cases hs
  rename_i hlt
  split at hs
  · cases hs
  cases hf : mainI64 (a.head + 1) with
  | error e => simp [hf, bind, Except.bind] at hs
  | ok from_ =>
    cases ht : mainI64 through with
    | error e => simp [hf, ht, bind, Except.bind] at hs
    | ok to_ =>
      obtain ⟨hbound, rfl⟩ := mainI64_ok.mp ht
      simp only [hf, ht, bind, Except.bind] at hs
      split at hs
      · cases hs
      rename_i heq
      split at heq
      · cases heq
      cases heq
      cases hs
      have ht := h.tables.mono (not_le.mp hlt).le
      exact ⟨a.jump to_ (not_le.mp hlt), ⟨⟨ht.ordered, ht.stamped, ht.versions, ht.latest⟩,
        h.written, rfl, rfl, h.compacted, hbound⟩, rfl⟩

end Tables

/-! ## Reads of the tables -/

section Reads

variable {s : SqliteBackend V} {rows : List (VersionRow V)} {a : Mvcc (List Byte) V} {at_ n : ℕ}
  {k : List Byte} {v : Version V}

/-- What the fold has at a key is the live row there. -/
theorem Refines.getElem?_snapshot (h : s.Refines rows a) :
    (snapshot a.history at_)[k]? = (liveRow rows k at_).bind VersionRow.version? := by
  have hversion (r : VersionRow V) : r.entry.version? = r.version? := by
    rw [LogEntry.version?, VersionRow.entry, VersionRow.version?]
    cases r.live <;> rfl
  have hlive : liveEntry (rows.map VersionRow.entry) k at_ =
      (liveRow rows k at_).map VersionRow.entry := by
    -- The fold's keys are compared by their order, the table's as lists.
    have hinst : (LinearOrder.toDecidableEq : DecidableEq (List Byte)) = instDecidableEqList :=
      Subsingleton.elim _ _
    have hdead : (fun e : LogEntry (List Byte) V ↦ e.value.isNone) ∘ VersionRow.entry =
        fun r : VersionRow V ↦ r.live.isNone :=
      funext fun r ↦ Option.isNone_map
    rw [liveEntry, hinst, UpdateLog.live_map, hdead]
    rfl
  rw [Store.getElem?_snapshot, ← h.written, hlive, Option.bind_map]
  exact Option.bind_congr fun r _ ↦ hversion r

/-- What `latest` has at a key is what the fold has there at the head. -/
theorem Refines.latest (h : s.Refines rows a) :
    s.latest[k]?.map LatestRow.toVersion = (snapshot a.history a.head)[k]? := by
  rw [h.tables.latest, h.getElem?_snapshot, Option.map_bind]
  refine Option.bind_congr fun r _ ↦ ?_
  simp only [Function.comp_apply, VersionRow.latest?, VersionRow.version?, Option.map_map]
  rfl

/-- The row `ORDER BY main DESC LIMIT 1` finds is the newest. -/
theorem head?_insertionSort (ho : UpdateLog.Ordered VersionRow.key VersionRow.main rows) :
    ((rows.filter fun r ↦ r.key = k ∧ r.main ≤ n).insertionSort fun a b ↦ b.main ≤ a.main).head? =
      UpdateLog.newest VersionRow.key VersionRow.main rows k n := by
  have : Std.Total fun a b : VersionRow V ↦ b.main ≤ a.main := ⟨fun a b ↦ le_total b.main a.main⟩
  have : IsTrans (VersionRow V) fun a b ↦ b.main ≤ a.main := ⟨fun _ _ _ h h' ↦ h'.trans h⟩
  generalize hl : (rows.filter fun r ↦ r.key = k ∧ r.main ≤ n).insertionSort
    (fun a b ↦ b.main ≤ a.main) = l
  have hmem (r : VersionRow V) : r ∈ l ↔ r ∈ rows ∧ r.key = k ∧ r.main ≤ n := by
    rw [← hl, List.mem_insertionSort, List.mem_filter, decide_eq_true_eq]
  have hsorted : l.Pairwise fun a b ↦ b.main ≤ a.main := hl ▸ List.pairwise_insertionSort _ _
  cases l with
  | nil =>
    refine (UpdateLog.newest_eq_none.mpr fun r hr hk ↦ ?_).symm
    by_contra hn
    exact absurd ((hmem r).mpr ⟨hr, hk, not_lt.mp hn⟩) (List.not_mem_nil)
  | cons r l =>
    obtain ⟨hr, hk, hn⟩ := (hmem r).mp (List.mem_cons_self)
    refine ((UpdateLog.newest_iff ho).mpr ⟨hr, hk, hn, fun r' hr' hk' hn' ↦ ?_⟩).symm
    obtain rfl | hl := List.mem_cons.mp ((hmem r').mpr ⟨hr', hk', hn'⟩)
    · exact le_refl _
    · exact (List.pairwise_cons.mp hsorted).1 r' hl

theorem bind_version? {o : Option (VersionRow V)} :
    o.bind VersionRow.version? = (o.filter fun r ↦ !r.live.isNone).bind VersionRow.version? := by
  cases o with
  | none => rfl
  | some r => cases hl : r.live <;> simp [Option.filter, VersionRow.version?, hl]

/-- **Either source has at a key what the fold has there.** -/
theorem Refines.select_at (h : s.Refines rows a) (hc : a.compacted ≤ at_) (hh : at_ ≤ a.head) :
    s.select k (.at_ at_) = (snapshot a.history at_)[k]? := by
  have hbound := h.bound
  have ho : UpdateLog.Ordered VersionRow.key VersionRow.main s.versions :=
    h.tables.versions ▸ h.tables.ordered.compact
  have hat : (mainI64 at_).toOption.getD (2 ^ 63 - 1) = at_ := by
    rw [mainI64_of_lt (by omega : at_ < 2 ^ 63)]
    rfl
  rw [select, head?_insertionSort ho, hat, bind_version?, h.tables.versions, h.getElem?_snapshot]
  exact congrArg (Option.bind · VersionRow.version?) (UpdateLog.live_compact h.tables.ordered hc)

theorem Refines.select_head (h : s.Refines rows a) :
    s.select k .head = (snapshot a.history a.head)[k]? := h.latest

theorem Refines.rangeRows_head (h : s.Refines rows a) (lo : List Byte) (hi : Option (List Byte))
    (limit : ℕ) :
    s.rangeRows lo hi limit .head =
      .ok (((snapshot a.history a.head).toList.filter fun e ↦ within lo hi e.1).take limit) := by
  rw [rangeRows, List.map_take]
  refine congrArg (fun l ↦ Except.ok (List.take limit l)) (Snapshot.eq_filter_toList ?_ fun k v ↦ ?_)
  · exact List.pairwise_map.mpr ((KeyMap.pairwise_toList s.latest).filter _)
  · rw [← h.latest, Option.map_eq_some_iff, List.mem_map]
    constructor
    · rintro ⟨⟨k', r⟩, hr, he⟩
      obtain ⟨rfl, rfl⟩ := Prod.mk.inj he
      obtain ⟨hr, hw⟩ := List.mem_filter.mp hr
      exact ⟨⟨r, KeyMap.mem_toList.mp hr, rfl⟩, hw⟩
    · rintro ⟨⟨r, hr, rfl⟩, hw⟩
      exact ⟨(k, r), List.mem_filter.mpr ⟨KeyMap.mem_toList.mpr hr, hw⟩,
        rfl⟩

/-- Of an ordered table, a group's row is the newest of its key. -/
theorem mem_groupByKey {p : List Byte → Bool} {r : VersionRow V}
    (ho : UpdateLog.Ordered VersionRow.key VersionRow.main rows) :
    r ∈ (groupByKey (rows.filter fun r ↦ p r.key ∧ r.main ≤ n)).filter (·.live.isSome) ↔
      liveRow rows r.key n = some r ∧ p r.key := by
  rw [UpdateLog.live_iff ho, groupByKey]
  simp only [List.mem_filter, decide_eq_true_eq, Option.isNone_eq_false_iff]
  constructor
  · rintro ⟨⟨⟨hr, hp, hn⟩, hmax⟩, hlive⟩
    exact ⟨⟨hr, trivial, hn, hlive, fun o ho hk hn' ↦ hmax o ⟨ho, hk ▸ hp, hn'⟩ hk⟩, hp⟩
  · rintro ⟨⟨hr, -, hn, hlive, hmax⟩, hp⟩
    exact ⟨⟨⟨hr, hp, hn⟩, fun o ho hk ↦ hmax o ho.1 hk ho.2.2⟩, hlive⟩

/-- Of an ordered table, every key has one row in its group. -/
theorem pairwise_groupByKey {p : VersionRow V → Bool}
    (ho : UpdateLog.Ordered VersionRow.key VersionRow.main rows) :
    ((groupByKey (rows.filter p)).filter (·.live.isSome)).Pairwise (·.key ≠ ·.key) := by
  refine List.Pairwise.filter _ (List.Pairwise.imp_of_mem ?_ ((ho.filter p).filter _))
  intro r o hr hr' hlt hk
  have hmax := (List.mem_filter.mp hr).2
  rw [decide_eq_true_eq] at hmax
  have := hmax o (List.mem_filter.mp hr').1 hk.symm
  have := hlt.2 hk
  omega

theorem filterMap_take {α β : Type} {f : α → Option β} {l : List α} {m : ℕ}
    (h : ∀ x ∈ l, (f x).isSome) : (l.take m).filterMap f = (l.filterMap f).take m := by
  induction l generalizing m with
  | nil => simp
  | cons x l ih =>
    obtain ⟨y, hy⟩ := Option.isSome_iff_exists.mp (h x (by simp))
    cases m with
    | zero => rfl
    | succ m => simp [hy, ih fun x hx ↦ h x (by simp [hx])]

/-- **A range over `versions` is that part of the fold.** -/
theorem Refines.rangeRows_at (h : s.Refines rows a) (hc : a.compacted ≤ at_) (hh : at_ ≤ a.head)
    (lo : List Byte) (hi : Option (List Byte)) (limit : ℕ) :
    s.rangeRows lo hi limit (.at_ at_) =
      .ok (((snapshot a.history at_).toList.filter fun e ↦ within lo hi e.1).take limit) := by
  have hbound := h.bound
  have ho : UpdateLog.Ordered VersionRow.key VersionRow.main s.versions :=
    h.tables.versions ▸ h.tables.ordered.compact
  have hlive (k : List Byte) : liveRow s.versions k at_ = liveRow rows k at_ := by
    rw [h.tables.versions]
    exact UpdateLog.live_compact h.tables.ordered hc
  rw [rangeRows, mainI64_of_lt (by omega : at_ < 2 ^ 63)]
  set group := (groupByKey (s.versions.filter fun r ↦ within lo hi r.key ∧ r.main ≤ at_)).filter
    (·.live.isSome)
  have hgroup (r : VersionRow V) :
      r ∈ group ↔ liveRow rows r.key at_ = some r ∧ within lo hi r.key := by
    rw [mem_groupByKey ho, hlive]
  set sorted := group.insertionSort fun a b ↦ a.key ≤ b.key
  have hsorted : sorted.Pairwise (·.key < ·.key) := by
    have : Std.Total fun a b : VersionRow V ↦ a.key ≤ b.key := ⟨fun a b ↦ le_total a.key b.key⟩
    have : IsTrans (VersionRow V) fun a b ↦ a.key ≤ b.key := ⟨fun _ _ _ h h' ↦ h.trans h'⟩
    have hne : sorted.Pairwise (·.key ≠ ·.key) :=
      (List.perm_insertionSort _ group).pairwise_iff (fun h ↦ h.symm) |>.mpr
        (pairwise_groupByKey ho)
    exact (hne.and (List.pairwise_insertionSort (fun a b : VersionRow V ↦ a.key ≤ b.key) group)).imp
      fun h ↦ lt_of_le_of_ne h.2 h.1
  have hsome (r : VersionRow V) (hr : r ∈ sorted) : ∃ v, r.version? = some v := by
    have hr := List.mem_filter.mp ((List.mem_insertionSort _).mp hr)
    obtain ⟨l, hl⟩ := Option.isSome_iff_exists.mp hr.2
    exact ⟨_, by rw [VersionRow.version?, hl]; rfl⟩
  refine congrArg Except.ok ((filterMap_take fun r hr ↦ ?_).trans
    (congrArg (List.take limit) (Snapshot.eq_filter_toList ?_ fun k v ↦ ?_)))
  · obtain ⟨v, hv⟩ := hsome r hr
    rw [hv]
    rfl
  · refine List.pairwise_filterMap.mpr (hsorted.imp fun hlt e he e' he' ↦ ?_)
    obtain ⟨v, -, rfl⟩ := Option.map_eq_some_iff.mp he
    obtain ⟨v', -, rfl⟩ := Option.map_eq_some_iff.mp he'
    exact hlt
  · rw [h.getElem?_snapshot, Option.bind_eq_some_iff, List.mem_filterMap]
    constructor
    · rintro ⟨r, hr, he⟩
      obtain ⟨v', hv, he⟩ := Option.map_eq_some_iff.mp he
      obtain ⟨rfl, rfl⟩ := Prod.mk.inj he
      obtain ⟨hlive, hw⟩ := (hgroup r).mp ((List.mem_insertionSort _).mp hr)
      exact ⟨⟨r, hlive, hv⟩, hw⟩
    · rintro ⟨⟨r, hr, hv⟩, hw⟩
      obtain rfl := ((UpdateLog.live_iff h.tables.ordered).mp hr).2.1
      exact ⟨r, (List.mem_insertionSort _).mpr ((hgroup r).mpr ⟨hr, hw⟩), by rw [hv]; rfl⟩

theorem Refines.select_source (h : s.Refines rows a) (hc : a.compacted ≤ at_)
    (hh : at_ ≤ a.head) : s.select k (s.source at_) = (snapshot a.history at_)[k]? := by
  rw [source, h.metaHead]
  split <;> rename_i he
  · rw [he, h.select_head]
  · exact h.select_at hc hh

theorem Refines.rangeRows_source (h : s.Refines rows a) (hc : a.compacted ≤ at_)
    (hh : at_ ≤ a.head) (lo : List Byte) (hi : Option (List Byte)) (limit : ℕ) :
    s.rangeRows lo hi limit (s.source at_) =
      .ok (((snapshot a.history at_).toList.filter fun e ↦ within lo hi e.1).take limit) := by
  rw [source, h.metaHead]
  split <;> rename_i he
  · rw [he, h.rangeRows_head]
  · exact h.rangeRows_at hc hh lo hi limit

theorem Refines.readable (h : s.Refines rows a) (at_ : ℕ) : s.readable at_ = a.readable at_ := by
  rw [SqliteBackend.readable, Mvcc.readable, h.compacted, h.metaHead]

theorem Refines.get (h : s.Refines rows a) (key : List Byte) (at_ : ℕ) :
    s.get key at_ = a.get key at_ := by
  rw [SqliteBackend.get, Mvcc.get, h.readable]
  cases hr : a.readable at_ with
  | error e => rfl
  | ok u =>
    obtain ⟨hc, hh⟩ := Mvcc.readable_ok hr
    rw [h.select_source hc hh]

/-- The bounds of a prefix hold exactly the keys under it. -/
theorem within_bounds {p : List Byte} {after : Option (List Byte)} :
    within (lowerBound p after) (successor p) k =
      (KeyPrefix.starts p k && KeyPrefix.past after k) := by
  rw [Bool.eq_iff_iff, Bool.and_eq_true, KeyPrefix.starts_list, KeyPrefix.starts_after_iff, within,
    Bool.and_eq_true, decide_eq_true_eq]
  cases successor p <;> simp

theorem Refines.range (h : s.Refines rows a) (p : List Byte) (after : Option (List Byte))
    (limit at_ : ℕ) : s.range p after limit at_ = a.range p after limit at_ := by
  rw [SqliteBackend.range, Mvcc.range, h.readable]
  cases hr : a.readable at_ with
  | error e => rfl
  | ok u =>
    obtain ⟨hc, hh⟩ := Mvcc.readable_ok hr
    rw [h.rangeRows_source hc hh, Snapshot.range]
    simp only [within_bounds]
    rfl

/-- The bytes of `"events0"`, past every key under `events/`. -/
theorem successor_eventsPrefix :
    successor eventsPrefix = some [101, 118, 101, 110, 116, 115, 48] := by decide

/-- The keys outside `events/` are those below it and those past it. -/
theorem within_events {after : Option (List Byte)} {past : List Byte}
    (hpast : successor eventsPrefix = some past) :
    (!KeyPrefix.starts eventsPrefix k && KeyPrefix.past after k) =
      (within (lowerBound [] after) (some eventsPrefix) k ||
        within (max (lowerBound [] after) past) none k) := by
  have hlo : KeyPrefix.past after k ↔ lowerBound [] after ≤ k :=
    (KeyPrefix.lowerBound_le_iff List.nil_prefix).symm
  have hevents : KeyPrefix.starts eventsPrefix k ↔ eventsPrefix ≤ k ∧ k < past := by
    rw [KeyPrefix.starts_list, KeyPrefix.starts_iff_range, hpast]
    simp
  rw [Bool.eq_iff_iff, Bool.and_eq_true, hlo, Bool.not_eq_true', ← Bool.not_eq_true, hevents,
    Bool.or_eq_true]
  simp only [within, Option.all_some, Option.all_none, Bool.and_true, Bool.and_eq_true,
    decide_eq_true_eq, max_le_iff, not_and_or, not_le, not_lt]
  tauto

/-- The part of a snapshot outside `events/` is the part below it and then the part past it. -/
theorem filter_events {m : Snapshot (List Byte) V} {after : Option (List Byte)} {past : List Byte}
    (hpast : successor eventsPrefix = some past) :
    m.toList.filter (fun e ↦ !KeyPrefix.starts eventsPrefix e.1 && KeyPrefix.past after e.1) =
      m.toList.filter (fun e ↦ within (lowerBound [] after) (some eventsPrefix) e.1) ++
        m.toList.filter fun e ↦ within (max (lowerBound [] after) past) none e.1 := by
  simp only [within_events hpast]
  refine (Snapshot.eq_filter_toList (p := fun k ↦
    within (lowerBound [] after) (some eventsPrefix) k ||
      within (max (lowerBound [] after) past) none k) ?_ fun k v ↦ ?_).symm
  · have hs := KeyMap.pairwise_toList m
    refine List.pairwise_append.mpr ⟨hs.filter _, hs.filter _, fun e he e' he' ↦ ?_⟩
    have hlt : eventsPrefix ≤ past :=
      ((KeyPrefix.starts_iff_range.mp (List.prefix_refl eventsPrefix)).2 past hpast).le
    have h₁ := (List.mem_filter.mp he).2
    have h₂ := (List.mem_filter.mp he').2
    simp only [within, Option.all_some, Option.all_none, Bool.and_true, Bool.and_eq_true,
      decide_eq_true_eq, max_le_iff] at h₁ h₂
    exact h₁.2.trans_le (hlt.trans h₂.2)
  · rw [List.mem_append, List.mem_filter, List.mem_filter, KeyMap.mem_toList, Bool.or_eq_true]
    tauto

theorem Refines.gcRange (h : s.Refines rows a) (hc : a.compacted ≤ at_) (hh : at_ ≤ a.head)
    (after : Option (List Byte)) (limit : ℕ) :
    s.gcRange after limit at_ =
      .ok ((snapshot a.history at_).gcRange eventsPrefix after limit) := by
  obtain ⟨past, hpast⟩ : ∃ past, successor eventsPrefix = some past := ⟨_, successor_eventsPrefix⟩
  rw [SqliteBackend.gcRange, h.readable, Mvcc.readable_of_le hc hh, hpast, Snapshot.gcRange,
    filter_events hpast, List.take_append]
  simp only [h.rangeRows_source hc hh, Option.getD_some]
  set below := (snapshot a.history at_).toList.filter fun e ↦
    within (lowerBound [] after) (some eventsPrefix) e.1 with hbelow
  -- Where the lower bound is past `events/` already, nothing is below it.
  have hout : (if lowerBound [] after < eventsPrefix then .ok (below.take limit) else .ok [] :
      Except BackendError (List (List Byte × Version V))) = .ok (below.take limit) := by
    split <;> rename_i hlo
    · rfl
    · have : below = [] := List.filter_eq_nil_iff.mpr fun e _ hw ↦ by
        simp only [within, Option.all_some, Bool.and_eq_true, decide_eq_true_eq] at hw
        exact hlo (hw.1.trans_lt hw.2)
      rw [this, List.take_nil]
  rw [hout]
  simp only [bind, Except.bind, List.length_take]
  split <;> rename_i hlen
  · rw [Nat.min_eq_right (by omega)]
    rfl
  · rw [Nat.sub_eq_zero_of_le (by omega : limit ≤ below.length), List.take_zero, List.append_nil]
    rfl

end Reads

/-! ## The log -/

section Log

variable {s : SqliteBackend V} {rows : List (VersionRow V)} {a : Mvcc (List Byte) V}
  {from_ n : ℕ} {ts : List (Txn (List Byte) V)}

/-- The numbers of the transactions in the rows, each once and in order. -/
theorem mains_of_entries {mains : List ℕ} (hinc : ts.Pairwise fun t u ↦ t.main < u.main)
    (hw : ∀ t ∈ ts, t.writes ≠ []) (hm : mains = (entries ts).map (·.rev.main)) :
    mains.dedup.insertionSort (· ≤ ·) = ts.map (·.main) := by
  have hsorted : (mains.dedup.insertionSort (· ≤ ·)).Pairwise (· < ·) := by
    have hne : (mains.dedup.insertionSort (· ≤ ·)).Pairwise (· ≠ ·) :=
      (List.perm_insertionSort _ _).pairwise_iff (fun h ↦ h.symm) |>.mpr (List.nodup_dedup mains)
    exact (hne.and (List.pairwise_insertionSort (· ≤ ·) mains.dedup)).imp
      fun h ↦ lt_of_le_of_ne h.2 h.1
  refine hsorted.eq_of_mem_iff (List.pairwise_map.mpr hinc) fun m ↦ ?_
  rw [List.mem_insertionSort, List.mem_dedup, hm, List.mem_map, List.mem_map]
  constructor
  · rintro ⟨e, he, rfl⟩
    obtain ⟨t, ht, he⟩ := List.mem_flatMap.mp he
    exact ⟨t, ht, (Txn.main_of_mem_entries he).symm⟩
  · rintro ⟨t, ht, rfl⟩
    obtain ⟨e, he⟩ := List.exists_mem_of_ne_nil _ (mt Txn.entries_eq_nil.mp (hw t ht))
    exact ⟨e, List.mem_flatMap.mpr ⟨t, ht, he⟩, Txn.main_of_mem_entries he⟩

/-- The transactions up to the last of the first `n` are the first `n`. -/
theorem filter_through {through : ℕ} (hinc : ts.Pairwise fun t u ↦ t.main < u.main)
    (hmax : ((ts.map (·.main)).take n).max? = some through) :
    ts.filter (fun t ↦ t.main ≤ through) = ts.take n := by
  rw [← List.map_take] at hmax
  obtain ⟨hmem, hle⟩ := List.max?_eq_some_iff.mp hmax
  obtain ⟨u, hu, rfl⟩ := List.mem_map.mp hmem
  rw [← List.take_append_drop n ts] at hinc
  have hdrop : (ts.drop n).filter (fun t ↦ t.main ≤ u.main) = [] :=
    List.filter_eq_nil_iff.mpr fun t ht ↦ by
      have := (List.pairwise_append.mp hinc).2.2 u hu t ht
      simpa using this
  have htake : (ts.take n).filter (fun t ↦ t.main ≤ u.main) = ts.take n :=
    List.filter_eq_self.mpr fun t ht ↦ by simpa using hle _ (List.mem_map_of_mem ht)
  calc ts.filter (fun t ↦ t.main ≤ u.main)
      = (ts.take n ++ ts.drop n).filter (fun t ↦ t.main ≤ u.main) := by
        rw [List.take_append_drop]
    _ = ts.take n := by rw [List.filter_append, hdrop, htake, List.append_nil]

/-- The rows a condition on their transactions picks are the entries of those transactions. -/
theorem Refines.map_filter (h : s.Refines rows a) {p : ℕ → Bool}
    (hp : ∀ m, p m → a.compacted < m) :
    (s.versions.filter fun r ↦ p r.main).map VersionRow.entry =
      entries (a.history.filter fun t ↦ p t.main) := by
  have hrows : s.versions.filter (fun r ↦ p r.main) = rows.filter fun r ↦ p r.main := by
    have hfilter (rs : List (VersionRow V)) : rs.filter (fun r ↦ p r.main) =
        (rs.filter fun r ↦ a.compacted < r.main).filter fun r ↦ p r.main := by
      rw [List.filter_filter]
      refine List.filter_congr fun r _ ↦ ?_
      rw [Bool.eq_iff_iff, Bool.and_eq_true, decide_eq_true_eq]
      exact ⟨fun hr ↦ ⟨hr, hp _ hr⟩, fun hr ↦ hr.1⟩
    rw [hfilter, h.tables.versions, UpdateLog.filter_compact (le_refl _), ← hfilter]
  rw [hrows, entries_filter, ← h.written, List.filter_map]
  rfl

/-- **The log is the transactions**, the first `n` of them that wrote anything. -/
theorem Refines.log (h : s.Refines rows a) (hc : a.compacted ≤ from_) (hh : from_ ≤ a.head)
    (n : ℕ) : s.log from_ n = .ok (logOf a.history from_ n) := by
  have hbound := h.bound
  rw [SqliteBackend.log, h.compacted, if_neg (not_lt.mpr hc), logOf]
  split <;> rename_i hn
  · rw [hn, List.take_zero, entries_nil]
  rw [mainI64_of_lt (by omega : from_ < 2 ^ 63)]
  simp only [bind, Except.bind]
  set ts := a.history.filter fun t ↦ from_ < t.main ∧ t.writes ≠ [] with hts
  have htail : ts = (a.history.filter fun t ↦ from_ < t.main).filter fun t ↦ t.writes ≠ [] := by
    rw [hts, List.filter_filter]
    exact List.filter_congr fun t _ ↦ by rw [Bool.decide_and, Bool.and_comm]
  have hinc : ts.Pairwise fun t u ↦ t.main < u.main := a.increasing.filter _
  have hwrites (t : Txn (List Byte) V) (ht : t ∈ ts) : t.writes ≠ [] := by
    rw [htail, List.mem_filter] at ht
    simpa using ht.2
  have hmains : (s.versions.map (·.main)).filter (from_ < ·) = (entries ts).map (·.rev.main) := by
    have habove (m : ℕ) (hm : decide (from_ < m)) : a.compacted < m :=
      hc.trans_lt (by simpa using hm)
    rw [htail, entries_filter_writes, ← h.map_filter habove, List.map_map, List.filter_map]
    rfl
  rw [mains_of_entries hinc hwrites hmains]
  cases hmax : ((ts.map (·.main)).take n).max? with
  | none =>
    rw [List.max?_eq_none_iff, ← List.map_take, List.map_eq_nil_iff] at hmax
    rw [hmax, entries_nil]
    rfl
  | some through =>
    have hrows : (s.versions.filter fun r ↦ from_ < r.main ∧ r.main ≤ through).map
        VersionRow.entry = entries (ts.take n) := by
      rw [← filter_through hinc hmax]
      refine (h.map_filter (p := fun m ↦ from_ < m ∧ m ≤ through) fun m hm ↦ ?_).trans ?_
      · rw [decide_eq_true_eq] at hm
        omega
      · rw [htail, ← entries_filter_writes, List.filter_filter, List.filter_filter,
          List.filter_filter]
        refine congrArg entries (List.filter_congr fun t _ ↦ ?_)
        simp only [Bool.decide_and, Bool.and_comm, Bool.and_left_comm, Bool.and_assoc]
    have hsorted : (s.versions.filter fun r ↦ from_ < r.main ∧ r.main ≤ through).Pairwise
        fun r o ↦ r.main < o.main ∨ (r.main = o.main ∧ r.sub ≤ o.sub) := by
      have := entries_pairwise (hinc.sublist (List.take_sublist n ts))
      rw [← hrows, List.pairwise_map] at this
      exact this.imp fun hlt ↦ hlt.imp id fun he ↦ ⟨he.1, he.2.le⟩
    dsimp only
    rw [hsorted.insertionSort_eq, hrows]
    rfl

end Log

/-! ## A batch that names each key once is committed -/

section Commits

variable {s : SqliteBackend V} {rows : List (VersionRow V)} {a : Mvcc (List Byte) V} {main : ℕ}

theorem write_ok {p : Write (List Byte) V × ℕ}
    (hp : ∀ key value createRev prev, p.1 = .put key value createRev prev →
      createRev.main < 2 ^ 63)
    (hnew : ∀ o ∈ s.versions, o.main = main → o.key ≠ p.1.key) :
    ∃ r : VersionRow V, r.key = p.1.key ∧ write main s p = .ok (s.insert r) := by
  have hinsert (r : VersionRow V) (hm : r.main = main) (hk : r.key = p.1.key) :
      s.insertVersion r = .ok { s with versions := s.versions ++ [r] } := by
    rw [insertVersion, if_neg]
    rintro ⟨o, ho, hok, hom⟩
    exact hnew o ho (hom.trans hm) (hok.trans hk)
  obtain ⟨⟨key, value, createRev, prev⟩ | ⟨key, prev⟩, sub⟩ := p
  · refine ⟨⟨key, main, sub, some (value, createRev), s.nextVersion key prev, prev⟩, rfl, ?_⟩
    simp only [write, mainI64_of_lt (hp key value createRev prev rfl), bind, Except.bind]
    rw [hinsert _ rfl rfl]
    rfl
  · refine ⟨⟨key, main, sub, none, 0, some prev⟩, rfl, ?_⟩
    simp only [write, bind, Except.bind]
    rw [hinsert _ rfl rfl]
    rfl

theorem foldlM_write_ok {ps : List (Write (List Byte) V × ℕ)}
    (hp : ∀ p ∈ ps, ∀ key value createRev prev, p.1 = .put key value createRev prev →
      createRev.main < 2 ^ 63)
    (hnodup : (ps.map (·.1.key)).Nodup)
    (hnew : ∀ o ∈ s.versions, o.main = main → o.key ∉ ps.map (·.1.key)) :
    ∃ s', ps.foldlM (write main) s = .ok s' := by
  induction ps generalizing s with
  | nil => exact ⟨s, rfl⟩
  | cons p ps ih =>
    rw [List.map_cons, List.nodup_cons] at hnodup
    obtain ⟨r, hr, hw⟩ := write_ok (hp p (by simp)) fun o ho hm hk ↦
      hnew o ho hm (by simp [hk])
    rw [List.foldlM_cons, hw]
    refine ih (fun q hq ↦ hp q (by simp [hq])) hnodup.2 fun o ho hm hmem ↦ ?_
    rw [insert_versions] at ho
    obtain ho | ho := List.mem_append.mp ho
    · exact hnew o ho hm (List.mem_cons_of_mem _ hmem)
    · rw [List.mem_singleton.mp ho, hr] at hmem
      exact hnodup.1 hmem

/-- **A batch at the head that names each key once is committed**, as long as its revisions are
within SQLite's integer. -/
theorem Refines.commit_ok {batch : List (Write (List Byte) V)} (h : s.Refines rows a)
    (hnodup : (batch.map Write.key).Nodup)
    (hp : ∀ key value createRev prev, .put key value createRev prev ∈ batch →
      createRev.main ≤ a.head + 1)
    (hbound : a.head + 1 < 2 ^ 63) : ∃ s', s.commit a.head batch = .ok (s', a.head + 1) := by
  have hkeys : batch.zipIdx.map (·.1.key) = batch.map Write.key := by
    calc batch.zipIdx.map (·.1.key) = (batch.zipIdx.map Prod.fst).map Write.key := by
          rw [List.map_map]
          rfl
      _ = batch.map Write.key := by rw [List.zipIdx_map_fst]
  obtain ⟨s', hs'⟩ : ∃ s', batch.zipIdx.foldlM (write (a.head + 1)) s = .ok s' := by
    refine foldlM_write_ok (fun q hq key value createRev prev he ↦ ?_) (hkeys ▸ hnodup)
      fun o ho hm ↦ ?_
    · have hmem : q.1 ∈ batch := by
        rw [← List.zipIdx_map_fst 0 batch]
        exact List.mem_map_of_mem hq
      have := hp key value createRev prev (he ▸ hmem)
      omega
    · rw [h.tables.versions] at ho
      have := h.tables.stamped o (UpdateLog.mem_compact.mp ho).1
      omega
  rw [SqliteBackend.commit, h.head, if_neg (not_not.mpr rfl), mainI64_of_lt hbound]
  simp only [bind, Except.bind]
  rw [hs']
  exact ⟨_, rfl⟩

end Commits

/-! ## Any sequence of calls -/

section Run

/-- The calls that write. -/
inductive Call (V : Type)
  | commit (expect : ℕ) (batch : List (Write (List Byte) V))
  | compact (rev : ℕ)
  | setCompactionFloor (rev : ℕ)
  | clearCompactionFloor
  | jump (from_ through : ℕ)

def call (s : SqliteBackend V) : Call V → Except BackendError (SqliteBackend V)
  | .commit expect batch => return (← s.commit expect batch).1
  | .compact rev => s.compact rev
  | .setCompactionFloor rev => s.setCompactionFloor rev
  | .clearCompactionFloor => .ok s.clearCompactionFloor
  | .jump from_ through => s.jump from_ through

/-- The transaction a call commits, when it answers `Ok`. -/
def Call.txns : Call V → List (Txn (List Byte) V)
  | .commit expect batch => [⟨expect + 1, batch⟩]
  | _ => []

/-- The state and the transactions committed so far, after one more call. -/
def step (p : SqliteBackend V × List (Txn (List Byte) V)) (c : Call V) :
    SqliteBackend V × List (Txn (List Byte) V) :=
  match p.1.call c with
  | .ok s => (s, p.2 ++ c.txns)
  | .error _ => p

/-- The state after a sequence of calls, a refused one skipped, and the transactions they
committed. -/
def run (calls : List (Call V)) : SqliteBackend V × List (Txn (List Byte) V) :=
  calls.foldl step (new, [])

theorem Refines.call {s s' : SqliteBackend V} {rows : List (VersionRow V)}
    {a : Mvcc (List Byte) V} {c : Call V} (h : s.Refines rows a) (hs : s.call c = .ok s') :
    ∃ rows' a', s'.Refines rows' a' ∧ a'.history = a.history ++ c.txns := by
  cases c with
  | commit expect batch =>
    rw [SqliteBackend.call] at hs
    cases hc : s.commit expect batch with
    | error e => simp [hc, bind, Except.bind] at hs
    | ok p =>
      rw [hc] at hs
      cases hs
      obtain ⟨rfl, -, rows', h'⟩ := h.commit hc
      exact ⟨rows', _, h', rfl⟩
  | compact rev =>
    obtain ⟨t, ht, -, a', h', ha⟩ := h.compact rev
    obtain rfl : t = s' := Except.ok.inj (ht.symm.trans hs)
    exact ⟨rows, a', h', ha.trans (List.append_nil _).symm⟩
  | setCompactionFloor rev =>
    exact ⟨rows, a, h.setCompactionFloor hs, (List.append_nil _).symm⟩
  | clearCompactionFloor =>
    cases hs
    exact ⟨rows, a, h.clearCompactionFloor, (List.append_nil _).symm⟩
  | jump from_ through =>
    obtain ⟨a', h', ha⟩ := h.jump hs
    exact ⟨rows, a', h', ha.trans (List.append_nil _).symm⟩

/-- The tables stand for the transactions committed, whatever the calls were. -/
theorem refines_run (calls : List (Call V)) :
    ∃ rows a, (run calls).1.Refines rows a ∧ a.history = (run calls).2 := by
  induction calls using List.reverseRecOn with
  | nil => exact ⟨[], .empty, refines_new, rfl⟩
  | append_singleton calls c ih =>
    obtain ⟨rows, a, h, ha⟩ := ih
    rw [run, List.foldl_append, List.foldl_cons, List.foldl_nil, ← run, step]
    cases hs : (run calls).1.call c with
    | error e => exact ⟨rows, a, h, ha⟩
    | ok s' =>
      obtain ⟨rows', a', h', ha'⟩ := h.call hs
      exact ⟨rows', a', h', by rw [ha', ha]⟩

end Run

end SqliteBackend

end Spira.Store
