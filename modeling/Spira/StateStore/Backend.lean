import Mathlib.Data.List.Sort
import Mathlib.Tactic.Simps.Basic
import Spira.Lib.Paging
import Spira.Lib.Prefix
import Spira.Lib.UpdateLog

/-!
# The seam every store sits behind, and what it means

A backend reads at a snapshot revision, commits a batch atomically if the head is still the one the
caller read, serves the watch log and compacts.  This file has the data that crosses the seam, and
`Mvcc`, the abstract store: nothing but the transactions committed so far, its head and its
compaction point.  It says what each call means:

* a read at `at` reads `snapshot h at`, the fold over the empty map of every transaction committed
  at or below `at`;
* the watch log is the transactions themselves, whole and in order;
* compaction moves the point below which reads are refused, and forgets nothing.

A backend is right if it answers as `Mvcc` does; the reference backend and the durable one are each
shown to in a file of their own.  `getElem?_snapshot` is what both need: the fold, read at one key,
is the newest update of that key.

Keys are any ordered type with prefixes, and values any type: what a value is, is the contract's.
-/

set_option autoImplicit false

namespace Spira.Store

/-! ## Revisions, writes and the log -/

/-- A revision: the transaction's number and the place of the write in it. -/
structure Rev where
  main : ℕ
  sub : ℕ
  deriving DecidableEq, Repr

/-- Revisions are ordered by transaction, and within one by place. -/
instance : LT Rev := ⟨fun a b ↦ a.main < b.main ∨ (a.main = b.main ∧ a.sub < b.sub)⟩

theorem Rev.lt_def {a b : Rev} : a < b ↔ a.main < b.main ∨ (a.main = b.main ∧ a.sub < b.sub) :=
  Iff.rfl

instance (a b : Rev) : Decidable (a < b) := decidable_of_iff _ Rev.lt_def.symm

theorem Rev.lt_irrefl (a : Rev) : ¬ a < a := by
  rw [Rev.lt_def]
  omega

theorem Rev.lt_trans {a b c : Rev} (h : a < b) (h' : b < c) : a < c := by
  rw [Rev.lt_def] at *
  omega

/-- A key as of a revision. -/
structure Version (V : Type) where
  value : V
  modRev : Rev
  createRev : Rev
  deriving DecidableEq, Repr

/-- One key of a batch. -/
inductive Write (K V : Type)
  | put (key : K) (value : V) (createRev : Rev) (prev : Option Rev)
  | delete (key : K) (prev : Rev)
  deriving DecidableEq, Repr

def Write.key {K V : Type} : Write K V → K
  | put key _ _ _ | delete key _ => key

/-- A committed write as the watch log serves it; `value` is `none` for a delete. -/
structure LogEntry (K V : Type) where
  key : K
  rev : Rev
  value : Option V
  createRev : Option Rev
  prev : Option Rev
  deriving DecidableEq, Repr

/-- What a backend refuses. -/
inductive BackendError
  /-- The revision asked for has been compacted away. -/
  | tooOld (compacted : ℕ)
  /-- A read at a revision the store has not reached. -/
  | futureRev (rev head : ℕ)
  /-- `commit`'s guard: the head moved since the batch was read. -/
  | stale (expected head : ℕ)
  | backend (text : String)
  deriving DecidableEq, Repr

section Transactions

variable {K V : Type}

/-- The log entry of the write at `rev`. -/
def Write.entry (rev : Rev) : Write K V → LogEntry K V
  | put key value createRev prev => ⟨key, rev, some value, some createRev, prev⟩
  | delete key prev => ⟨key, rev, none, none, some prev⟩

@[simp] theorem Write.entry_rev (rev : Rev) (w : Write K V) : (w.entry rev).rev = rev := by
  cases w <;> rfl

@[simp] theorem Write.entry_key (rev : Rev) (w : Write K V) : (w.entry rev).key = w.key := by
  cases w <;> rfl

/-- A committed transaction: its number and its writes. -/
structure Txn (K V : Type) where
  main : ℕ
  writes : List (Write K V)
  deriving DecidableEq, Repr

/-- The entries of a transaction, each at its place. -/
def Txn.entries (t : Txn K V) : List (LogEntry K V) :=
  t.writes.zipIdx.map fun p ↦ p.1.entry ⟨t.main, p.2⟩

theorem Txn.main_of_mem_entries {t : Txn K V} {e : LogEntry K V} (h : e ∈ t.entries) :
    e.rev.main = t.main := by
  obtain ⟨p, -, rfl⟩ := List.mem_map.mp h
  rw [Write.entry_rev]

/-- The entries of a history, oldest first. -/
def entries (h : List (Txn K V)) : List (LogEntry K V) := h.flatMap Txn.entries

@[simp] theorem entries_nil : entries ([] : List (Txn K V)) = [] := rfl

@[simp] theorem entries_cons (t : Txn K V) (h : List (Txn K V)) :
    entries (t :: h) = t.entries ++ entries h := by
  simp [entries]

@[simp] theorem entries_append (h h' : List (Txn K V)) :
    entries (h ++ h') = entries h ++ entries h' := by
  simp [entries]

theorem Txn.entries_eq_nil {t : Txn K V} : t.entries = [] ↔ t.writes = [] := by
  simp [Txn.entries]

/-- A condition on the transactions is one on their entries. -/
theorem entries_filter (p : ℕ → Bool) (h : List (Txn K V)) :
    entries (h.filter fun t ↦ p t.main) = (entries h).filter fun e ↦ p e.rev.main := by
  induction h with
  | nil => rfl
  | cons t h ih =>
    have ht : t.entries.filter (fun e ↦ p e.rev.main) = if p t.main then t.entries else [] := by
      rw [List.filter_congr fun e he ↦ by rw [Txn.main_of_mem_entries he]]
      split <;> rename_i hp <;> simp [hp]
    rw [entries_cons, List.filter_append, ht, ← ih, List.filter_cons]
    split <;> simp

/-- A transaction that wrote nothing has no entry. -/
theorem entries_filter_writes (h : List (Txn K V)) :
    entries (h.filter fun t ↦ t.writes ≠ []) = entries h := by
  induction h with
  | nil => rfl
  | cons t h ih =>
    rw [List.filter_cons, entries_cons]
    split <;> rename_i hw
    · rw [entries_cons, ih]
    · rw [Txn.entries_eq_nil.mpr (by simpa using hw), List.nil_append, ih]

/-- The entries of a transaction are in the order of their places. -/
theorem Txn.entries_pairwise (t : Txn K V) : t.entries.Pairwise (·.rev < ·.rev) := by
  rw [Txn.entries, List.pairwise_map, List.pairwise_iff_getElem]
  intro i j hi hj hij
  simp [Rev.lt_def, hij]

/-- **The entries of a history are in the order of their revisions.** -/
theorem entries_pairwise {h : List (Txn K V)} (hinc : h.Pairwise fun a b ↦ a.main < b.main) :
    (entries h).Pairwise (·.rev < ·.rev) := by
  refine List.pairwise_flatMap.mpr ⟨fun t _ ↦ t.entries_pairwise, hinc.imp fun hlt e he e' he' ↦ ?_⟩
  rw [Rev.lt_def, Txn.main_of_mem_entries he, Txn.main_of_mem_entries he']
  exact .inl hlt

/-- The first `n` transactions above `from_` that wrote anything, whole. -/
def logOf (h : List (Txn K V)) (from_ n : ℕ) : List (LogEntry K V) :=
  entries ((h.filter fun t ↦ from_ < t.main ∧ t.writes ≠ []).take n)

end Transactions

/-! ## Snapshots -/

section Snapshots

variable {K V : Type} [LinearOrder K]

/-- A map whose entries are in key order. -/
abbrev KeyMap (K α : Type) [LinearOrder K] := Std.ExtTreeMap K α

scoped instance transCmp : Std.TransCmp (compare : K → K → Ordering) := inferInstance

/-- The version of every key. -/
abbrev Snapshot (K V : Type) [LinearOrder K] := KeyMap K (Version V)

/-- One write on the map: the last put of a key is its version, and a delete removes it. -/
def applyWrite (main : ℕ) (m : Snapshot K V) (p : Write K V × ℕ) : Snapshot K V :=
  match p.1 with
  | .put key value createRev _ => m.insert key ⟨value, ⟨main, p.2⟩, createRev⟩
  | .delete key _ => m.erase key

/-- One transaction on the map. -/
def applyTxn (m : Snapshot K V) (t : Txn K V) : Snapshot K V :=
  t.writes.zipIdx.foldl (applyWrite t.main) m

/-- The fold over the empty map of every transaction committed at or below `at_`. -/
def snapshot (h : List (Txn K V)) (at_ : ℕ) : Snapshot K V :=
  (h.filter (·.main ≤ at_)).foldl applyTxn ∅

/-- The version a log entry leaves of its key. -/
def LogEntry.version? (e : LogEntry K V) : Option (Version V) :=
  match e.value, e.createRev with
  | some value, some createRev => some ⟨value, e.rev, createRev⟩
  | _, _ => none

/-- The live entry of `k` at `n` in a list of entries. -/
abbrev liveEntry (es : List (LogEntry K V)) (k : K) (n : ℕ) : Option (LogEntry K V) :=
  UpdateLog.live LogEntry.key (·.rev.main) (·.value.isNone) es k n

theorem getElem?_applyWrite {main : ℕ} {m : Snapshot K V} {p : Write K V × ℕ} {k : K} :
    (applyWrite main m p)[k]? =
      if p.1.key = k then (p.1.entry ⟨main, p.2⟩).version? else m[k]? := by
  rw [applyWrite]
  split <;>
    simp only [Std.ExtTreeMap.getElem?_insert, Std.ExtTreeMap.getElem?_erase,
      compare_eq_iff_eq] <;>
    simp [*, Write.key, Write.entry, LogEntry.version?]

/-- After several writes a key is what the last write of it left. -/
theorem getElem?_foldl_applyWrite {main : ℕ} {m : Snapshot K V} {ps : List (Write K V × ℕ)} {k : K} :
    (ps.foldl (applyWrite main) m)[k]? =
      match ps.reverse.find? (·.1.key = k) with
      | some p => (p.1.entry ⟨main, p.2⟩).version?
      | none => m[k]? := by
  induction ps using List.reverseRecOn with
  | nil => rfl
  | append_singleton ps p ih =>
    rw [List.foldl_append, List.foldl_cons, List.foldl_nil, getElem?_applyWrite, ih,
      List.reverse_append, List.reverse_singleton, List.singleton_append, List.find?_cons]
    by_cases hk : p.1.key = k <;> simp [hk]

theorem getElem?_applyTxn {m : Snapshot K V} {t : Txn K V} {es : List (LogEntry K V)} {n : ℕ}
    (hm : ∀ k, m[k]? = (liveEntry es k n).bind LogEntry.version?) (hn : t.main ≤ n) (k : K) :
    (applyTxn m t)[k]? = (liveEntry (es ++ t.entries) k n).bind LogEntry.version? := by
  rw [applyTxn, Txn.entries]
  generalize t.writes.zipIdx = ps
  induction ps using List.reverseRecOn generalizing k with
  | nil => simpa using hm k
  | append_singleton ps p ih =>
    rw [List.foldl_append, List.foldl_cons, List.foldl_nil, List.map_append, List.map_singleton,
      ← List.append_assoc, liveEntry, UpdateLog.live_snoc, Write.entry_key, Write.entry_rev]
    rw [getElem?_applyWrite]
    by_cases hk : p.1.key = k
    · rw [if_pos hk, if_pos ⟨hk, hn⟩]
      cases p.1 <;> simp [Write.entry, LogEntry.version?]
    · rw [if_neg hk, if_neg fun h ↦ hk h.1, ih]

/-- **The fold, read at one key, is the newest update of that key.** -/
theorem getElem?_snapshot (h : List (Txn K V)) (at_ : ℕ) (k : K) :
    (snapshot h at_)[k]? = (liveEntry (entries h) k at_).bind LogEntry.version? := by
  induction h using List.reverseRecOn generalizing k with
  | nil => simp [snapshot, entries, UpdateLog.live]
  | append_singleton h t ih =>
    rw [snapshot, List.filter_append, List.foldl_append, entries_append, entries_cons, entries_nil,
      List.append_nil]
    by_cases ht : t.main ≤ at_
    · simp only [List.filter_cons, List.filter_nil, ht, decide_true, if_true, List.foldl_cons,
        List.foldl_nil]
      exact getElem?_applyTxn ih ht k
    · have hlater : ∀ e ∈ t.entries, at_ < e.rev.main := fun e he ↦ by
        rw [Txn.main_of_mem_entries he]
        omega
      rw [liveEntry, UpdateLog.live_append_later hlater, ← liveEntry, ← ih]
      simp [ht, snapshot]

theorem KeyMap.pairwise_toList {α : Type} (m : KeyMap K α) :
    m.toList.Pairwise (·.1 < ·.1) := by
  simpa only [compare_lt_iff_lt] using m.ordered_keys_toList

theorem KeyMap.mem_toList {α : Type} {m : KeyMap K α} {e : K × α} :
    e ∈ m.toList ↔ m[e.1]? = some e.2 :=
  Std.ExtTreeMap.mem_toList_iff_getElem?_eq_some

/-- A list in key order is that part of a snapshot whose entries it has. -/
theorem Snapshot.eq_filter_toList {m : Snapshot K V} {l : List (K × Version V)} {p : K → Bool}
    (hl : l.Pairwise (·.1 < ·.1)) (hm : ∀ k v, (k, v) ∈ l ↔ m[k]? = some v ∧ p k) :
    l = m.toList.filter (p ·.1) := by
  have : Std.Irrefl fun a b : K × Version V ↦ a.1 < b.1 := ⟨fun a ↦ lt_irrefl a.1⟩
  have : Std.Antisymm fun a b : K × Version V ↦ a.1 < b.1 := ⟨fun a b h h' ↦ absurd h h'.asymm⟩
  refine hl.eq_of_mem_iff ((KeyMap.pairwise_toList m).filter _) fun e ↦ ?_
  rw [hm e.1 e.2, List.mem_filter, KeyMap.mem_toList]

variable [KeyPrefix K]

/-- Keys starting with `p`, strictly after `after`, in key order, at most `limit`. -/
def Snapshot.range (m : Snapshot K V) (p : K) (after : Option K) (limit : ℕ) :
    List (K × Version V) :=
  (m.toList.filter fun e ↦ KeyPrefix.starts p e.1 && KeyPrefix.past after e.1).take limit

/-- Keys strictly after `after`, in key order, at most `limit`, without those that start with
`skip`. -/
def Snapshot.gcRange (m : Snapshot K V) (skip : K) (after : Option K) (limit : ℕ) :
    List (K × Version V) :=
  (m.toList.filter fun e ↦ !KeyPrefix.starts skip e.1 && KeyPrefix.past after e.1).take limit

end Snapshots

/-! ## The abstract store -/

/-- The store as its transactions. -/
structure Mvcc (K V : Type) where
  history : List (Txn K V)
  head : ℕ
  compacted : ℕ
  increasing : history.Pairwise fun a b ↦ a.main < b.main
  committed : ∀ t ∈ history, 0 < t.main ∧ t.main ≤ head
  compacted_le : compacted ≤ head

namespace Mvcc

variable {K V : Type}

/-- The store nothing was committed to. -/
def empty : Mvcc K V where
  history := []
  head := 0
  compacted := 0
  increasing := .nil
  committed := by simp
  compacted_le := le_refl 0

/-- The next transaction. -/
@[simps] def append (a : Mvcc K V) (batch : List (Write K V)) : Mvcc K V where
  history := a.history ++ [⟨a.head + 1, batch⟩]
  head := a.head + 1
  compacted := a.compacted
  increasing := by
    refine List.pairwise_append.mpr ⟨a.increasing, by simp, fun t ht u hu ↦ ?_⟩
    rw [List.mem_singleton.mp hu]
    exact Nat.lt_succ_of_le (a.committed t ht).2
  committed := by
    intro t ht
    obtain ht | ht := List.mem_append.mp ht
    · have := a.committed t ht
      omega
    · rw [List.mem_singleton.mp ht]
      exact ⟨Nat.succ_pos _, le_refl _⟩
  compacted_le := Nat.le_succ_of_le a.compacted_le

/-- `commit`: applies the batch as main `expect + 1`, or is stale. -/
def commit (a : Mvcc K V) (expect : ℕ) (batch : List (Write K V)) :
    Except BackendError (Mvcc K V × ℕ) :=
  if a.head ≠ expect then .error (.stale expect a.head) else .ok (a.append batch, expect + 1)

/-- `compact`: moves the compaction point up to `rev`, but not above the head. -/
@[simps] def compact (a : Mvcc K V) (rev : ℕ) : Mvcc K V :=
  { a with
    compacted := max a.compacted (min rev a.head)
    compacted_le := max_le a.compacted_le (min_le_right _ _) }

/-- Moves the head to `through`: revisions that are never used. -/
@[simps] def jump (a : Mvcc K V) (through : ℕ) (h : a.head < through) : Mvcc K V :=
  { a with
    head := through
    committed := fun t ht ↦ ⟨(a.committed t ht).1, (a.committed t ht).2.trans h.le⟩
    compacted_le := a.compacted_le.trans h.le }

/-- Reads are refused below the compaction point and above the head. -/
def readable (a : Mvcc K V) (at_ : ℕ) : Except BackendError Unit :=
  if at_ < a.compacted then .error (.tooOld a.compacted)
  else if a.head < at_ then .error (.futureRev at_ a.head)
  else .ok ()

section Reads

variable [LinearOrder K]

def get (a : Mvcc K V) (key : K) (at_ : ℕ) : Except BackendError (Option (Version V)) := do
  a.readable at_
  return (snapshot a.history at_)[key]?

def range [KeyPrefix K] (a : Mvcc K V) (p : K) (after : Option K) (limit at_ : ℕ) :
    Except BackendError (List (K × Version V)) := do
  a.readable at_
  return (snapshot a.history at_).range p after limit

end Reads

def log (a : Mvcc K V) (from_ maxMains : ℕ) : Except BackendError (List (LogEntry K V)) :=
  if from_ < a.compacted then .error (.tooOld a.compacted)
  else .ok (logOf a.history from_ maxMains)

/-! ### Every transaction is later than those before it -/

variable {a : Mvcc K V} {e : LogEntry K V}

theorem main_of_mem_entries (h : e ∈ entries a.history) : 0 < e.rev.main ∧ e.rev.main ≤ a.head := by
  obtain ⟨t, ht, he⟩ := List.mem_flatMap.mp h
  rw [Txn.main_of_mem_entries he]
  exact a.committed t ht

theorem readable_ok {at_ : ℕ} (h : a.readable at_ = .ok ()) : a.compacted ≤ at_ ∧ at_ ≤ a.head := by
  rw [readable] at h
  split_ifs at h with h₁ h₂
  omega

theorem readable_of_le {at_ : ℕ} (hc : a.compacted ≤ at_) (hh : at_ ≤ a.head) :
    a.readable at_ = .ok () := by
  rw [readable, if_neg (not_lt.mpr hc), if_neg (not_lt.mpr hh)]

/-- At the head or above it, a read sees every transaction. -/
theorem snapshot_of_head_le [LinearOrder K] {at_ : ℕ} (h : a.head ≤ at_) :
    snapshot a.history at_ = a.history.foldl applyTxn ∅ := by
  rw [snapshot, List.filter_eq_self.mpr fun t ht ↦ by simpa using (a.committed t ht).2.trans h]

/-- **What is committed later changes no read below it.** -/
theorem snapshot_append [LinearOrder K] {batch : List (Write K V)} {at_ : ℕ} (h : at_ ≤ a.head) :
    snapshot (a.append batch).history at_ = snapshot a.history at_ := by
  have : ¬ a.head + 1 ≤ at_ := by omega
  simp [snapshot, append, this]

/-- The new head sees the new transaction over what the old head saw. -/
theorem snapshot_append_head [LinearOrder K] {batch : List (Write K V)} :
    snapshot (a.append batch).history (a.head + 1) =
      applyTxn (snapshot a.history a.head) ⟨a.head + 1, batch⟩ := by
  have hle : (a.append batch).head ≤ a.head + 1 := le_refl _
  rw [snapshot_of_head_le hle, snapshot_of_head_le (le_refl a.head), append, List.foldl_append, List.foldl_cons, List.foldl_nil]

/-! ### Later stores -/

/-- `b` is `a` after more calls: it reads at what `a` had reached as `a` does. -/
structure Extends [LinearOrder K] (a b : Mvcc K V) : Prop where
  head_le : a.head ≤ b.head
  compacted_le : a.compacted ≤ b.compacted
  snapshot_eq : ∀ at_ ≤ a.head, snapshot b.history at_ = snapshot a.history at_

section Extends

variable [LinearOrder K] {b c : Mvcc K V}

theorem Extends.refl (a : Mvcc K V) : a.Extends a :=
  ⟨le_refl _, le_refl _, fun _ _ ↦ rfl⟩

theorem Extends.trans (h : a.Extends b) (h' : b.Extends c) : a.Extends c where
  head_le := h.head_le.trans h'.head_le
  compacted_le := h.compacted_le.trans h'.compacted_le
  snapshot_eq at_ hat :=
    (h'.snapshot_eq at_ (hat.trans h.head_le)).trans (h.snapshot_eq at_ hat)

theorem extends_append (a : Mvcc K V) (batch : List (Write K V)) : a.Extends (a.append batch) where
  head_le := Nat.le_succ _
  compacted_le := le_refl _
  snapshot_eq _ := snapshot_append

theorem extends_compact (a : Mvcc K V) (rev : ℕ) : a.Extends (a.compact rev) where
  head_le := le_refl _
  compacted_le := le_max_left _ _
  snapshot_eq _ _ := rfl

/-- A read both stores answer, they answer alike. -/
theorem Extends.get (h : a.Extends b) {at_ : ℕ} (hc : b.compacted ≤ at_) (hh : at_ ≤ a.head)
    (key : K) : b.get key at_ = a.get key at_ := by
  rw [Mvcc.get, Mvcc.get, readable_of_le hc (hh.trans h.head_le),
    readable_of_le (h.compacted_le.trans hc) hh, h.snapshot_eq at_ hh]

theorem Extends.range [KeyPrefix K] (h : a.Extends b) {at_ : ℕ} (hc : b.compacted ≤ at_)
    (hh : at_ ≤ a.head) (p : K) (after : Option K) (limit : ℕ) :
    b.range p after limit at_ = a.range p after limit at_ := by
  rw [Mvcc.range, Mvcc.range, readable_of_le hc (hh.trans h.head_le),
    readable_of_le (h.compacted_le.trans hc) hh, h.snapshot_eq at_ hh]

end Extends

end Mvcc

/-- Two calls answer alike, and leave states that `R` relates. -/
inductive Alike {σ τ α : Type} (R : σ → τ → Prop) :
    Except BackendError (σ × α) → Except BackendError (τ × α) → Prop
  | ok {s : σ} {t : τ} {x : α} (h : R s t) : Alike R (.ok (s, x)) (.ok (t, x))
  | error {e : BackendError} : Alike R (.error e) (.error e)

end Spira.Store
