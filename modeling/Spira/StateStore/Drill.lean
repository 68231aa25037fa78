import Mathlib.Data.List.Dedup
import Mathlib.Data.List.SplitBy
import Spira.StateStore.Decided

/-!
# The drill

The proof of a restored copy: the audited writes after the snapshot are folded onto the snapshot's
own keys, and the restored store must hold exactly the fold.  A transaction is audited when the
restored store holds its audit record.  What is never audited is left out: every key under
`telemetry/`, and a key with a TTL that the fold holds and the restored copy lacks, where some
transaction without an audit record has deleted it.

The stores are copies of one contract's store, with values of any type; `decode` reads a value as an
object.
-/

set_option autoImplicit false

namespace Spira.Store.Drill

open KeyPrefix (past starts)

/-! ## What is compared -/

/-- A copy of a store: its head, and the version of every key there. -/
structure Copy (V : Type) where
  head : ℕ
  keys : Snapshot String V

structure Exclusions where
  telemetry : Bool
  ttlSwept : Bool

/-- The contract's own: what it never audits. -/
def Exclusions.contract : Exclusions := ⟨true, true⟩

/-- How an audit record does not describe its transaction. -/
inductive Detail
  | unread (why : String)
  /-- What the record alone says was written, and what the run alone does. -/
  | differs (records holds : List (String × ℕ × Bool))
  deriving DecidableEq

inductive Mismatch
  /-- Both sides hold the key, with different bytes or revisions. -/
  | value (key : String)
  /-- The fold holds the key and the restored copy does not. -/
  | missing (key : String)
  /-- The restored copy holds a key no audited write produced. -/
  | unfolded (key : String)
  /-- An audit record that does not describe the transaction the run holds. -/
  | event (main : ℕ) (detail : Detail)
  deriving DecidableEq

structure Report where
  snapshotRev : ℕ
  through : ℕ
  compared : ℕ
  telemetryExcluded : List String
  ttlSwept : List String
  mismatches : List Mismatch
  deriving DecidableEq

def Report.passed (r : Report) : Bool := r.mismatches.isEmpty

/-! ## The drill -/

section Drill

variable {P V : Type}

/-- Every key but the audit records, page by page. -/
def allKeysFrom (m : Snapshot String V) : ℕ → Option String → List (String × Version V)
  | 0, _ => []
  | fuel + 1, after =>
    let items := m.gcRange eventsPrefix after page
    if items.length = page then items ++ allKeysFrom m fuel (items.getLast?.map (·.1)) else items

def allKeys (b : Copy V) : List (String × Version V) :=
  allKeysFrom b.keys (b.keys.toList.length + 1) none

def bookkeeping (key : String) : Bool := starts eventsPrefix key || starts requestsPrefix key

def Exclusions.excluded (ex : Exclusions) (key : String) : Bool :=
  ex.telemetry && starts telemetryPrefix key

/-- What the fold and the restored copy hold of one key. -/
abbrev Held (V : Type) := Rev × Rev × V

def held (v : Version V) : Held V := (v.modRev, v.createRev, v.value)

/-- A write as an audit record tells of it: the key, the place and whether it was written, or
deleted. -/
def saidOf (s : Sub) : String × ℕ × Bool := (s.key, s.sub % 2 ^ 32, s.op ≠ .delete)

/-- The writes that an audit record tells of. -/
def recorded (decode : V → Option (Object P)) (ev : Version V) :
    Except String (List (String × ℕ × Bool)) :=
  match decode ev.value with
  | none => .error "not an object"
  | some o => match o.data with
    | .event record => .ok (record.subs.map saidOf)
    | _ => .error "records no subs"

/-- The entries of a run, by transaction. -/
def mains (entries : List (LogEntry String V)) : List (ℕ × List (LogEntry String V)) :=
  (entries.splitBy fun a b ↦ a.rev.main = b.rev.main).filterMap fun es ↦
    es.head?.map fun e ↦ (e.rev.main, es)

/-- The keys of a copy that are compared, and those that are left out. -/
def gather (ex : Exclusions) (b : Copy V) : KeyMap String (Held V) × List String :=
  (allKeys b).foldl (fun acc e ↦
    if bookkeeping e.1 then acc
    else if ex.excluded e.1 then (acc.1, acc.2 ++ [e.1])
    else (acc.1.insert e.1 (held e.2), acc.2)) (∅, [])

/-- The fold so far, and what it has come upon. -/
structure Folding (V : Type) where
  fold : KeyMap String (Held V)
  /-- The keys that transactions without an audit record have deleted. -/
  expired : List String
  telemetry : List String
  mismatches : List Mismatch

/-- One write of an audited transaction. -/
def foldEntry (ex : Exclusions) (fold : KeyMap String (Held V)) (e : LogEntry String V) :
    KeyMap String (Held V) :=
  if ex.excluded e.key then fold
  else match e.value, e.createRev with
    | some v, some c => fold.insert e.key (e.rev, c, v)
    | _, _ => fold.erase e.key

/-- A write of the run, as a record tells of it. -/
def ranOf (e : LogEntry String V) : String × ℕ × Bool := (e.key, e.rev.sub, e.value.isSome)

/-- What is wrong with the audit record of a transaction of those writes. -/
def eventMismatches (decode : V → Option (Object P)) (main : ℕ) (ev : Version V)
    (ran : List (String × ℕ × Bool)) : List Mismatch :=
  match recorded decode ev with
  | .error why => [.event main (.unread why)]
  | .ok said =>
    if said ⊆ ran ∧ ran ⊆ said then []
    else [.event main (.differs (said.filter (· ∉ ran)) (ran.filter (· ∉ said)))]

/-- One transaction of a run. -/
def foldMain (decode : V → Option (Object P)) (ex : Exclusions) (s : ℕ) (restored : Copy V)
    (f : Folding V) (m : ℕ × List (LogEntry String V)) : Folding V :=
  if m.1 ≤ s ∨ restored.head < m.1 then f
  else
    let writes : List (LogEntry String V) := m.2.filter fun e ↦ !bookkeeping e.key
    let telemetry := f.telemetry ++ (writes.filter fun e ↦ ex.excluded e.key).map LogEntry.key
    match restored.keys[eventsKey m.1]? with
    | none =>
      { f with
        expired := f.expired ++ (writes.filter fun e ↦ e.value.isNone).map LogEntry.key
        telemetry := telemetry }
    | some ev =>
      { f with
        telemetry := telemetry
        fold := writes.foldl (foldEntry ex) f.fold
        mismatches := f.mismatches ++ eventMismatches decode m.1 ev (writes.map ranOf) }

/-- The key that the restored copy lacks has a TTL, and is excused as expired. -/
def excused (decode : V → Option (Object P)) (ex : Exclusions) (expired : List String)
    (key : String) (f : Held V) : Bool :=
  ex.ttlSwept && (decode f.2.2).any (fun o ↦ (ttlMs key o).isSome) && key ∈ expired

/-- The members of a set, in their order. -/
def keySet (keys : List String) : List String := keys.dedup.insertionSort (· ≤ ·)

variable [DecidableEq V]

def mismatchOf (decode : V → Option (Object P)) (ex : Exclusions) (expired : List String)
    (fold live : KeyMap String (Held V)) (key : String) : Option Mismatch :=
  match fold[key]?, live[key]? with
  | some f, some l => if f = l then none else some (.value key)
  | some f, none => if excused decode ex expired key f then none else some (.missing key)
  | none, _ => some (.unfolded key)

/-- Folds the audited writes of the runs after the base's head onto its keys, and compares the fold
with the restored copy at its head. -/
def foldCompare (decode : V → Option (Object P)) (base : Copy V)
    (runs : List (List (LogEntry String V))) (restored : Copy V) (ex : Exclusions) : Report :=
  let start := gather ex base
  let f := (runs.flatMap mains).foldl (foldMain decode ex base.head restored)
    ⟨start.1, [], start.2, []⟩
  let live := gather ex restored
  let keys := keySet (f.fold.toList.map Prod.fst ++ live.1.toList.map Prod.fst)
  { snapshotRev := base.head
    through := restored.head
    compared := keys.length
    telemetryExcluded := keySet (f.telemetry ++ live.2)
    ttlSwept := keys.filter fun k ↦ live.1[k]?.isNone &&
      f.fold[k]?.any (excused decode ex f.expired k)
    mismatches := f.mismatches ++ keys.filterMap (mismatchOf decode ex f.expired f.fold live.1) }

end Drill

/-! ## The keys of a copy -/

section Keys

variable {V : Type} {ex : Exclusions} {k : String}

/-- The pages together are every key but the audit records, with fuel for each. -/
theorem allKeysFrom_eq (m : Snapshot String V) : ∀ (fuel : ℕ) (after : Option String),
    (Paging.rowsPast (m.toList.filter fun e ↦ !starts eventsPrefix e.1) after).length < fuel →
      allKeysFrom m fuel after =
        Paging.rowsPast (m.toList.filter fun e ↦ !starts eventsPrefix e.1) after
  | fuel + 1, after, h => by
    have hpage : 0 < page := by decide
    have hitems : m.gcRange eventsPrefix after page =
        (Paging.rowsPast (m.toList.filter fun e ↦ !starts eventsPrefix e.1) after).take page := by
      rw [Snapshot.gcRange, Paging.rowsPast, List.filter_filter]
      exact congrArg (List.take page) (List.filter_congr fun e _ ↦ Bool.and_comm _ _)
    rw [allKeysFrom, hitems]
    split
    · rename_i hfull
      obtain ⟨hnext, -⟩ := Paging.rowsPast_lastKey ((KeyMap.pairwise_toList m).filter _) hpage hfull
      rw [Paging.lastKey] at hnext
      have hlong : page ≤ (Paging.rowsPast (m.toList.filter fun e ↦ !starts eventsPrefix e.1)
          after).length := by
        rw [← hfull, List.length_take]
        exact Nat.min_le_right _ _
      rw [allKeysFrom_eq m fuel _ (by rw [hnext, List.length_drop]; omega), hnext,
        List.take_append_drop]
    · rename_i hshort
      rw [List.length_take] at hshort
      exact List.take_of_length_le (by omega)

theorem allKeys_eq (b : Copy V) :
    allKeys b = b.keys.toList.filter fun e ↦ !starts eventsPrefix e.1 := by
  rw [allKeys, allKeysFrom_eq, Paging.rowsPast_none]
  rw [Paging.rowsPast_none]
  exact Nat.lt_succ_of_le (List.length_filter_le _ _)

theorem mem_allKeys {b : Copy V} {e : String × Version V} :
    e ∈ allKeys b ↔ starts eventsPrefix e.1 = false ∧ b.keys[e.1]? = some e.2 := by
  rw [allKeys_eq, List.mem_filter, KeyMap.mem_toList, Bool.not_eq_true', and_comm]

/-- The key is compared: it is neither bookkeeping nor left out. -/
def Exclusions.Compared (ex : Exclusions) (key : String) : Prop :=
  bookkeeping key = false ∧ ex.excluded key = false

instance (ex : Exclusions) (key : String) : Decidable (ex.Compared key) :=
  inferInstanceAs (Decidable (_ ∧ _))

theorem not_events_of_compared (h : ex.Compared k) : starts eventsPrefix k = false :=
  (Bool.or_eq_false_iff.mp h.1).1

/-- **What is gathered of a copy is what it holds of each key that is compared.** -/
theorem getElem?_gather (ex : Exclusions) (b : Copy V) (k : String) :
    (ex.Compared k → (gather ex b).1[k]? = b.keys[k]?.map held) ∧
      (¬ ex.Compared k → (gather ex b).1[k]? = none) := by
  have hgather (l : List (String × Version V)) (acc : KeyMap String (Held V) × List String)
      (hl : ∀ e ∈ l, b.keys[e.1]? = some e.2) : (l.foldl (fun acc e ↦
        if bookkeeping e.1 then acc
        else if ex.excluded e.1 then (acc.1, acc.2 ++ [e.1])
        else (acc.1.insert e.1 (held e.2), acc.2)) acc).1[k]? =
          if ex.Compared k ∧ k ∈ l.map Prod.fst then b.keys[k]?.map held else acc.1[k]? := by
    induction l generalizing acc with
    | nil => simp
    | cons e l ih =>
      rw [List.foldl_cons, ih _ fun e' he' ↦ hl e' (List.mem_cons_of_mem _ he')]
      have hhead := hl e List.mem_cons_self
      by_cases hin : ex.Compared k ∧ k ∈ l.map Prod.fst
      · rw [if_pos hin, if_pos ⟨hin.1, List.mem_cons_of_mem _ hin.2⟩]
      · rw [if_neg hin]
        by_cases hk : k = e.1
        · subst hk
          by_cases hb : bookkeeping e.1
          · rw [if_pos hb, if_neg fun h ↦ Bool.false_ne_true (h.1.1.symm.trans hb)]
          · rw [if_neg hb]
            by_cases hx : ex.excluded e.1
            · rw [if_pos hx, if_neg fun h ↦ Bool.false_ne_true (h.1.2.symm.trans hx)]
            · have hc : ex.Compared e.1 :=
                ⟨Bool.eq_false_of_not_eq_true hb, Bool.eq_false_of_not_eq_true hx⟩
              rw [if_neg hx, if_pos ⟨hc, List.mem_cons_self⟩, hhead]
              simp
        · have hkeys : ¬ (ex.Compared k ∧ k ∈ (e :: l).map Prod.fst) := fun h ↦
            hin ⟨h.1, (List.mem_cons.mp h.2).resolve_left hk⟩
          rw [if_neg hkeys]
          by_cases hb : bookkeeping e.1
          · rw [if_pos hb]
          · rw [if_neg hb]
            by_cases hx : ex.excluded e.1
            · rw [if_pos hx]
            · rw [if_neg hx]
              simp [Std.ExtTreeMap.getElem?_insert, Ne.symm hk]
  have hkeys := hgather (allKeys b) (∅, []) fun e he ↦ (mem_allKeys.mp he).2
  rw [gather, hkeys]
  constructor
  · intro hc
    by_cases hin : k ∈ (allKeys b).map Prod.fst
    · rw [if_pos ⟨hc, hin⟩]
    · rw [if_neg fun h ↦ hin h.2]
      cases hk : b.keys[k]? with
      | none => simp
      | some v => exact absurd (List.mem_map_of_mem
          (mem_allKeys.mpr ⟨not_events_of_compared hc, hk⟩ : (k, v) ∈ allKeys b)) hin
  · intro hc
    rw [if_neg fun h ↦ hc h.1]
    simp

/-! ## The fold -/

/-- What an entry leaves of its key. -/
def heldOf (e : LogEntry String V) : Option (Held V) := e.version?.map held

theorem getElem?_foldEntry {fold : KeyMap String (Held V)} {e : LogEntry String V}
    (hk : ex.excluded k = false) :
    (foldEntry ex fold e)[k]? = if e.key = k then heldOf e else fold[k]? := by
  rw [foldEntry, heldOf, LogEntry.version?]
  by_cases hkey : e.key = k
  · rw [if_pos hkey, hkey, hk, if_neg Bool.false_ne_true]
    cases e.value with
    | none => simp
    | some v => cases e.createRev <;> simp [held]
  · rw [if_neg hkey]
    split
    · rfl
    · split <;> simp [Std.ExtTreeMap.getElem?_insert, Std.ExtTreeMap.getElem?_erase, hkey]

/-- After several writes a key is what the last of them left. -/
theorem getElem?_foldl_foldEntry (fold : KeyMap String (Held V)) (es : List (LogEntry String V))
    (hk : ex.excluded k = false) : (es.foldl (foldEntry ex) fold)[k]? =
      match es.reverse.find? (·.key = k) with
      | some e => heldOf e
      | none => fold[k]? := by
  induction es using List.reverseRecOn with
  | nil => rfl
  | append_singleton es e ih =>
    rw [List.foldl_append, List.foldl_cons, List.foldl_nil, getElem?_foldEntry hk, ih,
      List.reverse_append, List.reverse_singleton, List.singleton_append, List.find?_cons]
    by_cases he : e.key = k <;> simp [he]

theorem foldl_foldEntry_none {fold : KeyMap String (Held V)} {es : List (LogEntry String V)}
    (hk : ex.excluded k = true) : (es.foldl (foldEntry ex) fold)[k]? = fold[k]? := by
  induction es generalizing fold with
  | nil => rfl
  | cons e es ih =>
    rw [List.foldl_cons, ih, foldEntry]
    by_cases hkey : e.key = k
    · rw [hkey, hk, if_pos rfl]
    · split
      · rfl
      · split <;> simp [Std.ExtTreeMap.getElem?_insert, Std.ExtTreeMap.getElem?_erase, hkey]

end Keys

end Spira.Store.Drill
