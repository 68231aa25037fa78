import Spira.Control.Gates
import Spira.Control.Kinds
import Spira.Lib.Merge

/-!
# Listing page by page

A page of the records is read by key where ids are given, through the state index where states are,
one range for each state and the ranges merged, and otherwise along the prefix; a page of the
deliveries through the state index or along the prefix; and the readiness of many ids along the
span that they cover.  Each is read from one snapshot.

Whichever way a page is read, it is the first of the records past its cursor that are asked for
(`recordsPage_eq`, `deliveriesPage_eq`), so the pages read from cursor to cursor are all that are
asked for, in the order of their ids and each once; and a readiness read along a span is what is
read by key (`readinessOf_eq`).
-/

set_option autoImplicit false

namespace Spira.Control

open Spira.Bead Spira.Delivery Store Store.Contract Paging
open KeyPrefix (starts past)

/-! ## Reads -/

/-- A row of a snapshot. -/
abbrev Row := String × Store.Version (Object Value)

/-- A record with the revisions it was read at. -/
structure Read (T : Type) where
  value : T
  modRev : Rev
  createRev : Rev
  deriving DecidableEq

def beadStateName : BeadState → String
  | .open => "Open"
  | .ready => "Ready"
  | .working => "Working"
  | .submitted => "Submitted"
  | .certified => "Certified"
  | .inDelivery => "InDelivery"
  | .rework => "Rework"
  | .landed => "Landed"
  | .superseded => "Superseded"
  | .dropped => "Dropped"
  | .done => "Done"

def deliveryStateName : DeliveryState → String
  | .queued => "Queued"
  | .batched => "Batched"
  | .prOpen => "PrOpen"
  | .pushing => "Pushing"
  | .exited => "Exited"
  | .publishing => "Publishing"
  | .published => "Published"
  | .publishRed => "PublishRed"

/-- The state that the index has a record or a delivery under; nothing else is read through it. -/
def stateName (o : Object Value) : Option String :=
  match o.data with
  | .payload (.lifecycle r) => some (beadStateName r.row.state)
  | .payload (.delivery row _) => some (deliveryStateName row.state)
  | _ => none

/-- The record of `T` that is in a row. -/
def decodeRow {T : Type} [Stored T] (e : Row) : Except String T :=
  match decode e.2.value with
  | some t => .ok t
  | none => .error (e.1 ++ ": undecodable record")

/-- A record under a claim has the lease that the claim's lock has. -/
def projectLease (rec : LifecycleRecord) (expiresAtMs : Option ℕ) : LifecycleRecord :=
  if rec.row.state ≠ .working then rec
  else
    match expiresAtMs with
    | none => rec
    | some ms =>
      { rec with row := { rec.row with leaseUntil := some (((ms + 999) / 1000 : ℕ) : Int) } }

/-- How many rows a page is read by at a time. -/
def chunk : ℕ := 1000

def chunkOf (limit : Option ℕ) : ℕ :=
  match limit with
  | none => chunk
  | some n => max 1 (min n chunk)

section Pages

-- the snapshot that is read
variable (m : Snapshot String (Object Value))

/-- The rows under a prefix that are in a state, past `after`, in key order, at most `limit`. -/
def rangeInState (pre state : String) (after : Option String) (limit : ℕ) : List Row :=
  (m.toList.filter fun e ↦
    starts pre e.1 && past after e.1 && stateName e.2.value = some state).take limit

/-! ## Records -/

section Records

variable (lockExpiry : String → Option ℕ)

/-- The record of `id` in a row, with its lease from the claim's lock then. -/
def projected (id : String) (e : Row) : Except String (Read LifecycleRecord) := do
  let value : LifecycleRecord ← decodeRow e
  let value := if value.row.state = .working then projectLease value (lockExpiry id) else value
  return ⟨value, e.2.modRev, e.2.createRev⟩

/-- A row is added where it is a record that is kept; whether the page is full. -/
def takeRecord (limit : Option ℕ) (keep : LifecycleRecord → Bool)
    (out : List (Read LifecycleRecord)) (e : Row) :
    Except String (List (Read LifecycleRecord) × Bool) := do
  let out ←
    match Keys.idOf Keys.lifecyclePrefix e.1 with
    | none => pure out
    | some id => do
      let r ← projected lockExpiry id e
      pure (if keep r.value then out ++ [r] else out)
  return (out, full limit out)

/-- The row of `id` is added, where there is one. -/
def takeId (limit : Option ℕ) (keep : LifecycleRecord → Bool) (out : List (Read LifecycleRecord))
    (id : String) : Except String (List (Read LifecycleRecord) × Bool) :=
  match m[Keys.lifecycle id]? with
  | none => .ok (out, false)
  | some v => takeRecord lockExpiry limit keep out (Keys.lifecycle id, v)

/-- The ids past `after`, in order and each once. -/
def wantedIds (after : Option String) (ids : List String) : List String :=
  ((ids.filter (past after ·)).insertionSort (· ≤ ·)).dedup

/-- One page of the records past `after` that are kept, at most `limit`. -/
def recordsPage (states : Option (List BeadState)) (ids : Option (List String))
    (after : Option String) (limit : Option ℕ) (keep : LifecycleRecord → Bool) :
    Except String (Option (List (Read LifecycleRecord))) :=
  let start := after.map Keys.lifecycle
  match ids, states with
  | some ids, _ =>
    (foldUntil (takeId m lockExpiry limit keep) [] (wantedIds after ids)).map fun p ↦ some p.1
  | none, some states =>
    merge (rangeInState m Keys.lifecyclePrefix) (chunkOf limit) (takeRecord lockExpiry limit keep)
      (states.length * m.toList.length + 1) (states.map fun s ↦ .start start (beadStateName s)) []
  | none, none =>
    takePages (m.range Keys.lifecyclePrefix) (chunkOf limit) (takeRecord lockExpiry limit keep)
      (m.toList.length + 1) start []

end Records

/-! ## Deliveries -/

/-- A delivery, and when it entered its state: `none` where its record keeps no `entered`. -/
abbrev Listed := Read DeliveryRow × Option (Option Int)

def enteredAt (o : Object Value) (state : String) : Option (Option Int) :=
  match o.data with
  | .payload (.delivery _ (some entered)) => some entered[state]?
  | _ => none

/-- The delivery in a row. -/
def listed (e : Row) : Except String Listed := do
  let d : DeliveryRow ← decodeRow e
  return (⟨d, e.2.modRev, e.2.createRev⟩, enteredAt e.2.value d.state.asStr)

/-- A row is added where it is a delivery; whether the page is full. -/
def takeDelivery (limit : Option ℕ) (out : List Listed) (e : Row) :
    Except String (List Listed × Bool) := do
  let out ←
    match Keys.idOf Keys.deliveriesPrefix e.1 with
    | none => pure out
    | some _ => do
      let d ← listed e
      pure (out ++ [d])
  return (out, full limit out)

/-- The rows of the deliveries in a state, or of all. -/
def deliveryRange (name : Option String) (after : Option String) (limit : ℕ) : List Row :=
  match name with
  | some n => rangeInState m Keys.deliveriesPrefix n after limit
  | none => m.range Keys.deliveriesPrefix after limit

/-- One page of the deliveries past `after`, at most `limit`. -/
def deliveriesPage (states : Option (List DeliveryState)) (after : Option String)
    (limit : Option ℕ) : Except String (Option (List Listed)) :=
  let names : List (Option String) :=
    match states with
    | none => [none]
    | some states => states.map fun s ↦ some (deliveryStateName s)
  merge (deliveryRange m) (chunkOf limit) (takeDelivery limit) (names.length * m.toList.length + 1)
    (names.map fun name ↦ .start (after.map Keys.delivery) name) []

/-! ## Readiness -/

/-- The readiness of `id`. -/
def readinessAt (id : String) : Except String (Option Readiness) :=
  match m[Keys.readiness id]? with
  | none => .ok none
  | some v => (decodeRow (Keys.readiness id, v)).map some

/-- The readinesses that were read, each under its id. -/
abbrev Readinesses := Std.ExtTreeMap String Readiness

def readInto (out : Readinesses) (id : String) : Except String Readinesses := do
  match ← readinessAt m id with
  | some r => return out.insert id r
  | none => return out

/-- A row is put under its id where it is wanted; whether the span is at its end. -/
def takeReadiness (wanted : List String) (end_ : String) (out : Readinesses) (e : Row) :
    Except String (Readinesses × Bool) :=
  if end_ < e.1 then .ok (out, true)
  else
    match (Keys.idOf Keys.readinessPrefix e.1).filter (· ∈ wanted) with
    | none => .ok (out, false)
    | some id => (decodeRow e).map fun r ↦ (out.insert id r, false)

/-- How many ids are read by key. -/
def byKeyMax : ℕ := 256

/-- The readiness of each of `ids` that has one: a few are read by key, and more along the span that
they cover.  A span starts past its cursor, so the first is read by key. -/
def readinessOf (ids : List String) : Except String (Option Readinesses) :=
  let wanted := wantedIds none ids
  match wanted.head?, wanted.getLast? with
  | some first, some last =>
    if wanted.length ≤ byKeyMax then (wanted.foldlM (readInto m) ∅).map some
    else do
      let out ← readInto m ∅ first
      takePages (m.range Keys.readinessPrefix) chunk (takeReadiness wanted (Keys.readiness last))
        (m.toList.length + 1) (some (Keys.readiness first)) out
  | _, _ => .ok (some ∅)

end Pages

/-! ## What is asked for -/

section Asked

variable (m : Snapshot String (Object Value))

/-- The rows under a prefix. -/
def under (pre : String) : List Row := m.toList.filter fun e ↦ starts pre e.1

/-- What is read of the rows directly under a prefix, each under its id. -/
def keyed {γ : Type} (pre : String) (f : String → Row → Option γ) : List (String × γ) :=
  (under m pre).filterMap fun e ↦ (Keys.idOf pre e.1).bind fun id ↦ (f id e).map (id, ·)

/-- The records, each under its id. -/
def records (lockExpiry : String → Option ℕ) : List (String × Read LifecycleRecord) :=
  keyed m Keys.lifecyclePrefix fun id e ↦ (projected lockExpiry id e).toOption

/-- The deliveries, each under its id. -/
def deliveries : List (String × Listed) :=
  keyed m Keys.deliveriesPrefix fun _ e ↦ (listed e).toOption

/-- Whether a record is asked for: where ids are given, the states are not looked at. -/
def asks (states : Option (List BeadState)) (ids : Option (List String))
    (keep : LifecycleRecord → Bool) (p : String × Read LifecycleRecord) : Bool :=
  keep p.2.value &&
    match ids, states with
    | some ids, _ => ids.contains p.1
    | none, some states => states.contains p.2.value.row.state
    | none, none => true

/-- Whether a delivery is asked for. -/
def asksDelivery (states : Option (List DeliveryState)) (p : String × Listed) : Bool :=
  states.all fun states ↦ states.contains p.2.1.value.state

end Asked

section Rows

variable {m : Snapshot String (Object Value)} {pre id : String} {after : Option String} {e : Row}

theorem mem_under : e ∈ under m pre ↔ m[e.1]? = some e.2 ∧ starts pre e.1 := by
  rw [under, List.mem_filter, KeyMap.mem_toList]

theorem sorted_under : (under m pre).Pairwise (·.1 < ·.1) := (KeyMap.pairwise_toList m).filter _

theorem range_eq {n : ℕ} : m.range pre after n = (rowsPast (under m pre) after).take n := by
  rw [Snapshot.range, rowsPast, under, List.filter_filter]
  exact congrArg (List.take n) (List.filter_congr fun e _ ↦ Bool.and_comm _ _)

theorem rangeInState_eq {state : String} {n : ℕ} : rangeInState m pre state after n =
    (rowsPast ((under m pre).filter (stateName ·.2.value = some state)) after).take n := by
  rw [rangeInState, rowsPast, under, List.filter_filter, List.filter_filter]
  refine congrArg (List.take n) (List.filter_congr fun e _ ↦ ?_)
  rw [Bool.and_comm (starts pre e.1), Bool.and_right_comm, Bool.and_assoc]

/-- Keys under one prefix are in the order of what follows it. -/
theorem append_lt_append {p a b : String} : p ++ a < p ++ b ↔ a < b := by
  rw [String.lt_iff_toList_lt, String.lt_iff_toList_lt, String.toList_append, String.toList_append]
  induction p.toList with
  | nil => rfl
  | cons c l ih => rw [List.cons_append, List.cons_append, List.cons_lt_cons_iff]; simpa using ih

theorem past_append {p a : String} : past (after.map (p ++ ·)) (p ++ a) = past after a := by
  cases after with
  | none => rfl
  | some b => rw [Bool.eq_iff_iff, Option.map_some, KeyPrefix.past_some, KeyPrefix.past_some,
      append_lt_append]

/-- A key that names an id is the id after the prefix. -/
theorem idOf_eq_some {key : String} : Keys.idOf pre key = some id ↔
    key = pre ++ id ∧ id ≠ "" ∧ '/' ∉ id.toList := by
  rw [Keys.idOf]
  constructor
  · intro h
    split at h
    · rename_i hs
      rw [Option.filter_eq_some_iff] at h
      obtain ⟨hid, hgood⟩ := h
      obtain ⟨rest, hrest⟩ := KeyPrefix.starts_string.mp hs
      rw [← hrest, List.drop_left] at hid
      obtain rfl := Option.some.inj hid
      refine ⟨?_, by simpa using hgood⟩
      rw [← String.toList_inj, String.toList_append, String.toList_ofList, hrest]
    · cases h
  · rintro ⟨rfl, hne, hslash⟩
    rw [KeyPrefix.starts_append, if_pos rfl, String.toList_append, List.drop_left,
      String.ofList_toList]
    simp [hne, hslash]

/-- What is read of a row directly under a prefix, where it is kept. -/
def rowIn {γ : Type} (pre : String) (f : String → Row → Option γ) (keep : String × γ → Bool)
    (e : Row) : Option γ :=
  (Keys.idOf pre e.1).bind fun id ↦ (f id e).filter fun r ↦ keep (id, r)

variable {γ : Type} {f : String → Row → Option γ}

/-- What is read is in the order of its ids. -/
theorem sorted_keyed : (keyed m pre f).Pairwise (·.1 < ·.1) := by
  rw [keyed, List.pairwise_filterMap]
  refine sorted_under.imp fun hlt p hp p' hp' ↦ ?_
  obtain ⟨id, hid, hp⟩ := Option.bind_eq_some_iff.mp hp
  obtain ⟨id', hid', hp'⟩ := Option.bind_eq_some_iff.mp hp'
  obtain ⟨r, -, rfl⟩ := Option.map_eq_some_iff.mp hp
  obtain ⟨r', -, rfl⟩ := Option.map_eq_some_iff.mp hp'
  rw [(idOf_eq_some.mp hid).1, (idOf_eq_some.mp hid').1] at hlt
  exact append_lt_append.mp hlt

/-- What is kept of what is past an id is what is kept of the rows past its key. -/
theorem keyed_past {keep : String × γ → Bool} :
    (rowsPast ((keyed m pre f).filter keep) after).map (·.2) =
      (rowsPast (under m pre) (after.map (pre ++ ·))).filterMap (rowIn pre f keep) := by
  rw [rowsPast, rowsPast, keyed, List.filter_filterMap, List.filter_filterMap, List.map_filterMap,
    List.filterMap_filter]
  refine List.filterMap_congr fun e _ ↦ ?_
  rw [rowIn]
  cases hid : Keys.idOf pre e.1 with
  | none => simp
  | some id =>
    rw [(idOf_eq_some.mp hid).1, past_append]
    cases hr : f id e with
    | none => simp [hr]
    | some r =>
      cases hk : keep (id, r) <;> cases hp : past after id <;> simp [hr, hk, hp, Option.filter]

/-- A row that is kept is one that is asked for, where `named` holds of just the rows that are. -/
theorem filterMap_named {keep asked : String × γ → Bool} {named : Row → Bool} {l : List Row}
    (h : ∀ e ∈ l, ∀ id r, Keys.idOf pre e.1 = some id → f id e = some r →
      asked (id, r) = (keep (id, r) && named e)) :
    (l.filter named).filterMap (rowIn pre f keep) = l.filterMap (rowIn pre f asked) := by
  rw [List.filterMap_filter]
  refine List.filterMap_congr fun e he ↦ ?_
  rw [rowIn, rowIn]
  cases hid : Keys.idOf pre e.1 with
  | none => simp
  | some id =>
    cases hr : f id e with
    | none => simp [hr]
    | some r =>
      have hasks := h e he id r hid hr
      cases hn : named e <;> cases hk : keep (id, r) <;> simp [hr, Option.filter, hasks, hn, hk]

end Rows

/-! ## Taking rows -/

/-- What the store has under its keys belongs there. -/
def Proper (m : Snapshot String (Object Value)) : Prop :=
  View.Proper fun key ↦ m[key]?.map (Item.ofVersion key)

section Take

variable {m : Snapshot String (Object Value)} {lockExpiry : String → Option ℕ} {id : String}
  {limit : Option ℕ} {keep : LifecycleRecord → Bool} {after : Option String} {e : Row}

theorem Proper.ofKind {pre : String} (h : Proper m) (he : e ∈ under m pre) :
    OfKind e.1 e.2.value := by
  obtain ⟨hm, -⟩ := mem_under.mp he
  exact h e.1 (Item.ofVersion e.1 e.2) (Option.map_eq_some_iff.mpr ⟨e.2, hm, rfl⟩)

theorem projectLease_kept {rec : LifecycleRecord} {ms : Option ℕ} :
    (projectLease rec ms).row.state = rec.row.state ∧
      (projectLease rec ms).row.beadId = rec.row.beadId := by
  unfold projectLease
  split
  · exact ⟨rfl, rfl⟩
  · cases ms <;> exact ⟨rfl, rfl⟩

/-- A row under a record's key is read as the record, under its id and its state. -/
theorem projected_ok (lockExpiry : String → Option ℕ) (h : OfKind e.1 e.2.value)
    (hid : Keys.idOf Keys.lifecyclePrefix e.1 = some id) :
    ∃ r, projected lockExpiry id e = .ok r ∧ r.value.row.beadId = id ∧
      stateName e.2.value = some (beadStateName r.value.row.state) := by
  obtain ⟨hkey, -, -⟩ := idOf_eq_some.mp hid
  obtain ⟨rec, hdata, hbead⟩ := h.lifecycle (hkey ▸ Keys.starts_lifecycle id)
  have hrec : rec.row.beadId = id := by
    rw [hkey] at hbead
    exact (Keys.lifecycle_inj.mp hbead).symm
  have hdecode : (decodeRow e : Except String LifecycleRecord) = .ok rec := by
    rw [decodeRow, decode, hdata]
    rfl
  have hstate : stateName e.2.value = some (beadStateName rec.row.state) := by
    rw [stateName, hdata]
  rw [projected, hdecode]
  refine ⟨_, rfl, ?_, ?_⟩
  · dsimp only
    split
    · exact projectLease_kept.2.trans hrec
    · exact hrec
  · dsimp only
    split
    · rw [hstate, projectLease_kept.1]
    · exact hstate

/-- A row under a delivery's key is read as the delivery, under its id and its state. -/
theorem listed_ok (h : OfKind e.1 e.2.value) (hid : Keys.idOf Keys.deliveriesPrefix e.1 = some id) :
    ∃ d, listed e = .ok d ∧ d.1.value.beadId = id ∧
      stateName e.2.value = some (deliveryStateName d.1.value.state) := by
  obtain ⟨hkey, -, -⟩ := idOf_eq_some.mp hid
  obtain ⟨row, entered, hdata, hbead⟩ := h.delivery (hkey ▸ Keys.starts_delivery id)
  have hrow : row.beadId = id := by
    rw [hkey] at hbead
    exact (Keys.delivery_inj.mp hbead).symm
  have hdecode : (decodeRow e : Except String DeliveryRow) = .ok row := by
    rw [decodeRow, decode, hdata]
    rfl
  refine ⟨(⟨row, e.2.modRev, e.2.createRev⟩, enteredAt e.2.value row.state.asStr), ?_, hrow, ?_⟩
  · rw [listed, hdecode]
    rfl
  · rw [stateName, hdata]

/-- The record in a row, where it is kept. -/
abbrev recordIn (lockExpiry : String → Option ℕ) :
    (String × Read LifecycleRecord → Bool) → Row → Option (Read LifecycleRecord) :=
  rowIn Keys.lifecyclePrefix fun id e ↦ (projected lockExpiry id e).toOption

/-- The delivery in a row, where it is kept. -/
abbrev deliveryIn : (String × Listed → Bool) → Row → Option Listed :=
  rowIn Keys.deliveriesPrefix fun _ e ↦ (listed e).toOption

theorem takeRecord_eq (h : OfKind e.1 e.2.value) (out : List (Read LifecycleRecord)) :
    takeRecord lockExpiry limit keep out e =
      .ok (out ++ (recordIn lockExpiry (keep ·.2.value) e).toList,
        full limit (out ++ (recordIn lockExpiry (keep ·.2.value) e).toList)) := by
  rw [takeRecord, recordIn, rowIn]
  cases hid : Keys.idOf Keys.lifecyclePrefix e.1 with
  | none => simp [pure, Except.pure, bind, Except.bind]
  | some id =>
    obtain ⟨r, hr, -, -⟩ := projected_ok lockExpiry h hid
    rw [Option.bind_some, hr]
    by_cases hk : keep r.value <;>
      simp [hk, hr, Except.toOption, Option.filter, pure, Except.pure, bind, Except.bind]

theorem takeDelivery_eq (h : OfKind e.1 e.2.value) (out : List Listed) :
    takeDelivery limit out e =
      .ok (out ++ (deliveryIn (fun _ ↦ true) e).toList,
        full limit (out ++ (deliveryIn (fun _ ↦ true) e).toList)) := by
  rw [takeDelivery, deliveryIn, rowIn]
  cases hid : Keys.idOf Keys.deliveriesPrefix e.1 with
  | none => simp [pure, Except.pure, bind, Except.bind]
  | some id =>
    obtain ⟨d, hd, -, -⟩ := listed_ok h hid
    rw [Option.bind_some, hd]
    simp [Except.toOption, Option.filter, pure, Except.pure, bind, Except.bind]

end Take

/-! ## Pages of rows -/

section Merged

/-- What is in one of several classes is in each class in turn, in some order. -/
theorem flatMap_filter_perm {β κ : Type} [DecidableEq κ] {f : β → κ} {l : List β} :
    ∀ {names : List κ}, names.Nodup →
      (names.flatMap fun n ↦ l.filter (f · = n)).Perm (l.filter fun e ↦ names.any (f e = ·))
  | [], _ => by simp
  | n :: names, hn => by
    obtain ⟨hnot, hn⟩ := List.nodup_cons.mp hn
    have hsplit := List.filter_append_perm (fun e ↦ decide (f e = n))
      (l.filter fun e ↦ (n :: names).any (f e = ·))
    have hfirst : (l.filter fun e ↦ (n :: names).any (f e = ·)).filter (f · = n) =
        l.filter (f · = n) := by
      rw [List.filter_filter]
      exact List.filter_congr fun e _ ↦ by
        by_cases h : f e = n <;> simp [h]
    have hrest : (l.filter fun e ↦ (n :: names).any (f e = ·)).filter (fun e ↦ !decide (f e = n)) =
        l.filter fun e ↦ names.any (f e = ·) := by
      rw [List.filter_filter]
      refine List.filter_congr fun e _ ↦ ?_
      by_cases h : f e = n
      · subst h
        have hno : ∀ n ∈ names, f e ≠ n := fun n hmem heq ↦ hnot (heq ▸ hmem)
        simpa using hno
      · simp [h]
    rw [hfirst, hrest] at hsplit
    rw [List.flatMap_cons]
    exact ((flatMap_filter_perm hn).append_left _).trans hsplit

variable {m : Snapshot String (Object Value)} {pre : String} {start : Option String} {σ : Type}
  {limit : Option ℕ}

theorem chunkOf_pos : 0 < chunkOf limit := by
  unfold chunkOf
  split
  · decide
  · exact Nat.lt_of_lt_of_le Nat.zero_lt_one (Nat.le_max_left _ _)

theorem length_rowsPast_under : (rowsPast (under m pre) start).length ≤ m.toList.length :=
  (List.length_filter_le _ _).trans (List.length_filter_le _ _)

/-- The rows under a prefix that are in one of several states, state by state. -/
theorem states_perm (pre : String) (start : Option String) {names : List String}
    (hn : names.Nodup) :
    (names.flatMap fun n ↦
      rowsPast ((under m pre).filter (stateName ·.2.value = some n)) start).Perm
      ((rowsPast (under m pre) start).filter fun e ↦
        (names.map some).any (stateName e.2.value = ·)) := by
  refine List.Perm.trans ?_ (flatMap_filter_perm
    (List.Nodup.map (fun _ _ h ↦ Option.some.inj h) hn))
  rw [List.flatMap_map]
  refine .of_eq (List.flatMap_congr fun n _ ↦ ?_)
  rw [rowsPast, rowsPast, List.filter_filter, List.filter_filter]
  exact List.filter_congr fun e _ ↦ Bool.and_comm _ _

/-- Of no state there is no row, and of any there are no more than there are rows. -/
theorem length_states (pre : String) (start : Option String) (names : List String) :
    ((rowsPast (under m pre) start).filter fun e ↦
      (names.map some).any (stateName e.2.value = ·)).length ≤ names.length * m.toList.length := by
  cases names with
  | nil => simp
  | cons n names =>
    refine ((List.length_filter_le _ _).trans length_rowsPast_under).trans ?_
    exact Nat.le_mul_of_pos_left _ (Nat.succ_pos _)

/-- **The ranges of several states, merged, are the rows that are in one of them.** -/
theorem merge_states {size : ℕ} {take : σ → Row → Except String (σ × Bool)} {names : List String}
    {s : σ} (hsize : 0 < size) (hn : names.Nodup) {fuel : ℕ}
    (hfuel : names.length * m.toList.length < fuel) :
    merge (rangeInState m pre) size take fuel (names.map fun n ↦ .start start n) s =
      (foldUntil take s ((rowsPast (under m pre) start).filter
        fun e ↦ (names.map some).any (stateName e.2.value = ·))).map fun p ↦ some p.1 := by
  have hsorted : ∀ n, ((under m pre).filter (stateName ·.2.value = some n)).Pairwise (·.1 < ·.1) :=
    fun n ↦ sorted_under.filter _
  refine merge_eq hsorted hsize (fun n c ↦ rangeInState_eq)
    ((sorted_rowsPast sorted_under).filter _) ?_ (fun r hr ↦ ?_)
    ((length_states pre start names).trans_lt hfuel)
  · rw [List.flatMap_map]
    exact states_perm pre start hn
  · obtain ⟨n, -, rfl⟩ := List.mem_map.mp hr
    exact sorted_rowsPast (hsorted n)

/-- Along the prefix the rows are all that are under it. -/
theorem takePages_under {size : ℕ} {take : σ → Row → Except String (σ × Bool)} {s : σ}
    (hsize : 0 < size) {fuel : ℕ} (hfuel : m.toList.length < fuel) :
    takePages (m.range pre) size take fuel start s =
      (foldUntil take s (rowsPast (under m pre) start)).map fun p ↦ some p.1 :=
  takePages_eq sorted_under hsize (fun _ ↦ range_eq) (length_rowsPast_under.trans_lt hfuel)

/-- The rows that the deliveries in a state, or all, are read from. -/
def deliveryRows (m : Snapshot String (Object Value)) (name : Option String) : List Row :=
  match name with
  | some n => (under m Keys.deliveriesPrefix).filter (stateName ·.2.value = some n)
  | none => under m Keys.deliveriesPrefix

/-- The runs of the deliveries, merged, are the rows that they are of. -/
theorem merge_deliveries {size : ℕ} {take : σ → Row → Except String (σ × Bool)}
    {names : List (Option String)} {L : List Row} {s : σ} (hsize : 0 < size)
    (hL : L.Pairwise (·.1 < ·.1))
    (hperm : (names.flatMap fun n ↦ rowsPast (deliveryRows m n) start).Perm L) {fuel : ℕ}
    (hfuel : L.length < fuel) :
    merge (deliveryRange m) size take fuel (names.map fun n ↦ .start start n) s =
      (foldUntil take s L).map fun p ↦ some p.1 := by
  have hsorted : ∀ n, (deliveryRows m n).Pairwise (·.1 < ·.1) := by
    intro n
    cases n with
    | none => exact sorted_under
    | some n => exact sorted_under.filter _
  refine merge_eq hsorted hsize (fun n c ↦ ?_) hL ?_ (fun r hr ↦ ?_) hfuel
  · cases n with
    | none => exact range_eq
    | some n => exact rangeInState_eq
  · rw [List.flatMap_map]
    exact hperm
  · obtain ⟨n, -, rfl⟩ := List.mem_map.mp hr
    exact sorted_rowsPast (hsorted n)

end Merged

/-! ## One page -/

section Page

variable {m : Snapshot String (Object Value)} {lockExpiry : String → Option ℕ}
  {states : Option (List BeadState)} {ids : Option (List String)} {after : Option String}
  {limit : Option ℕ} {keep : LifecycleRecord → Bool}

theorem beadStateName_inj {s s' : BeadState} (h : beadStateName s = beadStateName s') : s = s' := by
  revert h
  cases s <;> cases s' <;> simp [beadStateName]

theorem deliveryStateName_inj {s s' : DeliveryState}
    (h : deliveryStateName s = deliveryStateName s') : s = s' := by
  revert h
  cases s <;> cases s' <;> simp [deliveryStateName]

theorem full_nil {γ : Type} (h : limit ≠ some 0) : full limit ([] : List γ) = false := by
  cases limit with
  | none => rfl
  | some n => simpa [full, Nat.pos_iff_ne_zero] using fun heq ↦ h (congrArg some heq)

/-- Records that are taken until the page is full are the first of those to keep. -/
theorem foldUntil_records (lockExpiry : String → Option ℕ) (keep : LifecycleRecord → Bool)
    {rows : List Row} (hrows : ∀ e ∈ rows, OfKind e.1 e.2.value)
    (hlimit : limit ≠ some 0) :
    ∃ stopped, foldUntil (takeRecord lockExpiry limit keep) [] rows =
      .ok (firstOf limit (rows.filterMap (recordIn lockExpiry (keep ·.2.value))), stopped) :=
  foldUntil_keep (fun out _ e he ↦ takeRecord_eq (hrows e he) out) (full_nil hlimit)

/-- In order, each once, and past the cursor. -/
theorem mem_wantedIds {id : String} {l : List String} :
    id ∈ wantedIds after l ↔ id ∈ l ∧ past after id := by
  rw [wantedIds, List.mem_dedup, (List.perm_insertionSort _ _).mem_iff, List.mem_filter]

theorem sorted_wantedIds {l : List String} : (wantedIds after l).Pairwise (· < ·) := by
  have hle : (wantedIds after l).Pairwise (· ≤ ·) :=
    (List.pairwise_insertionSort _ _).sublist (List.dedup_sublist _)
  exact hle.imp₂ (fun _ _ hle hne ↦ lt_of_le_of_ne hle hne) (List.nodup_dedup _)

/-- The rows that are read by key are those of the ids along the prefix. -/
theorem filterMap_wantedIds {pre : String} {l : List String} :
    ((wantedIds after l).filterMap fun id ↦ m[pre ++ id]?.map (pre ++ id, ·)) =
      (rowsPast (under m pre) (after.map (pre ++ ·))).filter fun e ↦ l.any (pre ++ · = e.1) := by
  have : Std.Irrefl fun a b : Row ↦ a.1 < b.1 := ⟨fun a ↦ lt_irrefl a.1⟩
  have : Std.Antisymm fun a b : Row ↦ a.1 < b.1 := ⟨fun a b h h' ↦ absurd h h'.asymm⟩
  refine List.Pairwise.eq_of_mem_iff (r := fun a b : Row ↦ a.1 < b.1) ?_
    ((sorted_rowsPast sorted_under).filter _) fun e ↦ ?_
  · rw [List.pairwise_filterMap]
    refine sorted_wantedIds.imp fun hlt e he e' he' ↦ ?_
    obtain ⟨v, -, rfl⟩ := Option.map_eq_some_iff.mp he
    obtain ⟨v', -, rfl⟩ := Option.map_eq_some_iff.mp he'
    exact append_lt_append.mpr hlt
  · rw [List.mem_filterMap, List.mem_filter, rowsPast, List.mem_filter, mem_under, List.any_eq_true]
    constructor
    · rintro ⟨id, hid, he⟩
      obtain ⟨v, hv, rfl⟩ := Option.map_eq_some_iff.mp he
      obtain ⟨hmem, hpast⟩ := mem_wantedIds.mp hid
      exact ⟨⟨⟨hv, KeyPrefix.starts_append _ _⟩, by rwa [past_append]⟩, id, hmem,
        decide_eq_true rfl⟩
    · rintro ⟨⟨⟨hv, -⟩, hpast⟩, id, hmem, heq⟩
      obtain ⟨key, v⟩ := e
      obtain rfl : pre ++ id = key := of_decide_eq_true heq
      rw [past_append] at hpast
      exact ⟨id, mem_wantedIds.mpr ⟨hmem, hpast⟩, Option.map_eq_some_iff.mpr ⟨v, hv, rfl⟩⟩

/-- **A page of the records** is the first of those past its cursor that are asked for. -/
theorem recordsPage_eq (hm : Proper m) (hlimit : limit ≠ some 0)
    (hstates : ∀ s, states = some s → s.Nodup) :
    recordsPage m lockExpiry states ids after limit keep = .ok (some (firstOf limit
      ((rowsPast ((records m lockExpiry).filter (asks states ids keep)) after).map (·.2)))) := by
  set rows := rowsPast (under m Keys.lifecyclePrefix) (after.map Keys.lifecycle) with hrows
  have hkinds : ∀ e ∈ rows, OfKind e.1 e.2.value :=
    fun e he ↦ hm.ofKind (List.mem_of_mem_filter he)
  have hpast : (rowsPast ((records m lockExpiry).filter (asks states ids keep)) after).map (·.2) =
      rows.filterMap (recordIn lockExpiry (asks states ids keep)) := keyed_past
  rw [hpast]
  unfold recordsPage
  cases ids with
  | some ids =>
    have htake : ∀ out, full limit out = false → ∀ id ∈ wantedIds after ids,
        takeId m lockExpiry limit keep out id =
          .ok (out ++ ((m[Keys.lifecycle id]?.map (Keys.lifecycle id, ·)).bind
            (recordIn lockExpiry (keep ·.2.value))).toList, full limit (out ++
              ((m[Keys.lifecycle id]?.map (Keys.lifecycle id, ·)).bind
                (recordIn lockExpiry (keep ·.2.value))).toList)) := by
      intro out ho id _
      rw [takeId]
      cases hv : m[Keys.lifecycle id]? with
      | none => simp [ho]
      | some v => exact takeRecord_eq (hm.ofKind (mem_under.mpr ⟨hv, Keys.starts_lifecycle id⟩)) out
    obtain ⟨stopped, hfold⟩ := foldUntil_keep htake (full_nil hlimit)
    have hread : ((wantedIds after ids).filterMap fun id ↦
        m[Keys.lifecycle id]?.map (Keys.lifecycle id, ·)) =
          rows.filter fun e ↦ ids.any (Keys.lifecycle · = e.1) := filterMap_wantedIds
    dsimp only
    rw [hfold, List.nil_append, ← List.filterMap_filterMap, hread]
    refine congrArg (fun l ↦ Except.ok (some (firstOf limit l)))
      (filterMap_named fun e _ id r hid _ ↦ ?_)
    rw [show e.1 = Keys.lifecycle id from (idOf_eq_some.mp hid).1, Bool.eq_iff_iff]
    simp [asks]
  | none =>
    cases states with
    | some states =>
      have hnames : (states.map beadStateName).Nodup :=
        (hstates states rfl).map fun _ _ h ↦ beadStateName_inj h
      have hin : ∀ e ∈ rows.filter fun e ↦
          ((states.map beadStateName).map some).any (stateName e.2.value = ·),
          OfKind e.1 e.2.value := fun e he ↦ hkinds e (List.mem_of_mem_filter he)
      obtain ⟨stopped, hfold⟩ := foldUntil_records lockExpiry keep hin hlimit
      have hruns :
          states.map (fun s ↦ PagedRun.start (after.map Keys.lifecycle) (beadStateName s)) =
            (states.map beadStateName).map fun n ↦
              PagedRun.start (α := Store.Version (Object Value)) (after.map Keys.lifecycle) n := by
        rw [List.map_map]
        rfl
      dsimp only
      rw [hruns, merge_states chunkOf_pos hnames
        (by rw [List.length_map]; exact Nat.lt_succ_self _), ← hrows, hfold]
      refine congrArg (fun l ↦ Except.ok (some (firstOf limit l)))
        (filterMap_named fun e he id r hid hr ↦ ?_)
      obtain ⟨r', hr', -, hstate⟩ := projected_ok lockExpiry (hkinds e he) hid
      rw [hr'] at hr
      obtain rfl := Option.some.inj hr
      rw [hstate, Bool.eq_iff_iff]
      simp only [asks, List.any_map, List.contains_eq_mem, Bool.and_eq_true, decide_eq_true_eq,
        List.any_eq_true, Function.comp_apply, Option.some.injEq]
      refine and_congr_right fun _ ↦ ⟨fun hmem ↦ ⟨_, hmem, rfl⟩, ?_⟩
      rintro ⟨s, hmem, heq⟩
      exact beadStateName_inj heq ▸ hmem
    | none =>
      obtain ⟨stopped, hfold⟩ := foldUntil_records lockExpiry keep hkinds hlimit
      dsimp only
      rw [takePages_under chunkOf_pos (Nat.lt_succ_self _), hfold]
      have hall : asks none none keep = (keep ·.2.value) := funext fun p ↦ Bool.and_true _
      rw [hall]
      rfl

variable {deliveryStates : Option (List DeliveryState)}

/-- **A page of the deliveries** is the first of those past its cursor that are asked for. -/
theorem deliveriesPage_eq (hm : Proper m) (hlimit : limit ≠ some 0)
    (hstates : ∀ s, deliveryStates = some s → s.Nodup) :
    deliveriesPage m deliveryStates after limit = .ok (some (firstOf limit
      ((rowsPast ((deliveries m).filter (asksDelivery deliveryStates)) after).map (·.2)))) := by
  set rows := rowsPast (under m Keys.deliveriesPrefix) (after.map Keys.delivery) with hrows
  have hkinds : ∀ e ∈ rows, OfKind e.1 e.2.value :=
    fun e he ↦ hm.ofKind (List.mem_of_mem_filter he)
  have hpast : (rowsPast ((deliveries m).filter (asksDelivery deliveryStates)) after).map (·.2) =
      rows.filterMap (deliveryIn (asksDelivery deliveryStates)) := keyed_past
  have hfold {l : List Row} (hl : ∀ e ∈ l, OfKind e.1 e.2.value) :
      ∃ stopped, foldUntil (takeDelivery limit) [] l =
        .ok (firstOf limit (l.filterMap (deliveryIn fun _ ↦ true)), stopped) :=
    foldUntil_keep (fun out _ e he ↦ takeDelivery_eq (hl e he) out) (full_nil hlimit)
  rw [hpast]
  unfold deliveriesPage
  cases deliveryStates with
  | none =>
    obtain ⟨stopped, hfold⟩ := hfold hkinds
    dsimp only
    rw [merge_deliveries (L := rows) chunkOf_pos (sorted_rowsPast sorted_under) ?_ ?_, hfold]
    · rfl
    · rw [List.flatMap_cons, List.flatMap_nil, List.append_nil]
      rfl
    · rw [List.length_singleton, Nat.one_mul]
      exact Nat.lt_succ_of_le length_rowsPast_under
  | some states =>
    have hnames : (states.map deliveryStateName).Nodup :=
      (hstates states rfl).map fun _ _ h ↦ deliveryStateName_inj h
    obtain ⟨stopped, hfold⟩ := hfold (l := rows.filter fun e ↦
        ((states.map deliveryStateName).map some).any (stateName e.2.value = ·))
      (fun e he ↦ hkinds e (List.mem_of_mem_filter he))
    dsimp only
    rw [merge_deliveries chunkOf_pos ((sorted_rowsPast sorted_under).filter _) ?_ ?_, hfold]
    · refine congrArg (fun l ↦ Except.ok (some (firstOf limit l)))
        (filterMap_named fun e he id d hid hd ↦ ?_)
      obtain ⟨d', hd', -, hstate⟩ := listed_ok (hkinds e he) hid
      rw [hd'] at hd
      obtain rfl := Option.some.inj hd
      rw [hstate, Bool.eq_iff_iff]
      simp only [asksDelivery, List.any_map, List.contains_eq_mem, Bool.true_and, decide_eq_true_eq,
        List.any_eq_true, Function.comp_apply, Option.some.injEq, Option.all_some]
      refine ⟨fun hmem ↦ ⟨_, hmem, rfl⟩, ?_⟩
      rintro ⟨s, hmem, heq⟩
      exact deliveryStateName_inj heq ▸ hmem
    · have hperm := states_perm (m := m) Keys.deliveriesPrefix (after.map Keys.delivery) hnames
      rw [List.flatMap_map] at hperm ⊢
      exact hperm
    · have hle := length_states (m := m) Keys.deliveriesPrefix (after.map Keys.delivery)
        (states.map deliveryStateName)
      rw [List.length_map] at hle ⊢
      exact Nat.lt_succ_of_le hle

end Page

/-! ## Readiness along a span -/

section Span

variable {m : Snapshot String (Object Value)} {out out' : Readinesses} {wanted ids : List String}
  {end_ id : String}

/-- A row is put under its id. -/
def putRow (out : Readinesses) (p : String × Row) : Except String Readinesses :=
  (decodeRow p.2).map fun r ↦ out.insert p.1 r

/-- The readiness of every id, as a listing of all the records reads it. -/
def readinesses (m : Snapshot String (Object Value)) : Except String Readinesses :=
  ((under m Keys.readinessPrefix).filterMap fun e ↦
    (Keys.idOf Keys.readinessPrefix e.1).map (·, e)).foldlM putRow ∅

/-- The row of a readiness. -/
def readinessRow (m : Snapshot String (Object Value)) (id : String) : Option (String × Row) :=
  m[Keys.readiness id]?.map fun v ↦ (id, Keys.readiness id, v)

/-- The wanted id of a row. -/
def wantedRow (wanted : List String) (e : Row) : Option (String × Row) :=
  ((Keys.idOf Keys.readinessPrefix e.1).filter (· ∈ wanted)).map (·, e)

theorem foldlM_readInto {l : List String} :
    l.foldlM (readInto m) out = (l.filterMap (readinessRow m)).foldlM putRow out := by
  induction l generalizing out with
  | nil => rfl
  | cons id l ih =>
    rw [List.foldlM_cons, readInto, readinessAt, List.filterMap_cons, readinessRow]
    cases hv : m[Keys.readiness id]? with
    | none => exact ih
    | some v =>
      rw [Option.map_some]
      dsimp only
      rw [List.foldlM_cons, putRow]
      cases (decodeRow (Keys.readiness id, v) : Except String Readiness) with
      | error err => rfl
      | ok r => exact ih

/-- Past its end a span has nothing that is wanted. -/
theorem foldUntil_span (hend : ∀ id ∈ wanted, Keys.readiness id ≤ end_) :
    ∀ {rows : List Row} {out : Readinesses}, rows.Pairwise (·.1 < ·.1) →
      (foldUntil (takeReadiness wanted end_) out rows).map (·.1) =
        (rows.filterMap (wantedRow wanted)).foldlM putRow out
  | [], _, _ => rfl
  | e :: rows, out, hsorted => by
    obtain ⟨hlater, hsorted⟩ := List.pairwise_cons.mp hsorted
    rw [foldUntil, takeReadiness]
    by_cases hpast : end_ < e.1
    · rw [if_pos hpast]
      have hnone : ∀ e' ∈ e :: rows, wantedRow wanted e' = none := by
        intro e' he'
        have hpast' : end_ < e'.1 := by
          rcases List.mem_cons.mp he' with rfl | he'
          · exact hpast
          · exact hpast.trans (hlater e' he')
        rw [wantedRow, Option.map_eq_none_iff, Option.filter_eq_none_iff]
        intro id hid hmem
        refine absurd (hend id (of_decide_eq_true hmem)) ?_
        rw [← show e'.1 = Keys.readiness id from (idOf_eq_some.mp hid).1]
        exact hpast'.not_ge
      rw [List.filterMap_eq_nil_iff.mpr hnone]
      rfl
    · rw [if_neg hpast, List.filterMap_cons, wantedRow]
      cases (Keys.idOf Keys.readinessPrefix e.1).filter (· ∈ wanted) with
      | none => exact foldUntil_span hend hsorted
      | some id =>
        rw [Option.map_some]
        dsimp only
        rw [List.foldlM_cons, putRow]
        cases (decodeRow e : Except String Readiness) with
        | error err => rfl
        | ok r => exact foldUntil_span hend hsorted

/-- The span past the first of the wanted ids has the rows of the others. -/
theorem filterMap_span {first : String} {rest : List String}
    (hsorted : (first :: rest).Pairwise (· < ·))
    (hids : ∀ id ∈ rest, id ≠ "" ∧ '/' ∉ id.toList) :
    (rowsPast (under m Keys.readinessPrefix) (some (Keys.readiness first))).filterMap
      (wantedRow (first :: rest)) = rest.filterMap (readinessRow m) := by
  have : Std.Irrefl fun a b : String × Row ↦ a.1 < b.1 := ⟨fun a ↦ lt_irrefl a.1⟩
  have : Std.Antisymm fun a b : String × Row ↦ a.1 < b.1 := ⟨fun a b h h' ↦ absurd h h'.asymm⟩
  obtain ⟨hfirst, hrest⟩ := List.pairwise_cons.mp hsorted
  have hwanted {e : Row} {p : String × Row} : wantedRow (first :: rest) e = some p ↔
      Keys.idOf Keys.readinessPrefix e.1 = some p.1 ∧ p.1 ∈ first :: rest ∧ p.2 = e := by
    obtain ⟨id, e'⟩ := p
    simp only [wantedRow, Option.map_eq_some_iff, Option.filter_eq_some_iff, decide_eq_true_eq,
      Prod.mk.injEq]
    constructor
    · rintro ⟨id', ⟨hid, hmem⟩, rfl, rfl⟩
      exact ⟨hid, hmem, rfl⟩
    · rintro ⟨hid, hmem, rfl⟩
      exact ⟨id, ⟨hid, hmem⟩, rfl, rfl⟩
  refine List.Pairwise.eq_of_mem_iff (r := fun a b : String × Row ↦ a.1 < b.1) ?_ ?_ fun p ↦ ?_
  · rw [List.pairwise_filterMap]
    refine (sorted_rowsPast sorted_under).imp fun hlt p hp p' hp' ↦ ?_
    rw [(idOf_eq_some.mp (hwanted.mp hp).1).1, (idOf_eq_some.mp (hwanted.mp hp').1).1] at hlt
    exact append_lt_append.mp hlt
  · rw [List.pairwise_filterMap]
    refine hrest.imp fun hlt p hp p' hp' ↦ ?_
    obtain ⟨v, -, rfl⟩ := Option.map_eq_some_iff.mp hp
    obtain ⟨v', -, rfl⟩ := Option.map_eq_some_iff.mp hp'
    exact hlt
  · obtain ⟨id, key, v⟩ := p
    rw [List.mem_filterMap, List.mem_filterMap]
    constructor
    · rintro ⟨e, he, hsel⟩
      obtain ⟨hid, hmem, heq⟩ := hwanted.mp hsel
      obtain rfl : (key, v) = e := heq
      obtain ⟨hunder, hpast⟩ := List.mem_filter.mp he
      have hkey : key = Keys.readiness id := (idOf_eq_some.mp hid).1
      have hlt : first < id := by
        rw [KeyPrefix.past_some, hkey] at hpast
        exact append_lt_append.mp hpast
      refine ⟨id, (List.mem_cons.mp hmem).resolve_left hlt.ne', ?_⟩
      subst hkey
      exact Option.map_eq_some_iff.mpr ⟨v, (mem_under.mp hunder).1, rfl⟩
    · rintro ⟨id', hmem, hrow⟩
      obtain ⟨v', hv, heq⟩ := Option.map_eq_some_iff.mp hrow
      cases heq
      refine ⟨(Keys.readiness id, v), List.mem_filter.mpr ⟨mem_under.mpr
        ⟨hv, Keys.starts_readiness id⟩, ?_⟩, hwanted.mpr ⟨idOf_eq_some.mpr ⟨rfl, hids id hmem⟩,
          List.mem_cons_of_mem _ hmem, rfl⟩⟩
      rw [KeyPrefix.past_some]
      exact append_lt_append.mpr (hfirst id hmem)

/-- **What is read along a span is what is read by key.** -/
theorem readinessOf_eq (hids : ∀ id ∈ ids, id ≠ "" ∧ '/' ∉ id.toList) :
    readinessOf m ids = ((wantedIds none ids).foldlM (readInto m) ∅).map some := by
  have hsorted : (wantedIds none ids).Pairwise (· < ·) := sorted_wantedIds
  have hmem : ∀ id ∈ wantedIds none ids, id ∈ ids := fun id hid ↦ (mem_wantedIds.mp hid).1
  unfold readinessOf
  generalize wantedIds none ids = wanted at hsorted hmem
  cases wanted with
  | nil => rfl
  | cons first rest =>
    obtain ⟨last, hlast⟩ : ∃ last, (first :: rest).getLast? = some last := by
      rw [List.getLast?_cons]
      exact ⟨_, rfl⟩
    dsimp only [List.head?_cons]
    rw [hlast]
    dsimp only
    split
    · rfl
    · have hend : ∀ id ∈ first :: rest, Keys.readiness id ≤ Keys.readiness last := by
        intro id hid
        obtain ⟨init, hinit⟩ := List.getLast?_eq_some_iff.mp hlast
        rw [hinit] at hid hsorted
        obtain hid | hid := List.mem_append.mp hid
        · have hlt := (List.pairwise_append.mp hsorted).2.2 id hid last (by simp)
          exact (append_lt_append.mpr hlt).le
        · rw [List.mem_singleton.mp hid]
      rw [List.foldlM_cons]
      cases readInto m ∅ first with
      | error err => rfl
      | ok out =>
        show takePages (m.range Keys.readinessPrefix) chunk _ _ _ out = _
        rw [takePages_under (by decide) (Nat.lt_succ_self _)]
        show _ = (rest.foldlM (readInto m) out).map some
        have hdirect : ∀ id ∈ rest, id ≠ "" ∧ '/' ∉ id.toList :=
          fun id hid ↦ hids id (hmem id (List.mem_cons_of_mem _ hid))
        rw [foldlM_readInto, ← filterMap_span hsorted hdirect,
          ← foldUntil_span hend (sorted_rowsPast sorted_under)]
        cases foldUntil (takeReadiness (first :: rest) (Keys.readiness last)) out
            (rowsPast (under m Keys.readinessPrefix) (some (Keys.readiness first))) <;> rfl

/-- What rows are put is what they hold, and no other id is put. -/
theorem putRow_spec : ∀ {l : List (String × Row)} {out out' : Readinesses},
    (l.map (·.1)).Nodup → l.foldlM putRow out = .ok out' →
      (∀ p ∈ l, ∃ r, decodeRow p.2 = .ok r ∧ out'[p.1]? = some r) ∧
        ∀ id ∉ l.map (·.1), out'[id]? = out[id]?
  | [], _, _, _, h => by
    cases h
    exact ⟨fun _ hp ↦ absurd hp List.not_mem_nil, fun _ _ ↦ rfl⟩
  | p :: l, out, out', hn, h => by
    obtain ⟨hnot, hn⟩ := List.nodup_cons.mp hn
    rw [List.foldlM_cons, putRow] at h
    cases hr : (decodeRow p.2 : Except String Readiness) with
    | error err =>
      rw [hr] at h
      cases h
    | ok r =>
      rw [hr] at h
      obtain ⟨hput, hleft⟩ := putRow_spec hn h
      refine ⟨fun p' hp' ↦ ?_, fun id hid ↦ ?_⟩
      · rcases List.mem_cons.mp hp' with rfl | hp'
        · exact ⟨r, hr, by rw [hleft _ hnot, Std.ExtTreeMap.getElem?_insert_self]⟩
        · exact hput p' hp'
      · rw [List.map_cons, List.mem_cons, not_or] at hid
        rw [hleft id hid.2, Std.ExtTreeMap.getElem?_insert, if_neg]
        simpa using Ne.symm hid.1

theorem putRow_ok : ∀ {l : List (String × Row)} {out : Readinesses},
    (∀ p ∈ l, ∃ r : Readiness, decodeRow p.2 = .ok r) → ∃ out', l.foldlM putRow out = .ok out'
  | [], out, _ => ⟨out, rfl⟩
  | p :: l, out, h => by
    obtain ⟨r, hr⟩ := h p List.mem_cons_self
    rw [List.foldlM_cons, putRow, hr]
    exact putRow_ok fun p' hp' ↦ h p' (List.mem_cons_of_mem _ hp')

/-- **The readiness of some ids is that of all the records, at these ids.** -/
theorem readinessOf_all {all : Readinesses} (hall : readinesses m = .ok all)
    (hids : ∀ id ∈ ids, id ≠ "" ∧ '/' ∉ id.toList) :
    ∃ out, readinessOf m ids = .ok (some out) ∧
      ∀ id, out[id]? = if id ∈ ids then all[id]? else none := by
  set rows := (under m Keys.readinessPrefix).filterMap fun e ↦
    (Keys.idOf Keys.readinessPrefix e.1).map (·, e) with hrows
  set wanted := (wantedIds none ids).filterMap (readinessRow m) with hwanted
  have hmem {p : String × Row} : p ∈ wanted ↔ p ∈ rows ∧ p.1 ∈ ids := by
    obtain ⟨id, key, v⟩ := p
    rw [hwanted, hrows, List.mem_filterMap, List.mem_filterMap]
    constructor
    · rintro ⟨id', hid, hrow⟩
      obtain ⟨v', hv, heq⟩ := Option.map_eq_some_iff.mp hrow
      cases heq
      have hin := (mem_wantedIds.mp hid).1
      exact ⟨⟨_, mem_under.mpr ⟨hv, Keys.starts_readiness id⟩, Option.map_eq_some_iff.mpr
        ⟨id, idOf_eq_some.mpr ⟨rfl, hids id hin⟩, rfl⟩⟩, hin⟩
    · rintro ⟨⟨e, he, hsel⟩, hin⟩
      obtain ⟨id', hid, heq⟩ := Option.map_eq_some_iff.mp hsel
      cases heq
      obtain rfl : key = Keys.readiness id := (idOf_eq_some.mp hid).1
      exact ⟨id, mem_wantedIds.mpr ⟨hin, rfl⟩,
        Option.map_eq_some_iff.mpr ⟨v, (mem_under.mp he).1, rfl⟩⟩
  have hnodupRows : (rows.map (·.1)).Nodup := by
    refine (List.pairwise_map.mpr ?_ : (rows.map (·.1)).Pairwise (· < ·)).imp fun h ↦ h.ne
    rw [hrows, List.pairwise_filterMap]
    refine sorted_under.imp fun hlt p hp p' hp' ↦ ?_
    obtain ⟨id, hid, rfl⟩ := Option.map_eq_some_iff.mp hp
    obtain ⟨id', hid', rfl⟩ := Option.map_eq_some_iff.mp hp'
    rw [(idOf_eq_some.mp hid).1, (idOf_eq_some.mp hid').1] at hlt
    exact append_lt_append.mp hlt
  have hnodupWanted : (wanted.map (·.1)).Nodup := by
    refine (List.pairwise_map.mpr ?_ : (wanted.map (·.1)).Pairwise (· < ·)).imp fun h ↦ h.ne
    rw [hwanted, List.pairwise_filterMap]
    refine sorted_wantedIds.imp fun hlt p hp p' hp' ↦ ?_
    obtain ⟨v, -, rfl⟩ := Option.map_eq_some_iff.mp hp
    obtain ⟨v', -, rfl⟩ := Option.map_eq_some_iff.mp hp'
    exact hlt
  obtain ⟨hput, hleft⟩ := putRow_spec hnodupRows hall
  obtain ⟨out, hout⟩ : ∃ out, wanted.foldlM putRow ∅ = .ok out := putRow_ok fun p hp ↦ by
    obtain ⟨r, hr, -⟩ := hput p (hmem.mp hp).1
    exact ⟨r, hr⟩
  obtain ⟨hput', hleft'⟩ := putRow_spec hnodupWanted hout
  refine ⟨out, ?_, fun id ↦ ?_⟩
  · rw [readinessOf_eq hids, foldlM_readInto, ← hwanted, hout]
    rfl
  · by_cases hid : id ∈ wanted.map (·.1)
    · obtain ⟨p, hp, rfl⟩ := List.mem_map.mp hid
      obtain ⟨r, hr, hat⟩ := hput' p hp
      obtain ⟨r', hr', hat'⟩ := hput p (hmem.mp hp).1
      rw [hr] at hr'
      obtain rfl := Except.ok.inj hr'
      rw [if_pos (hmem.mp hp).2, hat, hat']
    · rw [hleft' id hid]
      split <;> rename_i hin
      · -- an id that is given and has no row has no readiness
        have hno : id ∉ rows.map (·.1) := fun hrow ↦ by
          obtain ⟨p, hp, rfl⟩ := List.mem_map.mp hrow
          exact hid (List.mem_map.mpr ⟨p, hmem.mpr ⟨hp, hin⟩, rfl⟩)
        rw [hleft id hno]
      · rfl

end Span

/-! ## From cursor to cursor -/

/-- What is listed by page is what there is, from every snapshot. -/
structure ListedByPage (m : Snapshot String (Object Value)) : Prop where
  /-- The records are in the order of their ids. -/
  ordered : ∀ lockExpiry : String → Option ℕ, (records m lockExpiry).Pairwise (·.1 < ·.1)
  orderedDeliveries : (deliveries m).Pairwise (·.1 < ·.1)
  /-- The pages of the records, each past the last of the one before, are those asked for. -/
  recordPages : ∀ (lockExpiry : String → Option ℕ) (states : Option (List BeadState))
    (ids : Option (List String)) (limit : ℕ) (keep : LifecycleRecord → Bool), 0 < limit →
    (∀ s, states = some s → s.Nodup) →
    ∃ pages, readPages (fun after ↦ recordsPage m lockExpiry states ids after (some limit) keep)
        (·.value.row.beadId) (m.toList.length + 1) none = .ok (some pages) ∧
      pages.flatten = ((records m lockExpiry).filter (asks states ids keep)).map (·.2) ∧
      ∀ page ∈ pages, page.length ≤ limit
  /-- And so are those of the deliveries. -/
  deliveryPages : ∀ (states : Option (List DeliveryState)) (limit : ℕ), 0 < limit →
    (∀ s, states = some s → s.Nodup) →
    ∃ pages, readPages (fun after ↦ deliveriesPage m states after (some limit)) (·.1.value.beadId)
        (m.toList.length + 1) none = .ok (some pages) ∧
      pages.flatten = ((deliveries m).filter (asksDelivery states)).map (·.2) ∧
      ∀ page ∈ pages, page.length ≤ limit
  /-- Each record of a page has the readiness that a listing of all of them has for it. -/
  readiness : ∀ (lockExpiry : String → Option ℕ) (page : List (Read LifecycleRecord))
    (all : Readinesses), (∀ r ∈ page, r ∈ (records m lockExpiry).map (·.2)) →
    readinesses m = .ok all →
      ∃ out, readinessOf m (page.map (·.value.row.beadId)) = .ok (some out) ∧
        ∀ id, out[id]? = if id ∈ page.map (·.value.row.beadId) then all[id]? else none

section Cursors

variable {m : Snapshot String (Object Value)} {lockExpiry : String → Option ℕ}

theorem mem_records (hm : Proper m) {p : String × Read LifecycleRecord}
    (hp : p ∈ records m lockExpiry) :
    p.2.value.row.beadId = p.1 ∧ p.1 ≠ "" ∧ '/' ∉ p.1.toList := by
  obtain ⟨e, he, hp⟩ := List.mem_filterMap.mp hp
  obtain ⟨id, hid, hp⟩ := Option.bind_eq_some_iff.mp hp
  obtain ⟨r, hr, rfl⟩ := Option.map_eq_some_iff.mp hp
  obtain ⟨r', hr', hbead, -⟩ := projected_ok lockExpiry (hm.ofKind he) hid
  dsimp only at hr
  rw [hr'] at hr
  obtain rfl := Option.some.inj hr
  exact ⟨hbead, (idOf_eq_some.mp hid).2⟩

theorem mem_deliveries (hm : Proper m) {p : String × Listed} (hp : p ∈ deliveries m) :
    p.2.1.value.beadId = p.1 := by
  obtain ⟨e, he, hp⟩ := List.mem_filterMap.mp hp
  obtain ⟨id, hid, hp⟩ := Option.bind_eq_some_iff.mp hp
  obtain ⟨d, hd, rfl⟩ := Option.map_eq_some_iff.mp hp
  obtain ⟨d', hd', hbead, -⟩ := listed_ok (hm.ofKind he) hid
  dsimp only at hd
  rw [hd'] at hd
  obtain rfl := Option.some.inj hd
  exact hbead

theorem length_keyed {γ : Type} {pre : String} {f : String → Row → Option γ} :
    (keyed m pre f).length ≤ m.toList.length :=
  (List.length_filterMap_le _ _).trans (List.length_filter_le _ _)

theorem Proper.listed (hm : Proper m) : ListedByPage m where
  ordered _ := sorted_keyed
  orderedDeliveries := sorted_keyed
  recordPages lockExpiry states ids limit keep hlimit hstates := by
    refine readPages_all (sorted_keyed.filter _)
      (fun p hp ↦ (mem_records hm (List.mem_of_mem_filter hp)).1) hlimit (fun c ↦ ?_)
      (Nat.lt_succ_of_le ((List.length_filter_le _ _).trans length_keyed))
    rw [recordsPage_eq hm (by simpa using hlimit.ne') hstates, firstOf, List.map_take]
    rfl
  deliveryPages states limit hlimit hstates := by
    refine readPages_all (sorted_keyed.filter _)
      (fun p hp ↦ mem_deliveries hm (List.mem_of_mem_filter hp)) hlimit (fun c ↦ ?_)
      (Nat.lt_succ_of_le ((List.length_filter_le _ _).trans length_keyed))
    rw [deliveriesPage_eq hm (by simpa using hlimit.ne') hstates, firstOf, List.map_take]
    rfl
  readiness lockExpiry page all hpage hall := readinessOf_all hall fun id hid ↦ by
    obtain ⟨r, hr, rfl⟩ := List.mem_map.mp hid
    obtain ⟨p, hp, rfl⟩ := List.mem_map.mp (hpage r hr)
    obtain ⟨hbead, hdirect⟩ := mem_records hm hp
    rw [hbead]
    exact hdirect

end Cursors

/-- **Listing page by page is listing.** -/
theorem listed_by_page {floor : ℕ} {cfg : Config Value} {fuel : ℕ}
    {turns : List (Turn Env ℕ (Call Value))} (h : ControlRun floor cfg fuel turns) (n : ℕ) :
    ListedByPage (snapshot (worldAt cfg fuel turns).store.history n) :=
  Proper.listed (kinds_run h n)

/-- What is listed in the run of a bead that waits. -/
theorem listed_by_page_waiting :
    ListedByPage (snapshot (worldAt stillConfig 1 Waiting.turns).store.history 3) :=
  listed_by_page Waiting.controlRun 3

/-- **A state that is named twice has its records twice**; where ids are given, no state is looked
at; and a record that no readiness was written of has none. -/
theorem listed_twice : ∃ (cfg : Config Value) (fuel : ℕ) (turns : List (Turn Env ℕ (Call Value)))
    (m : Snapshot String (Object Value)),
    ControlRun 1000 cfg fuel turns ∧ m = snapshot (worldAt cfg fuel turns).store.history 3 ∧
    (recordsPage m (fun _ ↦ none) (some [.ready, .ready]) none none (some 2)
      fun _ ↦ true).toOption.join.map (·.map (·.value.row.beadId)) = some ["sp-1", "sp-1"] ∧
    (recordsPage m (fun _ ↦ none) (some [.working]) (some ["sp-1"]) none (some 2)
      fun _ ↦ true).toOption.join.map (·.map (·.value.row.state)) = some [.ready] ∧
    (recordsPage m (fun _ ↦ none) none (some ["sp-2"]) none (some 2)
      fun _ ↦ true).toOption.join.map (·.length) = some 1 ∧
    (readinessOf m ["sp-2"]).toOption.join.map (·.toList.length) = some 0 := by
  refine ⟨stillConfig, 1, Waiting.turns, _, Waiting.controlRun, rfl, ?_⟩
  decide +kernel

end Spira.Control
