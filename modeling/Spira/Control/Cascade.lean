import Spira.Control.Keys
import Spira.Control.Records
import Spira.Lib.Stopping
import Spira.StateStore.Contract

/-!
# Cascades

A cascade is planned before it is committed: it reads each key once, a later step reads what an
earlier one planned for it, and its transaction compares every key it writes at the revision the
key was read at.  A plan is a program over the cascade, and stops where the verb it plans for ends
early.

`Cascade.planned` is the store as the cascade leaves it and `Cascade.Writes` the keys it writes;
reading changes neither, and a write changes both at its own key.  All that is said of a plan is
said of these two.
-/

set_option autoImplicit false

namespace Spira.Control

open Store Stopping

/-- What is read of each key. -/
abbrev View := String → Option (Item Value)

structure Slot where
  key : String
  readRev : Option Rev
  value : Option (Object Value)
  dirty : Bool
  deriving DecidableEq

structure Cascade where
  slots : List Slot := []
  then_ : List Audit := []
  els : List Audit := []
  steps : ℕ := 0
  deriving DecidableEq

/-- Why a verb wrote nothing before it reached a machine. -/
inductive Turned
  | refused (text : String)
  | cannotTell (text : String)
  deriving DecidableEq, Repr

/-- What a plan stops with. -/
inductive Stop
  | error (e : Error Value)
  /-- A machine refused its event; the refusal is audited, and nothing else written. -/
  | refuse (audit : Audit)
  | turned (t : Turned)
  deriving DecidableEq

abbrev Plan (α : Type) := StateT Cascade (Except Stop) α

def refused {α : Type} (text : String) : Plan α := throw (.turned (.refused text))

def cannotTell {α : Type} (text : String) : Plan α := throw (.turned (.cannotTell text))

/-- An error of the verb's own. -/
def fault {α : Type} (text : String) : Plan α := throw (.error (.backend (.backend text)))

/-- An object's data, where it is a record of the kind asked for. -/
def decode {T : Type} [Stored T] (o : Object Value) : Option T :=
  match o.data with
  | .payload v => Stored.decode v
  | _ => none

/-- A new delivery value keeps the `entered` it rides beside. -/
def keepEntered (prior : Data Value) (v : Value) : Value :=
  match prior, v with
  | .payload (.delivery _ (some e)), .delivery row none => .delivery row (some e)
  | _, v => v

namespace Cascade

variable {T : Type} [Stored T]

/-- The slot of `key`, which is read once. -/
def slot (view : View) (key : String) : Plan Slot := fun c ↦
  match c.slots.find? (·.key = key) with
  | some s => .ok (s, c)
  | none =>
    let item := view key
    let s : Slot := ⟨key, item.map (·.modRev), item.map (·.value), false⟩
    .ok (s, { c with slots := c.slots ++ [s] })

def get (view : View) (key : String) : Plan (Option T) := do
  let s ← slot view key
  match s.value with
  | none => return none
  | some o =>
    match decode o with
    | some t => return some t
    | none => fault (key ++ ": undecodable record")

/-- The slot of `key` holds `v`, and is written. -/
def assign (key : String) (v : Object Value) (c : Cascade) : Cascade :=
  { c with slots := c.slots.map fun s ↦ if s.key = key then { s with value := some v, dirty := true } else s }

/-- The object that is planned for a key: it keeps the metadata the key had, or has `owners`. -/
def object (prior : Option (Object Value)) (v : Value) (owners : List String) : Object Value :=
  match prior with
  | some o => { o with data := .payload (keepEntered o.data v) }
  | none => { metadata := { ownerReferences := owners }, data := .payload v }

/-- Plans `value` at `key`. -/
def put (view : View) (key : String) (value : T) (owners : List String) : Plan Unit := do
  let s ← slot view key
  modify (assign key (object s.value (Stored.encode value) owners))

/-- A machine step: its audit when the cascade commits, and its loss when it does not. -/
def step (applied : Audit) : Plan Unit :=
  modify fun c ↦ { c with
    then_ := c.then_ ++ [applied]
    els := c.els ++ [{ applied with
      toState := applied.fromState, applied := false, refusal := some "StaleVersion" }]
    steps := c.steps + 1 }

/-- An audit that is not a step of its own. -/
def note (audit : Audit) : Plan Unit := modify fun c ↦ { c with then_ := c.then_ ++ [audit] }

/-- The `Returned` audits of `id` name the prerequisite it followed out of the round. -/
def namePrerequisite (id prereq : String) : Plan Unit :=
  let named (a : Audit) : Audit :=
    if a.lcKey ≠ id ∨ !a.event.isReturned then a else { a with stackedOn := some prereq }
  modify fun c ↦ { c with then_ := c.then_.map named, els := c.els.map named }

/-- Whether the slot is the written one of round `id`. -/
def isRound (id : String) (s : Slot) : Bool :=
  s.dirty && match s.value.bind decode with
    | some (r : BatchRecord) => r.row.batchId = id && s.key = Keys.batch r.row.repo id
    | none => false

/-- Puts the queue's fields of round `id` into the write that is planned for the round. -/
def setRound (id : String) (fields : Fields) (c : Cascade) : Option Cascade :=
  match c.slots.find? (isRound id) with
  | none => none
  | some s =>
    match s.value with
    | some ⟨m, .payload (.batch r)⟩ =>
      some (c.assign s.key ⟨m, .payload (.batch { r with round := fields })⟩)
    | _ => none

/-- A delivery's object with the audits of it folded into `entered`.  A stored delivery without the
field is never given a partial one. -/
def withEntered (c : Cascade) (s : Slot) (v : Object Value) : Object Value :=
  match Keys.idOf Keys.deliveriesPrefix s.key, v.data with
  | some id, .payload (.delivery row (some e)) =>
    { v with data := .payload (.delivery row (some (foldEntered e id c.then_))) }
  | some id, .payload (.delivery row none) =>
    if s.readRev = none then
      { v with data := .payload (.delivery row (some (foldEntered ∅ id c.then_))) }
    else v
  | _, _ => v

/-- Each written key compared at the revision it was read at, then written. -/
def txn (c : Cascade) : TxnOps Value where
  compares := (c.slots.filter (·.dirty)).map fun s ↦ .modRev s.key s.readRev
  ops := (c.slots.filter (·.dirty)).filterMap fun s ↦
    s.value.map fun v ↦ .put s.key (c.withEntered s v)

end Cascade

/-! ## Transactions with their audits -/

/-- The ids the audits name, each once, in order. -/
def auditedIds (audits : List Audit) : List String :=
  ((audits.map (·.lcKey)).dedup).insertionSort (· ≤ ·)

def subRequest (req : Request Value) (part : String) (evidence : Value) : Request Value :=
  { req with id := req.id ++ "/" ++ part, evidence := some evidence }

/-- `t` with each branch's audit as its evidence and, on that branch, a history entry for every id
the audit names; the head was `plannedAt` when it was put together. -/
def auditedTxn (t : TxnOps Value) (then_ els : List Audit) (req : Request Value) (part : String)
    (plannedAt : ℕ) : Call Value :=
  let sub := subRequest req part (.audits then_ els)
  let entry (id : String) : Op Value :=
    .put (Keys.historyEntry id plannedAt sub.id) { data := .payload .history }
  .txn
    { t with
      ops := t.ops ++ (auditedIds then_).map entry
      elseOps := t.elseOps ++ (auditedIds els).map entry }
    sub

/-! ## What a cascade leaves -/

namespace Cascade

variable {view : View} {c c' : Cascade} {key : String}

/-- The value of `key` as the cascade leaves it. -/
def planned (view : View) (c : Cascade) (key : String) : Option (Object Value) :=
  match c.slots.find? (·.key = key) with
  | some s => s.value
  | none => (view key).map (·.value)

/-- The cascade writes `key`. -/
def Writes (c : Cascade) (key : String) : Prop := ∃ s ∈ c.slots, s.key = key ∧ s.dirty = true

/-- Every slot is as `view` has its key, but for what was written. -/
structure Sound (view : View) (c : Cascade) : Prop where
  nodup : (c.slots.map (·.key)).Nodup
  readRev : ∀ s ∈ c.slots, s.readRev = (view s.key).map (·.modRev)
  clean : ∀ s ∈ c.slots, s.dirty = false → s.value = (view s.key).map (·.value)
  written : ∀ s ∈ c.slots, s.dirty = true → s.value.isSome

theorem sound_empty (view : View) : Sound view {} := ⟨by simp, by simp, by simp, by simp⟩

@[simp] theorem planned_empty : planned view {} key = (view key).map (·.value) := rfl

@[simp] theorem not_writes_empty : ¬ Writes {} key := by simp [Writes]

theorem Sound.find (h : Sound view c) {s : Slot} (hs : s ∈ c.slots) :
    c.slots.find? (·.key = s.key) = some s := by
  obtain ⟨s', hs'⟩ := Option.isSome_iff_exists.mp
    (List.find?_isSome.mpr ⟨s, hs, by simp⟩ : (c.slots.find? (·.key = s.key)).isSome)
  have hkey : s'.key = s.key := by simpa using List.find?_some hs'
  rw [hs', List.inj_on_of_nodup_map h.nodup (List.mem_of_find?_eq_some hs') hs hkey]

theorem Sound.planned (h : Sound view c) {s : Slot} (hs : s ∈ c.slots) :
    c.planned view s.key = s.value := by
  rw [Cascade.planned, h.find hs]

/-- A key that is not written is as it was read. -/
theorem Sound.unwritten (h : Sound view c) (hw : ¬ c.Writes key) :
    c.planned view key = (view key).map (·.value) := by
  rw [Cascade.planned]
  cases hs : c.slots.find? (·.key = key) with
  | none => rfl
  | some s =>
    have hmem := List.mem_of_find?_eq_some hs
    have hkey : s.key = key := by simpa using List.find?_some hs
    subst hkey
    refine h.clean s hmem ?_
    rw [Bool.eq_false_iff]
    exact fun hd ↦ hw ⟨s, hmem, rfl, hd⟩

/-- The cascade leaves the store as `p`, having written the keys of `w`. -/
structure Leaves (view : View) (p : String → Option (Object Value)) (w : String → Prop)
    (c : Cascade) : Prop where
  sound : Sound view c
  planned : c.planned view = p
  writes : c.Writes = w

theorem Sound.leaves (h : Sound view c) : Leaves view (c.planned view) c.Writes c := ⟨h, rfl, rfl⟩

section Rules

variable {T : Type} [Stored T] {p : String → Option (Object Value)} {w : String → Prop}

theorem slot_ends (h : Leaves view p w c) :
    Ends (slot view key) c fun s c' ↦ Leaves view p w c' ∧ s.value = p key := by
  obtain ⟨hs, rfl, rfl⟩ := h
  intro s c' hx
  rw [slot] at hx
  cases hf : c.slots.find? (·.key = key) with
  | some s' =>
    rw [hf] at hx
    obtain ⟨rfl, rfl⟩ := Prod.mk.inj (Except.ok.inj hx)
    exact ⟨hs.leaves, by rw [Cascade.planned, hf]⟩
  | none =>
    rw [hf] at hx
    obtain ⟨rfl, rfl⟩ := Prod.mk.inj (Except.ok.inj hx)
    have hnew : ∀ s ∈ c.slots, s.key ≠ key := by simpa using hf
    refine ⟨⟨⟨?_, ?_, ?_, ?_⟩, ?_, ?_⟩, by rw [Cascade.planned, hf]⟩
    · rw [List.map_append, List.nodup_append]
      refine ⟨hs.nodup, by simp, ?_⟩
      rintro k hk k' hk'
      obtain ⟨s, hmem, rfl⟩ := List.mem_map.mp hk
      rw [List.mem_singleton.mp hk']
      exact hnew s hmem
    · intro s hmem
      rcases List.mem_append.mp hmem with hmem | hmem
      · exact hs.readRev s hmem
      · rw [List.mem_singleton.mp hmem]
    · intro s hmem hd
      rcases List.mem_append.mp hmem with hmem | hmem
      · exact hs.clean s hmem hd
      · rw [List.mem_singleton.mp hmem]
    · intro s hmem hd
      rcases List.mem_append.mp hmem with hmem | hmem
      · exact hs.written s hmem hd
      · rw [List.mem_singleton.mp hmem] at hd
        cases hd
    · funext k
      rw [Cascade.planned, Cascade.planned, List.find?_append]
      cases hk : c.slots.find? (·.key = k) with
      | some s => rfl
      | none =>
        rw [Option.none_or, List.find?_singleton]
        by_cases hkey : key = k
        · subst hkey
          simp
        · simp [hkey]
    · funext k
      refine propext ⟨fun ⟨s, hmem, hk, hd⟩ ↦ ?_, fun ⟨s, hmem, hk, hd⟩ ↦
        ⟨s, List.mem_append_left _ hmem, hk, hd⟩⟩
      rcases List.mem_append.mp hmem with hmem | hmem
      · exact ⟨s, hmem, hk, hd⟩
      · rw [List.mem_singleton.mp hmem] at hd
        cases hd

/-- What is read of a key is what is planned for it. -/
theorem get_ends (h : Leaves view p w c) :
    Ends (get view key : Plan (Option T)) c fun a c' ↦
      Leaves view p w c' ∧ (p key = none → a = none) ∧
        ∀ o, p key = some o → ∃ t, a = some t ∧ decode o = some t := by
  refine ends_bind ((slot_ends h).imp fun s c' ⟨hl, hv⟩ ↦ ?_)
  rw [← hv]
  cases hs : s.value with
  | none => exact ends_pure ⟨hl, fun _ ↦ rfl, fun o ho ↦ nomatch ho⟩
  | some o =>
    dsimp only
    cases hd : (decode o : Option T) with
    | none => exact ends_throw
    | some t =>
      refine ends_pure ⟨hl, by simp, fun o' ho ↦ ?_⟩
      rw [← Option.some.inj ho]
      exact ⟨t, rfl, hd⟩

/-- A slot that is assigned is written, and the others are as they were. -/
theorem assign_leaves (h : Leaves view p w c) {v : Object Value}
    (hslot : ∃ s ∈ c.slots, s.key = key) :
    Leaves view (Function.update p key (some v)) (fun k ↦ k = key ∨ w k) (assign key v c) := by
  obtain ⟨hs, rfl, rfl⟩ := h
  have hmap : (assign key v c).slots.map (·.key) = c.slots.map (·.key) := by
    rw [assign, List.map_map]
    refine List.map_congr_left fun s _ ↦ ?_
    rw [Function.comp]
    split <;> rfl
  have hmem {s : Slot} (hmem : s ∈ (assign key v c).slots) :
      (s.key = key ∧ s.value = some v ∧ s.dirty = true ∧ ∃ s' ∈ c.slots, s'.key = key ∧
        s.readRev = s'.readRev) ∨ s.key ≠ key ∧ s ∈ c.slots := by
    obtain ⟨s', hs', rfl⟩ := List.mem_map.mp hmem
    split <;> rename_i hkey
    · exact .inl ⟨hkey, rfl, rfl, s', hs', hkey, rfl⟩
    · exact .inr ⟨hkey, hs'⟩
  have hsound : Sound view (assign key v c) := by
    refine ⟨hmap ▸ hs.nodup, fun s hs' ↦ ?_, fun s hs' hd ↦ ?_, fun s hs' hd ↦ ?_⟩
    · rcases hmem hs' with ⟨hk, -, -, s', hs', hk', hr⟩ | ⟨-, hs'⟩
      · rw [hr, hs.readRev s' hs', hk, hk']
      · exact hs.readRev s hs'
    · rcases hmem hs' with ⟨-, -, hd', -⟩ | ⟨-, hs'⟩
      · rw [hd] at hd'
        cases hd'
      · exact hs.clean s hs' hd
    · rcases hmem hs' with ⟨-, hv, -⟩ | ⟨-, hs'⟩
      · rw [hv]
        rfl
      · exact hs.written s hs' hd
  have hold {s : Slot} (hs' : s ∈ c.slots) (hk : s.key ≠ key) : s ∈ (assign key v c).slots :=
    List.mem_map.mpr ⟨s, hs', if_neg hk⟩
  obtain ⟨s₀, hs₀, hk₀⟩ := hslot
  have hnew : { s₀ with value := some v, dirty := true } ∈ (assign key v c).slots :=
    List.mem_map.mpr ⟨s₀, hs₀, if_pos hk₀⟩
  refine ⟨hsound, funext fun k ↦ ?_, funext fun k ↦ propext ⟨?_, ?_⟩⟩
  · by_cases hk : k = key
    · have hp := hsound.planned hnew
      rw [hk, Function.update_self]
      rwa [hk₀] at hp
    · rw [Function.update_of_ne hk]
      cases hf : c.slots.find? (·.key = k) with
      | some s =>
        have hs' := List.mem_of_find?_eq_some hf
        have hk' : s.key = k := by simpa using List.find?_some hf
        subst hk'
        rw [hsound.planned (hold hs' hk), hs.planned hs']
      | none =>
        have hf' : (assign key v c).slots.find? (·.key = k) = none := by
          rw [List.find?_eq_none] at hf ⊢
          intro s hs'
          rcases hmem hs' with ⟨hk', -⟩ | ⟨-, hs'⟩
          · simpa [hk'] using fun h ↦ hk h.symm
          · exact hf s hs'
        rw [Cascade.planned, Cascade.planned, hf, hf']
  · rintro ⟨s, hs', rfl, hd⟩
    rcases hmem hs' with ⟨hk, -⟩ | ⟨-, hs'⟩
    · exact .inl hk
    · exact .inr ⟨s, hs', rfl, hd⟩
  · rintro (rfl | ⟨s, hs', rfl, hd⟩)
    · exact ⟨_, hnew, hk₀, rfl⟩
    · by_cases hk : s.key = key
      · exact ⟨_, hnew, hk₀.trans hk.symm, rfl⟩
      · exact ⟨s, hold hs' hk, rfl, hd⟩

/-- The slot that is read is there. -/
theorem slot_mem : Ends (slot view key) c fun _ c' ↦ ∃ s ∈ c'.slots, s.key = key := by
  intro s c' hx
  rw [slot] at hx
  cases hf : c.slots.find? (·.key = key) with
  | some s' =>
    rw [hf] at hx
    obtain ⟨-, rfl⟩ := Prod.mk.inj (Except.ok.inj hx)
    exact ⟨s', List.mem_of_find?_eq_some hf, by simpa using List.find?_some hf⟩
  | none =>
    rw [hf] at hx
    obtain ⟨-, rfl⟩ := Prod.mk.inj (Except.ok.inj hx)
    exact ⟨_, List.mem_append_right _ (List.mem_singleton.mpr rfl), rfl⟩

/-- **A write is of its own key.** -/
theorem put_ends {value : T} {owners : List String} (h : Leaves view p w c) :
    Ends (put view key value owners) c fun _ c' ↦
      Leaves view (Function.update p key (some (object (p key) (Stored.encode value) owners)))
        (fun k ↦ k = key ∨ w k) c' := by
  refine ends_bind (((slot_ends h).and slot_mem).imp fun s c' ⟨⟨hl, hv⟩, hslot⟩ ↦ ?_)
  rw [hv]
  exact ends_modify (assign_leaves hl hslot)

/-- What is only of the audits leaves the slots. -/
theorem Leaves.audits (h : Leaves view p w c) (then_ els : List Audit) (steps : ℕ) :
    Leaves view p w { c with then_ := then_, els := els, steps := steps } :=
  ⟨⟨h.sound.nodup, h.sound.readRev, h.sound.clean, h.sound.written⟩, h.planned, h.writes⟩

theorem step_ends {a : Audit} (h : Leaves view p w c) :
    Ends (step a) c fun _ c' ↦ Leaves view p w c' :=
  ends_modify (h.audits _ _ _)

theorem note_ends {a : Audit} (h : Leaves view p w c) :
    Ends (note a) c fun _ c' ↦ Leaves view p w c' :=
  ends_modify (h.audits _ _ _)

theorem namePrerequisite_ends {id prereq : String} (h : Leaves view p w c) :
    Ends (namePrerequisite id prereq) c fun _ c' ↦ Leaves view p w c' :=
  ends_modify (h.audits _ _ _)

end Rules

end Cascade

end Spira.Control
