import Spira.Control.Rounds
import Spira.Lifecycle.Bead.Moves

/-!
# What a step of a cascade does

A step that its machine refuses changes nothing, and one that is applied plans its row under its
own key; `Frame` says which keys a part of a plan may change, and is put together as the plan is.
So what a verb does to a record is read off the steps on that record alone.
-/

set_option autoImplicit false

namespace Spira.Control

open Spira.Bead Spira.Batch Spira.Delivery Store Stopping

/-! ## Frames -/

/-- The record of `T` under `key`. -/
def rowOf (T : Type) [Stored T] (p : String → Option (Object Value)) (key : String) : Option T :=
  (p key).bind decode

namespace Cascade

/-- From `c` to `c'` no key but those of `keys` is planned anew, and what was written still is. -/
structure Frame (view : View) (keys : List String) (c c' : Cascade) : Prop where
  sound : Sound view c'
  planned : ∀ k ∉ keys, c'.planned view k = c.planned view k
  writes : ∀ k ∉ keys, c'.Writes k → c.Writes k
  kept : ∀ k, c.Writes k → c'.Writes k

variable {view : View} {keys keys' : List String} {c c' c'' : Cascade} {key : String}
  {p : String → Option (Object Value)} {w : String → Prop}

theorem Frame.refl (h : Sound view c) : Frame view keys c c :=
  ⟨h, fun _ _ ↦ rfl, fun _ _ ↦ id, fun _ ↦ id⟩

theorem Frame.trans (h : Frame view keys c c') (h' : Frame view keys c' c'') :
    Frame view keys c c'' where
  sound := h'.sound
  planned k hk := (h'.planned k hk).trans (h.planned k hk)
  writes k hk hw := h.writes k hk (h'.writes k hk hw)
  kept k hw := h'.kept k (h.kept k hw)

theorem Frame.mono (h : Frame view keys c c') (hk : ∀ k ∈ keys, k ∈ keys') :
    Frame view keys' c c' where
  sound := h.sound
  planned k hn := h.planned k (mt (hk k) hn)
  writes k hn := h.writes k (mt (hk k) hn)
  kept := h.kept

theorem Frame.of_nil (h : Frame view [] c c') : Frame view keys c c' := h.mono (by simp)

/-- What was read of a key leaves everything as it is. -/
theorem Leaves.frame (h : Leaves view (c.planned view) c.Writes c') : Frame view keys c c' :=
  ⟨h.sound, fun _ _ ↦ by rw [h.planned], fun _ _ hw ↦ by rwa [h.writes] at hw,
    fun _ hw ↦ by rwa [h.writes]⟩

theorem Leaves.frame_update {v : Object Value}
    (h : Leaves view (Function.update (c.planned view) key (some v)) (fun k ↦ k = key ∨ c.Writes k)
      c') : Frame view [key] c c' where
  sound := h.sound
  planned k hk := by rw [h.planned, Function.update_of_ne (by simpa using hk)]
  writes k hk hw := by
    rw [h.writes] at hw
    exact hw.resolve_left (by simpa using hk)
  kept k hw := by
    rw [h.writes]
    exact .inr hw

variable {T : Type} [Stored T]

/-- Reading a key leaves the cascade as it was. -/
theorem get_frame (h : Sound view c) :
    Ends (Cascade.get view key : Plan (Option T)) c fun a c' ↦ Frame view [] c c' ∧
      c'.planned view = c.planned view ∧ c'.Writes = c.Writes ∧
        a = rowOf T (c.planned view) key ∧ (a = none → c.planned view key = none) := by
  refine (get_ends h.leaves).imp fun a c' ⟨hl, hnone, hsome⟩ ↦
    ⟨hl.frame, hl.planned, hl.writes, ?_, fun ha ↦ ?_⟩
  · rw [rowOf]
    cases hp : c.planned view key with
    | none => exact hnone hp
    | some o =>
      obtain ⟨t, rfl, ht⟩ := hsome o hp
      exact ht.symm
  · cases hp : c.planned view key with
    | none => rfl
    | some o =>
      obtain ⟨t, rfl, -⟩ := hsome o hp
      cases ha

/-- From `c` to `c'` keys are looked at, and that is all. -/
structure Looks (view : View) (c c' : Cascade) : Prop where
  sound : Sound view c'
  planned : c'.planned view = c.planned view
  writes : c'.Writes = c.Writes

theorem Looks.refl (h : Sound view c) : Looks view c c := ⟨h, rfl, rfl⟩

theorem Looks.trans (h : Looks view c c') (h' : Looks view c' c'') : Looks view c c'' :=
  ⟨h'.sound, h'.planned.trans h.planned, h'.writes.trans h.writes⟩

theorem Looks.frame (h : Looks view c c') : Frame view keys c c' :=
  ⟨h.sound, fun _ _ ↦ by rw [h.planned], fun _ _ hw ↦ by rwa [h.writes] at hw,
    fun _ hw ↦ by rwa [h.writes]⟩

theorem get_looks (h : Sound view c) :
    Ends (Cascade.get view key : Plan (Option T)) c fun a c' ↦
      Looks view c c' ∧ a = rowOf T (c.planned view) key ∧ (a = none → c.planned view key = none) :=
  (get_frame h).imp fun _ _ ⟨hf, hp, hw, ha, hnone⟩ ↦ ⟨⟨hf.sound, hp, hw⟩, ha, hnone⟩

/-- The record that is planned for a key is the one read back. -/
theorem decode_object (prior : Option (Object Value)) (v : T) (owners : List String) :
    decode (object prior (Stored.encode v) owners) = some v := by
  cases prior with
  | none => exact Stored.decode_encode v
  | some o =>
    rw [decode, object.eq_def]
    dsimp only
    rw [keepEntered.eq_def]
    split <;> rename_i hv
    · rw [Stored.decode_entered _ _ none, ← hv]
      exact Stored.decode_encode v
    · exact Stored.decode_encode v

/-- From `c` to `c'` the record `v` is put at `key`, and nothing else. -/
structure Put (view : View) (c c' : Cascade) (key : String) (v : T) (owners : List String) :
    Prop where
  frame : Frame view [key] c c'
  writes : c'.Writes key
  planned : c'.planned view key = some (object (c.planned view key) (Stored.encode v) owners)

theorem Put.row {v : T} {owners : List String} (h : Put view c c' key v owners) :
    rowOf T (c'.planned view) key = some v := by
  rw [rowOf, h.planned]
  exact decode_object _ v owners

/-- Reading leaves the cascade as it was. -/
theorem Put.of_frame {v : T} {owners : List String} (h : Put view c' c'' key v owners)
    (hf : Frame view [] c c') : Put view c c'' key v owners where
  frame := hf.of_nil.trans h.frame
  writes := h.writes
  planned := by rw [h.planned, hf.planned key (by simp)]

theorem put_put {v : T} {owners : List String} (h : Sound view c) :
    Ends (Cascade.put view key v owners) c fun _ c' ↦ Put view c c' key v owners := by
  refine (put_ends h.leaves).imp fun _ c' hl ↦ ⟨hl.frame_update, ?_, ?_⟩
  · rw [hl.writes]
    exact .inl rfl
  · rw [hl.planned, Function.update_self]

theorem step_frame {a : Audit} (h : Sound view c) :
    Ends (Cascade.step a) c fun _ c' ↦ Frame view [] c c' :=
  (step_ends h.leaves).imp fun _ _ hl ↦ hl.frame

theorem note_frame {a : Audit} (h : Sound view c) :
    Ends (Cascade.note a) c fun _ c' ↦ Frame view [] c c' :=
  (note_ends h.leaves).imp fun _ _ hl ↦ hl.frame

theorem namePrerequisite_frame {id prereq : String} (h : Sound view c) :
    Ends (Cascade.namePrerequisite id prereq) c fun _ c' ↦ Frame view [] c c' :=
  (namePrerequisite_ends h.leaves).imp fun _ _ hl ↦ hl.frame

end Cascade

/-! ## The steps -/

section Steps

variable {r : Reads} {c : Cascade} {id actor : String} {at_ : Int}

open Cascade

/-- **A delivery's step is refused, or plans its row.** -/
theorem deliveryStep_ends {row : DeliveryRow} {kind : DeliveryEventKind} (h : Sound r.view c) :
    Ends (deliveryStep r id row kind actor at_) c fun a c' ↦
      ((Delivery.apply row (deliveryEvent row kind actor)).applied = false ∧ a = none ∧ c' = c) ∨
      ((Delivery.apply row (deliveryEvent row kind actor)).applied = true ∧ a.isSome ∧
        Put r.view c c' (Keys.delivery id) (Delivery.step row (deliveryEvent row kind actor))
          [Keys.lifecycle id]) := by
  rw [deliveryStep]
  refine ends_ite (fun ha ↦ ends_pure (.inl ⟨by simpa using ha, rfl, rfl⟩)) fun ha ↦ ?_
  refine ends_bind ((step_frame h).imp fun _ c₁ hf ↦ ends_bind ((put_put hf.sound).imp
    fun _ c₂ hp ↦ ends_pure (.inr ⟨by simpa using ha, rfl, hp.of_frame hf⟩)))

/-- **A bead's step is refused, or plans its record and its gate.** -/
theorem beadStep_ends {kind : BeadEventKind} (h : Sound r.view c) :
    Ends (beadStep r id kind actor at_) c fun a c' ↦
      ((∃ e, a = .error e) ∧ Frame r.view [] c c' ∧
        ∀ rec, rowOf LifecycleRecord (c.planned r.view) (Keys.lifecycle id) = some rec →
          (Bead.apply rec.row (beadEvent rec.row kind actor at_)).applied = false) ∨
      (a = .ok () ∧ ∃ rec, rowOf LifecycleRecord (c.planned r.view) (Keys.lifecycle id) = some rec ∧
        (Bead.apply rec.row (beadEvent rec.row kind actor at_)).applied = true ∧
        Frame r.view [Keys.lifecycle id, Keys.gate id] c c' ∧ c'.Writes (Keys.lifecycle id) ∧
        rowOf LifecycleRecord (c'.planned r.view) (Keys.lifecycle id) =
          some (nextRecord rec (Bead.step rec.row (beadEvent rec.row kind actor at_)) at_)) := by
  rw [beadStep]
  refine ends_bind ((get_frame h).imp fun a c₁ ⟨hf₁, hp₁, hw₁, ha, hnone⟩ ↦ ?_)
  cases a with
  | none => exact ends_pure (.inl ⟨⟨_, rfl⟩, hf₁, fun rec hrec ↦ nomatch ha.trans hrec⟩)
  | some cur =>
    dsimp only
    refine ends_ite (fun hno ↦ ends_pure (.inl ⟨⟨_, rfl⟩, hf₁, fun rec hrec ↦ ?_⟩)) fun hyes ↦ ?_
    · rw [Option.some.inj (hrec.symm.trans ha.symm)]
      simpa using hno
    refine ends_bind ((step_frame hf₁.sound).imp fun _ c₂ hf₂ ↦
      ends_bind ((put_put hf₂.sound).imp fun _ c₃ hp₃ ↦
        ends_bind ((get_frame hp₃.frame.sound).imp fun g c₄ ⟨hf₄, hp₄, hw₄, _, _⟩ ↦ ?_)))
    -- The gate is a key of its own, so the record stays as it was put.
    have hne : Keys.lifecycle id ≠ Keys.gate id :=
      Keys.ne_of_starts (Keys.starts_lifecycle id) (Keys.starts_gate id) (by decide) (by decide)
    have hput := hp₃.of_frame (hf₁.trans hf₂)
    have happlied : (Bead.apply cur.row (beadEvent cur.row kind actor at_)).applied = true := by
      simpa using hyes
    have hdone {c₅ : Cascade} (hf₅ : Frame r.view [Keys.gate id] c₃ c₅) :
        Frame r.view [Keys.lifecycle id, Keys.gate id] c c₅ ∧ c₅.Writes (Keys.lifecycle id) ∧
          rowOf LifecycleRecord (c₅.planned r.view) (Keys.lifecycle id) =
            some (nextRecord cur (Bead.step cur.row (beadEvent cur.row kind actor at_)) at_) := by
      refine ⟨(hput.frame.mono (by simp)).trans (hf₅.mono (by simp)), hf₅.kept _ hput.writes, ?_⟩
      rw [rowOf, hf₅.planned _ (by simpa using hne)]
      exact hput.row
    refine ends_ite (fun _ ↦ ends_bind ((put_put hf₄.sound).imp fun _ c₅ hp₅ ↦ ends_pure ?_))
      fun _ ↦ ends_pure ?_
    · exact .inr ⟨rfl, cur, ha.symm, happlied, hdone (hf₄.of_nil.trans hp₅.frame)⟩
    · exact .inr ⟨rfl, cur, ha.symm, happlied, hdone hf₄.of_nil⟩

/-- **A round's step plans its next record**; refused, it stops the plan. -/
theorem batchStep_ends {key : String} {stored : BatchRecord} {ev : BatchEvent}
    (h : Sound r.view c) :
    Ends (batchStep r key stored ev at_) c fun next c' ↦
      ∃ cur : BatchRecord, cur = (rowOf BatchRecord (c.planned r.view) key).getD stored ∧
        (Batch.apply cur.row ev).applied = true ∧ next = { cur with row := (Batch.apply cur.row ev).row } ∧
        Put r.view c c' key next [] := by
  rw [batchStep]
  refine ends_bind ((get_frame h).imp fun a c₁ ⟨hf₁, _, _, ha, _⟩ ↦ ?_)
  subst ha
  refine ends_ite (fun _ ↦ ends_throw) fun happ ↦ ?_
  refine ends_bind ((step_frame hf₁.sound).imp fun _ c₂ hf₂ ↦ ends_bind ((put_put hf₂.sound).imp
    fun _ c₃ hp ↦ ends_pure ⟨_, rfl, by simpa using happ, rfl, hp.of_frame (hf₁.trans hf₂)⟩))

/-- The round `id` as it is looked up before the cascade reads it. -/
structure Looked (r : Reads) (id key : String) (rec : BatchRecord) : Prop where
  index : ∃ i, r.before (Keys.batchIndex id) = some i ∧
    ∃ ix : BatchIndex, decode i.value = some ix ∧ key = Keys.batch ix.repo id
  round : ∃ i, r.before key = some i ∧ decode i.value = some rec

theorem readBefore_ends {T : Type} [Stored T] {key : String} :
    Ends (readBefore r key : Plan (Option T)) c fun a c' ↦ c' = c ∧
      (a = none → r.before key = none) ∧
      ∀ t, a = some t → ∃ i, r.before key = some i ∧ decode i.value = some t := by
  rw [readBefore]
  cases hi : r.before key with
  | none => exact ends_pure ⟨rfl, fun _ ↦ rfl, by simp⟩
  | some i =>
    dsimp only
    split
    · rename_i t hd
      refine ends_pure ⟨rfl, by simp, fun t' ht ↦ ⟨i, rfl, ?_⟩⟩
      rw [hd, ht]
    · exact ends_throw

theorem batch_ends :
    Ends (batch r id) c fun a c' ↦ c' = c ∧ ∀ key rec, a = some (key, rec) → Looked r id key rec := by
  rw [batch]
  refine ends_bind (readBefore_ends.imp fun a c₁ ⟨hc, _, ha⟩ ↦ ?_)
  subst hc
  cases a with
  | none => exact ends_pure ⟨rfl, by simp⟩
  | some ix =>
    refine ends_bind (readBefore_ends.imp fun b c₂ ⟨hc, _, hb⟩ ↦ ends_pure ⟨hc, ?_⟩)
    rintro key rec hk
    obtain ⟨rec', hrec, hk⟩ := Option.map_eq_some_iff.mp hk
    obtain ⟨rfl, rfl⟩ := Prod.mk.inj hk
    obtain ⟨i, hi, hd⟩ := ha ix rfl
    exact ⟨⟨i, hi, ix, hd, rfl⟩, hb rec' hrec⟩

/-- A round is looked up as one. -/
theorem Looked.unique {key key' : String} {rec rec' : BatchRecord} (h : Looked r id key rec)
    (h' : Looked r id key' rec') : key = key' ∧ rec = rec' := by
  obtain ⟨⟨i, hi, ix, hd, hkey⟩, j, hj, he⟩ := h
  obtain ⟨⟨i', hi', ix', hd', hkey'⟩, j', hj', he'⟩ := h'
  rw [hi] at hi'
  obtain rfl := Option.some.inj hi'
  rw [hd] at hd'
  obtain rfl := Option.some.inj hd'
  obtain rfl : key = key' := hkey.trans hkey'.symm
  rw [hj] at hj'
  obtain rfl := Option.some.inj hj'
  rw [he] at he'
  exact ⟨rfl, Option.some.inj he'⟩

end Steps

end Spira.Control
