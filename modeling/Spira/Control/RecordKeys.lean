import Spira.Control.RoundKeys

/-!
# What each command does to the records

A command writes a record only by the steps of its machine, none of which brings one into WORKING,
and a delivery only as a step leaves it; so what these keep, every command keeps (`command_beads`).
A step writes the gate beside the record wherever it moves it: where the gate is not written, it was
read as the record is planned (`Issue.beads`).
-/

set_option autoImplicit false

namespace Spira.Control

open Spira.Bead Spira.Batch Spira.Delivery Store Store.Contract Stopping
open KeyPrefix (starts)

/-- The key is of a record or of a gate. -/
def OfBeads (key : String) : Prop := starts Keys.lifecyclePrefix key ∨ starts Keys.gatesPrefix key

section Keys

variable {id key pre : String}

theorem ofBeads_lifecycle : OfBeads (Keys.lifecycle id) := .inl (Keys.starts_lifecycle id)

theorem ofBeads_gate : OfBeads (Keys.gate id) := .inr (Keys.starts_gate id)

theorem not_ofBeads (h : starts pre key)
    (hpre : (starts pre Keys.lifecyclePrefix = false ∧ starts Keys.lifecyclePrefix pre = false) ∧
      starts pre Keys.gatesPrefix = false ∧ starts Keys.gatesPrefix pre = false) : ¬ OfBeads key := by
  rintro (hb | hb)
  · rw [KeyPrefix.not_starts h hpre.1.1 hpre.1.2] at hb
    cases hb
  · rw [KeyPrefix.not_starts h hpre.2.1 hpre.2.2] at hb
    cases hb

theorem not_ofBeads_delivery : ¬ OfBeads (Keys.delivery id) :=
  not_ofBeads (Keys.starts_delivery id) (by decide)

theorem not_ofBeads_mending : ¬ OfBeads (Keys.mending id) :=
  not_ofBeads (Keys.starts_mending id) (by decide)

theorem OfRounds.not_ofBeads (h : OfRounds key) : ¬ OfBeads key :=
  h.elim (Control.not_ofBeads · (by decide)) (Control.not_ofBeads · (by decide))

/-- A round's key is neither of a bead nor of a delivery. -/
theorem OfRounds.spares (h : OfRounds key) :
    ¬ OfBeads key ∧ starts Keys.deliveriesPrefix key = false :=
  ⟨h.not_ofBeads, h.elim (KeyPrefix.not_starts · (by decide) (by decide))
    (KeyPrefix.not_starts · (by decide) (by decide))⟩

end Keys

/-! ## The events that take a bead -/

/-- The events that can bring a record into WORKING. -/
def entersWorking : BeadEventKind → Bool
  | .claim _ _ _ _ _ _ | .reclassify .working _ => true
  | _ => false

/-- **No other event brings a record into WORKING.** -/
theorem working_of_step {row : BeadRow} {ev : BeadEvent} (h : (Bead.apply row ev).applied = true)
    (hk : entersWorking ev.kind = false) (hs : (Bead.step row ev).state = .working) :
    row.state = .working := by
  obtain ⟨-, mid, hm, hrow⟩ := Bead.apply_move h
  rw [Bead.step, hrow, settled_state] at hs
  generalize ev.kind = kind at hm hk
  cases hm with
  | reclassify =>
    cases hs
    simp [entersWorking] at hk
  | absolve open_ red complete =>
    dsimp only at hs
    split_ifs at hs
    exact hs
  | unclaim hk' hw => exact hw
  | claimReady => simp [entersWorking] at hk
  | claimRework => simp [entersWorking] at hk
  | renew hw => exact hw
  | phase hw => exact hw
  | disposition hw => exact hw
  | _ =>
    first
    | exact hs
    | cases hs

/-! ## The records of a cascade -/

open Cascade

/-- The record of a bead that a cascade writes, and its gate. -/
structure Stepped (r : Reads) (c : Cascade) (id : String) (cur rec : LifecycleRecord) : Prop where
  read : recordOf LifecycleRecord r.view (Keys.lifecycle id) = some cur
  row : rowOf LifecycleRecord (c.planned r.view) (Keys.lifecycle id) = some rec
  working : rec.row.state = .working → cur.row.state = .working
  /-- The gate was read as the record is planned, or is planned as it is. -/
  gate : (¬ c.Writes (Keys.gate id) ∧ recordOf Gate r.view (Keys.gate id) = some rec.gate) ∨
    c.Writes (Keys.gate id) ∧ Sets r.view c (Keys.gate id)
      (((r.view (Keys.gate id)).map (·.value.metadata)).getD
        { ownerReferences := [Keys.lifecycle id] }) rec.gate

/-- The records as a cascade leaves them. -/
structure BeadsOf (r : Reads) (c : Cascade) : Prop where
  sound : Sound r.view c
  unwritten : ∀ id, ¬ c.Writes (Keys.lifecycle id) → ¬ c.Writes (Keys.gate id)
  written : ∀ id, c.Writes (Keys.lifecycle id) → ∃ cur rec, Stepped r c id cur rec

section Beads

variable {r : Reads} {c c' : Cascade} {id actor : String} {at_ : Int} {keys : List String}

theorem beadsOf_empty : BeadsOf r {} :=
  ⟨sound_empty _, fun _ _ ↦ not_writes_empty, fun _ h ↦ absurd h not_writes_empty⟩

/-- What is of neither of a bead's keys leaves its record. -/
theorem Stepped.frame {cur rec : LifecycleRecord} (h : Stepped r c id cur rec)
    (hf : Frame r.view keys c c') (hl : Keys.lifecycle id ∉ keys) (hg : Keys.gate id ∉ keys) :
    Stepped r c' id cur rec where
  read := h.read
  row := by
    rw [rowOf, hf.planned _ hl]
    exact h.row
  working := h.working
  gate := by
    obtain ⟨hw, hread⟩ | ⟨hw, hs⟩ := h.gate
    · exact .inl ⟨fun hw' ↦ hw (hf.writes _ hg hw'), hread⟩
    · refine .inr ⟨hf.kept _ hw, ?_⟩
      rwa [Sets, hf.planned _ hg]

theorem BeadsOf.frame (h : BeadsOf r c) (hf : Frame r.view keys c c')
    (hk : ∀ k ∈ keys, ¬ OfBeads k) : BeadsOf r c' where
  sound := hf.sound
  unwritten id hw hg := by
    refine h.unwritten id (fun hw' ↦ hw (hf.kept _ hw')) (hf.writes _ (fun hmem ↦ ?_) hg)
    exact hk _ hmem ofBeads_gate
  written id hw := by
    have hl : Keys.lifecycle id ∉ keys := fun hmem ↦ hk _ hmem ofBeads_lifecycle
    obtain ⟨cur, rec, hs⟩ := h.written id (hf.writes _ hl hw)
    exact ⟨cur, rec, hs.frame hf hl fun hmem ↦ hk _ hmem ofBeads_gate⟩

theorem BeadsOf.idle (h : BeadsOf r c) (hf : Frame r.view [] c c') : BeadsOf r c' :=
  h.frame hf (by simp)

theorem BeadsOf.looks (h : BeadsOf r c) (hl : Looks r.view c c') : BeadsOf r c' :=
  h.idle hl.frame

/-- Put at a gate, on what a cascade has planned of the bead. -/
theorem BeadsOf.setsGate (h : BeadsOf r c) {g : Gate} {c₁ c₂ : Cascade}
    (hg : c₁.planned r.view (Keys.gate id) = c.planned r.view (Keys.gate id))
    (hp : Put r.view c₁ c₂ (Keys.gate id) g [Keys.lifecycle id]) :
    Sets r.view c₂ (Keys.gate id) (((r.view (Keys.gate id)).map (·.value.metadata)).getD
      { ownerReferences := [Keys.lifecycle id] }) g := by
  have hsets := hp.sets
  rw [hg] at hsets
  by_cases hw : c.Writes (Keys.gate id)
  · obtain ⟨cur, rec, hs⟩ := h.written id (by
      by_contra hno
      exact h.unwritten id hno hw)
    obtain ⟨hno, -⟩ | ⟨-, o, ho, hm, -⟩ := hs.gate
    · exact absurd hw hno
    · rw [ho, Option.map_some, Option.getD_some, hm] at hsets
      exact hsets
  · rw [h.sound.unwritten hw, Option.map_map] at hsets
    exact hsets

/-- **A bead's step writes its record, and its gate where it moves it.** -/
theorem beadStep_beads {kind : BeadEventKind} (h : BeadsOf r c) (hk : entersWorking kind = false) :
    Ends (beadStep r id kind actor at_) c fun _ c' ↦ BeadsOf r c' := by
  rw [beadStep]
  refine ends_bind ((get_looks h.sound).imp fun a c₁ hget ↦ ?_)
  obtain ⟨hl₁, ha, -⟩ := hget
  cases a with
  | none => exact ends_pure (h.looks hl₁)
  | some cur =>
    dsimp only
    refine ends_ite (fun _ ↦ ends_pure (h.looks hl₁)) fun happlied ↦ ?_
    have happlied : (Bead.apply cur.row (beadEvent cur.row kind actor at_)).applied = true := by
      simpa using happlied
    set next := nextRecord cur (Bead.step cur.row (beadEvent cur.row kind actor at_)) at_ with hnext
    refine ends_bind ((step_frame hl₁.sound).imp fun _ c₂ hf₂ ↦
      ends_bind ((put_put hf₂.sound).imp fun _ c₃ hp₃ ↦
        ends_bind ((get_looks hp₃.frame.sound).imp fun g c₄ hget₄ ↦ ?_)))
    obtain ⟨hl₄, hg, -⟩ := hget₄
    have hb₂ : BeadsOf r c₂ := (h.looks hl₁).idle hf₂
    have hput := hp₃.of_frame hf₂
    -- The record it steps was read, or planned before.
    have hcur : ∃ cur₀, recordOf LifecycleRecord r.view (Keys.lifecycle id) = some cur₀ ∧
        (cur.row.state = .working → cur₀.row.state = .working) := by
      by_cases hw : c.Writes (Keys.lifecycle id)
      · obtain ⟨cur₀, rec₀, hs⟩ := h.written id hw
        obtain rfl : rec₀ = cur := Option.some.inj (hs.row.symm.trans ha.symm)
        exact ⟨cur₀, hs.read, hs.working⟩
      · refine ⟨cur, ?_, fun hw ↦ hw⟩
        rw [← rowOf_values, ha, rowOf, rowOf, h.sound.unwritten hw]
    obtain ⟨cur₀, hread, hworking⟩ := hcur
    have hnextWorking (hw : next.row.state = .working) : cur₀.row.state = .working :=
      hworking (working_of_step happlied hk hw)
    have hgate₃ : c₃.planned r.view (Keys.gate id) = c.planned r.view (Keys.gate id) := by
      rw [hp₃.frame.planned _ (by simpa using lifecycle_ne_gate.symm), hf₂.planned _ (by simp),
        hl₁.planned]
    have hgateWrites : c₄.Writes (Keys.gate id) ↔ c.Writes (Keys.gate id) := by
      rw [hl₄.writes, ← hl₁.writes]
      exact ⟨fun hw ↦ hf₂.writes _ (by simp) (hp₃.frame.writes _ (by simpa using lifecycle_ne_gate.symm) hw),
        fun hw ↦ hp₃.frame.kept _ (hf₂.kept _ hw)⟩
    have hrow₄ : rowOf LifecycleRecord (c₄.planned r.view) (Keys.lifecycle id) = some next := by
      rw [rowOf, hl₄.planned]
      exact hput.row
    -- The other beads are as they were.
    have hothers {c₅ : Cascade} (hf₅ : Frame r.view [Keys.gate id] c₄ c₅)
        (hthis : ∃ cur rec, Stepped r c₅ id cur rec) : BeadsOf r c₅ := by
      have hf : Frame r.view [Keys.lifecycle id, Keys.gate id] c₂ c₅ :=
        (hp₃.frame.mono (by simp)).trans (hl₄.frame.trans (hf₅.mono (by simp)))
      have hwrites : c₅.Writes (Keys.lifecycle id) :=
        hf₅.kept _ (by rw [hl₄.writes]; exact hp₃.writes)
      refine ⟨hf₅.sound, fun id' hw hg ↦ ?_, fun id' hw ↦ ?_⟩
      · have hne : id' ≠ id := by
          rintro rfl
          exact hw hwrites
        refine hb₂.unwritten id' (fun hw' ↦ hw (hf.kept _ hw')) (hf.writes _ ?_ hg)
        simp [hne, lifecycle_ne_gate.symm]
      · by_cases hne : id' = id
        · subst hne
          exact hthis
        · have hl : Keys.lifecycle id' ∉ [Keys.lifecycle id, Keys.gate id] := by
            simp [hne, lifecycle_ne_gate]
          obtain ⟨cur', rec', hs⟩ := hb₂.written id' (hf.writes _ hl hw)
          exact ⟨cur', rec', hs.frame hf hl (by simp [hne, lifecycle_ne_gate.symm])⟩
    refine ends_ite (fun _ ↦ ends_bind ((put_put hl₄.sound).imp fun _ c₅ hp₅ ↦ ends_pure ?_))
      fun hsame ↦ ends_pure ?_
    · -- The gate is moved.
      refine hothers hp₅.frame ⟨cur₀, next, hread, ?_, hnextWorking, .inr ⟨hp₅.writes, ?_⟩⟩
      · rw [rowOf, hp₅.frame.planned _ (by simpa using lifecycle_ne_gate)]
        exact hrow₄
      · exact h.setsGate (hl₄.planned ▸ hgate₃) hp₅
    · -- The gate reads as the record is planned.
      have hsame : g = some next.gate := not_not.mp hsame
      rw [hsame, rowOf, hgate₃, ← rowOf] at hg
      refine hothers (.refl hl₄.sound) ⟨cur₀, next, hread, hrow₄, hnextWorking, ?_⟩
      by_cases hw : c.Writes (Keys.gate id)
      · obtain ⟨cur', rec', hs⟩ := h.written id (by
          by_contra hno
          exact h.unwritten id hno hw)
        obtain ⟨hno, -⟩ | ⟨-, o, ho, hm, hd⟩ := hs.gate
        · exact absurd hw hno
        · refine .inr ⟨hgateWrites.mpr hw, o, ?_, hm, ?_⟩
          · rw [hl₄.planned, hgate₃, ho]
          · rw [hg, rowOf, ho]
            rfl
      · refine .inl ⟨fun hw' ↦ hw (hgateWrites.mp hw'), ?_⟩
        rw [← rowOf_values, hg, rowOf, rowOf, h.sound.unwritten hw]

/-! ## The commands -/

/-- `P` is kept by what steps a record, by what puts a delivery that `Q` holds of, and by what is of
neither; `Q` holds of the deliveries there are, and is kept by their steps. -/
structure KeepsBeads (r : Reads) (P : Cascade → Prop) (Q : String → DeliveryRow → Prop) : Prop where
  sound : ∀ {c : Cascade}, P c → Sound r.view c
  empty : P {}
  frame : ∀ {keys : List String} {c c' : Cascade}, P c → Frame r.view keys c c' →
    (∀ k ∈ keys, ¬ OfBeads k ∧ starts Keys.deliveriesPrefix k = false) → P c'
  beadStep : ∀ {id actor : String} {kind : BeadEventKind} {at_ : Int} {c : Cascade}, P c →
    entersWorking kind = false → Ends (beadStep r id kind actor at_) c fun _ c' ↦ P c'
  delivery : ∀ {id : String} {row : DeliveryRow} {c : Cascade}, P c →
    rowOf DeliveryRow (c.planned r.view) (Keys.delivery id) = some row → Q id row
  queued : ∀ {id : String} {version : Version},
    Q id { DeliveryRow.startQueue id with version := version }
  stepped : ∀ {id : String} {row : DeliveryRow} {ev : DeliveryEvent}, Q id row →
    Q id (Delivery.apply row ev).row
  putDelivery : ∀ {id : String} {row : DeliveryRow} {owners : List String} {c : Cascade}, P c →
    Q id row → Ends (Cascade.put r.view (Keys.delivery id) row owners) c fun _ c' ↦ P c'

section Commands

variable {P : Cascade → Prop} {Q : String → DeliveryRow → Prop}

theorem beads_forM {α : Type} {l : List α} {f : α → Plan Unit} (h : P c)
    (hstep : ∀ a c, P c → Ends (f a) c fun _ c' ↦ P c') :
    Ends (l.forM f) c fun _ c' ↦ P c' :=
  ends_forM (I := fun _ c' ↦ P c') h fun _ a _ _ c₁ hb ↦ hstep a c₁ hb

variable (hP : KeepsBeads r P Q)

include hP

theorem KeepsBeads.idle (h : P c) (hf : Frame r.view [] c c') : P c' := hP.frame h hf (by simp)

theorem KeepsBeads.looks (h : P c) (hl : Looks r.view c c') : P c' := hP.idle h hl.frame

/-- What is read of a delivery is as it should be. -/
theorem KeepsBeads.get (h : P c) :
    Ends (Cascade.get r.view (Keys.delivery id) : Plan (Option DeliveryRow)) c fun a c' ↦
      P c' ∧ ∀ row, a = some row → Q id row :=
  (get_looks (hP.sound h)).imp fun _ _ ⟨hl, ha, _⟩ ↦
    ⟨hP.looks h hl, fun _ hrow ↦ hP.delivery h (ha ▸ hrow)⟩

theorem deliveryStep_beads {row : DeliveryRow} {kind : DeliveryEventKind} (h : P c)
    (hq : Q id row) :
    Ends (deliveryStep r id row kind actor at_) c fun _ c' ↦ P c' := by
  refine ends_ite (fun _ ↦ ends_pure h) fun _ ↦ ?_
  refine ends_bind ((step_frame (hP.sound h)).imp fun _ c₁ hf₁ ↦ ?_)
  exact ends_bind ((hP.putDelivery (hP.idle h hf₁) (hP.stepped hq)).imp fun _ c₂ h₂ ↦ ends_pure h₂)

theorem admitted_beads {members : List (String × String)} {allowSubmitted : Bool} (h : P c) :
    Ends (admitted r members allowSubmitted) c fun ds c' ↦
      P c' ∧ ∀ p ∈ members.zip ds, ∀ row, p.2 = some row → Q p.1.1 row := by
  have hzip {done : List (String × String)} {m : String × String} {ds : List (Option DeliveryRow)}
      {a : Option DeliveryRow} (hlen : ds.length = done.length)
      (hds : ∀ p ∈ done.zip ds, ∀ row, p.2 = some row → Q p.1.1 row)
      (ha : ∀ row, a = some row → Q m.1 row) :
      ∀ p ∈ (done ++ [m]).zip (ds ++ [a]), ∀ row, p.2 = some row → Q p.1.1 row := by
    intro p hp
    rw [List.zip_append hlen.symm] at hp
    obtain hp | hp := List.mem_append.mp hp
    · exact hds p hp
    · obtain rfl : p = (m, a) := by simpa using hp
      exact ha
  refine ends_bind ((admitRecords_ends (hP.sound h)).imp fun _ c₁ ⟨hl₁, _⟩ ↦ ?_)
  have hloop := ends_foldlM (l := members) (b := []) (s := c₁)
    (f := fun ds m ↦ do
      return ds ++ [← (Cascade.get r.view (Keys.delivery m.1) : Plan (Option DeliveryRow))])
    (I := fun done ds c' ↦ P c' ∧ ds.length = done.length ∧
      ∀ p ∈ done.zip ds, ∀ row, p.2 = some row → Q p.1.1 row)
    ⟨hP.looks h hl₁, rfl, by simp⟩ fun done m rest _ ds c₂ ⟨h₂, hlen, hds⟩ ↦
      ends_bind ((hP.get h₂).imp fun a c₃ ⟨h₃, ha⟩ ↦
        ends_pure ⟨h₃, by simp [hlen], hzip hlen hds ha⟩)
  refine ends_bind (hloop.imp fun ds c₂ ⟨h₂, _, hds⟩ ↦ ?_)
  refine ends_bind ((beads_forM h₂ fun p c₃ h₃ ↦ ?_).imp fun _ c₃ h₃ ↦ ends_pure ⟨h₃, hds⟩)
  rw [admitDelivery.eq_def]
  split
  · exact ends_pure h₃
  · split
    · exact ends_pure h₃
    · exact ends_pure h₃
    · exact ends_throw
    · exact ends_throw

theorem planMember_beads {verb : String} {round : BatchRow}
    {m : (String × String) × Option DeliveryRow} (h : P c)
    (hq : ∀ row, m.2 = some row → Q m.1.1 row) :
    Ends (planMember r actor at_ verb round m) c fun _ c' ↦ P c' := by
  obtain ⟨⟨id, tip⟩, delivery⟩ := m
  refine ends_ite (fun _ ↦ ends_throw) fun _ ↦
    ends_bind ((step_frame (hP.sound h)).imp fun _ c₁ hf₁ ↦
      ends_bind ((hP.beadStep (hP.idle h hf₁) rfl).imp fun a c₂ h₂ ↦ ?_))
  cases a with
  | error e => exact ends_throw
  | ok _ =>
    have hcut {queued : DeliveryRow} {kind : DeliveryEventKind} {row : BatchRow} {c₃ : Cascade}
        {text : String} (h₃ : P c₃) (hqueued : Q id queued) :
        Ends (mustStep r id queued kind actor at_ text row) c₃ fun _ c' ↦ P c' :=
      ends_bind ((deliveryStep_beads hP h₃ hqueued).imp fun b c₄ h₄ ↦ by
        cases b with
        | none => exact ends_throw
        | some _ => exact ends_pure h₄)
    cases delivery with
    | none =>
      exact ends_bind ((note_frame (hP.sound h₂)).imp fun _ c₃ hf₃ ↦
        ends_bind (ends_pure (hcut (hP.idle h₂ hf₃) hP.queued)))
    | some d =>
      refine ends_ite (fun _ ↦ ?_) fun _ ↦ ends_bind (ends_pure (hcut h₂ (hq d rfl)))
      exact ends_bind ((step_frame (hP.sound h₂)).imp fun _ c₃ hf₃ ↦
        ends_bind (ends_pure (hcut (hP.idle h₂ hf₃) hP.queued)))

theorem planMembers_beads {members : List (String × String)}
    {deliveries : List (Option DeliveryRow)} {verb : String} {round : BatchRow} (h : P c)
    (hq : ∀ p ∈ members.zip deliveries, ∀ row, p.2 = some row → Q p.1.1 row) :
    Ends (planMembers r round members deliveries actor at_ verb) c fun _ c' ↦ P c' :=
  ends_foldlM (I := fun _ _ c' ↦ P c') h fun _ p _ hl _ _ hb ↦
    planMember_beads hP hb (hq p (hl ▸ by simp))

theorem exit_beads {kind : DeliveryEventKind} (h : P c) :
    Ends (exit r id kind actor at_) c fun _ c' ↦ P c' := by
  have hthen {beadKind : BeadEventKind} (hk : entersWorking beadKind = false) :
      Ends (exitAs r id kind beadKind actor at_) c fun _ c' ↦ P c' := by
    have hbead {c₁ : Cascade} (h₁ : P c₁) :
        Ends (do let _ ← beadStep r id beadKind actor at_) c₁ fun _ c' ↦ P c' :=
      ends_bind ((hP.beadStep h₁ hk).imp fun _ _ h₂ ↦ ends_pure h₂)
    refine ends_bind ((hP.get h).imp fun a c₁ hget ↦ ?_)
    obtain ⟨h₁, hq⟩ := hget
    cases a with
    | none => exact hbead h₁
    | some d =>
      exact ends_bind ((deliveryStep_beads hP h₁ (hq d rfl)).imp fun _ c₂ h₂ ↦ hbead h₂)
  cases kind with
  | returned reason => exact hthen rfl
  | requeued tip => exact hthen rfl
  | _ => exact ends_bind ends_throw

theorem withdraw_beads {withdrawn : List (String × String)} (h : P c) :
    Ends (withdraw r withdrawn actor at_) c fun _ c' ↦ P c' :=
  beads_forM h fun _ _ hb ↦ ends_bind ((exit_beads hP hb).imp fun _ _ hb' ↦
    (namePrerequisite_frame (hP.sound hb')).imp fun _ _ hf ↦ hP.idle hb' hf)

theorem landMember_beads {m : Member} {round sha : String} (h : P c) :
    Ends (landMember r round sha actor at_ m) c fun _ c' ↦ P c' := by
  refine ends_bind ((hP.get h).imp fun a c₁ ⟨h₁, hq⟩ ↦ ?_)
  cases a with
  | none => exact ends_pure h₁
  | some d =>
    exact ends_ite (fun _ ↦ ends_pure h₁) fun _ ↦
      ends_bind ((deliveryStep_beads hP h₁ (hq d rfl)).imp fun _ c₂ h₂ ↦
        ends_bind ((hP.beadStep h₂ rfl).imp fun _ c₃ h₃ ↦ ends_pure h₃))

/-- What is put at a round or at its index leaves the records and the deliveries. -/
theorem put_beads {T : Type} [Stored T] {key : String} {v : T} {owners : List String} (h : P c)
    (hk : ¬ OfBeads key ∧ starts Keys.deliveriesPrefix key = false) :
    Ends (Cascade.put r.view key v owners) c fun _ c' ↦ P c' :=
  (put_put (hP.sound h)).imp fun _ _ hp ↦ hP.frame h hp.frame (by simpa using hk)

theorem batchStep_beads {key : String} {stored : BatchRecord} {ev : BatchEvent} (h : P c)
    (hk : starts Keys.batchesPrefix key) :
    Ends (batchStep r key stored ev at_) c fun _ c' ↦ P c' :=
  (batchStep_ends (hP.sound h)).imp fun _ _ ⟨_, _, _, _, hp⟩ ↦
    hP.frame h hp.frame (by simpa using OfRounds.spares (.inl hk))

/-- A round that is looked up is under a key of the rounds. -/
theorem round_beads : Ends (round r id) {} fun a c ↦ P c ∧
    ∀ key rec, a = some (key, rec) → starts Keys.batchesPrefix key :=
  round_looks.imp fun _ _ ⟨hl, hfound⟩ ↦ ⟨hP.looks hP.empty hl, fun key rec ha ↦ by
    obtain ⟨⟨-, -, ix, -, rfl⟩, -⟩ := (hfound key rec ha).1
    exact Keys.starts_batch _ _⟩

omit hP in
theorem batch_beads : Ends (batch r id) {} fun a c ↦ c = {} ∧
    ∀ key rec, a = some (key, rec) → starts Keys.batchesPrefix key :=
  batch_ends.imp fun _ _ ⟨hc, hl⟩ ↦ ⟨hc, fun key rec ha ↦ by
    obtain ⟨-, -, ix, -, rfl⟩ := (hl key rec ha).index
    exact Keys.starts_batch _ _⟩

theorem putRound_beads {repo id' : String} {rec : BatchRecord} (h : P c) :
    Ends (putRound r (Keys.batch repo id') rec) c fun _ c' ↦ P c' :=
  ends_bind ((put_beads hP h ofRounds_batch.spares).imp fun _ _ hb ↦
    put_beads hP hb ofRounds_batchIndex.spares)

/-- **What steps of records and puts of deliveries keep, every command keeps.** -/
theorem command_beads (command : Command) :
    Ends (command.plan r) {} fun _ c ↦ P c := by
  cases command with
  | cut cut =>
    refine ends_bind ((overCap_looks (sound_empty r.view)).imp fun _ c₁ hl₁ ↦
      ends_bind ((newRound_ends hl₁.sound).imp fun a c₂ hnewRound ↦ ?_))
    obtain ⟨hl₂, hnew⟩ := hnewRound
    cases a with
    | none => exact ends_throw
    | some key =>
      obtain ⟨rfl, -⟩ := hnew key rfl
      have h₂ := hP.looks hP.empty (hl₁.trans hl₂)
      refine ends_bind ((admitted_beads hP h₂).imp fun ds c₃ hadm ↦ ?_)
      obtain ⟨h₃, hq⟩ := hadm
      exact ends_bind ((planMembers_beads hP h₃ hq).imp fun row c₄ h₄ ↦ putRound_beads hP h₄)
  | stage cut =>
    refine ends_bind ((overCap_looks (sound_empty r.view)).imp fun _ c₁ hl₁ ↦
      ends_bind ((newRound_ends hl₁.sound).imp fun a c₂ hnewRound ↦ ?_))
    obtain ⟨hl₂, hnew⟩ := hnewRound
    cases a with
    | none => exact ends_throw
    | some key =>
      obtain ⟨rfl, -⟩ := hnew key rfl
      exact ends_bind ((admitRecords_ends hl₂.sound).imp fun _ c₃ hadm ↦
        putRound_beads hP (hP.looks hP.empty ((hl₁.trans hl₂).trans hadm.1)))
  | stack =>
    refine ends_bind ((round_beads hP).imp fun a c₁ hround ↦ ?_)
    obtain ⟨h₁, hkey⟩ := hround
    obtain _ | ⟨key, rec⟩ := a
    · exact ends_throw
    refine ends_ite (fun _ ↦ ends_throw) fun _ ↦ ?_
    split
    · exact ends_throw
    refine ends_bind ((overCap_looks (hP.sound h₁)).imp fun _ c₂ hl₂ ↦
      ends_bind ((admitted_beads hP (hP.looks h₁ hl₂)).imp fun ds c₃ hadm ↦ ?_))
    obtain ⟨h₃, hq⟩ := hadm
    exact ends_bind ((planMembers_beads hP h₃ hq).imp fun row c₄ h₄ ↦
      put_beads hP h₄ (OfRounds.spares (.inl (hkey key rec rfl))))
  | promote =>
    refine ends_bind ((round_beads hP).imp fun a c₁ hround ↦ ?_)
    obtain ⟨h₁, hkey⟩ := hround
    obtain _ | ⟨key, rec⟩ := a
    · exact ends_throw
    refine ends_ite (fun _ ↦ ends_throw) fun _ ↦
      ends_bind ((admitted_beads hP h₁).imp fun ds c₂ hadm ↦ ?_)
    obtain ⟨h₂, hq⟩ := hadm
    refine ends_bind ((batchStep_beads hP h₂ (hkey key rec rfl)).imp fun next c₃ h₃ ↦ ?_)
    exact ends_bind ((planMembers_beads hP h₃ hq).imp fun row c₄ h₄ ↦
      put_beads hP h₄ (OfRounds.spares (.inl (hkey key rec rfl))))
  | settle =>
    refine ends_bind ((round_beads hP).imp fun a c₁ hround ↦ ?_)
    obtain ⟨h₁, hkey⟩ := hround
    obtain _ | ⟨key, rec⟩ := a
    · exact ends_throw
    refine ends_bind ((batchStep_beads hP h₁ (hkey key rec rfl)).imp fun _ c₂ h₂ ↦
      ends_bind ((stackedDependents_ends (hP.sound h₂)).imp fun deps c₃ hdeps ↦ ?_))
    obtain ⟨hl₃, -⟩ := hdeps
    refine ends_bind ((beads_forM (hP.looks h₂ hl₃) fun e c hb ↦ exit_beads hP hb).imp fun _ c₄ h₄ ↦
      ends_bind ((withdraw_beads hP h₄).imp fun _ c₅ h₅ ↦ beads_forM h₅ fun m c hb ↦ ?_))
    cases rec.members.find? (·.beadId = m) with
    | none => exact ends_pure hb
    | some member => exact exit_beads hP hb
  | abandon =>
    refine ends_bind ((round_beads hP).imp fun a c₁ hround ↦ ?_)
    obtain ⟨h₁, hkey⟩ := hround
    obtain _ | ⟨key, rec⟩ := a
    · exact ends_throw
    exact ends_bind ((batchStep_beads hP h₁ (hkey key rec rfl)).imp fun _ c₂ h₂ ↦
      beads_forM h₂ fun m c hb ↦ exit_beads hP hb)
  | eject =>
    refine ends_bind ((round_beads hP).imp fun a c₁ hround ↦ ?_)
    obtain ⟨h₁, hkey⟩ := hround
    obtain _ | ⟨key, rec⟩ := a
    · exact ends_throw
    dsimp only
    split
    · exact ends_throw
    refine ends_bind ((batchStep_beads hP h₁ (hkey key rec rfl)).imp fun _ c₂ h₂ ↦
      ends_bind ((stackedDependents_ends (hP.sound h₂)).imp fun deps c₃ hdeps ↦ ?_))
    obtain ⟨hl₃, -⟩ := hdeps
    exact ends_bind ((exit_beads hP (hP.looks h₂ hl₃)).imp fun _ c₄ h₄ ↦ withdraw_beads hP h₄)
  | land id ev at_ =>
    rw [Command.plan, planLand]
    split
    · refine ends_bind (batch_beads.imp fun a c₁ hbatch ↦ ?_)
      obtain ⟨hc, hkey⟩ := hbatch
      subst hc
      obtain _ | ⟨key, rec⟩ := a
      · exact ends_throw
      exact ends_bind ((batchStep_beads hP hP.empty (hkey key rec rfl)).imp fun _ c₂ h₂ ↦
        beads_forM h₂ fun m c hb ↦ landMember_beads hP hb)
    · exact ends_throw
  | batchEvent =>
    refine ends_bind (batch_beads.imp fun a c₁ hbatch ↦ ?_)
    obtain ⟨hc, hkey⟩ := hbatch
    subst hc
    obtain _ | ⟨key, rec⟩ := a
    · exact ends_throw
    refine ends_bind ((batchStep_beads hP hP.empty (hkey key rec rfl)).imp fun _ c₂ h₂ ↦ ?_)
    split
    · exact put_beads hP h₂ ⟨not_ofBeads_mending, KeyPrefix.not_starts (Keys.starts_mending _)
        (by decide) (by decide)⟩
    · exact ends_pure h₂
  | deliveryEvent =>
    refine ends_bind ((hP.get hP.empty).imp fun a c₁ hget ↦ ?_)
    obtain ⟨h₁, hq⟩ := hget
    cases a with
    | none => exact ends_throw
    | some cur =>
      refine ends_ite (fun _ ↦ ends_throw) fun _ ↦ ends_bind ((step_frame (hP.sound h₁)).imp
        fun _ c₂ hf₂ ↦ hP.putDelivery (hP.idle h₁ hf₂) (hP.stepped (hq cur rfl)))

end Commands

/-- What the records are as a cascade leaves them, whatever the deliveries. -/
theorem beadsOf_keeps : KeepsBeads r (BeadsOf r) fun _ _ ↦ True where
  sound h := h.sound
  empty := beadsOf_empty
  frame h hf hk := h.frame hf fun k hmem ↦ (hk k hmem).1
  beadStep h hk := beadStep_beads h hk
  delivery _ _ := trivial
  queued := trivial
  stepped _ := trivial
  putDelivery h _ := (put_put h.sound).imp fun _ _ hp ↦
    h.frame hp.frame (by simp [not_ofBeads_delivery])

/-- The queue's fields leave the records. -/
theorem BeadsOf.fielded (h : BeadsOf r c) (hf : Fielded r.view c c') : BeadsOf r c' where
  sound := hf.sound
  unwritten id := by
    rw [hf.writes]
    exact h.unwritten id
  written id hw := by
    rw [hf.writes] at hw
    obtain ⟨cur, rec, hs⟩ := h.written id hw
    refine ⟨cur, rec, hs.read, ?_, hs.working, ?_⟩
    · rw [hf.row (KeyPrefix.not_starts (Keys.starts_lifecycle id) (by decide) (by decide))]
      exact hs.row
    · refine hs.gate.imp (fun ⟨hno, hread⟩ ↦ ⟨by rwa [hf.writes], hread⟩) fun ⟨hw, o, ho, hm, hd⟩ ↦
        ⟨by rwa [hf.writes], o, ?_, hm, hd⟩
      obtain heq | ⟨m, rec', fields, hkey, -⟩ := hf.planned (Keys.gate id)
      · rw [heq, ho]
      · exact absurd (hkey ▸ ofBeads_gate) ofRounds_batch.not_ofBeads

/-- **What an issued command's cascade does to the records.** -/
theorem Issue.beads {i : Issue} {c : Cascade} (h : i.cascade = .ok c) : BeadsOf i.reads c := by
  obtain ⟨c₀, hb, rfl | hf⟩ := Issue.cascade_ends h (command_beads beadsOf_keeps i.command)
    fun _ hb ↦ hb.sound
  · exact hb
  · exact hb.fielded hf

end Beads

end Spira.Control
