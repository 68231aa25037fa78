import Spira.Control.Runs

/-!
# Landing on both ledgers

A landing fast-forwards its round and gives every member still in it `Delivered`, on its delivery
and on its record, in one transaction.  The delivery of a member that is still BATCHED in the
round always takes it; the record takes it IN_DELIVERY, WORKING and in REWORK, and where it does
not the step is left out.  So the ledgers agree after a landing exactly when the record of each
member still in the round takes the event (`landsBoth_iff`).
-/

set_option autoImplicit false

namespace Spira.Control

open Spira.Bead Spira.Batch Spira.Delivery Store Store.Contract Stopping
open KeyPrefix (starts)

/-! ## The event on each machine -/

/-- A record takes `Delivered` in the states that a delivery can still be taken from. -/
theorem delivered_applied_iff {row : BeadRow} {mergeSha proof actor : String} {at_ : Int} :
    (Bead.apply row (beadEvent row (.delivered mergeSha proof) actor at_)).applied = true ↔
      row.state.notesWithdrawal := by
  constructor
  · intro h
    obtain ⟨-, mid, hmove, -⟩ := Bead.apply_move h
    change Bead.Move row actor (.delivered mergeSha proof) mid at hmove
    cases hmove with
    | unclaim hk => simp at hk
    | delivered hs => exact hs
  · intro hs
    rw [Bead.apply_of_move ⟨rfl, rfl, by simp [beadEvent, BeadEventKind.submittedTip]⟩ (.delivered hs)]
    rfl

/-- It is LANDED after. -/
theorem delivered_step {row : BeadRow} {mergeSha proof actor : String} {at_ : Int}
    (hs : row.state.notesWithdrawal) :
    (Bead.step row (beadEvent row (.delivered mergeSha proof) actor at_)).state = .landed := by
  rw [Bead.step, Bead.apply_of_move
    ⟨rfl, rfl, by simp [beadEvent, BeadEventKind.submittedTip]⟩ (.delivered hs)]
  rfl

/-- A delivery that is BATCHED takes `Delivered`. -/
theorem delivered_batched {row : DeliveryRow} (mergeSha proof actor : String)
    (hs : row.state = .batched) :
    (Delivery.apply row (deliveryEvent row (.delivered mergeSha proof) actor)).applied = true ∧
      (Delivery.step row (deliveryEvent row (.delivered mergeSha proof) actor)).state = .exited ∧
      (Delivery.step row (deliveryEvent row (.delivered mergeSha proof) actor)).exit =
        some .delivered := by
  simp [Delivery.step, Delivery.apply, deliveryEvent, hs, exitTransition, DeliveryRow.exits]

theorem stillInBatch_iff {row : DeliveryRow} {batchId : String} :
    stillInBatch row batchId = true ↔ row.state = .batched ∧ row.batchId = some batchId := by
  simp [stillInBatch]

/-! ## What a landing plans -/

/-- The delivery of `id` is still in the round. -/
def StillIn (view : View) (round id : String) : Prop :=
  ∃ d, recordOf DeliveryRow view (Keys.delivery id) = some d ∧ stillInBatch d round = true

/-- The record of `id` takes `Delivered`. -/
def TakesDelivered (view : View) (id : String) : Prop :=
  ∃ rec, recordOf LifecycleRecord view (Keys.lifecycle id) = some rec ∧ rec.row.state.notesWithdrawal

/-- The delivery of `id` exits as delivered, and its record is landed where it takes that. -/
structure Delivers (view : View) (c : Cascade) (id : String) : Prop where
  delivery : c.Writes (Keys.delivery id) ∧ ∃ d, rowOf DeliveryRow (c.planned view) (Keys.delivery id) =
    some d ∧ d.state = .exited ∧ d.exit = some .delivered
  taken : TakesDelivered view id → c.Writes (Keys.lifecycle id) ∧
    ∃ rec, rowOf LifecycleRecord (c.planned view) (Keys.lifecycle id) = some rec ∧
      rec.row.state = .landed
  left : ¬ TakesDelivered view id → ¬ c.Writes (Keys.lifecycle id)

/-- Neither ledger of `id` is written. -/
def Spared (c : Cascade) (id : String) : Prop :=
  ¬ c.Writes (Keys.delivery id) ∧ ¬ c.Writes (Keys.lifecycle id)

/-- What the landing of a round has planned, of the members gone through. -/
structure Delivering (view : View) (round : String) (done : List Member) (c : Cascade) : Prop where
  sound : Cascade.Sound view c
  delivers : ∀ id ∈ done.map (·.beadId), StillIn view round id → Delivers view c id
  spared : ∀ id, ¬ (id ∈ done.map (·.beadId) ∧ StillIn view round id) → Spared c id

section Plan

variable {r : Reads} {c : Cascade} {round id : String} {done : List Member}

open Cascade

/-- A key that is not written is planned as it was read. -/
theorem Cascade.Sound.row {view : View} (h : Cascade.Sound view c) {T : Type} [Stored T]
    {key : String} (hw : ¬ c.Writes key) : rowOf T (c.planned view) key = recordOf T view key := by
  rw [rowOf, h.unwritten hw, recordOf]
  cases view key <;> rfl

theorem lifecycle_ne_delivery {id id' : String} : Keys.lifecycle id ≠ Keys.delivery id' :=
  Keys.ne_of_starts (Keys.starts_lifecycle id) (Keys.starts_delivery id') (by decide) (by decide)

theorem gate_ne_delivery {id id' : String} : Keys.gate id ≠ Keys.delivery id' :=
  Keys.ne_of_starts (Keys.starts_gate id) (Keys.starts_delivery id') (by decide) (by decide)

theorem lifecycle_ne_gate {id id' : String} : Keys.lifecycle id ≠ Keys.gate id' :=
  Keys.ne_of_starts (Keys.starts_lifecycle id) (Keys.starts_gate id') (by decide) (by decide)

/-- The keys a member's landing writes. -/
def memberKeys (id : String) : List String := [Keys.delivery id, Keys.lifecycle id, Keys.gate id]

theorem not_mem_memberKeys {id id' : String} (h : id ≠ id') :
    Keys.delivery id ∉ memberKeys id' ∧ Keys.lifecycle id ∉ memberKeys id' := by
  simp [memberKeys, h, lifecycle_ne_delivery, lifecycle_ne_gate, lifecycle_ne_delivery.symm,
    gate_ne_delivery.symm]

/-- What is planned for one bead leaves the others as they were. -/
theorem Delivers.frame {c' : Cascade} {id' : String} (h : Delivers r.view c id)
    (hf : Frame r.view (memberKeys id') c c') (hne : id ≠ id') : Delivers r.view c' id := by
  obtain ⟨hd, hl⟩ := not_mem_memberKeys hne
  refine ⟨⟨hf.kept _ h.delivery.1, ?_⟩, fun ht ↦ ⟨hf.kept _ (h.taken ht).1, ?_⟩,
    fun ht hw ↦ h.left ht (hf.writes _ hl hw)⟩
  · rw [rowOf, hf.planned _ hd]
    exact h.delivery.2
  · rw [rowOf, hf.planned _ hl]
    exact (h.taken ht).2

theorem Spared.frame {c' : Cascade} {id' : String} (h : Spared c id)
    (hf : Frame r.view (memberKeys id') c c') (hne : id ≠ id') : Spared c' id := by
  obtain ⟨hd, hl⟩ := not_mem_memberKeys hne
  exact ⟨fun hw ↦ h.1 (hf.writes _ hd hw), fun hw ↦ h.2 (hf.writes _ hl hw)⟩

/-- A member that is not in the round, or that was gone through before, is left as it is. -/
theorem Delivering.skip (h : Delivering r.view round done c) {c' : Cascade} {m : Member}
    (hs : Sound r.view c') (hp : c'.planned r.view = c.planned r.view) (hw : c'.Writes = c.Writes)
    (hm : StillIn r.view round m.beadId → m.beadId ∈ done.map (·.beadId)) :
    Delivering r.view round (done ++ [m]) c' := by
  have hmem {id : String} : id ∈ (done ++ [m]).map (·.beadId) ∧ StillIn r.view round id ↔
      id ∈ done.map (·.beadId) ∧ StillIn r.view round id := by
    simp only [List.map_append, List.map_cons, List.map_nil, List.mem_append, List.mem_singleton]
    refine ⟨fun ⟨hor, hstill⟩ ↦ ⟨?_, hstill⟩, fun ⟨hin, hstill⟩ ↦ ⟨.inl hin, hstill⟩⟩
    obtain hin | rfl := hor
    · exact hin
    · exact hm hstill
  refine ⟨hs, fun id hid hstill ↦ ?_, fun id hno ↦ ?_⟩
  · have hd := h.delivers id (hmem.mp ⟨hid, hstill⟩).1 hstill
    exact ⟨by rw [hp, hw]; exact hd.delivery, by rw [hp, hw]; exact hd.taken,
      by rw [hw]; exact hd.left⟩
  · rw [Spared, hw]
    exact h.spared id (mt hmem.mpr hno)

/-- **One member of the round is landed.** -/
theorem landMember_ends {m : Member} {sha actor : String} {at_ : Int}
    (h : Delivering r.view round done c) :
    Ends (landMember r round sha actor at_ m) c
      fun _ c' ↦ Delivering r.view round (done ++ [m]) c' := by
  -- A member that was not gone through is planned as it was read.
  have hread (hno : ¬(m.beadId ∈ done.map (·.beadId) ∧ StillIn r.view round m.beadId)) :
      rowOf DeliveryRow (c.planned r.view) (Keys.delivery m.beadId) =
        recordOf DeliveryRow r.view (Keys.delivery m.beadId) :=
    h.sound.row (h.spared _ hno).1
  refine ends_bind ((get_frame h.sound).imp fun a c₁ hget ↦ ?_)
  obtain ⟨hf₁, hp₁, hw₁, ha, -⟩ := hget
  have hskip (hno : ∀ d, a = some d → stillInBatch d round = false) :
      Delivering r.view round (done ++ [m]) c₁ := by
    refine h.skip hf₁.sound hp₁ hw₁ ?_
    rintro ⟨d, hd, hstill⟩
    by_contra hnot
    rw [← hread (fun hin ↦ hnot hin.1), ← ha] at hd
    rw [hno d hd] at hstill
    cases hstill
  cases a with
  | none => exact ends_pure (hskip fun d hd ↦ by cases hd)
  | some d =>
    dsimp only
    refine ends_ite (fun hno ↦ ends_pure (hskip fun d' hd ↦ ?_)) fun hyes ↦ ?_
    · rw [← Option.some.inj hd]
      simpa using hno
    have hstill : stillInBatch d round = true := by simpa using hyes
    have hbatched := (stillInBatch_iff.mp hstill).1
    have hnew : ¬ (m.beadId ∈ done.map (·.beadId) ∧ StillIn r.view round m.beadId) := by
      rintro ⟨hin, hst⟩
      obtain ⟨-, d', hd', hex, -⟩ := (h.delivers _ hin hst).delivery
      rw [← ha] at hd'
      rw [← Option.some.inj hd', hbatched] at hex
      cases hex
    have hview : recordOf DeliveryRow r.view (Keys.delivery m.beadId) = some d := by
      rw [← hread hnew, ← ha]
    have hin : StillIn r.view round m.beadId := ⟨d, hview, hstill⟩
    obtain ⟨happlied, hexited, hdelivered⟩ :=
      delivered_batched sha ("queue-fast-forward:" ++ m.tip) actor hbatched
    refine ends_bind ((deliveryStep_ends hf₁.sound).imp fun _ c₂ hstep ↦ ?_)
    obtain ⟨hno, -⟩ | ⟨-, -, hput⟩ := hstep
    · rw [happlied] at hno
      cases hno
    have hfd : Frame r.view (memberKeys m.beadId) c c₂ :=
      hf₁.of_nil.trans (hput.frame.mono (by simp [memberKeys]))
    have hlife₂ : rowOf LifecycleRecord (c₂.planned r.view) (Keys.lifecycle m.beadId) =
        recordOf LifecycleRecord r.view (Keys.lifecycle m.beadId) := by
      rw [rowOf, hput.frame.planned _ (by simp [lifecycle_ne_delivery]), hp₁, ← rowOf]
      exact h.sound.row (h.spared _ hnew).2
    have hnolife₂ : ¬ c₂.Writes (Keys.lifecycle m.beadId) := fun hw ↦ by
      have hw₁' := hput.frame.writes _ (by simp [lifecycle_ne_delivery]) hw
      rw [hw₁] at hw₁'
      exact (h.spared _ hnew).2 hw₁'
    -- Whatever the record's step does, the others stay as they are.
    have hdone {c₃ : Cascade} (hf₃ : Frame r.view [Keys.lifecycle m.beadId, Keys.gate m.beadId] c₂ c₃)
        (htaken : TakesDelivered r.view m.beadId → c₃.Writes (Keys.lifecycle m.beadId) ∧
          ∃ rec, rowOf LifecycleRecord (c₃.planned r.view) (Keys.lifecycle m.beadId) = some rec ∧
            rec.row.state = .landed)
        (hleft : ¬ TakesDelivered r.view m.beadId → ¬ c₃.Writes (Keys.lifecycle m.beadId)) :
        Delivering r.view round (done ++ [m]) c₃ := by
      have hf : Frame r.view (memberKeys m.beadId) c c₃ :=
        hfd.trans (hf₃.mono (by simp [memberKeys]))
      have hdel : Keys.delivery m.beadId ∉ [Keys.lifecycle m.beadId, Keys.gate m.beadId] := by
        simp [lifecycle_ne_delivery.symm, gate_ne_delivery.symm]
      have hthis : Delivers r.view c₃ m.beadId := by
        refine ⟨⟨hf₃.kept _ hput.writes, _, ?_, hexited, hdelivered⟩, htaken, hleft⟩
        rw [rowOf, hf₃.planned _ hdel]
        exact hput.row
      refine ⟨hf₃.sound, fun id hid hst ↦ ?_, fun id hno ↦ ?_⟩
      · by_cases hid' : id = m.beadId
        · rw [hid']
          exact hthis
        · have hold : id ∈ done.map (·.beadId) := by simpa [hid'] using hid
          exact (h.delivers id hold hst).frame hf hid'
      · have hid' : id ≠ m.beadId := by
          rintro rfl
          exact hno ⟨by simp, hin⟩
        refine (h.spared id ?_).frame hf hid'
        rintro ⟨hold, hst⟩
        refine hno ⟨?_, hst⟩
        rw [List.map_append]
        exact List.mem_append_left _ hold
    refine ends_bind ((beadStep_ends hput.frame.sound).imp fun _ c₃ hbead ↦ ends_pure ?_)
    obtain ⟨-, hf₃, hrefused⟩ | ⟨-, rec, hrec, happ, hf₃, hw₃, hrow₃⟩ := hbead
    · refine hdone hf₃.of_nil ?_ fun _ hw ↦ hnolife₂ (hf₃.writes _ (by simp) hw)
      rintro ⟨rec, hrec, hs⟩
      have hno := hrefused rec (hlife₂.trans hrec)
      rw [delivered_applied_iff.mpr hs] at hno
      cases hno
    · have hs := delivered_applied_iff.mp happ
      rw [hlife₂] at hrec
      exact hdone hf₃ (fun _ ↦ ⟨hw₃, _, hrow₃, delivered_step hs⟩) fun hno ↦ absurd ⟨rec, hrec, hs⟩ hno

/-- A landing plans the members of its round as it was looked up, one after the other. -/
theorem planLand_ends {id sha : String} {ev : BatchEvent} {at_ : Int}
    (hev : ev.kind = .fastForward sha) :
    Ends (planLand r id ev at_) {} fun _ c ↦
      ∃ key rec, Looked r id key rec ∧ Delivering r.view id rec.members c := by
  rw [planLand, hev]
  refine ends_bind (batch_ends.imp fun a c₀ ⟨hc, hl⟩ ↦ ?_)
  subst hc
  obtain _ | ⟨key, rec⟩ := a
  · exact ends_throw
  have hlooked := hl key rec rfl
  obtain ⟨ix, hkey⟩ : ∃ ix : BatchIndex, key = Keys.batch ix.repo id := by
    obtain ⟨i, -, ix, -, hkey⟩ := hlooked.index
    exact ⟨ix, hkey⟩
  refine ends_bind ((batchStep_ends (sound_empty r.view)).imp fun _ c₁ ⟨_, _, _, _, hput⟩ ↦ ?_)
  have hstart : Delivering r.view id [] c₁ := by
    refine ⟨hput.frame.sound, by simp, fun b _ ↦ ⟨fun hw ↦ ?_, fun hw ↦ ?_⟩⟩
    · refine not_writes_empty (hput.frame.writes _ ?_ hw)
      rw [List.mem_singleton, hkey]
      exact Keys.ne_of_starts (Keys.starts_delivery b) (Keys.starts_batch _ _) (by decide) (by decide)
    · refine not_writes_empty (hput.frame.writes _ ?_ hw)
      rw [List.mem_singleton, hkey]
      exact Keys.ne_of_starts (Keys.starts_lifecycle b) (Keys.starts_batch _ _) (by decide) (by decide)
  exact (ends_forM (I := fun done c ↦ Delivering r.view id done c) hstart
    fun done m rest _ c h ↦ landMember_ends h).imp fun _ c h ↦ ⟨key, rec, hlooked, h⟩

end Plan

/-- The queue's fields are of the round alone. -/
theorem Delivering.fielded {view : View} {c c' : Cascade} {round : String} {done : List Member}
    (h : Delivering view round done c) (hf : Cascade.Fielded view c c') :
    Delivering view round done c' := by
  have hdelivery (id : String) : rowOf DeliveryRow (c'.planned view) (Keys.delivery id) =
      rowOf DeliveryRow (c.planned view) (Keys.delivery id) :=
    hf.row (KeyPrefix.not_starts (Keys.starts_delivery id) (by decide) (by decide))
  have hlifecycle (id : String) : rowOf LifecycleRecord (c'.planned view) (Keys.lifecycle id) =
      rowOf LifecycleRecord (c.planned view) (Keys.lifecycle id) :=
    hf.row (KeyPrefix.not_starts (Keys.starts_lifecycle id) (by decide) (by decide))
  refine ⟨hf.sound, fun id hid hs ↦ ?_, fun id hno ↦ ?_⟩
  · have hd := h.delivers id hid hs
    exact ⟨by rw [hf.writes, hdelivery]; exact hd.delivery,
      by rw [hf.writes, hlifecycle]; exact hd.taken, by rw [hf.writes]; exact hd.left⟩
  · rw [Spared, hf.writes]
    exact h.spared id hno

/-! ## Landings of a run -/

/-- The landing exits the delivery of `id` as delivered. -/
def ExitsDelivered (snap after : View) (id : String) : Prop :=
  recordOf DeliveryRow after (Keys.delivery id) ≠ recordOf DeliveryRow snap (Keys.delivery id) ∧
    ∃ d, recordOf DeliveryRow after (Keys.delivery id) = some d ∧ d.state = .exited ∧
      d.exit = some .delivered

/-- The ledgers of `id` agree from one revision to the next. -/
structure LandsBoth (snap after : View) (id : String) : Prop where
  /-- A delivery that exits as delivered has its record moved to LANDED. -/
  landed : ExitsDelivered snap after id →
    recordOf LifecycleRecord after (Keys.lifecycle id) ≠
        recordOf LifecycleRecord snap (Keys.lifecycle id) ∧
      ∃ rec, recordOf LifecycleRecord after (Keys.lifecycle id) = some rec ∧ rec.row.state = .landed
  /-- A record that cannot take the event has its delivery kept as it was. -/
  kept : ¬ TakesDelivered snap id →
    recordOf DeliveryRow after (Keys.delivery id) = recordOf DeliveryRow snap (Keys.delivery id)

section Run

variable {cfg : Config Value} {fuel : ℕ} {turns : List (Turn Env ℕ (Call Value))}
  {k : Committed Value} {i : Issue} {c : Cascade} {round sha : String} {ev : BatchEvent} {at_ : Int}

/-- **The ledgers agree after a landing exactly when each member still in the round has a record
that takes the event**, as the landing read them. -/
theorem landsBoth_iff (h : Commits cfg fuel turns i c k) (hi : i.command = .land round ev at_)
    (hev : ev.kind = .fastForward sha) :
    (∀ id, LandsBoth ((worldAt cfg fuel turns).itemAt k.head)
        ((worldAt cfg fuel turns).itemAt (k.head + 1)) id) ↔
      ∀ key rec, Looked i.reads round key rec → ∀ m ∈ rec.members,
        StillIn i.reads.view round m.beadId → TakesDelivered i.reads.view m.beadId := by
  obtain ⟨c₀, ⟨key, rec, hlooked, hd₀⟩, hc⟩ := Issue.cascade_ends h.cascade
    (Q := fun c ↦ ∃ key rec, Looked i.reads round key rec ∧
      Delivering i.reads.view round rec.members c)
    (by rw [hi]; exact planLand_ends hev) fun c ⟨_, _, _, hd⟩ ↦ hd.sound
  have hd : Delivering i.reads.view round rec.members c := by
    obtain rfl | hf := hc
    · exact hd₀
    · exact hd₀.fielded hf
  have ht := h.taken hd.sound
  -- What is written is there as it was read.
  have hsame {T : Type} [Stored T] {key : String} (hw : c.Writes key) :
      recordOf T ((worldAt cfg fuel turns).itemAt k.head) key = recordOf T i.reads.view key := by
    rw [recordOf, ht.compared key hw, recordOf]
  constructor
  · intro hall key' rec' hlooked' m hm hstill
    obtain ⟨rfl, rfl⟩ := hlooked.unique hlooked'
    by_contra hno
    have hdel := hd.delivers m.beadId (List.mem_map_of_mem hm) hstill
    obtain ⟨hw, d', hd', hexited, hdelivered⟩ := hdel.delivery
    have hafter : recordOf DeliveryRow ((worldAt cfg fuel turns).itemAt (k.head + 1))
        (Keys.delivery m.beadId) = some d' := by rw [ht.recordOf apart_delivery hw, hd']
    have hexits : ExitsDelivered ((worldAt cfg fuel turns).itemAt k.head)
        ((worldAt cfg fuel turns).itemAt (k.head + 1)) m.beadId := by
      refine ⟨fun heq ↦ ?_, d', hafter, hexited, hdelivered⟩
      obtain ⟨d, hview, hbatched⟩ := hstill
      rw [hafter, hsame hw, hview] at heq
      rw [Option.some.inj heq, (stillInBatch_iff.mp hbatched).1] at hexited
      cases hexited
    refine ((hall m.beadId).landed hexits).1 ?_
    rw [recordOf, ht.unwritten _ apart_lifecycle (hdel.left hno), recordOf]
  · intro hcond id
    by_cases hin : id ∈ rec.members.map (·.beadId) ∧ StillIn i.reads.view round id
    · obtain ⟨hmem, hstill⟩ := hin
      obtain ⟨m, hm, rfl⟩ := List.mem_map.mp hmem
      have htakes := hcond key rec hlooked m hm hstill
      obtain ⟨hw, rec', hrec', hlanded⟩ := (hd.delivers m.beadId hmem hstill).taken htakes
      have hafter : recordOf LifecycleRecord ((worldAt cfg fuel turns).itemAt (k.head + 1))
          (Keys.lifecycle m.beadId) = some rec' := by rw [ht.recordOf apart_lifecycle hw, hrec']
      refine ⟨fun _ ↦ ⟨fun heq ↦ ?_, rec', hafter, hlanded⟩, fun hno ↦ absurd ?_ hno⟩
      · obtain ⟨old, hold, hs⟩ := htakes
        rw [hafter, hsame hw, hold] at heq
        rw [Option.some.inj heq] at hlanded
        simp [BeadState.notesWithdrawal, hlanded] at hs
      · obtain ⟨old, hold, hs⟩ := htakes
        exact ⟨old, (hsame hw).trans hold, hs⟩
    · have hspared : recordOf DeliveryRow ((worldAt cfg fuel turns).itemAt (k.head + 1))
          (Keys.delivery id) = recordOf DeliveryRow ((worldAt cfg fuel turns).itemAt k.head)
            (Keys.delivery id) := by
        rw [recordOf, ht.unwritten _ apart_delivery (hd.spared id hin).1, recordOf]
      exact ⟨fun hexits ↦ absurd hspared hexits.1, fun _ ↦ hspared⟩

end Run

/-! ### A requeued member -/

namespace Requeued

/-- A bead is filed SUBMITTED and cut into a round; it is requeued, which its delivery is not, and
the round goes green and lands. -/
def filed : LifecycleRecord := .born "sp-1" none (some tip) 5
where tip : String := "aaaaaaaaaaaaaaaaaaaaaaaaaaaaaaaaaaaaaaaa"

def delivered : LifecycleRecord :=
  nextRecord filed (Bead.step filed.row (beadEvent filed.row .deliver "op" 6)) 6

def requeue : BeadEvent := ⟨.inDelivery, 2, .requeued filed.tip, "op", some 7⟩

def requeued : LifecycleRecord := nextOf requeue delivered (Bead.step delivered.row requeue)

def batched : DeliveryRow :=
  Delivery.step (.startQueue "sp-1") (deliveryEvent (.startQueue "sp-1") (.cut "b1") "op")

def started : BatchEvent := ⟨.open, 1, .ciStarted "run", "op"⟩

def passed : BatchEvent := ⟨.ciRunning, 2, .green, "op"⟩

def landing : BatchEvent := ⟨.green, 3, .fastForward "sha", "op"⟩

/-- The round at each of its revisions. -/
def opened : BatchRecord :=
  ⟨{ BatchRow.cut "b1" "h" "head" "base" with version := 1 }, [⟨"sp-1", filed.tip⟩], 6, ∅⟩

def running : BatchRecord := { opened with row := (Batch.apply opened.row started).row }

def green : BatchRecord := { running with row := (Batch.apply running.row passed).row }

def filedItem : Item Value := recordItem filed ⟨1, 0⟩ ⟨1, 0⟩

def filedGate : Item Value := gateItem filed ⟨1, 1⟩ ⟨1, 1⟩

def deliveredItem : Item Value := recordItem delivered ⟨2, 2⟩ ⟨1, 0⟩

def deliveredGate : Item Value := gateItem delivered ⟨2, 4⟩ ⟨1, 1⟩

def requeuedItem : Item Value := recordItem requeued ⟨3, 0⟩ ⟨1, 0⟩

def requeuedGate : Item Value := gateItem requeued ⟨3, 1⟩ ⟨1, 1⟩

def index : Item Value := indexItem opened ⟨2, 0⟩

def openedItem : Item Value := roundItem opened ⟨2, 1⟩ ⟨2, 1⟩

def runningItem : Item Value := roundItem running ⟨4, 0⟩ ⟨2, 1⟩

def greenItem : Item Value := roundItem green ⟨5, 0⟩ ⟨2, 1⟩

def batchedItem : Item Value :=
  deliveryItem batched ((({} : Entered).insert "QUEUED" 6).insert "BATCHED" 6) ⟨2, 3⟩ ⟨2, 3⟩

def cutIssue : Issue :=
  issue (.cut ⟨"b1", "h", "head", "base", none, [("sp-1", filed.tip)], "op", 6⟩) "cut"
    [filedItem, filedGate] [] "r1" 1

def startIssue : Issue := issue (.batchEvent "b1" started 8) "apply" [index, openedItem] [] "r3" 3

def passIssue : Issue := issue (.batchEvent "b1" passed 8) "apply" [index, runningItem] [] "r4" 4

def landIssue : Issue :=
  issue (.land "b1" landing 9) "land" [index, greenItem, batchedItem, requeuedItem, requeuedGate] [] "r5"
    5

/-- The calls of the run, each with the turns it takes. -/
def calls : List (Option (Call Value) × ℕ) :=
  [(createCall (View.only []) "sp-1" filed (some filed.tip) ⟨"r0", "op", "k", none⟩ 0, 11),
    (cutIssue.call, 16),
    (eventCall (View.only [deliveredItem, deliveredGate]) 1000 none "sp-1" requeue
      ⟨"r2", "op", "k", none⟩ 2, 13),
    (startIssue.call, 12), (passIssue.call, 12), (landIssue.call, 14)]

def turns : List (Turn Env ℕ (Call Value)) := oneByOne calls

def items : List (Item Value) :=
  [filedItem, filedGate, deliveredItem, deliveredGate, requeuedItem, requeuedGate, index, openedItem,
    runningItem, greenItem, batchedItem]

/-- The run, evaluated: each call is made when the one before it is done, the items are those that
were read, and the landing is committed last, with the delivery out of the round and the record
SUBMITTED. -/
theorem world_ends : (Pool.started World.env World.reopen (call stillConfig 1) ⟨World.init Value, []⟩
      turns).map (·.2.store.head) = List.range 6 ∧
    (∀ i ∈ items, (worldAt stillConfig 1 turns).itemAt i.modRev.main i.key = some i) ∧
    (∃ k ∈ commits (worldAt stillConfig 1 turns).trace,
      (∃ call ∈ landIssue.call, k.author = .call call) ∧ k.ok = true ∧ k.head = 5) ∧
    recordOf DeliveryRow ((worldAt stillConfig 1 turns).itemAt 5) (Keys.delivery "sp-1") = some batched ∧
    recordOf DeliveryRow ((worldAt stillConfig 1 turns).itemAt 6) (Keys.delivery "sp-1") = some
      (Delivery.step batched (deliveryEvent batched (.delivered "sha" "queue-fast-forward") "op")) ∧
    recordOf LifecycleRecord ((worldAt stillConfig 1 turns).itemAt 6) (Keys.lifecycle "sp-1") =
      some requeued := by
  decide +kernel

theorem reads_landing : landIssue.reads.Of (worldAt stillConfig 1 turns) :=
  issue_reads (Reads.only_of (fun i hi ↦ world_ends.2.1 i (by
    simp only [items, List.mem_cons] at hi ⊢
    tauto)) (by decide))

theorem controlRun : ControlRun 1000 stillConfig 1 turns := by
  refine controlRun_oneByOne world_ends.1 fun j p hp call w hcall hg hhead ↦ ?_
  -- What is read at its place is there by then.
  have hreads {l : List (Item Value)} (hl : l ⊆ items) (hle : ∀ i ∈ l, i.modRev.main ≤ j)
      (ho : inOrder l) : (Reads.only l).Of w :=
    Reads.only_of_grows world_ends.2.1 hg hl (hhead ▸ hle) ho
  match j with
  | 0 =>
    obtain rfl := Option.some.inj hp
    exact .create (hreads (l := []) (by simp) (by simp) rfl).view hcall
  | 1 =>
    obtain rfl := Option.some.inj hp
    exact .round (i := cutIssue)
      (issue_reads (hreads (by simp [items]) (by decide) (by decide))) hcall
  | 2 =>
    obtain rfl := Option.some.inj hp
    have hv : View.Of (View.only [deliveredItem, deliveredGate]) w :=
      (hreads (l := [deliveredItem, deliveredGate]) (by simp [items]) (by decide)
        (by decide)).view
    dsimp only at hcall
    refine .event hv ?_ hcall
    rintro f ⟨⟩
  | 3 =>
    obtain rfl := Option.some.inj hp
    exact .round (i := startIssue) (issue_reads (hreads (by simp [items]) (by decide) (by decide))) hcall
  | 4 =>
    obtain rfl := Option.some.inj hp
    exact .round (i := passIssue) (issue_reads (hreads (by simp [items]) (by decide) (by decide))) hcall
  | 5 =>
    obtain rfl := Option.some.inj hp
    exact .round (i := landIssue) (issue_reads (hreads (by simp [items]) (by decide) (by decide))) hcall
  | n + 6 => cases hp

theorem commits_landing : ∃ c k, Commits stillConfig 1 turns landIssue c k ∧ k.head = 5 := by
  obtain ⟨-, -, ⟨k, hk, hauthor, hok, hhead⟩, -⟩ := world_ends
  have hplans : landIssue.cascade.toOption.isSome = true := by decide
  obtain ⟨c, hc⟩ := commits_of reads_landing hplans hk hauthor hok
  exact ⟨c, k, hc, hhead⟩

/-- The delivery is exited as delivered and the record is SUBMITTED, before and after. -/
theorem not_landsBoth : ¬ LandsBoth ((worldAt stillConfig 1 turns).itemAt 5)
    ((worldAt stillConfig 1 turns).itemAt 6) "sp-1" := by
  obtain ⟨-, -, -, hbefore, hafter, hrec⟩ := world_ends
  intro h
  obtain ⟨-, rec, hrec', hlanded⟩ := h.landed
    ⟨by rw [hbefore, hafter]; decide, _, hafter, by decide, by decide⟩
  rw [hrec] at hrec'
  rw [← Option.some.inj hrec'] at hlanded
  revert hlanded
  decide

end Requeued

/-- **A landing delivers a member whose record it leaves where it was.** -/
theorem land_leaves_record : ∃ (cfg : Config Value) (fuel : ℕ)
    (turns : List (Turn Env ℕ (Call Value))) (i : Issue) (c : Cascade) (k : Committed Value),
    ControlRun 1000 cfg fuel turns ∧ Commits cfg fuel turns i c k ∧
    (∃ round ev at_, i.command = .land round ev at_ ∧ ev.kind = .fastForward "sha") ∧
    ∃ id, ¬ LandsBoth ((worldAt cfg fuel turns).itemAt k.head)
      ((worldAt cfg fuel turns).itemAt (k.head + 1)) id := by
  obtain ⟨c, k, hc, hhead⟩ := Requeued.commits_landing
  refine ⟨_, _, _, _, c, k, Requeued.controlRun, hc, ⟨_, _, _, rfl, rfl⟩, "sp-1", ?_⟩
  rw [hhead]
  exact Requeued.not_landsBoth

/-- The ledgers of the requeued member disagree as the condition is not met there. -/
theorem landsBoth_iff_requeued : ∃ c k, Commits stillConfig 1 Requeued.turns Requeued.landIssue c k ∧
    ¬ ∀ key rec, Looked Requeued.landIssue.reads "b1" key rec → ∀ m ∈ rec.members,
      StillIn Requeued.landIssue.reads.view "b1" m.beadId →
        TakesDelivered Requeued.landIssue.reads.view m.beadId := by
  obtain ⟨c, k, hc, hhead⟩ := Requeued.commits_landing
  refine ⟨c, k, hc, fun hcond ↦ ?_⟩
  have hall := (landsBoth_iff hc rfl rfl).mpr hcond "sp-1"
  rw [hhead] at hall
  exact Requeued.not_landsBoth hall

end Spira.Control
