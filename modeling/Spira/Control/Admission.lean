import Spira.Control.Exits

/-!
# Bringing members into a round

Cutting, stacking and promoting admit members at their tips: all are looked at before any is
planned, and each is then delivered on its record and cut on its delivery.  The records and the
deliveries are written, so a transaction that commits has found every one of them as it was
admitted (`admission_ends`).
-/

set_option autoImplicit false

namespace Spira.Control

open Spira.Bead Spira.Batch Spira.Delivery Store Store.Contract Stopping
open KeyPrefix (starts)

/-! ## The events on each machine -/

theorem deliver_step {row : BeadRow} {actor : String} {at_ : Int}
    (h : (Bead.apply row (beadEvent row .deliver actor at_)).applied = true) :
    (Bead.step row (beadEvent row .deliver actor at_)).state = .inDelivery ∧
      (Bead.step row (beadEvent row .deliver actor at_)).tip = row.tip := by
  obtain ⟨-, mid, hmove, hrow⟩ := Bead.apply_move h
  change Bead.Move row actor .deliver mid at hmove
  rw [Bead.step, hrow, settled_state, settled_tip]
  cases hmove with
  | unclaim hk => simp at hk
  | deliverSubmitted => exact ⟨rfl, rfl⟩
  | deliverCertified => exact ⟨rfl, rfl⟩

theorem cut_step {row : DeliveryRow} {batchId actor : String}
    (h : (Delivery.apply row (deliveryEvent row (.cut batchId) actor)).applied = true) :
    stillInBatch (Delivery.step row (deliveryEvent row (.cut batchId) actor)) batchId = true := by
  have hm : Delivery.Move row (.cut batchId) (Delivery.step row (deliveryEvent row (.cut batchId) actor)) :=
    Delivery.apply_grants h
  generalize Delivery.step row (deliveryEvent row (.cut batchId) actor) = row' at hm
  cases hm with
  | cut hs => simp [stillInBatch]

/-- An event of a round leaves it the round it is. -/
theorem batch_identity {row : BatchRow} {ev : BatchEvent} (h : (Batch.apply row ev).applied = true) :
    (Batch.apply row ev).row.batchId = row.batchId ∧ (Batch.apply row ev).row.repo = row.repo := by
  have hm : Batch.Move row ev.kind (Batch.apply row ev).row := Batch.apply_grants h
  generalize (Batch.apply row ev).row = row' at hm
  generalize ev.kind = kind at hm
  cases hm <;> exact ⟨rfl, rfl⟩

/-! ## What is looked at -/

section Looks

variable {r : Reads} {c : Cascade}

open Cascade

theorem overCap_looks {verb : String} {n : ℕ} (h : Sound r.view c) :
    Ends (overCap verb n) c fun _ c' ↦ Looks r.view c c' :=
  ends_ite (fun _ ↦ ends_throw) fun _ ↦ ends_pure (.refl h)

/-- The record of `m` is at the tip it is admitted at. -/
def AtTip (view : View) (c : Cascade) (m : String × String) : Prop :=
  ∃ rec, rowOf LifecycleRecord (c.planned view) (Keys.lifecycle m.1) = some rec ∧ rec.row.tip = some m.2

/-- **Members whose records are admitted are different beads, each at its tip.** -/
theorem admitRecords_ends {members : List (String × String)} {allowSubmitted : Bool}
    (h : Sound r.view c) :
    Ends (admitRecords r members allowSubmitted) c fun _ c' ↦ Looks r.view c c' ∧
      (members.map (·.1)).Nodup ∧ ∀ m ∈ members, AtTip r.view c m := by
  refine Ends.imp (ends_forM (I := fun done c' ↦ Looks r.view c c' ∧ (done.map (·.1.1)).Nodup ∧
      ∀ p ∈ done, AtTip r.view c p.1)
    ⟨.refl h, by simp, by simp⟩ fun done p rest hl c₁ hdone ↦ ?_) fun _ c' hloop ↦ ?_
  · obtain ⟨hlooks, hnodup, htips⟩ := hdone
    obtain ⟨⟨id, tip⟩, n⟩ := p
    -- Those gone through are the members before this one.
    have htake : members.take n = done.map (·.1) := by
      have hn : n = done.length := by
        have hget : members.zipIdx[done.length]? = some ((id, tip), n) := by
          rw [hl]
          simp
        rw [List.getElem?_zipIdx] at hget
        obtain ⟨x, -, hx⟩ := Option.map_eq_some_iff.mp hget
        rw [← (Prod.mk.inj hx).2, Nat.zero_add]
      rw [← List.zipIdx_map_fst 0 members, hl, hn, List.map_append, List.take_left' (by simp)]
    refine ends_ite (fun _ ↦ ends_throw) fun hnew ↦ ?_
    refine ends_bind ((get_looks hlooks.sound).imp fun a c₂ hget ↦ ?_)
    obtain ⟨hl₂, ha, -⟩ := hget
    rw [hlooks.planned] at ha
    cases a with
    | none => exact ends_throw
    | some rec =>
      refine ends_ite (fun _ ↦ ends_throw) fun _ ↦ ends_ite (fun _ ↦ ends_throw) fun htip ↦ ?_
      refine ends_pure ⟨hlooks.trans hl₂, ?_, fun p hp ↦ ?_⟩
      · have hnot : id ∉ done.map (·.1.1) := by
          rw [htake] at hnew
          simpa [List.any_eq_true] using hnew
        rw [List.map_append, List.nodup_append]
        refine ⟨hnodup, by simp, fun x hx y hy hxy ↦ hnot ?_⟩
        rw [List.map_cons, List.map_nil, List.mem_singleton] at hy
        rw [hxy, hy] at hx
        exact hx
      · obtain hp | hp := List.mem_append.mp hp
        · exact htips p hp
        · rw [List.mem_singleton.mp hp]
          exact ⟨rec, ha.symm, not_not.mp htip⟩
  · obtain ⟨hlooks, hnodup, htips⟩ := hloop
    refine ⟨hlooks, ?_, fun m hm ↦ ?_⟩
    · rw [← List.zipIdx_map_fst 0 members, List.map_map]
      exact hnodup
    · rw [← List.zipIdx_map_fst 0 members] at hm
      obtain ⟨p, hp, rfl⟩ := List.mem_map.mp hm
      exact htips p hp

/-- Every member is admitted, and has its delivery, or the lack of one. -/
theorem admitted_ends {members : List (String × String)} {allowSubmitted : Bool}
    (h : Sound r.view c) :
    Ends (admitted r members allowSubmitted) c fun deliveries c' ↦ Looks r.view c c' ∧
      (members.map (·.1)).Nodup ∧ (∀ m ∈ members, AtTip r.view c m) ∧
      deliveries.length = members.length := by
  refine ends_bind ((admitRecords_ends h).imp fun _ c₁ ⟨hl₁, hnodup, htips⟩ ↦ ?_)
  have hloop := ends_foldlM (l := members) (b := []) (s := c₁)
    (f := fun ds m ↦ do
      return ds ++ [← (Cascade.get r.view (Keys.delivery m.1) : Plan (Option DeliveryRow))])
    (I := fun done ds c' ↦ Looks r.view c c' ∧ ds.length = done.length)
    ⟨hl₁, rfl⟩ fun done m rest _ ds c₂ ⟨hl₂, hlen⟩ ↦
      ends_bind ((get_looks hl₂.sound).imp fun a c₃ ⟨hl₃, _, _⟩ ↦
        ends_pure ⟨hl₂.trans hl₃, by simp [hlen]⟩)
  refine ends_bind (hloop.imp fun ds c₂ ⟨hl₂, hlen⟩ ↦ ?_)
  have hforM := ends_forM (l := members.zip ds) (s := c₂)
    (f := fun p : (String × String) × Option DeliveryRow ↦ admitDelivery p.1.1 p.2)
    (I := fun _ c' ↦ Looks r.view c c') hl₂ fun done p rest _ c₃ hl₃ ↦ by
      rw [admitDelivery.eq_def]
      split
      · exact ends_pure hl₃
      · split
        · exact ends_pure hl₃
        · exact ends_pure hl₃
        · exact ends_throw
        · exact ends_throw
  exact ends_bind (hforM.imp fun _ c₃ hl₃ ↦ ends_pure ⟨hl₃, hnodup, htips, hlen⟩)

end Looks

/-! ## What is planned of a member -/

/-- The keys of the members. -/
def membersKeys (members : List (String × String)) : List String :=
  members.flatMap fun m ↦ memberKeys m.1

/-- The member is IN_DELIVERY at its tip, and its delivery BATCHED in the round. -/
structure Admitted (view : View) (c : Cascade) (round : String) (m : String × String) : Prop where
  record : c.Writes (Keys.lifecycle m.1) ∧ ∃ rec,
    rowOf LifecycleRecord (c.planned view) (Keys.lifecycle m.1) = some rec ∧
      rec.row.state = .inDelivery ∧ rec.row.tip = some m.2
  delivery : c.Writes (Keys.delivery m.1) ∧ ∃ d,
    rowOf DeliveryRow (c.planned view) (Keys.delivery m.1) = some d ∧ stillInBatch d round = true

/-- What is planned of the members gone through, from `c` on. -/
structure Admitting (view : View) (round : BatchRow) (c : Cascade) (done : List (String × String))
    (row : BatchRow) (c' : Cascade) : Prop where
  row : row.batchId = round.batchId ∧ row.repo = round.repo
  frame : Cascade.Frame view (membersKeys done) c c'
  members : ∀ m ∈ done, Admitted view c' round.batchId m

section Members

variable {r : Reads} {c c' : Cascade} {round row : BatchRow} {done : List (String × String)}
  {actor verb : String} {at_ : Int}

open Cascade

theorem not_mem_membersKeys {id : String} (h : id ∉ done.map (·.1)) :
    Keys.delivery id ∉ membersKeys done ∧ Keys.lifecycle id ∉ membersKeys done := by
  have hne {m : String × String} (hm : m ∈ done) : id ≠ m.1 := by
    rintro rfl
    exact h (List.mem_map_of_mem hm)
  simp only [membersKeys, List.mem_flatMap, not_exists, not_and]
  exact ⟨fun m hm ↦ (not_mem_memberKeys (hne hm)).1, fun m hm ↦ (not_mem_memberKeys (hne hm)).2⟩

theorem Admitted.frame {m : String × String} {id round : String} (h : Admitted r.view c round m)
    (hf : Frame r.view (memberKeys id) c c') (hne : m.1 ≠ id) : Admitted r.view c' round m := by
  obtain ⟨hd, hl⟩ := not_mem_memberKeys hne
  refine ⟨⟨hf.kept _ h.record.1, ?_⟩, hf.kept _ h.delivery.1, ?_⟩
  · rw [rowOf, hf.planned _ hl]
    exact h.record.2
  · rw [rowOf, hf.planned _ hd]
    exact h.delivery.2

/-- **One member is brought in.** -/
theorem planMember_ends {m : String × String} {delivery : Option DeliveryRow}
    (h : Admitting r.view round c done row c') (hnew : m.1 ∉ done.map (·.1)) (htip : AtTip r.view c m) :
    Ends (planMember r actor at_ verb row (m, delivery)) c' fun row' c'' ↦
      Admitting r.view round c (done ++ [m]) row' c'' := by
  obtain ⟨id, tip⟩ := m
  obtain ⟨rec, hrec, hrectip⟩ := htip
  have hrec' : rowOf LifecycleRecord (c'.planned r.view) (Keys.lifecycle id) = some rec := by
    rw [rowOf, h.frame.planned _ (not_mem_membersKeys hnew).2, ← rowOf, hrec]
  refine ends_ite (fun _ ↦ ends_throw) fun hadded ↦ ?_
  have hadded : (Batch.apply row ⟨row.state, row.version, .memberAdded id tip, actor⟩).applied = true := by
    simpa using hadded
  obtain ⟨hbatchId, hrepo⟩ := batch_identity hadded
  refine ends_bind ((step_frame h.frame.sound).imp fun _ c₁ hf₁ ↦
    ends_bind ((beadStep_ends hf₁.sound).imp fun a c₂ hbead ↦ ?_))
  obtain ⟨⟨e, rfl⟩, -⟩ | ⟨rfl, rec₁, hrec₁, happlied, hf₂, hw₂, hrow₂⟩ := hbead
  · exact ends_throw
  rw [rowOf, hf₁.planned _ (by simp), ← rowOf, hrec'] at hrec₁
  obtain rfl := Option.some.inj hrec₁
  obtain ⟨hstate, htip⟩ := deliver_step happlied
  -- Whatever the delivery was (re)queued from, it is cut into the round.
  have hcut {queued : DeliveryRow} {c₃ : Cascade} (hf₃ : Frame r.view [] c₂ c₃) :
      Ends (mustStep r id queued (.cut (Batch.apply row
          ⟨row.state, row.version, .memberAdded id tip, actor⟩).row.batchId) actor at_
          (verb ++ ": Cut refused unexpectedly for " ++ id)
          (Batch.apply row ⟨row.state, row.version, .memberAdded id tip, actor⟩).row)
        c₃ fun row' c'' ↦ Admitting r.view round c (done ++ [(id, tip)]) row' c'' := by
    refine ends_bind ((deliveryStep_ends hf₃.sound).imp fun b c₄ hdelivery ↦ ?_)
    obtain ⟨-, rfl, -⟩ | ⟨happlied, hb, hput⟩ := hdelivery
    · exact ends_throw
    obtain ⟨_, rfl⟩ := Option.isSome_iff_exists.mp hb
    have hf : Frame r.view (memberKeys id) c' c₄ := by
      refine (hf₁.of_nil.trans (hf₂.mono ?_)).trans (hf₃.of_nil.trans (hput.frame.mono ?_)) <;>
        simp [memberKeys]
    refine ends_pure ⟨⟨hbatchId.trans h.row.1, hrepo.trans h.row.2⟩,
      (h.frame.mono ?_).trans (hf.mono ?_), fun m hm ↦ ?_⟩
    · intro k hk
      rw [membersKeys, List.flatMap_append]
      exact List.mem_append_left _ hk
    · intro k hk
      rw [membersKeys, List.flatMap_append]
      exact List.mem_append_right _ (by simpa using hk)
    obtain hold | hthis := List.mem_append.mp hm
    · refine (h.members m hold).frame hf fun heq ↦ hnew ?_
      change id ∈ done.map (·.1)
      rw [← heq]
      exact List.mem_map_of_mem hold
    · rw [List.mem_singleton.mp hthis]
      have hkept : Keys.lifecycle id ∉ [Keys.delivery id] := by simp [lifecycle_ne_delivery]
      have hrow₄ : rowOf LifecycleRecord (c₄.planned r.view) (Keys.lifecycle id) =
          some (nextRecord rec (Bead.step rec.row (beadEvent rec.row .deliver actor at_)) at_) := by
        rw [rowOf, hput.frame.planned _ hkept, hf₃.planned _ (by simp), ← rowOf]
        exact hrow₂
      refine ⟨⟨hput.frame.kept _ (hf₃.kept _ hw₂), _, hrow₄, hstate, htip.trans hrectip⟩, hput.writes,
        _, hput.row, ?_⟩
      rw [← h.row.1, ← hbatchId]
      exact cut_step happlied
  cases delivery with
  | none => exact ends_bind ((note_frame hf₂.sound).imp fun _ c₃ hf₃ ↦ ends_bind (ends_pure (hcut hf₃)))
  | some d =>
    refine ends_ite (fun _ ↦ ?_) fun _ ↦ ends_bind (ends_pure (hcut (.refl hf₂.sound)))
    exact ends_bind ((step_frame hf₂.sound).imp fun _ c₃ hf₃ ↦ ends_bind (ends_pure (hcut hf₃)))

/-- **Members who were admitted are brought in**, each at its tip. -/
theorem planMembers_ends {members : List (String × String)} {deliveries : List (Option DeliveryRow)}
    (h : Sound r.view c) (hnodup : (members.map (·.1)).Nodup)
    (htips : ∀ m ∈ members, AtTip r.view c m) (hlen : deliveries.length = members.length) :
    Ends (planMembers r round members deliveries actor at_ verb) c fun row c' ↦
      Admitting r.view round c members row c' := by
  have hfst : (members.zip deliveries).map (·.1) = members := List.map_fst_zip hlen.ge
  have hloop := ends_foldlM (l := members.zip deliveries) (b := round) (s := c)
    (f := planMember r actor at_ verb)
    (I := fun part row c' ↦ Admitting r.view round c (part.map (·.1)) row c')
    ⟨⟨rfl, rfl⟩, .refl h, by simp⟩ fun part p rest hl row c' ha ↦ by
      obtain ⟨m, d⟩ := p
      have hmembers : members = part.map (·.1) ++ m :: rest.map (·.1) := by
        rw [← hfst, hl, List.map_append, List.map_cons]
      have hnew : m.1 ∉ (part.map (·.1)).map (·.1) := by
        rw [hmembers, List.map_append, List.nodup_append] at hnodup
        exact fun hmem ↦ hnodup.2.2 _ hmem m.1 (by simp) rfl
      rw [List.map_append]
      exact planMember_ends ha hnew (htips m (by rw [hmembers]; simp))
  refine hloop.imp fun row c' ha ↦ ?_
  rwa [hfst] at ha

end Members

end Spira.Control
