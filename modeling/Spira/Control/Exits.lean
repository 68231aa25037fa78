import Spira.Control.Landing
import Spira.Lifecycle.Bead.Replay

/-!
# What the cascades of a round carry out

Settling, abandoning and ejecting carry members out of a round by one exit each, and an exit is
given to the member's delivery and to its record wherever their machines take it.  A round keeps
an ejected member in its list, so the member may by then be BATCHED in another round; a landing
looks for that, and an exit does not.  So a cascade keeps to its own round exactly when each
member it carries out is still in the round, or takes no exit at all (`keepsTo_iff`).
-/

set_option autoImplicit false

namespace Spira.Control

open Spira.Bead Spira.Batch Spira.Delivery Store Store.Contract Stopping
open KeyPrefix (starts)

/-! ## The exits on each machine -/

/-- The bead event that goes with an exit of a delivery. -/
def exitKind : DeliveryEventKind → Option BeadEventKind
  | .returned reason => some (.returned reason)
  | .requeued tip => some (.requeued tip)
  | _ => none

/-- The delivery takes the exit: it is out with a queue, a forge or a push, and one that is a pull
request is requeued by the harness alone. -/
def TakesExit (row : DeliveryRow) (kind : DeliveryEventKind) (actor : String) : Prop :=
  row.state.isUnderway ∧ (row.state = .prOpen → (∃ tip, kind = .requeued tip) → actor = harnessActor)

section Machines

variable {kind : DeliveryEventKind} {beadKind : BeadEventKind} {actor : String} {at_ : Int}

theorem delivery_takes_iff {row : DeliveryRow} (hk : exitKind kind = some beadKind) :
    (Delivery.apply row (deliveryEvent row kind actor)).applied = true ↔ TakesExit row kind actor := by
  cases kind with
  | returned reason =>
    cases hs : row.state <;> simp [Delivery.apply, deliveryEvent, hs, TakesExit,
      DeliveryState.isUnderway, queuedTransition, exitTransition, exitedTransition,
      publishingTransition, Delivery.illegal, Delivery.terminal]
  | requeued tip =>
    cases hs : row.state with
    | prOpen =>
      by_cases ha : actor = harnessActor <;> simp [Delivery.apply, deliveryEvent, hs, ha, TakesExit,
        DeliveryState.isUnderway, exitTransition, Delivery.illegal]
    | _ => simp [Delivery.apply, deliveryEvent, hs, TakesExit,
        DeliveryState.isUnderway, queuedTransition, exitTransition, exitedTransition,
        publishingTransition, Delivery.illegal, Delivery.terminal]
  | _ => simp [exitKind] at hk

/-- A record takes an exit only IN_DELIVERY. -/
theorem bead_takes_iff {row : BeadRow} (hk : exitKind kind = some beadKind) :
    (Bead.apply row (beadEvent row beadKind actor at_)).applied = true ↔ row.state = .inDelivery := by
  have hadmitted : Admitted row (beadEvent row beadKind actor at_) := by
    refine ⟨rfl, rfl, fun tip ht ↦ ?_⟩
    cases kind <;> simp only [exitKind, Option.some.injEq, reduceCtorEq] at hk <;>
      rw [← hk] at ht <;> cases ht
  constructor
  · intro h
    obtain ⟨-, mid, hmove, -⟩ := Bead.apply_move h
    cases kind with
    | returned reason =>
      obtain rfl := Option.some.inj hk
      change Bead.Move row actor (.returned reason) mid at hmove
      cases hmove with
      | unclaim hu => simp at hu
      | returned hs => exact hs
    | requeued tip =>
      obtain rfl := Option.some.inj hk
      change Bead.Move row actor (.requeued tip) mid at hmove
      cases hmove with
      | unclaim hu => simp at hu
      | requeuedRed hs => exact hs
      | requeuedCertified hs => exact hs
      | requeuedSubmitted hs => exact hs
    | _ => simp [exitKind] at hk
  · intro hs
    have happlied {mid : BeadRow} (hm : Bead.Move row actor beadKind mid) :
        (Bead.apply row (beadEvent row beadKind actor at_)).applied = true := by
      rw [Bead.apply_of_move hadmitted hm]
      rfl
    cases kind with
    | returned reason =>
      obtain rfl := Option.some.inj hk
      exact happlied (.returned hs)
    | requeued tip =>
      obtain rfl := Option.some.inj hk
      by_cases hred : row.ejectedRedTip = some tip
      · exact happlied (.requeuedRed hs hred)
      · by_cases hc : row.gateKey.isSome ∧ row.reason ≠ some fromSubmitted ∧ row.tip = some tip
        · exact happlied (.requeuedCertified hs hred hc.1 hc.2.1 hc.2.2)
        · exact happlied (.requeuedSubmitted hs hred hc)
    | _ => simp [exitKind] at hk

end Machines

/-! ## What one exit plans -/

/-- The exit is taken by the delivery of `id` or by its record. -/
def Takes (view : View) (actor id : String) (kind : DeliveryEventKind) : Prop :=
  (∃ d, recordOf DeliveryRow view (Keys.delivery id) = some d ∧ TakesExit d kind actor) ∨
    ∃ rec, recordOf LifecycleRecord view (Keys.lifecycle id) = some rec ∧ rec.row.state = .inDelivery

namespace Cascade

/-- From `c` to `c'` the record at `key` is kept as it is where `takes` is false of it, and is put
at a later version where it is true. -/
def Stepped (T : Type) [Stored T] (version : T → Version) (takes : T → Prop) (view : View)
    (c c' : Cascade) (key : String) : Prop :=
  (∀ t, rowOf T (c.planned view) key = some t → ¬ takes t) ∧
      rowOf T (c'.planned view) key = rowOf T (c.planned view) key ∧ (c'.Writes key → c.Writes key) ∨
    ∃ t t', rowOf T (c.planned view) key = some t ∧ takes t ∧ c'.Writes key ∧
      rowOf T (c'.planned view) key = some t' ∧ version t < version t'

/-- The record at `key` is planned at a later version than it was read at. -/
def Raised (T : Type) [Stored T] (version : T → Version) (view : View) (c : Cascade)
    (key : String) : Prop :=
  c.Writes key ∧ ∃ t t', recordOf T view key = some t ∧ rowOf T (c.planned view) key = some t' ∧
    version t < version t'

variable {T : Type} [Stored T] {version : T → Version} {takes : T → Prop} {view : View}
  {c c' c'' : Cascade} {key : String} {keys : List String}

theorem Stepped.of_frame (h : Frame view keys c c') (hk : key ∉ keys)
    (h' : Stepped T version takes view c' c'' key) : Stepped T version takes view c c'' key := by
  have hrow : rowOf T (c'.planned view) key = rowOf T (c.planned view) key := by
    rw [rowOf, h.planned key hk, rowOf]
  rw [Stepped, hrow] at h'
  refine h'.imp ?_ id
  rintro ⟨hno, hsame, hw⟩
  exact ⟨hno, hsame, fun hw' ↦ h.writes key hk (hw hw')⟩

theorem Stepped.frame (h : Stepped T version takes view c c' key) (h' : Frame view keys c' c'')
    (hk : key ∉ keys) : Stepped T version takes view c c'' key := by
  have hrow : rowOf T (c''.planned view) key = rowOf T (c'.planned view) key := by
    rw [rowOf, h'.planned key hk, rowOf]
  rw [Stepped, hrow]
  refine h.imp ?_ ?_
  · rintro ⟨hno, hsame, hw⟩
    exact ⟨hno, hsame, fun hw' ↦ hw (h'.writes key hk hw')⟩
  · rintro ⟨t, t', ht, htakes, hw, hrest⟩
    exact ⟨t, t', ht, htakes, h'.kept key hw, hrest⟩

/-- A version once raised stays raised. -/
theorem Raised.step (h : Raised T version view c key) (hs : Stepped T version takes view c c' key)
    (hkept : ∀ k, c.Writes k → c'.Writes k) : Raised T version view c' key := by
  obtain ⟨hw, t, t', hread, hrow, hlt⟩ := h
  obtain ⟨-, hsame, -⟩ | ⟨u, u', hu, -, hw', hu', hlt'⟩ := hs
  · exact ⟨hkept key hw, t, t', hread, hsame.trans hrow, hlt⟩
  · rw [hrow] at hu
    obtain rfl := Option.some.inj hu
    exact ⟨hw', t, u', hread, hu', Nat.lt_trans hlt hlt'⟩

theorem Raised.frame (h : Raised T version view c key) (hf : Frame view keys c c') (hk : key ∉ keys) :
    Raised T version view c' key := by
  obtain ⟨hw, t, t', hread, hrow, hlt⟩ := h
  refine ⟨hf.kept key hw, t, t', hread, ?_, hlt⟩
  rw [rowOf, hf.planned key hk]
  exact hrow

end Cascade

open Cascade

section Exit

variable {r : Reads} {c c' : Cascade} {id actor : String} {kind : DeliveryEventKind}
  {beadKind : BeadEventKind} {at_ : Int}

/-- The delivery's part of an exit. -/
abbrev DeliverySteps (view : View) (kind : DeliveryEventKind) (actor : String) (c c' : Cascade)
    (id : String) : Prop :=
  Stepped DeliveryRow (·.version) (TakesExit · kind actor) view c c' (Keys.delivery id)

/-- The record's part of an exit. -/
abbrev RecordSteps (view : View) (c c' : Cascade) (id : String) : Prop :=
  Stepped LifecycleRecord (·.row.version) (·.row.state = .inDelivery) view c c' (Keys.lifecycle id)

/-- From `c` to `c'` the member `id` takes an exit, wherever its machines take it. -/
structure Exited (view : View) (kind : DeliveryEventKind) (actor : String) (c c' : Cascade)
    (id : String) : Prop where
  frame : Frame view (memberKeys id) c c'
  delivery : DeliverySteps view kind actor c c' id
  record : RecordSteps view c c' id

/-- The record is stepped after the delivery. -/
theorem beadExit_ends (hk : exitKind kind = some beadKind)
    (hf : Frame r.view [Keys.delivery id] c c') (hs : DeliverySteps r.view kind actor c c' id) :
    Ends (do let _ ← beadStep r id beadKind actor at_) c' fun _ c'' ↦
      Exited r.view kind actor c c'' id := by
  refine ends_bind ((beadStep_ends hf.sound).imp fun _ c₂ hstep ↦ ends_pure ?_)
  have hnot : Keys.lifecycle id ∉ [Keys.delivery id] := by simp [lifecycle_ne_delivery]
  obtain ⟨-, hf₂, hrefused⟩ | ⟨-, rec, hrec, happlied, hf₂, hw, hrow⟩ := hstep
  · refine ⟨(hf.mono (by simp [memberKeys])).trans hf₂.of_nil, hs.frame hf₂ (by simp),
      .of_frame hf hnot (.inl ⟨fun t ht hin ↦ ?_, ?_, hf₂.writes _ (by simp)⟩)⟩
    · have hno := hrefused t ht
      rw [(bead_takes_iff hk).mpr hin] at hno
      cases hno
    · rw [rowOf, hf₂.planned _ (by simp), rowOf]
  · refine ⟨(hf.mono (by simp [memberKeys])).trans (hf₂.mono (by simp [memberKeys])),
      hs.frame hf₂ (by simp [lifecycle_ne_delivery.symm, gate_ne_delivery.symm]),
      .of_frame hf hnot (.inr ⟨rec, _, hrec, (bead_takes_iff hk).mp happlied, hw, hrow, ?_⟩)⟩
    change rec.row.version < (Bead.step rec.row (beadEvent rec.row beadKind actor at_)).version
    rw [Bead.version_step, happlied]
    exact Nat.lt_succ_self _

/-- **An exit is a step of the delivery and a step of the record.** -/
theorem exit_ends (h : Sound r.view c) :
    Ends (exit r id kind actor at_) c fun _ c' ↦ Exited r.view kind actor c c' id := by
  have hgo {beadKind : BeadEventKind} (hk : exitKind kind = some beadKind) :
      Ends (exitAs r id kind beadKind actor at_) c fun _ c' ↦
        Exited r.view kind actor c c' id := by
    refine ends_bind ((get_frame h).imp fun a c₁ hget ↦ ?_)
    obtain ⟨hf₁, hp₁, hw₁, ha, -⟩ := hget
    have hkeep (hno : ∀ d, a = some d → ¬ TakesExit d kind actor) :
        DeliverySteps r.view kind actor c c₁ id := by
      refine .inl ⟨fun d hd ↦ hno d (ha.trans hd), by rw [hp₁], fun hw ↦ ?_⟩
      rwa [hw₁] at hw
    cases a with
    | none => exact beadExit_ends hk hf₁.of_nil (hkeep fun d hd ↦ by cases hd)
    | some d =>
      refine ends_bind ((deliveryStep_ends hf₁.sound).imp fun _ c₂ hstep ↦ ?_)
      obtain ⟨hno, -, rfl⟩ | ⟨happlied, -, hput⟩ := hstep
      · refine beadExit_ends hk hf₁.of_nil (hkeep fun d' hd' htakes ↦ ?_)
        rw [← Option.some.inj hd', ← delivery_takes_iff hk, hno] at htakes
        cases htakes
      · refine beadExit_ends hk (hf₁.of_nil.trans hput.frame) (.of_frame hf₁ (by simp) ?_)
        refine .inr ⟨d, _, ?_, (delivery_takes_iff hk).mp happlied, hput.writes, hput.row, ?_⟩
        · rw [hp₁, ← ha]
        · change d.version < (Delivery.step d (deliveryEvent d kind actor)).version
          rw [Delivery.version_step happlied]
          exact Nat.lt_succ_self _
  cases kind with
  | returned reason => exact hgo rfl
  | requeued tip => exact hgo rfl
  | _ => exact ends_bind ends_throw

end Exit

/-! ## What a cascade carries out -/

/-- The delivery of `id` or its record is planned at a later version. -/
def Advanced (view : View) (c : Cascade) (id : String) : Prop :=
  Raised DeliveryRow (·.version) view c (Keys.delivery id) ∨
    Raised LifecycleRecord (·.row.version) view c (Keys.lifecycle id)

/-- What a cascade has planned, of the exits it has come to. -/
structure Exiting (view : View) (actor : String) (done : List (String × DeliveryEventKind))
    (c : Cascade) : Prop where
  sound : Sound view c
  advanced : ∀ e ∈ done, Takes view actor e.1 e.2 → Advanced view c e.1
  spared : ∀ id, (∀ kind, (id, kind) ∈ done → ¬ Takes view actor id kind) → Spared c id

section Exits

variable {r : Reads} {c c' : Cascade} {id actor : String} {kind : DeliveryEventKind} {at_ : Int}
  {done : List (String × DeliveryEventKind)} {view : View}

/-- What an exit of a member does to another's ledgers is nothing. -/
theorem Advanced.frame {id' : String} (h : Advanced view c id)
    (hf : Frame view (memberKeys id') c c') (hne : id ≠ id') : Advanced view c' id := by
  obtain ⟨hd, hl⟩ := not_mem_memberKeys hne
  exact h.imp (·.frame hf hd) (·.frame hf hl)

theorem Advanced.exited (h : Advanced view c id) (hx : Exited view kind actor c c' id) :
    Advanced view c' id :=
  h.imp (·.step hx.delivery hx.frame.kept) (·.step hx.record hx.frame.kept)

/-- A member that was spared takes the exit as it was read. -/
theorem Exited.of_spared (hs : Sound view c) (h : Spared c id)
    (hx : Exited view kind actor c c' id) :
    (Takes view actor id kind → Advanced view c' id) ∧
      (¬ Takes view actor id kind → Spared c' id) := by
  have hd := hs.row (T := DeliveryRow) h.1
  have hl := hs.row (T := LifecycleRecord) h.2
  constructor
  · rintro (⟨d, hread, htakes⟩ | ⟨rec, hread, hin⟩)
    · obtain ⟨hno, -⟩ | ⟨t, t', ht, -, hw, ht', hlt⟩ := hx.delivery
      · exact absurd htakes (hno d (hd.trans hread))
      · exact .inl ⟨hw, t, t', hd.symm.trans ht, ht', hlt⟩
    · obtain ⟨hno, -⟩ | ⟨t, t', ht, -, hw, ht', hlt⟩ := hx.record
      · exact absurd hin (hno rec (hl.trans hread))
      · exact .inr ⟨hw, t, t', hl.symm.trans ht, ht', hlt⟩
  · intro hno
    constructor
    · obtain ⟨-, -, hw⟩ | ⟨t, -, ht, htakes, -⟩ := hx.delivery
      · exact fun hw' ↦ h.1 (hw hw')
      · exact absurd (.inl ⟨t, hd.symm.trans ht, htakes⟩) hno
    · obtain ⟨-, -, hw⟩ | ⟨t, -, ht, hin, -⟩ := hx.record
      · exact fun hw' ↦ h.2 (hw hw')
      · exact absurd (.inr ⟨t, hl.symm.trans ht, hin⟩) hno

/-- **One more exit.**  Of the exits of one member the first that it takes moves it, and none
moves it back. -/
theorem Exiting.snoc (h : Exiting view actor done c) (hx : Exited view kind actor c c' id) :
    Exiting view actor (done ++ [(id, kind)]) c' := by
  refine ⟨hx.frame.sound, fun e he htakes ↦ ?_, fun id' hno ↦ ?_⟩
  · by_cases hid : e.1 = id
    · by_cases hbefore : ∃ kind', (id, kind') ∈ done ∧ Takes view actor id kind'
      · obtain ⟨kind', hmem, ht⟩ := hbefore
        rw [hid]
        exact (h.advanced _ hmem ht).exited hx
      · have hspared : Spared c id :=
          h.spared id fun kind' hmem ht ↦ hbefore ⟨kind', hmem, ht⟩
        obtain he | he := List.mem_append.mp he
        · rw [hid] at htakes ⊢
          exact absurd ⟨e.2, by rwa [← hid], htakes⟩ hbefore
        · obtain rfl := List.mem_singleton.mp he
          exact (hx.of_spared h.sound hspared).1 htakes
    · have hmem : e ∈ done := by
        refine (List.mem_append.mp he).resolve_right fun he' ↦ hid ?_
        rw [List.mem_singleton.mp he']
      exact (h.advanced e hmem htakes).frame hx.frame hid
  · have hspared : Spared c id' := h.spared id' fun kind' hmem ↦
      hno kind' (List.mem_append_left _ hmem)
    by_cases hid : id' = id
    · subst hid
      exact (hx.of_spared h.sound hspared).2 (hno kind (by simp))
    · exact hspared.frame (r := ⟨view, view, fun _ ↦ [], fun _ _ ↦ []⟩) hx.frame hid

/-- Reading and naming change nothing that is planned. -/
theorem Exiting.same (h : Exiting view actor done c) (hs : Sound view c')
    (hp : c'.planned view = c.planned view) (hw : c'.Writes = c.Writes) :
    Exiting view actor done c' := by
  refine ⟨hs, fun e he ht ↦ ?_, fun id hno ↦ ?_⟩
  · have ha := h.advanced e he ht
    rwa [Advanced, Raised, Raised, hp, hw]
  · rw [Spared, hw]
    exact h.spared id hno

/-- **The rule of a loop of exits.** -/
theorem exiting_forM {α : Type} {l : List α} {f : α → Plan Unit}
    {e : α → List (String × DeliveryEventKind)} (h : Exiting r.view actor done c)
    (hstep : ∀ a done c, Exiting r.view actor done c →
      Ends (f a) c fun _ c' ↦ Exiting r.view actor (done ++ e a) c') :
    Ends (l.forM f) c fun _ c' ↦ Exiting r.view actor (done ++ l.flatMap e) c' := by
  refine (ends_forM (I := fun part c ↦ Exiting r.view actor (done ++ part.flatMap e) c)
    (by simpa using h) fun part a rest _ c hc ↦ (hstep a _ c hc).imp fun _ c' hc' ↦ ?_)
  rw [List.flatMap_append, List.flatMap_singleton, ← List.append_assoc]
  exact hc'

theorem exit_exiting (h : Exiting r.view actor done c) :
    Ends (exit r id kind actor at_) c fun _ c' ↦ Exiting r.view actor (done ++ [(id, kind)]) c' :=
  (exit_ends h.sound).imp fun _ _ hx ↦ h.snoc hx

theorem withdraw_exiting {withdrawn : List (String × String)} (h : Exiting r.view actor done c) :
    Ends (withdraw r withdrawn actor at_) c fun _ c' ↦
      Exiting r.view actor (done ++ withdrawn.flatMap fun p ↦ [(p.1, .returned .baseWithdrawn)])
        c' := by
  refine exiting_forM h fun p done c hc ↦ ends_bind ((exit_exiting hc).imp fun _ c' hc' ↦ ?_)
  exact (namePrerequisite_ends hc'.sound.leaves).imp fun _ _ hl ↦ hc'.same hl.sound hl.planned hl.writes

/-! ## The exits of a command -/

/-- The members stacked on any of `roots`, their records as they are read. -/
def dependentsOf (r : Reads) (rec : BatchRecord) (roots : List String) : List (String × String) :=
  let members := pairs rec.members
  let memberStacks := members.filterMap fun m ↦
    (recordOf LifecycleRecord r.view (Keys.lifecycle m.1)).map fun l ↦ (m.1, l.row)
  stackedDependentsFrom memberStacks (tipOf members) (r.branchContainment rec.row members) roots

theorem stackedDependents_ends {rec : BatchRecord} {roots : List String} (h : Sound r.view c) :
    Ends (stackedDependents r rec roots) c fun a c' ↦ Looks r.view c c' ∧
      ((∀ id, rowOf LifecycleRecord (c.planned r.view) (Keys.lifecycle id) =
        recordOf LifecycleRecord r.view (Keys.lifecycle id)) → a = dependentsOf r rec roots) := by
  refine ends_bind (Ends.imp (ends_foldlM
    (I := fun part memberStacks c' ↦ memberStacks = part.filterMap (fun m ↦
        (rowOf LifecycleRecord (c.planned r.view) (Keys.lifecycle m.1)).map fun l ↦ (m.1, l.row)) ∧
      Looks r.view c c')
    ⟨rfl, .refl h⟩ fun part m rest _ memberStacks c₁ hpart ↦ ?_) fun memberStacks c' hloop ↦ ?_)
  · obtain ⟨hm, hl⟩ := hpart
    refine ends_bind ((get_looks hl.sound).imp fun a c₂ hget ↦ ?_)
    obtain ⟨hl₂, ha, -⟩ := hget
    rw [hl.planned] at ha
    cases a with
    | none => exact ends_pure ⟨by simp [hm, ← ha], hl.trans hl₂⟩
    | some l => exact ends_pure ⟨by simp [hm, ← ha], hl.trans hl₂⟩
  · obtain ⟨hm, hl⟩ := hloop
    refine ends_pure ⟨hl, fun hread ↦ ?_⟩
    simp only [hm, hread, dependentsOf]

theorem stackedDependents_exiting {rec : BatchRecord} {roots : List String}
    (h : Exiting r.view actor [] c) :
    Ends (stackedDependents r rec roots) c fun a c' ↦
      a = dependentsOf r rec roots ∧ Exiting r.view actor [] c' :=
  (stackedDependents_ends h.sound).imp fun _ _ ⟨hl, ha⟩ ↦
    ⟨ha fun id ↦ h.sound.row (h.spared id (by simp)).2, h.same hl.sound hl.planned hl.writes⟩

/-- The exits a command gives, in order.  A landing looks at each member itself, and the other verbs
carry no one out. -/
def Command.exits (r : Reads) (rec : BatchRecord) : Command → List (String × DeliveryEventKind)
  | .settle _ _ ejected requeued _ =>
    let ejected := namedMembers rec ejected
    let withdrawn := (dependentsOf r rec ejected).filter (!ejected.contains ·.1)
    let carried (m : String) : Bool := ejected.contains m || withdrawn.any (·.1 = m)
    ejected.flatMap (fun e ↦ [(e, .returned .batchEjectedRed)]) ++
      withdrawn.flatMap (fun p ↦ [(p.1, .returned .baseWithdrawn)]) ++
      (requeued.filter (!carried ·)).flatMap fun m ↦
        ((rec.members.find? (·.beadId = m)).map fun member ↦ (m, .requeued member.tip)).toList
  | .abandon _ _ _ => rec.members.flatMap fun m ↦ [(m.beadId, releaseKind r m.beadId m.tip)]
  | .eject _ bead _ _ =>
    ((rec.members.find? (·.beadId = bead)).map fun member ↦ (bead, .requeued member.tip)).toList ++
      (dependentsOf r rec [bead]).flatMap fun p ↦ [(p.1, .returned .baseWithdrawn)]
  | _ => []

/-- The round `id` as the cascade read it, found through its index. -/
structure Found (r : Reads) (id key : String) (rec : BatchRecord) : Prop where
  index : ∃ i, r.before (Keys.batchIndex id) = some i ∧
    ∃ ix : BatchIndex, decode i.value = some ix ∧ key = Keys.batch ix.repo id
  round : recordOf BatchRecord r.view key = some rec

theorem Found.unique {key key' : String} {rec rec' : BatchRecord} (h : Found r id key rec)
    (h' : Found r id key' rec') : key = key' ∧ rec = rec' := by
  obtain ⟨⟨i, hi, ix, hd, hkey⟩, hround⟩ := h
  obtain ⟨⟨i', hi', ix', hd', hkey'⟩, hround'⟩ := h'
  rw [hi] at hi'
  obtain rfl := Option.some.inj hi'
  rw [hd] at hd'
  obtain rfl := Option.some.inj hd'
  obtain rfl : key = key' := hkey.trans hkey'.symm
  rw [hround] at hround'
  exact ⟨rfl, Option.some.inj hround'⟩

theorem round_ends : Ends (round r id) {} fun a c ↦ Sound r.view c ∧
    c.planned r.view = Cascade.planned r.view {} ∧ c.Writes = Cascade.Writes {} ∧
    ∀ key rec, a = some (key, rec) → Found r id key rec := by
  rw [round]
  refine ends_bind (batch_ends.imp fun a c₀ ⟨hc, hl⟩ ↦ ?_)
  subst hc
  obtain _ | ⟨key, rec⟩ := a
  · exact ends_pure ⟨sound_empty _, rfl, rfl, by simp⟩
  refine ends_bind ((get_frame (sound_empty r.view)).imp fun b c₁ ⟨hf, hp, hw, hb, _⟩ ↦
    ends_pure ⟨hf.sound, hp, hw, ?_⟩)
  rintro key' rec' hk
  obtain ⟨rec'', hrec, hk⟩ := Option.map_eq_some_iff.mp hk
  obtain ⟨rfl, rfl⟩ := Prod.mk.inj hk
  refine ⟨(hl key rec rfl).index, ?_⟩
  rw [← rowOf_values, ← hrec, hb]
  rfl

/-- A round's step leaves every member as it is. -/
theorem batchStep_exiting {key : String} {rec : BatchRecord} {ev : BatchEvent}
    (hf : Found r id key rec) (hs : Sound r.view c) (hw : c.Writes = Cascade.Writes {}) :
    Ends (batchStep r key rec ev at_) c fun _ c' ↦ Exiting r.view ev.actor [] c' := by
  obtain ⟨-, -, ix, -, rfl⟩ := hf.index
  refine (batchStep_ends hs).imp fun _ c' ⟨_, _, _, _, hput⟩ ↦
    ⟨hput.frame.sound, by simp, fun b _ ↦ ⟨fun hwrites ↦ ?_, fun hwrites ↦ ?_⟩⟩
  all_goals
    have hbefore := hput.frame.writes _ ?_ hwrites
    · rw [hw] at hbefore
      exact not_writes_empty hbefore
    rw [List.mem_singleton]
  · exact Keys.ne_of_starts (Keys.starts_delivery b) (Keys.starts_batch _ _) (by decide) (by decide)
  · exact Keys.ne_of_starts (Keys.starts_lifecycle b) (Keys.starts_batch _ _) (by decide) (by decide)

/-! ## What each verb plans -/

/-- The command takes members out of `round` for `actor`. -/
def Command.carries (round actor : String) : Command → Prop
  | .settle id ev _ _ _ | .abandon id ev _ | .eject id _ ev _ | .land id ev _ =>
    id = round ∧ ev.actor = actor
  | _ => False

/-- The verb has planned its exits, and nothing else of any member. -/
def Carried (r : Reads) (round actor : String) (command : Command) (c : Cascade) : Prop :=
  ∃ key rec, Found r round key rec ∧ Exiting r.view actor (command.exits r rec) c

variable {round : String} {ev : BatchEvent}

theorem planSettle_ends {ejected requeued : List String} :
    Ends (planSettle r round ev ejected requeued at_) {} fun _ c ↦
      Carried r round ev.actor (.settle round ev ejected requeued at_) c := by
  refine ends_bind (round_ends.imp fun a c₁ ⟨hs, _, hw, hfound⟩ ↦ ?_)
  obtain _ | ⟨key, rec⟩ := a
  · exact ends_throw
  have hf := hfound key rec rfl
  refine ends_bind ((batchStep_exiting hf hs hw).imp fun _ c₂ h₂ ↦
    ends_bind ((stackedDependents_exiting h₂).imp fun deps c₃ ⟨hdeps, h₃⟩ ↦ ?_))
  subst hdeps
  refine ends_bind ((exiting_forM h₃ fun e done c h ↦ exit_exiting h).imp fun _ c₄ h₄ ↦
    ends_bind ((withdraw_exiting h₄).imp fun _ c₅ h₅ ↦ ?_))
  refine (exiting_forM h₅ (e := fun m ↦
    ((rec.members.find? (·.beadId = m)).map fun member ↦ (m, .requeued member.tip)).toList)
    fun m done c h ↦ ?_).imp fun _ c₆ h₆ ↦ ⟨key, rec, hf, ?_⟩
  · cases rec.members.find? (·.beadId = m) with
    | none => exact ends_pure (by simpa using h)
    | some member => exact exit_exiting h
  · rw [List.nil_append] at h₆
    exact h₆

theorem planAbandon_ends :
    Ends (planAbandon r round ev at_) {} fun _ c ↦
      Carried r round ev.actor (.abandon round ev at_) c := by
  refine ends_bind (round_ends.imp fun a c₁ ⟨hs, _, hw, hfound⟩ ↦ ?_)
  obtain _ | ⟨key, rec⟩ := a
  · exact ends_throw
  have hf := hfound key rec rfl
  refine ends_bind ((batchStep_exiting hf hs hw).imp fun _ c₂ h₂ ↦ ?_)
  exact (exiting_forM h₂ fun m done c h ↦ exit_exiting h).imp fun _ c₃ h₃ ↦ ⟨key, rec, hf, h₃⟩

theorem planEject_ends {bead : String} :
    Ends (planEject r round bead ev at_) {} fun _ c ↦
      Carried r round ev.actor (.eject round bead ev at_) c := by
  refine ends_bind (round_ends.imp fun a c₁ ⟨hs, _, hw, hfound⟩ ↦ ?_)
  obtain _ | ⟨key, rec⟩ := a
  · exact ends_throw
  have hf := hfound key rec rfl
  dsimp only
  cases hm : rec.members.find? (·.beadId = bead) with
  | none => exact ends_throw
  | some member =>
    refine ends_bind ((batchStep_exiting hf hs hw).imp fun _ c₂ h₂ ↦
      ends_bind ((stackedDependents_exiting h₂).imp fun deps c₃ ⟨hdeps, h₃⟩ ↦ ?_))
    subst hdeps
    refine ends_bind ((exit_exiting h₃).imp fun _ c₄ h₄ ↦
      (withdraw_exiting h₄).imp fun _ c₅ h₅ ↦ ⟨key, rec, hf, ?_⟩)
    rw [Command.exits, hm]
    exact h₅

end Exits

/-- The queue's fields are of the round alone. -/
theorem Exiting.fielded {view : View} {actor : String} {c c' : Cascade}
    {done : List (String × DeliveryEventKind)} (h : Exiting view actor done c)
    (hf : Cascade.Fielded view c c') : Exiting view actor done c' := by
  have hdelivery (id : String) : rowOf DeliveryRow (c'.planned view) (Keys.delivery id) =
      rowOf DeliveryRow (c.planned view) (Keys.delivery id) :=
    hf.row (KeyPrefix.not_starts (Keys.starts_delivery id) (by decide) (by decide))
  have hlifecycle (id : String) : rowOf LifecycleRecord (c'.planned view) (Keys.lifecycle id) =
      rowOf LifecycleRecord (c.planned view) (Keys.lifecycle id) :=
    hf.row (KeyPrefix.not_starts (Keys.starts_lifecycle id) (by decide) (by decide))
  refine ⟨hf.sound, fun e he ht ↦ ?_, fun id hno ↦ ?_⟩
  · have ha := h.advanced e he ht
    rwa [Advanced, Raised, Raised, hdelivery, hlifecycle, hf.writes]
  · rw [Spared, hf.writes]
    exact h.spared id hno

/-! ## In a run -/

/-- The record of `id` or its delivery is not as it was. -/
def Moves (snap after : View) (id : String) : Prop :=
  recordOf LifecycleRecord after (Keys.lifecycle id) ≠ recordOf LifecycleRecord snap (Keys.lifecycle id) ∨
    recordOf DeliveryRow after (Keys.delivery id) ≠ recordOf DeliveryRow snap (Keys.delivery id)

/-- All that is moved is in the round. -/
def KeepsTo (snap after : View) (round : String) : Prop := ∀ id, Moves snap after id → StillIn snap round id

section Run

variable {view snap after : View} {actor id round : String} {c : Cascade}

/-- Neither ledger of a member that is not written is moved. -/
theorem Spared.not_moves (h : Spared c id) (ht : Taken view snap after c) : ¬ Moves snap after id := by
  rintro (hm | hm)
  · exact hm (by rw [recordOf, ht.unwritten _ apart_lifecycle h.2, recordOf])
  · exact hm (by rw [recordOf, ht.unwritten _ apart_delivery h.1, recordOf])

theorem Raised.moves {T : Type} [Stored T] {version : T → Version} {key : String}
    (h : Raised T version view c key) (ht : Taken view snap after c) (hkey : Apart key) :
    recordOf T after key ≠ recordOf T snap key := by
  obtain ⟨hw, t, t', hread, hrow, hlt⟩ := h
  intro heq
  rw [ht.recordOf hkey hw, hrow, recordOf, ht.compared key hw, ← recordOf, hread] at heq
  rw [Option.some.inj heq] at hlt
  exact Nat.lt_irrefl _ hlt

/-- **What a cascade of exits moves is what takes one of them.** -/
theorem Exiting.moves_iff {exits : List (String × DeliveryEventKind)}
    (h : Exiting view actor exits c) (ht : Taken view snap after c) :
    Moves snap after id ↔ ∃ kind, (id, kind) ∈ exits ∧ Takes view actor id kind := by
  constructor
  · intro hm
    by_contra hno
    exact (h.spared id fun kind hmem htakes ↦ hno ⟨kind, hmem, htakes⟩).not_moves ht hm
  · rintro ⟨kind, hmem, htakes⟩
    obtain hd | hl := h.advanced _ hmem htakes
    · exact .inr (Raised.moves hd ht apart_delivery)
    · exact .inl (Raised.moves hl ht apart_lifecycle)

variable {cfg : Config Value} {fuel : ℕ} {turns : List (Turn Env ℕ (Call Value))}
  {k : Committed Value} {i : Issue}

/-- What a command's plan ends with is there of the cascade that is committed. -/
theorem Commits.carried (h : Commits cfg fuel turns i c k)
    (hplan : Ends (i.command.plan i.reads) {} fun _ c ↦ Carried i.reads round actor i.command c) :
    Carried i.reads round actor i.command c := by
  obtain ⟨c₀, ⟨key, rec, hf, hx⟩, hc⟩ := Issue.cascade_ends h.cascade hplan
    fun c ⟨_, _, _, hx⟩ ↦ hx.sound
  obtain rfl | hfields := hc
  · exact ⟨key, rec, hf, hx⟩
  · exact ⟨key, rec, hf, hx.fielded hfields⟩

/-- A landing keeps to its round: it looks at each member it takes out. -/
theorem land_keepsTo {ev : BatchEvent} {at_ : Int} (h : Commits cfg fuel turns i c k)
    (hi : i.command = .land round ev at_) :
    KeepsTo ((worldAt cfg fuel turns).itemAt k.head) ((worldAt cfg fuel turns).itemAt (k.head + 1))
      round := by
  obtain ⟨c₀, ⟨done, hd₀⟩, hc⟩ := Issue.cascade_ends h.cascade
    (Q := fun c ↦ ∃ done, Delivering i.reads.view round done c)
    (by
      rw [hi]
      cases hev : ev.kind with
      | fastForward sha => exact (planLand_ends hev).imp fun _ c ⟨_, rec, _, hd⟩ ↦ ⟨_, hd⟩
      | _ =>
        rw [Command.plan, planLand, hev]
        exact ends_throw)
    fun c ⟨_, hd⟩ ↦ hd.sound
  have hd : Delivering i.reads.view round done c := by
    obtain rfl | hf := hc
    · exact hd₀
    · exact hd₀.fielded hf
  have ht := h.taken hd.sound
  intro id hm
  by_cases hin : id ∈ done.map (·.beadId) ∧ StillIn i.reads.view round id
  · -- The delivery is one of those written, so it is in the round still.
    obtain ⟨d, hread, hstill⟩ := hin.2
    have hw := (hd.delivers id hin.1 hin.2).delivery.1
    exact ⟨d, by rw [recordOf, ht.compared _ hw, ← recordOf, hread], hstill⟩
  · exact absurd hm ((hd.spared id hin).not_moves ht)

/-- **A cascade of a round keeps to its members exactly when every member it carries out is still in
the round, or takes no exit**, as it was read. -/
theorem keepsTo_iff (h : Commits cfg fuel turns i c k) (hi : i.command.carries round actor) :
    KeepsTo ((worldAt cfg fuel turns).itemAt k.head) ((worldAt cfg fuel turns).itemAt (k.head + 1))
        round ↔
      ∀ key rec, Found i.reads round key rec → ∀ e ∈ i.command.exits i.reads rec,
        Takes i.reads.view actor e.1 e.2 →
          StillIn ((worldAt cfg fuel turns).itemAt k.head) round e.1 := by
  have hgo (hcarried : Carried i.reads round actor i.command c) :
      KeepsTo ((worldAt cfg fuel turns).itemAt k.head)
          ((worldAt cfg fuel turns).itemAt (k.head + 1)) round ↔
        ∀ key rec, Found i.reads round key rec → ∀ e ∈ i.command.exits i.reads rec,
          Takes i.reads.view actor e.1 e.2 →
            StillIn ((worldAt cfg fuel turns).itemAt k.head) round e.1 := by
    obtain ⟨key, rec, hf, hx⟩ := hcarried
    have ht := h.taken hx.sound
    constructor
    · intro hkeeps key' rec' hf' e he htakes
      obtain ⟨rfl, rfl⟩ := hf.unique hf'
      exact hkeeps e.1 ((hx.moves_iff ht).mpr ⟨e.2, he, htakes⟩)
    · intro hcond id hm
      obtain ⟨kind, hmem, htakes⟩ := (hx.moves_iff ht).mp hm
      exact hcond key rec hf _ hmem htakes
  cases hcmd : i.command with
  | settle _ ev ejected requeued at_ =>
    rw [hcmd] at hi
    obtain ⟨rfl, rfl⟩ := hi
    rw [hcmd] at hgo
    exact hgo (hcmd ▸ h.carried (by rw [hcmd]; exact planSettle_ends))
  | abandon _ ev at_ =>
    rw [hcmd] at hi
    obtain ⟨rfl, rfl⟩ := hi
    rw [hcmd] at hgo
    exact hgo (hcmd ▸ h.carried (by rw [hcmd]; exact planAbandon_ends))
  | eject _ bead ev at_ =>
    rw [hcmd] at hi
    obtain ⟨rfl, rfl⟩ := hi
    rw [hcmd] at hgo
    exact hgo (hcmd ▸ h.carried (by rw [hcmd]; exact planEject_ends))
  | land _ ev at_ =>
    rw [hcmd] at hi
    obtain ⟨rfl, rfl⟩ := hi
    exact ⟨fun _ _ _ _ e he ↦ (nomatch he), fun _ ↦ land_keepsTo h hcmd⟩
  | _ => rw [hcmd] at hi; exact absurd hi id

end Run

/-! ### A member cut again -/

namespace Recut

/-- A bead is filed SUBMITTED, cut into `b1` and ejected from it, and cut into `b2`; then `b1` is
abandoned. -/
def filed : LifecycleRecord := .born "sp-1" none (some tip) 5
where tip : String := "aaaaaaaaaaaaaaaaaaaaaaaaaaaaaaaaaaaaaaaa"

def cutOf (batchId : String) (at_ : Int) : Cut :=
  ⟨batchId, "h", "head", "base", none, [("sp-1", filed.tip)], "op", at_⟩

/-- The record at each of its revisions. -/
def delivered : LifecycleRecord :=
  nextRecord filed (Bead.step filed.row (beadEvent filed.row .deliver "op" 6)) 6

def ejected : LifecycleRecord :=
  nextRecord delivered
    (Bead.step delivered.row (beadEvent delivered.row (.requeued filed.tip) "op" 7)) 7

def recut : LifecycleRecord :=
  nextRecord ejected (Bead.step ejected.row (beadEvent ejected.row .deliver "op" 8)) 8

/-- The delivery at each of its revisions. -/
def batched : DeliveryRow :=
  Delivery.step (.startQueue "sp-1") (deliveryEvent (.startQueue "sp-1") (.cut "b1") "op")

def exited : DeliveryRow :=
  Delivery.step batched (deliveryEvent batched (.requeued filed.tip) "op")

def requeued : DeliveryRow := { DeliveryRow.startQueue "sp-1" with version := exited.version + 1 }

def rebatched : DeliveryRow := Delivery.step requeued (deliveryEvent requeued (.cut "b2") "op")

/-- When the delivery entered each of its states. -/
def batchedAt : Entered := (({} : Entered).insert "QUEUED" 6).insert "BATCHED" 6

def exitedAt : Entered := batchedAt.insert "EXITED" 7

def rebatchedAt : Entered := (exitedAt.insert "QUEUED" 8).insert "BATCHED" 8

def eject : BatchEvent := ⟨.open, 1, .eject "sp-1" "why", "op"⟩

def abandon : BatchEvent := ⟨.open, 2, .abandon "why", "op"⟩

/-- Each round as it is cut. -/
def opened (batchId : String) (at_ : Int) : BatchRecord :=
  ⟨{ BatchRow.cut batchId "h" "head" "base" with version := 1 }, [⟨"sp-1", filed.tip⟩], at_, ∅⟩

def ejectedFrom : BatchRecord :=
  { opened "b1" 6 with row := (Batch.apply (opened "b1" 6).row eject).row }

/-- What the machine of the bead has in its history when `b1` is abandoned. -/
def history : List Audit :=
  let audit (kind : BeadEventKind) (at_ : Int) := machineAudit "bead" "sp-1" "" "" "" none (.bead kind) "op" at_
  [audit (.submit filed.tip) 5, audit .deliver 6, audit (.requeued filed.tip) 7, audit .deliver 8]

/-- What is read of the bead, cut by cut. -/
def filedItems : List (Item Value) := [recordItem filed ⟨1, 0⟩ ⟨1, 0⟩, gateItem filed ⟨1, 1⟩ ⟨1, 1⟩]

def firstItems : List (Item Value) :=
  [recordItem delivered ⟨2, 2⟩ ⟨1, 0⟩, deliveryItem batched batchedAt ⟨2, 3⟩ ⟨2, 3⟩,
    gateItem delivered ⟨2, 4⟩ ⟨1, 1⟩]

def ejectedItems : List (Item Value) :=
  [recordItem ejected ⟨3, 1⟩ ⟨1, 0⟩, deliveryItem exited exitedAt ⟨3, 2⟩ ⟨2, 3⟩,
    gateItem ejected ⟨3, 3⟩ ⟨1, 1⟩]

def secondItems : List (Item Value) :=
  [recordItem recut ⟨4, 2⟩ ⟨1, 0⟩, deliveryItem rebatched rebatchedAt ⟨4, 3⟩ ⟨2, 3⟩,
    gateItem recut ⟨4, 4⟩ ⟨1, 1⟩]

def index : Item Value := indexItem (opened "b1" 6) ⟨2, 0⟩

def openedItem : Item Value := roundItem (opened "b1" 6) ⟨2, 1⟩ ⟨2, 1⟩

def ejectedFromItem : Item Value := roundItem ejectedFrom ⟨3, 0⟩ ⟨2, 1⟩

def cutIssue : Issue := issue (.cut (cutOf "b1" 6)) "cut" filedItems [] "r1" 1

def ejectIssue : Issue :=
  issue (.eject "b1" "sp-1" eject 7) "eject" (index :: openedItem :: firstItems) [] "r2" 2

def recutIssue : Issue := issue (.cut (cutOf "b2" 8)) "cut" ejectedItems [] "r3" 3

def abandonIssue : Issue :=
  issue (.abandon "b1" abandon 9) "abandon" (index :: ejectedFromItem :: secondItems) history "r4" 4

def calls : List (Option (Call Value) × ℕ) :=
  [(createCall (View.only []) "sp-1" filed (some filed.tip) ⟨"r0", "op", "k", none⟩ 0, 11),
    (cutIssue.call, 16), (ejectIssue.call, 16), (recutIssue.call, 16), (abandonIssue.call, 16)]

def items : List (Item Value) :=
  filedItems ++ index :: openedItem :: firstItems ++ ejectedItems ++ ejectedFromItem :: secondItems

def turns : List (Turn Env ℕ (Call Value)) := oneByOne calls

/-- The run, evaluated: each call is made when the one before it is done, the items are those that
were read, and the abandonment of `b1` is committed last, with the delivery in `b2` before and out
of it after. -/
theorem world_ends :
    (Pool.started World.env World.reopen (call stillConfig 1) ⟨World.init Value, []⟩
      turns).map (·.2.store.head) = List.range 5 ∧
    (∀ i ∈ items, (worldAt stillConfig 1 turns).itemAt i.modRev.main i.key = some i) ∧
    (∃ k ∈ commits (worldAt stillConfig 1 turns).trace,
      (∃ call ∈ abandonIssue.call, k.author = .call call) ∧ k.ok = true ∧ k.head = 4) ∧
    recordOf DeliveryRow ((worldAt stillConfig 1 turns).itemAt 4) (Keys.delivery "sp-1") =
      some rebatched ∧
    recordOf DeliveryRow ((worldAt stillConfig 1 turns).itemAt 5) (Keys.delivery "sp-1") =
      some (Delivery.step rebatched (deliveryEvent rebatched (.requeued filed.tip) "op")) := by
  decide +kernel

theorem reads_abandon : abandonIssue.reads.Of (worldAt stillConfig 1 turns) :=
  issue_reads (Reads.only_of (fun i hi ↦ world_ends.2.1 i (by
    simp only [items, secondItems, List.mem_append, List.mem_cons] at hi ⊢
    tauto)) (by decide))

theorem controlRun : ControlRun 1000 stillConfig 1 turns := by
  refine controlRun_oneByOne world_ends.1 fun j p hp call w hcall hg hhead ↦ ?_
  -- What is read at its place is there by then.
  have hreads {l : List (Item Value)} (hl : l ⊆ items) (hle : ∀ i ∈ l, i.modRev.main ≤ j)
      (ho : inOrder l) : (Reads.only l).Of w :=
    Reads.only_of_grows world_ends.2.1 hg hl (hhead ▸ hle) ho
  match j with
  | 0 =>
    obtain rfl := Option.some.inj hp
    exact .create (hreads (l := []) (by simp) (by simp) rfl).view hcall
  | 1 =>
    obtain rfl := Option.some.inj hp
    exact .round (i := cutIssue) (issue_reads (hreads (by simp [items]) (by decide) (by decide))) hcall
  | 2 =>
    obtain rfl := Option.some.inj hp
    exact .round (i := ejectIssue)
      (issue_reads (hreads (by simp [items, firstItems]) (by decide) (by decide))) hcall
  | 3 =>
    obtain rfl := Option.some.inj hp
    exact .round (i := recutIssue)
      (issue_reads (hreads (by simp [items, ejectedItems]) (by decide) (by decide))) hcall
  | 4 =>
    obtain rfl := Option.some.inj hp
    exact .round (i := abandonIssue)
      (issue_reads (hreads (by simp [items, secondItems]) (by decide) (by decide))) hcall
  | n + 5 => cases hp

theorem commits_abandonment : ∃ c k, Commits stillConfig 1 turns abandonIssue c k ∧ k.head = 4 := by
  obtain ⟨-, -, ⟨k, hk, hauthor, hok, hhead⟩, -⟩ := world_ends
  have hplans : abandonIssue.cascade.toOption.isSome = true := by decide
  obtain ⟨c, hc⟩ := commits_of reads_abandon hplans hk hauthor hok
  exact ⟨c, k, hc, hhead⟩

/-- The delivery is BATCHED in `b2`, and is moved. -/
theorem not_keepsTo : ¬ KeepsTo ((worldAt stillConfig 1 turns).itemAt 4)
    ((worldAt stillConfig 1 turns).itemAt 5) "b1" := by
  obtain ⟨-, -, -, hbefore, hafter⟩ := world_ends
  intro h
  obtain ⟨d, hd, hstill⟩ := h "sp-1" (.inr (by rw [hbefore, hafter]; decide))
  rw [hbefore] at hd
  rw [← Option.some.inj hd] at hstill
  revert hstill
  decide

end Recut

/-- **Abandoning a round takes a member it ejected out of the round the member is in now.** -/
theorem abandon_moves_recut : ∃ (cfg : Config Value) (fuel : ℕ)
    (turns : List (Turn Env ℕ (Call Value))) (i : Issue) (c : Cascade) (k : Committed Value),
    ControlRun 1000 cfg fuel turns ∧ Commits cfg fuel turns i c k ∧ i.command.carries "b1" "op" ∧
    ¬ KeepsTo ((worldAt cfg fuel turns).itemAt k.head) ((worldAt cfg fuel turns).itemAt (k.head + 1))
      "b1" ∧
    ∃ d, recordOf DeliveryRow ((worldAt cfg fuel turns).itemAt k.head) (Keys.delivery "sp-1") = some d ∧
      stillInBatch d "b2" = true ∧ Moves ((worldAt cfg fuel turns).itemAt k.head)
        ((worldAt cfg fuel turns).itemAt (k.head + 1)) "sp-1" := by
  obtain ⟨c, k, hc, hhead⟩ := Recut.commits_abandonment
  obtain ⟨-, -, -, hbefore, hafter⟩ := Recut.world_ends
  refine ⟨_, _, _, _, c, k, Recut.controlRun, hc, ⟨rfl, rfl⟩, ?_, Recut.rebatched, ?_⟩
  · rw [hhead]
    exact Recut.not_keepsTo
  · rw [hhead]
    exact ⟨hbefore, by decide, .inr (by rw [hafter, hbefore]; decide)⟩

/-- The abandonment does not keep to its round, as the member it carries out is not in it. -/
theorem keepsTo_iff_recut : ∃ c k, Commits stillConfig 1 Recut.turns Recut.abandonIssue c k ∧
    ¬ ∀ key rec, Found Recut.abandonIssue.reads "b1" key rec →
      ∀ e ∈ Recut.abandonIssue.command.exits Recut.abandonIssue.reads rec,
        Takes Recut.abandonIssue.reads.view "op" e.1 e.2 →
          StillIn ((worldAt stillConfig 1 Recut.turns).itemAt k.head) "b1" e.1 := by
  obtain ⟨c, k, hc, hhead⟩ := Recut.commits_abandonment
  refine ⟨c, k, hc, fun hcond ↦ ?_⟩
  have hkeeps := (keepsTo_iff hc ⟨rfl, rfl⟩).mpr hcond
  rw [hhead] at hkeeps
  exact Recut.not_keepsTo hkeeps

end Spira.Control
