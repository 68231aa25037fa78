import Spira.Control.Dependents
import Spira.Control.RoundKeys

/-!
# What every part of a plan keeps

A plan reads, puts records, and adds audits; whatever each of these keeps, the plan of every
command keeps (`command_keeps`).  A command has a scope: the members it may step, the other keys
it may put, and the round that its audits may name beside the members.  An audit of a delivery
comes before the write of the delivery, so between the two the delivery is pending.

A plan that is refused by a machine has its refusal audited, and that audit is of nothing applied
(`command_refuses`).
-/

set_option autoImplicit false

namespace Spira.Control

open Spira.Bead Spira.Batch Spira.Delivery Store Stopping Cascade
open KeyPrefix (starts)

/-! ## Scopes -/

/-- What the plan of a command may be about. -/
structure Scope where
  /-- The beads it may step. -/
  members : List String
  /-- The keys it may put besides those of its members. -/
  keys : List String
  /-- The round its audits may name. -/
  round : List String

/-- The key that the index of a round gives it. -/
def roundKey (r : Reads) (id : String) : Option String :=
  (recordOf BatchIndex r.before (Keys.batchIndex id)).map fun ix ↦ Keys.batch ix.repo id

/-- The round as a cascade reads it. -/
def foundRound (r : Reads) (id : String) : Option BatchRecord :=
  (roundKey r id).bind (recordOf BatchRecord r.view)

/-- The round as it is looked up before the cascade reads it. -/
def lookedRound (r : Reads) (id : String) : Option BatchRecord :=
  (roundKey r id).bind (recordOf BatchRecord r.before)

/-- The round that a step finds where it was looked up. -/
def steppedRound (r : Reads) (id : String) : Option BatchRecord :=
  (foundRound r id).or (lookedRound r id)

def beadsOfRound (rec : Option BatchRecord) : List String :=
  (rec.map (·.members.map (·.beadId))).getD []

def Command.scope (r : Reads) : Command → Scope
  | .cut c | .stage c =>
    ⟨c.members.map (·.1), [Keys.batch c.repo c.batchId, Keys.batchIndex c.batchId], [c.batchId]⟩
  | .stack id members _ _ =>
    ⟨members.map (·.1), (roundKey r id).toList, (foundRound r id).toList.map (·.row.batchId)⟩
  | .promote id _ _ _ _ | .settle id _ _ _ _ | .abandon id _ _ | .eject id _ _ _ =>
    ⟨beadsOfRound (foundRound r id), (roundKey r id).toList,
      (foundRound r id).toList.map (·.row.batchId)⟩
  | .land id _ _ =>
    ⟨beadsOfRound (lookedRound r id), (roundKey r id).toList,
      (steppedRound r id).toList.map (·.row.batchId)⟩
  | .batchEvent id ev _ =>
    ⟨[], (roundKey r id).toList ++
        match ev.kind with
        | .failed suite n => [Keys.mending (Mending.key id n suite)]
        | _ => [],
      (steppedRound r id).toList.map (·.row.batchId)⟩
  | .deliveryEvent id _ _ => ⟨[id], [], []⟩

/-- What may be put that is no delivery. -/
def Scope.Puts (s : Scope) (key : String) : Prop :=
  key ∈ s.keys ∨ ∃ id ∈ s.members, key = Keys.lifecycle id ∨ key = Keys.gate id

section Scope

variable {r : Reads} {id key : String} {rec : BatchRecord}

theorem Found.roundKey (h : Found r id key rec) : roundKey r id = some key := by
  obtain ⟨i, hi, ix, hd, rfl⟩ := h.index
  rw [Control.roundKey, recordOf_some.mpr ⟨i, hi, hd⟩]
  rfl

theorem Looked.roundKey (h : Looked r id key rec) : roundKey r id = some key := by
  obtain ⟨i, hi, ix, hd, rfl⟩ := h.index
  rw [Control.roundKey, recordOf_some.mpr ⟨i, hi, hd⟩]
  rfl

theorem Found.foundRound (h : Found r id key rec) : foundRound r id = some rec := by
  rw [Control.foundRound, h.roundKey, Option.bind_some]
  exact h.round

theorem Looked.lookedRound (h : Looked r id key rec) : lookedRound r id = some rec := by
  rw [Control.lookedRound, h.roundKey, Option.bind_some]
  exact recordOf_some.mpr h.round

/-- What a step finds where a round was looked up. -/
theorem Looked.steppedRound (h : Looked r id key rec) :
    steppedRound r id = some ((recordOf BatchRecord r.view key).getD rec) := by
  rw [Control.steppedRound, h.lookedRound, Control.foundRound, h.roundKey, Option.bind_some]
  cases recordOf BatchRecord r.view key <;> rfl

/-- No key of a scope but its members' is a delivery's. -/
theorem not_delivery_of_puts {command : Command} (h : (command.scope r).Puts key) (id : String) :
    key ≠ Keys.delivery id := by
  have hround {id' : String} (hk : key ∈ (roundKey r id').toList) : key ≠ Keys.delivery id := by
    obtain ⟨ix, -, rfl⟩ := Option.map_eq_some_iff.mp (Option.mem_toList.mp hk)
    exact Keys.ne_of_starts (Keys.starts_batch _ _) (Keys.starts_delivery id) (by decide) (by decide)
  have hnew {repo id' : String} (hk : key ∈ [Keys.batch repo id', Keys.batchIndex id']) :
      key ≠ Keys.delivery id := by
    simp only [List.mem_cons, List.not_mem_nil, or_false] at hk
    obtain rfl | rfl := hk
    · exact Keys.ne_of_starts (Keys.starts_batch _ _) (Keys.starts_delivery id) (by decide) (by decide)
    · exact Keys.ne_of_starts (Keys.starts_batchIndex _) (Keys.starts_delivery id) (by decide)
        (by decide)
  obtain hk | ⟨id', -, rfl | rfl⟩ := h
  · cases command with
    | cut | stage => exact hnew hk
    | stack | promote | settle | abandon | eject | land => exact hround hk
    | batchEvent id' ev at_ =>
      obtain hk | hk := List.mem_append.mp hk
      · exact hround hk
      · split at hk
        · rw [List.mem_singleton.mp hk]
          exact Keys.ne_of_starts (Keys.starts_mending _) (Keys.starts_delivery id) (by decide)
            (by decide)
        · cases hk
    | deliveryEvent => cases hk
  · exact Keys.ne_of_starts (Keys.starts_lifecycle id') (Keys.starts_delivery id) (by decide) (by decide)
  · exact Keys.ne_of_starts (Keys.starts_gate id') (Keys.starts_delivery id) (by decide) (by decide)

end Scope

section Audits

variable {view : View} {c : Cascade} {key : String} {T : Type} [Stored T]

theorem slot_audits :
    Ends (slot view key) c fun _ c' ↦ c'.then_ = c.then_ ∧ c'.els = c.els := by
  intro s c' hx
  rw [slot] at hx
  split at hx <;> obtain ⟨-, rfl⟩ := Prod.mk.inj (Except.ok.inj hx) <;> exact ⟨rfl, rfl⟩

/-- Reading leaves the audits. -/
theorem get_audits :
    Ends (Cascade.get view key : Plan (Option T)) c fun _ c' ↦ c'.then_ = c.then_ ∧ c'.els = c.els := by
  refine ends_bind (slot_audits.imp fun _ _ h ↦ ?_)
  split
  · exact ends_pure h
  · split
    · exact ends_pure h
    · exact ends_throw

/-- A write leaves the audits. -/
theorem put_audits {v : T} {owners : List String} :
    Ends (Cascade.put view key v owners) c fun _ c' ↦ c'.then_ = c.then_ ∧ c'.els = c.els :=
  ends_bind (slot_audits.imp fun _ _ h ↦ ends_modify h)

end Audits

/-! ## What is kept -/

/-- `I` is kept by each thing that a plan in the scope does.  `J id` is what is kept while the
delivery of `id` is pending: an audit of it is there, and its write is to come. -/
structure Keeps (r : Reads) (s : Scope) (I : Cascade → Prop) (J : String → Cascade → Prop) : Prop where
  get : ∀ {T : Type} [Stored T] {key : String} {c : Cascade}, I c →
    Ends (Cascade.get r.view key : Plan (Option T)) c fun _ c' ↦ I c'
  put : ∀ {T : Type} [Stored T] {key : String} {v : T} {owners : List String} {c : Cascade},
    s.Puts key → I c → Ends (Cascade.put r.view key v owners) c fun _ c' ↦ I c'
  step : ∀ {a : Audit} {c : Cascade}, a.machine ≠ "delivery" → a.lcKey ∈ s.members ++ s.round → I c →
    Ends (Cascade.step a) c fun _ c' ↦ I c'
  named : ∀ {id prereq : String} {c : Cascade}, I c →
    Ends (Cascade.namePrerequisite id prereq) c fun _ c' ↦ I c'
  pending : ∀ {id : String} {c : Cascade}, I c → J id c
  noteDelivery : ∀ {a : Audit} {c : Cascade}, a.lcKey ∈ s.members → J a.lcKey c →
    Ends (Cascade.note a) c fun _ c' ↦ J a.lcKey c'
  stepDelivery : ∀ {a : Audit} {c : Cascade}, a.lcKey ∈ s.members → J a.lcKey c →
    Ends (Cascade.step a) c fun _ c' ↦ J a.lcKey c'
  putDelivery : ∀ {id : String} {row : DeliveryRow} {owners : List String} {c : Cascade},
    id ∈ s.members → J id c → Ends (Cascade.put r.view (Keys.delivery id) row owners) c fun _ c' ↦ I c'

section Keeps

variable {r : Reads} {s : Scope} {I : Cascade → Prop} {J : String → Cascade → Prop} {c : Cascade}
  {id actor verb : String} {at_ : Int}

theorem keeps_forM {α : Type} {l : List α} {f : α → Plan Unit} (h : I c)
    (hf : ∀ a ∈ l, ∀ c, I c → Ends (f a) c fun _ c' ↦ I c') :
    Ends (l.forM f) c fun _ c' ↦ I c' :=
  ends_forM (I := fun _ c' ↦ I c') h fun done a rest hl c' hc' ↦ hf a (by simp [hl]) c' hc'

variable (hk : Keeps r s I J)

include hk

theorem beadStep_keeps {kind : BeadEventKind} (hid : id ∈ s.members) (h : I c) :
    Ends (beadStep r id kind actor at_) c fun _ c' ↦ I c' := by
  refine ends_bind ((hk.get h).imp fun a c₁ h₁ ↦ ?_)
  cases a with
  | none => exact ends_pure h₁
  | some cur =>
    refine ends_ite (fun _ ↦ ends_pure h₁) fun _ ↦ ?_
    refine ends_bind ((hk.step (by decide : "bead" ≠ "delivery") (List.mem_append_left _ hid) h₁).imp
      fun _ c₂ h₂ ↦ ends_bind ((hk.put (.inr ⟨id, hid, .inl rfl⟩) h₂).imp fun _ c₃ h₃ ↦
        ends_bind ((hk.get h₃).imp fun g c₄ h₄ ↦ ?_)))
    refine ends_ite (fun _ ↦ ?_) fun _ ↦ ends_pure h₄
    exact ends_bind ((hk.put (.inr ⟨id, hid, .inr rfl⟩) h₄).imp fun _ c₅ h₅ ↦ ends_pure h₅)

/-- A delivery's step is refused, or leaves nothing pending. -/
theorem deliveryStep_pending {row : DeliveryRow} {kind : DeliveryEventKind}
    (hid : id ∈ s.members) (h : J id c) :
    Ends (deliveryStep r id row kind actor at_) c fun a c' ↦ (a = none ∧ c' = c) ∨ a.isSome ∧ I c' := by
  refine ends_ite (fun _ ↦ ends_pure (.inl ⟨rfl, rfl⟩)) fun _ ↦ ?_
  refine ends_bind (Ends.imp (hk.stepDelivery hid h) fun _ c₁ h₁ ↦ ?_)
  exact ends_bind ((hk.putDelivery hid h₁).imp fun _ c₂ h₂ ↦ ends_pure (.inr ⟨rfl, h₂⟩))

theorem deliveryStep_keeps {row : DeliveryRow} {kind : DeliveryEventKind} (hid : id ∈ s.members)
    (h : I c) : Ends (deliveryStep r id row kind actor at_) c fun _ c' ↦ I c' := by
  refine (deliveryStep_pending hk hid (hk.pending h)).imp fun a c' hstep ↦ ?_
  obtain ⟨-, rfl⟩ | ⟨-, h'⟩ := hstep
  · exact h
  · exact h'

/-- A round's step is of the round it finds. -/
theorem batchStep_keeps {key : String} {stored : BatchRecord} {ev : BatchEvent} (hkey : key ∈ s.keys)
    (hround : ((rowOf BatchRecord (c.planned r.view) key).getD stored).row.batchId ∈ s.round)
    (hs : Sound r.view c) (h : I c) :
    Ends (batchStep r key stored ev at_) c fun next c' ↦ I c' ∧ next.row.batchId ∈ s.round := by
  have hread : Ends (Cascade.get r.view key : Plan (Option BatchRecord)) c fun a c₁ ↦
      I c₁ ∧ a = rowOf BatchRecord (c.planned r.view) key :=
    ((hk.get h).and (get_looks hs)).imp fun _ _ ⟨h₁, _, ha, _⟩ ↦ ⟨h₁, ha⟩
  refine ends_bind (hread.imp fun a c₁ ⟨h₁, ha⟩ ↦ ?_)
  subst ha
  refine ends_ite (fun _ ↦ ends_throw) fun happlied ↦ ?_
  obtain ⟨hid, -⟩ := batch_identity (by simpa using happlied)
  refine ends_bind (Ends.imp (hk.step (by decide : "batch" ≠ "delivery")
    (List.mem_append_right _ hround) h₁) fun _ c₂ h₂ ↦ ?_)
  exact ends_bind ((hk.put (.inl hkey) h₂).imp fun _ c₃ h₃ ↦ ends_pure ⟨h₃, hid.symm ▸ hround⟩)

/-! ## Bringing members in -/

theorem admitRecords_keeps {members : List (String × String)} {allowSubmitted : Bool} (h : I c) :
    Ends (admitRecords r members allowSubmitted) c fun _ c' ↦ I c' := by
  refine keeps_forM h fun p _ c₁ h₁ ↦ ends_ite (fun _ ↦ ends_throw) fun _ ↦
    ends_bind ((hk.get h₁).imp fun a c₂ h₂ ↦ ?_)
  cases a with
  | none => exact ends_throw
  | some rec => exact ends_ite (fun _ ↦ ends_throw) fun _ ↦ ends_ite (fun _ ↦ ends_throw) fun _ ↦ ends_pure h₂

theorem admitted_keeps {members : List (String × String)} {allowSubmitted : Bool} (h : I c) :
    Ends (admitted r members allowSubmitted) c fun _ c' ↦ I c' := by
  refine ends_bind ((admitRecords_keeps hk h).imp fun _ c₁ h₁ ↦ ends_bind (Ends.imp
    (ends_foldlM (I := fun _ _ c' ↦ I c') h₁ fun _ _ _ _ _ _ h₂ ↦
      ends_bind ((hk.get h₂).imp fun _ _ h₃ ↦ ends_pure h₃)) fun ds c₂ h₂ ↦ ?_))
  refine ends_bind ((keeps_forM h₂ fun p _ c₃ h₃ ↦ ?_).imp fun _ c₃ h₃ ↦ ends_pure h₃)
  rw [admitDelivery.eq_def]
  split
  · exact ends_pure h₃
  · split
    · exact ends_pure h₃
    · exact ends_pure h₃
    · exact ends_throw
    · exact ends_throw

theorem planMember_keeps {round : BatchRow} {m : (String × String) × Option DeliveryRow}
    (hid : m.1.1 ∈ s.members) (hround : round.batchId ∈ s.round) (h : I c) :
    Ends (planMember r actor at_ verb round m) c fun row c' ↦ I c' ∧ row.batchId ∈ s.round := by
  obtain ⟨⟨id, tip⟩, delivery⟩ := m
  refine ends_ite (fun _ ↦ ends_throw) fun hadded ↦ ?_
  obtain ⟨hbatchId, -⟩ := batch_identity (by simpa using hadded)
  refine ends_bind (Ends.imp (hk.step (by decide : "batch" ≠ "delivery")
    (List.mem_append_right _ hround) h) fun _ c₁ h₁ ↦
      ends_bind ((beadStep_keeps hk hid h₁).imp fun a c₂ h₂ ↦ ?_))
  cases a with
  | error e => exact ends_throw
  | ok _ =>
    have hcut {queued : DeliveryRow} {kind : DeliveryEventKind} {row : BatchRow} {c₃ : Cascade}
        {text : String} (hrow : row.batchId ∈ s.round) (h₃ : J id c₃) :
        Ends (mustStep r id queued kind actor at_ text row) c₃ fun row c' ↦
          I c' ∧ row.batchId ∈ s.round :=
      ends_bind ((deliveryStep_pending hk hid h₃).imp fun b c₄ hstep ↦ by
        obtain ⟨rfl, -⟩ | ⟨hb, h₄⟩ := hstep
        · exact ends_throw
        · obtain ⟨_, rfl⟩ := Option.isSome_iff_exists.mp hb
          exact ends_pure ⟨h₄, hrow⟩)
    have hrow := hbatchId.symm ▸ hround
    cases delivery with
    | none =>
      exact ends_bind (Ends.imp (hk.noteDelivery hid (hk.pending h₂)) fun _ c₃ h₃ ↦
        ends_bind (ends_pure (hcut hrow h₃)))
    | some d =>
      refine ends_ite (fun _ ↦ ?_) fun _ ↦ ends_bind (ends_pure (hcut hrow (hk.pending h₂)))
      exact ends_bind (Ends.imp (hk.stepDelivery hid (hk.pending h₂)) fun _ c₃ h₃ ↦
        ends_bind (ends_pure (hcut hrow h₃)))

theorem planMembers_keeps {members : List (String × String)} {deliveries : List (Option DeliveryRow)}
    {round : BatchRow} (hids : ∀ m ∈ members, m.1 ∈ s.members) (hround : round.batchId ∈ s.round)
    (h : I c) :
    Ends (planMembers r round members deliveries actor at_ verb) c fun row c' ↦
      I c' ∧ row.batchId ∈ s.round :=
  ends_foldlM (I := fun _ (row : BatchRow) c' ↦ I c' ∧ row.batchId ∈ s.round) ⟨h, hround⟩
    fun done p rest hl row c₁ ⟨h₁, hrow⟩ ↦ by
      have hp : p ∈ members.zip deliveries := hl ▸ by simp
      exact planMember_keeps hk (hids _ (List.of_mem_zip hp).1) hrow h₁

/-! ## Taking members out -/

theorem exit_keeps {kind : DeliveryEventKind} (hid : id ∈ s.members) (h : I c) :
    Ends (exit r id kind actor at_) c fun _ c' ↦ I c' := by
  have hthen {beadKind : BeadEventKind} :
      Ends (exitAs r id kind beadKind actor at_) c fun _ c' ↦ I c' := by
    have hbead {c₁ : Cascade} (h₁ : I c₁) :
        Ends (do let _ ← beadStep r id beadKind actor at_) c₁ fun _ c' ↦ I c' :=
      ends_bind ((beadStep_keeps hk hid h₁).imp fun _ _ h₂ ↦ ends_pure h₂)
    refine ends_bind ((hk.get h).imp fun a c₁ h₁ ↦ ?_)
    cases a with
    | none => exact hbead h₁
    | some d => exact ends_bind ((deliveryStep_keeps hk hid h₁).imp fun _ c₂ h₂ ↦ hbead h₂)
  cases kind with
  | returned reason => exact hthen
  | requeued tip => exact hthen
  | _ => exact ends_bind ends_throw

theorem withdraw_keeps {withdrawn : List (String × String)}
    (hids : ∀ p ∈ withdrawn, p.1 ∈ s.members) (h : I c) :
    Ends (withdraw r withdrawn actor at_) c fun _ c' ↦ I c' :=
  keeps_forM h fun p hp _ h₁ ↦ ends_bind ((exit_keeps hk (hids p hp) h₁).imp fun _ _ h₂ ↦ hk.named h₂)

/-- Every dependent is a member of the round. -/
theorem stackedDependents_keeps {rec : BatchRecord} {roots : List String} (h : I c) :
    Ends (stackedDependents r rec roots) c fun a c' ↦ I c' ∧
      ∀ p ∈ a, p.1 ∈ rec.members.map (·.beadId) := by
  refine ends_bind (Ends.imp (ends_foldlM (I := fun part (memberStacks : List (String × BeadRow)) c' ↦
      I c' ∧ ∀ p ∈ memberStacks, p.1 ∈ part.map Prod.fst) ⟨h, by simp⟩
    fun part m rest _ memberStacks c₁ ⟨h₁, hm⟩ ↦ ?_) fun memberStacks c₂ ⟨h₂, hm⟩ ↦ ends_pure ⟨h₂, ?_⟩)
  · have hpart : ∀ p ∈ memberStacks, p.1 ∈ (part ++ [m]).map Prod.fst := fun p hp ↦ by
      rw [List.map_append]
      exact List.mem_append_left _ (hm p hp)
    refine ends_bind ((hk.get h₁).imp fun a c₂ h₂ ↦ ?_)
    cases a with
    | none => exact ends_pure ⟨h₂, hpart⟩
    | some l =>
      refine ends_pure ⟨h₂, fun p hp ↦ ?_⟩
      obtain hp | hp := List.mem_append.mp hp
      · exact hpart p hp
      · rw [List.mem_singleton.mp hp]
        simp
  · intro p hp
    obtain ⟨-, root, -, hlead⟩ := stackedDependents_iff.mp (List.mem_map_of_mem (f := Prod.fst) hp)
    obtain ⟨_, -, row, hmem, -⟩ := Relation.TransGen.tail'_iff.mp hlead
    have hfst := hm _ hmem
    rwa [pairs, List.map_map] at hfst

theorem landMember_keeps {m : Member} {round sha : String} (hid : m.beadId ∈ s.members) (h : I c) :
    Ends (landMember r round sha actor at_ m) c fun _ c' ↦ I c' := by
  refine ends_bind ((hk.get h).imp fun a c₁ h₁ ↦ ?_)
  cases a with
  | none => exact ends_pure h₁
  | some d =>
    exact ends_ite (fun _ ↦ ends_pure h₁) fun _ ↦ ends_bind ((deliveryStep_keeps hk hid h₁).imp
      fun _ c₂ h₂ ↦ ends_bind ((beadStep_keeps hk hid h₂).imp fun _ c₃ h₃ ↦ ends_pure h₃))

/-! ## The commands -/

omit hk in
theorem overCap_keeps {n : ℕ} (h : I c) : Ends (overCap verb n) c fun _ c' ↦ I c' :=
  ends_ite (fun _ ↦ ends_throw) fun _ ↦ ends_pure h

theorem newRound_keeps {repo : String} (h : I c) :
    Ends (newRound r repo id) c fun _ c' ↦ I c' :=
  ends_bind ((hk.get h).imp fun _ _ h₁ ↦ ends_bind ((hk.get h₁).imp fun _ _ h₂ ↦ ends_pure h₂))

/-- The key of a new round, and nothing yet planned. -/
theorem newRound_starts {repo : String} (h : I c) (hs : Sound r.view c) :
    Ends (newRound r repo id) c fun a c' ↦ I c' ∧ Looks r.view c c' ∧
      ∀ key, a = some key → key = Keys.batch repo id :=
  ((newRound_keeps hk h).and (newRound_ends hs)).imp fun _ _ ⟨h₁, hl, hkey⟩ ↦
    ⟨h₁, hl, fun key ha ↦ (hkey key ha).1⟩

/-- A round that is read, and nothing yet planned. -/
theorem round_starts (h : I {}) :
    Ends (round r id) {} fun a c ↦ I c ∧ Looks r.view {} c ∧
      ∀ key rec, a = some (key, rec) → Found r id key rec := by
  have hreads : Ends (round r id) {} fun _ c ↦ I c := by
    refine ends_bind (batch_ends.imp fun a c₁ ⟨hc, _⟩ ↦ ?_)
    subst hc
    obtain _ | ⟨key, rec⟩ := a
    · exact ends_pure h
    · exact ends_bind ((hk.get h).imp fun _ _ h₁ ↦ ends_pure h₁)
  exact (hreads.and round_looks).imp fun _ _ ⟨h₁, hl, hf⟩ ↦ ⟨h₁, hl, fun key rec ha ↦ (hf key rec ha).1⟩

theorem putRound_keeps {key : String} {rec : BatchRecord} (hkey : key ∈ s.keys)
    (hindex : Keys.batchIndex rec.row.batchId ∈ s.keys) (h : I c) :
    Ends (putRound r key rec) c fun _ c' ↦ I c' :=
  ends_bind ((hk.put (.inl hkey) h).imp fun _ _ h₁ ↦ hk.put (.inl hindex) h₁)

end Keeps

section Commands

variable {r : Reads} {s : Scope} {I : Cascade → Prop} {J : String → Cascade → Prop} {id : String}
  {ev : BatchEvent} {at_ : Int}

/-- The step of a round that was read, where nothing is planned yet. -/
theorem batchStep_found {c : Cascade} {key : String} {rec : BatchRecord} (hk : Keeps r s I J)
    (hf : Found r id key rec) (hl : Looks r.view {} c) (hkey : key ∈ s.keys)
    (hround : rec.row.batchId ∈ s.round) (h : I c) :
    Ends (batchStep r key rec ev at_) c fun next c' ↦ I c' ∧ next.row.batchId ∈ s.round := by
  refine batchStep_keeps hk hkey ?_ hl.sound h
  have hrow : rowOf BatchRecord (c.planned r.view) key = some rec := by
    rw [hl.planned, ← hf.round]
    exact rowOf_values r.view key
  rwa [hrow]

/-- The step of a round that was looked up. -/
theorem batchStep_looked {key : String} {rec : BatchRecord} (hk : Keeps r s I J)
    (hl : Looked r id key rec) (hkey : key ∈ s.keys)
    (hround : s.round = (steppedRound r id).toList.map (·.row.batchId)) (h : I {}) :
    Ends (batchStep r key rec ev at_) {} fun _ c' ↦ I c' := by
  refine (batchStep_keeps hk hkey ?_ (sound_empty _) h).imp fun _ _ h' ↦ h'.1
  rw [hround, hl.steppedRound, ← rowOf_values]
  exact List.mem_singleton_self _

theorem planCut_keeps {cut : Cut} (hk : Keeps r (Command.scope r (.cut cut)) I J) (h : I {}) :
    Ends (planCut r cut) {} fun _ c ↦ I c := by
  refine ends_bind (((overCap_keeps h).and (overCap_looks (sound_empty r.view))).imp
    fun _ c₁ ⟨h₁, hl₁⟩ ↦ ends_bind ((newRound_starts hk h₁ hl₁.sound).imp
      fun a c₂ ⟨h₂, _, hkey⟩ ↦ ?_))
  cases a with
  | none => exact ends_throw
  | some key =>
    obtain rfl := hkey key rfl
    refine ends_bind ((admitted_keeps hk h₂).imp fun ds c₃ h₃ ↦ ends_bind (Ends.imp
      (planMembers_keeps hk (fun m hm ↦ List.mem_map_of_mem hm)
        (by simp [Command.scope, BatchRow.cut]) h₃) fun row c₄ ⟨h₄, hrow⟩ ↦ ?_))
    obtain hrow : row.batchId = cut.batchId := List.mem_singleton.mp hrow
    exact putRound_keeps hk (by simp [Command.scope]) (by simp [Command.scope, hrow]) h₄

theorem planStage_keeps {cut : Cut} (hk : Keeps r (Command.scope r (.stage cut)) I J) (h : I {}) :
    Ends (planStage r cut) {} fun _ c ↦ I c := by
  refine ends_bind (((overCap_keeps h).and (overCap_looks (sound_empty r.view))).imp
    fun _ c₁ ⟨h₁, hl₁⟩ ↦ ends_bind ((newRound_starts hk h₁ hl₁.sound).imp
      fun a c₂ ⟨h₂, _, hkey⟩ ↦ ?_))
  cases a with
  | none => exact ends_throw
  | some key =>
    obtain rfl := hkey key rfl
    exact ends_bind ((admitRecords_keeps hk h₂).imp fun _ c₃ h₃ ↦ putRound_keeps hk
      (by simp [Command.scope]) (by simp [Command.scope, BatchRow.staged, BatchRow.cut]) h₃)

theorem planStack_keeps {members : List (String × String)} {actor : String}
    (hk : Keeps r (Command.scope r (.stack id members actor at_)) I J) (h : I {}) :
    Ends (planStack r id members actor at_) {} fun _ c ↦ I c := by
  refine ends_bind ((round_starts hk h).imp fun a c₁ ⟨h₁, _, hfound⟩ ↦ ?_)
  obtain _ | ⟨key, rec⟩ := a
  · exact ends_throw
  have hf := hfound key rec rfl
  refine ends_ite (fun _ ↦ ends_throw) fun _ ↦ ?_
  split
  · exact ends_throw
  refine ends_bind ((overCap_keeps h₁).imp fun _ c₂ h₂ ↦
    ends_bind ((admitted_keeps hk h₂).imp fun ds c₃ h₃ ↦ ?_))
  refine ends_bind (Ends.imp (planMembers_keeps hk (fun m hm ↦ List.mem_map_of_mem hm)
    (by simp [Command.scope, hf.foundRound]) h₃) fun row c₄ ⟨h₄, _⟩ ↦ ?_)
  exact hk.put (.inl (by simp [Command.scope, hf.roundKey])) h₄

theorem planPromote_keeps {head base actor : String}
    (hk : Keeps r (Command.scope r (.promote id head base actor at_)) I J) (h : I {}) :
    Ends (planPromote r id head base actor at_) {} fun _ c ↦ I c := by
  refine ends_bind ((round_starts hk h).imp fun a c₁ ⟨h₁, hl₁, hfound⟩ ↦ ?_)
  obtain _ | ⟨key, rec⟩ := a
  · exact ends_throw
  have hf := hfound key rec rfl
  refine ends_ite (fun _ ↦ ends_throw) fun _ ↦ ends_bind (Ends.imp
    ((admitted_keeps hk h₁).and (admitted_ends hl₁.sound)) fun ds c₂ ⟨h₂, hl₂, _⟩ ↦ ?_)
  refine ends_bind (Ends.imp (batchStep_found hk hf (hl₁.trans hl₂)
    (by simp [Command.scope, hf.roundKey]) (by simp [Command.scope, hf.foundRound]) h₂)
      fun next c₃ ⟨h₃, hnext⟩ ↦ ?_)
  have hids : ∀ m ∈ pairs rec.members, m.1 ∈ beadsOfRound (foundRound r id) := fun m hm ↦ by
    obtain ⟨x, hx, rfl⟩ := List.mem_map.mp hm
    rw [hf.foundRound]
    exact List.mem_map_of_mem hx
  refine ends_bind (Ends.imp (planMembers_keeps hk hids hnext h₃) fun row c₄ ⟨h₄, _⟩ ↦ ?_)
  exact hk.put (.inl (by simp [Command.scope, hf.roundKey])) h₄

theorem planSettle_keeps {ejected requeued : List String}
    (hk : Keeps r (Command.scope r (.settle id ev ejected requeued at_)) I J) (h : I {}) :
    Ends (planSettle r id ev ejected requeued at_) {} fun _ c ↦ I c := by
  refine ends_bind ((round_starts hk h).imp fun a c₁ ⟨h₁, hl₁, hfound⟩ ↦ ?_)
  obtain _ | ⟨key, rec⟩ := a
  · exact ends_throw
  have hf := hfound key rec rfl
  have hmember {b : String} (hb : b ∈ rec.members.map (·.beadId)) :
      b ∈ beadsOfRound (foundRound r id) := by
    rwa [hf.foundRound]
  refine ends_bind (Ends.imp (batchStep_found hk hf hl₁ (by simp [Command.scope, hf.roundKey])
    (by simp [Command.scope, hf.foundRound]) h₁) fun _ c₂ ⟨h₂, _⟩ ↦
      ends_bind ((stackedDependents_keeps hk h₂).imp fun deps c₃ ⟨h₃, hdeps⟩ ↦ ?_))
  refine ends_bind (Ends.imp (keeps_forM h₃ fun e he c hc ↦
    exit_keeps hk (hmember (mem_namedMembers.mp he).2) hc) fun _ c₄ h₄ ↦ ?_)
  refine ends_bind (Ends.imp (withdraw_keeps hk (fun p hp ↦
    hmember (hdeps p (List.mem_filter.mp hp).1)) h₄) fun _ c₅ h₅ ↦ keeps_forM h₅ fun m _ c hc ↦ ?_)
  cases hm : rec.members.find? (·.beadId = m) with
  | none => exact ends_pure hc
  | some member =>
    obtain rfl : member.beadId = m := by simpa using List.find?_some hm
    exact exit_keeps hk (hmember (List.mem_map_of_mem (List.mem_of_find?_eq_some hm))) hc

theorem planAbandon_keeps (hk : Keeps r (Command.scope r (.abandon id ev at_)) I J) (h : I {}) :
    Ends (planAbandon r id ev at_) {} fun _ c ↦ I c := by
  refine ends_bind ((round_starts hk h).imp fun a c₁ ⟨h₁, hl₁, hfound⟩ ↦ ?_)
  obtain _ | ⟨key, rec⟩ := a
  · exact ends_throw
  have hf := hfound key rec rfl
  refine ends_bind (Ends.imp (batchStep_found hk hf hl₁ (by simp [Command.scope, hf.roundKey])
    (by simp [Command.scope, hf.foundRound]) h₁) fun _ c₂ ⟨h₂, _⟩ ↦
      keeps_forM h₂ fun m hm c hc ↦ exit_keeps hk ?_ hc)
  show m.beadId ∈ beadsOfRound (foundRound r id)
  rw [hf.foundRound]
  exact List.mem_map_of_mem hm

theorem planEject_keeps {bead : String} (hk : Keeps r (Command.scope r (.eject id bead ev at_)) I J)
    (h : I {}) : Ends (planEject r id bead ev at_) {} fun _ c ↦ I c := by
  refine ends_bind ((round_starts hk h).imp fun a c₁ ⟨h₁, hl₁, hfound⟩ ↦ ?_)
  obtain _ | ⟨key, rec⟩ := a
  · exact ends_throw
  have hf := hfound key rec rfl
  have hmember {b : String} (hb : b ∈ rec.members.map (·.beadId)) :
      b ∈ beadsOfRound (foundRound r id) := by
    rwa [hf.foundRound]
  dsimp only
  split
  · exact ends_throw
  rename_i member hm
  obtain rfl : member.beadId = bead := by simpa using List.find?_some hm
  refine ends_bind (Ends.imp (batchStep_found hk hf hl₁ (by simp [Command.scope, hf.roundKey])
    (by simp [Command.scope, hf.foundRound]) h₁) fun _ c₂ ⟨h₂, _⟩ ↦
      ends_bind ((stackedDependents_keeps hk h₂).imp fun deps c₃ ⟨h₃, hdeps⟩ ↦ ?_))
  refine ends_bind (Ends.imp (exit_keeps hk
    (hmember (List.mem_map_of_mem (List.mem_of_find?_eq_some hm))) h₃) fun _ c₄ h₄ ↦ ?_)
  exact withdraw_keeps hk (fun p hp ↦ hmember (hdeps p hp)) h₄

theorem planLand_keeps (hk : Keeps r (Command.scope r (.land id ev at_)) I J) (h : I {}) :
    Ends (planLand r id ev at_) {} fun _ c ↦ I c := by
  rw [planLand]
  split
  · refine ends_bind (batch_ends.imp fun a c₁ hbatch ↦ ?_)
    obtain ⟨hc, hl⟩ := hbatch
    subst hc
    obtain _ | ⟨key, rec⟩ := a
    · exact ends_throw
    have hlooked := hl key rec rfl
    refine ends_bind (Ends.imp (batchStep_looked hk hlooked
      (by simp [Command.scope, hlooked.roundKey]) rfl h) fun _ c₂ h₂ ↦
        keeps_forM h₂ fun m hm c hc ↦ landMember_keeps hk ?_ hc)
    show m.beadId ∈ beadsOfRound (lookedRound r id)
    rw [hlooked.lookedRound]
    exact List.mem_map_of_mem hm
  · exact ends_throw

theorem planBatchEvent_keeps (hk : Keeps r (Command.scope r (.batchEvent id ev at_)) I J) (h : I {}) :
    Ends (planBatchEvent r id ev at_) {} fun _ c ↦ I c := by
  refine ends_bind (batch_ends.imp fun a c₁ ⟨hc, hl⟩ ↦ ?_)
  subst hc
  obtain _ | ⟨key, rec⟩ := a
  · exact ends_throw
  have hlooked := hl key rec rfl
  refine ends_bind (Ends.imp (batchStep_looked hk hlooked
    (by simp [Command.scope, hlooked.roundKey]) rfl h) fun _ c₂ h₂ ↦ ?_)
  split
  · rename_i suite n hev
    exact hk.put (.inl (by simp [Command.scope, hev])) h₂
  · exact ends_pure h₂

theorem planDeliveryEvent_keeps {ev : DeliveryEvent}
    (hk : Keeps r (Command.scope r (.deliveryEvent id ev at_)) I J) (h : I {}) :
    Ends (planDeliveryEvent r id ev at_) {} fun _ c ↦ I c := by
  have hid : id ∈ (Command.scope r (.deliveryEvent id ev at_)).members := List.mem_singleton_self id
  refine ends_bind ((hk.get h).imp fun a c₁ h₁ ↦ ?_)
  cases a with
  | none => exact ends_throw
  | some cur =>
    exact ends_ite (fun _ ↦ ends_throw) fun _ ↦ ends_bind (Ends.imp
      (hk.stepDelivery hid (hk.pending h₁)) fun _ c₂ h₂ ↦ hk.putDelivery hid h₂)

/-- **Whatever each part of a plan keeps, the plan of a command keeps.** -/
theorem command_keeps (command : Command) (hk : Keeps r (command.scope r) I J) (h : I {}) :
    Ends (command.plan r) {} fun _ c ↦ I c := by
  cases command with
  | cut cut => exact planCut_keeps hk h
  | stage cut => exact planStage_keeps hk h
  | stack => exact planStack_keeps hk h
  | promote => exact planPromote_keeps hk h
  | settle => exact planSettle_keeps hk h
  | abandon => exact planAbandon_keeps hk h
  | eject => exact planEject_keeps hk h
  | land => exact planLand_keeps hk h
  | batchEvent => exact planBatchEvent_keeps hk h
  | deliveryEvent => exact planDeliveryEvent_keeps hk h

/-- The queue's fields are set in the write of a round, and leave the audits. -/
theorem withRound_fielded {view : View} {c c' : Cascade} {fields : Option (String × Fields)}
    (hs : Sound view c) (h : withRound c fields = .ok c') :
    Fielded view c c' ∧ c'.then_ = c.then_ ∧ c'.els = c.els := by
  rw [withRound.eq_def] at h
  split at h
  · obtain rfl := Except.ok.inj h
    exact ⟨⟨hs, rfl, fun _ ↦ .inl rfl⟩, rfl, rfl⟩
  · split at h
    · rename_i hset
      obtain rfl := Except.ok.inj h
      refine ⟨setRound_fielded hs hset, ?_⟩
      rw [setRound] at hset
      split at hset
      · cases hset
      · split at hset
        · obtain rfl := Option.some.inj hset
          exact ⟨rfl, rfl⟩
        · cases hset
    · cases h

/-- **What an issued command's cascade has kept**, up to the queue's fields. -/
theorem Issue.cascade_keeps {i : Issue} {c : Cascade} (h : i.cascade = .ok c)
    (hk : Keeps i.reads (i.command.scope i.reads) I J) (hstart : I {})
    (hsound : ∀ c, I c → Sound i.reads.view c) :
    ∃ c₀, I c₀ ∧ Fielded i.reads.view c₀ c ∧ c.then_ = c₀.then_ ∧ c.els = c₀.els := by
  rw [Issue.cascade] at h
  cases hp : (i.command.plan i.reads).run {} with
  | error e =>
    rw [hp] at h
    cases h
  | ok p =>
    rw [hp] at h
    have hi : I p.2 := command_keeps i.command hk hstart p.1 p.2 hp
    exact ⟨p.2, hi, withRound_fielded (hsound _ hi) h⟩

end Commands

/-! ## Refusals -/

/-- What a plan stops with has applied nothing. -/
def Stop.Unapplied (e : Stop) : Prop := ∀ a, e = .refuse a → a.applied = false

section Refusals

variable {r : Reads} {id key actor verb : String} {at_ : Int}

theorem stops_turned {α : Type} {t : Turned} :
    Stops Stop.Unapplied (throw (.turned t) : Plan α) :=
  stops_throw (by rintro a ⟨⟩)

theorem stops_error {α : Type} {e : Error Value} :
    Stops Stop.Unapplied (throw (.error e) : Plan α) :=
  stops_throw (by rintro a ⟨⟩)

/-- A refusal is audited under its name. -/
theorem stops_refuse {α : Type} {machine key expect from_ to_ name : String} {event : AuditEvent} :
    Stops Stop.Unapplied (throw (.refuse
      (machineAudit machine key expect from_ to_ (some name) event actor at_)) : Plan α) :=
  stops_throw (by rintro a ⟨⟩; rfl)

theorem slot_stops : Stops Stop.Unapplied (Cascade.slot r.view key) := by
  intro s e h
  rw [Cascade.slot] at h
  split at h <;> cases h

theorem get_stops {T : Type} [Stored T] :
    Stops Stop.Unapplied (Cascade.get r.view key : Plan (Option T)) := by
  refine stops_bind slot_stops fun s ↦ ?_
  split
  · exact stops_pure
  · split
    · exact stops_pure
    · exact stops_error

theorem put_stops {T : Type} [Stored T] {v : T} {owners : List String} :
    Stops Stop.Unapplied (Cascade.put r.view key v owners) :=
  stops_bind slot_stops fun _ ↦ stops_modify

theorem readBefore_stops {T : Type} [Stored T] :
    Stops Stop.Unapplied (readBefore r key : Plan (Option T)) := by
  rw [readBefore]
  split
  · exact stops_pure
  · split
    · exact stops_pure
    · exact stops_error

theorem batch_stops : Stops Stop.Unapplied (batch r id) := by
  refine stops_bind readBefore_stops fun a ↦ ?_
  cases a with
  | none => exact stops_pure
  | some ix => exact stops_bind readBefore_stops fun _ ↦ stops_pure

theorem round_stops : Stops Stop.Unapplied (round r id) := by
  refine stops_bind batch_stops fun a ↦ ?_
  cases a with
  | none => exact stops_pure
  | some p => exact stops_bind get_stops fun _ ↦ stops_pure

theorem batchStep_stops {stored : BatchRecord} {ev : BatchEvent} :
    Stops Stop.Unapplied (batchStep r key stored ev at_) :=
  stops_bind get_stops fun _ ↦ stops_ite stops_refuse
    (stops_bind stops_modify fun _ ↦ stops_bind put_stops fun _ ↦ stops_pure)

theorem beadStep_stops {kind : BeadEventKind} :
    Stops Stop.Unapplied (beadStep r id kind actor at_) := by
  refine stops_bind get_stops fun a ↦ ?_
  cases a with
  | none => exact stops_pure
  | some cur =>
    exact stops_ite stops_pure (stops_bind stops_modify fun _ ↦ stops_bind put_stops fun _ ↦
      stops_bind get_stops fun _ ↦ stops_ite (stops_bind put_stops fun _ ↦ stops_pure) stops_pure)

theorem deliveryStep_stops {row : DeliveryRow} {kind : DeliveryEventKind} :
    Stops Stop.Unapplied (deliveryStep r id row kind actor at_) :=
  stops_ite stops_pure (stops_bind stops_modify fun _ ↦ stops_bind put_stops fun _ ↦ stops_pure)

theorem admitRecords_stops {members : List (String × String)} {allowSubmitted : Bool} :
    Stops Stop.Unapplied (admitRecords r members allowSubmitted) := by
  refine stops_forM fun p ↦ stops_ite stops_turned (stops_bind get_stops fun a ↦ ?_)
  cases a with
  | none => exact stops_turned
  | some rec => exact stops_ite stops_turned (stops_ite stops_turned stops_pure)

theorem admitted_stops {members : List (String × String)} {allowSubmitted : Bool} :
    Stops Stop.Unapplied (admitted r members allowSubmitted) := by
  refine stops_bind admitRecords_stops fun _ ↦ stops_bind (stops_foldlM fun _ _ ↦
    stops_bind get_stops fun _ ↦ stops_pure) fun _ ↦ stops_bind (stops_forM fun p ↦ ?_) fun _ ↦ stops_pure
  rw [admitDelivery.eq_def]
  split
  · exact stops_pure
  · split
    · exact stops_pure
    · exact stops_pure
    · exact stops_turned
    · exact stops_turned

theorem planMembers_stops {round : BatchRow} {members : List (String × String)}
    {deliveries : List (Option DeliveryRow)} :
    Stops Stop.Unapplied (planMembers r round members deliveries actor at_ verb) := by
  refine stops_foldlM fun round m ↦ ?_
  obtain ⟨⟨id, tip⟩, delivery⟩ := m
  refine stops_ite stops_turned (stops_bind stops_modify fun _ ↦ stops_bind beadStep_stops fun a ↦ ?_)
  cases a with
  | error e => exact stops_turned
  | ok _ =>
    have hcut {queued : DeliveryRow} {kind : DeliveryEventKind} {row : BatchRow} {text : String} :
        Stops Stop.Unapplied (mustStep r id queued kind actor at_ text row) := by
      refine stops_bind deliveryStep_stops fun b ↦ ?_
      cases b with
      | none => exact stops_turned
      | some _ => exact stops_pure
    cases delivery with
    | none => exact stops_bind stops_modify fun _ ↦ stops_bind stops_pure fun _ ↦ hcut
    | some d =>
      exact stops_ite (stops_bind stops_modify fun _ ↦ stops_bind stops_pure fun _ ↦ hcut)
        (stops_bind stops_pure fun _ ↦ hcut)

theorem exit_stops {kind : DeliveryEventKind} : Stops Stop.Unapplied (exit r id kind actor at_) := by
  have hthen {beadKind : BeadEventKind} :
      Stops Stop.Unapplied (exitAs r id kind beadKind actor at_) := by
    have hbead : Stops Stop.Unapplied (do let _ ← beadStep r id beadKind actor at_) :=
      stops_bind beadStep_stops fun _ ↦ stops_pure
    refine stops_bind get_stops fun a ↦ ?_
    cases a with
    | none => exact hbead
    | some d => exact stops_bind deliveryStep_stops fun _ ↦ hbead
  cases kind with
  | returned reason => exact hthen
  | requeued tip => exact hthen
  | _ => exact stops_bind stops_error fun _ ↦ hthen

theorem withdraw_stops {withdrawn : List (String × String)} :
    Stops Stop.Unapplied (withdraw r withdrawn actor at_) :=
  stops_forM fun _ ↦ stops_bind exit_stops fun _ ↦ stops_modify

theorem stackedDependents_stops {rec : BatchRecord} {roots : List String} :
    Stops Stop.Unapplied (stackedDependents r rec roots) := by
  refine stops_bind (stops_foldlM fun _ _ ↦ stops_bind get_stops fun a ↦ ?_) fun _ ↦ stops_pure
  cases a <;> exact stops_pure

theorem newRound_stops {repo : String} : Stops Stop.Unapplied (newRound r repo id) :=
  stops_bind get_stops fun _ ↦ stops_bind get_stops fun _ ↦ stops_pure

/-- What follows on a round that is found. -/
theorem stops_found {α : Type} {x : Plan (Option (String × BatchRecord))} {t : Turned}
    {f : String → BatchRecord → Plan α} (hx : Stops Stop.Unapplied x)
    (hf : ∀ key rec, Stops Stop.Unapplied (f key rec)) :
    Stops Stop.Unapplied (do
      match ← x with
      | none => throw (.turned t)
      | some (key, rec) => f key rec) := by
  refine stops_bind hx fun a ↦ ?_
  obtain _ | ⟨key, rec⟩ := a
  · exact stops_turned
  · exact hf key rec

/-- **A refused command has applied nothing.** -/
theorem command_refuses (command : Command) : Stops Stop.Unapplied (command.plan r) := by
  have hcap {n : ℕ} {verb : String} : Stops Stop.Unapplied (overCap verb n) :=
    stops_ite stops_turned stops_pure
  have hput {key : String} {rec : BatchRecord} : Stops Stop.Unapplied (putRound r key rec) :=
    stops_bind put_stops fun _ ↦ put_stops
  cases command with
  | cut cut =>
    refine stops_bind hcap fun _ ↦ stops_bind newRound_stops fun a ↦ ?_
    cases a with
    | none => exact stops_turned
    | some key =>
      exact stops_bind admitted_stops fun _ ↦ stops_bind planMembers_stops fun _ ↦ hput
  | stage cut =>
    refine stops_bind hcap fun _ ↦ stops_bind newRound_stops fun a ↦ ?_
    cases a with
    | none => exact stops_turned
    | some key => exact stops_bind admitRecords_stops fun _ ↦ hput
  | stack =>
    refine stops_found round_stops fun key rec ↦ stops_ite stops_turned ?_
    split
    · exact stops_turned
    · exact stops_bind hcap fun _ ↦ stops_bind admitted_stops fun _ ↦
        stops_bind planMembers_stops fun _ ↦ put_stops
  | promote =>
    exact stops_found round_stops fun key rec ↦ stops_ite stops_turned <|
      stops_bind admitted_stops fun _ ↦ stops_bind batchStep_stops fun _ ↦
        stops_bind planMembers_stops fun _ ↦ put_stops
  | settle id ev ejected requeued =>
    refine stops_found round_stops fun key rec ↦ stops_bind batchStep_stops fun _ ↦
      stops_bind stackedDependents_stops fun deps ↦ stops_bind (stops_forM fun _ ↦ exit_stops) fun _ ↦
        stops_bind withdraw_stops fun _ ↦ stops_forM fun m ↦ ?_
    cases rec.members.find? (·.beadId = m) with
    | none => exact stops_pure
    | some member => exact exit_stops
  | abandon =>
    exact stops_found round_stops fun key rec ↦ stops_bind batchStep_stops fun _ ↦
      stops_forM fun _ ↦ exit_stops
  | eject =>
    refine stops_found round_stops fun key rec ↦ ?_
    split
    · exact stops_turned
    · exact stops_bind batchStep_stops fun _ ↦ stops_bind stackedDependents_stops fun _ ↦
        stops_bind exit_stops fun _ ↦ withdraw_stops
  | land id ev at_ =>
    rw [Command.plan, planLand]
    split
    · refine stops_found batch_stops fun key rec ↦ stops_bind batchStep_stops fun _ ↦
        stops_forM fun m ↦ stops_bind get_stops fun a ↦ ?_
      cases a with
      | none => exact stops_pure
      | some d =>
        exact stops_ite stops_pure (stops_bind deliveryStep_stops fun _ ↦
          stops_bind beadStep_stops fun _ ↦ stops_pure)
    · exact stops_error
  | batchEvent =>
    refine stops_found batch_stops fun key rec ↦ stops_bind batchStep_stops fun _ ↦ ?_
    split
    · exact put_stops
    · exact stops_pure
  | deliveryEvent =>
    refine stops_bind get_stops fun a ↦ ?_
    cases a with
    | none => exact stops_turned
    | some cur =>
      exact stops_ite stops_refuse (stops_bind stops_modify fun _ ↦ put_stops)

/-- The audit of a refused command is of nothing applied. -/
theorem Issue.refusal {i : Issue} {a : Audit} (h : i.cascade = .error (.refuse a)) :
    a.applied = false := by
  rw [Issue.cascade] at h
  cases hp : (i.command.plan i.reads).run {} with
  | error e =>
    rw [hp] at h
    exact command_refuses i.command {} e hp a (Except.error.inj h)
  | ok p =>
    rw [hp] at h
    change withRound p.2 i.fields = .error (.refuse a) at h
    rw [withRound.eq_def] at h
    split at h
    · cases h
    · split at h <;> cases h

end Refusals

end Spira.Control
