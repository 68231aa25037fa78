import Spira.Control.Parts
import Spira.Control.SingleDelivery
import Spira.Lib.Latest

/-!
# When a delivery entered its states

A delivery keeps beside its row the newest applied event into each state.  Every transaction that
writes one folds its own audits in, and an applied audit of a delivery is only ever in a
transaction that writes it; so the map is what the history of the delivery comes to, however the
history is grouped (`entered_since_created`).  It is the delivery's own: one that is created anew,
its record having been deleted, starts with none of what the history of its id has.
-/

set_option autoImplicit false

namespace Spira.Control

open Spira.Bead Spira.Batch Spira.Delivery Store Store.Contract Stopping Cascade
open KeyPrefix (starts)

/-! ## The audits of a delivery -/

/-- The audit is of an applied event of the delivery of `id`. -/
def Audit.enters (a : Audit) (id : String) : Bool :=
  a.machine = "delivery" && a.lcKey = id && a.applied

/-- The state each applied event of the delivery of `id` went into, and when. -/
def entries (id : String) (audits : List Audit) : List (String × Int) :=
  (audits.filter (·.enters id)).map fun a ↦ (a.toState, a.at_)

/-- Each state with the newest applied event into it: what migration 2 fills the map with, which
groups a history by state. -/
def m2Entered (id : String) (audits : List Audit) : Entered := Latest.groupMax (entries id audits)

theorem mem_entries {id state : String} {at_ : Int} {audits : List Audit} :
    (state, at_) ∈ entries id audits ↔
      ∃ a ∈ audits, a.enters id = true ∧ a.toState = state ∧ a.at_ = at_ := by
  simp [entries, and_assoc]

theorem foldOne_eq (id : String) (entered : Entered) (a : Audit) :
    foldOne id entered a =
      if a.enters id then Latest.raise entered (a.toState, a.at_) else entered := by
  have henters : (a.machine ≠ "delivery" ∨ a.lcKey ≠ id ∨ !a.applied) ↔ ¬ a.enters id = true := by
    simp only [Audit.enters, Bool.and_eq_true, decide_eq_true_eq, not_and_or, Bool.not_eq_true,
      Bool.not_eq_eq_eq_not, ne_eq, or_assoc, Bool.not_true]
  rw [foldOne]
  by_cases h : a.enters id
  · rw [if_neg (mt henters.mp (not_not.mpr h)), if_pos h, Latest.raise]
  · rw [if_pos (henters.mpr h), if_neg h]

/-- Folding in audits raises the map by their entries. -/
theorem foldEntered_eq {id : String} {entered : Entered} {audits : List Audit} :
    foldEntered entered id audits = (entries id audits).foldl Latest.raise entered := by
  induction audits generalizing entered with
  | nil => rfl
  | cons a audits ih =>
    rw [foldEntered, List.foldl_cons, ← foldEntered, ih, foldOne_eq, entries, entries, List.filter_cons]
    split <;> rfl

/-- **The two folds of a history come to one map.** -/
theorem foldEntered_history {id : String} {audits : List Audit} :
    foldEntered ∅ id audits = m2Entered id audits := by
  rw [foldEntered_eq, Latest.foldl_raise_empty, m2Entered]

/-! ## The history of a run -/

/-- The audits that a call carries, of either branch. -/
def Call.audits (c : Call Value) : List Audit × List Audit :=
  match c.req?.bind (·.evidence) with
  | some (.audits then_ els) => (then_, els)
  | _ => ([], [])

/-- The audits of the branch that a commit took. -/
def branchAudits (k : Committed Value) : List Audit :=
  match k.author with
  | .call c => if k.ok then (Call.audits c).1 else (Call.audits c).2
  | _ => []

/-- Every audited change to `id` from one revision to another, in revision order. -/
def history (w : World Value) (id : String) (since upto : ℕ) : List Audit :=
  (((commits w.trace).reverse.filter fun k ↦ since ≤ k.head + 1 ∧ k.head + 1 ≤ upto).flatMap
    branchAudits).filter (·.lcKey = id)

theorem mem_history {w : World Value} {id : String} {since upto : ℕ} {a : Audit} :
    a ∈ history w id since upto ↔ a.lcKey = id ∧ ∃ k, .committed k ∈ w.trace ∧
      since ≤ k.head + 1 ∧ k.head + 1 ≤ upto ∧ a ∈ branchAudits k := by
  simp only [history, List.mem_filter, List.mem_flatMap, List.mem_reverse, mem_commits,
    decide_eq_true_eq]
  constructor
  · rintro ⟨⟨k, ⟨hk, hs, hu⟩, ha⟩, hid⟩
    exact ⟨hid, k, hk, hs, hu, ha⟩
  · rintro ⟨hid, k, hk, hs, hu, ha⟩
    exact ⟨⟨k, ⟨hk, hs, hu⟩, ha⟩, hid⟩

theorem mem_entries_history {w : World Value} {id : String} {since upto : ℕ} {p : String × Int} :
    p ∈ entries id (history w id since upto) ↔ ∃ k, .committed k ∈ w.trace ∧ since ≤ k.head + 1 ∧
      k.head + 1 ≤ upto ∧ p ∈ entries id (branchAudits k) := by
  obtain ⟨state, at_⟩ := p
  simp only [mem_entries, mem_history]
  constructor
  · rintro ⟨a, ⟨-, k, hk, hs, hu, ha⟩, henters, hto⟩
    exact ⟨k, hk, hs, hu, a, ha, henters, hto⟩
  · rintro ⟨k, hk, hs, hu, a, ha, henters, hto⟩
    refine ⟨a, ⟨?_, k, hk, hs, hu, ha⟩, henters, hto⟩
    simp only [Audit.enters, Bool.and_eq_true, decide_eq_true_eq] at henters
    exact henters.1.2

/-- A run in which no writer but the commands audits a delivery. -/
structure DeliveriesRun (floor : ℕ) (cfg : Config Value) (fuel : ℕ)
    (turns : List (Turn Env ℕ (Call Value))) : Prop where
  control : ControlRun floor cfg fuel turns
  others : ∀ call, .spawn call ∈ turns → (∀ key ∈ Call.writes call, kept key = false) →
    ∀ a ∈ (Call.audits call).1 ++ (Call.audits call).2, a.machine = "delivery" → a.applied = false

/-! ## The deliveries of a cascade -/

/-- The map that rides beside the row of a delivery that was read. -/
def enteredOf (i : Option (Item Value)) : Option Entered :=
  i.bind fun i ↦ match i.value.data with
    | .payload (.delivery _ e) => e
    | _ => none

/-- The deliveries as a cascade leaves them: one that is written has the map it was read with, and
an applied audit is of a delivery that is written, or of one that is pending. -/
structure DeliveriesOf (r : Reads) (pending : String → Prop) (c : Cascade) : Prop where
  sound : Sound r.view c
  written : ∀ id, c.Writes (Keys.delivery id) → ∃ m row, c.planned r.view (Keys.delivery id) =
    some ⟨m, .payload (.delivery row (enteredOf (r.view (Keys.delivery id))))⟩
  audited : ∀ a ∈ c.then_, a.machine = "delivery" → a.applied = true →
    c.Writes (Keys.delivery a.lcKey) ∨ pending a.lcKey
  lost : ∀ a ∈ c.els, a.applied = false

section Deliveries

variable {r : Reads} {c c' : Cascade} {pending : String → Prop} {id key : String} {a : Audit}

theorem deliveriesOf_empty : DeliveriesOf r (fun _ ↦ False) {} :=
  ⟨sound_empty _, fun _ h ↦ absurd h not_writes_empty, by simp, by simp⟩

/-- A change of other keys leaves the deliveries. -/
theorem DeliveriesOf.frame {keys : List String} (h : DeliveriesOf r pending c)
    (hf : Frame r.view keys c c') (hkeys : ∀ id, Keys.delivery id ∉ keys)
    (ha : c'.then_ = c.then_ ∧ c'.els = c.els) : DeliveriesOf r pending c' where
  sound := hf.sound
  written id hw := by
    rw [hf.planned _ (hkeys id)]
    exact h.written id (hf.writes _ (hkeys id) hw)
  audited a hmem hm happ := by
    rw [ha.1] at hmem
    exact (h.audited a hmem hm happ).imp_left (hf.kept _)
  lost a hmem := by
    rw [ha.2] at hmem
    exact h.lost a hmem

/-- What is only of the audits leaves the deliveries that are written. -/
theorem DeliveriesOf.audits {then_ els : List Audit} {steps : ℕ} {pending' : String → Prop}
    (h : DeliveriesOf r pending c)
    (hthen : ∀ a ∈ then_, a.machine = "delivery" → a.applied = true →
      c.Writes (Keys.delivery a.lcKey) ∨ pending' a.lcKey)
    (hels : ∀ a ∈ els, a.applied = false) :
    DeliveriesOf r pending' { c with then_ := then_, els := els, steps := steps } where
  sound := (h.sound.leaves.audits then_ els steps).sound
  written := h.written
  audited := hthen
  lost := hels

/-- One more audit of a transaction that commits. -/
theorem DeliveriesOf.snoc (h : DeliveriesOf r pending c)
    (ha : a.machine = "delivery" → a.applied = true → pending a.lcKey) :
    ∀ b ∈ c.then_ ++ [a], b.machine = "delivery" → b.applied = true →
      c.Writes (Keys.delivery b.lcKey) ∨ pending b.lcKey := by
  intro b hb hm happ
  obtain hb | hb := List.mem_append.mp hb
  · exact h.audited b hb hm happ
  · obtain rfl := List.mem_singleton.mp hb
    exact .inr (ha hm happ)

theorem DeliveriesOf.step (h : DeliveriesOf r pending c)
    (ha : a.machine = "delivery" → a.applied = true → pending a.lcKey) :
    Ends (Cascade.step a) c fun _ c' ↦ DeliveriesOf r pending c' := by
  refine ends_modify (h.audits (h.snoc ha) fun b hb ↦ ?_)
  obtain hb | hb := List.mem_append.mp hb
  · exact h.lost b hb
  · rw [List.mem_singleton.mp hb]

theorem DeliveriesOf.note (h : DeliveriesOf r pending c)
    (ha : a.machine = "delivery" → a.applied = true → pending a.lcKey) :
    Ends (Cascade.note a) c fun _ c' ↦ DeliveriesOf r pending c' :=
  ends_modify (h.audits (h.snoc ha) h.lost)

/-- What is put at a delivery keeps the map that was read. -/
theorem DeliveriesOf.put {row : DeliveryRow} {owners : List String}
    (h : DeliveriesOf r (· = id) c) :
    Ends (Cascade.put r.view (Keys.delivery id) row owners) c fun _ c' ↦
      DeliveriesOf r (fun _ ↦ False) c' := by
  refine ((put_put h.sound).and put_audits).imp fun _ c' ⟨hp, hthen, hels⟩ ↦
    ⟨hp.frame.sound, fun id' hw ↦ ?_, fun a hmem hm happ ↦ .inl ?_, fun a hmem ↦ ?_⟩
  · by_cases hid : id' = id
    · subst hid
      rw [hp.planned]
      by_cases hold : c.Writes (Keys.delivery id')
      · obtain ⟨m, row', hrow⟩ := h.written id' hold
        rw [hrow]
        cases he : enteredOf (r.view (Keys.delivery id')) <;> exact ⟨m, row, rfl⟩
      · rw [h.sound.unwritten hold]
        cases hv : r.view (Keys.delivery id') with
        | none => exact ⟨_, row, rfl⟩
        | some i =>
          refine ⟨i.value.metadata, row, ?_⟩
          rw [Option.map_some, enteredOf, Option.bind_some, object]
          generalize i.value.data = prior
          cases prior with
          | payload v =>
            cases v with
            | delivery row' e => cases e <;> rfl
            | _ => rfl
          | _ => rfl
    · have hne : Keys.delivery id' ∉ [Keys.delivery id] := by simpa using hid
      rw [hp.frame.planned _ hne]
      exact h.written id' (hp.frame.writes _ hne hw)
  · rw [hthen] at hmem
    obtain hw | rfl := h.audited a hmem hm happ
    · exact hp.frame.kept _ hw
    · exact hp.writes
  · rw [hels] at hmem
    exact h.lost a hmem

/-- **What a command does to the deliveries.** -/
theorem deliveries_keep (command : Command) : Keeps r (command.scope r)
    (DeliveriesOf r fun _ ↦ False) (fun id ↦ DeliveriesOf r (· = id)) where
  get h := ((get_looks h.sound).and get_audits).imp fun _ _ ⟨⟨hl, _⟩, ha⟩ ↦
    h.frame (hl.frame : Frame r.view [] _ _) (by simp) ha
  put hkey h := ((put_put h.sound).and put_audits).imp fun _ _ ⟨hp, ha⟩ ↦
    h.frame hp.frame (fun id ↦ by simpa using (not_delivery_of_puts hkey id).symm) ha
  step hm _ h := h.step fun hm' _ ↦ absurd hm' hm
  named h := by
    refine ends_modify (h.audits (fun a hmem hm happ ↦ ?_) fun a hmem ↦ ?_)
    · obtain ⟨b, hb, rfl⟩ := List.mem_map.mp hmem
      revert hm happ
      split <;> exact h.audited b hb
    · obtain ⟨b, hb, rfl⟩ := List.mem_map.mp hmem
      split <;> exact h.lost b hb
  pending h := ⟨h.sound, h.written, fun a hmem hm happ ↦ .inl ((h.audited a hmem hm happ).resolve_right id),
    h.lost⟩
  noteDelivery _ h := h.note fun _ _ ↦ rfl
  stepDelivery _ h := h.step fun _ _ ↦ rfl
  putDelivery _ h := h.put

end Deliveries

/-! ## The audits of the other verbs -/

/-- All that the call audits is of beads. -/
def AuditsBeads (call : Call Value) : Prop :=
  ∀ a ∈ (Call.audits call).1 ++ (Call.audits call).2, a.machine = "bead"

section AuditsBeads

variable {view : View} {id : String} {ev : BeadEvent} {cur : LifecycleRecord} {item : Item Value}
  {req : Request Value} {plannedAt floor : ℕ} {call : Call Value}

@[simp] theorem audits_auditedTxn {t : TxnOps Value} {then_ els : List Audit} {part : String} :
    Call.audits (auditedTxn t then_ els req part plannedAt) = (then_, els) := rfl

theorem refuseCall_auditsBeads {refusal : Option (Refusal BeadEventKind)} :
    AuditsBeads (refuseCall id ev cur refusal req plannedAt) := by
  simp [AuditsBeads, refuseCall, beadAudit, machineAudit]

theorem transition_auditsBeads {fence : Option Fence}
    (h : transition view id ev fence req plannedAt = some call) : AuditsBeads call := by
  obtain ⟨⟨cur, item⟩, -, rfl⟩ := Option.map_eq_some_iff.mp h
  dsimp only
  split_ifs
  · exact refuseCall_auditsBeads
  · simp [AuditsBeads, writeCall, lostAudit, beadAudit, machineAudit]

theorem claimCall_auditsBeads (h : claimCall view floor id ev req plannedAt = some call) :
    AuditsBeads call := by
  rw [claimCall] at h
  split at h
  · obtain ⟨⟨cur, item⟩, -, h⟩ := Option.bind_eq_some_iff.mp h
    dsimp only at h
    split_ifs at h
    · obtain rfl := Option.some.inj h
      exact refuseCall_auditsBeads
    · split at h
      · cases h
      · split_ifs at h
        obtain rfl := Option.some.inj h
        simp [AuditsBeads, lostAudit, beadAudit, machineAudit]
  · cases h

theorem eventCall_auditsBeads {live : Option Fence}
    (h : eventCall view floor live id ev req plannedAt = some call) : AuditsBeads call := by
  rw [eventCall.eq_def] at h
  split at h
  · exact claimCall_auditsBeads h
  · exact transition_auditsBeads h
  · obtain ⟨⟨cur, item⟩, -, h⟩ := Option.bind_eq_some_iff.mp h
    dsimp only at h
    split_ifs at h
    obtain rfl := Option.some.inj h
    exact refuseCall_auditsBeads
  · exact transition_auditsBeads h

theorem createCall_auditsBeads {born : LifecycleRecord} {submittedTip : Option String}
    (h : createCall view id born submittedTip req plannedAt = some call) : AuditsBeads call := by
  rw [createCall] at h
  split at h
  · obtain rfl := Option.some.inj h
    cases submittedTip <;> simp [AuditsBeads, birthCall, bornSubmitAudit, machineAudit]
  · split at h
    · cases h
    · dsimp only at h
      split_ifs at h
      obtain rfl := Option.some.inj h
      simp [AuditsBeads, promoteBornCall, bornSubmitAudit, machineAudit]

theorem planningClosedCall_auditsBeads {attempt : ℕ}
    (h : planningClosedCall view id attempt req = some call) : AuditsBeads call := by
  obtain ⟨item, -, h⟩ := Option.bind_eq_some_iff.mp h
  dsimp only at h
  split_ifs at h
  obtain rfl := Option.some.inj h
  simp [AuditsBeads, Call.audits, Call.req?, partRequest]

theorem setRepoCall_auditsBeads {repo onlyIf : Option String} {attempt : ℕ}
    (h : setRepoCall view id repo onlyIf attempt req = some call) : AuditsBeads call := by
  obtain ⟨⟨rec, item⟩, -, h⟩ := Option.bind_eq_some_iff.mp h
  dsimp only at h
  split_ifs at h
  obtain rfl := Option.some.inj h
  simp [AuditsBeads, Call.audits, Call.req?, partRequest]

theorem setEdgeCall_auditsBeads {dep : String} {edge : Edge} {attempt : ℕ}
    (h : setEdgeCall view id dep edge attempt req = some call) : AuditsBeads call := by
  rw [setEdgeCall] at h
  dsimp only at h
  split_ifs at h
  split at h
  · cases h
  · split_ifs at h
    obtain rfl := Option.some.inj h
    simp [AuditsBeads, Call.audits, Call.req?, partRequest]

end AuditsBeads

/-- **Whose audits a call carries**: a round's command's, a bead's, or another writer's. -/
theorem Issued.audits {floor : ℕ} {w : World Value} {call : Call Value} (h : Issued floor w call) :
    (∃ i : Issue, i.reads.Of w ∧ i.call = some call) ∨ AuditsBeads call ∨
      ∀ key ∈ Call.writes call, kept key = false := by
  cases h with
  | round reads h => exact .inl ⟨_, reads, h⟩
  | create reads h => exact .inr (.inl (createCall_auditsBeads h))
  | createOpen reads h => exact .inr (.inl (createCall_auditsBeads h))
  | event reads fence h => exact .inr (.inl (eventCall_auditsBeads h))
  | claimAgain | renewLock | release | delete => exact .inr (.inl (List.forall_mem_nil _))
  | planningClosed reads h => exact .inr (.inl (planningClosedCall_auditsBeads h))
  | setRepo reads h => exact .inr (.inl (setRepoCall_auditsBeads h))
  | setEdge reads h => exact .inr (.inl (setEdgeCall_auditsBeads h))
  | other h => exact .inr (.inr h)

/-! ## What a commit leaves of a delivery -/

/-- The map of a delivery with the audits of a commit folded in; one that is created starts with
none. -/
def foldedIn (before : Option (Item Value)) (id : String) (audits : List Audit) : Option Entered :=
  match before with
  | none => some (foldEntered ∅ id audits)
  | some i => (enteredOf (some i)).map (foldEntered · id audits)

/-- From `snap` to `after` the delivery of `id` is left as it is and none of the audits is of it,
or it is written with the audits folded in. -/
def Folds (snap after : View) (id : String) (audits : List Audit) : Prop :=
  ((∀ a ∈ audits, a.enters id = false) ∧ ∀ i, after (Keys.delivery id) = some i →
    ∃ j, snap (Keys.delivery id) = some j ∧ i.value.data = j.value.data) ∨
  ∃ i row, after (Keys.delivery id) = some i ∧
    i.value.data = .payload (.delivery row (foldedIn (snap (Keys.delivery id)) id audits))

section Commit

variable {snap after : View} {id : String} {main : ℕ} {ops : List (Op Value)} {r : Reads} {c : Cascade}

/-- Deletes leave of a key what it was, or nothing. -/
theorem data_of_deletes {keys : List String} {key : String} {i : Item Value}
    (he : Effect snap after main (keys.map .delete)) (hplain : Plain key) (hi : after key = some i) :
    ∃ j, snap key = some j ∧ i.value.data = j.value.data := by
  by_cases hmem : key ∈ keys
  · obtain ⟨s, sub, ⟨p, hp, ⟨-, rfl⟩ | ⟨-, m, -, rfl⟩⟩, ha⟩ | ⟨-, -, ha⟩ :=
      he.resolved (.delete key) (List.mem_map_of_mem hmem) hplain
    · change after key = none at ha
      rw [ha] at hi
      cases hi
    · change after key = some _ at ha
      rw [ha] at hi
      obtain rfl := Option.some.inj hi
      exact ⟨p, hp, keepMark_data _ _⟩
    · change after key = none at ha
      rw [ha] at hi
      cases hi
  · refine ⟨i, ?_, rfl⟩
    rw [← hi]
    refine (he.untouched key hplain fun o ho hk ↦ hmem ?_).symm
    obtain ⟨k, hk', rfl⟩ := List.mem_map.mp ho
    exact hk ▸ hk'

/-- **A cascade that is committed has folded its audits into every delivery it writes**, and
audits no other. -/
theorem DeliveriesOf.folds {J : String → Bool → Prop} {req : Request Value} {part : String}
    {plannedAt : ℕ} (h : DeliveriesOf r (fun _ ↦ False) c)
    (hid : Keys.idOf Keys.deliveriesPrefix (Keys.delivery id) = some id)
    (hview : ∀ key, (snap key).map (·.modRev) = (r.view key).map (·.modRev) → snap key = r.view key)
    (hc : Chosen snap J true ops (auditedTxn c.txn c.then_ c.els req part plannedAt))
    (he : Effect snap after main ops) : Folds snap after id c.then_ := by
  have ht := taken_of_effect h.sound hview hc he
  by_cases hw : c.Writes (Keys.delivery id)
  · obtain ⟨s, hmem, hkey, hd⟩ := hw
    obtain ⟨m, row, hplanned⟩ := h.written id ⟨s, hmem, hkey, hd⟩
    have hvalue : s.value = some ⟨m, .payload (.delivery row (enteredOf (r.view (Keys.delivery id))))⟩ := by
      rw [← h.sound.planned hmem, hkey, hplanned]
    have hread := h.sound.readRev s hmem
    rw [hkey, ← ht.compared _ ⟨s, hmem, hkey, hd⟩] at hread
    rw [← ht.compared _ ⟨s, hmem, hkey, hd⟩] at hvalue
    have hput : Op.put (Keys.delivery id) (c.withEntered s
        ⟨m, .payload (.delivery row (enteredOf (snap (Keys.delivery id))))⟩) ∈ ops := by
      rw [hc.1, if_pos rfl]
      refine List.mem_append_left _ (List.mem_filterMap.mpr ⟨s, List.mem_filter.mpr ⟨hmem, hd⟩, ?_⟩)
      rw [hvalue, ← hkey]
      rfl
    obtain ⟨i, hi, hval⟩ := Option.map_eq_some_iff.mp (he.put hput apart_delivery.1)
    refine .inr ⟨i, row, hi, ?_⟩
    rw [hval, keepMark_data, withEntered, hkey, hid]
    cases hs : snap (Keys.delivery id) with
    | none =>
      rw [hs] at hread
      simp [enteredOf, foldedIn, hread]
    | some j =>
      rw [hs] at hread
      cases hj : enteredOf (some j) <;> simp [foldedIn, hj, hread]
  · refine .inl ⟨fun a ha ↦ ?_, fun i hi ↦ ⟨i, ?_, rfl⟩⟩
    · rw [Bool.eq_false_iff]
      intro henters
      simp only [Audit.enters, Bool.and_eq_true, decide_eq_true_eq] at henters
      obtain ⟨⟨hm, rfl⟩, happ⟩ := henters
      exact hw ((h.audited a ha hm happ).resolve_right id)
    · rw [← hi]
      exact (ht.unwritten _ apart_delivery hw).symm

/-- A delivery that is as it was, and of which nothing applied is audited. -/
theorem Folds.spared {audits : List Audit} (ha : ∀ a ∈ audits, a.enters id = false)
    (hsame : after (Keys.delivery id) = snap (Keys.delivery id)) : Folds snap after id audits :=
  .inl ⟨ha, fun i hi ↦ ⟨i, hsame ▸ hi, rfl⟩⟩

theorem enters_unapplied {a : Audit} (h : a.applied = false) : a.enters id = false := by
  rw [Audit.enters, h, Bool.and_false]

/-- The queue's fields leave the deliveries. -/
theorem DeliveriesOf.fielded {c' : Cascade} {pending : String → Prop} (h : DeliveriesOf r pending c)
    (hf : Fielded r.view c c') (ha : c'.then_ = c.then_ ∧ c'.els = c.els) :
    DeliveriesOf r pending c' where
  sound := hf.sound
  written id hw := by
    rw [hf.writes] at hw
    obtain heq | ⟨m, rec, fields, hkey, -⟩ := hf.planned (Keys.delivery id)
    · rw [heq]
      exact h.written id hw
    · exact absurd hkey (Keys.ne_of_starts (Keys.starts_delivery id) (Keys.starts_batch _ _) (by decide)
        (by decide))
  audited a hmem hm happ := by
    rw [ha.1] at hmem
    rw [hf.writes]
    exact h.audited a hmem hm happ
  lost a hmem := by
    rw [ha.2] at hmem
    exact h.lost a hmem

/-- **What an issued command commits has its audits folded in**, on either branch. -/
theorem Issue.folds {J : String → Bool → Prop} {ok : Bool} {i : Issue} {call : Call Value}
    (hcall : i.call = some call)
    (hid : Keys.idOf Keys.deliveriesPrefix (Keys.delivery id) = some id)
    (hview : ∀ key, (snap key).map (·.modRev) = (i.reads.view key).map (·.modRev) →
      snap key = i.reads.view key)
    (hc : Chosen snap J ok ops call) (he : Effect snap after main ops) :
    Folds snap after id (if ok then (Call.audits call).1 else (Call.audits call).2) := by
  rw [Issue.call] at hcall
  split at hcall
  · rename_i c hcascade
    obtain rfl := Option.some.inj hcall
    obtain ⟨c₀, h₀, hf, haudits⟩ :=
      Issue.cascade_keeps hcascade (deliveries_keep _) deliveriesOf_empty fun _ h ↦ h.sound
    have h := h₀.fielded hf haudits
    cases ok with
    | true => exact h.folds hid hview hc he
    | false =>
      exact .spared (fun a ha ↦ enters_unapplied (h.lost a ha)) (untaken_of_effect hc he apart_delivery)
  · rename_i audit hrefused
    obtain rfl := Option.some.inj hcall
    refine .spared (fun a ha ↦ enters_unapplied ?_) (he.untouched _ apart_delivery.1 fun o ho hkey ↦ ?_)
    · cases ok with
      | true =>
        obtain rfl := List.mem_singleton.mp ha
        exact Issue.refusal hrefused
      | false => cases ha
    · rw [hc.1] at ho
      split_ifs at ho
      all_goals
        have hmem := Cascade.mem_auditedOps ho (by rw [hkey]; exact apart_delivery.2)
        cases hmem
  · cases hcall

end Commit

/-! ## In a run -/

section Run

variable {floor : ℕ} {cfg : Config Value} {fuel : ℕ} {turns : List (Turn Env ℕ (Call Value))}
  {k : Committed Value} {id : String}

theorem OnBead.spares_delivery {id' : String} {call : Call Value} (h : OnBead id' call) :
    Keys.delivery id ∉ Call.writes call := by
  intro hmem
  obtain hb | hh := h _ hmem
  · simp only [beadKeys, List.mem_cons, List.not_mem_nil, or_false] at hb
    obtain hb | hb | hb | hb := hb
    · exact Keys.ne_of_starts (Keys.starts_delivery id) (Keys.starts_lifecycle id') (by decide)
        (by decide) hb
    · exact Keys.ne_of_starts (Keys.starts_delivery id) (Keys.starts_gate id') (by decide) (by decide) hb
    · exact Keys.ne_of_starts (Keys.starts_delivery id) (Keys.starts_readiness id') (by decide)
        (by decide) hb
    · exact Keys.ne_of_starts (Keys.starts_delivery id) (Keys.starts_claimLock id') (by decide)
        (by decide) hb
  · exact Keys.ne_of_starts (Keys.starts_delivery id) hh (by decide) (by decide) rfl

/-- **Every commit folds its audits of a delivery into it.** -/
theorem DeliveriesRun.folds (h : DeliveriesRun floor cfg fuel turns)
    (hid : Keys.idOf Keys.deliveriesPrefix (Keys.delivery id) = some id)
    (hk : .committed k ∈ (worldAt cfg fuel turns).trace) :
    Folds ((worldAt cfg fuel turns).itemAt k.head) ((worldAt cfg fuel turns).itemAt (k.head + 1)) id
      (branchAudits k) := by
  obtain ⟨before, ops, -, hacts, he⟩ := runs_effect turns hk
  rw [branchAudits]
  cases ha : k.author with
  | expire =>
    rw [ha] at hacts
    obtain ⟨keys, rfl, -⟩ := hacts
    exact .inl ⟨by simp, fun i hi ↦ data_of_deletes he apart_delivery.1 hi⟩
  | collect kind =>
    rw [ha] at hacts
    obtain ⟨keys, rfl, -⟩ := hacts
    exact .inl ⟨by simp, fun i hi ↦ data_of_deletes he apart_delivery.1 hi⟩
  | call call =>
    rw [ha] at hacts
    obtain ⟨pre, post, rfl, hle⟩ := runs_spawned turns hk ha
    have hissued := h.control pre call post rfl
    have hround (i : Issue) (hreads : i.reads.Of (worldAt cfg fuel pre)) (hcall : i.call = some call) :=
      Issue.folds hcall hid (fun key hrev ↦ by
        obtain ⟨at_, -, hat⟩ := View.Of.upTo hreads.view (grows_append pre _) hle key
        rw [hat] at hrev ⊢
        exact itemAt_eq_of_modRev hrev) hacts he
    -- A call that may not write the delivery leaves it.
    have hspare (hno : Keys.delivery id ∉ Call.writes call)
        (hno' : ∀ a ∈ (Call.audits call).1 ++ (Call.audits call).2, a.enters id = false) :
        Folds ((worldAt cfg fuel (pre ++ .spawn call :: post)).itemAt k.head)
          ((worldAt cfg fuel (pre ++ .spawn call :: post)).itemAt (k.head + 1)) id
          (if k.ok then (Call.audits call).1 else (Call.audits call).2) := by
      refine .spared (fun a ha ↦ hno' a ?_) (he.untouched _ apart_delivery.1 fun o ho hkey ↦
        hno (hkey ▸ Chosen.writes hacts o ho))
      split at ha
      · exact List.mem_append_left _ ha
      · exact List.mem_append_right _ ha
    have hother (hw : ∀ key ∈ Call.writes call, kept key = false) :
        Keys.delivery id ∉ Call.writes call := fun hmem ↦ by
      have hkept := hw _ hmem
      simp [kept, Keys.starts_delivery] at hkept
    obtain ⟨i, hreads, hcall⟩ | hbeads | hw := hissued.audits
    · exact hround i hreads hcall
    · have hno : ∀ a ∈ (Call.audits call).1 ++ (Call.audits call).2, a.enters id = false := fun a ha ↦ by
        rw [Audit.enters, hbeads a ha]
        rfl
      obtain ⟨i, hreads, hcall⟩ | ⟨id', hon⟩ | hw := hissued.onBead
      · exact hround i hreads hcall
      · exact hspare hon.spares_delivery hno
      · exact hspare (hother hw) hno
    · refine hspare (hother hw) fun a ha ↦ ?_
      have happ := h.others call (by simp) hw a ha
      by_cases hm : a.machine = "delivery"
      · exact enters_unapplied (happ hm)
      · simp [Audit.enters, hm]

/-- What is one revision further of a history: the audits of the commit that made it. -/
theorem m2Entered_succ {w : World Value} (hw : Reachable w) {since : ℕ}
    (hk : .committed k ∈ w.trace) (hs : since ≤ k.head + 1) :
    m2Entered id (history w id since (k.head + 1)) =
      Latest.groupMax (entries id (history w id since k.head) ++ entries id (branchAudits k)) := by
  refine Latest.groupMax_congr fun p ↦ ?_
  simp only [List.mem_append, mem_entries_history]
  constructor
  · rintro ⟨k', hk', hs', hu, hp⟩
    obtain hlt | heq := Nat.lt_or_eq_of_le hu
    · exact .inl ⟨k', hk', hs', by omega, hp⟩
    · obtain rfl := hw.commit_unique hk' hk (by omega)
      exact .inr hp
  · rintro (⟨k', hk', hs', hu, hp⟩ | hp)
    · exact ⟨k', hk', hs', by omega, hp⟩
    · exact ⟨k, hk, hs, le_rfl, hp⟩

/-- **At every revision a delivery's map is what its history comes to.** -/
theorem entered_run (h : DeliveriesRun floor cfg fuel turns)
    (hid : Keys.idOf Keys.deliveriesPrefix (Keys.delivery id) = some id) (n : ℕ) :
    ∀ i, (worldAt cfg fuel turns).itemAt n (Keys.delivery id) = some i → ∃ row,
      i.value.data = .payload (.delivery row
        (some (m2Entered id (history (worldAt cfg fuel turns) id i.createRev.main n)))) := by
  have hreachable : Reachable (worldAt cfg fuel turns) := (runs_keep turns).1
  induction n with
  | zero =>
    intro i hi
    rw [itemAt_zero] at hi
    cases hi
  | succ n ih =>
    intro i hi
    by_cases hn : ∃ c, .committed c ∈ (worldAt cfg fuel turns).trace ∧ c.head = n
    · obtain ⟨k, hk, rfl⟩ := hn
      have hsince := hreachable.createRev_le hi
      rw [m2Entered_succ hreachable hk hsince]
      obtain ⟨hno, hsame⟩ | ⟨i', row, hi', hdata⟩ := h.folds hid hk
      · -- It is left as it is.
        obtain ⟨j, hj, hdata⟩ := hsame i hi
        obtain ⟨row, hrow⟩ := ih j hj
        have hnone : entries id (branchAudits k) = [] := by
          rw [entries, List.map_eq_nil_iff, List.filter_eq_nil_iff]
          exact fun a ha ↦ by simp [hno a ha]
        obtain ⟨j', hj', hcreate⟩ | ⟨hnew, -⟩ := hreachable.createRev_next hk hi
        · rw [hj] at hj'
          obtain rfl := Option.some.inj hj'
          rw [hnone, List.append_nil, hcreate, hdata]
          exact ⟨row, hrow⟩
        · rw [hj] at hnew
          cases hnew
      · -- It is written, and is one that was there or a new one.
        rw [hi] at hi'
        obtain rfl := Option.some.inj hi'
        refine ⟨row, ?_⟩
        rw [hdata]
        obtain ⟨j, hj, hcreate⟩ | ⟨hnew, hcreate⟩ := hreachable.createRev_next hk hi
        · obtain ⟨row', hrow'⟩ := ih j hj
          have hentered : enteredOf (some j) = some
              (m2Entered id (history (worldAt cfg fuel turns) id j.createRev.main k.head)) := by
            rw [enteredOf, Option.bind_some, hrow']
          rw [hj, foldedIn, hentered, Option.map_some, foldEntered_eq, m2Entered,
            Latest.foldl_raise_groupMax, hcreate]
        · have hnone : entries id (history (worldAt cfg fuel turns) id i.createRev.main k.head) = [] := by
            refine List.eq_nil_iff_forall_not_mem.mpr fun p hp ↦ ?_
            obtain ⟨k', -, hs, hu, -⟩ := mem_entries_history.mp hp
            omega
          rw [hnew, foldedIn, foldEntered_history, hnone, List.nil_append, m2Entered]
    · have hsame := hreachable.itemAt_unused fun c hc hh ↦ hn ⟨c, hc, hh⟩
      rw [hsame] at hi
      obtain ⟨row, hrow⟩ := ih i hi
      refine ⟨row, hrow.trans ?_⟩
      have hmap : m2Entered id (history (worldAt cfg fuel turns) id i.createRev.main n) =
          m2Entered id (history (worldAt cfg fuel turns) id i.createRev.main (n + 1)) := by
        refine Latest.groupMax_congr fun p ↦ ?_
        simp only [mem_entries_history]
        refine exists_congr fun k ↦ and_congr_right fun hk ↦ and_congr_right fun _ ↦
          and_congr_left fun _ ↦ ⟨Nat.le_succ_of_le, fun hle ↦ ?_⟩
        have hne : k.head ≠ n := fun hh ↦ hn ⟨k, hk, hh⟩
        omega
      rw [hmap]

/-! ## The law -/

/-- The map is what the audits come to: of each state the newest applied event into it, as the
audits are folded in one by one, and as migration 2 groups them. -/
structure ComesTo (id : String) (audits : List Audit) (entered : Entered) : Prop where
  newest : ∀ state, entered[state]? =
    ((audits.filter fun a ↦ a.enters id && a.toState = state).map (·.at_)).max?
  folded : entered = foldEntered ∅ id audits
  migrated : entered = m2Entered id audits

theorem m2Entered_comesTo {audits : List Audit} : ComesTo id audits (m2Entered id audits) where
  newest state := by
    rw [m2Entered, Latest.getElem?_groupMax, Latest.valuesOf, entries, List.filter_map, List.map_map,
      List.filter_filter]
    simp only [Function.comp_def, Bool.and_comm]
  folded := foldEntered_history.symm
  migrated := rfl

/-- **A delivery's map is its history's.**  At every revision it is what the history of the id
comes to since the delivery was created; and where no delivery of the id was there before, all of
it. -/
theorem entered_since_created (h : DeliveriesRun floor cfg fuel turns) (hne : id ≠ "")
    (hslash : '/' ∉ id.toList) {n : ℕ} {i : Item Value}
    (hi : (worldAt cfg fuel turns).itemAt n (Keys.delivery id) = some i) :
    ∃ row entered, i.value.data = .payload (.delivery row (some entered)) ∧
      ComesTo id (history (worldAt cfg fuel turns) id i.createRev.main n) entered ∧
      ((∀ m < i.createRev.main, (worldAt cfg fuel turns).itemAt m (Keys.delivery id) = none) →
        ComesTo id (history (worldAt cfg fuel turns) id 0 n) entered) := by
  have hid := Keys.idOf_delivery hne hslash
  obtain ⟨row, hrow⟩ := entered_run h hid n i hi
  refine ⟨row, _, hrow, m2Entered_comesTo, fun hfirst ↦ ?_⟩
  have hwhole : m2Entered id (history (worldAt cfg fuel turns) id i.createRev.main n) =
      m2Entered id (history (worldAt cfg fuel turns) id 0 n) := by
    refine Latest.groupMax_congr fun p ↦ ?_
    simp only [mem_entries_history]
    refine exists_congr fun k ↦ and_congr_right fun hk ↦
      ⟨fun ⟨_, hu, hp⟩ ↦ ⟨Nat.zero_le _, hu, hp⟩, fun ⟨_, hu, hp⟩ ↦ ⟨?_, hu, hp⟩⟩
    -- A commit that audits the delivery leaves one, and none was there before this one.
    by_contra hlt
    have hnone := hfirst (k.head + 1) (by omega)
    obtain ⟨hno, -⟩ | ⟨j, -, hj, -⟩ := h.folds hid hk
    · obtain ⟨a, ha, henters, -⟩ := mem_entries.mp hp
      rw [hno a ha] at henters
      cases henters
    · rw [hj] at hnone
      cases hnone
  rw [hwhole]
  exact m2Entered_comesTo

end Run

/-! ## A delivery created anew -/

namespace Reborn

open Recut (filed cutOf)

/-- The bead is filed, cut into `b1` and ejected from it; its record is deleted, and its delivery is
collected; then the bead is filed and cut again. -/
def refiledItems : List (Item Value) :=
  [recordItem filed ⟨7, 0⟩ ⟨7, 0⟩, gateItem filed ⟨7, 1⟩ ⟨7, 1⟩]

def recutIssue : Issue := issue (.cut (cutOf "b2" 8)) "cut" refiledItems [] "r6" 7

def calls : List (Option (Call Value) × ℕ) :=
  [(createCall (View.only []) "sp-1" filed (some filed.tip) ⟨"r0", "op", "k", none⟩ 0, 11),
    (Recut.cutIssue.call, 16), (Recut.ejectIssue.call, 16),
    (planningClosedCall (View.only Recut.ejectedItems) "sp-1" 0 ⟨"r3", "op", "k", none⟩, 16),
    (some (.delete (Keys.lifecycle "sp-1") none (partRequest ⟨"r4", "op", "k", none⟩ "delete")), 16),
    (some (.tick 0), 40),
    (createCall (View.only []) "sp-1" filed (some filed.tip) ⟨"r5", "op", "k", none⟩ 6, 16),
    (recutIssue.call, 20)]

def items : List (Item Value) :=
  Recut.filedItems ++ Recut.index :: Recut.openedItem :: Recut.firstItems ++ Recut.ejectedItems ++
    refiledItems

def turns : List (Turn Env ℕ (Call Value)) := oneByOne calls

/-- The delivery as the second cut leaves it. -/
def delivery : Item Value :=
  deliveryItem (Delivery.step (.startQueue "sp-1") (deliveryEvent (.startQueue "sp-1") (.cut "b2") "op"))
    ((({} : Entered).insert "QUEUED" 8).insert "BATCHED" 8) ⟨8, 3⟩ ⟨8, 3⟩

/-- The run, evaluated: each call is made when the one before it is done, the items are those that
were read, and the history of the bead has the exit of its first delivery. -/
theorem world_ends :
    (Pool.started World.env World.reopen (call stillConfig 1) ⟨World.init Value, []⟩
      turns).map (·.2.store.head) = List.range 8 ∧
    (∀ i ∈ items, (worldAt stillConfig 1 turns).itemAt i.modRev.main i.key = some i) ∧
    (worldAt stillConfig 1 turns).itemAt 8 (Keys.delivery "sp-1") = some delivery ∧
    ((history (worldAt stillConfig 1 turns) "sp-1" 0 8).filter fun a ↦
      a.enters "sp-1" && a.toState = "EXITED").map (·.at_) = [7] := by
  decide +kernel

theorem controlRun : ControlRun 1000 stillConfig 1 turns := by
  refine controlRun_oneByOne world_ends.1 fun j p hp call w hcall hg hhead ↦ ?_
  have hreads {l : List (Item Value)} (hl : l ⊆ items) (hle : ∀ i ∈ l, i.modRev.main ≤ j)
      (ho : inOrder l) : (Reads.only l).Of w :=
    Reads.only_of_grows world_ends.2.1 hg hl (hhead ▸ hle) ho
  match j with
  | 0 =>
    obtain rfl := Option.some.inj hp
    exact .create (hreads (l := []) (by simp) (by simp) rfl).view hcall
  | 1 =>
    obtain rfl := Option.some.inj hp
    exact .round (i := Recut.cutIssue)
      (issue_reads (hreads (by simp [items]) (by decide) (by decide))) hcall
  | 2 =>
    obtain rfl := Option.some.inj hp
    exact .round (i := Recut.ejectIssue) (issue_reads
      (hreads (by simp [items, Recut.firstItems]) (by decide) (by decide))) hcall
  | 3 =>
    obtain rfl := Option.some.inj hp
    have hv : View.Of (View.only Recut.ejectedItems) w :=
      (hreads (l := Recut.ejectedItems) (by simp [items, Recut.ejectedItems]) (by decide)
        (by decide)).view
    dsimp only at hcall
    exact .planningClosed hv hcall
  | 4 =>
    obtain rfl := Option.some.inj hp
    obtain rfl := Option.some.inj hcall
    exact .delete
  | 5 =>
    obtain rfl := Option.some.inj hp
    obtain rfl := Option.some.inj hcall
    exact .other (by simp [Call.writes])
  | 6 =>
    obtain rfl := Option.some.inj hp
    exact .create (hreads (l := []) (by simp) (by simp) rfl).view hcall
  | 7 =>
    obtain rfl := Option.some.inj hp
    exact .round (i := recutIssue) (issue_reads
      (hreads (by simp [items, refiledItems]) (by decide) (by decide))) hcall
  | n + 8 => cases hp

theorem deliveriesRun : DeliveriesRun 1000 stillConfig 1 turns where
  control := controlRun
  others call hmem hw a ha hm := by
    have hcalls : call ∈ calls.filterMap (·.1) := by
      rw [← spawned_oneByOne]
      exact List.mem_filterMap.mpr ⟨_, hmem, rfl⟩
    -- Whatever writes none of the kept keys here audits nothing.
    have hnone : ∀ call ∈ calls.filterMap (·.1), (∀ key ∈ Call.writes call, kept key = false) →
        (Call.audits call).1 ++ (Call.audits call).2 = [] := by
      decide
    rw [hnone call hcalls hw] at ha
    cases ha

end Reborn

/-- **A delivery created anew has not the whole history of its id**: the exit of the one before it
is in the history, and not in its map. -/
theorem reborn_starts_anew : ∃ (cfg : Config Value) (fuel : ℕ)
    (turns : List (Turn Env ℕ (Call Value))) (i : Item Value) (row : DeliveryRow) (entered : Entered),
    DeliveriesRun 1000 cfg fuel turns ∧
    (worldAt cfg fuel turns).itemAt 8 (Keys.delivery "sp-1") = some i ∧
    i.value.data = .payload (.delivery row (some entered)) ∧
    ¬ ComesTo "sp-1" (history (worldAt cfg fuel turns) "sp-1" 0 8) entered := by
  obtain ⟨-, -, hdelivery, hexit⟩ := Reborn.world_ends
  refine ⟨stillConfig, 1, Reborn.turns, _, _, _, Reborn.deliveriesRun, hdelivery, rfl, fun h ↦ ?_⟩
  have hnewest := h.newest "EXITED"
  rw [hexit] at hnewest
  revert hnewest
  decide

/-- The map of the bead's second delivery is the history's since it was created. -/
theorem entered_since_created_reborn : ∃ row entered,
    Reborn.delivery.value.data = .payload (.delivery row (some entered)) ∧
      ComesTo "sp-1" (history (worldAt stillConfig 1 Reborn.turns) "sp-1"
        Reborn.delivery.createRev.main 8) entered := by
  obtain ⟨row, entered, hdata, hcomes, -⟩ := entered_since_created Reborn.deliveriesRun (by decide)
    (by decide) Reborn.world_ends.2.2.1
  exact ⟨row, entered, hdata, hcomes⟩

end Spira.Control
