import Spira.Control.Entered
import Spira.Control.RecordKeys

/-!
# What is under a prefix

A record is all there is under the prefix of the records, and a delivery under that of the
deliveries, each under the id it has: every call of the control store puts there what belongs
(`Issued.proper`), and so it is at every revision of a run (`kinds_run`).
-/

set_option autoImplicit false

namespace Spira.Control

open Spira.Bead Spira.Delivery Store Store.Contract Stopping Cascade
open KeyPrefix (starts)

/-! ## What belongs under a key -/

/-- The object belongs under the key. -/
structure OfKind (key : String) (o : Object Value) : Prop where
  lifecycle : starts Keys.lifecyclePrefix key →
    ∃ r, o.data = .payload (.lifecycle r) ∧ key = Keys.lifecycle r.row.beadId
  delivery : starts Keys.deliveriesPrefix key →
    ∃ row e, o.data = .payload (.delivery row e) ∧ key = Keys.delivery row.beadId

/-- What the op puts belongs under its key. -/
def OpOfKind : Op Value → Prop
  | .put key v => OfKind key v
  | .lockAcquire key ttlMs => OfKind key (lockValue ttlMs)
  | .delete _ => True

/-- What the call puts belongs under its keys, where the caller says what it puts. -/
def Call.Proper : Call Value → Prop
  | .create key value _ => OfKind key value
  | .txn t _ => ∀ o ∈ t.ops ++ t.elseOps, OpOfKind o
  | .lock resource ttlMs _ => OfKind (lockKey resource) (lockValue ttlMs)
  | _ => True

/-- A view has under its keys what belongs there. -/
def View.Proper (view : View) : Prop := ∀ key i, view key = some i → OfKind key i.value

section Kinds

variable {key pre : String} {o : Object Value} {view : View} {id : String}

/-- Anything belongs under another prefix. -/
theorem ofKind_of_starts (h : starts pre key)
    (hl : starts Keys.lifecyclePrefix pre = false ∧ starts pre Keys.lifecyclePrefix = false)
    (hd : starts Keys.deliveriesPrefix pre = false ∧ starts pre Keys.deliveriesPrefix = false) :
    OfKind key o where
  lifecycle hkey := by
    rw [KeyPrefix.not_starts h hl.2 hl.1] at hkey
    cases hkey
  delivery hkey := by
    rw [KeyPrefix.not_starts h hd.2 hd.1] at hkey
    cases hkey

/-- Anything belongs under the keys of others. -/
theorem ofKind_of_kept (h : kept key = false) : OfKind key o := by
  rw [kept, List.any_eq_false] at h
  constructor
  · intro hkey
    exact absurd hkey (h _ (by simp))
  · intro hkey
    exact absurd hkey (h _ (by simp))

theorem ofKind_record {r : LifecycleRecord} (h : o.data = .payload (.lifecycle r))
    (hid : r.row.beadId = id) : OfKind (Keys.lifecycle id) o where
  lifecycle _ := ⟨r, h, by rw [hid]⟩
  delivery hkey := by
    rw [KeyPrefix.not_starts (Keys.starts_lifecycle id) (by decide) (by decide)] at hkey
    cases hkey

theorem ofKind_delivery {row : DeliveryRow} {e : Option Entered}
    (h : o.data = .payload (.delivery row e)) (hid : row.beadId = id) :
    OfKind (Keys.delivery id) o where
  lifecycle hkey := by
    rw [KeyPrefix.not_starts (Keys.starts_delivery id) (by decide) (by decide)] at hkey
    cases hkey
  delivery _ := ⟨row, e, h, by rw [hid]⟩

theorem ofKind_lock {resource : String} : OfKind (lockKey resource) o :=
  ofKind_of_starts (starts_lockKey resource) (by decide) (by decide)

theorem OfKind.congr {o' : Object Value} (h : OfKind key o) (hdata : o'.data = o.data) :
    OfKind key o' := by
  constructor
  · intro hkey
    rw [hdata]
    exact h.lifecycle hkey
  · intro hkey
    rw [hdata]
    exact h.delivery hkey

/-- What belongs anywhere under the keys it writes is proper. -/
theorem proper_of_writes {call : Call Value} (h : ∀ key ∈ Call.writes call, ∀ o, OfKind key o) :
    Call.Proper call := by
  cases call with
  | create key value req => exact h key (List.mem_singleton_self _) value
  | txn t req =>
    intro o ho
    have hkey := h o.key (List.mem_map_of_mem ho)
    cases o with
    | put key value => exact hkey value
    | lockAcquire key ttlMs => exact hkey _
    | delete key => trivial
  | lock resource ttlMs req => exact h _ (List.mem_singleton_self _) _
  | _ => trivial

/-- A key under a prefix is what follows the prefix, after it. -/
theorem exists_of_starts (h : starts pre key) : ∃ rest, key = pre ++ rest := by
  obtain ⟨rest, hrest⟩ := KeyPrefix.starts_string.mp h
  refine ⟨String.ofList rest, ?_⟩
  rw [← String.toList_inj, String.toList_append, String.toList_ofList, hrest]

theorem data_of_decode {r : LifecycleRecord} (h : (decode o : Option LifecycleRecord) = some r) :
    o.data = .payload (.lifecycle r) := by
  obtain ⟨m, data⟩ := o
  cases data with
  | payload v =>
    cases v with
    | lifecycle r' =>
      cases h
      rfl
    | _ => cases h
  | _ => cases h

/-- A record is under its id. -/
theorem OfKind.beadId {r : LifecycleRecord} (h : OfKind (Keys.lifecycle id) o)
    (hr : (decode o : Option LifecycleRecord) = some r) : r.row.beadId = id := by
  obtain ⟨r', hr', hkey⟩ := h.lifecycle (Keys.starts_lifecycle id)
  rw [data_of_decode hr] at hr'
  cases hr'
  exact (Keys.lifecycle_inj.mp hkey).symm

/-- A delivery is under the id of its bead. -/
theorem OfKind.delivery_beadId {row : DeliveryRow} (h : OfKind (Keys.delivery id) o)
    (hr : (decode o : Option DeliveryRow) = some row) : row.beadId = id := by
  obtain ⟨row', e, hrow', hkey⟩ := h.delivery (Keys.starts_delivery id)
  rw [decode, hrow'] at hr
  cases hr
  exact (Keys.delivery_inj.mp hkey).symm

/-- No event changes whose record it is. -/
theorem step_beadId {row : BeadRow} {ev : BeadEvent} : (Bead.step row ev).beadId = row.beadId := by
  obtain ⟨-, hrow⟩ | ⟨-, -, mid, hm, hrow⟩ := Bead.step_cases row ev
  · rw [hrow]
  · rw [hrow, settled_beadId]
    generalize ev.kind = kind at hm
    cases hm <;> rfl

/-- No event changes whose delivery it is. -/
theorem delivery_beadId {row : DeliveryRow} {ev : DeliveryEvent} :
    (Delivery.apply row ev).row.beadId = row.beadId := by
  cases h : (Delivery.apply row ev).applied with
  | false => rw [Delivery.apply_refused h]
  | true =>
    have hm := Delivery.apply_grants h
    generalize (Delivery.apply row ev).row = row' at hm
    generalize ev.kind = kind at hm
    cases hm <;> rfl

/-- A delivery with audits folded into it is under its id still. -/
theorem OfKind.entered {v : Object Value} (h : OfKind key v) (c : Cascade) (s : Slot) :
    OfKind key (c.withEntered s v) := by
  rw [Cascade.withEntered]
  split <;> rename_i hdata
  · refine ⟨fun hkey ↦ ?_, fun hkey ↦ ?_⟩
    · obtain ⟨r, hr, -⟩ := h.lifecycle hkey
      rw [hr] at hdata
      cases hdata
    · obtain ⟨row, e, hr, hid⟩ := h.delivery hkey
      rw [hr] at hdata
      cases hdata
      exact ⟨_, _, rfl, hid⟩
  · split
    · refine ⟨fun hkey ↦ ?_, fun hkey ↦ ?_⟩
      · obtain ⟨r, hr, -⟩ := h.lifecycle hkey
        rw [hr] at hdata
        cases hdata
      · obtain ⟨row, e, hr, hid⟩ := h.delivery hkey
        rw [hr] at hdata
        cases hdata
        exact ⟨_, _, rfl, hid⟩
    · exact h
  · exact h

/-- What is planned at a delivery is the delivery, whatever rides beside it. -/
theorem object_delivery (prior : Option (Object Value)) (row : DeliveryRow) (owners : List String) :
    ∃ e, (object prior (Stored.encode row) owners).data = .payload (.delivery row e) := by
  cases prior with
  | none => exact ⟨none, rfl⟩
  | some o =>
    rw [object, keepEntered.eq_def]
    dsimp only
    split
    · rename_i e row' heq
      cases heq
      exact ⟨_, rfl⟩
    · exact ⟨none, rfl⟩

/-! ## What the verbs of a bead put -/

variable {t : TxnOps Value} {then_ els : List Audit} {req : Request Value} {part : String}
  {plannedAt floor : ℕ} {call : Call Value} {ev : BeadEvent} {cur : LifecycleRecord}
  {item : Item Value}

/-- The entries of a history belong. -/
theorem auditedTxn_proper (h : ∀ o ∈ t.ops ++ t.elseOps, OpOfKind o) :
    Call.Proper (auditedTxn t then_ els req part plannedAt) := by
  intro o ho
  have hentry {audits : List Audit} {n : ℕ} {req' : String}
      (ho : o ∈ (auditedIds audits).map fun a ↦
        .put (Keys.historyEntry a n req') { data := .payload .history }) : OpOfKind o := by
    obtain ⟨a, -, rfl⟩ := List.mem_map.mp ho
    exact ofKind_of_starts (Keys.starts_historyEntry a n req') (by decide) (by decide)
  obtain ho | ho := List.mem_append.mp ho <;> obtain ho | ho := List.mem_append.mp ho
  · exact h o (List.mem_append_left _ ho)
  · exact hentry ho
  · exact h o (List.mem_append_right _ ho)
  · exact hentry ho

theorem gated_proper {prev : Option LifecycleRecord} {next : LifecycleRecord}
    (h : ∀ o ∈ t.ops ++ t.elseOps, OpOfKind o) :
    ∀ o ∈ (gated view t id prev next).ops ++ (gated view t id prev next).elseOps, OpOfKind o := by
  rw [gated]
  split_ifs
  · exact h
  · intro o ho
    simp only [List.mem_append, List.mem_singleton] at ho
    obtain (ho | rfl) | ho := ho
    · exact h o (List.mem_append_left _ ho)
    · exact ofKind_of_starts (Keys.starts_gate id) (by decide) (by decide)
    · exact h o (List.mem_append_right _ ho)

theorem refuseCall_proper {refusal : Option (Refusal BeadEventKind)} :
    Call.Proper (refuseCall id ev cur refusal req plannedAt) :=
  auditedTxn_proper fun _ ho ↦ nomatch ho

/-- A record that is read is under its id. -/
theorem View.Proper.beadId (hview : View.Proper view)
    (h : recordRead view id = some (cur, item)) : cur.row.beadId = id := by
  obtain ⟨i, hi, h⟩ := Option.bind_eq_some_iff.mp h
  obtain ⟨cur', hcur, h⟩ := Option.map_eq_some_iff.mp h
  cases h
  exact (hview _ _ hi).beadId hcur

theorem writeCall_proper {row : BeadRow} {fence : Option Fence} (hid : row.beadId = id) :
    Call.Proper (writeCall view id ev cur item row fence req plannedAt) := by
  refine auditedTxn_proper (gated_proper fun o ho ↦ ?_)
  obtain rfl := List.mem_singleton.mp ho
  exact ofKind_record rfl hid

theorem transition_proper {fence : Option Fence} (hview : View.Proper view)
    (h : transition view id ev fence req plannedAt = some call) : Call.Proper call := by
  obtain ⟨⟨cur, item⟩, hread, rfl⟩ := Option.map_eq_some_iff.mp h
  dsimp only
  split
  · exact refuseCall_proper
  · exact writeCall_proper (step_beadId.trans (hview.beadId hread))

theorem claimCall_proper (hview : View.Proper view)
    (h : claimCall view floor id ev req plannedAt = some call) : Call.Proper call := by
  rw [claimCall.eq_def] at h
  split at h
  · obtain ⟨⟨cur, item⟩, hread, h⟩ := Option.bind_eq_some_iff.mp h
    dsimp only at h
    split at h
    · obtain rfl := Option.some.inj h
      exact refuseCall_proper
    · split at h
      · cases h
      · split at h
        · cases h
        · obtain rfl := Option.some.inj h
          refine auditedTxn_proper (gated_proper fun o ho ↦ ?_)
          simp only [List.append_nil, List.mem_cons, List.not_mem_nil, or_false] at ho
          rcases ho with rfl | rfl
          · exact ofKind_lock
          · exact ofKind_record rfl (step_beadId.trans (hview.beadId hread))
  · cases h

theorem eventCall_proper {live : Option Fence} (hview : View.Proper view)
    (h : eventCall view floor live id ev req plannedAt = some call) : Call.Proper call := by
  rw [eventCall.eq_def] at h
  split at h
  · exact claimCall_proper hview h
  · exact transition_proper hview h
  · obtain ⟨p, -, h⟩ := Option.bind_eq_some_iff.mp h
    dsimp only at h
    split at h
    · obtain rfl := Option.some.inj h
      exact refuseCall_proper
    · cases h
  · exact transition_proper hview h

theorem createCall_proper {born : LifecycleRecord} {submittedTip : Option String}
    (h : createCall view id born submittedTip req plannedAt = some call)
    (hid : born.row.beadId = id) : Call.Proper call := by
  rw [createCall.eq_def] at h
  split at h
  · obtain rfl := Option.some.inj h
    refine auditedTxn_proper (gated_proper fun o ho ↦ ?_)
    obtain rfl := List.mem_singleton.mp ho
    exact ofKind_record rfl hid
  · split at h
    · cases h
    · dsimp only at h
      split at h
      · obtain rfl := Option.some.inj h
        refine auditedTxn_proper (gated_proper fun o ho ↦ ?_)
        obtain rfl := List.mem_singleton.mp ho
        exact ofKind_record rfl rfl
      · cases h

theorem planningClosedCall_proper {attempt : ℕ} (hview : View.Proper view)
    (h : planningClosedCall view id attempt req = some call) : Call.Proper call := by
  obtain ⟨i, hi, h⟩ := Option.bind_eq_some_iff.mp h
  dsimp only at h
  split at h
  · cases h
  · obtain rfl := Option.some.inj h
    intro o ho
    obtain rfl := List.mem_singleton.mp ho
    exact (hview _ i hi).congr rfl

theorem setRepoCall_proper {repo onlyIf : Option String} {attempt : ℕ} (hview : View.Proper view)
    (h : setRepoCall view id repo onlyIf attempt req = some call) : Call.Proper call := by
  obtain ⟨⟨cur, item⟩, hread, h⟩ := Option.bind_eq_some_iff.mp h
  dsimp only at h
  split at h
  · cases h
  · split at h
    · cases h
    · obtain rfl := Option.some.inj h
      intro o ho
      obtain rfl := List.mem_singleton.mp ho
      exact ofKind_record rfl (View.Proper.beadId hview hread : cur.row.beadId = id)

theorem setEdgeCall_proper {dep : String} {edge : Edge} {attempt : ℕ}
    (h : setEdgeCall view id dep edge attempt req = some call) : Call.Proper call := by
  refine proper_of_writes fun key hkey o ↦ ?_
  rw [setEdgeCall_writes h] at hkey
  rw [List.mem_singleton.mp hkey]
  exact ofKind_of_starts (Keys.starts_readiness id) (by decide) (by decide)

end Kinds

/-! ## What a command puts -/

section Rounds

variable {r : Reads} {c c' : Cascade} {key : String}

/-- The cascade leaves under its keys what belongs there. -/
structure Fitted (r : Reads) (c : Cascade) : Prop where
  sound : Sound r.view c
  planned : ∀ key o, c.planned r.view key = some o → OfKind key o

/-- What is put where neither a record nor a delivery is leaves the rest as it was. -/
theorem Fitted.frame {keys : List String} (h : Fitted r c) (hf : Frame r.view keys c c')
    (hk : ∀ key ∈ keys, ∀ o, c'.planned r.view key = some o → OfKind key o) : Fitted r c' where
  sound := hf.sound
  planned key o ho := by
    by_cases hmem : key ∈ keys
    · exact hk key hmem o ho
    · rw [hf.planned key hmem] at ho
      exact h.planned key o ho

theorem ofKind_spared {o : Object Value}
    (h : ¬ OfBeads key ∧ starts Keys.deliveriesPrefix key = false) : OfKind key o where
  lifecycle hkey := absurd (.inl hkey) h.1
  delivery hkey := by
    rw [h.2] at hkey
    cases hkey

/-- **Every step of a command leaves what belongs.** -/
theorem fitted_keeps (hview : View.Proper r.view) :
    KeepsBeads r (Fitted r) fun id row ↦ row.beadId = id where
  sound h := h.sound
  empty := ⟨sound_empty _, fun key o ho ↦ by
    obtain ⟨i, hi, rfl⟩ := Option.map_eq_some_iff.mp ho
    exact hview key i hi⟩
  frame h hf hk := h.frame hf fun key hmem o _ ↦ ofKind_spared (hk key hmem)
  beadStep {id actor kind at_ c} h _ := (beadStep_ends h.sound).imp fun a c' hstep ↦ by
    obtain ⟨-, hf, -⟩ | ⟨-, rec, hrec, -, hf, -, hnext⟩ := hstep
    · exact h.frame hf (by simp)
    · refine h.frame hf fun key hmem o ho ↦ ?_
      simp only [List.mem_cons, List.not_mem_nil, or_false] at hmem
      obtain rfl | rfl := hmem
      · obtain ⟨o₀, ho₀, hdecode⟩ := Option.bind_eq_some_iff.mp hrec
        rw [rowOf, ho] at hnext
        exact ofKind_record (data_of_decode hnext)
          (step_beadId.trans ((h.planned _ o₀ ho₀).beadId hdecode))
      · exact ofKind_of_starts (Keys.starts_gate id) (by decide) (by decide)
  delivery {id row c} h hrow := by
    obtain ⟨o, ho, hdecode⟩ := Option.bind_eq_some_iff.mp hrow
    exact (h.planned _ o ho).delivery_beadId hdecode
  queued := rfl
  stepped hid := delivery_beadId.trans hid
  putDelivery {id row owners c} h hid := (put_put h.sound).imp fun _ c' hp ↦
    h.frame hp.frame fun key hmem o ho ↦ by
      obtain rfl := List.mem_singleton.mp hmem
      rw [hp.planned] at ho
      obtain rfl := Option.some.inj ho
      obtain ⟨e, he⟩ := object_delivery (c.planned r.view (Keys.delivery id)) row owners
      exact ofKind_delivery he hid

/-- The queue's fields are of a round. -/
theorem Fitted.fielded (h : Fitted r c) (hf : Fielded r.view c c') : Fitted r c' where
  sound := hf.sound
  planned key o ho := by
    obtain heq | ⟨m, rec, fields, rfl, -, -⟩ := hf.planned key
    · rw [heq] at ho
      exact h.planned key o ho
    · exact ofKind_spared ofRounds_batch.spares

variable {i : Issue} {call : Call Value}

/-- **What a cascade writes belongs under its keys.** -/
theorem Issue.proper (h : i.call = some call) (hview : View.Proper i.reads.view) :
    Call.Proper call := by
  rw [Issue.call] at h
  split at h
  · rename_i c hc
    obtain rfl := Option.some.inj h
    have hfit : Fitted i.reads c := by
      obtain ⟨c₀, h₀, rfl | hf⟩ := Issue.cascade_ends hc
        (command_beads (fitted_keeps hview) i.command) fun _ h ↦ h.sound
      · exact h₀
      · exact h₀.fielded hf
    refine auditedTxn_proper fun o ho ↦ ?_
    rw [show c.txn.elseOps = [] from rfl, List.append_nil] at ho
    obtain ⟨s, hs, hput⟩ := List.mem_filterMap.mp ho
    obtain ⟨hmem, -⟩ := List.mem_filter.mp hs
    obtain ⟨v, hv, rfl⟩ := Option.map_eq_some_iff.mp hput
    exact (hfit.planned s.key v (by rw [hfit.sound.planned hmem, hv])).entered c s
  · obtain rfl := Option.some.inj h
    exact auditedTxn_proper fun _ ho ↦ absurd ho List.not_mem_nil
  · cases h

/-- **Every call of the control store puts under a prefix what belongs there.** -/
theorem Issued.proper {floor : ℕ} {w : World Value} (h : Issued floor w call)
    (hview : ∀ view, View.Of view w → View.Proper view) : Call.Proper call := by
  cases h with
  | round reads h => exact Issue.proper h (hview _ reads.view)
  | create reads h => exact createCall_proper h born_beadId
  | createOpen reads h => exact createCall_proper h rfl
  | event reads fence h => exact eventCall_proper (hview _ reads) h
  | claimAgain =>
    intro o ho
    obtain rfl := List.mem_singleton.mp ho
    exact ofKind_lock
  | renewLock => trivial
  | release reads h => trivial
  | planningClosed reads h => exact planningClosedCall_proper (hview _ reads) h
  | setRepo reads h => exact setRepoCall_proper (hview _ reads) h
  | setEdge reads h => exact setEdgeCall_proper h
  | delete => trivial
  | other h => exact proper_of_writes fun key hkey o ↦ ofKind_of_kept (h key hkey)

end Rounds

/-! ## In a run -/

section Run

variable {snap after : View} {J : String → Bool → Prop} {ok : Bool} {ops : List (Op Value)}
  {main : ℕ} {call : Call Value} {floor : ℕ} {cfg : Config Value} {fuel : ℕ}
  {turns : List (Turn Env ℕ (Call Value))}

/-- A branch puts what its call does, or a lock. -/
theorem proper_branch (h : Call.Proper call) (hc : Chosen snap J ok ops call) :
    ∀ o ∈ ops, OpOfKind o := by
  intro o ho
  cases call with
  | create key value req =>
    rw [hc.2.1] at ho
    rw [List.mem_singleton.mp ho]
    exact h
  | txn t req =>
    rw [hc.1] at ho
    refine h o (List.mem_append.mpr ?_)
    split at ho
    · exact .inl ho
    · exact .inr ho
  | delete key expect req =>
    rw [hc.2.1] at ho
    rw [List.mem_singleton.mp ho]
    trivial
  | lock resource ttlMs req =>
    rw [hc.2.1] at ho
    rw [List.mem_singleton.mp ho]
    exact ofKind_lock
  | renew f req =>
    obtain ⟨-, -, i, -, rfl⟩ := hc
    rw [List.mem_singleton.mp ho]
    exact ofKind_lock
  | renewFor f ttlMs req =>
    obtain ⟨-, -, rfl, -⟩ := hc
    rw [List.mem_singleton.mp ho]
    exact ofKind_lock
  | release f req =>
    rw [hc.2.1] at ho
    rw [List.mem_singleton.mp ho]
    trivial
  | tick lag => exact hc.elim

/-- **What is put belongs, and what is left did.** -/
theorem View.Proper.effect (h : View.Proper snap) (hops : ∀ o ∈ ops, OpOfKind o)
    (he : Effect snap after main ops) : View.Proper after := by
  intro key i hi
  -- Anything belongs under a key that is neither a record's nor a delivery's.
  by_cases hours : starts Keys.lifecyclePrefix key ∨ starts Keys.deliveriesPrefix key
  swap
  · exact ⟨fun hkey ↦ absurd (.inl hkey) hours, fun hkey ↦ absurd (.inr hkey) hours⟩
  have hplain : Plain key := by
    rcases hours with hkey | hkey
    · exact (apart_of_starts hkey (by decide)).1
    · exact (apart_of_starts hkey (by decide)).1
  by_cases htouched : ∃ o ∈ ops, o.key = key
  · obtain ⟨o, ho, rfl⟩ := htouched
    obtain ⟨s, sub, hres, ha⟩ | ⟨-, -, ha⟩ := he.resolved o ho hplain
    · rw [ha] at hi
      obtain ⟨v, hv, rfl⟩ := Option.map_eq_some_iff.mp hi
      cases o with
      | put key value =>
        obtain rfl := hres
        cases hv
        exact (hops _ ho).congr (keepMark_data _ _)
      | lockAcquire key ttlMs =>
        obtain rfl := hres
        cases hv
        exact hops _ ho
      | delete key =>
        obtain ⟨p, hp, ⟨-, rfl⟩ | ⟨-, m, -, rfl⟩⟩ := hres
        · cases hv
        · cases hv
          exact (h _ p hp).congr (keepMark_data _ _)
    · rw [ha] at hi
      cases hi
  · rw [he.untouched key hplain fun o ho hkey ↦ htouched ⟨o, ho, hkey⟩] at hi
    exact h key i hi

/-- **At every revision a record is all there is under the prefix of the records, and a delivery
under that of the deliveries.** -/
theorem kinds_run (h : ControlRun floor cfg fuel turns) (n : ℕ) :
    View.Proper ((worldAt cfg fuel turns).itemAt n) := by
  have hreachable : Reachable (worldAt cfg fuel turns) := (runs_keep turns).1
  have hall : ∀ m ≤ n, View.Proper ((worldAt cfg fuel turns).itemAt m) := by
    induction n with
    | zero =>
      intro m hm key i hi
      rw [Nat.le_zero.mp hm, itemAt_zero] at hi
      cases hi
    | succ n ih =>
      intro m hm
      obtain hm | rfl := Nat.le_succ_iff.mp hm
      · exact ih m hm
      · by_cases hn : ∃ c, .committed c ∈ (worldAt cfg fuel turns).trace ∧ c.head = n
        · obtain ⟨k, hk, rfl⟩ := hn
          obtain ⟨pre, ops, -, hacts, he⟩ := runs_effect turns hk
          refine (ih k.head le_rfl).effect (fun o ho ↦ ?_) he
          cases ha : k.author with
          | expire =>
            rw [ha] at hacts
            obtain ⟨keys, rfl, -⟩ := hacts
            obtain ⟨key, -, rfl⟩ := List.mem_map.mp ho
            trivial
          | collect kind =>
            rw [ha] at hacts
            obtain ⟨keys, rfl, -⟩ := hacts
            obtain ⟨key, -, rfl⟩ := List.mem_map.mp ho
            trivial
          | call call =>
            rw [ha] at hacts
            obtain ⟨w, hg, hle, hissued⟩ := h.issued hk ha
            have hproper := hissued.proper fun view hview key i hi ↦ by
              obtain ⟨at_, hat, heq⟩ := View.Of.upTo hview hg hle key
              rw [heq] at hi
              exact ih at_ hat key i hi
            exact proper_branch hproper hacts o ho
        · rw [hreachable.itemAt_unused fun c hc hh ↦ hn ⟨c, hc, hh⟩]
          exact ih n le_rfl
  exact hall n le_rfl

end Run

end Spira.Control
