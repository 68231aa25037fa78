import Spira.Control.RecordKeys

/-!
# The gate mirror

The gate of a record is a copy of what its dependents need of it, under a key of its own.  Every
commit leaves each record with its gate (`mirrors_run`), so a claim, which compares the gates its
readiness was judged against, compares what the blockers' records are.

What is said of a bead after a commit is said of one bead at a time (`Kept`): its gate is its
record's, and where its record has come to be WORKING its claim lock was taken by the same commit.
-/

set_option autoImplicit false

namespace Spira.Control

open Spira.Bead Spira.Batch Spira.Delivery Store Store.Contract Stopping
open KeyPrefix (starts)

/-- The gate of `id` is its record's, where there is one. -/
structure Mirrors (snap : View) (id : String) : Prop where
  shape : ∀ j, snap (Keys.gate id) = some j → ∃ g, j.value = gateObject id g
  record : ∀ rec, recordOf LifecycleRecord snap (Keys.lifecycle id) = some rec →
    ∃ j, snap (Keys.gate id) = some j ∧ j.value = gateObject id rec.gate

/-- A record that is WORKING after was so before, or its claim lock is taken at `main`. -/
def TakesUp (snap after : View) (main : ℕ) (id : String) : Prop :=
  ∀ rec, recordOf LifecycleRecord after (Keys.lifecycle id) = some rec → rec.row.state = .working →
    (∃ cur, recordOf LifecycleRecord snap (Keys.lifecycle id) = some cur ∧ cur.row.state = .working) ∨
      ∃ l, after (Keys.claimLock id) = some l ∧ l.createRev.main = main

/-- What the commit of `main` keeps of a bead. -/
structure Kept (snap after : View) (main : ℕ) (id : String) : Prop where
  mirrors : Mirrors after id
  takesUp : TakesUp snap after main id

/-- The call writes a reclassification as WORKING of the record of `id` that `view` has. -/
def Reclassifies (view : View) (id : String) (call : Call Value) : Prop :=
  ∃ ev rule cur item req plannedAt, ev.kind = .reclassify .working rule ∧
    recordRead view id = some (cur, item) ∧ (Bead.apply cur.row ev).applied = true ∧
    call = writeCall view id ev cur item (Bead.apply cur.row ev).row none req plannedAt

/-! ## What a branch keeps -/

section Branch

variable {view snap after : View} {J : String → Bool → Prop} {ok : Bool} {ops : List (Op Value)}
  {main : ℕ} {id : String} {call : Call Value} {t : TxnOps Value} {then_ els : List Audit}
  {req : Request Value} {part : String} {plannedAt : ℕ}

theorem recordOf_same {T : Type} [Stored T] {key : String} (h : after key = snap key) :
    recordOf T after key = recordOf T snap key := by
  rw [recordOf, h, recordOf]

/-- Where the gate is left, and the record moves neither it nor into WORKING, all is kept. -/
theorem kept_of_record (hm : Mirrors snap id) (hg : after (Keys.gate id) = snap (Keys.gate id))
    (hl : ∀ rec, recordOf LifecycleRecord after (Keys.lifecycle id) = some rec →
      ∃ cur, recordOf LifecycleRecord snap (Keys.lifecycle id) = some cur ∧ cur.gate = rec.gate ∧
        (rec.row.state = .working → cur.row.state = .working)) : Kept snap after main id where
  mirrors := by
    refine ⟨fun j hj ↦ hm.shape j (hg ▸ hj), fun rec hrec ↦ ?_⟩
    obtain ⟨cur, hcur, hgate, -⟩ := hl rec hrec
    obtain ⟨j, hj, hvalue⟩ := hm.record cur hcur
    exact ⟨j, hg.trans hj, hgate ▸ hvalue⟩
  takesUp rec hrec hw := by
    obtain ⟨cur, hcur, -, hworking⟩ := hl rec hrec
    exact .inl ⟨cur, hcur, hworking hw⟩

theorem kept_of_same (hm : Mirrors snap id)
    (hl : recordOf LifecycleRecord after (Keys.lifecycle id) =
      recordOf LifecycleRecord snap (Keys.lifecycle id))
    (hg : after (Keys.gate id) = snap (Keys.gate id)) : Kept snap after main id :=
  kept_of_record hm hg fun rec hrec ↦ ⟨rec, hl ▸ hrec, rfl, fun hw ↦ hw⟩

/-- A call that may write neither of a bead's keys keeps it. -/
theorem kept_of_writes (hm : Mirrors snap id) (hc : Chosen snap J ok ops call)
    (he : Effect snap after main ops) (hl : Keys.lifecycle id ∉ Call.writes call)
    (hg : Keys.gate id ∉ Call.writes call) : Kept snap after main id := by
  have hsame {key : String} (hkey : Apart key) (hno : key ∉ Call.writes call) : after key = snap key :=
    he.untouched key hkey.1 fun o ho hk ↦ hno (hk ▸ Chosen.writes hc o ho)
  exact kept_of_same hm (recordOf_same (hsame apart_lifecycle hl)) (hsame apart_gate hg)

/-- What an audited transaction writes apart from its history is its branch's own. -/
theorem audited_untouched (hc : Chosen snap J ok ops (auditedTxn t then_ els req part plannedAt))
    (he : Effect snap after main ops) {key : String} (hkey : Apart key)
    (hno : ∀ o ∈ if ok then t.ops else t.elseOps, o.key ≠ key) : after key = snap key := by
  refine he.untouched key hkey.1 fun o ho hk ↦ ?_
  rw [hc.1] at ho
  cases ok with
  | true => exact hno o (Cascade.mem_auditedOps ho (by rw [hk]; exact hkey.2)) hk
  | false => exact hno o (Cascade.mem_auditedOps ho (by rw [hk]; exact hkey.2)) hk

/-- A transaction that only audits keeps every bead. -/
theorem kept_of_audits (hm : Mirrors snap id)
    (hc : Chosen snap J ok ops (auditedTxn {} then_ els req part plannedAt))
    (he : Effect snap after main ops) : Kept snap after main id := by
  have hno {key : String} : ∀ o ∈ if ok then (TxnOps.ops {} : List (Op Value)) else TxnOps.elseOps {},
      o.key ≠ key := by cases ok <;> simp
  exact kept_of_same hm (recordOf_same (audited_untouched hc he apart_lifecycle hno))
    (audited_untouched hc he apart_gate hno)

/-- A lock that a transaction takes is there after, and is its own. -/
theorem lock_taken {ttl : ℕ} {key : String}
    (hc : Chosen snap J true ops (auditedTxn t then_ els req part plannedAt))
    (he : Effect snap after main ops) (hkey : Plain key) (ho : .lockAcquire key ttl ∈ t.ops) :
    ∃ l, after key = some l ∧ l.createRev.main = main := by
  have hfree : snap key = none := by
    refine hc.2.2 key (List.mem_filterMap.mpr ⟨_, List.mem_append_left _ ho, rfl⟩)
  have hops : Op.lockAcquire key ttl ∈ ops := by
    rw [hc.1]
    exact List.mem_append_left _ ho
  obtain ⟨s, sub, hres, ha⟩ | ⟨hdel, -⟩ := he.resolved _ hops hkey
  · change after key = _ at ha
    obtain rfl : s = ⟨key, some (lockValue ttl), snap key, .put⟩ := hres
    rw [Staged.item, hfree] at ha
    exact ⟨_, ha, rfl⟩
  · cases hdel

/-- A gate is never marked, so what is put there is there as it is put. -/
theorem Mirrors.unmarked (h : Mirrors snap id) (v : Object Value) :
    keepMark ((snap (Keys.gate id)).bind Item.mark) v = v := by
  cases hs : snap (Keys.gate id) with
  | none => rfl
  | some i =>
    obtain ⟨g, hg⟩ := h.shape i hs
    have hmark : Item.mark i = none := by
      rw [Item.mark, hg]
      rfl
    rw [Option.bind_some, hmark]
    rfl

/-! ## The verbs of a bead -/

theorem gated_ops {prev : Option LifecycleRecord} {next : LifecycleRecord} {o : Op Value}
    (ho : o ∈ t.ops) : o ∈ (gated view t id prev next).ops := by
  rw [gated]
  split_ifs
  · exact ho
  · exact List.mem_append_left _ ho

theorem gated_compare {prev : Option LifecycleRecord} {next : LifecycleRecord} {c : Compare Value}
    (h : c ∈ t.compares) : c ∈ (gated view t id prev next).compares := by
  rw [gated]
  split_ifs <;> exact h

@[simp] theorem gated_elseOps {prev : Option LifecycleRecord} {next : LifecycleRecord} :
    (gated view t id prev next).elseOps = t.elseOps := by
  rw [gated]
  split_ifs <;> rfl

/-- **A record that is written with its gate has it after.** -/
theorem gated_mirrors {prev : Option LifecycleRecord} {next : LifecycleRecord} {o : Object Value}
    (hc : Chosen snap J ok ops (auditedTxn (gated view t id prev next) then_ els req part plannedAt))
    (he : Effect snap after main ops) (hm : Mirrors snap id) (helse : t.elseOps = [])
    (hput : .put (Keys.lifecycle id) o ∈ t.ops) (hdec : decode o = some next)
    (hgate : ∀ o ∈ t.ops, o.key ≠ Keys.gate id)
    (hprev : ok = true → recordOf LifecycleRecord snap (Keys.lifecycle id) = prev) :
    Mirrors after id ∧ recordOf LifecycleRecord after (Keys.lifecycle id) =
      if ok then some next else recordOf LifecycleRecord snap (Keys.lifecycle id) := by
  cases ok with
  | false =>
    have hno {key : String} : ∀ o ∈ if false then (gated view t id prev next).ops else
        (gated view t id prev next).elseOps, o.key ≠ key := by simp [helse]
    have hrecord : recordOf LifecycleRecord after (Keys.lifecycle id) =
        recordOf LifecycleRecord snap (Keys.lifecycle id) :=
      recordOf_same (audited_untouched hc he apart_lifecycle hno)
    have hkept : Kept snap after main id :=
      kept_of_same hm hrecord (audited_untouched hc he apart_gate hno)
    exact ⟨hkept.mirrors, hrecord⟩
  | true =>
    have hprev := hprev rfl
    have hmem {o : Op Value} (ho : o ∈ (gated view t id prev next).ops) : o ∈ ops := by
      rw [hc.1]
      exact List.mem_append_left _ ho
    have hrecord : recordOf LifecycleRecord after (Keys.lifecycle id) = some next := by
      obtain ⟨i, hi, hvalue⟩ :=
        Option.map_eq_some_iff.mp (he.put (hmem (gated_ops hput)) apart_lifecycle.1)
      rw [recordOf, hi, Option.bind_some, hvalue, Cascade.decode_keepMark, hdec]
    have hmirror : ∃ j, after (Keys.gate id) = some j ∧ j.value = gateObject id next.gate := by
      by_cases hunmoved : prev.map (·.gate) = some next.gate ∧ (view (Keys.gate id)).isSome
      · -- The gate is left, and is that of the record as it was.
        obtain ⟨cur, rfl, hsame⟩ := Option.map_eq_some_iff.mp hunmoved.1
        obtain ⟨j, hj, hvalue⟩ := hm.record cur hprev
        refine ⟨j, ?_, hsame ▸ hvalue⟩
        rw [← hj]
        refine audited_untouched hc he apart_gate fun o ho ↦ hgate o ?_
        rwa [if_pos rfl, gated, if_pos hunmoved] at ho
      · have hgateOp : Op.put (Keys.gate id) (gateObject id next.gate) ∈ ops := by
          refine hmem ?_
          rw [gated, if_neg hunmoved]
          simp
        obtain ⟨j, hj, hvalue⟩ := Option.map_eq_some_iff.mp (he.put hgateOp apart_gate.1)
        exact ⟨j, hj, hvalue.trans (hm.unmarked _)⟩
    refine ⟨⟨fun j hj ↦ ?_, fun rec hrec ↦ ?_⟩, hrecord⟩
    · obtain ⟨j', hj', hvalue⟩ := hmirror
      rw [hj] at hj'
      obtain rfl := Option.some.inj hj'
      exact ⟨_, hvalue⟩
    · rw [hrecord] at hrec
      obtain rfl := Option.some.inj hrec
      exact hmirror

/-- A record that is written with its gate keeps the bead, where it stays out of WORKING or takes
the claim lock. -/
theorem gated_kept {prev : Option LifecycleRecord} {next : LifecycleRecord} {o : Object Value}
    (hc : Chosen snap J ok ops (auditedTxn (gated view t id prev next) then_ els req part plannedAt))
    (he : Effect snap after main ops) (hm : Mirrors snap id) (helse : t.elseOps = [])
    (hput : .put (Keys.lifecycle id) o ∈ t.ops) (hdec : decode o = some next)
    (hgate : ∀ o ∈ t.ops, o.key ≠ Keys.gate id)
    (hprev : ok = true → recordOf LifecycleRecord snap (Keys.lifecycle id) = prev)
    (hw : next.row.state = .working → (∃ cur, prev = some cur ∧ cur.row.state = .working) ∨
      ∃ ttl, .lockAcquire (Keys.claimLock id) ttl ∈ t.ops) : Kept snap after main id := by
  obtain ⟨hmirrors, hrecord⟩ := gated_mirrors hc he hm helse hput hdec hgate hprev
  refine ⟨hmirrors, fun rec hrec hworking ↦ ?_⟩
  rw [hrecord] at hrec
  cases ok with
  | false => exact .inl ⟨rec, hrec, hworking⟩
  | true =>
    obtain rfl := Option.some.inj hrec
    obtain ⟨cur, hcur, hcurw⟩ | ⟨ttl, hlock⟩ := hw hworking
    · exact .inl ⟨cur, (hprev rfl).trans hcur, hcurw⟩
    · exact .inr (lock_taken hc he
        (apart_of_starts (Keys.starts_claimLock id) (by decide)).1 (gated_ops hlock))

/-- A compare of a revision that holds is of the revision there is. -/
theorem takes_modRev {key : String} {want : Option Rev} (h : Store.Contract.Takes snap J t true)
    (ht : .modRev key want ∈ t.compares) : (snap key).map (·.modRev) = want := by
  obtain h | ⟨live, -, h⟩ := h.1 _ ht
  · simpa [Compare.holdsIn] using h true
  · simpa [Compare.holdsIn] using h

/-- A transaction's compare of a record's revision is that it is the one that was read. -/
theorem compared_record {cur : LifecycleRecord} {item : Item Value}
    (hview : ∀ key, (snap key).map (·.modRev) = (view key).map (·.modRev) → snap key = view key)
    (hread : recordRead view id = some (cur, item))
    (hc : Store.Contract.Takes snap J t ok) (hok : ok = true)
    (ht : .modRev (Keys.lifecycle id) (some item.modRev) ∈ t.compares) :
    snap (Keys.lifecycle id) = some item ∧
      recordOf LifecycleRecord snap (Keys.lifecycle id) = some cur := by
  subst hok
  obtain ⟨item', hitem, hdec⟩ := Option.bind_eq_some_iff.mp hread
  obtain ⟨cur', hcur, hpair⟩ := Option.map_eq_some_iff.mp hdec
  obtain ⟨rfl, rfl⟩ := Prod.mk.inj hpair
  have hholds : (snap (Keys.lifecycle id)).map (·.modRev) = some item'.modRev :=
    takes_modRev hc ht
  have hsnap : snap (Keys.lifecycle id) = some item' := by
    rw [hview _ (by rw [hholds, hitem]; rfl), hitem]
  exact ⟨hsnap, by rw [recordOf, hsnap, Option.bind_some, hcur]⟩

variable {ev : BeadEvent} {cur : LifecycleRecord} {item : Item Value} {fence : Option Fence}
  {floor : ℕ}

theorem claimLock_ne_gate : Keys.claimLock id ≠ Keys.gate id :=
  Keys.ne_of_starts (Keys.starts_claimLock id) (Keys.starts_gate id) (by decide) (by decide)

theorem decode_objectLike {next : LifecycleRecord} :
    decode (objectLike item (.lifecycle next)) = some next := rfl

theorem writeCall_mirrors (hm : Mirrors snap id)
    (hview : ∀ key, (snap key).map (·.modRev) = (view key).map (·.modRev) → snap key = view key)
    (hread : recordRead view id = some (cur, item)) {row : BeadRow}
    (hc : Chosen snap J ok ops (writeCall view id ev cur item row fence req plannedAt))
    (he : Effect snap after main ops) :
    Mirrors after id ∧ recordOf LifecycleRecord after (Keys.lifecycle id) =
      if ok then some (nextOf ev cur row) else
        recordOf LifecycleRecord snap (Keys.lifecycle id) := by
  rw [writeCall] at hc
  refine gated_mirrors hc he hm rfl (List.mem_singleton.mpr rfl) decode_objectLike
    (by simp [Op.key, lifecycle_ne_gate]) fun hok ↦ ?_
  exact (compared_record hview hread hc.2 hok (gated_compare (by simp))).2

theorem writeCall_kept (hm : Mirrors snap id)
    (hview : ∀ key, (snap key).map (·.modRev) = (view key).map (·.modRev) → snap key = view key)
    (hread : recordRead view id = some (cur, item)) (happlied : (Bead.apply cur.row ev).applied = true)
    (hk : entersWorking ev.kind = false)
    (hc : Chosen snap J ok ops
      (writeCall view id ev cur item (Bead.apply cur.row ev).row fence req plannedAt))
    (he : Effect snap after main ops) : Kept snap after main id := by
  rw [writeCall] at hc
  refine gated_kept hc he hm rfl (List.mem_singleton.mpr rfl) decode_objectLike
    (by simp [Op.key, lifecycle_ne_gate]) (fun hok ↦ ?_) fun hw ↦ ?_
  · exact (compared_record hview hread hc.2 hok (gated_compare (by simp))).2
  · exact .inl ⟨cur, rfl, working_of_step happlied hk hw⟩

theorem transition_kept (hm : Mirrors snap id)
    (hview : ∀ key, (snap key).map (·.modRev) = (view key).map (·.modRev) → snap key = view key)
    (h : transition view id ev fence req plannedAt = some call) (hk : entersWorking ev.kind = false)
    (hc : Chosen snap J ok ops call) (he : Effect snap after main ops) : Kept snap after main id := by
  obtain ⟨⟨cur, item⟩, hread, rfl⟩ := Option.map_eq_some_iff.mp h
  dsimp only at hc
  split_ifs at hc with happlied
  · exact kept_of_audits hm hc he
  · exact writeCall_kept hm hview hread (by simpa using happlied) hk hc he

theorem claimCall_kept (hm : Mirrors snap id)
    (hview : ∀ key, (snap key).map (·.modRev) = (view key).map (·.modRev) → snap key = view key)
    (h : claimCall view floor id ev req plannedAt = some call) (hc : Chosen snap J ok ops call)
    (he : Effect snap after main ops) : Kept snap after main id := by
  rw [claimCall] at h
  split at h
  · obtain ⟨⟨cur, item⟩, hread, h⟩ := Option.bind_eq_some_iff.mp h
    dsimp only at h
    split_ifs at h
    · obtain rfl := Option.some.inj h
      exact kept_of_audits hm hc he
    · split at h
      · cases h
      · split_ifs at h
        obtain rfl := Option.some.inj h
        refine gated_kept hc he hm rfl (List.mem_cons_of_mem _ (List.mem_singleton.mpr rfl))
          decode_objectLike (by simp [Op.key, lifecycle_ne_gate, claimLock_ne_gate]) (fun hok ↦ ?_)
          fun _ ↦ .inr ⟨_, List.mem_cons_self⟩
        exact (compared_record hview hread hc.2 hok (gated_compare (by simp))).2
  · cases h

/-- **An event on a record keeps the bead**, unless it reclassifies the record as WORKING. -/
theorem eventCall_kept {live : Option Fence} (hm : Mirrors snap id)
    (hview : ∀ key, (snap key).map (·.modRev) = (view key).map (·.modRev) → snap key = view key)
    (h : eventCall view floor live id ev req plannedAt = some call) (hc : Chosen snap J ok ops call)
    (he : Effect snap after main ops) :
    Kept snap after main id ∨ Mirrors after id ∧ Reclassifies view id call := by
  rw [eventCall.eq_def] at h
  split at h
  · exact .inl (claimCall_kept hm hview h hc he)
  · rename_i hkind
    exact .inl (transition_kept hm hview h (by rw [hkind]; rfl) hc he)
  · obtain ⟨⟨cur, item⟩, -, h⟩ := Option.bind_eq_some_iff.mp h
    dsimp only at h
    split_ifs at h
    obtain rfl := Option.some.inj h
    exact .inl (kept_of_audits hm hc he)
  · rename_i hnoClaim _ _
    by_cases hk : entersWorking ev.kind = false
    · exact .inl (transition_kept hm hview h hk hc he)
    · -- It is no claim, so it is a reclassification.
      have hre : ∃ rule, ev.kind = .reclassify .working rule := by
        rw [Bool.not_eq_false, entersWorking.eq_def] at hk
        split at hk
        · rename_i hkind
          exact absurd hkind (hnoClaim _ _ _ _ _ _)
        · rename_i hkind
          exact ⟨_, hkind⟩
        · cases hk
      obtain ⟨rule, hkind⟩ := hre
      obtain ⟨⟨cur, item⟩, hread, rfl⟩ := Option.map_eq_some_iff.mp h
      dsimp only at hc ⊢
      split_ifs at hc ⊢ with happlied
      · exact .inl (kept_of_audits hm hc he)
      · exact .inr ⟨(writeCall_mirrors hm hview hread hc he).1, ev, rule, cur, item, req,
          plannedAt, hkind, hread, by simpa using happlied, rfl⟩

/-- A bead is created out of WORKING, with its gate. -/
theorem createCall_kept {born : LifecycleRecord} {submittedTip : Option String}
    (hm : Mirrors snap id)
    (hview : ∀ key, (snap key).map (·.modRev) = (view key).map (·.modRev) → snap key = view key)
    (h : createCall view id born submittedTip req plannedAt = some call) (hid : born.row.beadId = id)
    (hborn : born.row.state ≠ .working) (hc : Chosen snap J ok ops call)
    (he : Effect snap after main ops) : Kept snap after main id := by
  rw [createCall] at h
  split at h
  · obtain rfl := Option.some.inj h
    refine gated_kept hc he hm rfl (List.mem_singleton.mpr rfl) rfl
      (by simp [Op.key, lifecycle_ne_gate]) (fun hok ↦ ?_) fun hw ↦ absurd hw hborn
    -- Its key was compared absent.
    subst hok
    have habsent : (snap (Keys.lifecycle id)).map (·.modRev) = none :=
      takes_modRev hc.2 (gated_compare (List.mem_singleton.mpr rfl))
    rw [recordOf, Option.map_eq_none_iff.mp habsent]
    rfl
  · rename_i item hitem
    split at h
    · cases h
    · rename_i cur hcur
      dsimp only at h
      split_ifs at h
      obtain rfl := Option.some.inj h
      rw [promoteBornCall, hid] at hc
      have hread : recordRead view id = some (cur, item) := by
        rw [recordRead, hitem, Option.bind_some, hcur]
        rfl
      refine gated_kept hc he hm rfl (List.mem_singleton.mpr rfl) decode_objectLike
        (by simp [Op.key, lifecycle_ne_gate]) (fun hok ↦ ?_) fun hw ↦ absurd hw hborn
      exact (compared_record hview hread hc.2 hok (gated_compare (by simp))).2

/-- Clearing a record's finalizer leaves its record. -/
theorem planningClosed_kept {attempt : ℕ} (hm : Mirrors snap id)
    (hview : ∀ key, (snap key).map (·.modRev) = (view key).map (·.modRev) → snap key = view key)
    (h : planningClosedCall view id attempt req = some call) (hc : Chosen snap J ok ops call)
    (he : Effect snap after main ops) : Kept snap after main id := by
  obtain ⟨item, hitem, h⟩ := Option.bind_eq_some_iff.mp h
  dsimp only at h
  split_ifs at h
  obtain rfl := Option.some.inj h
  have hops := hc.1
  refine kept_of_same hm ?_ (he.untouched _ apart_gate.1 fun o ho ↦ ?_)
  · cases ok with
    | false => exact recordOf_same (he.untouched _ apart_lifecycle.1 (by simp [hops]))
    | true =>
      have hsnap : snap (Keys.lifecycle id) = some item :=
        (hview _ ((takes_modRev hc.2 (List.mem_singleton.mpr rfl)).trans (by rw [hitem]; rfl))).trans
          hitem
      obtain ⟨i, hi, hvalue⟩ := Option.map_eq_some_iff.mp
        (he.put (by rw [hops]; exact List.mem_singleton.mpr rfl) apart_lifecycle.1)
      rw [recordOf, hi, Option.bind_some, hvalue, Cascade.decode_keepMark, recordOf, hsnap]
      rfl
  · rw [hops] at ho
    cases ok <;> simp_all [Op.key, lifecycle_ne_gate]

/-- A record's repo is no part of its gate. -/
theorem setRepo_kept {repo onlyIf : Option String} {attempt : ℕ} (hm : Mirrors snap id)
    (hview : ∀ key, (snap key).map (·.modRev) = (view key).map (·.modRev) → snap key = view key)
    (h : setRepoCall view id repo onlyIf attempt req = some call) (hc : Chosen snap J ok ops call)
    (he : Effect snap after main ops) : Kept snap after main id := by
  obtain ⟨⟨rec, item⟩, hread, h⟩ := Option.bind_eq_some_iff.mp h
  dsimp only at h
  split_ifs at h
  obtain rfl := Option.some.inj h
  have hops := hc.1
  have hgate : after (Keys.gate id) = snap (Keys.gate id) := he.untouched _ apart_gate.1 fun o ho ↦ by
    rw [hops] at ho
    cases ok <;> simp_all [Op.key, lifecycle_ne_gate]
  cases ok with
  | false => exact kept_of_same hm (recordOf_same (he.untouched _ apart_lifecycle.1 (by simp [hops]))) hgate
  | true =>
    obtain ⟨-, hrecord⟩ := compared_record hview hread hc.2 rfl (List.mem_singleton.mpr rfl)
    obtain ⟨i, hi, hvalue⟩ := Option.map_eq_some_iff.mp
      (he.put (by rw [hops]; exact List.mem_singleton.mpr rfl) apart_lifecycle.1)
    refine kept_of_record hm hgate fun rec' hrec' ↦ ⟨rec, hrecord, ?_⟩
    rw [recordOf, hi, Option.bind_some, hvalue, Cascade.decode_keepMark] at hrec'
    obtain rfl := Option.some.inj hrec'
    exact ⟨rfl, fun hw ↦ hw⟩

/-- What is deleted is gone or marked, and a mark leaves the record. -/
theorem recordOf_deleted {T : Type} [Stored T] {key : String} (he : Effect snap after main ops)
    (ho : .delete key ∈ ops) (hkey : Plain key) :
    recordOf T after key = none ∨ recordOf T after key = recordOf T snap key := by
  obtain ⟨s, sub, hres, ha⟩ | ⟨-, -, ha⟩ := he.resolved _ ho hkey
  · change after key = _ at ha
    obtain ⟨p, hp, ⟨-, rfl⟩ | ⟨-, m, -, rfl⟩⟩ := hres
    · left
      rw [recordOf, ha]
      rfl
    · right
      rw [recordOf, ha, recordOf, hp]
      exact Cascade.decode_keepMark (some m) p.value
  · left
    change after key = none at ha
    rw [recordOf, ha]
    rfl

theorem deletes_untouched {keys : List String} {key : String}
    (he : Effect snap after main (keys.map .delete)) (hkey : Apart key) (hno : key ∉ keys) :
    after key = snap key := by
  refine he.untouched key hkey.1 fun o ho hk ↦ hno ?_
  obtain ⟨k, hmem, rfl⟩ := List.mem_map.mp ho
  exact hk ▸ hmem

/-- **Deletes keep a bead**, where its gate is deleted only when there is no record. -/
theorem deletes_kept {keys : List String} (hm : Mirrors snap id)
    (he : Effect snap after main (keys.map .delete))
    (hgate : Keys.gate id ∈ keys → snap (Keys.gate id) = none ∨ snap (Keys.lifecycle id) = none) :
    Kept snap after main id := by
  have hrecord : recordOf LifecycleRecord after (Keys.lifecycle id) = none ∨
      recordOf LifecycleRecord after (Keys.lifecycle id) =
        recordOf LifecycleRecord snap (Keys.lifecycle id) := by
    by_cases hmem : Keys.lifecycle id ∈ keys
    · exact recordOf_deleted he (List.mem_map_of_mem hmem) apart_lifecycle.1
    · exact .inr (recordOf_same (deletes_untouched he apart_lifecycle hmem))
  by_cases hmem : Keys.gate id ∈ keys
  · have hgone : after (Keys.gate id) = none := by
      refine he.delete (List.mem_map_of_mem hmem) apart_gate.1 fun i hi ↦ ?_
      obtain ⟨g, hg⟩ := hm.shape i hi
      rw [hg]
      rfl
    have hnone : recordOf LifecycleRecord after (Keys.lifecycle id) = none := by
      obtain h | h := hrecord
      · exact h
      · rw [h]
        cases hs : recordOf LifecycleRecord snap (Keys.lifecycle id) with
        | none => rfl
        | some rec =>
          -- A record has its gate.
          obtain ⟨j, hj, -⟩ := hm.record rec hs
          obtain hg | hl := hgate hmem
          · rw [hg] at hj
            cases hj
          · rw [recordOf, hl] at hs
            cases hs
    refine ⟨⟨fun j hj ↦ ?_, fun rec hrec ↦ ?_⟩, fun rec hrec ↦ ?_⟩
    · rw [hgone] at hj
      cases hj
    · rw [hnone] at hrec
      cases hrec
    · rw [hnone] at hrec
      cases hrec
  · have hsame : after (Keys.gate id) = snap (Keys.gate id) := deletes_untouched he apart_gate hmem
    obtain hnone | hsnap := hrecord
    · refine kept_of_record hm hsame fun rec hrec ↦ ?_
      rw [hnone] at hrec
      cases hrec
    · exact kept_of_same hm hsnap hsame

/-! ## The cascades -/

theorem decode_gate {o : Object Value} {g : Gate} (h : decode o = some g) :
    o.data = .payload (.gate g) := by
  rw [decode] at h
  split at h
  · rename_i v hv
    cases v <;> simp_all [Stored.decode]
  · cases h

/-- **A cascade keeps a bead**, where the gate it has read is that of the record it has read. -/
theorem cascade_kept {r : Reads} {c : Cascade} (hm : Mirrors snap id) (hb : BeadsOf r c)
    (ht : Cascade.Taken r.view snap after c)
    (hread : ∀ cur g, snap (Keys.lifecycle id) = r.view (Keys.lifecycle id) →
      recordOf LifecycleRecord r.view (Keys.lifecycle id) = some cur →
      recordOf Gate r.view (Keys.gate id) = some g → g = cur.gate) : Kept snap after main id := by
  by_cases hw : c.Writes (Keys.lifecycle id)
  · obtain ⟨cur, rec, hs⟩ := hb.written id hw
    have hsnap := ht.compared _ hw
    have hcur : recordOf LifecycleRecord snap (Keys.lifecycle id) = some cur := by
      rw [recordOf, hsnap, ← recordOf, hs.read]
    have hrec : recordOf LifecycleRecord after (Keys.lifecycle id) = some rec :=
      (ht.recordOf apart_lifecycle hw).trans hs.row
    have hgate : ∃ j, after (Keys.gate id) = some j ∧ j.value = gateObject id rec.gate := by
      obtain ⟨hno, hg⟩ | ⟨hwg, o, ho, hmeta, hdec⟩ := hs.gate
      · -- The gate is left, as the record is planned to have the one it has.
        rw [hread cur _ hsnap hs.read hg, ht.unwritten _ apart_gate hno]
        exact hm.record cur hcur
      · obtain ⟨o', j, ho', hj, hjmeta, hjdec⟩ := ht.written _ apart_gate hwg
        rw [ho] at ho'
        obtain rfl := Option.some.inj ho'
        rw [hm.unmarked] at hjmeta
        refine ⟨j, hj, ?_⟩
        have hdata : j.value.data = .payload (.gate rec.gate) := decode_gate ((hjdec Gate).trans hdec)
        have hmetadata : j.value.metadata = { ownerReferences := [Keys.lifecycle id] } := by
          rw [hjmeta, hmeta, ← ht.compared _ hwg]
          cases hg : snap (Keys.gate id) with
          | none => rfl
          | some i =>
            obtain ⟨g, hvalue⟩ := hm.shape i hg
            rw [Option.map_some, Option.getD_some, hvalue]
            rfl
        rw [gateObject, ← hdata, ← hmetadata]
    refine ⟨⟨fun j hj ↦ ?_, fun rec' hrec' ↦ ?_⟩, fun rec' hrec' hworking ↦ ?_⟩
    · obtain ⟨j', hj', hvalue⟩ := hgate
      rw [hj] at hj'
      obtain rfl := Option.some.inj hj'
      exact ⟨_, hvalue⟩
    · rw [hrec] at hrec'
      obtain rfl := Option.some.inj hrec'
      exact hgate
    · rw [hrec] at hrec'
      obtain rfl := Option.some.inj hrec'
      exact .inl ⟨cur, hcur, hs.working hworking⟩
  · exact kept_of_same hm (recordOf_same (ht.unwritten _ apart_lifecycle hw))
      (ht.unwritten _ apart_gate (hb.unwritten id hw))

end Branch

/-! ## In a run -/

section Run

variable {floor : ℕ} {cfg : Config Value} {fuel : ℕ} {turns : List (Turn Env ℕ (Call Value))}
  {k : Committed Value} {id : String}

/-- A record that is there as it was read had the gate that was read after it. -/
theorem gate_of_read {r : Reads} {w : World Value} (hr : r.Of w)
    (hg : Grows w (worldAt cfg fuel turns)) (hle : w.store.head ≤ k.head)
    (hpast : ∀ m ≤ k.head, Mirrors ((worldAt cfg fuel turns).itemAt m) id) {cur : LifecycleRecord}
    {g : Gate} (hsame : (worldAt cfg fuel turns).itemAt k.head (Keys.lifecycle id) =
      r.view (Keys.lifecycle id))
    (hcur : recordOf LifecycleRecord r.view (Keys.lifecycle id) = some cur)
    (hgate : recordOf Gate r.view (Keys.gate id) = some g) : g = cur.gate := by
  have hreachable : Reachable (worldAt cfg fuel turns) := (runs_keep turns).1
  obtain ⟨m, n, hmn, hm, hn⟩ := hr.gates id
  -- Both are of revisions up to the commit's head.
  have hat (at_ : ℕ) (key : String) : w.itemAt at_ key =
      (worldAt cfg fuel turns).itemAt (min at_ w.store.head) key := by
    rw [hg.itemAt_eq _ (min_le_right _ _), itemAt_min]
  rw [hat] at hm hn
  obtain ⟨i, hi, hdec⟩ := Option.bind_eq_some_iff.mp hcur
  rw [hi] at hsame hm
  have hbetween := hreachable.itemAt_between hm.symm hsame (min_le_min_right _ hmn)
    ((min_le_right n w.store.head).trans hle)
  obtain ⟨j, hj, hvalue⟩ := (hpast _ ((min_le_right n w.store.head).trans hle)).record cur
    (recordOf_some.mpr ⟨i, hbetween, hdec⟩)
  obtain ⟨j', hj', hdec'⟩ := recordOf_some.mp hgate
  rw [hn, hj] at hj'
  obtain rfl := Option.some.inj hj'
  rw [hvalue] at hdec'
  exact (Option.some.inj hdec').symm

theorem ne_readiness {key id' : String} (h : OfBeads key) : key ≠ Keys.readiness id' := by
  rintro rfl
  exact not_ofBeads (Keys.starts_readiness id') (by decide) h

theorem ne_claimLock {key id' : String} (h : OfBeads key) : key ≠ Keys.claimLock id' := by
  rintro rfl
  exact not_ofBeads (Keys.starts_claimLock id') (by decide) h

/-- The verbs of a bead write neither key of another. -/
theorem not_mem_beadKeys {id' : String} (hne : id ≠ id') :
    Keys.lifecycle id ∉ beadKeys id' ∧ Keys.gate id ∉ beadKeys id' := by
  simp [beadKeys, hne, lifecycle_ne_gate, lifecycle_ne_gate.symm, ne_readiness ofBeads_lifecycle,
    ne_readiness ofBeads_gate, ne_claimLock ofBeads_lifecycle, ne_claimLock ofBeads_gate]

theorem OnBead.not_mem {id' key : String} {call : Call Value} (h : OnBead id' call)
    (hk : key ∉ beadKeys id') (hh : starts Keys.historyPrefix key = false) :
    key ∉ Call.writes call := by
  intro hmem
  obtain hb | hb := h key hmem
  · exact hk hb
  · rw [hh] at hb
    cases hb

theorem born_not_working {repo submittedTip : Option String} {at_ : Int} :
    (LifecycleRecord.born id repo submittedTip at_).row.state ≠ .working := by
  cases submittedTip <;> simp [LifecycleRecord.born, BeadRow.filed]

theorem bornOpen_not_working {repo : Option String} {at_ : Int} :
    (LifecycleRecord.bornOpen id repo at_).row.state ≠ .working := by
  simp [LifecycleRecord.bornOpen]

/-- **Every commit keeps every bead**, but for a reclassification as WORKING. -/
theorem ControlRun.bead_commit (h : ControlRun floor cfg fuel turns)
    (hk : .committed k ∈ (worldAt cfg fuel turns).trace)
    (hpast : ∀ m ≤ k.head, Mirrors ((worldAt cfg fuel turns).itemAt m) id) :
    Kept ((worldAt cfg fuel turns).itemAt k.head) ((worldAt cfg fuel turns).itemAt (k.head + 1))
        (k.head + 1) id ∨
      Mirrors ((worldAt cfg fuel turns).itemAt (k.head + 1)) id ∧
        ∃ call view, k.author = .call call ∧ View.Of view (worldAt cfg fuel turns) ∧
          Reclassifies view id call := by
  have hm := hpast k.head le_rfl
  obtain ⟨pre, ops, -, hacts, he⟩ := runs_effect turns hk
  cases ha : k.author with
  | expire =>
    rw [ha] at hacts
    obtain ⟨keys, rfl, hkeys⟩ := hacts
    refine .inl (deletes_kept hm he fun hmem ↦ .inl ?_)
    by_contra hsome
    obtain ⟨i, hi⟩ := Option.ne_none_iff_exists'.mp hsome
    have hexpires := hkeys _ hmem i hi
    rw [ttlMs_of_starts (Keys.starts_gate id) (by decide)] at hexpires
    cases hexpires
  | collect kind =>
    rw [ha] at hacts
    obtain ⟨keys, rfl, hkeys⟩ := hacts
    refine .inl (deletes_kept hm he fun hmem ↦ .inr ?_)
    obtain ⟨i, hi, hcollectable⟩ := hkeys _ hmem
    obtain ⟨g, hg⟩ := hm.shape i hi
    cases kind with
    | finalize => simp [Collectable, Item.mark, hg, gateObject] at hcollectable
    | orphan => simpa [Collectable, Item.mark, hg, gateObject] using hcollectable
  | call call =>
    rw [ha] at hacts
    have hchosen : Chosen ((worldAt cfg fuel turns).itemAt k.head)
        ((worldAt cfg fuel pre).Judged k.head) k.ok ops call := hacts
    obtain ⟨w, hg, hle, hissued⟩ := h.issued hk ha
    have hview {view : View} (hv : View.Of view w) (key : String)
        (hrev : ((worldAt cfg fuel turns).itemAt k.head key).map (·.modRev) =
          (view key).map (·.modRev)) : (worldAt cfg fuel turns).itemAt k.head key = view key := by
      obtain ⟨at_, -, hat⟩ := View.Of.upTo hv hg hle key
      rw [hat] at hrev ⊢
      exact itemAt_eq_of_modRev hrev
    -- A verb of another bead writes neither key, and one of this bead keeps it.
    have hbead {id' : String} (hon : OnBead id' call)
        (hthis : id = id' → Kept ((worldAt cfg fuel turns).itemAt k.head)
          ((worldAt cfg fuel turns).itemAt (k.head + 1)) (k.head + 1) id) :
        Kept ((worldAt cfg fuel turns).itemAt k.head) ((worldAt cfg fuel turns).itemAt (k.head + 1))
          (k.head + 1) id := by
      by_cases hne : id = id'
      · exact hthis hne
      · exact kept_of_writes hm hchosen he
          (hon.not_mem (not_mem_beadKeys hne).1 apart_lifecycle.2)
          (hon.not_mem (not_mem_beadKeys hne).2 apart_gate.2)
    have hneither (hl : Keys.lifecycle id ∉ Call.writes call) (hg : Keys.gate id ∉ Call.writes call) :
        Kept ((worldAt cfg fuel turns).itemAt k.head) ((worldAt cfg fuel turns).itemAt (k.head + 1))
          (k.head + 1) id := kept_of_writes hm hchosen he hl hg
    cases hissued with
    | @round i _ reads hcall =>
      rw [Issue.call] at hcall
      split at hcall
      · rename_i c hc
        obtain rfl := Option.some.inj hcall
        have hb := Issue.beads hc
        cases hok : k.ok with
        | false =>
          rw [hok] at hacts
          exact .inl (kept_of_same hm (recordOf_same (untaken_of_effect hacts he apart_lifecycle))
            (untaken_of_effect hacts he apart_gate))
        | true =>
          rw [hok] at hacts
          have ht := Cascade.taken_of_effect hb.sound (hview reads.view) hacts he
          exact .inl (cascade_kept hm hb ht fun cur g hsame hcur hgate ↦
            gate_of_read reads hg hle hpast hsame hcur hgate)
      · obtain rfl := Option.some.inj hcall
        exact .inl (kept_of_audits hm hchosen he)
      · cases hcall
    | create reads hcall =>
      refine .inl (hbead (createCall_onBead hcall born_beadId) fun heq ↦ ?_)
      subst heq
      exact createCall_kept hm (hview reads) hcall born_beadId born_not_working hchosen he
    | createOpen reads hcall =>
      refine .inl (hbead (createCall_onBead hcall rfl) fun heq ↦ ?_)
      subst heq
      exact createCall_kept hm (hview reads) hcall rfl bornOpen_not_working hchosen he
    | @event view live id' ev req plannedAt _ reads fence hcall =>
      by_cases heq : id = id'
      · subst heq
        obtain hkept | ⟨hmirrors, hre⟩ := eventCall_kept hm (hview reads) hcall hchosen he
        · exact .inl hkept
        · refine .inr ⟨hmirrors, call, view, rfl, fun key ↦ ?_, hre⟩
          obtain ⟨at_, -, hat⟩ := View.Of.upTo reads hg hle key
          exact ⟨at_, hat⟩
      · exact .inl (hbead (eventCall_onBead hcall) fun h ↦ absurd h heq)
    | claimAgain =>
      exact .inl (hneither
        (by simp [claimAgainCall, Call.writes, Op.key, ne_claimLock ofBeads_lifecycle])
        (by simp [claimAgainCall, Call.writes, Op.key, ne_claimLock ofBeads_gate]))
    | renewLock =>
      exact .inl (hneither (fun h ↦ ne_claimLock ofBeads_lifecycle (List.mem_singleton.mp h))
        fun h ↦ ne_claimLock ofBeads_gate (List.mem_singleton.mp h))
    | release reads hheld =>
      obtain ⟨l, -, rfl⟩ := Option.map_eq_some_iff.mp hheld
      exact .inl (hneither (fun h ↦ ne_claimLock ofBeads_lifecycle (List.mem_singleton.mp h))
        fun h ↦ ne_claimLock ofBeads_gate (List.mem_singleton.mp h))
    | planningClosed reads hcall =>
      refine .inl (hbead (planningClosedCall_onBead hcall) fun heq ↦ ?_)
      subst heq
      exact planningClosed_kept hm (hview reads) hcall hchosen he
    | setRepo reads hcall =>
      refine .inl (hbead (setRepoCall_onBead hcall) fun heq ↦ ?_)
      subst heq
      exact setRepo_kept hm (hview reads) hcall hchosen he
    | setEdge reads hcall =>
      rw [setEdgeCall_writes hcall] at hneither
      exact .inl (hneither (fun h ↦ ne_readiness ofBeads_lifecycle (List.mem_singleton.mp h))
        fun h ↦ ne_readiness ofBeads_gate (List.mem_singleton.mp h))
    | delete =>
      refine .inl (hbead delete_onBead fun heq ↦ ?_)
      subst heq
      obtain ⟨-, rfl, -⟩ := hchosen
      have he : Effect _ _ _ ([Keys.lifecycle id].map .delete) := he
      exact deletes_kept hm he fun hmem ↦
        absurd (List.mem_singleton.mp hmem) lifecycle_ne_gate.symm
    | other hno =>
      have hkept {key : String} (hkey : kept key = true) : key ∉ Call.writes call := fun hmem ↦ by
        rw [hno key hmem] at hkey
        cases hkey
      exact .inl (hneither (hkept (by simp [kept, Keys.starts_lifecycle]))
        (hkept (by simp [kept, Keys.starts_gate])))

/-- **At every revision the gate of a record is its own.** -/
theorem mirrors_run (h : ControlRun floor cfg fuel turns) (id : String) (n : ℕ) :
    Mirrors ((worldAt cfg fuel turns).itemAt n) id := by
  have hreachable : Reachable (worldAt cfg fuel turns) := (runs_keep turns).1
  have hall : ∀ m ≤ n, Mirrors ((worldAt cfg fuel turns).itemAt m) id := by
    induction n with
    | zero =>
      intro m hm
      obtain rfl := Nat.le_zero.mp hm
      refine ⟨fun j hj ↦ ?_, fun rec hrec ↦ ?_⟩
      · rw [itemAt_zero] at hj
        cases hj
      · rw [recordOf, itemAt_zero] at hrec
        cases hrec
    | succ n ih =>
      intro m hm
      obtain hm | rfl := Nat.le_succ_iff.mp hm
      · exact ih m hm
      · by_cases hn : ∃ c, .committed c ∈ (worldAt cfg fuel turns).trace ∧ c.head = n
        · obtain ⟨k, hk, rfl⟩ := hn
          obtain hkept | ⟨hmirrors, -⟩ := h.bead_commit hk ih
          · exact hkept.mirrors
          · exact hmirrors
        · rw [hreachable.itemAt_unused fun c hc hh ↦ hn ⟨c, hc, hh⟩]
          exact ih n le_rfl
  exact hall n le_rfl

/-! ## Claims -/

/-- **A claim that is committed finds every gate it was judged against**, and every prerequisite
it is stacked on at its tip; and it was not judged unclaimable. -/
theorem claimCall_ends {view : View} {floor' : ℕ} {ev : BeadEvent} {req : Request Value}
    {plannedAt : ℕ} {call : Call Value} {cur : LifecycleRecord} {item : Item Value}
    {snap : View} {J : String → Bool → Prop} {ops : List (Op Value)}
    (h : claimCall view floor' id ev req plannedAt = some call)
    (hread : recordRead view id = some (cur, item)) (happlied : (Bead.apply cur.row ev).applied = true)
    (hc : Chosen snap J true ops call) :
    (∀ r, recordOf Readiness view (Keys.readiness id) = some r → r.judgedForClaim → r.claimable) ∧
      ∀ e ∈ claimEdges (recordOf Readiness view (Keys.readiness id)) (Bead.apply cur.row ev).row.stack,
        recordOf Gate snap (Keys.gate e.1) = e.2 := by
  rw [claimCall] at h
  split at h
  · rw [hread, Option.bind_some] at h
    dsimp only at h
    rw [happlied, Bool.not_true, if_neg Bool.false_ne_true] at h
    split at h
    · cases h
    · rename_i judged hjudged
      have hrecord : recordOf Readiness view (Keys.readiness id) =
          ((view (Keys.readiness id)).map fun i ↦ (decode i.value : Option Readiness)).join := by
        rw [recordOf]
        cases view (Keys.readiness id) <;> rfl
      split_ifs at h with hunclaimable
      obtain rfl := Option.some.inj h
      refine ⟨fun r hr hj ↦ ?_, fun e he ↦ ?_⟩
      · rw [← hrecord, hr] at hunclaimable
        simpa [hj] using hunclaimable
      · rw [hrecord] at he
        have hholds : (snap (Keys.gate e.1)).map (·.value) = e.2.map (gateObject e.1) := by
          have hgives : Compare.Gives snap J true (gateCompare e.1 e.2) := by
            refine hc.2.1 _ (gated_compare ?_)
            exact List.mem_cons_of_mem _ (List.mem_map_of_mem he)
          obtain h | ⟨live, -, h⟩ := hgives
          · simpa [gateCompare, Compare.holdsIn] using h true
          · simpa [gateCompare, Compare.holdsIn] using h
        rw [recordOf]
        cases hs : snap (Keys.gate e.1) with
        | none =>
          rw [hs] at hholds
          exact (Option.map_eq_none_iff.mp hholds.symm).symm
        | some i =>
          rw [hs] at hholds
          obtain ⟨g, hg, hvalue⟩ := Option.map_eq_some_iff.mp hholds.symm
          change gateObject e.1 g = i.value at hvalue
          rw [hg, Option.bind_some, ← hvalue]
          rfl
  · cases h

variable (cfg fuel turns) in
structure GateMirror : Prop where
  /-- At every revision the gate of a record is its own. -/
  mirrored : ∀ n id rec,
    recordOf LifecycleRecord ((worldAt cfg fuel turns).itemAt n) (Keys.lifecycle id) = some rec →
    recordOf Gate ((worldAt cfg fuel turns).itemAt n) (Keys.gate id) = some rec.gate
  /-- A claim that is committed was not judged unclaimable where it read its readiness. -/
  judged : ∀ view floor id ev req plannedAt call cur item k,
    claimCall view floor id ev req plannedAt = some call → recordRead view id = some (cur, item) →
    (Bead.apply cur.row ev).applied = true → .committed k ∈ (worldAt cfg fuel turns).trace →
    k.author = .call call → k.ok = true →
    ∀ r, recordOf Readiness view (Keys.readiness id) = some r → r.judgedForClaim → r.claimable
  /-- At its commit the gate of each blocker it was judged against, and of each prerequisite of its
  stack, is as it was judged, and is that of the blocker's record. -/
  claimed : ∀ view floor id ev req plannedAt call cur item k,
    claimCall view floor id ev req plannedAt = some call → recordRead view id = some (cur, item) →
    (Bead.apply cur.row ev).applied = true → .committed k ∈ (worldAt cfg fuel turns).trace →
    k.author = .call call → k.ok = true →
    ∀ e ∈ claimEdges (recordOf Readiness view (Keys.readiness id)) (Bead.apply cur.row ev).row.stack,
      recordOf Gate ((worldAt cfg fuel turns).itemAt k.head) (Keys.gate e.1) = e.2 ∧
        ∀ rec, recordOf LifecycleRecord ((worldAt cfg fuel turns).itemAt k.head)
          (Keys.lifecycle e.1) = some rec → e.2 = some rec.gate

theorem mirrored_run (h : ControlRun floor cfg fuel turns) {n : ℕ} {rec : LifecycleRecord}
    (hrec : recordOf LifecycleRecord ((worldAt cfg fuel turns).itemAt n) (Keys.lifecycle id) =
      some rec) :
    recordOf Gate ((worldAt cfg fuel turns).itemAt n) (Keys.gate id) = some rec.gate := by
  obtain ⟨j, hj, hvalue⟩ := (mirrors_run h id n).record rec hrec
  rw [recordOf, hj, Option.bind_some, hvalue]
  rfl

/-- **The gate mirror.**  At every revision the gate of a record is its own, and a claim is
committed only where every gate it was judged against is as it was judged. -/
theorem gate_mirror (h : ControlRun floor cfg fuel turns) : GateMirror cfg fuel turns where
  mirrored _ _ _ hrec := mirrored_run h hrec
  judged view floor id ev req plannedAt call cur item k hcall hread happlied hk ha hok := by
    obtain ⟨pre, ops, -, hacts, he⟩ := runs_effect turns hk
    rw [ha, hok] at hacts
    exact (claimCall_ends hcall hread happlied hacts).1
  claimed view floor id ev req plannedAt call cur item k hcall hread happlied hk ha hok e hmem := by
    obtain ⟨pre, ops, -, hacts, he⟩ := runs_effect turns hk
    rw [ha, hok] at hacts
    have hgate := (claimCall_ends hcall hread happlied hacts).2 e hmem
    exact ⟨hgate, fun rec hrec ↦ hgate.symm.trans (mirrored_run h hrec)⟩

end Run

/-! ## A blocker added after the judgement -/

namespace Waiting

/-- The bead `sp-1` is READY and named as waiting on `sp-2`, which is OPEN; no pass has judged it.
-/
def blocker : LifecycleRecord := .bornOpen "sp-2" none 5

def filed : LifecycleRecord := .born "sp-1" none none 6

def claim : BeadEvent :=
  ⟨.ready, filed.row.version, .claim "dwarf" 100 ∅ 0 4 none, "dwarf", some 8⟩

def filedItems : List (Item Value) := [recordItem filed ⟨2, 0⟩ ⟨2, 0⟩, gateItem filed ⟨2, 1⟩ ⟨2, 1⟩]

def readinessItem : Item Value :=
  written (Keys.readiness "sp-1") { ownerReferences := [Keys.lifecycle "sp-1"] }
    (.readiness { blockedBy := ["sp-2"] }) ⟨3, 0⟩ ⟨3, 0⟩

def claimed : Option (Call Value) :=
  eventCall (View.only (readinessItem :: filedItems)) 1000 none "sp-1" claim ⟨"r3", "op", "k", none⟩ 3

def calls : List (Option (Call Value) × ℕ) :=
  [(createCall (View.only []) "sp-2" blocker none ⟨"r0", "op", "k", none⟩ 0, 11),
    (createCall (View.only []) "sp-1" filed none ⟨"r1", "op", "k", none⟩ 1, 11),
    (setEdgeCall (View.only filedItems) "sp-1" "sp-2" .blocks 0 ⟨"r2", "op", "k", none⟩, 9),
    (claimed, 16)]

def turns : List (Turn Env ℕ (Call Value)) := oneByOne calls

def items : List (Item Value) := readinessItem :: filedItems

/-- The run, evaluated: the claim is committed last, where the readiness of `sp-1` names `sp-2`
and the gate of `sp-2` is unfinished. -/
theorem world_ends :
    (Pool.started World.env World.reopen (call stillConfig 1) ⟨World.init Value, []⟩
      turns).map (·.2.store.head) = List.range 4 ∧
    (∀ i ∈ items, (worldAt stillConfig 1 turns).itemAt i.modRev.main i.key = some i) ∧
    (∃ k ∈ commits (worldAt stillConfig 1 turns).trace,
      (∃ call ∈ claimed, k.author = .call call) ∧ k.ok = true ∧ k.head = 3) ∧
    recordOf Gate ((worldAt stillConfig 1 turns).itemAt 3) (Keys.gate "sp-2") =
      some ⟨.unfinished, none⟩ ∧
    (recordOf LifecycleRecord ((worldAt stillConfig 1 turns).itemAt 4) (Keys.lifecycle "sp-1")).map
      (·.row.state) = some .working := by
  decide

theorem controlRun : ControlRun 1000 stillConfig 1 turns := by
  refine controlRun_oneByOne world_ends.1 fun j p hp call w hcall hg hhead ↦ ?_
  have hreads {l : List (Item Value)} (hl : l ⊆ items) (hle : ∀ i ∈ l, i.modRev.main ≤ j)
      (ho : inOrder l) : (Reads.only l).Of w :=
    Reads.only_of_grows world_ends.2.1 hg hl (hhead ▸ hle) ho
  match j with
  | 0 =>
    obtain rfl := Option.some.inj hp
    exact .createOpen (hreads (l := []) (by simp) (by simp) rfl).view hcall
  | 1 =>
    obtain rfl := Option.some.inj hp
    exact .create (hreads (l := []) (by simp) (by simp) rfl).view hcall
  | 2 =>
    obtain rfl := Option.some.inj hp
    have hv : View.Of (View.only filedItems) w :=
      (hreads (l := filedItems) (by simp [items]) (by decide) (by decide)).view
    dsimp only at hcall
    exact .setEdge hv hcall
  | 3 =>
    obtain rfl := Option.some.inj hp
    have hv : View.Of (View.only (readinessItem :: filedItems)) w :=
      (hreads (l := readinessItem :: filedItems) (by simp [items]) (by decide)
        (by decide)).view
    dsimp only [claimed] at hcall
    refine .event hv ?_ hcall
    rintro f ⟨⟩
  | n + 4 => cases hp

end Waiting

/-- **A claim is committed while a blocker its readiness names is unfinished**: no judgement was
made against the blocker. -/
theorem claim_passes_blocker : ∃ (cfg : Config Value) (fuel : ℕ)
    (turns : List (Turn Env ℕ (Call Value))) (k : Committed Value) (call : Call Value) (view : View)
    (id blocker : String) (ev : BeadEvent) (req : Request Value) (r : Readiness) (g : Gate),
    ControlRun 1000 cfg fuel turns ∧ .committed k ∈ (worldAt cfg fuel turns).trace ∧
    k.author = .call call ∧ k.ok = true ∧ claimCall view 1000 id ev req 3 = some call ∧
    recordOf Readiness ((worldAt cfg fuel turns).itemAt k.head) (Keys.readiness id) = some r ∧
    blocker ∈ r.blockedBy ∧
    recordOf Gate ((worldAt cfg fuel turns).itemAt k.head) (Keys.gate blocker) = some g ∧
    g.gateClass = .unfinished ∧
    (recordOf LifecycleRecord ((worldAt cfg fuel turns).itemAt (k.head + 1)) (Keys.lifecycle id)).map
      (·.row.state) = some .working := by
  obtain ⟨-, hitems, ⟨k, hk, ⟨call, hcall, hauthor⟩, hok, hhead⟩, hgate, hworking⟩ :=
    Waiting.world_ends
  refine ⟨stillConfig, 1, Waiting.turns, k, call, View.only Waiting.items, "sp-1", "sp-2", Waiting.claim,
    ⟨"r3", "op", "k", none⟩, { blockedBy := ["sp-2"] }, ⟨.unfinished, none⟩, Waiting.controlRun,
    mem_commits.mp hk, hauthor, hok, hcall, ?_, by simp, ?_, rfl, ?_⟩
  · rw [hhead]
    exact recordOf_some.mpr ⟨_, hitems Waiting.readinessItem (by simp [Waiting.items]), rfl⟩
  · rw [hhead]
    exact hgate
  · rw [hhead]
    exact hworking

/-- The mirror in that run. -/
theorem gate_mirror_waiting : GateMirror stillConfig 1 Waiting.turns := gate_mirror Waiting.controlRun

end Spira.Control
