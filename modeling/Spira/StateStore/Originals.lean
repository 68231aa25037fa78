import Spira.StateStore.Drill
import Spira.StateStore.Effect

/-!
# The histories a drill is of

An original's history is of audited transactions, writes of telemetry and expiries, in any order.
An expiry has no audit record; it deletes a key with a TTL, or marks it where it has finalizers.
Every audited transaction has a record of its own, which tells what it wrote (`Original.recorded`).
-/

set_option autoImplicit false

namespace Spira.Store.Drill

open Contract (Built Resolved eventWrite requestWrite subsOf not_events_of_expires)
open KeyPrefix (starts)

variable {P V : Type}

/-! ## Originals -/

/-- The transaction wrote an audit record of its own. -/
def Audited (t : Txn String (Object P)) : Prop := ∃ w ∈ t.writes, w.key = eventsKey t.main

instance (t : Txn String (Object P)) : Decidable (Audited t) :=
  inferInstanceAs (Decidable (∃ w ∈ t.writes, _))

/-- A world whose history is of audited transactions, writes of telemetry, and expiries. -/
inductive Original : World P → Prop
  | init : Original (World.init P)
  | audited {w : World P} {author : Author P} {req : Request P} {ok idempotent : Bool}
      {ops : List (Op P)} {staged : List (Staged P)} (h : Original w)
      (hops : ops.length ≤ maxTxnOps) (hkeys : ∀ o ∈ ops, bookkeeping o.key = false)
      (hb : Built w.cur w.store.head req ⟨true, idempotent, 0⟩ ok ops staged) :
      Original (w.taken author ok staged)
  | telemetry {w : World P} {author : Author P} {req : Request P} {ok idempotent : Bool}
      {ops : List (Op P)} {staged : List (Staged P)} (h : Original w)
      (hkeys : ∀ o ∈ ops, starts telemetryPrefix o.key)
      (hb : Built w.cur w.store.head req ⟨false, idempotent, 0⟩ ok ops staged) :
      Original (w.taken author ok staged)
  /-- A key with finalizers is marked. -/
  | expired {w : World P} {keys : List String} {staged : List (Staged P)} (h : Original w)
      (hkeys : ∀ k ∈ keys, ∃ i, w.cur k = some i ∧ i.mark = none ∧ (ttlMs k i.value).isSome)
      (hres : Resolved w.cur (keys.map .delete) staged) : Original (w.taken .expire true staged)
  /-- The clocks move, and revisions are never used. -/
  | idle {w w' : World P} (h : Original w) (hhistory : w'.store.history = w.store.history)
      (hhead : w.store.head ≤ w'.store.head) : Original w'

/-- A transaction after `s` without an audit record. -/
def Unrecorded (w : World P) (s : ℕ) (t : Txn String (Object P)) : Prop :=
  t ∈ w.store.history ∧ s < t.main ∧ ¬ Audited t

/-- The key expired after `s`. -/
def Expires (w : World P) (s : ℕ) (k : String) : Prop :=
  ∃ t, Unrecorded w s t ∧ ∃ e ∈ t.entries, e.key = k ∧ e.value = none

/-- The last write of the key is after `s`, and has no audit record. -/
def Swept (w : World P) (s : ℕ) (k : String) : Prop :=
  ∃ t, Unrecorded w s t ∧ (∃ e ∈ t.entries, e.key = k) ∧
    ∀ t' ∈ w.store.history, t.main < t'.main → ∀ e ∈ t'.entries, e.key ≠ k

instance (w : World P) (s : ℕ) (k : String) : Decidable (Swept w s k) :=
  decidable_of_iff (∃ t ∈ w.store.history, s < t.main ∧ ¬ Audited t ∧ (∃ e ∈ t.entries, e.key = k) ∧
    ∀ t' ∈ w.store.history, t.main < t'.main → ∀ e ∈ t'.entries, e.key ≠ k)
    (by simp only [Swept, Unrecorded, and_assoc])

/-! ## Copies and runs -/

variable (encode : Object P → V)

def versionOf (i : Item P) : Version V := ⟨encode i.value, i.modRev, i.createRev⟩

def heldItem (i : Item P) : Held V := (i.modRev, i.createRev, encode i.value)

/-- The copy is the store as of a revision. -/
structure IsCopy (w : World P) (at_ : ℕ) (c : Copy V) : Prop where
  head : c.head = at_
  keys : ∀ k, c.keys[k]? = (w.itemAt at_ k).map (versionOf encode)

def encodeEntry (e : LogEntry String (Object P)) : LogEntry String V :=
  ⟨e.key, e.rev, e.value.map encode, e.createRev, e.prev⟩

/-- A transaction as a run holds it. -/
def chunk (t : Txn String (Object P)) : ℕ × List (LogEntry String V) :=
  (t.main, t.entries.map (encodeEntry encode))

/-- The runs hold every transaction after a revision no later than `s`, whole and in order. -/
def AreRuns (w : World P) (s : ℕ) (runs : List (List (LogEntry String V))) : Prop :=
  ∃ lo ≤ s, ∃ parts : List (List (Txn String (Object P))),
    parts.flatten = w.store.history.filter (lo < ·.main) ∧
      runs = parts.map fun p ↦ (entries p).map (encodeEntry encode)

/-- The restored copy records the same transactions as audited. -/
def SameRecords (w : World P) (s : ℕ) (restored : Copy V) : Prop :=
  ∀ t ∈ w.store.history, s < t.main → ((restored.keys[eventsKey t.main]?).isSome ↔ Audited t)

instance (w : World P) (s : ℕ) (restored : Copy V) : Decidable (SameRecords w s restored) :=
  inferInstanceAs (Decidable (∀ t ∈ w.store.history, _))

/-- The store itself, as of a revision. -/
def copyOf (w : World P) (at_ : ℕ) : Copy (Object P) := ⟨at_, snapshot w.store.history at_⟩

theorem isCopy_copyOf (w : World P) (at_ : ℕ) : IsCopy id w at_ (copyOf w at_) where
  head := rfl
  keys k := by
    rw [World.itemAt, Option.map_map]
    exact Option.map_id'.symm

/-- All of the history, as one run. -/
def wholeRun (w : World P) : List (LogEntry String (Object P)) :=
  (entries w.store.history).map (encodeEntry id)

theorem areRuns_wholeRun (w : World P) (s : ℕ) : AreRuns id w s [wholeRun w] := by
  refine ⟨0, Nat.zero_le s, [w.store.history], ?_, rfl⟩
  rw [List.flatten_singleton, List.filter_eq_self.mpr fun t ht ↦ ?_]
  simpa using (w.store.committed t ht).1

variable {encode}

/-! ## The writes of a transaction -/

section Writes

variable {w : World P} {s : ℕ} {k : String} {staged : List (Staged P)} {m : ℕ}

theorem entries_writesOf (m : ℕ) (staged : List (Staged P)) :
    (⟨m, writesOf m staged⟩ : Txn String (Object P)).entries =
      staged.zipIdx.map fun p ↦ (writeOf m p).entry ⟨m, p.2⟩ := by
  rw [Txn.entries, zipIdx_writesOf, List.map_map]
  rfl

theorem entry_writeOf (m : ℕ) (p : Staged P × ℕ) :
    ((writeOf m p).entry ⟨m, p.2⟩).key = p.1.key ∧
      ((writeOf m p).entry ⟨m, p.2⟩).value = p.1.value := by
  rw [writeOf]
  split <;> rename_i hv <;> exact ⟨rfl, hv.symm⟩

theorem audited_writesOf :
    Audited (⟨m, writesOf m staged⟩ : Txn String (Object P)) ↔
      ∃ x ∈ staged, x.key = eventsKey m := by
  rw [Audited, writesOf]
  constructor
  · rintro ⟨_, hw, hkey⟩
    obtain ⟨p, hp, rfl⟩ := List.mem_map.mp hw
    rw [writeOf_key] at hkey
    refine ⟨p.1, ?_, hkey⟩
    rw [← List.zipIdx_map_fst 0 staged]
    exact List.mem_map_of_mem hp
  · rintro ⟨x, hx, hkey⟩
    obtain ⟨i, hi, rfl⟩ := List.getElem_of_mem hx
    refine ⟨_, List.mem_map_of_mem (List.mk_mem_zipIdx_iff_getElem?.mpr
      (List.getElem?_eq_getElem hi)), ?_⟩
    rw [writeOf_key]
    exact hkey

/-- A transaction of a world is no later than its head. -/
theorem main_le_head {t : Txn String (Object P)} (ht : t ∈ w.store.history) :
    t.main ≤ w.store.head :=
  (w.store.committed t ht).2

/-- A transaction with no write of the key leaves it swept. -/
theorem Swept.taken {author : Author P} {ok : Bool} (h : Swept w s k)
    (hno : lastOf staged k = none) : Swept (w.taken author ok staged) s k := by
  obtain ⟨t, ⟨ht, hs, haudited⟩, hwrites, hlast⟩ := h
  refine ⟨t, ⟨List.mem_append_left _ ht, hs, haudited⟩, hwrites, fun t' ht' hlt e he ↦ ?_⟩
  rcases List.mem_append.mp ht' with ht' | ht'
  · exact hlast t' ht' hlt e he
  · obtain rfl := List.mem_singleton.mp ht'
    rw [entries_writesOf] at he
    obtain ⟨p, hp, rfl⟩ := List.mem_map.mp he
    rw [(entry_writeOf _ p).1]
    have hmem : p.1 ∈ staged := by
      rw [← List.zipIdx_map_fst 0 staged]
      exact List.mem_map_of_mem hp
    exact lastOf_none.mp hno p.1 hmem

/-- A transaction with no audit record sweeps what it writes. -/
theorem swept_taken {author : Author P} {ok : Bool} {p : Staged P × ℕ} (hs : s ≤ w.store.head)
    (hun : ¬ ∃ x ∈ staged, x.key = eventsKey (w.store.head + 1)) (hp : p ∈ staged.zipIdx)
    (hkey : p.1.key = k) : Swept (w.taken author ok staged) s k := by
  refine ⟨⟨w.store.head + 1, writesOf (w.store.head + 1) staged⟩, ⟨List.mem_append_right _
    (List.mem_singleton_self _), Nat.lt_succ_of_le hs, fun ha ↦ hun (audited_writesOf.mp ha)⟩,
    ⟨(writeOf (w.store.head + 1) p).entry ⟨w.store.head + 1, p.2⟩, ?_,
      (entry_writeOf _ p).1.trans hkey⟩, fun t' ht' hlt ↦ ?_⟩
  · rw [entries_writesOf]
    exact List.mem_map_of_mem hp
  · rcases List.mem_append.mp ht' with ht' | ht'
    · have hle := main_le_head ht'
      exact absurd hlt (by simp only; omega)
    · obtain rfl := List.mem_singleton.mp ht'
      exact absurd hlt (lt_irrefl _)

/-- What an expiry may do to a key: the key has a TTL and no mark, and is deleted, or marked. -/
def Sweeps (w : World P) (k : String) (x : Staged P) : Prop :=
  ∃ i, w.cur k = some i ∧ i.mark = none ∧ (ttlMs k i.value).isSome ∧
    ∀ v, x.value = some v → v.metadata.deletionTimestamp.isSome

theorem itemAt_taken {author : Author P} {ok : Bool} {n : ℕ} (h : n ≤ w.store.head) :
    (w.taken author ok staged).itemAt n k = w.itemAt n k :=
  itemAt_le h

/-- Worlds of one history have the same keys. -/
theorem cur_of_history {w' : World P} (hhistory : w'.store.history = w.store.history) :
    w'.cur k = w.cur k := by
  rw [World.cur, World.cur, World.itemAt, World.itemAt, Mvcc.snapshot_of_head_le (le_refl _),
    hhistory, Mvcc.snapshot_of_head_le (le_refl _)]

/-! ### What each kind of transaction writes -/

theorem not_events {key : String} (h : bookkeeping key = false) : starts eventsPrefix key = false :=
  (Bool.or_eq_false_iff.mp h).1

theorem not_events_of_telemetry {key : String} (h : starts telemetryPrefix key) :
    starts eventsPrefix key = false :=
  KeyPrefix.not_starts h (by decide) (by decide)

theorem not_events_requestKey (id : String) : starts eventsPrefix (requestKey id) = false :=
  KeyPrefix.not_starts (starts_requestKey _) (by decide) (by decide)

/-- The one audit record of a batch whose ops are of other keys is its own. -/
theorem built_events {snap : String → Option (Item P)} {head : ℕ} {req : Request P}
    {r : Contract.Record} {ok : Bool} {ops : List (Op P)}
    (hb : Built snap head req r ok ops staged)
    (hops : ∀ o ∈ ops, starts eventsPrefix o.key = false) {x : Staged P} (hx : x ∈ staged)
    (hkey : starts eventsPrefix x.key) : r.audited ∧ x.key = eventsKey (head + 1) := by
  obtain ⟨resolved, hres, rfl⟩ := hb
  simp only [List.mem_append] at hx
  obtain (hx | hx) | hx := hx
  · obtain ⟨o, ho, hr⟩ := hres.of_mem hx
    rw [hr.key_prev.1, hops o ho] at hkey
    cases hkey
  · split at hx
    · obtain rfl := List.mem_singleton.mp hx
      rw [requestWrite, not_events_requestKey] at hkey
      cases hkey
    · cases hx
  · split at hx <;> rename_i ha
    · obtain rfl := List.mem_singleton.mp hx
      exact ⟨ha, rfl⟩
    · cases hx

/-- Telemetry is not compared. -/
theorem ne_of_telemetry {snap : String → Option (Item P)} {head : ℕ} {req : Request P}
    {idempotent : Bool} {n : ℕ} {ok : Bool} {ops : List (Op P)}
    (hb : Built snap head req ⟨false, idempotent, n⟩ ok ops staged)
    (hops : ∀ o ∈ ops, starts telemetryPrefix o.key) (hk : Exclusions.contract.Compared k)
    {x : Staged P} (hx : x ∈ staged) : x.key ≠ k := by
  rintro rfl
  obtain ⟨hbook, hex⟩ := hk
  obtain ⟨o, ho, hr⟩ | ⟨-, rfl⟩ | ⟨subs, rfl⟩ := hb.mem hx
  · rw [hr.key_prev.1, Exclusions.excluded, Exclusions.contract, hops o ho] at hex
    cases hex
  · rw [bookkeeping, requestWrite, starts_requestKey, Bool.or_true] at hbook
    cases hbook
  · rw [bookkeeping, eventWrite, starts_eventsKey, Bool.true_or] at hbook
    cases hbook

/-- An expiry deletes or marks keys that have a TTL and no mark. -/
theorem sweeps_of_expired {keys : List String}
    (hkeys : ∀ k ∈ keys, ∃ i, w.cur k = some i ∧ i.mark = none ∧ (ttlMs k i.value).isSome)
    (hres : Resolved w.cur (keys.map .delete) staged) {x : Staged P} (hx : x ∈ staged) :
    Sweeps w x.key x := by
  obtain ⟨o, ho, hr⟩ := hres.of_mem hx
  obtain ⟨key, hkey, rfl⟩ := List.mem_map.mp ho
  obtain ⟨i, hi, hmark, httl⟩ := hkeys key hkey
  obtain ⟨p, hp, ⟨-, rfl⟩ | ⟨-, m, -, rfl⟩⟩ := hr
  · exact ⟨i, hi, hmark, httl, fun v hv ↦ nomatch hv⟩
  · refine ⟨i, hi, hmark, httl, fun v hv ↦ ?_⟩
    cases hv
    rfl

theorem Sweeps.not_events {x : Staged P} (h : Sweeps w k x) : starts eventsPrefix k = false := by
  obtain ⟨i, -, -, httl, -⟩ := h
  obtain ⟨ttl, httl⟩ := Option.isSome_iff_exists.mp httl
  exact not_events_of_expires (expires_of_ttlMs httl)

end Writes

/-! ## The audit records -/

section Records

variable {w : World P} {s : ℕ} {staged : List (Staged P)}

/-- The record tells what the transaction wrote. -/
def Describes (record : EventRecord P) (t : Txn String (Object P)) : Prop :=
  record.subs.map saidOf = (t.entries.filter fun e ↦ !bookkeeping e.key).map ranOf

/-- Every audited transaction has a record, and every record is of one. -/
structure Recorded (w : World P) : Prop where
  described : ∀ t ∈ w.store.history, Audited t → ∃ i record,
    w.cur (eventsKey t.main) = some i ∧ i.value.data = .event record ∧ Describes record t
  audited : ∀ m i, w.cur (eventsKey m) = some i → ∃ t ∈ w.store.history, t.main = m ∧ Audited t

/-- **The record a batch is committed with tells what the batch writes.** -/
theorem describes_subsOf {m : ℕ} {resolved rest : List (Staged P)} {record : EventRecord P}
    (hsubs : record.subs = subsOf resolved)
    (hres : ∀ x ∈ resolved, bookkeeping x.key = false ∧ (x.op ≠ .delete ↔ x.value.isSome))
    (hrest : ∀ x ∈ rest, bookkeeping x.key) (hlength : resolved.length < 2 ^ 32) :
    Describes record ⟨m, writesOf m (resolved ++ rest)⟩ := by
  have hkeep : (resolved.zipIdx.map fun p ↦ (writeOf m p).entry ⟨m, p.2⟩).filter
      (fun e ↦ !bookkeeping e.key) = resolved.zipIdx.map fun p ↦ (writeOf m p).entry ⟨m, p.2⟩ := by
    refine List.filter_eq_self.mpr fun e he ↦ ?_
    obtain ⟨p, hp, rfl⟩ := List.mem_map.mp he
    rw [(entry_writeOf m p).1, (hres p.1 (List.fst_mem_of_mem_zipIdx hp)).1]
    rfl
  have hdrop : ((rest.zipIdx (0 + resolved.length)).map fun p ↦ (writeOf m p).entry ⟨m, p.2⟩).filter
      (fun e ↦ !bookkeeping e.key) = [] := by
    refine List.filter_eq_nil_iff.mpr fun e he ↦ ?_
    obtain ⟨p, hp, rfl⟩ := List.mem_map.mp he
    rw [(entry_writeOf m p).1, hrest p.1 (List.fst_mem_of_mem_zipIdx hp)]
    exact Bool.false_ne_true
  rw [Describes, hsubs, entries_writesOf, List.zipIdx_append, List.map_append, List.filter_append,
    hkeep, hdrop, List.append_nil, subsOf, List.map_map, List.map_map]
  refine List.map_congr_left fun p hp ↦ ?_
  obtain ⟨hkey, hvalue⟩ := entry_writeOf m p
  have hlt : p.2 < resolved.length := by
    have := List.snd_lt_add_of_mem_zipIdx hp
    omega
  have hop : decide (p.1.op ≠ .delete) = p.1.value.isSome := by
    rw [Bool.eq_iff_iff, decide_eq_true_eq]
    exact (hres p.1 (List.fst_mem_of_mem_zipIdx hp)).2
  have hrev : ((writeOf m p).entry ⟨m, p.2⟩).rev.sub = p.2 := by
    rw [Write.entry_rev]
  simp only [Function.comp_apply, saidOf, ranOf, hkey, hvalue, hrev, hop]
  rw [Nat.mod_eq_of_lt (hlt.trans hlength)]

theorem ResolvesTo.op {snap : String → Option (Item P)} {x : Staged P} {o : Op P}
    (h : Contract.ResolvesTo snap x o) : x.op ≠ .delete ↔ x.value.isSome := by
  cases o with
  | put key v =>
    obtain rfl := h
    simp
  | lockAcquire key ttlMs =>
    obtain rfl := h
    simp
  | delete key => obtain ⟨p, -, ⟨-, rfl⟩ | ⟨-, m, -, rfl⟩⟩ := h <;> simp

theorem length_le_of_resolved {snap : String → Option (Item P)} {ops : List (Op P)}
    (h : Resolved snap ops staged) : staged.length ≤ ops.length := by
  induction h with
  | nil => exact le_refl 0
  | cons _ _ ih => exact Nat.succ_le_succ ih
  | dropped _ _ ih => exact ih.trans (Nat.le_succ _)

/-- **One transaction more** keeps the records, where its own is right. -/
theorem Recorded.taken {author : Author P} {ok : Bool} (h : Recorded w)
    (hevents : ∀ x ∈ staged, starts eventsPrefix x.key → x.key = eventsKey (w.store.head + 1))
    (hnew : (∃ x ∈ staged, x.key = eventsKey (w.store.head + 1)) → ∃ i record,
      (w.taken author ok staged).cur (eventsKey (w.store.head + 1)) = some i ∧
        i.value.data = .event record ∧
          Describes record ⟨w.store.head + 1, writesOf (w.store.head + 1) staged⟩) :
    Recorded (w.taken author ok staged) where
  described t ht ha := by
    rcases List.mem_append.mp ht with ht | ht
    · have hnone : lastOf staged (eventsKey t.main) = none := by
        refine lastOf_none.mpr fun x hx hkey ↦ ?_
        have := hevents x hx (hkey ▸ starts_eventsKey _)
        rw [hkey, eventsKey_inj] at this
        have := main_le_head ht
        omega
      rw [cur_taken, hnone]
      exact h.described t ht ha
    · obtain rfl := List.mem_singleton.mp ht
      exact hnew (audited_writesOf.mp ha)
  audited m i hi := by
    rw [cur_taken] at hi
    cases hlast : lastOf staged (eventsKey m) with
    | none =>
      rw [hlast] at hi
      obtain ⟨t, ht, hm, ha⟩ := h.audited m i hi
      exact ⟨t, List.mem_append_left _ ht, hm, ha⟩
    | some p =>
      obtain ⟨-, hp, hkey⟩ := lastOf_some hlast
      have hown := hevents p.1 hp (hkey ▸ starts_eventsKey _)
      have hm : m = w.store.head + 1 := eventsKey_inj.mp (hkey.symm.trans hown)
      exact ⟨_, List.mem_append_right _ (List.mem_singleton_self _), hm.symm,
        audited_writesOf.mpr ⟨p.1, hp, hown⟩⟩

/-- **Every audited transaction of an original has its record.** -/
theorem Original.recorded (h : Original w) : Recorded w := by
  induction h with
  | init => exact ⟨fun t ht ↦ absurd ht List.not_mem_nil, fun m i hi ↦ by simp [World.init,
      World.cur, World.itemAt, snapshot, Mvcc.empty] at hi⟩
  | @audited w author req ok idempotent ops staged h hops hkeys hb ih =>
    have hnot : ∀ o ∈ ops, starts eventsPrefix o.key = false := fun o ho ↦ not_events (hkeys o ho)
    refine ih.taken (fun x hx hkey ↦ (built_events hb hnot hx hkey).2) fun _ ↦ ?_
    obtain ⟨resolved, hres, rfl⟩ := hb
    have hown : (eventWrite req (w.store.head + 1) ok (subsOf resolved)).key =
        eventsKey (w.store.head + 1) := rfl
    rw [cur_taken, if_pos rfl, lastOf_snoc, if_pos hown]
    refine ⟨_, _, rfl, rfl, ?_⟩
    rw [List.append_assoc]
    refine describes_subsOf rfl (fun x hx ↦ ?_) (fun x hx ↦ ?_) ?_
    · obtain ⟨o, ho, hr⟩ := hres.of_mem hx
      rw [hr.key_prev.1]
      exact ⟨hkeys o ho, ResolvesTo.op hr⟩
    · rcases List.mem_append.mp hx with hx | hx
      · split at hx
        · rw [List.mem_singleton.mp hx, bookkeeping, requestWrite, starts_requestKey, Bool.or_true]
        · cases hx
      · rw [List.mem_singleton.mp hx, bookkeeping, eventWrite, starts_eventsKey, Bool.true_or]
    · have := length_le_of_resolved hres
      simp only [maxTxnOps] at hops
      omega
  | @telemetry w author req ok idempotent ops staged h hkeys hb ih =>
    have hno (x : Staged P) (hx : x ∈ staged) (hkey : starts eventsPrefix x.key) : False :=
      Bool.false_ne_true
        (built_events hb (fun o ho ↦ not_events_of_telemetry (hkeys o ho)) hx hkey).1
    refine ih.taken (fun x hx hkey ↦ (hno x hx hkey).elim) ?_
    rintro ⟨x, hx, hkey⟩
    exact (hno x hx (hkey ▸ starts_eventsKey _)).elim
  | @expired w keys staged h hkeys hres ih =>
    have hno (x : Staged P) (hx : x ∈ staged) (hkey : starts eventsPrefix x.key) : False := by
      rw [(sweeps_of_expired hkeys hres hx).not_events] at hkey
      cases hkey
    refine ih.taken (fun x hx hkey ↦ (hno x hx hkey).elim) ?_
    rintro ⟨x, hx, hkey⟩
    exact (hno x hx (hkey ▸ starts_eventsKey _)).elim
  | @idle w w' h hhistory hhead ih =>
    refine ⟨fun t ht ha ↦ ?_, fun m i hi ↦ ?_⟩
    · rw [hhistory] at ht
      rw [cur_of_history hhistory]
      exact ih.described t ht ha
    · rw [cur_of_history hhistory] at hi
      rw [hhistory]
      exact ih.audited m i hi

/-- A copy of the head has the original's records. -/
theorem SameRecords.of_isCopy {restored : Copy V} (h : Original w)
    (hcopy : IsCopy encode w w.store.head restored) : SameRecords w s restored := by
  intro t ht _
  rw [hcopy.keys, Option.isSome_map]
  constructor
  · intro hsome
    obtain ⟨i, hi⟩ := Option.isSome_iff_exists.mp hsome
    obtain ⟨t', ht', hmain, ha⟩ := h.recorded.audited t.main i hi
    have hsame : t' = t := by
      refine List.inj_on_of_nodup_map (f := Txn.main) (List.Pairwise.map _ ?_ w.store.increasing)
        ht' ht hmain
      exact fun a b hlt ↦ hlt.ne
    rw [← hsame]
    exact ha
  · intro ha
    obtain ⟨i, record, hi, -⟩ := h.recorded.described t ht ha
    rw [World.cur] at hi
    rw [hi]
    rfl

end Records

/-! ## Originals at work -/

def clerk : Request ℕ := ⟨"r", "clerk", "write", none⟩

/-- An audited transaction of `clerk`. -/
def World.written (w : World ℕ) (resolved : List (Staged ℕ)) : World ℕ :=
  w.taken (.call (.txn {} clerk)) true
    (resolved ++ [] ++ [eventWrite clerk (w.store.head + 1) true (subsOf resolved)])

theorem Original.written {w : World ℕ} (h : Original w) (ops : List (Op ℕ))
    {resolved : List (Staged ℕ)} (hops : ops.length ≤ maxTxnOps)
    (hkeys : ∀ o ∈ ops, bookkeeping o.key = false) (hres : Resolved w.cur ops resolved) :
    Original (World.written w resolved) := by
  have hb : Built w.cur w.store.head clerk ⟨true, false, 0⟩ true ops
      (resolved ++ [] ++ [eventWrite clerk (w.store.head + 1) true (subsOf resolved)]) :=
    ⟨resolved, hres, rfl⟩
  exact h.audited hops hkeys hb

/-- A key is put and a lock taken. -/
def lockTaken : World ℕ := World.written (.init ℕ)
  [⟨"a", some { data := .payload 1 }, none, .put⟩, ⟨"locks/b", some (lockValue 1000), none, .put⟩]

theorem lockTaken_original : Original lockTaken := by
  refine Original.init.written [.put "a" { data := .payload 1 }, .lockAcquire "locks/b" 1000]
    (by decide) (by decide) (.cons ?_ (.cons ?_ .nil))
  · rfl
  · rfl

/-- The lock expires. -/
def lockLapsed : World ℕ :=
  lockTaken.taken .expire true [⟨"locks/b", none, lockTaken.cur "locks/b", .delete⟩]

theorem lockLapsed_original : Original lockLapsed := by
  have hcur : lockTaken.cur "locks/b" = some ⟨"locks/b", lockValue 1000, ⟨1, 1⟩, ⟨1, 1⟩⟩ := by
    decide
  have hres : Resolved lockTaken.cur (["locks/b"].map .delete)
      [⟨"locks/b", none, lockTaken.cur "locks/b", .delete⟩] :=
    .cons ⟨_, hcur, .inl ⟨rfl, by rw [hcur]⟩⟩ .nil
  refine lockTaken_original.expired (fun k hk ↦ ?_) hres
  obtain rfl := List.mem_singleton.mp hk
  exact ⟨_, hcur, rfl, by decide⟩

/-- The lock is taken again. -/
def lockRetaken : World ℕ :=
  World.written lockLapsed [⟨"locks/b", some (lockValue 1000), none, .put⟩]

theorem lockRetaken_original : Original lockRetaken := by
  refine lockLapsed_original.written [.lockAcquire "locks/b" 1000] (by decide) (by decide)
    (.cons ?_ .nil)
  have hcur : lockLapsed.cur "locks/b" = none := by decide
  rw [Contract.ResolvesTo, hcur]

/-- A key with a TTL and a finalizer. -/
def guarded : World ℕ := World.written (.init ℕ)
  [⟨"intents/x", some ⟨⟨["f"], [], none, some 1⟩, .payload 1⟩, none, .put⟩]

/-- The key expires, and is marked. -/
def marked : World ℕ := guarded.taken .expire true
  [⟨"intents/x", some ⟨⟨["f"], [], some 5, some 1⟩, .payload 1⟩, guarded.cur "intents/x",
    .markDeleted⟩]

theorem marked_original : Original marked := by
  have hguarded : Original guarded :=
    Original.init.written [.put "intents/x" ⟨⟨["f"], [], none, some 1⟩, .payload 1⟩] (by decide)
      (by decide) (.cons rfl .nil)
  have hcur : guarded.cur "intents/x" =
      some ⟨"intents/x", ⟨⟨["f"], [], none, some 1⟩, .payload 1⟩, ⟨1, 0⟩, ⟨1, 0⟩⟩ := by
    decide
  have hres : Resolved guarded.cur (["intents/x"].map .delete)
      [⟨"intents/x", some ⟨⟨["f"], [], some 5, some 1⟩, .payload 1⟩, guarded.cur "intents/x",
        .markDeleted⟩] :=
    .cons ⟨_, hcur, .inr ⟨by decide, 5, fun m' hm' ↦ (nomatch hm'), by rw [hcur]; rfl⟩⟩ .nil
  refine hguarded.expired (fun k hk ↦ ?_) hres
  obtain rfl := List.mem_singleton.mp hk
  exact ⟨_, hcur, rfl, by decide⟩

end Spira.Store.Drill
