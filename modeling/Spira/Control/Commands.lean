import Spira.Control.Planning
import Spira.StateStore.Effect

/-!
# Commands and what they commit

A command reads, plans its cascade on what it read, and commits it as one transaction.  Its reads
are of any revisions of the run, each key's of its own: what the transaction compares is what
makes up for that.  `Taken` says what it does at the snapshot it is committed at: the keys it
writes are there as they were read, and are after as they were planned, and no other record is
changed.
-/

set_option autoImplicit false

namespace Spira.Control

open Spira.Bead Spira.Batch Spira.Delivery Store Store.Contract Stopping
open KeyPrefix (starts)

/-! ## Commands -/

inductive Command
  | cut (cut : Cut)
  | stage (cut : Cut)
  | stack (id : String) (members : List (String × String)) (actor : String) (at_ : Int)
  | promote (id head base actor : String) (at_ : Int)
  | settle (id : String) (ev : BatchEvent) (eject requeue : List String) (at_ : Int)
  | abandon (id : String) (ev : BatchEvent) (at_ : Int)
  | eject (id bead : String) (ev : BatchEvent) (at_ : Int)
  | land (id : String) (ev : BatchEvent) (at_ : Int)
  | batchEvent (id : String) (ev : BatchEvent) (at_ : Int)
  | deliveryEvent (id : String) (ev : DeliveryEvent) (at_ : Int)
  deriving DecidableEq

def Command.plan (r : Reads) : Command → Plan Unit
  | .cut c => planCut r c
  | .stage c => planStage r c
  | .stack id members actor at_ => planStack r id members actor at_
  | .promote id head base actor at_ => planPromote r id head base actor at_
  | .settle id ev ejected requeued at_ => planSettle r id ev ejected requeued at_
  | .abandon id ev at_ => planAbandon r id ev at_
  | .eject id bead ev at_ => planEject r id bead ev at_
  | .land id ev at_ => planLand r id ev at_
  | .batchEvent id ev at_ => planBatchEvent r id ev at_
  | .deliveryEvent id ev at_ => planDeliveryEvent r id ev at_

/-- A command as it is issued. -/
structure Issue where
  command : Command
  reads : Reads
  /-- A round and the queue's fields of it, which ride in the write of the round. -/
  fields : Option (String × Fields)
  req : Request Value
  part : String
  /-- The head when the transaction was put together. -/
  plannedAt : ℕ

/-- The cascade with the queue's fields of a round in it: one that writes no such round is a fault
of the verb. -/
def withRound (c : Cascade) : Option (String × Fields) → Except Stop Cascade
  | none => .ok c
  | some (id, fields) =>
    match c.setRound id fields with
    | some c' => .ok c'
    | none => .error (.error (.backend (.backend
        ("the round fields of " ++ id ++ " have no write of " ++ id ++ " to ride in"))))

/-- What the command plans, or what stops it. -/
def Issue.cascade (i : Issue) : Except Stop Cascade := do
  let ((), c) ← (i.command.plan i.reads).run {}
  withRound c i.fields

/-- The transaction of a cascade that was planned, or of the audit of a refusal. -/
def Issue.call (i : Issue) : Option (Call Value) :=
  match i.cascade with
  | .ok c => some (auditedTxn c.txn c.then_ c.els i.req i.part i.plannedAt)
  | .error (.refuse audit) => some (auditedTxn {} [audit] [] i.req "refuse" i.plannedAt)
  | .error _ => none

/-! ## Keys apart from the transaction's own -/

/-- The key is of no audit, no request and no history. -/
def Apart (key : String) : Prop := Plain key ∧ starts Keys.historyPrefix key = false

section Apart

variable {id repo key pre : String}

theorem apart_of_starts (h : starts pre key)
    (hpre : (starts eventsPrefix pre = false ∧ starts pre eventsPrefix = false) ∧
      (starts requestsPrefix pre = false ∧ starts pre requestsPrefix = false) ∧
      starts Keys.historyPrefix pre = false ∧ starts pre Keys.historyPrefix = false) : Apart key :=
  ⟨⟨KeyPrefix.not_starts h hpre.1.2 hpre.1.1, KeyPrefix.not_starts h hpre.2.1.2 hpre.2.1.1⟩,
    KeyPrefix.not_starts h hpre.2.2.2 hpre.2.2.1⟩

/-- A key under a prefix apart from those of what expires does not expire. -/
theorem ttlMs_of_starts (h : starts pre key)
    (hpre : ∀ p ∈ [locksPrefix, requestsPrefix, telemetryPrefix, intentsPrefix],
      starts p pre = false ∧ starts pre p = false) (v : Object Value) : ttlMs key v = none := by
  have hno (p : String) (hp : p ∈ [locksPrefix, requestsPrefix, telemetryPrefix, intentsPrefix]) :
      starts p key = false := KeyPrefix.not_starts h (hpre p hp).2 (hpre p hp).1
  have hlocks := hno locksPrefix (by simp)
  have hrequests := hno requestsPrefix (by simp)
  have htelemetry := hno telemetryPrefix (by simp)
  have hintents := hno intentsPrefix (by simp)
  simp [ttlMs, ttlAllowed, ttlPrefixes, hlocks, hrequests, htelemetry, hintents]

theorem apart_lifecycle : Apart (Keys.lifecycle id) :=
  apart_of_starts (Keys.starts_lifecycle id) (by decide)

theorem apart_gate : Apart (Keys.gate id) := apart_of_starts (Keys.starts_gate id) (by decide)

theorem apart_delivery : Apart (Keys.delivery id) :=
  apart_of_starts (Keys.starts_delivery id) (by decide)

theorem apart_batches (h : starts Keys.batchesPrefix key) : Apart key :=
  apart_of_starts h (by decide)

theorem apart_batchIndex : Apart (Keys.batchIndex id) :=
  apart_of_starts (Keys.starts_batchIndex id) (by decide)

end Apart

/-! ## What a transaction leaves -/

/-- The record of `T` that a snapshot has under `key`. -/
def recordOf (T : Type) [Stored T] (snap : View) (key : String) : Option T :=
  (snap key).bind fun i ↦ decode i.value

theorem recordOf_some {T : Type} [Stored T] {snap : View} {key : String} {t : T} :
    recordOf T snap key = some t ↔ ∃ i, snap key = some i ∧ decode i.value = some t := by
  rw [recordOf, Option.bind_eq_some_iff]

theorem rowOf_values {T : Type} [Stored T] (snap : View) (key : String) :
    rowOf T (fun k ↦ (snap k).map (·.value)) key = recordOf T snap key := by
  rw [rowOf, recordOf]
  cases snap key <;> rfl

namespace Cascade

variable {view snap after : View} {c : Cascade} {key : String}

theorem decode_keepMark {T : Type} [Stored T] (m : Option ℕ) (v : Object Value) :
    (decode (keepMark m v) : Option T) = decode v := by
  rw [decode, keepMark_data, decode]

theorem withEntered_metadata (c : Cascade) (s : Slot) (v : Object Value) :
    (c.withEntered s v).metadata = v.metadata := by
  rw [withEntered]
  split
  · rfl
  · split <;> rfl
  · rfl

theorem decode_withEntered {T : Type} [Stored T] (c : Cascade) (s : Slot) (v : Object Value) :
    (decode (c.withEntered s v) : Option T) = decode v := by
  rw [withEntered]
  split <;> rename_i hv
  · rw [decode, decode, hv]
    exact Stored.decode_entered _ _ _
  · split
    · rw [decode, decode, hv]
      exact Stored.decode_entered _ _ _
    · rfl
  · rfl

/-- What the commit of a cascade does at the snapshot it is committed at. -/
structure Taken (view snap after : View) (c : Cascade) : Prop where
  compared : ∀ key, c.Writes key → snap key = view key
  unwritten : ∀ key, Apart key → ¬ c.Writes key → after key = snap key
  written : ∀ key, Apart key → c.Writes key → ∃ o i, c.planned view key = some o ∧
    after key = some i ∧
    i.value.metadata = (keepMark ((snap key).bind Item.mark) o).metadata ∧
    ∀ (T : Type) [Stored T], (decode i.value : Option T) = decode o

/-- **A record is after as it was planned**, where its key is one that is written. -/
theorem Taken.recordOf (h : Taken view snap after c) {T : Type} [Stored T] (hkey : Apart key)
    (hw : c.Writes key) : recordOf T after key = rowOf T (c.planned view) key := by
  obtain ⟨o, i, ho, hi, -, hd⟩ := h.written key hkey hw
  rw [Control.recordOf, rowOf, hi, ho]
  exact hd T

/-- The ops of an audited transaction's branch, but for its history entries, are the
transaction's. -/
theorem mem_auditedOps {ops : List (Op Value)} {audits : List Audit} {plannedAt : ℕ} {id : String}
    {o : Op Value}
    (ho : o ∈ ops ++ (auditedIds audits).map fun a ↦
      .put (Keys.historyEntry a plannedAt id) { data := .payload .history })
    (hkey : starts Keys.historyPrefix o.key = false) : o ∈ ops := by
  obtain ho | ho := List.mem_append.mp ho
  · exact ho
  · obtain ⟨a, -, rfl⟩ := List.mem_map.mp ho
    have hstarts := Keys.starts_historyEntry a plannedAt id
    rw [Op.key, hstarts] at hkey
    cases hkey

/-- **What the then-branch of a cascade's transaction does**, where a revision of a key is of one
item. -/
theorem taken_of_effect {J : String → Bool → Prop} {main : ℕ} {ops : List (Op Value)}
    {then_ els : List Audit} {req : Request Value} {part : String} {plannedAt : ℕ}
    (hs : Sound view c)
    (hview : ∀ key, (snap key).map (·.modRev) = (view key).map (·.modRev) → snap key = view key)
    (hc : Chosen snap J true ops (auditedTxn c.txn then_ els req part plannedAt))
    (he : Effect snap after main ops) : Taken view snap after c := by
  obtain ⟨hops, hcompares, -⟩ := hc
  rw [if_pos rfl] at hops
  refine ⟨fun key ⟨s, hmem, hkey, hd⟩ ↦ hview key ?_, fun key hapart hw ↦ ?_,
    fun key hapart ⟨s, hmem, hkey, hd⟩ ↦ ?_⟩
  · have hin : Compare.modRev s.key s.readRev ∈ c.txn.compares :=
      List.mem_map.mpr ⟨s, List.mem_filter.mpr ⟨hmem, hd⟩, rfl⟩
    have hholds : (snap s.key).map (·.modRev) = s.readRev := by
      obtain h | ⟨live, -, h⟩ := hcompares _ hin
      · simpa [Compare.holdsIn] using h true
      · simpa [Compare.holdsIn] using h
    rw [← hkey, hholds, hs.readRev s hmem]
  · refine he.untouched key hapart.1 fun o ho hkey ↦ ?_
    subst hops
    have hmem := mem_auditedOps ho (by rw [hkey]; exact hapart.2)
    obtain ⟨s, hslot, hput⟩ := List.mem_filterMap.mp hmem
    obtain ⟨v, -, rfl⟩ := Option.map_eq_some_iff.mp hput
    exact hw ⟨s, (List.mem_filter.mp hslot).1, hkey, (List.mem_filter.mp hslot).2⟩
  · obtain ⟨v, hv⟩ := Option.isSome_iff_exists.mp (hs.written s hmem hd)
    have hput : Op.put key (c.withEntered s v) ∈ ops := by
      rw [hops]
      refine List.mem_append_left _ (List.mem_filterMap.mpr
        ⟨s, List.mem_filter.mpr ⟨hmem, hd⟩, ?_⟩)
      rw [hv, ← hkey]
      rfl
    obtain ⟨i, hi, hval⟩ := Option.map_eq_some_iff.mp (he.put hput hapart.1)
    refine ⟨v, i, ?_, hi, ?_, fun T _ ↦ ?_⟩
    · rw [← hkey, hs.planned hmem, hv]
    · rw [hval]
      cases (snap key).bind Item.mark with
      | none => exact withEntered_metadata c s v
      | some m =>
        simp only [keepMark]
        rw [withEntered_metadata]
    · rw [hval, decode_keepMark, decode_withEntered]

end Cascade

/-- **Where its compares do not hold, a cascade's transaction changes no record.** -/
theorem untaken_of_effect {snap after : View} {c : Cascade} {J : String → Bool → Prop} {main : ℕ}
    {ops : List (Op Value)} {then_ els : List Audit} {req : Request Value} {part : String}
    {plannedAt : ℕ} {key : String}
    (hc : Chosen snap J false ops (auditedTxn c.txn then_ els req part plannedAt))
    (he : Effect snap after main ops) (hapart : Apart key) : after key = snap key := by
  obtain ⟨hops, -⟩ := hc
  rw [if_neg Bool.false_ne_true] at hops
  subst hops
  refine he.untouched key hapart.1 fun o ho hkey ↦ ?_
  have hmem := Cascade.mem_auditedOps ho (by rw [hkey]; exact hapart.2)
  cases hmem

/-! ## The queue's fields -/

namespace Cascade

/-- From `c` to `c'` the queue's fields of a round that `c` writes are set, and nothing else. -/
structure Fielded (view : View) (c c' : Cascade) : Prop where
  sound : Sound view c'
  writes : c'.Writes = c.Writes
  planned : ∀ key, c'.planned view key = c.planned view key ∨
    ∃ m r fields, key = Keys.batch r.row.repo r.row.batchId ∧
      c.planned view key = some ⟨m, .payload (.batch r)⟩ ∧
      c'.planned view key = some ⟨m, .payload (.batch { r with round := fields })⟩

theorem setRound_fielded {view : View} {c c' : Cascade} {id : String} {fields : Fields}
    (hs : Sound view c) (h : c.setRound id fields = some c') : Fielded view c c' := by
  rw [setRound] at h
  split at h
  · cases h
  rename_i s hf
  have hmem := List.mem_of_find?_eq_some hf
  have hround : isRound id s = true := List.find?_some hf
  split at h
  · rename_i m r hv
    obtain rfl := Option.some.inj h
    rw [isRound, hv] at hround
    simp only [Option.bind_some, decode, Stored.decode, Bool.and_eq_true, decide_eq_true_eq] at hround
    obtain ⟨hd, hid, hkey⟩ := hround
    have hl := assign_leaves (v := ⟨m, .payload (.batch { r with round := fields })⟩) hs.leaves
      ⟨s, hmem, rfl⟩
    refine ⟨hl.sound, ?_, fun key ↦ ?_⟩
    · rw [hl.writes]
      funext key
      exact propext ⟨fun h ↦ h.elim (fun h ↦ ⟨s, hmem, h.symm, hd⟩) fun h ↦ h, .inr⟩
    · rw [hl.planned]
      by_cases hk : key = s.key
      · subst hk
        exact .inr ⟨m, r, fields, hid ▸ hkey, (hs.planned hmem).trans hv, Function.update_self _ _ _⟩
      · exact .inl (Function.update_of_ne hk _ _)
  · cases h

/-- A record that is no round is planned as before. -/
theorem Fielded.row {view : View} {c c' : Cascade} (h : Fielded view c c') {T : Type} [Stored T]
    {key : String} (hkey : starts Keys.batchesPrefix key = false) :
    rowOf T (c'.planned view) key = rowOf T (c.planned view) key := by
  obtain heq | ⟨m, r, fields, rfl, -⟩ := h.planned key
  · rw [rowOf, heq, rowOf]
  · rw [Keys.starts_batch] at hkey
    cases hkey

end Cascade

/-- The cascade of a command is the one its plan ends with, the queue's fields set. -/
theorem Issue.cascade_ends {i : Issue} {c : Cascade} (h : i.cascade = .ok c)
    {Q : Cascade → Prop} (hplan : Ends (i.command.plan i.reads) {} fun _ c ↦ Q c)
    (hsound : ∀ c, Q c → Cascade.Sound i.reads.view c) :
    ∃ c₀, Q c₀ ∧ (c = c₀ ∨ Cascade.Fielded i.reads.view c₀ c) := by
  rw [Issue.cascade] at h
  cases hp : (i.command.plan i.reads).run {} with
  | error e =>
    rw [hp] at h
    cases h
  | ok p =>
    rw [hp] at h
    have hq : Q p.2 := hplan p.1 p.2 hp
    refine ⟨p.2, hq, ?_⟩
    change withRound p.2 i.fields = .ok c at h
    rw [withRound.eq_def] at h
    split at h
    · exact .inl (Except.ok.inj h).symm
    · split at h
      · rename_i hset
        obtain rfl := Except.ok.inj h
        exact .inr (Cascade.setRound_fielded (hsound _ hq) hset)
      · cases h

/-! ## In a run -/

/-- All that was read is of revisions of the run, and a record's gate was read after it. -/
structure Reads.Of (r : Reads) (w : World Value) : Prop where
  view : ∀ key, ∃ at_, r.view key = w.itemAt at_ key
  before : ∀ key, ∃ at_, r.before key = w.itemAt at_ key
  gates : ∀ id, ∃ m n, m ≤ n ∧ r.view (Keys.lifecycle id) = w.itemAt m (Keys.lifecycle id) ∧
    r.view (Keys.gate id) = w.itemAt n (Keys.gate id)

/-- What a revision of a key is of was read of it, wherever it was read. -/
theorem Reads.Of.eq {r : Reads} {w : World Value} (h : r.Of w) {at_ : ℕ} (key : String)
    (hrev : (w.itemAt at_ key).map (·.modRev) = (r.view key).map (·.modRev)) :
    w.itemAt at_ key = r.view key := by
  obtain ⟨at', hat⟩ := h.view key
  rw [hat] at hrev ⊢
  exact itemAt_eq_of_modRev hrev

section Run

variable (cfg : Config Value) (fuel : ℕ) (turns : List (Turn Env ℕ (Call Value)))

/-- `k` is the commit of the cascade `c` that the command planned on what it read in the run. -/
structure Commits (i : Issue) (c : Cascade) (k : Committed Value) : Prop where
  reads : i.reads.Of (worldAt cfg fuel turns)
  cascade : i.cascade = .ok c
  author : k.author = .call (auditedTxn c.txn c.then_ c.els i.req i.part i.plannedAt)
  committed : .committed k ∈ (worldAt cfg fuel turns).trace
  ok : k.ok = true

variable {cfg fuel turns} {i : Issue} {c : Cascade} {k : Committed Value}

/-- **A cascade is committed where all that it writes is as it was read**, and leaves it as
planned. -/
theorem Commits.taken (h : Commits cfg fuel turns i c k) (hs : Cascade.Sound i.reads.view c) :
    Cascade.Taken i.reads.view ((worldAt cfg fuel turns).itemAt k.head)
      ((worldAt cfg fuel turns).itemAt (k.head + 1)) c := by
  obtain ⟨pre, ops, -, hacts, he⟩ := runs_effect turns h.committed
  rw [h.author, h.ok] at hacts
  exact Cascade.taken_of_effect hs (fun key ↦ h.reads.eq key) hacts he

end Run

end Spira.Control
