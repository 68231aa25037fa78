import Spira.Control.Beads
import Spira.Control.Commands

/-!
# Runs of the control store

A run of the control store is one of the contract whose calls are those its commands make
(`Issued`), in any order and by any number of callers.  What a command has read is of revisions of
the run, each key's of its own.  The plane's other writers are calls that write none of the keys the
records, their gates, their locks, the deliveries and the rounds are under.
-/

set_option autoImplicit false

namespace Spira.Control

open Spira.Bead Spira.Batch Spira.Delivery Store Store.Contract
open KeyPrefix (starts)

/-- The keys of what the commands keep: records, gates, claim locks, deliveries and rounds. -/
def kept (key : String) : Bool :=
  [Keys.lifecyclePrefix, Keys.gatesPrefix, locksPrefix ++ Keys.lifecyclePrefix, Keys.deliveriesPrefix,
    Keys.batchesPrefix, Keys.batchIdsPrefix].any (starts · key)

/-- The keys a call may write, but for the contract's own records. -/
def Call.writes : Call Value → List String
  | .create key _ _ | .delete key _ _ => [key]
  | .txn t _ => (t.ops ++ t.elseOps).map Op.key
  | .lock resource _ _ => [lockKey resource]
  | .renew f _ | .renewFor f _ _ | .release f _ => [f.key]
  | .tick _ => []

/-- All that a view has is of revisions of the run. -/
def View.Of (view : View) (w : World Value) : Prop := ∀ key, ∃ at_, view key = w.itemAt at_ key

/-- A call that a command of the control store makes, on what it has read in the run of `w`. -/
inductive Issued (floor : ℕ) (w : World Value) : Call Value → Prop
  | round {i : Issue} {call : Call Value} (reads : i.reads.Of w) (h : i.call = some call) :
      Issued floor w call
  /-- A bead is filed READY, or SUBMITTED at a tip. -/
  | create {view : View} {id : String} {repo submittedTip : Option String} {at_ : Int}
      {req : Request Value} {plannedAt : ℕ} {call : Call Value} (reads : View.Of view w)
      (h : createCall view id (.born id repo submittedTip at_) submittedTip req plannedAt = some call) :
      Issued floor w call
  /-- A bead is filed OPEN. -/
  | createOpen {view : View} {id : String} {repo : Option String} {at_ : Int}
      {req : Request Value} {plannedAt : ℕ} {call : Call Value} (reads : View.Of view w)
      (h : createCall view id (.bornOpen id repo at_) none req plannedAt = some call) :
      Issued floor w call
  /-- An event on a record: a claim, a renewal, or any other. -/
  | event {view : View} {live : Option Fence} {id : String} {ev : BeadEvent} {req : Request Value}
      {plannedAt : ℕ} {call : Call Value} (reads : View.Of view w)
      (fence : ∀ f, live = some f → f.resource = Keys.claimResource id)
      (h : eventCall view floor live id ev req plannedAt = some call) : Issued floor w call
  | claimAgain {id : String} {leaseUntil at_ : Int} {req : Request Value} :
      Issued floor w (claimAgainCall floor id leaseUntil at_ req)
  | renewLock {id : String} {token : Rev} {leaseUntil at_ : Int} {req : Request Value} :
      Issued floor w (renewLockCall floor ⟨Keys.claimResource id, token⟩ leaseUntil at_ req)
  /-- A transition out of WORKING gives back the lock it has read. -/
  | release {view : View} {id : String} {f : Fence} {req : Request Value} (reads : View.Of view w)
      (h : heldFence view id = some f) : Issued floor w (.release f (partRequest req "release"))
  | planningClosed {view : View} {id : String} {attempt : ℕ} {req : Request Value} {call : Call Value}
      (reads : View.Of view w) (h : planningClosedCall view id attempt req = some call) :
      Issued floor w call
  | setRepo {view : View} {id : String} {repo onlyIf : Option String} {attempt : ℕ}
      {req : Request Value} {call : Call Value} (reads : View.Of view w)
      (h : setRepoCall view id repo onlyIf attempt req = some call) : Issued floor w call
  | setEdge {view : View} {id dep : String} {edge : Edge} {attempt : ℕ} {req : Request Value}
      {call : Call Value} (reads : View.Of view w)
      (h : setEdgeCall view id dep edge attempt req = some call) : Issued floor w call
  | delete {id : String} {req : Request Value} :
      Issued floor w (.delete (Keys.lifecycle id) none (partRequest req "delete"))
  /-- Another writer's. -/
  | other {call : Call Value} (h : ∀ key ∈ Call.writes call, kept key = false) : Issued floor w call

/-! ## What the verbs of a bead write -/

/-- The keys of a bead that its verbs write. -/
def beadKeys (id : String) : List String :=
  [Keys.lifecycle id, Keys.gate id, Keys.readiness id, Keys.claimLock id]

/-- The call writes no more than the keys of the bead, and its history. -/
def OnBead (id : String) (call : Call Value) : Prop :=
  ∀ key ∈ Call.writes call, key ∈ beadKeys id ∨ starts Keys.historyPrefix key

section OnBead

variable {view : View} {id : String} {ev : BeadEvent} {cur : LifecycleRecord} {item : Item Value}
  {req : Request Value} {plannedAt floor : ℕ} {call : Call Value}

theorem auditedTxn_onBead {t : TxnOps Value} {then_ els : List Audit} {part : String}
    (h : ∀ o ∈ t.ops ++ t.elseOps, o.key ∈ beadKeys id) :
    OnBead id (auditedTxn t then_ els req part plannedAt) := by
  intro key hkey
  obtain ⟨o, ho, rfl⟩ := List.mem_map.mp hkey
  have hentry {audits : List Audit} {n : ℕ} {req' : String} {o : Op Value}
      (ho : o ∈ (auditedIds audits).map fun a ↦
        .put (Keys.historyEntry a n req') { data := .payload .history }) :
      starts Keys.historyPrefix o.key := by
    obtain ⟨a, -, rfl⟩ := List.mem_map.mp ho
    exact Keys.starts_historyEntry a n req'
  obtain ho | ho := List.mem_append.mp ho <;> obtain ho | ho := List.mem_append.mp ho
  · exact .inl (h o (List.mem_append_left _ ho))
  · exact .inr (hentry ho)
  · exact .inl (h o (List.mem_append_right _ ho))
  · exact .inr (hentry ho)

theorem gated_onBead {t : TxnOps Value} {prev : Option LifecycleRecord} {next : LifecycleRecord}
    (h : ∀ o ∈ t.ops ++ t.elseOps, o.key ∈ beadKeys id) :
    ∀ o ∈ (gated view t id prev next).ops ++ (gated view t id prev next).elseOps,
      o.key ∈ beadKeys id := by
  rw [gated]
  split_ifs
  · exact h
  · intro o ho
    simp only [List.mem_append, List.mem_singleton] at ho
    obtain (ho | rfl) | ho := ho
    · exact h o (List.mem_append_left _ ho)
    · simp [Op.key, beadKeys]
    · exact h o (List.mem_append_right _ ho)

theorem refuseCall_onBead {refusal : Option (Refusal BeadEventKind)} :
    OnBead id (refuseCall id ev cur refusal req plannedAt) :=
  auditedTxn_onBead (by simp)

theorem writeCall_onBead {row : BeadRow} {fence : Option Fence} :
    OnBead id (writeCall view id ev cur item row fence req plannedAt) :=
  auditedTxn_onBead (gated_onBead (by simp [Op.key, beadKeys]))

theorem transition_onBead {fence : Option Fence}
    (h : transition view id ev fence req plannedAt = some call) : OnBead id call := by
  obtain ⟨⟨cur, item⟩, -, rfl⟩ := Option.map_eq_some_iff.mp h
  dsimp only
  split_ifs
  · exact refuseCall_onBead
  · exact writeCall_onBead

theorem claimCall_onBead (h : claimCall view floor id ev req plannedAt = some call) :
    OnBead id call := by
  rw [claimCall] at h
  split at h
  · obtain ⟨⟨cur, item⟩, -, h⟩ := Option.bind_eq_some_iff.mp h
    dsimp only at h
    split_ifs at h
    · obtain rfl := Option.some.inj h
      exact refuseCall_onBead
    · split at h
      · cases h
      · split_ifs at h
        obtain rfl := Option.some.inj h
        exact auditedTxn_onBead (gated_onBead (by simp [Op.key, beadKeys]))
  · cases h

theorem eventCall_onBead {live : Option Fence}
    (h : eventCall view floor live id ev req plannedAt = some call) : OnBead id call := by
  rw [eventCall.eq_def] at h
  split at h
  · exact claimCall_onBead h
  · exact transition_onBead h
  · obtain ⟨⟨cur, item⟩, -, h⟩ := Option.bind_eq_some_iff.mp h
    dsimp only at h
    split_ifs at h
    obtain rfl := Option.some.inj h
    exact refuseCall_onBead
  · exact transition_onBead h

theorem createCall_onBead {born : LifecycleRecord} {submittedTip : Option String}
    (h : createCall view id born submittedTip req plannedAt = some call) (hid : born.row.beadId = id) :
    OnBead id call := by
  rw [createCall] at h
  split at h
  · obtain rfl := Option.some.inj h
    exact auditedTxn_onBead (gated_onBead (by simp [Op.key, beadKeys]))
  · split at h
    · cases h
    · dsimp only at h
      split_ifs at h
      obtain rfl := Option.some.inj h
      rw [promoteBornCall, hid]
      exact auditedTxn_onBead (gated_onBead (by simp [Op.key, beadKeys]))

theorem planningClosedCall_onBead {attempt : ℕ}
    (h : planningClosedCall view id attempt req = some call) : OnBead id call := by
  obtain ⟨item, -, h⟩ := Option.bind_eq_some_iff.mp h
  dsimp only at h
  split_ifs at h
  obtain rfl := Option.some.inj h
  exact fun key hkey ↦ .inl (by simp_all [Call.writes, Op.key, beadKeys])

theorem setRepoCall_onBead {repo onlyIf : Option String} {attempt : ℕ}
    (h : setRepoCall view id repo onlyIf attempt req = some call) : OnBead id call := by
  obtain ⟨⟨rec, item⟩, -, h⟩ := Option.bind_eq_some_iff.mp h
  dsimp only at h
  split_ifs at h
  obtain rfl := Option.some.inj h
  exact fun key hkey ↦ .inl (by simp_all [Call.writes, Op.key, beadKeys])

/-- An edge is written to the readiness of the bead. -/
theorem setEdgeCall_writes {dep : String} {edge : Edge} {attempt : ℕ}
    (h : setEdgeCall view id dep edge attempt req = some call) :
    Call.writes call = [Keys.readiness id] := by
  rw [setEdgeCall] at h
  dsimp only at h
  split_ifs at h
  split at h
  · cases h
  · split_ifs at h
    obtain rfl := Option.some.inj h
    rfl

theorem setEdgeCall_onBead {dep : String} {edge : Edge} {attempt : ℕ}
    (h : setEdgeCall view id dep edge attempt req = some call) : OnBead id call := by
  intro key hkey
  rw [setEdgeCall_writes h] at hkey
  exact .inl (by simp_all [beadKeys])

theorem delete_onBead : OnBead id (.delete (Keys.lifecycle id) none (partRequest req "delete")) :=
  fun key hkey ↦ .inl (by simp_all [Call.writes, beadKeys])

theorem born_beadId {repo submittedTip : Option String} {at_ : Int} :
    (LifecycleRecord.born id repo submittedTip at_).row.beadId = id := by
  cases submittedTip <;> rfl

end OnBead

/-- **A call is of a round's command, or of one bead, or of neither.** -/
theorem Issued.onBead {floor : ℕ} {w : World Value} {call : Call Value} (h : Issued floor w call) :
    (∃ i : Issue, i.reads.Of w ∧ i.call = some call) ∨ (∃ id, OnBead id call) ∨
      ∀ key ∈ Call.writes call, kept key = false := by
  cases h with
  | round reads h => exact .inl ⟨_, reads, h⟩
  | create reads h => exact .inr (.inl ⟨_, createCall_onBead h born_beadId⟩)
  | createOpen reads h => exact .inr (.inl ⟨_, createCall_onBead h rfl⟩)
  | event reads fence h => exact .inr (.inl ⟨_, eventCall_onBead h⟩)
  | @claimAgain id =>
    exact .inr (.inl ⟨id, fun key hkey ↦ .inl (by simp_all [claimAgainCall, Call.writes, Op.key, beadKeys])⟩)
  | @renewLock id =>
    exact .inr (.inl ⟨id, fun key hkey ↦ .inl (by
      simp_all [renewLockCall, Call.writes, Fence.key, beadKeys, Keys.claimLock])⟩)
  | @release view id f req reads h =>
    refine .inr (.inl ⟨id, fun key hkey ↦ .inl ?_⟩)
    obtain ⟨l, -, rfl⟩ := Option.map_eq_some_iff.mp h
    simp_all [Call.writes, Fence.key, beadKeys, Keys.claimLock]
  | planningClosed reads h => exact .inr (.inl ⟨_, planningClosedCall_onBead h⟩)
  | setRepo reads h => exact .inr (.inl ⟨_, setRepoCall_onBead h⟩)
  | setEdge reads h => exact .inr (.inl ⟨_, setEdgeCall_onBead h⟩)
  | delete => exact .inr (.inl ⟨_, delete_onBead⟩)
  | other h => exact .inr (.inr h)

/-- A branch that is taken writes what its call may write. -/
theorem Chosen.writes {snap : View} {J : String → Bool → Prop} {ok : Bool} {ops : List (Op Value)}
    {c : Call Value} (h : Chosen snap J ok ops c) : ∀ o ∈ ops, o.key ∈ Call.writes c := by
  intro o ho
  cases c with
  | txn t req =>
    rw [h.1] at ho
    refine List.mem_map_of_mem (List.mem_append.mpr ?_)
    split at ho
    · exact .inl ho
    · exact .inr ho
  | renew f req =>
    obtain ⟨-, -, i, -, rfl⟩ := h
    simp_all [Call.writes, Op.key]
  | renewFor f ttlMs req =>
    obtain ⟨-, -, rfl, -⟩ := h
    simp_all [Call.writes, Op.key]
  | tick lag => exact h.elim
  | _ =>
    obtain ⟨-, rfl, -⟩ := h
    simp_all [Call.writes, Op.key]

/-! ## Runs -/

/-- Every call of the run is one of the control store's, made on what there was to read. -/
def ControlRun (floor : ℕ) (cfg : Config Value) (fuel : ℕ) (turns : List (Turn Env ℕ (Call Value))) :
    Prop :=
  ∀ pre call post, turns = pre ++ .spawn call :: post → Issued floor (worldAt cfg fuel pre) call

section Run

variable {floor : ℕ} {cfg : Config Value} {fuel : ℕ} {turns : List (Turn Env ℕ (Call Value))}

/-- **A commit for a call is of one the control store has issued**, on what there was up to its
head. -/
theorem ControlRun.issued (h : ControlRun floor cfg fuel turns) {k : Committed Value} {c : Call Value}
    (hk : .committed k ∈ (worldAt cfg fuel turns).trace) (ha : k.author = .call c) :
    ∃ w, Grows w (worldAt cfg fuel turns) ∧ w.store.head ≤ k.head ∧ Issued floor w c := by
  obtain ⟨pre, post, rfl, hle⟩ := runs_spawned turns hk ha
  exact ⟨worldAt cfg fuel pre, grows_append pre _, hle, h pre c post rfl⟩

/-- What was read in a world is of the later ones, at a revision up to its head. -/
theorem View.Of.upTo {view : View} {w w' : World Value} {n : ℕ} (h : View.Of view w) (hg : Grows w w')
    (hn : w.store.head ≤ n) (key : String) : ∃ at_ ≤ n, view key = w'.itemAt at_ key := by
  obtain ⟨at_, hat⟩ := h key
  refine ⟨min at_ w.store.head, (min_le_right _ _).trans hn, ?_⟩
  rw [hg.itemAt_eq _ (min_le_right _ _), itemAt_min, hat]

end Run

/-- A command that plans a cascade and whose call is committed has its cascade committed. -/
theorem commits_of {cfg : Config Value} {fuel : ℕ} {turns : List (Turn Env ℕ (Call Value))}
    {i : Issue} {k : Committed Value} (hr : i.reads.Of (worldAt cfg fuel turns))
    (hplans : i.cascade.toOption.isSome) (hk : k ∈ commits (worldAt cfg fuel turns).trace)
    (hauthor : ∃ call ∈ i.call, k.author = .call call) (hok : k.ok = true) :
    ∃ c, Commits cfg fuel turns i c k := by
  obtain ⟨call, hcall, hauthor⟩ := hauthor
  cases hc : i.cascade with
  | error e => simp [hc, Except.toOption] at hplans
  | ok c =>
    rw [Issue.call, hc] at hcall
    obtain rfl := Option.some.inj hcall
    exact ⟨c, hr, hc, hauthor, mem_commits.mp hk, hok⟩

/-! ## Reading just some items -/

/-- A view that has read these items, and of every other key that it is not there. -/
def View.only (items : List (Item Value)) : View := fun key ↦ items.find? (·.key = key)

/-- What there is of a key before the first revision is nothing, so only the items count. -/
theorem View.only_of {items : List (Item Value)} {w : World Value}
    (h : ∀ i ∈ items, w.itemAt i.modRev.main i.key = some i) : View.Of (View.only items) w := by
  intro key
  rw [View.only]
  cases hf : items.find? (·.key = key) with
  | none => exact ⟨0, itemAt_zero.symm⟩
  | some i =>
    have hkey : i.key = key := by simpa using List.find?_some hf
    exact ⟨i.modRev.main, by rw [← hkey, h i (List.mem_of_find?_eq_some hf)]⟩

/-- A verb that has read these items, of beads with no history. -/
def Reads.only (items : List (Item Value)) : Reads where
  view := View.only items
  before := View.only items
  history _ := []
  branchContainment _ _ := []

/-- Of every record that is read its gate is too, and no earlier. -/
def inOrder (items : List (Item Value)) : Bool :=
  items.all fun i ↦ !starts Keys.lifecyclePrefix i.key ||
    (items.find? (·.key = Keys.gate
      (String.ofList (i.key.toList.drop Keys.lifecyclePrefix.toList.length)))).any
        (i.modRev.main ≤ ·.modRev.main)

theorem Reads.only_of {items : List (Item Value)} {w : World Value}
    (h : ∀ i ∈ items, w.itemAt i.modRev.main i.key = some i) (ho : inOrder items) :
    (Reads.only items).Of w := by
  refine ⟨View.only_of h, View.only_of h, fun id ↦ ?_⟩
  change ∃ m n, m ≤ n ∧ View.only items _ = _ ∧ View.only items _ = _
  cases hf : View.only items (Keys.lifecycle id) with
  | none =>
    obtain ⟨n, hn⟩ := View.only_of h (Keys.gate id)
    exact ⟨0, n, Nat.zero_le n, itemAt_zero.symm, hn⟩
  | some i =>
    have hmem := List.mem_of_find?_eq_some hf
    have hkey : i.key = Keys.lifecycle id := by simpa using List.find?_some hf
    have hid : String.ofList (i.key.toList.drop Keys.lifecyclePrefix.toList.length) = id := by
      rw [hkey, Keys.lifecycle, String.toList_append, List.drop_left, String.ofList_toList]
    have hin := List.all_eq_true.mp ho i hmem
    rw [hid, hkey, Keys.starts_lifecycle, Bool.not_true, Bool.false_or, Option.any_eq_true] at hin
    obtain ⟨j, hj, hle⟩ := hin
    have hgate : j.key = Keys.gate id := by simpa using List.find?_some hj
    refine ⟨i.modRev.main, j.modRev.main, by simpa using hle, ?_, ?_⟩
    · rw [← hkey, h i hmem]
    · rw [View.only, hj, ← hgate, h j (List.mem_of_find?_eq_some hj)]

/-- What is of a revision a world has come to, its growth has left there. -/
theorem Reads.only_of_grows {items l : List (Item Value)} {w w' : World Value}
    (h : ∀ i ∈ items, w'.itemAt i.modRev.main i.key = some i) (hg : Grows w w') (hl : l ⊆ items)
    (hle : ∀ i ∈ l, i.modRev.main ≤ w.store.head) (ho : inOrder l) : (Reads.only l).Of w :=
  Reads.only_of (fun i hi ↦ (hg.itemAt_eq _ (hle i hi) _).symm.trans (h i (hl hi))) ho

/-! ## Runs written out -/

/-- An item as a run leaves it: under its key, at the revisions of its last write and its first. -/
def written (key : String) (metadata : Meta) (v : Value) (modRev createRev : Rev) : Item Value :=
  ⟨key, ⟨metadata, .payload v⟩, modRev, createRev⟩

def recordItem (r : LifecycleRecord) (modRev createRev : Rev) : Item Value :=
  written (Keys.lifecycle r.row.beadId) { finalizers := [Keys.planningClosed] } (.lifecycle r) modRev
    createRev

def gateItem (r : LifecycleRecord) (modRev createRev : Rev) : Item Value :=
  written (Keys.gate r.row.beadId) { ownerReferences := [Keys.lifecycle r.row.beadId] } (.gate r.gate)
    modRev createRev

def deliveryItem (row : DeliveryRow) (entered : Entered) (modRev createRev : Rev) : Item Value :=
  written (Keys.delivery row.beadId) { ownerReferences := [Keys.lifecycle row.beadId] }
    (.delivery row (some entered)) modRev createRev

def roundItem (rec : BatchRecord) (modRev createRev : Rev) : Item Value :=
  written (Keys.batch rec.row.repo rec.row.batchId) {} (.batch rec) modRev createRev

def indexItem (rec : BatchRecord) (rev : Rev) : Item Value :=
  written (Keys.batchIndex rec.row.batchId)
    { ownerReferences := [Keys.batch rec.row.repo rec.row.batchId] } (.batchIndex rec.row.repo) rev rev

/-- A command of an operator, on the items it has read, of beads with such histories. -/
def issue (command : Command) (part : String) (items : List (Item Value)) (history : List Audit)
    (req : String) (plannedAt : ℕ) : Issue where
  command := command
  reads := { Reads.only items with history := fun _ ↦ history }
  fields := none
  req := ⟨req, "op", "k", none⟩
  part := part
  plannedAt := plannedAt

theorem issue_reads {command : Command} {part req : String} {items : List (Item Value)}
    {history : List Audit} {plannedAt : ℕ} {w : World Value} (h : (Reads.only items).Of w) :
    (issue command part items history req plannedAt).reads.Of w :=
  ⟨h.view, h.before, h.gates⟩

/-- A clock that no deadline is passed on. -/
def stillConfig : Config Value := ⟨1000, fun _ ↦ 0⟩

/-- Each call made by a caller of its own, who takes so many turns before the next is made. -/
def oneByOne (calls : List (Option (Call Value) × ℕ)) : List (Turn Env ℕ (Call Value)) :=
  calls.zipIdx.flatMap fun p ↦ p.1.1.toList.map .spawn ++ List.replicate p.1.2 (.turn p.2)

theorem spawned_oneByOne (calls : List (Option (Call Value) × ℕ)) :
    (oneByOne calls).filterMap Turn.spawned? = calls.filterMap (·.1) := by
  have hgo (n : ℕ) : ((calls.zipIdx n).flatMap fun p ↦ p.1.1.toList.map .spawn ++
      List.replicate p.1.2 (.turn p.2)).filterMap (Turn.spawned? (E := Env) (D := ℕ)) =
        calls.filterMap (·.1) := by
    induction calls generalizing n with
    | nil => rfl
    | cons p calls ih =>
      have hturns : (List.replicate p.2 (Turn.turn n)).filterMap
          (Turn.spawned? (E := Env) (D := ℕ) (C := Call Value)) = [] := by
        rw [List.filterMap_eq_nil_iff]
        intro m hm
        rw [List.eq_of_mem_replicate hm]
        rfl
      rw [List.zipIdx_cons, List.flatMap_cons, List.filterMap_append, List.filterMap_append, hturns,
        List.append_nil, ih]
      obtain ⟨_ | call, m⟩ := p <;> rfl
  exact hgo 0

/-- **Calls made one by one are those of a run**, where each is made at its place and is one that is
issued on what there is then. -/
theorem controlRun_oneByOne {floor : ℕ} {cfg : Config Value} {fuel : ℕ}
    {calls : List (Option (Call Value) × ℕ)}
    (hheads : (Pool.started World.env World.reopen (call cfg fuel) ⟨World.init Value, []⟩
      (oneByOne calls)).map (·.2.store.head) = List.range calls.length)
    (hissued : ∀ j p, calls[j]? = some p → ∀ call w, p.1 = some call →
      Grows w (worldAt cfg fuel (oneByOne calls)) → w.store.head = j → Issued floor w call) :
    ControlRun floor cfg fuel (oneByOne calls) := by
  intro pre call post hturns
  set made := Pool.started World.env World.reopen (Contract.call cfg fuel) ⟨World.init Value, []⟩
    (oneByOne calls) with hmade
  have hmem : (call, worldAt cfg fuel pre) ∈ made := by
    rw [hmade, hturns]
    exact Pool.mem_started
  obtain ⟨n, hn⟩ := List.mem_iff_getElem?.mp hmem
  -- It is made at the head of its place,
  have hhead : (List.range calls.length)[n]? = some (worldAt cfg fuel pre).store.head := by
    rw [← hheads, List.getElem?_map, hn]
    rfl
  obtain ⟨hlt, hrange⟩ := List.getElem?_eq_some_iff.mp hhead
  -- and is the call that is there, as no place is empty.
  have hcalls : made.map (·.1) = calls.filterMap (·.1) :=
    (Pool.started_fst _ _).trans (spawned_oneByOne calls)
  have hlength : (calls.filterMap (·.1)).length = calls.length := by
    rw [← hcalls, List.length_map, ← List.length_map (f := (·.2.store.head)), hheads,
      List.length_range]
  have hsome : (calls.filterMap (·.1)).map some = calls.map (·.1) := by
    rw [List.map_filterMap, ← List.filterMap_eq_map]
    refine List.filterMap_congr fun p hp ↦ ?_
    obtain ⟨c, hc⟩ := Option.isSome_iff_exists.mp (List.filterMap_length_eq_length.mp hlength p hp)
    simp [hc]
  have hplace : (calls.map (·.1))[n]? = some (some call) := by
    rw [← hsome, ← hcalls, List.getElem?_map, List.getElem?_map, hn]
    rfl
  rw [List.getElem?_map] at hplace
  obtain ⟨p, hp, hcall⟩ := Option.map_eq_some_iff.mp hplace
  refine hissued n p hp call _ hcall ?_ ?_
  · rw [hturns]
    exact grows_append pre _
  · rw [← hrange, List.getElem_range]

end Spira.Control
