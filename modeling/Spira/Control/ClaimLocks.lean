import Spira.Control.Gates
import Spira.StateStore.Locks

/-!
# Claims and their locks

A record and its claim lock are two keys.  A claim writes both in one transaction, and nothing
else brings a record into WORKING but a reclassification, which takes no lock: a run keeps to
`ClaimsHeld` exactly where none is committed (`claims_held_iff`).  The lock is afterwards its
holder's, or its TTL's, so what gives back the lock of one claim leaves that of a later one as it
is.
-/

set_option autoImplicit false

namespace Spira.Control

open Spira.Bead Spira.Batch Spira.Delivery Store Store.Contract
open KeyPrefix (starts)

/-- The record of `id` is WORKING. -/
def Working (snap : View) (id : String) : Prop :=
  ∃ rec, recordOf LifecycleRecord snap (Keys.lifecycle id) = some rec ∧ rec.row.state = .working

theorem nextOf_working {ev : BeadEvent} {cur : LifecycleRecord} {rule : String}
    (hk : ev.kind = .reclassify .working rule) (happlied : (Bead.apply cur.row ev).applied = true) :
    cur.row.state ≠ .working ∧ (nextOf ev cur (Bead.apply cur.row ev).row).row.state = .working := by
  obtain ⟨-, mid, hm, hrow⟩ := apply_move happlied
  rw [hk] at hm
  cases hm with
  | reclassify ha hs residue new =>
    refine ⟨hs, ?_⟩
    show (Bead.apply cur.row ev).row.state = .working
    rw [hrow, settled_state]
  | unclaim hk => simp at hk

section Run

variable {floor : ℕ} {cfg : Config Value} {fuel : ℕ} {turns : List (Turn Env ℕ (Call Value))}
  {k : Committed Value} {id : String}

variable (cfg fuel turns) in
/-- The commit wrote a reclassification as WORKING, made on what was read in the run. -/
def Reclassified (k : Committed Value) : Prop :=
  k.ok = true ∧ ∃ id call view, k.author = .call call ∧ View.Of view (worldAt cfg fuel turns) ∧
    Reclassifies view id call

variable (floor cfg fuel turns) in
/-- What claims hold in a run. -/
structure ClaimsHeld : Prop where
  /-- The commit that made a WORKING record so has taken its claim lock. -/
  taken : ∀ n id, Working ((worldAt cfg fuel turns).itemAt n) id →
    ∃ m < n, ¬ Working ((worldAt cfg fuel turns).itemAt m) id ∧
      (∀ j, m < j → j ≤ n → Working ((worldAt cfg fuel turns).itemAt j) id) ∧
      ∃ l, (worldAt cfg fuel turns).itemAt (m + 1) (Keys.claimLock id) = some l ∧
        l.createRev.main = m + 1
  /-- A renewal is recorded only of the holder's own, where the lock its caller found is there under the
  caller's token and was judged live. -/
  renewed : ∀ view live id ev leaseUntil req plannedAt call cur item k,
    eventCall view floor live id ev req plannedAt = some call → ev.kind = .renew leaseUntil →
    recordRead view id = some (cur, item) → (Bead.apply cur.row ev).applied = true →
    .committed k ∈ (worldAt cfg fuel turns).trace → k.author = .call call → k.ok = true →
    cur.row.holder = some ev.actor ∧ ∃ f l, live = some f ∧
      (worldAt cfg fuel turns).itemAt k.head f.key = some l ∧ l.createRev = f.token ∧
      ∃ pre, (worldAt cfg fuel pre).store.head = k.head ∧
        (worldAt cfg fuel pre).Judged k.head f.key true
  /-- A claim lock stays as it is, but for its expiry and the calls made with its token. -/
  left : ∀ k id l, .committed k ∈ (worldAt cfg fuel turns).trace →
    (worldAt cfg fuel turns).itemAt k.head (Keys.claimLock id) = some l →
    (worldAt cfg fuel turns).itemAt (k.head + 1) (Keys.claimLock id) = some l ∨ k.author = .expire ∨
      ∃ c, k.author = .call c ∧ Call.heldBy ⟨Keys.claimResource id, l.createRev⟩ c
  /-- What an event writes of a record is of the record as it was read, so no claim comes between. -/
  fresh : ∀ view live id ev req plannedAt call cur item k,
    eventCall view floor live id ev req plannedAt = some call → recordRead view id = some (cur, item) →
    (Bead.apply cur.row ev).applied = true → View.Of view (worldAt cfg fuel turns) →
    .committed k ∈ (worldAt cfg fuel turns).trace → k.author = .call call → k.ok = true →
    (worldAt cfg fuel turns).itemAt k.head (Keys.lifecycle id) = some item
  /-- A release leaves every claim lock that was taken after the one it gives back was read, at `m`. -/
  released : ∀ k f req m held id l, .committed k ∈ (worldAt cfg fuel turns).trace →
    k.author = .call (.release f req) → (worldAt cfg fuel turns).itemAt m f.key = some held →
    held.createRev = f.token →
    (worldAt cfg fuel turns).itemAt k.head (Keys.claimLock id) = some l → m < l.createRev.main →
    (worldAt cfg fuel turns).itemAt (k.head + 1) (Keys.claimLock id) = some l

/-! ## Taken -/

/-- **A record comes to be WORKING with its claim lock**, where it is not reclassified. -/
theorem ControlRun.takesUp (h : ControlRun floor cfg fuel turns)
    (hk : .committed k ∈ (worldAt cfg fuel turns).trace) (hno : ¬ Reclassified cfg fuel turns k) :
    TakesUp ((worldAt cfg fuel turns).itemAt k.head) ((worldAt cfg fuel turns).itemAt (k.head + 1))
      (k.head + 1) id := by
  rcases h.bead_commit hk fun m _ ↦ mirrors_run h id m with hkept | ⟨-, call, view, ha, hv, hre⟩
  · exact hkept.takesUp
  · -- It is lost, so it writes nothing.
    have hlost : k.ok = false := by
      by_contra hok
      exact hno ⟨by simpa using hok, id, call, view, ha, hv, hre⟩
    obtain ⟨pre, ops, -, hacts, he⟩ := runs_effect turns hk
    obtain ⟨ev, rule, cur, item, req, plannedAt, -, -, -, rfl⟩ := hre
    rw [ha, hlost] at hacts
    have hsame : (worldAt cfg fuel turns).itemAt (k.head + 1) (Keys.lifecycle id) =
        (worldAt cfg fuel turns).itemAt k.head (Keys.lifecycle id) :=
      audited_untouched hacts he apart_lifecycle (by simp)
    intro rec hrec hworking
    rw [recordOf_same hsame] at hrec
    exact .inl ⟨rec, hrec, hworking⟩

/-- One revision further, a WORKING record was so before or its claim lock is taken there. -/
theorem ControlRun.working_next (h : ControlRun floor cfg fuel turns)
    (hno : ∀ k, .committed k ∈ (worldAt cfg fuel turns).trace → ¬ Reclassified cfg fuel turns k)
    {n : ℕ} (hw : Working ((worldAt cfg fuel turns).itemAt (n + 1)) id) :
    Working ((worldAt cfg fuel turns).itemAt n) id ∨
      ∃ l, (worldAt cfg fuel turns).itemAt (n + 1) (Keys.claimLock id) = some l ∧
        l.createRev.main = n + 1 := by
  have hreachable : Reachable (worldAt cfg fuel turns) := (runs_keep turns).1
  by_cases hn : ∃ c, .committed c ∈ (worldAt cfg fuel turns).trace ∧ c.head = n
  · obtain ⟨k, hk, rfl⟩ := hn
    obtain ⟨rec, hrec, hworking⟩ := hw
    exact h.takesUp hk (hno k hk) rec hrec hworking
  · rw [hreachable.itemAt_unused fun c hc hh ↦ hn ⟨c, hc, hh⟩] at hw
    exact .inl hw

/-- **The commit that made a WORKING record so has taken its claim lock.** -/
theorem ControlRun.taken (h : ControlRun floor cfg fuel turns)
    (hno : ∀ k, .committed k ∈ (worldAt cfg fuel turns).trace → ¬ Reclassified cfg fuel turns k)
    {n : ℕ} (hw : Working ((worldAt cfg fuel turns).itemAt n) id) :
    ∃ m < n, ¬ Working ((worldAt cfg fuel turns).itemAt m) id ∧
      (∀ j, m < j → j ≤ n → Working ((worldAt cfg fuel turns).itemAt j) id) ∧
      ∃ l, (worldAt cfg fuel turns).itemAt (m + 1) (Keys.claimLock id) = some l ∧
        l.createRev.main = m + 1 := by
  induction n with
  | zero =>
    obtain ⟨rec, hrec, -⟩ := hw
    rw [recordOf, itemAt_zero] at hrec
    cases hrec
  | succ n ih =>
    by_cases hbefore : Working ((worldAt cfg fuel turns).itemAt n) id
    · obtain ⟨m, hm, hout, hsince, hlock⟩ := ih hbefore
      refine ⟨m, by omega, hout, fun j hj hjn ↦ ?_, hlock⟩
      rcases Nat.le_succ_iff.mp hjn with hjn | rfl
      · exact hsince j hj hjn
      · exact hw
    · refine ⟨n, by omega, hbefore, fun j hj hjn ↦ ?_, ?_⟩
      · obtain rfl : j = n + 1 := by omega
        exact hw
      · exact (h.working_next hno hw).resolve_left hbefore

/-! ## What an event writes -/

section Event

variable {view : View} {live : Option Fence} {ev : BeadEvent} {req : Request Value} {plannedAt : ℕ}
  {call : Call Value} {cur : LifecycleRecord} {item : Item Value}

/-- What an event commits: what it writes is under the compare of its read, and a renewal under a
check of the lock its caller has found. -/
structure Writes (id : String) (item : Item Value) (ev : BeadEvent) (live : Option Fence)
    (t : TxnOps Value) : Prop where
  read : .modRev (Keys.lifecycle id) (some item.modRev) ∈ t.compares
  fenced : ∀ leaseUntil, ev.kind = .renew leaseUntil →
    ∃ f, live = some f ∧ .lockCheck f.key f.token ∈ t.compares

theorem transition_writes {fence : Option Fence}
    (h : transition view id ev fence req plannedAt = some call)
    (hread : recordRead view id = some (cur, item)) (happlied : (Bead.apply cur.row ev).applied = true)
    (hf : ∀ leaseUntil, ev.kind = .renew leaseUntil → fence = live ∧ fence.isSome) :
    ∃ t then_ els, call = auditedTxn t then_ els req "apply" plannedAt ∧ Writes id item ev live t := by
  rw [transition, hread] at h
  obtain rfl := Option.some.inj h
  dsimp only
  rw [happlied, Bool.not_true, if_neg Bool.false_ne_true]
  refine ⟨_, _, _, rfl, gated_compare List.mem_cons_self, fun leaseUntil hk ↦ ?_⟩
  obtain ⟨rfl, hsome⟩ := hf leaseUntil hk
  obtain ⟨f, rfl⟩ := Option.isSome_iff_exists.mp hsome
  exact ⟨f, rfl, gated_compare (by simp)⟩

/-- **What an event writes**, where its machine takes it. -/
theorem eventCall_writes (h : eventCall view floor live id ev req plannedAt = some call)
    (hread : recordRead view id = some (cur, item)) (happlied : (Bead.apply cur.row ev).applied = true) :
    ∃ t then_ els, call = auditedTxn t then_ els req "apply" plannedAt ∧ Writes id item ev live t := by
  rw [eventCall.eq_def] at h
  split at h
  · rename_i hkind
    rw [claimCall] at h
    split at h
    · rw [hread, Option.bind_some] at h
      dsimp only at h
      rw [happlied, Bool.not_true, if_neg Bool.false_ne_true] at h
      split at h
      · cases h
      · split_ifs at h
        obtain rfl := Option.some.inj h
        refine ⟨_, _, _, rfl, gated_compare List.mem_cons_self, fun leaseUntil hk ↦ ?_⟩
        rw [hk] at hkind
        cases hkind
    · cases h
  · exact transition_writes h hread happlied fun _ _ ↦ ⟨rfl, rfl⟩
  · -- With no live lock a renewal that the machine takes writes nothing.
    rw [hread, Option.bind_some] at h
    dsimp only at h
    rw [happlied, Bool.not_true, if_neg Bool.false_ne_true] at h
    cases h
  · rename_i hsome hnone
    refine transition_writes h hread happlied fun leaseUntil hk ↦ ?_
    exact absurd (Option.eq_none_iff_forall_ne_some.mpr fun f hf ↦ hsome leaseUntil f hk hf)
      (hnone leaseUntil hk)

end Event

/-- A lock check that holds is of a lock that was judged live. -/
theorem judged_of_lockCheck {snap : View} {J : String → Bool → Prop} {key : String} {token : Rev}
    (h : Compare.Gives snap J true (.lockCheck key token)) : J key true := by
  have hdead : Compare.holdsIn snap false (.lockCheck key token) ≠ true := by
    rw [Compare.holdsIn]
    cases snap key <;> simp
  rcases h with h | ⟨live, hj, h⟩
  · exact absurd (h false) hdead
  · cases live with
    | true => exact hj
    | false => exact absurd h hdead

/-- What a transaction's branch writes of a bead is what the transaction writes, and its gate. -/
theorem gated_keys {view : View} {t : TxnOps Value} {prev : Option LifecycleRecord}
    {next : LifecycleRecord} {o : Op Value} (ho : o ∈ (gated view t id prev next).ops) :
    o ∈ t.ops ∨ o.key = Keys.gate id := by
  rw [gated] at ho
  split_ifs at ho
  · exact .inl ho
  · rcases List.mem_append.mp ho with ho | ho
    · exact .inl ho
    · rw [List.mem_singleton.mp ho]
      exact .inr rfl

theorem apart_claimLock : Apart (Keys.claimLock id) :=
  apart_of_starts (Keys.starts_claimLock id) (by decide)

/-- A reclassification as WORKING takes a record into it with no lock. -/
theorem ClaimsHeld.not_reclassified (hc : ClaimsHeld floor cfg fuel turns)
    (h : ControlRun floor cfg fuel turns) (hk : .committed k ∈ (worldAt cfg fuel turns).trace) :
    ¬ Reclassified cfg fuel turns k := by
  rintro ⟨hok, id, call, view, ha, hv, ev, rule, cur, item, req, plannedAt, hkind, hread, happlied, rfl⟩
  have hreachable : Reachable (worldAt cfg fuel turns) := (runs_keep turns).1
  obtain ⟨pre, ops, -, hacts, he⟩ := runs_effect turns hk
  rw [ha, hok] at hacts
  have hview (key : String) (hrev : ((worldAt cfg fuel turns).itemAt k.head key).map (·.modRev) =
      (view key).map (·.modRev)) : (worldAt cfg fuel turns).itemAt k.head key = view key := by
    obtain ⟨at_, hat⟩ := hv key
    rw [hat] at hrev ⊢
    exact itemAt_eq_of_modRev hrev
  obtain ⟨hout, hin⟩ := nextOf_working hkind happlied
  have hafter := (writeCall_mirrors (mirrors_run h id k.head) hview hread hacts he).2
  have hbefore := (compared_record hview hread hacts.2 rfl (gated_compare (by simp))).2
  -- It is WORKING from this commit on, so it is this commit that would have taken the lock.
  obtain ⟨m, hm, hnot, hsince, l, hl, hrev⟩ := hc.taken (k.head + 1) id ⟨_, hafter, hin⟩
  obtain rfl : m = k.head := by
    by_contra hne
    obtain ⟨rec, hrec, hworking⟩ := hsince k.head (by omega) (by omega)
    rw [hbefore] at hrec
    obtain rfl := Option.some.inj hrec
    exact hout hworking
  have hlock : (worldAt cfg fuel turns).itemAt (k.head + 1) (Keys.claimLock id) =
      (worldAt cfg fuel turns).itemAt k.head (Keys.claimLock id) := by
    refine audited_untouched hacts he apart_claimLock fun o ho ↦ ?_
    rcases gated_keys ho with ho | ho
    · rw [List.mem_singleton.mp ho]
      exact ne_claimLock ofBeads_lifecycle
    · rw [ho]
      exact ne_claimLock ofBeads_gate
  have hle := hreachable.createRev_le (hlock ▸ hl)
  omega

/-- **Claims hold their locks in exactly the runs that commit no reclassification as WORKING.** -/
theorem claims_held_iff (h : ControlRun floor cfg fuel turns) : ClaimsHeld floor cfg fuel turns ↔
    ∀ k, .committed k ∈ (worldAt cfg fuel turns).trace → ¬ Reclassified cfg fuel turns k := by
  have hreachable : Reachable (worldAt cfg fuel turns) := (runs_keep turns).1
  refine ⟨fun hc k hk ↦ hc.not_reclassified h hk, fun hno ↦ ⟨fun n id hw ↦ h.taken hno hw, ?_, ?_, ?_, ?_⟩⟩
  · intro view live id ev leaseUntil req plannedAt call cur item k hcall hkind hread happlied hk ha hok
    obtain ⟨t, then_, els, rfl, hw⟩ := eventCall_writes hcall hread happlied
    obtain ⟨f, rfl, hcheck⟩ := hw.fenced leaseUntil hkind
    obtain ⟨pre, ops, hhead, hacts, he⟩ := runs_effect turns hk
    rw [ha, hok] at hacts
    have hgives := hacts.2.1 _ hcheck
    obtain ⟨l, hl, htoken⟩ := hgives.token
    refine ⟨?_, f, l, rfl, hl, htoken, pre, hhead, judged_of_lockCheck hgives⟩
    obtain ⟨-, mid, hm, -⟩ := apply_move happlied
    rw [hkind] at hm
    cases hm with
    | renew hs own => exact own
    | unclaim hk => simp at hk
  · intro k id l hk hl
    rcases lock_touched turns hk (Keys.starts_claimLock id) hl with
      hsame | hexpired | ⟨f, c, ha, hc, hkey, htoken⟩
    · exact .inl hsame
    · exact .inr (.inl hexpired)
    · refine .inr (.inr ⟨c, ha, ?_⟩)
      have hf : f = ⟨Keys.claimResource id, l.createRev⟩ := by
        obtain ⟨resource, token⟩ := f
        have hresource : resource = Keys.claimResource id := by
          simpa [Fence.key, lockKey, Keys.claimLock] using hkey
        rw [hresource]
        exact congrArg _ htoken
      exact hf ▸ hc
  · intro view live id ev req plannedAt call cur item k hcall hread happlied hv hk ha hok
    obtain ⟨t, then_, els, rfl, hw⟩ := eventCall_writes hcall hread happlied
    obtain ⟨pre, ops, -, hacts, -⟩ := runs_effect turns hk
    rw [ha, hok] at hacts
    refine (compared_record (fun key hrev ↦ ?_) hread hacts.2 rfl hw.read).1
    obtain ⟨at_, hat⟩ := hv key
    rw [hat] at hrev ⊢
    exact itemAt_eq_of_modRev hrev
  · intro k f req m held id l hk ha hheld htoken hl hm
    rcases lock_touched turns hk (Keys.starts_claimLock id) hl with
      hsame | hexpired | ⟨f', c, ha', hc, -, htoken'⟩
    · exact hsame
    · rw [ha] at hexpired
      cases hexpired
    · -- The lock it gives back was taken before it was read.
      rw [ha] at ha'
      obtain rfl := Author.call.inj ha'
      obtain rfl : f = f' := hc
      have hle := hreachable.createRev_le hheld
      rw [htoken, htoken'] at hle
      omega

end Run

/-! ## A record reclassified as WORKING -/

namespace Classified

/-- The bead `sp-1` is filed READY, and the classifier names it WORKING. -/
def filed : LifecycleRecord := .born "sp-1" none none 6

def reclassify : BeadEvent :=
  ⟨.ready, filed.row.version, .reclassify .working "holder-alive", "classifier", some 8⟩

def items : List (Item Value) := [recordItem filed ⟨1, 0⟩ ⟨1, 0⟩, gateItem filed ⟨1, 1⟩ ⟨1, 1⟩]

def calls : List (Option (Call Value) × ℕ) :=
  [(createCall (View.only []) "sp-1" filed none ⟨"r1", "op", "k", none⟩ 0, 11),
    (eventCall (View.only items) 1000 none "sp-1" reclassify ⟨"r2", "classifier", "k", none⟩ 1, 16)]

def turns : List (Turn Env ℕ (Call Value)) := oneByOne calls

/-- The run, evaluated: the record is WORKING at its last revision, and its claim lock is at none.
-/
theorem world_ends :
    (Pool.started World.env World.reopen (call stillConfig 1) ⟨World.init Value, []⟩
      turns).map (·.2.store.head) = List.range 2 ∧
    (∀ i ∈ items, (worldAt stillConfig 1 turns).itemAt i.modRev.main i.key = some i) ∧
    (recordOf LifecycleRecord ((worldAt stillConfig 1 turns).itemAt 2) (Keys.lifecycle "sp-1")).map
      (·.row.state) = some .working ∧
    ∀ n < 3, ((worldAt stillConfig 1 turns).itemAt n (Keys.claimLock "sp-1")) = none := by
  decide

theorem controlRun : ControlRun 1000 stillConfig 1 turns := by
  refine controlRun_oneByOne world_ends.1 fun j p hp call w hcall hg hhead ↦ ?_
  have hreads {l : List (Item Value)} (hl : l ⊆ items) (hle : ∀ i ∈ l, i.modRev.main ≤ j)
      (ho : inOrder l) : (Reads.only l).Of w :=
    Reads.only_of_grows world_ends.2.1 hg hl (hhead ▸ hle) ho
  match j with
  | 0 =>
    obtain rfl := Option.some.inj hp
    exact .create (hreads (l := []) (by simp) (by simp) rfl).view hcall
  | 1 =>
    obtain rfl := Option.some.inj hp
    have hv : View.Of (View.only items) w :=
      (hreads (l := items) (by simp) (by decide) (by decide)).view
    dsimp only at hcall
    exact .event hv (by rintro f ⟨⟩) hcall
  | n + 2 => cases hp

end Classified

/-- **A record is reclassified as WORKING, and no claim lock is taken.** -/
theorem working_without_lock : ∃ (cfg : Config Value) (fuel : ℕ)
    (turns : List (Turn Env ℕ (Call Value))) (id : String) (n : ℕ),
    ControlRun 1000 cfg fuel turns ∧ Working ((worldAt cfg fuel turns).itemAt n) id ∧
    (∀ m ≤ n, (worldAt cfg fuel turns).itemAt m (Keys.claimLock id) = none) ∧
    ¬ ClaimsHeld 1000 cfg fuel turns := by
  obtain ⟨-, -, hstate, hlocks⟩ := Classified.world_ends
  obtain ⟨rec, hrec, hworking⟩ := Option.map_eq_some_iff.mp hstate
  have hw : Working ((worldAt stillConfig 1 Classified.turns).itemAt 2) "sp-1" := ⟨rec, hrec, hworking⟩
  refine ⟨stillConfig, 1, Classified.turns, "sp-1", 2, Classified.controlRun, hw,
    fun m hm ↦ hlocks m (by omega), fun hc ↦ ?_⟩
  obtain ⟨m, hm, -, -, l, hl, -⟩ := hc.taken 2 "sp-1" hw
  rw [hlocks (m + 1) (by omega)] at hl
  cases hl

/-- Whether a commit is of one applied event, a reclassification as WORKING. -/
def reclassifying (k : Committed Value) : Bool :=
  match k.author with
  | .call (.txn _ req) => match req.evidence with
    | some (.audits [a] _) => match a.event with
      | .bead (.reclassify .working _) => true
      | _ => false
    | _ => false
  | _ => false

theorem Reclassified.reclassifying {cfg : Config Value} {fuel : ℕ}
    {turns : List (Turn Env ℕ (Call Value))} {k : Committed Value}
    (h : Reclassified cfg fuel turns k) : reclassifying k = true := by
  obtain ⟨-, id, call, view, ha, -, ev, rule, cur, item, req, plannedAt, hkind, -, -, rfl⟩ := h
  simp [Control.reclassifying, ha, writeCall, auditedTxn, subRequest, beadAudit, machineAudit, hkind]

theorem waiting_unclassified : ∀ k ∈ commits (worldAt stillConfig 1 Waiting.turns).trace,
    reclassifying k = false := by
  decide +kernel

/-- The claim of a bead that waits on another holds its lock. -/
theorem claims_held_waiting : ClaimsHeld 1000 stillConfig 1 Waiting.turns := by
  refine (claims_held_iff Waiting.controlRun).mpr fun k hk hre ↦ ?_
  have hno := waiting_unclassified k (mem_commits.mpr hk)
  rw [hre.reclassifying] at hno
  cases hno

end Spira.Control
