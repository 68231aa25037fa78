import Spira.Batcher.Rounds
import Spira.Control.Fits

/-!
# The round that the planner selects

The pool less what was dropped is admitted in passes, with what rides the stack satisfied, until a
pass refuses no more; what is left is put in order, and the round of it is truncated at what a cut
of the controller's own would hold, `maxMembers`.  So a round is as long as the members that go
together are many, up to that (`length_select`).  A cut of the store holds fewer: the planner's
rounds fit it just when no more members go than `maxCutMembers`, where every cascade of such a
round fits (`selected_fits`).
-/

set_option autoImplicit false

namespace Spira.Controller

open Batcher (InRound current refuseBlocked selectRound shouldCut stackSequencing topoOrder
  topoOrder_perm)
open Control (Cut Fits Issue Reads cascade_fits maxCutMembers planCut)
open Settle (settle settle_keeps settle_settled)
open Store (Call)

/-! ## The limits -/

/-- The keys a cut adds beside two of each member: the round, its lease and the slot's record. -/
def cutFixedOps : ℕ := 3

/-- The compares of a cut beside one of each member: that there is no round, and the slot's fence.
-/
def cutFixedCompares : ℕ := 2

/-- The contract's own keys in a transaction. -/
def txnBookkeeping : ℕ := 2

def maxMembers : ℕ :=
  min ((Store.maxTxnOps - cutFixedOps - txnBookkeeping) / 2)
    (Store.maxTxnCompares - cutFixedCompares)

example : maxMembers = 61 := by decide

/-! ## The selection -/

/-- The members that a round may be cut of: the records of a repo that are in no live round, each of
its own id. -/
structure Pool where
  members : List Batcher.Member
  nodup : (members.map (·.id)).Nodup

/-- The pool less what is dropped, with what rides the stack satisfied: a prerequisite that rides
it, at the tip that the member was built on where it is stacked. -/
def candidates (pool : Pool) (dropped : List String) (riding : List (String × String)) :
    List Batcher.Member :=
  (pool.members.filter (·.id ∉ dropped)).map fun m ↦
    { m with
      blockedBy := m.blockedBy.filter fun b ↦ b ∉ riding.map Prod.fst
      stack := m.stack.filter fun p ↦ riding.lookup p.1 ≠ some p.2 }

/-- One pass of the admission. -/
def admitOnce (cands : List Batcher.Member) : List Batcher.Member :=
  let ok := (refuseBlocked cands).1
  let waiting := stackSequencing ok
  ok.filter fun m ↦ m.id ∉ waiting.map Prod.fst

/-- Passes until one refuses no more. -/
def admitted (cands : List Batcher.Member) : List Batcher.Member :=
  settle List.length admitOnce (cands.length + 1) cands

def select (pool : Pool) (dropped : List String) (riding : List (String × String)) :
    List (String × String) :=
  let ordered := topoOrder (admitted (candidates pool dropped riding))
  match shouldCut ⟨ordered, false, false⟩ with
  | none => []
  | some _ => ((selectRound ordered).1.take maxMembers).map fun m ↦ (m.id, m.tip)

/-! ## What is admitted -/

/-- The members are candidates that depend on nothing unlanded, each with its prerequisites among
them at the tips that it was built on. -/
def Supported (cands : List Batcher.Member) (members : Set Batcher.Member) : Prop :=
  ∀ m ∈ members, m ∈ cands ∧ m.blockedBy = [] ∧
    ∀ p ∈ m.stack, ∃ q ∈ members, q.id = p.1 ∧ q.tip = p.2

/-- The members that can go together. -/
def Admissible (cands : List Batcher.Member) : Set Batcher.Member :=
  {m | ∃ members, Supported cands members ∧ m ∈ members}

section Admission

variable {cands : List Batcher.Member} {m : Batcher.Member}

theorem mem_refuseBlocked : m ∈ (refuseBlocked cands).1 ↔ m ∈ cands ∧ m.blockedBy = [] := by
  rw [refuseBlocked, List.mem_filter, List.isEmpty_iff]

theorem mem_admitOnce (hnodup : (cands.map (·.id)).Nodup) :
    m ∈ admitOnce cands ↔ (m ∈ cands ∧ m.blockedBy = []) ∧
      ∀ p ∈ m.stack, ∃ q ∈ cands, q.blockedBy = [] ∧ q.id = p.1 ∧ q.tip = p.2 := by
  have hok : ((refuseBlocked cands).1.map (·.id)).Nodup :=
    hnodup.sublist (List.filter_sublist.map _)
  rw [admitOnce, List.mem_filter, mem_refuseBlocked, decide_eq_true_eq]
  refine and_congr_right fun hm ↦ ?_
  rw [Batcher.mem_stackSequencing hok (mem_refuseBlocked.mpr hm)]
  constructor
  · intro hwaits p hp
    have hcurrent : current (refuseBlocked cands).1 p = true := by
      rw [← Bool.not_eq_false]
      exact fun hstale ↦ hwaits ⟨p, hp, hstale⟩
    obtain ⟨q, hq, hid, htip⟩ := (Batcher.current_iff hok).mp hcurrent
    obtain ⟨hq, hfree⟩ := mem_refuseBlocked.mp hq
    exact ⟨q, hq, hfree, hid, htip⟩
  · rintro hall ⟨p, hp, hstale⟩
    obtain ⟨q, hq, hfree, hid, htip⟩ := hall p hp
    have hcurrent := (Batcher.current_iff hok).mpr ⟨q, mem_refuseBlocked.mpr ⟨hq, hfree⟩, hid, htip⟩
    rw [hstale] at hcurrent
    cases hcurrent

theorem admitOnce_sublist : List.Sublist (admitOnce cands) cands :=
  List.filter_sublist.trans List.filter_sublist

theorem admitted_sublist : List.Sublist (admitted cands) cands :=
  settle_keeps (I := (List.Sublist · cands)) (fun _ h ↦ admitOnce_sublist.trans h) _ (List.Sublist.refl _)

/-- The admission refuses none of those that go together. -/
theorem Supported.admitOnce {l : List Batcher.Member} {members : Set Batcher.Member}
    (hnodup : (l.map (·.id)).Nodup) (h : Supported cands members) (hl : ∀ m ∈ members, m ∈ l) :
    ∀ m ∈ members, m ∈ admitOnce l := by
  intro m hm
  obtain ⟨-, hfree, hstack⟩ := h m hm
  refine (mem_admitOnce hnodup).mpr ⟨⟨hl m hm, hfree⟩, fun p hp ↦ ?_⟩
  obtain ⟨q, hq, hid, htip⟩ := hstack p hp
  exact ⟨q, hl q hq, (h q hq).2.1, hid, htip⟩

/-- **The passes leave the members that can go together.** -/
theorem mem_admitted (hnodup : (cands.map (·.id)).Nodup) :
    m ∈ admitted cands ↔ m ∈ Admissible cands := by
  have hpass : ∀ l : List Batcher.Member, (List.Sublist l cands ∧
      ∀ members, Supported cands members → ∀ m ∈ members, m ∈ l) →
        List.Sublist (admitOnce l) cands ∧
          ∀ members, Supported cands members → ∀ m ∈ members, m ∈ admitOnce l := by
    rintro l ⟨hsub, hkept⟩
    have hl := hnodup.sublist (hsub.map (·.id))
    exact ⟨admitOnce_sublist.trans hsub, fun members h ↦ h.admitOnce hl (hkept members h)⟩
  have hshrinks (l : List Batcher.Member) (_ : List.Sublist l cands ∧
      ∀ members, Supported cands members → ∀ m ∈ members, m ∈ l)
      (hne : (admitOnce l).length ≠ l.length) : (admitOnce l).length < l.length :=
    lt_of_le_of_ne admitOnce_sublist.length_le hne
  obtain ⟨l, ⟨hsub, hkept⟩, hsize, hsettle⟩ := settle_settled hpass List.length hshrinks
    (n := cands.length + 1) ⟨List.Sublist.refl _, fun _ h m hm ↦ (h m hm).1⟩ (Nat.lt_succ_self _)
  have hfixed : admitOnce l = l := admitOnce_sublist.eq_of_length hsize
  rw [admitted, hsettle, hfixed]
  constructor
  · intro hm
    refine ⟨{m | m ∈ l}, fun m hm ↦ ?_, hm⟩
    have hadmit : m ∈ admitOnce l := hfixed.symm ▸ hm
    obtain ⟨⟨-, hfree⟩, hstack⟩ := (mem_admitOnce (hnodup.sublist (hsub.map (·.id)))).mp hadmit
    refine ⟨hsub.subset hm, hfree, fun p hp ↦ ?_⟩
    obtain ⟨q, hq, -, hid, htip⟩ := hstack p hp
    exact ⟨q, hq, hid, htip⟩
  · rintro ⟨members, h, hm⟩
    exact hkept members h m hm

end Admission

/-! ## The size of a round -/

section Size

variable {pool : Pool} {dropped : List String} {riding : List (String × String)}

/-- The members of the round that the admissible ones make. -/
def Going (pool : Pool) (dropped : List String) (riding : List (String × String)) :
    Set Batcher.Member :=
  {m | InRound (Admissible (candidates pool dropped riding)) m}

theorem nodup_candidates : ((candidates pool dropped riding).map (·.id)).Nodup := by
  rw [candidates, List.map_map]
  exact pool.nodup.sublist (List.filter_sublist.map _)

/-- **A selected round has the members that go, as many as the controller's own cut holds.** -/
theorem length_select :
    (select pool dropped riding).length = min maxMembers (Going pool dropped riding).ncard := by
  have hcands : ((candidates pool dropped riding).map (·.id)).Nodup := nodup_candidates
  have hnodup := topoOrder_perm.nodup_iff.mpr (admitted_sublist.nodup (List.Nodup.of_map _ hcands))
  have hset : {m | m ∈ topoOrder (admitted (candidates pool dropped riding))} =
      Admissible (candidates pool dropped riding) := by
    ext m
    exact topoOrder_perm.mem_iff.trans (mem_admitted hcands)
  have hgoing : (selectRound (topoOrder (admitted (candidates pool dropped riding)))).1.length =
      (Going pool dropped riding).ncard := by
    rw [Batcher.length_selectRound hnodup, hset]
    rfl
  rw [select]
  split
  · rename_i hnone
    rw [Batcher.shouldCut_eq_none.mp hnone] at hgoing
    rw [← hgoing]
    rfl
  · rw [List.length_map, List.length_take, hgoing]

theorem length_select_le :
    (select pool dropped riding).length ≤ maxCutMembers ↔
      (Going pool dropped riding).ncard ≤ maxCutMembers := by
  have hlimits : maxMembers = 61 ∧ maxCutMembers = 30 := by decide
  rw [length_select, min_le_iff, hlimits.1, hlimits.2]
  omega

/-- No more members go than there are. -/
theorem ncard_going_le : (Going pool dropped riding).ncard ≤ pool.members.length := by
  have hsub : Going pool dropped riding ⊆
      (candidates pool dropped riding).toFinset := fun m hm ↦ by
    obtain ⟨members, h, hmem⟩ := hm.1
    exact Finset.mem_coe.mpr (List.mem_toFinset.mpr (h m hmem).1)
  refine (Set.ncard_le_ncard hsub (Finset.finite_toSet _)).trans ?_
  rw [Set.ncard_coe_finset]
  refine (List.toFinset_card_le _).trans ?_
  rw [candidates, List.length_map]
  exact List.length_filter_le _ _

end Size

/-! ## What fits -/

/-- **A cascade of a full round fits, whatever it does; a round that is selected fits just when no
more members go than a cut may hold.** -/
theorem selected_fits (pool : Pool) (dropped : List String) (riding : List (String × String)) :
    (∀ (i : Issue) (call : Call Control.Value), i.call = some call →
      (∀ rec, i.command.overRound i.reads = some rec → rec.members.length ≤ maxCutMembers) →
        Fits call) ∧
    ((select pool dropped riding).length ≤ maxCutMembers ↔
      (Going pool dropped riding).ncard ≤ maxCutMembers) :=
  ⟨fun _ _ ↦ cascade_fits, length_select_le⟩

theorem selected_fits_eject :
    (∃ call, Control.Recut.ejectIssue.call = some call ∧ Fits call) ∧
      (select ⟨[⟨"sp-1", "t", none, false, false, 1, [], []⟩], by decide⟩ [] []).length ≤
        maxCutMembers := by
  obtain ⟨call, hcall⟩ := Option.isSome_iff_exists.mp
    (by decide +kernel : Control.Recut.ejectIssue.call.isSome)
  have hfits := selected_fits ⟨[⟨"sp-1", "t", none, false, false, 1, [], []⟩], by decide⟩ [] []
  refine ⟨⟨call, hcall, hfits.1 _ _ hcall fun rec hrec ↦ ?_⟩,
    hfits.2.mpr (ncard_going_le.trans (by decide))⟩
  have hall : ((Control.Recut.ejectIssue.command.overRound Control.Recut.ejectIssue.reads).all
      (·.members.length ≤ maxCutMembers)) = true := by decide +kernel
  rw [hrec] at hall
  simpa using hall

/-! ## Thirty-one members -/

namespace Crowd

/-- A member that stands alone, with an id of `n` letters and one more. -/
def member (n : ℕ) : Batcher.Member :=
  ⟨String.ofList (List.replicate (n + 1) 'a'), "t", none, false, false, n, [], []⟩

theorem nodup_ids : (((List.range 31).map member).map (·.id)).Nodup := by
  rw [List.map_map]
  refine List.nodup_range.map fun n n' h ↦ ?_
  have hlist := congrArg (fun id : String ↦ id.toList.length) h
  simpa [member] using hlist

def pool : Pool := ⟨(List.range 31).map member, nodup_ids⟩

theorem length_select : (select pool [] []).length = 31 := by decide +kernel

end Crowd

/-- The planner selects a round over the cap, and the cut of it is refused. -/
theorem crowd_overfills : ∃ (pool : Pool) (dropped : List String) (riding : List (String × String)),
    maxCutMembers < (select pool dropped riding).length ∧
      ∀ (r : Reads) (cut : Cut), cut.members = select pool dropped riding →
        ∃ text, (planCut r cut).run {} = .error (.turned (.refused text)) := by
  have hover : maxCutMembers < (select Crowd.pool [] []).length := by
    rw [Crowd.length_select]
    decide
  exact ⟨Crowd.pool, [], [], hover, fun r cut h ↦ Control.planCut_overCap (h ▸ hover)⟩

end Spira.Controller
