import Spira.Batcher.Order

/-!
# Combining the merges

`combine` sets aside what is sequenced behind a prerequisite, what conflicted and what brought
nothing of its own, and puts the rest in merge order.  The sequencing looks at a member's own
stack, before any of that: `combine_respects` says when nothing that is merged lacks a
prerequisite.
-/

set_option autoImplicit false

namespace Spira.Batcher

inductive MergeResult
  | ok
  | conflict
  /-- The member's tip was in the round before it was merged. -/
  | empty
  deriving DecidableEq, Repr

inductive SetAsideReason
  | conflict (deletedSuites : List String)
  /-- It conflicts with a sibling admitted earlier in this round. -/
  | siblingConflict (lostTo : Id) (files : List String)
  | testAheadOfCode (waitsOn : Id)
  | dependency (waitsOn : Id)
  /-- Nothing of its own reaches the tree. -/
  | empty
  deriving DecidableEq, Repr

structure SetAside where
  id : Id
  reason : SetAsideReason
  deriving DecidableEq, Repr

structure CombineInput where
  pool : List Member
  merges : Id → Option MergeResult
  /-- Suites deleted since each member was certified. -/
  deletedSuites : Id → Option (List String)
  /-- A later entry of an id stands for the id. -/
  sequenced : List (Id × Id)
  /-- Of a conflicting member the sibling it lost to, and the files. -/
  siblings : Id → Option (Id × List String)

structure Combined where
  merged : List Member
  setAside : List SetAside

/-- Some member is stacked on it. -/
def stackedInto (pool : List Member) (id : Id) : Bool := pool.any (id ∈ ·.stack.map Prod.fst)

/-- What becomes of a member: it is merged, or set aside for a reason. -/
def placeMember (input : CombineInput) (m : Member) : Option SetAsideReason :=
  match input.sequenced.reverse.find? (·.1 = m.id) with
  | some dep => some (.dependency dep.2)
  | none =>
    match input.merges m.id with
    | some .ok => none
    | some .empty => if stackedInto input.pool m.id then none else some .empty
    | _ =>
      match input.siblings m.id with
      | some (lostTo, files) => some (.siblingConflict lostTo files)
      | none => some (.conflict ((input.deletedSuites m.id).getD []))

def combine (input : CombineInput) : Combined :=
  { merged := topoOrder (input.pool.filter fun m ↦ (placeMember input m).isNone)
    setAside := input.pool.filterMap fun m ↦ (placeMember input m).map fun why ↦ ⟨m.id, why⟩ }

/-! ## What a round has to respect -/

/-- Each prerequisite of the member is merged, and those it is stacked on at the tips it was built
on. -/
def Supplied (merged : List Member) (m : Member) : Prop :=
  (∀ p ∈ m.stack, ∃ q ∈ merged, q.id = p.1 ∧ q.tip = p.2) ∧
    ∀ p ∈ m.blockedBy, ∃ q ∈ merged, q.id = p

/-- A round that respects what its members are stacked on and depend on. -/
structure Respects (pool : List Member) (c : Combined) : Prop where
  /-- Each member is merged or set aside. -/
  parted : ∃ goes : Member → Bool, c.merged.Perm (pool.filter goes) ∧
    c.setAside.map (·.id) = (pool.filter (!goes ·)).map (·.id)
  after : Acyclic c.merged → ∀ pre m post, c.merged = pre ++ m :: post → After c.merged pre m
  choice : ∀ pre m post, c.merged = pre ++ m :: post → ∀ m' ∈ post, After c.merged pre m' →
    orderKey m < orderKey m' ∨ orderKey m = orderKey m' ∧ [m, m'].Sublist pool
  /-- So too what a prerequisite needs is merged, and so on. -/
  supplied : ∀ m ∈ c.merged, Supplied c.merged m

/-- Nothing of the member is stale, and its merge is one to keep. -/
def Clean (pool : List Member) (merges : Id → Option MergeResult) (id : Id) : Prop :=
  id ∉ (stackSequencing pool).map Prod.fst ∧
    (merges id = some .ok ∨ merges id = some .empty ∧ stackedInto pool id = true)

section

variable {pool : List Member} {merges : Id → Option MergeResult}
  {deletedSuites : Id → Option (List String)} {siblings : Id → Option (Id × List String)}
  {m : Member}

theorem placeMember_none : (placeMember ⟨pool, merges, deletedSuites, stackSequencing pool, siblings⟩
    m).isNone = true ↔ Clean pool merges m.id := by
  rw [placeMember, Clean]
  dsimp only
  cases hfind : (stackSequencing pool).reverse.find? (·.1 = m.id) with
  | some dep =>
    have hmem : m.id ∈ (stackSequencing pool).map Prod.fst :=
      List.mem_map.mpr ⟨dep, List.mem_reverse.mp (List.mem_of_find?_eq_some hfind), by
        simpa using List.find?_some hfind⟩
    exact iff_of_false Bool.false_ne_true fun h ↦ h.1 hmem
  | none =>
    have hfresh : m.id ∉ (stackSequencing pool).map Prod.fst := by
      intro hmem
      obtain ⟨dep, hdep, heq⟩ := List.mem_map.mp hmem
      have hnot := List.find?_eq_none.mp hfind dep (List.mem_reverse.mpr hdep)
      exact hnot (decide_eq_true heq)
    rw [and_iff_right hfresh]
    cases hmerge : merges m.id with
    | none => cases siblings m.id <;> simp
    | some r =>
      cases r with
      | ok => simp
      | conflict => cases siblings m.id <;> simp
      | empty => cases stackedInto pool m.id <;> simp

theorem mem_merged : m ∈ (combine ⟨pool, merges, deletedSuites, stackSequencing pool, siblings⟩).merged ↔
    m ∈ pool ∧ Clean pool merges m.id := by
  rw [combine, topoOrder_perm.mem_iff, List.mem_filter, placeMember_none]

/-- Of a member that is not sequenced each prerequisite is in the pool, at the tip it was built
on. -/
theorem stack_of_fresh (hm : m ∈ pool) (hfresh : m.id ∉ (stackSequencing pool).map Prod.fst)
    {p : Id × String} (hp : p ∈ m.stack) : ∃ q ∈ pool, q.id = p.1 ∧ q.tip = p.2 := by
  have hcurrent : current pool p = true := by
    by_contra hstale
    obtain ⟨first, hfirst⟩ := Option.isSome_iff_exists.mp
      (List.find?_isSome.mpr ⟨p, hp, by simpa using hstale⟩ :
        (m.stack.find? (!current pool ·)).isSome)
    refine hfresh (List.mem_map.mpr ⟨(m.id, first.1), List.mem_filterMap.mpr ⟨m, hm, ?_⟩, rfl⟩)
    rw [hfirst]
    rfl
  obtain ⟨q, hq, htip⟩ := (Option.any_eq_true _ _).mp hcurrent
  exact ⟨q, List.mem_reverse.mp (List.mem_of_find?_eq_some hq), by simpa using List.find?_some hq,
    by simpa using htip⟩

theorem setAside_ids (input : CombineInput) : (combine input).setAside.map (·.id) =
    (input.pool.filter fun m ↦ !(placeMember input m).isNone).map (·.id) := by
  rw [combine]
  dsimp only
  induction input.pool with
  | nil => rfl
  | cons m pool ih =>
    rw [List.filterMap_cons, List.filter_cons]
    cases placeMember input m with
    | none => exact ih
    | some why => exact congrArg (m.id :: ·) ih

/-- **A round respects its stacking** just where nothing that goes in is stacked on a member that is
stale or in conflict, or depends on one that stays out. -/
theorem combine_respects (pool : List Member) (merges : Id → Option MergeResult)
    (deletedSuites : Id → Option (List String)) (siblings : Id → Option (Id × List String)) :
    Respects pool (combine ⟨pool, merges, deletedSuites, stackSequencing pool, siblings⟩) ↔
      ∀ m ∈ pool, Clean pool merges m.id →
        (∀ p ∈ m.stack, p.1 ∉ (stackSequencing pool).map Prod.fst ∧
          (merges p.1 = some .ok ∨ merges p.1 = some .empty)) ∧
        ∀ p ∈ m.blockedBy, p ∈ pool.map (·.id) ∧ Clean pool merges p := by
  constructor
  · intro h m hm hclean
    obtain ⟨hstack, hblocked⟩ := h.supplied m (mem_merged.mpr ⟨hm, hclean⟩)
    refine ⟨fun p hp ↦ ?_, fun p hp ↦ ?_⟩
    · obtain ⟨q, hq, hid, -⟩ := hstack p hp
      obtain ⟨-, hfresh, hmerge⟩ := mem_merged.mp hq
      rw [hid] at hfresh hmerge
      exact ⟨hfresh, hmerge.imp_right And.left⟩
    · obtain ⟨q, hq, rfl⟩ := hblocked p hp
      obtain ⟨hpool, hclean⟩ := mem_merged.mp hq
      exact ⟨List.mem_map_of_mem hpool, hclean⟩
  · intro h
    refine ⟨⟨_, topoOrder_perm, ?_⟩, fun hacyclic pre m post hsplit ↦ ?_,
      fun pre m post hsplit m' hm' hafter ↦ ?_, fun m hm ↦ ?_⟩
    · exact setAside_ids _
    · rw [combine, acyclic_congr topoOrder_perm] at hacyclic
      exact (after_congr topoOrder_perm).mpr (topoOrder_after (hacyclic.unlooped _) hsplit)
    · exact (topoOrder_choice hsplit hm' ((after_congr topoOrder_perm).mp hafter)).imp_right
        fun ⟨heq, hsub⟩ ↦ ⟨heq, hsub.trans List.filter_sublist⟩
    · obtain ⟨hpool, hclean⟩ := mem_merged.mp hm
      obtain ⟨hstack, hblocked⟩ := h m hpool hclean
      refine ⟨fun p hp ↦ ?_, fun p hp ↦ ?_⟩
      · obtain ⟨q, hq, hid, htip⟩ := stack_of_fresh hpool hclean.1 hp
        obtain ⟨hfresh, hmerge⟩ := hstack p hp
        refine ⟨q, mem_merged.mpr ⟨hq, hid ▸ hfresh, ?_⟩, hid, htip⟩
        rw [hid]
        refine hmerge.imp_right fun hempty ↦ ⟨hempty, List.any_eq_true.mpr ⟨m, hpool, ?_⟩⟩
        exact decide_eq_true (List.mem_map_of_mem hp)
      · obtain ⟨hin, hclean'⟩ := hblocked p hp
        obtain ⟨q, hq, rfl⟩ := List.mem_map.mp hin
        exact ⟨q, mem_merged.mpr ⟨hq, hclean'⟩, rfl⟩

end

/-- A prerequisite that has moved on, a member stacked on its old tip, and one stacked on that. -/
def staleChain : List Member :=
  [⟨"a", "a1", none, false, false, 0, [], []⟩, ⟨"b", "b0", none, false, false, 1, [("a", "a0")], []⟩,
    ⟨"c", "c0", none, false, false, 2, [("b", "b0")], []⟩]

/-- What is stacked on a stale member is merged without it. -/
theorem stale_chain_merged :
    let c := combine
      ⟨staleChain, fun _ ↦ some .ok, fun _ ↦ none, stackSequencing staleChain, fun _ ↦ none⟩
    c.merged.map (·.id) = ["a", "c"] ∧ c.setAside = [⟨"b", .dependency "a"⟩] ∧
      ¬ Respects staleChain c := by
  intro c
  have hmerged : c.merged.map (·.id) = ["a", "c"] := by decide
  refine ⟨hmerged, by decide, fun h ↦ ?_⟩
  have hc : ⟨"c", "c0", none, false, false, 2, [("b", "b0")], []⟩ ∈ c.merged := by decide
  obtain ⟨q, hq, hid, -⟩ := (h.supplied _ hc).1 ("b", "b0") List.mem_cons_self
  have hb : "b" ∈ c.merged.map (·.id) := List.mem_map.mpr ⟨q, hq, hid⟩
  rw [hmerged] at hb
  exact absurd hb (by decide)

end Spira.Batcher
