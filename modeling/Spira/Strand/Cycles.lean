import Mathlib.Data.List.Nodup
import Mathlib.Data.List.Sort
import Mathlib.Data.String.Basic
import Spira.Strand.Progress
import Spira.Strand.Tarjan

/-!
# Rings of beads

Beads that block each other in a ring can never be claimed.  `cycles` has a row for every strongly
connected component of the open beads of the partition that has two or more of them.

A bead is in exactly one row when it lies on such a ring, and in none otherwise
(`cycles_components`).
-/

set_option autoImplicit false

namespace Spira.Strand

open Relation

inductive Disposition
  | act
  | escalate
  | info
  deriving DecidableEq

structure Row where
  kind : String
  id : String
  disp : Disposition
  detail : String
  action : String
  deriving DecidableEq

section Members

variable (members : List Bead)

/-- The places by the ids; of two members with one id, the later. -/
def idx (id : String) : Option ℕ := (members.map Bead.id).zipIdx.reverse.lookup id

def blocksGraph : Graph := members.map fun b ↦ b.blocksTargets.filterMap (idx members)

/-- The ids of each component of two or more. -/
def rings : List (List String) :=
  ((tarjan (blocksGraph members)).filter fun comp ↦ ¬ comp.length < 2).map fun comp ↦
    (comp.filterMap fun i ↦ (members.map Bead.id)[i]?).insertionSort (· ≤ ·)

end Members

def cycleRow (names : List String) : Row where
  kind := "cycle"
  id := names.headD ""
  disp := .escalate
  detail := "dependency cycle, permanently unclaimable: " ++ " -> ".intercalate names
  action := "bd dep remove one edge of the ring"

def cycles (members : List Bead) : List Row := (rings members).map cycleRow

namespace Partition

variable (P : Partition)

def members : List Bead := P.store.beads.filter fun b ↦ !b.isClosed && P.member b

end Partition

/-! ## Rings -/

section Rings

variable (members : List Bead)

def memberOf (id : String) : Option Bead := members.reverse.find? fun b ↦ b.id = id

/-- A member blocks another. -/
def Blocks (x y : String) : Prop :=
  (∃ b, memberOf members x = some b ∧ y ∈ b.blocksTargets) ∧ (memberOf members y).isSome = true

/-- A ring of two or more members goes through it. -/
def OnRing (x : String) : Prop :=
  ∃ y, y ≠ x ∧ ReflTransGen (Blocks members) x y ∧ ReflTransGen (Blocks members) y x

variable {members} {x y : String} {b : Bead} {i j : ℕ}

theorem getElem?_of_idx (h : idx members x = some i) : (members.map Bead.id)[i]? = some x := by
  obtain ⟨l₁, l₂, hsplit, -⟩ := List.lookup_eq_some_iff.mp h
  have hmem : (x, i) ∈ (members.map Bead.id).zipIdx.reverse :=
    hsplit ▸ List.mem_append_right l₁ List.mem_cons_self
  exact List.mk_mem_zipIdx_iff_getElem?.mp (List.mem_reverse.mp hmem)

theorem lt_of_idx (h : idx members x = some i) : i < members.length := by
  obtain ⟨hlt, -⟩ := List.getElem?_eq_some_iff.mp (getElem?_of_idx h)
  rwa [List.length_map] at hlt

theorem idx_inj (hx : idx members x = some i) (hy : idx members y = some i) : x = y :=
  Option.some.inj ((getElem?_of_idx hx).symm.trans (getElem?_of_idx hy))

/-- The member with the id is the one at its place. -/
theorem memberOf_eq : memberOf members x = (idx members x).bind (members[·]?) := by
  induction members using List.reverseRecOn with
  | nil => rfl
  | append_singleton l b ih =>
    have hzip : ((l ++ [b]).map Bead.id).zipIdx.reverse =
        (b.id, l.length) :: (l.map Bead.id).zipIdx.reverse := by
      rw [List.map_append, List.zipIdx_append, List.reverse_append, List.length_map, Nat.zero_add]
      rfl
    rw [memberOf, List.reverse_append, idx, hzip]
    by_cases hid : b.id = x
    · have hfind : ([b].reverse ++ l.reverse).find? (fun b ↦ b.id = x) = some b :=
        List.find?_cons_of_pos (decide_eq_true hid)
      rw [hfind, List.lookup_cons, beq_iff_eq.mpr hid.symm]
      exact List.getElem?_concat_length.symm
    · have hfind : ([b].reverse ++ l.reverse).find? (fun b ↦ b.id = x) = memberOf l x :=
        List.find?_cons_of_neg (by rw [decide_eq_true_eq]; exact hid)
      rw [hfind, List.lookup_cons, beq_eq_false_iff_ne.mpr fun h ↦ hid h.symm, ih]
      show (idx l x).bind _ = (idx l x).bind _
      cases hi : idx l x with
      | none => rfl
      | some i => exact (List.getElem?_append_left (lt_of_idx hi)).symm

theorem memberOf_of_idx (h : idx members x = some i) : memberOf members x = members[i]? := by
  rw [memberOf_eq, h]
  rfl

theorem exists_idx (h : (memberOf members x).isSome = true) : ∃ i, idx members x = some i := by
  rw [memberOf_eq] at h
  cases hi : idx members x with
  | none =>
    rw [hi] at h
    cases h
  | some i => exact ⟨i, rfl⟩

theorem edge_iff : (blocksGraph members).Edge i j ↔
    ∃ b, members[i]? = some b ∧ ∃ t ∈ b.blocksTargets, idx members t = some j := by
  rw [Graph.Edge, Graph.succ, blocksGraph, List.getElem?_map]
  cases members[i]? with
  | none =>
    refine iff_of_false List.not_mem_nil ?_
    rintro ⟨b, hb, -⟩
    cases hb
  | some b =>
    refine List.mem_filterMap.trans ?_
    constructor
    · intro h
      exact ⟨b, rfl, h⟩
    · rintro ⟨_, ⟨⟩, h⟩
      exact h

theorem closed_blocksGraph : (blocksGraph members).Closed := by
  intro l hl j hj
  obtain ⟨b, -, rfl⟩ := List.mem_map.mp hl
  obtain ⟨t, -, hidx⟩ := List.mem_filterMap.mp hj
  rw [blocksGraph, List.length_map]
  exact lt_of_idx hidx

/-- One member blocks another just where there is an edge between their places. -/
theorem blocks_iff (hx : idx members x = some i) :
    Blocks members x y ↔ ∃ j, idx members y = some j ∧ (blocksGraph members).Edge i j := by
  rw [Blocks, memberOf_of_idx hx]
  constructor
  · rintro ⟨⟨b, hb, hy⟩, hsome⟩
    obtain ⟨j, hj⟩ := exists_idx hsome
    exact ⟨j, hj, edge_iff.mpr ⟨b, hb, y, hy, hj⟩⟩
  · rintro ⟨j, hj, hedge⟩
    obtain ⟨b, hb, t, ht, htj⟩ := edge_iff.mp hedge
    obtain rfl : t = y := idx_inj htj hj
    refine ⟨⟨b, hb, ht⟩, ?_⟩
    rw [memberOf_of_idx hj, List.getElem?_eq_getElem (lt_of_idx hj)]
    rfl

theorem reach_of_blocks (hx : idx members x = some i) (h : ReflTransGen (Blocks members) x y) :
    ∃ j, idx members y = some j ∧ (blocksGraph members).Reach i j := by
  induction h with
  | refl => exact ⟨i, hx, .refl⟩
  | tail _ hblocks ih =>
    obtain ⟨j, hj, hreach⟩ := ih
    obtain ⟨k, hk, hedge⟩ := (blocks_iff hj).mp hblocks
    exact ⟨k, hk, hreach.tail hedge⟩

theorem blocks_of_reach (hx : idx members x = some i) (h : (blocksGraph members).Reach i j) :
    ∃ y, idx members y = some j ∧ ReflTransGen (Blocks members) x y := by
  induction h with
  | refl => exact ⟨x, hx, .refl⟩
  | @tail j k _ hedge ih =>
    obtain ⟨y, hy, hreach⟩ := ih
    obtain ⟨b, -, t, -, ht⟩ := edge_iff.mp hedge
    exact ⟨t, ht, hreach.tail ((blocks_iff hy).mpr ⟨k, ht, hedge⟩)⟩

theorem exists_idx_of_reach (h : (blocksGraph members).Reach i j) (hne : i ≠ j) :
    ∃ y, idx members y = some j := by
  obtain rfl | ⟨k, -, hedge⟩ := ReflTransGen.cases_tail h
  · exact absurd rfl hne
  · obtain ⟨b, -, t, -, ht⟩ := edge_iff.mp hedge
    exact ⟨t, ht⟩

/-! ## Components -/

/-- A component that has a row. -/
def components (members : List Bead) : List (List ℕ) :=
  (tarjan (blocksGraph members)).filter fun comp ↦ ¬ comp.length < 2

theorem mem_components {c : List ℕ} :
    c ∈ components members ↔ c ∈ tarjan (blocksGraph members) ∧ 2 ≤ c.length := by
  rw [components, List.mem_filter, decide_eq_true_eq, Nat.not_lt]

theorem nodup_flatten_components : (components members).flatten.Nodup :=
  (nodup_flatten_tarjan closed_blocksGraph).sublist List.filter_sublist.flatten

/-- A place in such a component is that of its id, and another is met from it and leads back. -/
theorem exists_of_mem_components {c : List ℕ} (hc : c ∈ components members) (hi : i ∈ c) :
    ∃ j, j ≠ i ∧ (blocksGraph members).Reach i j ∧ (blocksGraph members).Reach j i := by
  obtain ⟨hmem, hlen⟩ := mem_components.mp hc
  have hnodup : c.Nodup :=
    (List.nodup_flatten.mp (nodup_flatten_tarjan closed_blocksGraph)).1 c hmem
  obtain ⟨j, hj, hne⟩ : ∃ j ∈ c, j ≠ i := by
    by_contra hall
    have hsub : c ⊆ [i] := fun j hj ↦ List.mem_singleton.mpr (by_contra fun hne ↦ hall ⟨j, hj, hne⟩)
    exact absurd (hnodup.subperm hsub).length_le (Nat.not_le_of_lt hlen)
  exact ⟨j, hne, (mem_tarjan_iff closed_blocksGraph hmem hi).mp hj⟩

theorem exists_idx_of_mem {c : List ℕ} (hc : c ∈ components members) (hi : i ∈ c) :
    ∃ x, idx members x = some i := by
  obtain ⟨j, hne, -, hreach⟩ := exists_of_mem_components hc hi
  exact exists_idx_of_reach hreach hne

theorem onRing_iff : OnRing members x ↔
    ∃ c ∈ components members, ∃ i ∈ c, idx members x = some i := by
  constructor
  · rintro ⟨y, hne, hxy, hyx⟩
    have hx : ∃ i, idx members x = some i := by
      obtain rfl | ⟨z, -, hz⟩ := ReflTransGen.cases_tail hyx
      · exact absurd rfl hne
      · exact exists_idx hz.2
    obtain ⟨i, hi⟩ := hx
    obtain ⟨j, hj, hij⟩ := reach_of_blocks hi hxy
    obtain ⟨i', hi', hji⟩ := reach_of_blocks hj hyx
    obtain rfl : i = i' := Option.some.inj (hi.symm.trans hi')
    have hlt : i < (blocksGraph members).length := by
      rw [blocksGraph, List.length_map]
      exact lt_of_idx hi
    obtain ⟨c, hc, hic⟩ := List.mem_flatten.mp ((mem_flatten_tarjan closed_blocksGraph).mpr hlt)
    have hjc : j ∈ c := (mem_tarjan_iff closed_blocksGraph hc hic).mpr ⟨hij, hji⟩
    have hij : i ≠ j := fun heq ↦ hne (idx_inj hj (heq ▸ hi))
    have hlen : 2 ≤ c.length := by
      have hsub : [i, j] ⊆ c := List.cons_subset.mpr ⟨hic, List.cons_subset.mpr ⟨hjc, c.nil_subset⟩⟩
      have hnodup : [i, j].Nodup :=
        List.nodup_cons.mpr ⟨fun h ↦ hij (List.mem_singleton.mp h), List.nodup_singleton j⟩
      exact (hnodup.subperm hsub).length_le
    exact ⟨c, mem_components.mpr ⟨hc, hlen⟩, i, hic, hi⟩
  · rintro ⟨c, hc, i, hic, hi⟩
    obtain ⟨j, hne, hij, hji⟩ := exists_of_mem_components hc hic
    obtain ⟨y, hy, hxy⟩ := blocks_of_reach hi hij
    obtain ⟨x', hx', hyx⟩ := blocks_of_reach hy hji
    obtain rfl : x' = x := idx_inj hx' hi
    exact ⟨y, fun heq ↦ hne (Option.some.inj (hy.symm.trans (heq ▸ hi))), hxy, hyx⟩

/-- The id of a place, where the place is that of the id. -/
def idAt (members : List Bead) (i : ℕ) : Option String :=
  (members.map Bead.id)[i]?.filter fun x ↦ idx members x = some i

theorem idAt_eq_some : idAt members i = some x ↔ idx members x = some i := by
  rw [idAt, Option.filter_eq_some_iff, decide_eq_true_eq]
  exact and_iff_right_of_imp getElem?_of_idx

theorem flatten_rings : (rings members).flatten.Perm
    ((components members).flatten.filterMap (idAt members)) := by
  rw [List.filterMap_flatten]
  refine List.Perm.flatten_congr ?_
  rw [rings, List.forall₂_map_right_iff, List.forall₂_map_left_iff]
  refine List.forall₂_same.mpr fun c hc ↦ ?_
  refine (List.perm_insertionSort _ _).trans (List.Perm.of_eq (List.filterMap_congr fun i hi ↦ ?_))
  obtain ⟨x, hx⟩ := exists_idx_of_mem hc hi
  rw [idAt_eq_some.mpr hx, getElem?_of_idx hx]

theorem nodup_flatten_rings : (rings members).flatten.Nodup := by
  rw [flatten_rings.nodup_iff]
  refine nodup_flatten_components.filterMap fun i j x hi hj ↦ ?_
  exact Option.some.inj ((idAt_eq_some.mp hi).symm.trans (idAt_eq_some.mp hj))

theorem mem_flatten_rings : x ∈ (rings members).flatten ↔ OnRing members x := by
  rw [flatten_rings.mem_iff, List.mem_filterMap, onRing_iff]
  constructor
  · rintro ⟨i, hi, hx⟩
    obtain ⟨c, hc, hic⟩ := List.mem_flatten.mp hi
    exact ⟨c, hc, i, hic, idAt_eq_some.mp hx⟩
  · rintro ⟨c, hc, i, hic, hi⟩
    exact ⟨i, List.mem_flatten.mpr ⟨c, hc, hic⟩, idAt_eq_some.mpr hi⟩

end Rings

/-- **Cycle rows are the strongly connected components.**  The search ends at every root and finds
every node in exactly one component, two in the same just where each reaches the other; and so a
member that lies on a ring of two or more is once in the rows, and no other bead is in any. -/
theorem cycles_components (g : Graph) (hg : g.Closed) (P : Partition) :
    ((∀ r ≤ g.length, (Search.upTo g r).work = []) ∧
      (∀ c ∈ tarjan g, ∀ v ∈ c, v < g.length) ∧
      (∀ v < g.length, (tarjan g).flatten.count v = 1) ∧
      ∀ v < g.length, ∀ w < g.length,
        (∃ c ∈ tarjan g, v ∈ c ∧ w ∈ c) ↔ g.Reach v w ∧ g.Reach w v) ∧
    cycles P.members = (rings P.members).map cycleRow ∧
    ∀ id, (OnRing P.members id → (rings P.members).flatten.count id = 1) ∧
      (¬ OnRing P.members id → (rings P.members).flatten.count id = 0) := by
  refine ⟨⟨fun r hr ↦ (Search.inv_upTo hg hr).2.1, ?_, ?_, ?_⟩, rfl, fun id ↦ ⟨?_, ?_⟩⟩
  · intro c hc v hv
    exact (mem_flatten_tarjan hg).mp (List.mem_flatten.mpr ⟨c, hc, hv⟩)
  · intro v hv
    exact List.count_eq_one_of_mem (nodup_flatten_tarjan hg) ((mem_flatten_tarjan hg).mpr hv)
  · intro v hv w _
    constructor
    · rintro ⟨c, hc, hvc, hwc⟩
      exact (mem_tarjan_iff hg hc hvc).mp hwc
    · intro h
      obtain ⟨c, hc, hvc⟩ := List.mem_flatten.mp ((mem_flatten_tarjan hg).mpr hv)
      exact ⟨c, hc, hvc, (mem_tarjan_iff hg hc hvc).mpr h⟩
  · intro h
    exact List.count_eq_one_of_mem nodup_flatten_rings (mem_flatten_rings.mpr h)
  · intro h
    exact List.count_eq_zero.mpr fun hmem ↦ h (mem_flatten_rings.mp hmem)

theorem cycles_components_ring :
    (rings Partition.ring.members).flatten.count "a" = 1 ∧
      (tarjan [[1], [0]]).flatten.count 1 = 1 := by
  have hring : OnRing Partition.ring.members "a" := by
    have hab : Blocks Partition.ring.members "a" "b" :=
      ⟨⟨Partition.blocked "a" ["b", "c"], by decide, by decide⟩, by decide⟩
    have hba : Blocks Partition.ring.members "b" "a" :=
      ⟨⟨Partition.blocked "b" ["a"], by decide, by decide⟩, by decide⟩
    exact ⟨"b", by decide, .single hab, .single hba⟩
  obtain ⟨⟨-, -, hcount, -⟩, -, hrows⟩ := cycles_components [[1], [0]] (by decide) Partition.ring
  exact ⟨(hrows "a").1 hring, hcount 1 (by decide)⟩

end Spira.Strand
