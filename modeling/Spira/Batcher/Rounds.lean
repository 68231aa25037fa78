import Mathlib.Data.List.MinMax
import Mathlib.Data.Prod.Lex
import Mathlib.Data.Set.Card
import Mathlib.Logic.Relation
import Spira.Batcher.Attrib
import Spira.Lib.Settle

/-!
# Which members make a round

The pure half of the cut.  A member is admitted when nothing it depends on is still to land and
each prerequisite that it is stacked on is in the pool at the tip it was built on.  A round is the
members of one epic, where two or more share one, with what is stacked on them or under them and
the express members; else it is the whole pool (`mem_selectRound`).  `topoOrder` puts
prerequisites first and drops no member (`topoOrder_perm`).
-/

set_option autoImplicit false

namespace Spira.Batcher

open Relation (ReflTransGen)
open Settle

/-! ## Members -/

structure Member where
  id : Id
  tip : String
  priority : Option ℕ
  express : Bool
  baseFix : Bool
  certifiedAt : ℕ
  /-- Of each prerequisite the tip that the member was built on. -/
  stack : List (Id × String)
  /-- What the member depends on that has not landed. -/
  blockedBy : List Id
  deriving DecidableEq

/-- The lowest is the most urgent: express before all, and an unknown priority last. -/
def orderKey (m : Member) : ℕ ×ₗ ℕ ×ₗ ℕ :=
  toLex (if m.express then 0 else 1, toLex (m.priority.getD 255, m.certifiedAt))

/-- What the member is stacked on or depends on. -/
def Member.prereqs (m : Member) : List Id := m.stack.map Prod.fst ++ m.blockedBy

/-! ## The order -/

/-- Every prerequisite among `ids` is placed. -/
def ready (ids placed : List Id) (m : Member) : Bool :=
  m.prereqs.all fun p ↦ p ∉ ids || p ∈ placed

/-- The member placed next, and where it is: the most urgent that is ready, or of all if none is. -/
def nextPlaced (ids placed : List Id) (remaining : List Member) : Option (Member × ℕ) :=
  match remaining.zipIdx.filter (ready ids placed ·.1) with
  | [] => remaining.zipIdx.argmin (orderKey ·.1)
  | r => r.argmin (orderKey ·.1)

def topoFrom (ids : List Id) : ℕ → List Id → List Member → List Member
  | 0, _, _ => []
  | n + 1, placed, remaining =>
    match nextPlaced ids placed remaining with
    | none => []
    | some (picked, i) => picked :: topoFrom ids n (picked.id :: placed) (remaining.eraseIdx i)

/-- Prerequisites before what is stacked on them; a cycle is broken at its most urgent member. -/
def topoOrder (members : List Member) : List Member :=
  topoFrom (members.map (·.id)) members.length [] members

/-! ## What may be cut -/

/-- The pool has the prerequisite at that tip; a later member of an id stands for the id. -/
def current (pool : List Member) (p : Id × String) : Bool :=
  (pool.reverse.find? (·.id = p.1)).any (·.tip = p.2)

/-- Each member with a prerequisite that the pool does not have at the tip it was built on. -/
def stackSequencing (pool : List Member) : List (Id × Id) :=
  pool.filterMap fun m ↦ (m.stack.find? (!current pool ·)).map fun p ↦ (m.id, p.1)

/-- The members that depend on nothing unlanded, and a text for each other. -/
def refuseBlocked (pool : List Member) : List Member × List String :=
  (pool.filter (·.blockedBy.isEmpty),
    (pool.filter (!·.blockedBy.isEmpty)).map fun m ↦
      m.id ++ ": depends on " ++ m.blockedBy.headD "" ++ " (unlanded) — not cut")

inductive TriggerReason
  | poolFull (n : ℕ)
  | express (id : Id)
  | mainRed
  | baseFix (id : Id)
  | prepare (n : ℕ)
  deriving DecidableEq

structure TriggerInputs where
  pool : List Member
  mainRed : Bool
  batchOpen : Bool

def shouldCut (t : TriggerInputs) : Option TriggerReason :=
  if t.mainRed then some .mainRed
  else
    match t.pool.find? (·.baseFix) with
    | some fix => some (.baseFix fix.id)
    | none =>
      match t.pool.find? (·.express) with
      | some express => some (.express express.id)
      | none =>
        if t.pool.isEmpty then none
        else if t.batchOpen then some (.prepare t.pool.length)
        else some (.poolFull t.pool.length)

/-- Nothing but an empty pool is left uncut. -/
theorem shouldCut_eq_none {pool : List Member} :
    shouldCut ⟨pool, false, false⟩ = none ↔ pool = [] := by
  cases pool with
  | nil => simp [shouldCut]
  | cons m pool =>
    rw [shouldCut, if_neg Bool.false_ne_true]
    refine iff_of_false ?_ (List.cons_ne_nil _ _)
    split
    · exact Option.some_ne_none _
    · split
      · exact Option.some_ne_none _
      · exact Option.some_ne_none _

/-! ## The round of a pool -/

inductive RoundKind
  /-- Two or more members share this root. -/
  | feature (root : String)
  | catchAll
  deriving DecidableEq

/-- The epic of a bead: its id before the first dot. -/
def epicRoot (id : Id) : String := String.ofList (id.toList.takeWhile (· ≠ '.'))

/-- Of each root how many members have it. -/
def groups (pool : List Member) : List (String × ℕ) :=
  (pool.map (epicRoot ·.id)).dedup.map fun root ↦ (root, pool.countP (epicRoot ·.id = root))

/-- The root shared by the most members, at least two; the lowest of those. -/
def bestRoot (pool : List Member) : Option String :=
  (((groups pool).filter (2 ≤ ·.2)).argmax fun g ↦ toLex (g.2, OrderDual.toDual g.1)).map Prod.fst

/-- The member is stacked on one that is kept, or under one. -/
def joins (pool : List Member) (keep : Finset Id) (m : Member) : Bool :=
  let needsKept := m.prereqs.any (· ∈ keep)
  let neededByKept := pool.any fun o ↦ o.id ∈ keep && m.id ∈ o.prereqs
  needsKept || neededByKept

def keepOne (pool : List Member) (keep : Finset Id) (m : Member) : Finset Id :=
  if joins pool keep m then insert m.id keep else keep

/-- One pass over the pool. -/
def keepPass (pool : List Member) (keep : Finset Id) : Finset Id := pool.foldl (keepOne pool) keep

/-- The express members, and those of the root. -/
def seeds (pool : List Member) (root : String) : Finset Id :=
  ((pool.filter fun m ↦ m.express || epicRoot m.id = root).map (·.id)).toFinset

def selectRound (pool : List Member) : List Member × RoundKind :=
  match bestRoot pool with
  | none => (pool, .catchAll)
  | some root =>
    let keep := settle Finset.card (keepPass pool) (pool.length + 1) (seeds pool root)
    (pool.filter (·.id ∈ keep), .feature root)

section Admission

variable {pool : List Member} {m : Member}

/-- Of the members, each with an id of its own. -/
theorem current_iff (hnodup : (pool.map (·.id)).Nodup) {p : Id × String} :
    current pool p = true ↔ ∃ q ∈ pool, q.id = p.1 ∧ q.tip = p.2 := by
  rw [current, Option.any_eq_true]
  constructor
  · rintro ⟨q, hq, htip⟩
    exact ⟨q, List.mem_reverse.mp (List.mem_of_find?_eq_some hq), by simpa using List.find?_some hq,
      by simpa using htip⟩
  · rintro ⟨q, hq, hid, htip⟩
    obtain ⟨q', hq'⟩ := Option.isSome_iff_exists.mp
      (List.find?_isSome.mpr ⟨q, List.mem_reverse.mpr hq, by simpa using hid⟩ :
        (pool.reverse.find? (·.id = p.1)).isSome)
    have hid' : q'.id = p.1 := by simpa using List.find?_some hq'
    obtain rfl := List.inj_on_of_nodup_map hnodup
      (List.mem_reverse.mp (List.mem_of_find?_eq_some hq')) hq (hid'.trans hid.symm)
    exact ⟨q', hq', by simpa using htip⟩

/-- A member waits when a prerequisite is not in the pool at the tip it was built on. -/
theorem mem_stackSequencing (hnodup : (pool.map (·.id)).Nodup) (hm : m ∈ pool) :
    m.id ∈ (stackSequencing pool).map Prod.fst ↔ ∃ p ∈ m.stack, current pool p = false := by
  have hentry {m : Member} {e : Id × Id} :
      (m.stack.find? (!current pool ·)).map (fun p ↦ (m.id, p.1)) = some e →
        e.1 = m.id ∧ ∃ p ∈ m.stack, current pool p = false := by
    intro h
    obtain ⟨p, hp, rfl⟩ := Option.map_eq_some_iff.mp h
    exact ⟨rfl, p, List.mem_of_find?_eq_some hp, by simpa using List.find?_some hp⟩
  constructor
  · intro h
    obtain ⟨e, he, heq⟩ := List.mem_map.mp h
    obtain ⟨m', hm', he⟩ := List.mem_filterMap.mp he
    obtain ⟨hid, hstale⟩ := hentry he
    rwa [← List.inj_on_of_nodup_map hnodup hm' hm (hid.symm.trans heq)]
  · rintro ⟨p, hp, hstale⟩
    obtain ⟨q, hq⟩ := Option.isSome_iff_exists.mp
      (List.find?_isSome.mpr ⟨p, hp, by simpa using hstale⟩ :
        (m.stack.find? (!current pool ·)).isSome)
    exact List.mem_map.mpr ⟨(m.id, q.1), List.mem_filterMap.mpr ⟨m, hm, by rw [hq]; rfl⟩, rfl⟩

end Admission

/-! ## What the order leaves -/

section Order

variable {ids placed : List Id} {members remaining : List Member}

/-- What is placed is at its place. -/
theorem nextPlaced_at {m : Member} {i : ℕ} (h : nextPlaced ids placed remaining = some (m, i)) :
    remaining[i]? = some m := by
  have hmem : (m, i) ∈ remaining.zipIdx := by
    rw [nextPlaced] at h
    split at h
    · exact List.argmin_mem h
    · exact (List.mem_filter.mp (List.argmin_mem h)).1
  simpa [List.mem_zipIdx_iff_getElem?] using hmem

theorem nextPlaced_none (h : nextPlaced ids placed remaining = none) : remaining = [] := by
  have hzip : remaining.zipIdx = [] := by
    rw [nextPlaced] at h
    split at h
    · exact List.argmin_eq_none.mp h
    · rename_i hne
      exact absurd (List.argmin_eq_none.mp h) hne
  simpa using hzip

theorem topoFrom_perm : ∀ (n : ℕ) (placed : List Id) (remaining : List Member),
    remaining.length = n → (topoFrom ids n placed remaining).Perm remaining
  | 0, _, remaining, h => by rw [List.length_eq_zero_iff.mp h, topoFrom]
  | n + 1, placed, remaining, h => by
    rw [topoFrom]
    cases hp : nextPlaced ids placed remaining with
    | none => rw [nextPlaced_none hp]
    | some p =>
      obtain ⟨m, i⟩ := p
      obtain ⟨hi, hm⟩ := List.getElem?_eq_some_iff.mp (nextPlaced_at hp)
      have hrest := topoFrom_perm n (m.id :: placed) (remaining.eraseIdx i)
        (by rw [List.length_eraseIdx_of_lt hi]; omega)
      exact (hrest.cons m).trans (hm ▸ List.getElem_cons_eraseIdx_perm hi)

/-- **The order drops no member and repeats none.** -/
theorem topoOrder_perm : (topoOrder members).Perm members := topoFrom_perm _ _ _ rfl

end Order

/-! ## What a round is of -/

/-- The members of an epic. -/
def ofRoot (pool : Set Member) (root : String) : Set Member := {m ∈ pool | epicRoot m.id = root}

/-- The epic shared by the most members, at least two; the lowest of those. -/
structure FeatureRoot (pool : Set Member) (root : String) : Prop where
  shared : 2 ≤ (ofRoot pool root).ncard
  most : ∀ other, (ofRoot pool other).ncard < (ofRoot pool root).ncard ∨
    (ofRoot pool other).ncard = (ofRoot pool root).ncard ∧ root ≤ other

/-- One of the two is stacked on the other. -/
def Linked (pool : Set Member) (p q : Id) : Prop :=
  ∃ m ∈ pool, ∃ o ∈ pool, m.id = p ∧ o.id = q ∧ (o.id ∈ m.prereqs ∨ m.id ∈ o.prereqs)

/-- The member is in the round of the pool: where there is a feature, the member is linked to one
of it or to an express one. -/
def InRound (pool : Set Member) (m : Member) : Prop :=
  m ∈ pool ∧ ∀ root, FeatureRoot pool root →
    ∃ m₀ ∈ pool, (m₀.express = true ∨ epicRoot m₀.id = root) ∧
      ReflTransGen (Linked pool) m₀.id m.id

theorem FeatureRoot.unique {pool : Set Member} {root other : String} (h : FeatureRoot pool root)
    (h' : FeatureRoot pool other) : root = other := by
  obtain hlt | ⟨heq, hle⟩ := h.most other
  · obtain hlt' | ⟨heq', -⟩ := h'.most root <;> omega
  · obtain hlt' | ⟨-, hle'⟩ := h'.most root
    · omega
    · exact le_antisymm hle hle'

section Round

variable {pool : List Member} {root : String} {keep : Finset Id} {m : Member}

theorem ncard_mem {α : Type} [DecidableEq α] {l : List α} (h : l.Nodup) :
    {a | a ∈ l}.ncard = l.length := by
  have hcoe : {a | a ∈ l} = (l.toFinset : Set α) := by
    ext a
    simp
  rw [hcoe, Set.ncard_coe_finset, List.toFinset_card_of_nodup h]

theorem ncard_ofRoot (h : pool.Nodup) :
    (ofRoot {m | m ∈ pool} root).ncard = pool.countP (epicRoot ·.id = root) := by
  have hset : ofRoot {m | m ∈ pool} root = {m | m ∈ pool.filter (epicRoot ·.id = root)} := by
    ext m
    simp [ofRoot]
  rw [hset, ncard_mem (h.filter _), List.countP_eq_length_filter]

theorem mem_groups {n : ℕ} : (root, n) ∈ groups pool ↔
    (∃ m ∈ pool, epicRoot m.id = root) ∧ pool.countP (epicRoot ·.id = root) = n := by
  simp only [groups, List.mem_map, List.mem_dedup, Prod.mk.injEq]
  constructor
  · rintro ⟨_, hroot, rfl, hn⟩
    exact ⟨hroot, hn⟩
  · rintro ⟨hroot, hn⟩
    exact ⟨root, hroot, rfl, hn⟩

/-- A root with members is among the groups. -/
theorem group_of_count (h : 0 < pool.countP (epicRoot ·.id = root)) :
    (root, pool.countP (epicRoot ·.id = root)) ∈ groups pool := by
  obtain ⟨m, hm, hroot⟩ := List.countP_pos_iff.mp h
  exact mem_groups.mpr ⟨⟨m, hm, by simpa using hroot⟩, rfl⟩

theorem featureRoot_of_best (hnodup : pool.Nodup) (h : bestRoot pool = some root) :
    FeatureRoot {m | m ∈ pool} root := by
  obtain ⟨⟨root, n⟩, hmax, rfl⟩ := Option.map_eq_some_iff.mp h
  obtain ⟨hmem, hn⟩ := List.mem_filter.mp (List.argmax_mem hmax)
  obtain ⟨-, rfl⟩ := mem_groups.mp hmem
  have hn : 2 ≤ pool.countP (epicRoot ·.id = root) := by simpa using hn
  refine ⟨?_, fun other ↦ ?_⟩
  · rw [ncard_ofRoot hnodup]
    exact hn
  · rw [ncard_ofRoot hnodup, ncard_ofRoot hnodup]
    by_cases hother : 2 ≤ pool.countP (epicRoot ·.id = other)
    · have hgroup := group_of_count (show 0 < pool.countP (epicRoot ·.id = other) by omega)
      have hle := List.le_of_mem_argmax (List.mem_filter.mpr ⟨hgroup, by simpa using hother⟩) hmax
      rw [Prod.Lex.toLex_le_toLex] at hle
      exact hle
    · left
      show pool.countP (epicRoot ·.id = other) < pool.countP (epicRoot ·.id = root)
      omega

theorem bestRoot_none (hnodup : pool.Nodup) (h : bestRoot pool = none) :
    ¬ FeatureRoot {m | m ∈ pool} root := by
  intro hroot
  have hshared := hroot.shared
  rw [ncard_ofRoot hnodup] at hshared
  have hempty := List.argmax_eq_none.mp (Option.map_eq_none_iff.mp h)
  have hgroup := group_of_count (show 0 < pool.countP (epicRoot ·.id = root) by omega)
  exact List.filter_eq_nil_iff.mp hempty _ hgroup (by simpa using hshared)

/-! ### The members that are kept -/

theorem subset_keepOne : keep ⊆ keepOne pool keep m := by
  rw [keepOne]
  split
  · exact Finset.subset_insert _ _
  · exact Finset.Subset.refl _

theorem subset_foldl : ∀ (l : List Member) (keep : Finset Id), keep ⊆ l.foldl (keepOne pool) keep
  | [], _ => Finset.Subset.refl _
  | _ :: l, _ => subset_keepOne.trans (subset_foldl l _)

theorem joins_mono {keep' : Finset Id} (hsub : keep ⊆ keep') (h : joins pool keep m = true) :
    joins pool keep' m = true := by
  simp only [joins, Bool.or_eq_true, List.any_eq_true, Bool.and_eq_true, decide_eq_true_eq] at h ⊢
  obtain ⟨p, hp, hkeep⟩ | ⟨o, ho, hkeep, hm⟩ := h
  · exact .inl ⟨p, hp, hsub hkeep⟩
  · exact .inr ⟨o, ho, hsub hkeep, hm⟩

/-- A member that joins before the pass is kept after it. -/
theorem mem_foldl_of_joins : ∀ {l : List Member} {keep : Finset Id}, m ∈ l →
    joins pool keep m = true → m.id ∈ l.foldl (keepOne pool) keep
  | m' :: l, keep, hm, h => by
    rw [List.foldl_cons]
    obtain rfl | hm := List.mem_cons.mp hm
    · refine subset_foldl l _ ?_
      rw [keepOne, if_pos h]
      exact Finset.mem_insert_self _ _
    · exact mem_foldl_of_joins hm (joins_mono subset_keepOne h)

/-- What is kept is linked to what the round is of. -/
def Kept (pool : List Member) (root : String) (keep : Finset Id) : Prop :=
  seeds pool root ⊆ keep ∧ ∀ p ∈ keep, (∃ m ∈ pool, m.id = p) ∧
    ∃ m₀ ∈ pool, (m₀.express = true ∨ epicRoot m₀.id = root) ∧
      ReflTransGen (Linked {m | m ∈ pool}) m₀.id p

theorem mem_seeds {p : Id} : p ∈ seeds pool root ↔
    ∃ m ∈ pool, (m.express = true ∨ epicRoot m.id = root) ∧ m.id = p := by
  simp [seeds, and_assoc]

theorem kept_seeds : Kept pool root (seeds pool root) := by
  refine ⟨Finset.Subset.refl _, fun p hp ↦ ?_⟩
  obtain ⟨m, hm, hseed, rfl⟩ := mem_seeds.mp hp
  exact ⟨⟨m, hm, rfl⟩, m, hm, hseed, .refl⟩

theorem Kept.keepOne (h : Kept pool root keep) (hm : m ∈ pool) :
    Kept pool root (keepOne pool keep m) := by
  refine ⟨h.1.trans subset_keepOne, fun p hp ↦ ?_⟩
  rw [Batcher.keepOne] at hp
  split at hp
  · rename_i hjoins
    obtain rfl | hp := Finset.mem_insert.mp hp
    · refine ⟨⟨m, hm, rfl⟩, ?_⟩
      have hlinked {o : Member} (ho : o ∈ pool) (hkeep : o.id ∈ keep)
          (hl : m.id ∈ o.prereqs ∨ o.id ∈ m.prereqs) : ∃ m₀ ∈ pool,
          (m₀.express = true ∨ epicRoot m₀.id = root) ∧
            ReflTransGen (Linked {m | m ∈ pool}) m₀.id m.id := by
        obtain ⟨-, m₀, hm₀, hseed, hreach⟩ := h.2 _ hkeep
        exact ⟨m₀, hm₀, hseed, hreach.tail ⟨o, ho, m, hm, rfl, rfl, hl⟩⟩
      simp only [joins, Bool.or_eq_true, List.any_eq_true, Bool.and_eq_true,
        decide_eq_true_eq] at hjoins
      obtain ⟨p, hp, hkeep⟩ | ⟨o, ho, hkeep, hl⟩ := hjoins
      · obtain ⟨⟨o, ho, rfl⟩, -⟩ := h.2 p hkeep
        exact hlinked ho hkeep (.inr hp)
      · exact hlinked ho hkeep (.inl hl)
    · exact h.2 p hp
  · exact h.2 p hp

theorem Kept.keepPass (h : Kept pool root keep) : Kept pool root (keepPass pool keep) := by
  have hfold : ∀ (l : List Member) (keep : Finset Id), (∀ m ∈ l, m ∈ pool) →
      Kept pool root keep → Kept pool root (l.foldl (Batcher.keepOne pool) keep) := by
    intro l
    induction l with
    | nil => exact fun _ _ h ↦ h
    | cons m l ih =>
      exact fun _ hl h ↦ ih _ (fun o ho ↦ hl o (List.mem_cons_of_mem _ ho))
        (h.keepOne (hl m List.mem_cons_self))
  exact hfold pool keep (fun _ ↦ id) h

theorem Kept.card_le (h : Kept pool root keep) : keep.card ≤ pool.length := by
  rw [← List.length_map (f := fun m : Member ↦ m.id)]
  refine (Finset.card_le_card fun p hp ↦ ?_).trans (List.toFinset_card_le _)
  obtain ⟨⟨m, hm, rfl⟩, -⟩ := h.2 p hp
  exact List.mem_toFinset.mpr (List.mem_map_of_mem hm)

/-- What a pass adds nothing to has every member linked to it. -/
theorem mem_of_linked {p q : Id} (h : keepPass pool keep = keep) (hp : p ∈ keep)
    (hl : ReflTransGen (Linked {m | m ∈ pool}) p q) : q ∈ keep := by
  induction hl with
  | refl => exact hp
  | tail _ hlink ih =>
    obtain ⟨m, hm, o, ho, rfl, rfl, hl⟩ := hlink
    have hjoins : joins pool keep o = true := by
      simp only [joins, Bool.or_eq_true, List.any_eq_true, Bool.and_eq_true, decide_eq_true_eq]
      exact hl.symm.imp (fun hl ↦ ⟨_, hl, ih⟩) fun hl ↦ ⟨m, hm, ih, hl⟩
    have hmem := mem_foldl_of_joins ho hjoins
    rwa [← Batcher.keepPass, h] at hmem

/-- **The round of a pool.** -/
theorem mem_selectRound (hnodup : pool.Nodup) :
    m ∈ (selectRound pool).1 ↔ InRound {m | m ∈ pool} m := by
  rw [selectRound]
  cases hbest : bestRoot pool with
  | none => exact ⟨fun hm ↦ ⟨hm, fun _ h ↦ absurd h (bestRoot_none hnodup hbest)⟩, And.left⟩
  | some root =>
    have hroot := featureRoot_of_best hnodup hbest
    have hpass (keep : Finset Id) (h : Kept pool root keep) : Kept pool root (keepPass pool keep) :=
      h.keepPass
    have hgrows (keep : Finset Id) (h : Kept pool root keep)
        (hne : (keepPass pool keep).card ≠ keep.card) :
        pool.length - (keepPass pool keep).card < pool.length - keep.card := by
      have hle := h.keepPass.card_le
      have hsub : keep.card ≤ (keepPass pool keep).card :=
        Finset.card_le_card (subset_foldl pool keep)
      omega
    obtain ⟨keep, hkept, hsize, hsettle⟩ := settle_settled hpass
      (fun keep ↦ pool.length - keep.card) hgrows (n := pool.length + 1) kept_seeds (by omega)
    have hfixed : keepPass pool keep = keep :=
      (Finset.eq_of_subset_of_card_le (subset_foldl pool keep) hsize.le).symm
    dsimp only
    rw [hsettle, hfixed, List.mem_filter, decide_eq_true_eq]
    constructor
    · rintro ⟨hm, hkeep⟩
      refine ⟨hm, fun root' hroot' ↦ ?_⟩
      obtain rfl := hroot.unique hroot'
      exact (hkept.2 _ hkeep).2
    · rintro ⟨hm, hin⟩
      obtain ⟨m₀, hm₀, hseed, hlinked⟩ := hin root hroot
      exact ⟨hm, mem_of_linked hfixed (hkept.1 (mem_seeds.mpr ⟨m₀, hm₀, hseed, rfl⟩)) hlinked⟩

theorem nodup_selectRound (hnodup : pool.Nodup) : (selectRound pool).1.Nodup := by
  rw [selectRound]
  split
  · exact hnodup
  · exact hnodup.filter _

theorem length_selectRound (hnodup : pool.Nodup) :
    (selectRound pool).1.length = {m | InRound {m | m ∈ pool} m}.ncard := by
  have hset : {m | InRound {m | m ∈ pool} m} = {m | m ∈ (selectRound pool).1} := by
    ext m
    exact (mem_selectRound hnodup).symm
  rw [hset, ncard_mem (nodup_selectRound hnodup)]

end Round

end Spira.Batcher
