import Mathlib.Order.WellFoundedSet
import Spira.Batcher.Rounds

/-!
# The merge order

`topoOrder` is greedy: of the members that are ready, the most urgent is next, and the first of
several (`topoOrder_choice`).  Where no member needs itself through others, the next member is
always ready, so each comes after all that it needs (`topoOrder_after`).
-/

set_option autoImplicit false

namespace Spira.Batcher

open Relation (ReflTransGen TransGen)

/-- A member of id `q` is stacked on `p` or depends on it, and `p` is among the members. -/
def Requires (members : List Member) (p q : Id) : Prop :=
  p ∈ members.map (·.id) ∧ ∃ m ∈ members, m.id = q ∧ p ∈ m.prereqs

/-- No member needs itself through others. -/
def Acyclic (members : List Member) : Prop := ∀ id, ¬ TransGen (Requires members) id id

variable {members remaining : List Member} {ids placed : List Id} {m m' : Member} {i j : ℕ}

/-! ## The next member -/

theorem argmin_first {α β : Type} [LinearOrder β] {f : α → β} {r : α → α → Prop} {l : List α}
    (h : l.Pairwise r) : ∀ {m a : α}, l.argmin f = some m → a ∈ l → a ≠ m →
      f m < f a ∨ f m = f a ∧ r m a := by
  induction h with
  | nil => exact fun _ ha ↦ absurd ha List.not_mem_nil
  | @cons x l hx hl ih =>
    intro m a hm ha hne
    rw [List.argmin_cons] at hm
    cases hc : l.argmin f with
    | none =>
      rw [hc] at hm
      obtain rfl := Option.some.inj hm
      rw [List.argmin_eq_none.mp hc, List.mem_singleton] at ha
      exact absurd ha hne
    | some c =>
      rw [hc] at hm
      dsimp only at hm
      split at hm <;> obtain rfl := Option.some.inj hm <;> rename_i hlt
      · rcases List.mem_cons.mp ha with rfl | ha
        · exact .inl hlt
        · exact ih hc ha hne
      · have ha := (List.mem_cons.mp ha).resolve_left hne
        have hle := (not_lt.mp hlt).trans (List.le_of_mem_argmin ha hc)
        exact hle.lt_or_eq.imp_right fun heq ↦ ⟨heq, hx a ha⟩

theorem mem_ready : (m, i) ∈ remaining.zipIdx.filter (ready ids placed ·.1) ↔
    remaining[i]? = some m ∧ ready ids placed m = true := by
  rw [List.mem_filter, List.mem_zipIdx_iff_getElem?]

/-- Of the members that are ready the most urgent is next, and the first of several. -/
theorem nextPlaced_choice (h : nextPlaced ids placed remaining = some (m, i))
    (hm' : remaining[j]? = some m') (hj : j ≠ i) (hready : ready ids placed m' = true) :
    orderKey m < orderKey m' ∨ orderKey m = orderKey m' ∧ i < j := by
  have hmem := mem_ready.mpr ⟨hm', hready⟩
  rw [nextPlaced] at h
  split at h <;> rename_i hr
  · rw [hr] at hmem
    exact absurd hmem List.not_mem_nil
  · have hsorted : (remaining.zipIdx.filter (ready ids placed ·.1)).Pairwise (·.2 < ·.2) := by
      refine List.Pairwise.filter _ (List.pairwise_map.mp ?_)
      rw [List.zipIdx_map_snd]
      exact List.pairwise_lt_range'
    exact argmin_first hsorted h hmem fun heq ↦ hj (congrArg Prod.snd heq)

theorem nextPlaced_ready (h : nextPlaced ids placed remaining = some (m, i))
    (hm' : m' ∈ remaining) (hready : ready ids placed m' = true) : ready ids placed m = true := by
  obtain ⟨j, hj⟩ := List.mem_iff_getElem?.mp hm'
  have hmem := mem_ready.mpr ⟨hj, hready⟩
  rw [nextPlaced] at h
  split at h <;> rename_i hr
  · rw [hr] at hmem
    exact absurd hmem List.not_mem_nil
  · exact (mem_ready.mp (List.argmin_mem h)).2

/-- Nothing that the member needs, nor itself, needs itself through others. -/
def Unlooped (members : List Member) (id : Id) : Prop :=
  ∀ p, ReflTransGen (Requires members) p id → ¬ TransGen (Requires members) p p

theorem Acyclic.unlooped (h : Acyclic members) (id : Id) : Unlooped members id := fun p _ ↦ h p

/-- Where a member is left that no loop leads to, some member that is left is ready: of those it
needs, one that needs none of them. -/
theorem exists_ready (hunlooped : Unlooped members m.id) (hsub : remaining ⊆ members)
    (hplaced : ∀ m ∈ members, m.id ∈ placed ∨ m.id ∈ remaining.map (·.id)) (hm : m ∈ remaining) :
    ∃ m ∈ remaining, ready (members.map (·.id)) placed m = true := by
  let needed : Set Id := {p | p ∈ remaining.map (·.id) ∧ ReflTransGen (Requires members) p m.id}
  have hfinite : needed.Finite := (List.finite_toSet _).subset fun p hp ↦ hp.1
  have hwf : needed.WellFoundedOn (TransGen (Requires members)) := by
    have : IsStrictOrder needed (Subrel (TransGen (Requires members)) (· ∈ needed)) :=
      { irrefl := fun p ↦ hunlooped p p.2.2, trans := fun _ _ _ ↦ TransGen.trans }
    have := hfinite.to_subtype
    exact Finite.wellFounded_of_trans_of_irrefl _
  obtain ⟨⟨id, hid, hneeds⟩, -, hmin⟩ :=
    hwf.has_min Set.univ ⟨⟨m.id, List.mem_map_of_mem hm, .refl⟩, trivial⟩
  obtain ⟨o, ho, rfl⟩ := List.mem_map.mp hid
  refine ⟨o, ho, List.all_eq_true.mpr fun p hp ↦ ?_⟩
  rw [Bool.or_eq_true, decide_eq_true_eq, decide_eq_true_eq]
  by_cases hin : p ∈ members.map (·.id)
  · obtain ⟨q, hq, rfl⟩ := List.mem_map.mp hin
    have hrequires : Requires members q.id o.id := ⟨hin, o, hsub ho, rfl, hp⟩
    refine .inr ((hplaced q hq).resolve_right fun hleft ↦ ?_)
    exact hmin ⟨q.id, hleft, .head hrequires hneeds⟩ trivial (.single hrequires)
  · exact .inl hin

/-! ## The order -/

theorem pair_sublist {α : Type} {l : List α} {a b : α} (ha : l[i]? = some a) (hb : l[j]? = some b)
    (h : i < j) : [a, b].Sublist l := by
  obtain ⟨hi, rfl⟩ := List.getElem?_eq_some_iff.mp ha
  have hmem : b ∈ l.drop (i + 1) := by
    refine List.mem_of_getElem? (i := j - (i + 1)) ?_
    rw [List.getElem?_drop, ← hb]
    congr 1
    omega
  refine ((List.singleton_sublist.mpr hmem).cons_cons l[i]).trans ?_
  rw [← List.drop_eq_getElem_cons hi]
  exact List.drop_sublist i l

/-- What the place of a member in the order says of it. -/
theorem topoFrom_split : ∀ (n : ℕ) (placed : List Id) (remaining : List Member),
    remaining.length = n → ∀ {pre post : List Member} {m : Member},
      topoFrom ids n placed remaining = pre ++ m :: post →
        ∃ left i, List.Sublist left remaining ∧ (m :: post).Perm left ∧
          nextPlaced ids ((pre.map (·.id)).reverse ++ placed) left = some (m, i) ∧
          ∀ o ∈ remaining, o.id ∈ pre.map (·.id) ∨ o ∈ left
  | 0, placed, remaining, _, pre, post, m, h => by simp [topoFrom] at h
  | n + 1, placed, remaining, hn, pre, post, m, h => by
    rw [topoFrom] at h
    cases hp : nextPlaced ids placed remaining with
    | none => simp [hp] at h
    | some p =>
      obtain ⟨picked, i⟩ := p
      rw [hp] at h
      dsimp only at h
      obtain ⟨hi, hpicked⟩ := List.getElem?_eq_some_iff.mp (nextPlaced_at hp)
      have hlen : (remaining.eraseIdx i).length = n := by
        rw [List.length_eraseIdx_of_lt hi]
        omega
      cases pre with
      | nil =>
        obtain ⟨rfl, rfl⟩ := List.cons_eq_cons.mp h
        refine ⟨remaining, i, List.Sublist.refl _, ?_, hp, fun o ho ↦ .inr ho⟩
        exact ((topoFrom_perm n _ _ hlen).cons picked).trans
          (hpicked ▸ List.getElem_cons_eraseIdx_perm hi)
      | cons first pre =>
        obtain ⟨rfl, hrest⟩ := List.cons_eq_cons.mp h
        obtain ⟨left, i', hsub, hperm, hnext, hleft⟩ := topoFrom_split n _ _ hlen hrest
        refine ⟨left, i', hsub.trans (List.eraseIdx_sublist _ _), hperm, ?_, fun o ho ↦ ?_⟩
        · rw [List.map_cons, List.reverse_cons, List.append_assoc]
          exact hnext
        · rcases List.mem_cons.mp ((List.getElem_cons_eraseIdx_perm hi).mem_iff.mpr ho) with rfl | ho
          · exact .inl (hpicked ▸ List.mem_cons_self)
          · exact (hleft o ho).imp_left (List.mem_cons_of_mem _)

variable {pre post : List Member}

/-- All that the member needs of the members comes before it. -/
def After (members pre : List Member) (m : Member) : Prop :=
  ∀ p ∈ m.prereqs, p ∈ members.map (·.id) → p ∈ pre.map (·.id)

theorem requires_congr {l l' : List Member} (h : l.Perm l') : Requires l = Requires l' := by
  ext p q
  rw [Requires, Requires, (h.map _).mem_iff]
  simp only [h.mem_iff]

theorem acyclic_congr {l l' : List Member} (h : l.Perm l') : Acyclic l ↔ Acyclic l' := by
  rw [Acyclic, Acyclic, requires_congr h]

theorem unlooped_congr {l l' : List Member} (h : l.Perm l') (id : Id) :
    Unlooped l id ↔ Unlooped l' id := by
  rw [Unlooped, Unlooped, requires_congr h]

theorem after_congr {l l' : List Member} (h : l.Perm l') : After l pre m ↔ After l' pre m := by
  rw [After, After]
  simp only [(h.map _).mem_iff]

theorem ready_iff : ready (members.map (·.id)) ((pre.map (·.id)).reverse ++ []) m = true ↔
    After members pre m := by
  rw [ready, List.all_eq_true]
  refine forall₂_congr fun p _ ↦ ?_
  rw [Bool.or_eq_true, decide_eq_true_eq, decide_eq_true_eq, List.append_nil, List.mem_reverse,
    imp_iff_not_or]

/-- **Of what could come next the most urgent does**, and what is first in the members of several. -/
theorem topoOrder_choice (h : topoOrder members = pre ++ m :: post) (hm' : m' ∈ post)
    (hafter : After members pre m') :
    orderKey m < orderKey m' ∨ orderKey m = orderKey m' ∧ [m, m'].Sublist members := by
  obtain ⟨left, i, hsub, hperm, hnext, -⟩ := topoFrom_split _ _ _ rfl h
  have hat := nextPlaced_at hnext
  obtain ⟨hi, rfl⟩ := List.getElem?_eq_some_iff.mp hat
  have herase : m' ∈ left.eraseIdx i :=
    ((hperm.trans (List.getElem_cons_eraseIdx_perm hi).symm).cons_inv).mem_iff.mp hm'
  obtain ⟨j, hj, hget⟩ := List.mem_eraseIdx_iff_getElem?.mp herase
  refine (nextPlaced_choice hnext hget hj (ready_iff.mpr hafter)).imp_right fun ⟨heq, hlt⟩ ↦ ?_
  exact ⟨heq, (pair_sublist hat hget hlt).trans hsub⟩

/-- **A member comes after all that it needs**, where no loop leads to it. -/
theorem topoOrder_after (hunlooped : Unlooped members m.id)
    (h : topoOrder members = pre ++ m :: post) : After members pre m := by
  obtain ⟨left, i, hsub, hperm, hnext, hleft⟩ := topoFrom_split _ _ _ rfl h
  have hplaced : ∀ o ∈ members, o.id ∈ (pre.map (·.id)).reverse ++ [] ∨ o.id ∈ left.map (·.id) :=
    fun o ho ↦ (hleft o ho).imp (fun hin ↦ by simpa using hin) List.mem_map_of_mem
  obtain ⟨m', hm', hready⟩ := exists_ready hunlooped hsub.subset hplaced
    (hperm.mem_iff.mp List.mem_cons_self)
  exact ready_iff.mp (nextPlaced_ready hnext hm' hready)

end Spira.Batcher
