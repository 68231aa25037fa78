import Mathlib.Logic.Relation
import Spira.Batcher.Attrib

/-!
# Removal sets

A member's removal set is what reaches it through the stacking (`mem_removalSet`): the passes of
`stackedOn` end in a set that is closed, and put in nothing but what has to be there.  In a round
whose members come after those they are stacked on, removal sets are then ordered as their members
are, and no two are the same.
-/

set_option autoImplicit false

namespace Spira.Batcher

open Relation (ReflTransGen)
open Std (ExtTreeMap)

variable {members : List Id} {prereqs : ExtTreeMap Id (List Id)} {set : Finset Id} {x y m p : Id}

/-- The member `m` is stacked on `p`. -/
def Stacks (members : List Id) (prereqs : ExtTreeMap Id (List Id)) (p m : Id) : Prop :=
  m ∈ members ∧ ∃ ps, prereqs[m]? = some ps ∧ p ∈ ps

theorem joins_iff : prereqs[m]?.any (·.any (· ∈ set)) = true ↔
    ∃ ps, prereqs[m]? = some ps ∧ ∃ p ∈ ps, p ∈ set := by
  cases prereqs[m]? <;> simp

/-! ## A pass -/

theorem subset_pass (l : List Id) (set : Finset Id) : set ⊆ pass l prereqs set := by
  induction l generalizing set with
  | nil => exact Finset.Subset.refl _
  | cons m l ih =>
    show set ⊆ pass l prereqs (if prereqs[m]?.any (·.any (· ∈ set)) then insert m set else set)
    split
    · exact (Finset.subset_insert m set).trans (ih _)
    · exact ih _

/-- A pass keeps what holds of its set and of what is stacked on a thing it holds of. -/
theorem pass_induction {P : Id → Prop} (l : List Id) (set : Finset Id) (hset : ∀ m ∈ set, P m)
    (hstep : ∀ p m, Stacks l prereqs p m → P p → P m) : ∀ m ∈ pass l prereqs set, P m := by
  induction l generalizing set with
  | nil => exact hset
  | cons m l ih =>
    have hrest : ∀ p m', Stacks l prereqs p m' → P p → P m' := by
      intro p m' hs
      exact hstep p m' ⟨List.mem_cons_of_mem _ hs.1, hs.2⟩
    show ∀ m' ∈ pass l prereqs (if prereqs[m]?.any (·.any (· ∈ set)) then insert m set else set), P m'
    split <;> rename_i hjoin
    · refine ih _ (fun m' hm ↦ ?_) hrest
      rcases Finset.mem_insert.mp hm with rfl | hm
      · obtain ⟨ps, hps, p, hp, hin⟩ := joins_iff.mp hjoin
        exact hstep p m' ⟨List.mem_cons_self, ps, hps, hp⟩ (hset p hin)
      · exact hset m' hm
    · exact ih _ hset hrest

/-- What a pass leaves as it is has all that is stacked on it. -/
theorem closed_of_pass (l : List Id) (set : Finset Id) (h : pass l prereqs set = set)
    (hs : Stacks l prereqs p m) (hp : p ∈ set) : m ∈ set := by
  induction l with
  | nil => cases hs.1
  | cons m' l ih =>
    have hpass : pass (m' :: l) prereqs set =
        pass l prereqs (if prereqs[m']?.any (·.any (· ∈ set)) then insert m' set else set) := rfl
    by_cases hjoin : prereqs[m']?.any (·.any (· ∈ set)) = true
    · rw [hpass, if_pos hjoin] at h
      have hin : m' ∈ set := by
        have hsub : insert m' set ⊆ pass l prereqs (insert m' set) := subset_pass l _
        rw [h] at hsub
        exact hsub (Finset.mem_insert_self m' set)
      rcases List.mem_cons.mp hs.1 with rfl | hm
      · exact hin
      · rw [Finset.insert_eq_of_mem hin] at h
        exact ih h ⟨hm, hs.2⟩
    · rw [hpass, if_neg hjoin] at h
      rcases List.mem_cons.mp hs.1 with rfl | hm
      · obtain ⟨ps, hps, hmem⟩ := hs.2
        exact absurd (joins_iff.mpr ⟨ps, hps, p, hmem, hp⟩) hjoin
      · exact ih h ⟨hm, hs.2⟩

/-! ## The passes -/

theorem subset_stackedOn (n : ℕ) : set ⊆ stackedOn members prereqs n set := by
  induction n generalizing set with
  | zero => exact Finset.Subset.refl _
  | succ n ih =>
    have hsub : set ⊆ pass members prereqs set := subset_pass members set
    rw [stackedOn]
    split
    · exact hsub
    · exact hsub.trans ih

theorem stackedOn_induction {P : Id → Prop} (n : ℕ) (hset : ∀ m ∈ set, P m)
    (hstep : ∀ p m, Stacks members prereqs p m → P p → P m) :
    ∀ m ∈ stackedOn members prereqs n set, P m := by
  induction n generalizing set with
  | zero => exact hset
  | succ n ih =>
    have hpass := pass_induction members set hset hstep
    rw [stackedOn]
    split
    · exact hpass
    · exact ih hpass

/-- **The passes end in a set that one more leaves as it is**, where there are as many as members to
put in. -/
theorem pass_stackedOn (all : Finset Id) (n : ℕ) (hset : set ⊆ all) (hmembers : ∀ m ∈ members, m ∈ all)
    (hn : all.card < n + set.card) :
    pass members prereqs (stackedOn members prereqs n set) = stackedOn members prereqs n set := by
  have hall {set : Finset Id} (hset : set ⊆ all) : pass members prereqs set ⊆ all := by
    intro m hm
    exact pass_induction (P := (· ∈ all)) members set (fun m hm ↦ hset hm)
      (fun p m hs _ ↦ hmembers m hs.1) m hm
  induction n generalizing set with
  | zero =>
    have hle := Finset.card_le_card hset
    omega
  | succ n ih =>
    have hsub : set ⊆ pass members prereqs set := subset_pass members set
    have hle := Finset.card_le_card hsub
    rw [stackedOn]
    split <;> rename_i hcard
    · have hsame : set = pass members prereqs set := Finset.eq_of_subset_of_card_le hsub hcard.le
      rw [← hsame, ← hsame]
    · exact ih (hall hset) (by omega)

/-- **A member's removal set is what reaches it through the stacking.** -/
theorem mem_removalSet (hx : x ∈ members) :
    m ∈ removalSet members prereqs x ↔ m ∈ members ∧ ReflTransGen (Stacks members prereqs) x m := by
  rw [removalSet, List.mem_filter, decide_eq_true_eq]
  refine and_congr_right fun hm ↦ ⟨fun h ↦ ?_, fun h ↦ ?_⟩
  · refine stackedOn_induction (P := ReflTransGen (Stacks members prereqs) x) _ (fun m hm ↦ ?_)
      (fun p m hs hp ↦ hp.tail hs) m h
    rw [Finset.mem_singleton.mp hm]
  · have hclosed : pass members prereqs (stackedOn members prereqs (members.length + 1) {x}) =
        stackedOn members prereqs (members.length + 1) {x} := by
      refine pass_stackedOn members.toFinset _ (fun m hm ↦ ?_)
        (fun m hm ↦ List.mem_toFinset.mpr hm) ?_
      · rw [Finset.mem_singleton.mp hm]
        exact List.mem_toFinset.mpr hx
      · have hle := members.toFinset_card_le
        rw [Finset.card_singleton]
        omega
    clear hm
    induction h with
    | refl => exact subset_stackedOn _ (Finset.mem_singleton_self x)
    | tail _ hs ih => exact closed_of_pass members _ hclosed hs ih

/-! ## The shape -/

theorem removalOf_new (hx : x ∈ members) :
    (Shape.new members prereqs).removalOf x = removalSet members prereqs x := by
  have hfold (f : Id → List Id) (l : List Id) (closure : ExtTreeMap Id (List Id)) :
      (l.foldl (fun closure x ↦ closure.insert x (f x)) closure)[x]? =
        if x ∈ l then some (f x) else closure[x]? := by
    induction l generalizing closure with
    | nil => simp
    | cons y l ih =>
      rw [List.foldl_cons, ih, ExtTreeMap.getElem?_insert]
      by_cases hl : x ∈ l
      · simp [hl]
      · by_cases hxy : y = x
        · subst hxy
          simp
        · simp [hl, hxy, Ne.symm hxy]
  rw [Shape.removalOf, Shape.new, hfold (removalSet members prereqs), if_pos hx]
  rfl

theorem mem_removalOf_self (hx : x ∈ members) : x ∈ (Shape.new members prereqs).removalOf x := by
  rw [removalOf_new hx, mem_removalSet hx]
  exact ⟨hx, .refl⟩

/-- Of two removal sets, one inside the other, the inner is the shorter where they are not the
same. -/
theorem removalOf_length (hx : x ∈ members) (hy : y ∈ members)
    (h : (Shape.new members prereqs).removalOf x ⊆ (Shape.new members prereqs).removalOf y)
    (hne : (Shape.new members prereqs).removalOf x ≠ (Shape.new members prereqs).removalOf y) :
    ((Shape.new members prereqs).removalOf x).length <
      ((Shape.new members prereqs).removalOf y).length := by
  rw [removalOf_new hx, removalOf_new hy] at h hne ⊢
  have hmem (z : Id) (m : Id) : m ∈ removalSet members prereqs z ↔
      m ∈ members ∧ m ∈ stackedOn members prereqs (members.length + 1) {z} := by
    rw [removalSet, List.mem_filter, decide_eq_true_eq]
  have hsub : removalSet members prereqs x =
      (removalSet members prereqs y).filter
        (· ∈ stackedOn members prereqs (members.length + 1) {x}) := by
    rw [removalSet, removalSet, List.filter_filter]
    refine List.filter_congr fun m hm ↦ ?_
    by_cases hin : m ∈ stackedOn members prereqs (members.length + 1) {x}
    · have hiny := ((hmem y m).mp (h ((hmem x m).mpr ⟨hm, hin⟩))).2
      rw [decide_eq_true hin, decide_eq_true hiny]
      rfl
    · rw [decide_eq_false hin]
      rfl
  have hle : (removalSet members prereqs x).length ≤ (removalSet members prereqs y).length := by
    rw [hsub]
    exact List.length_filter_le _ _
  refine lt_of_le_of_ne hle fun hlen ↦ hne ?_
  have hall := hsub ▸ List.filter_sublist (p := fun m ↦
    decide (m ∈ stackedOn members prereqs (members.length + 1) {x})) (l := removalSet members prereqs y)
  exact hall.eq_of_length hlen

/-- A removal set of as many as all the members is all of them. -/
theorem removalOf_all (hx : x ∈ members)
    (h : ((Shape.new members prereqs).removalOf x).length = members.length) :
    (Shape.new members prereqs).removalOf x = members := by
  rw [removalOf_new hx] at h ⊢
  exact List.filter_sublist.eq_of_length h

/-- The members come in an order in which what a member is stacked on is before it. -/
structure Ordered (members : List Id) (prereqs : ExtTreeMap Id (List Id)) : Prop where
  nodup : members.Nodup
  before : ∀ p m, p ∈ members → Stacks members prereqs p m → members.idxOf p < members.idxOf m

theorem Ordered.idxOf_le (h : Ordered members prereqs) (hx : x ∈ members)
    (hr : ReflTransGen (Stacks members prereqs) x m) : x = m ∨ members.idxOf x < members.idxOf m := by
  induction hr with
  | refl => exact .inl rfl
  | @tail y m hxy hs ih =>
    have hy : y ∈ members := by
      rcases hxy.cases_tail with rfl | ⟨z, -, hz⟩
      · exact hx
      · exact hz.1
    have hlt := h.before y m hy hs
    rcases ih with rfl | ih
    · exact .inr hlt
    · exact .inr (ih.trans hlt)

/-- **The removal set of what is stacked on `x` is strictly inside that of `x`.** -/
theorem Ordered.strict (h : Ordered members prereqs) (hx : x ∈ members) (hne : y ≠ x)
    (hy : y ∈ (Shape.new members prereqs).removalOf x) :
    (Shape.new members prereqs).removalOf y ⊆ (Shape.new members prereqs).removalOf x ∧
      x ∉ (Shape.new members prereqs).removalOf y := by
  rw [removalOf_new hx, mem_removalSet hx] at hy
  obtain ⟨hmem, hr⟩ := hy
  rw [removalOf_new hx, removalOf_new hmem]
  refine ⟨fun m hm ↦ ?_, fun hm ↦ ?_⟩
  · rw [mem_removalSet hmem] at hm
    rw [mem_removalSet hx]
    exact ⟨hm.1, hr.trans hm.2⟩
  · rw [mem_removalSet hmem] at hm
    rcases h.idxOf_le hx hr with rfl | hlt
    · exact hne rfl
    · rcases h.idxOf_le hmem hm.2 with rfl | hlt'
      · exact hne rfl
      · omega

/-- No two members have one removal set. -/
theorem Ordered.removalOf_inj (h : Ordered members prereqs) (hx : x ∈ members) (hy : y ∈ members)
    (heq : (Shape.new members prereqs).removalOf x = (Shape.new members prereqs).removalOf y) : x = y := by
  by_contra hne
  have hin : x ∈ (Shape.new members prereqs).removalOf y := heq ▸ mem_removalOf_self hx
  have hout := (h.strict hy hne hin).2
  rw [heq] at hout
  exact hout (mem_removalOf_self hy)

end Spira.Batcher
