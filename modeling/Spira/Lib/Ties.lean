import Mathlib.Data.List.Sort

/-!
# Ties of an order

Two lists in order that have the same elements differ only where elements tie: one is had from the
other by exchanging neighbours with one key (`tied_of_perm`).  Sorting breaks ties by where the
elements stood (`pairwise_insertionSort`).
-/

set_option autoImplicit false

/-- The lists that differ by exchanges of neighbours with one key. -/
inductive Tied {α κ : Type} (key : α → κ) : List α → List α → Prop
  | nil : Tied key [] []
  | cons (a : α) {l l' : List α} : Tied key l l' → Tied key (a :: l) (a :: l')
  | swap {a b : α} (l : List α) : key a = key b → Tied key (a :: b :: l) (b :: a :: l)
  | trans {l l' l'' : List α} : Tied key l l' → Tied key l' l'' → Tied key l l''

variable {α κ : Type} {key : α → κ} {l l' : List α}

namespace Tied

theorem refl : ∀ l : List α, Tied key l l
  | [] => nil
  | a :: l => cons a (refl l)

theorem symm (h : Tied key l l') : Tied key l' l := by
  induction h with
  | nil => exact nil
  | cons a _ ih => exact cons a ih
  | swap l hkey => exact swap l hkey.symm
  | trans _ _ ih ih' => exact ih'.trans ih

theorem perm (h : Tied key l l') : l.Perm l' := by
  induction h with
  | nil => exact .nil
  | cons a _ ih => exact ih.cons a
  | swap l _ => exact .swap _ _ l
  | trans _ _ ih ih' => exact ih.trans ih'

theorem map_key (h : Tied key l l') : l.map key = l'.map key := by
  induction h with
  | nil => rfl
  | cons a _ ih => rw [List.map_cons, List.map_cons, ih]
  | swap l hkey => rw [List.map_cons, List.map_cons, List.map_cons, List.map_cons, hkey]
  | trans _ _ ih ih' => exact ih.trans ih'

theorem filter (p : α → Bool) (h : Tied key l l') : Tied key (l.filter p) (l'.filter p) := by
  induction h with
  | nil => exact nil
  | cons a _ ih =>
    rw [List.filter_cons, List.filter_cons]
    split
    · exact cons a ih
    · exact ih
  | @swap a b l hkey =>
    simp only [List.filter_cons]
    split
    · split
      · exact swap _ hkey
      · exact refl _
    · exact refl _
  | trans _ _ ih ih' => exact ih.trans ih'

/-- The first elements have one key. -/
theorem key_head? (h : Tied key l l') : l.head?.map key = l'.head?.map key := by
  rw [← List.head?_map, ← List.head?_map, h.map_key]

end Tied

theorem tied_append_cons {a : α} (post : List α) : ∀ pre : List α, (∀ c ∈ pre, key c = key a) →
    Tied key (pre ++ a :: post) (a :: (pre ++ post))
  | [], _ => .refl _
  | c :: pre, h =>
    (Tied.cons c (tied_append_cons post pre fun d hd ↦ h d (List.mem_cons_of_mem _ hd))).trans
      (.swap _ (h c List.mem_cons_self))

/-- **Lists in order with the same elements differ in their ties.** -/
theorem tied_of_perm {r : α → α → Prop} (hkey : ∀ a b, r a b → r b a → key a = key b) :
    ∀ {l l' : List α}, l.Pairwise r → l'.Pairwise r → l.Perm l' → Tied key l l'
  | [], l', _, _, hp => by
    rw [List.nil_perm.mp hp]
    exact .nil
  | a :: l, l', hl, hl', hp => by
    obtain ⟨pre, post, rfl⟩ := List.append_of_mem (hp.subset List.mem_cons_self)
    obtain ⟨ha, hl⟩ := List.pairwise_cons.mp hl
    have hrest : l.Perm (pre ++ post) := (hp.trans List.perm_middle).cons_inv
    have htie : ∀ c ∈ pre, key c = key a := fun c hc ↦
      hkey c a ((List.pairwise_append.mp hl').2.2 c hc a List.mem_cons_self)
        (ha c (hrest.mem_iff.mpr (List.mem_append_left _ hc)))
    have hsub : List.Sublist (pre ++ post) (pre ++ a :: post) :=
      (List.sublist_cons_self a post).append_left pre
    exact (Tied.cons a (tied_of_perm hkey hl (hl'.sublist hsub) hrest)).trans
      (tied_append_cons post pre htie).symm

/-- **What is sorted by one order and then by another is sorted by both**, the first where the
second ties. -/
theorem pairwise_insertionSort {r r' : α → α → Prop} [DecidableRel r] (htotal : ∀ a b, r a b ∨ r b a)
    (htrans : ∀ a b c, r a b → r b c → r a c) (h : l.Pairwise r') :
    (l.insertionSort r).Pairwise fun a b ↦ r a b ∧ (r b a → r' a b) := by
  have hinsert : ∀ {a : α} {m : List α}, (∀ b ∈ m, r' a b) →
      m.Pairwise (fun a b ↦ r a b ∧ (r b a → r' a b)) →
        (m.orderedInsert r a).Pairwise fun a b ↦ r a b ∧ (r b a → r' a b) := by
    intro a m hm hsorted
    induction m with
    | nil => exact List.pairwise_singleton _ a
    | cons b m ih =>
      obtain ⟨hb, hsorted'⟩ := List.pairwise_cons.mp hsorted
      rw [List.orderedInsert_cons]
      split
      · rename_i hab
        refine List.pairwise_cons.mpr ⟨fun c hc ↦ ⟨?_, fun _ ↦ hm c hc⟩, hsorted⟩
        rcases List.mem_cons.mp hc with rfl | hc
        · exact hab
        · exact htrans a b c hab (hb c hc).1
      · rename_i hab
        refine List.pairwise_cons.mpr
          ⟨fun c hc ↦ ?_, ih (fun c hc ↦ hm c (List.mem_cons_of_mem _ hc)) hsorted'⟩
        rcases (List.mem_orderedInsert r).mp hc with rfl | hc
        · exact ⟨(htotal b c).resolve_right hab, fun h ↦ absurd h hab⟩
        · exact hb c hc
  induction h with
  | nil => exact List.Pairwise.nil
  | @cons a m hm _ ih =>
    rw [List.insertionSort_cons]
    exact hinsert (fun b hb ↦ hm b ((List.mem_insertionSort r).mp hb)) ih
