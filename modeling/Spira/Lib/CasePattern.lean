import Mathlib.Data.List.Basic
import Mathlib.Order.Nat

/-!
# Case patterns

The patterns of the shell's `case`, over any alphabet whose letters are in an order: a pattern is
read into items from left to right, and a text matches when it splits into pieces that the items
take, one after the other.
-/

set_option autoImplicit false

namespace CasePattern

/-- The marks that a pattern is written with. -/
structure Marks (α : Type) where
  star : α
  any : α
  opn : α
  close : α
  bang : α
  caret : α
  dash : α
  escape : α

inductive Item (α : Type)
  /-- Any string. -/
  | star
  /-- Any one of the alphabet. -/
  | any
  /-- One of those in brackets, or none of them. -/
  | set (neg : Bool) (content : List α)
  /-- Itself. -/
  | lit (c : α)
  deriving DecidableEq

variable {α : Type} [DecidableEq α] (M : Marks α)

/-- Without the mark that negates. -/
def negated : List α → Bool × List α
  | x :: r => if x = M.bang ∨ x = M.caret then (true, r) else (false, x :: r)
  | [] => (false, [])

/-- The content of brackets and what comes after them.  A closing bracket that stands first is of
the content. -/
def closed : List α → Option (List α × List α)
  | x :: r =>
    if M.close ∈ r then some (x :: r.takeWhile (· ≠ M.close), (r.dropWhile (· ≠ M.close)).tail)
    else none
  | [] => none

/-- The first item of a pattern, and the rest of it. -/
def readItem (x : α) (rest : List α) : Item α × List α :=
  if x = M.star then (.star, rest)
  else if x = M.any then (.any, rest)
  else if x = M.opn then
    match closed M (negated M rest).2 with
    | some (content, r) => (.set (negated M rest).1 content, r)
    | none => (.lit x, rest)
  else if x = M.escape then
    match rest with
    | c :: r => (.lit c, r)
    | [] => (.lit x, [])
  else (.lit x, rest)

theorem length_negated_le (l : List α) : (negated M l).2.length ≤ l.length := by
  unfold negated
  split
  · split
    · exact Nat.le_succ _
    · exact le_rfl
  · exact le_rfl

theorem length_closed_lt {l content r : List α} (h : closed M l = some (content, r)) :
    r.length < l.length := by
  unfold closed at h
  split at h
  · rename_i x l
    split at h
    · cases h
      rw [List.length_tail, List.length_cons]
      have hle := (List.dropWhile_sublist (l := l) (· ≠ M.close)).length_le
      omega
    · cases h
  · cases h

theorem length_readItem_le (x : α) (rest : List α) :
    (readItem M x rest).2.length ≤ rest.length := by
  unfold readItem
  split
  · exact le_rfl
  · split
    · exact le_rfl
    · split
      · split
        · rename_i h
          exact (length_closed_lt M h).le.trans (length_negated_le M rest)
        · exact le_rfl
      · split
        · split
          · exact Nat.le_succ _
          · exact le_rfl
        · exact le_rfl

/-- The items of a pattern. -/
@[grind =] def items : List α → List (Item α)
  | [] => []
  | x :: rest => (readItem M x rest).1 :: items (readItem M x rest).2
termination_by p => p.length
decreasing_by exact Nat.lt_succ_of_le (length_readItem_le M x rest)

section Read

variable {M} {x : α} {rest content r : List α}

/-- A mark of none is a letter. -/
theorem readItem_lit (hstar : x ≠ M.star) (hany : x ≠ M.any) (hopn : x ≠ M.opn)
    (hescape : x ≠ M.escape) : readItem M x rest = (.lit x, rest) := by
  rw [readItem.eq_def, if_neg hstar, if_neg hany, if_neg hopn, if_neg hescape]

theorem readItem_opn_some (hstar : M.opn ≠ M.star) (hany : M.opn ≠ M.any)
    (h : closed M (negated M rest).2 = some (content, r)) :
    readItem M M.opn rest = (.set (negated M rest).1 content, r) := by
  rw [readItem.eq_def, if_neg hstar, if_neg hany, if_pos rfl, h]

theorem readItem_opn_none (hstar : M.opn ≠ M.star) (hany : M.opn ≠ M.any)
    (h : closed M (negated M rest).2 = none) : readItem M M.opn rest = (.lit M.opn, rest) := by
  rw [readItem.eq_def, if_neg hstar, if_neg hany, if_pos rfl, h]

theorem items_cons :
    items M (x :: rest) = (readItem M x rest).1 :: items M (readItem M x rest).2 := by
  rw [items]

end Read

variable [LE α]

/-- Whether `c` is in brackets: the ranges and members, from left to right. -/
@[grind =] def InSet (c : α) : List α → Prop
  | x :: d :: hi :: r =>
    if d = M.dash then x ≤ c ∧ c ≤ hi ∨ InSet c r else c = x ∨ InSet c (d :: hi :: r)
  | x :: r => c = x ∨ InSet c r
  | [] => False

section Sets

variable {β : Type} [DecidableEq β] [LE β] {M} {N : Marks β} {c : α} {l : List α}

/-- What is in brackets is at most one of those written there. -/
theorem exists_of_inSet (h : InSet M c l) : ∃ x ∈ l, c = x ∨ c ≤ x := by
  induction l using InSet.induct M with
  | case1 x hi r ih =>
    rw [InSet, if_pos rfl] at h
    rcases h with h | h
    · exact ⟨hi, by simp, Or.inr h.2⟩
    · obtain ⟨y, hy, hle⟩ := ih h
      exact ⟨y, by simp [hy], hle⟩
  | case2 x d hi r hd ih =>
    rw [InSet, if_neg hd] at h
    rcases h with h | h
    · exact ⟨x, List.mem_cons_self, Or.inl h⟩
    · obtain ⟨y, hy, hle⟩ := ih h
      exact ⟨y, List.mem_cons_of_mem _ hy, hle⟩
  | case3 x r hr ih =>
    rw [InSet] at h
    · rcases h with h | h
      · exact ⟨x, List.mem_cons_self, Or.inl h⟩
      · obtain ⟨y, hy, hle⟩ := ih h
        exact ⟨y, List.mem_cons_of_mem _ hy, hle⟩
    · exact hr
  | case4 => exact h.elim

/-- Another alphabet in the same order tells the same of brackets. -/
theorem inSet_map {f : α → β} {Q : α → Prop} (hdash : f M.dash = N.dash) (hQ : Q M.dash)
    (hinj : ∀ {x y}, Q x → Q y → f x = f y → x = y) (hle : ∀ {x y}, Q x → Q y → (f x ≤ f y ↔ x ≤ y))
    (hc : Q c) (hl : ∀ x ∈ l, Q x) : InSet N (f c) (l.map f) ↔ InSet M c l := by
  have heq {x : α} (hx : Q x) : f c = f x ↔ c = x := ⟨hinj hc hx, congrArg f⟩
  induction l using InSet.induct M with
  | case1 x hi r ih =>
    simp only [List.mem_cons, forall_eq_or_imp] at hl
    have hrest : InSet N (f c) (r.map f) ↔ InSet M c r := ih hl.2.2.2
    rw [List.map_cons, List.map_cons, List.map_cons, InSet, InSet, if_pos rfl, if_pos hdash,
      hle hl.1 hc, hle hc hl.2.2.1, hrest]
  | case2 x d hi r hd ih =>
    have hrest : InSet N (f c) ((d :: hi :: r).map f) ↔ InSet M c (d :: hi :: r) :=
      ih fun y hy ↦ hl y (List.mem_cons_of_mem x hy)
    simp only [List.mem_cons, forall_eq_or_imp] at hl
    have hd' : f d ≠ N.dash := fun h ↦ hd (hinj hl.2.1 hQ (h.trans hdash.symm))
    rw [List.map_cons, List.map_cons] at hrest
    rw [List.map_cons, List.map_cons, List.map_cons, InSet, InSet, if_neg hd, if_neg hd', heq hl.1,
      hrest]
  | case3 x r hr ih =>
    simp only [List.mem_cons, forall_eq_or_imp] at hl
    have hrest : InSet N (f c) (r.map f) ↔ InSet M c r := ih hl.2
    rw [List.map_cons, InSet, InSet, heq hl.1, hrest]
    · exact hr
    · rintro d hi t ht
      match r, ht with
      | d' :: hi' :: t', _ => exact hr d' hi' t' rfl
  | case4 => rfl

end Sets

/-- The pieces that an item takes. -/
def Item.Takes : Item α → List α → Prop
  | star, _ => True
  | any, s => ∃ c, s = [c]
  | set neg content, s => ∃ c, s = [c] ∧ (InSet M c content ↔ neg = false)
  | lit c, s => s = [c]

/-- The pieces of `s`, one for each item. -/
def Splits (l : List (Item α)) (s : List α) : Prop :=
  ∃ pieces, pieces.flatten = s ∧ List.Forall₂ (Item.Takes M) l pieces

/-- The text `s` matches the pattern. -/
def Matches (p s : List α) : Prop := Splits M (items M p) s

variable {M} {l l' : List (Item α)} {x : Item α} {c d : α} {s p content r : List α} {neg : Bool}

@[simp] theorem splits_nil : Splits M [] s ↔ s = [] := by
  constructor
  · rintro ⟨pieces, rfl, hpieces⟩
    cases hpieces
    rfl
  · rintro rfl
    exact ⟨[], rfl, .nil⟩

/-- The first item's piece, and the others'. -/
theorem splits_cons : Splits M (x :: l) s ↔ ∃ u v, s = u ++ v ∧ x.Takes M u ∧ Splits M l v := by
  constructor
  · rintro ⟨pieces, rfl, hpieces⟩
    cases hpieces with
    | @cons _ u _ pieces hu hrest => exact ⟨u, pieces.flatten, rfl, hu, pieces, rfl, hrest⟩
  · rintro ⟨u, _, rfl, hu, pieces, rfl, hrest⟩
    exact ⟨u :: pieces, rfl, .cons hu hrest⟩

/-- An item that takes one of the alphabet. -/
theorem splits_single {Q : α → Prop} (hx : ∀ u, x.Takes M u ↔ ∃ c, u = [c] ∧ Q c) :
    Splits M (x :: l) s ↔ ∃ c v, s = c :: v ∧ Q c ∧ Splits M l v := by
  rw [splits_cons]
  constructor
  · rintro ⟨u, v, rfl, hu, hv⟩
    obtain ⟨c, rfl, hc⟩ := (hx u).mp hu
    exact ⟨c, v, rfl, hc, hv⟩
  · rintro ⟨c, v, rfl, hc, hv⟩
    exact ⟨[c], v, rfl, (hx [c]).mpr ⟨c, rfl, hc⟩, hv⟩

theorem splits_any : Splits M (.any :: l) s ↔ ∃ c v, s = c :: v ∧ Splits M l v := by
  rw [splits_single (Q := fun _ ↦ True)]
  · simp only [true_and]
  · exact fun u ↦ by simp only [Item.Takes, and_true]

theorem splits_set : Splits M (.set neg content :: l) s ↔
    ∃ c v, s = c :: v ∧ (InSet M c content ↔ neg = false) ∧ Splits M l v :=
  splits_single fun _ ↦ Iff.rfl

theorem splits_lit : Splits M (.lit d :: l) s ↔ ∃ v, s = d :: v ∧ Splits M l v := by
  rw [splits_single (Q := fun c ↦ c = d)]
  · constructor
    · rintro ⟨_, v, rfl, rfl, hv⟩
      exact ⟨v, rfl, hv⟩
    · rintro ⟨v, rfl, hv⟩
      exact ⟨d, v, rfl, rfl, hv⟩
  · exact fun u ↦ ⟨fun h ↦ ⟨d, h, rfl⟩, fun ⟨_, h, hc⟩ ↦ hc ▸ h⟩

theorem splits_star : Splits M (.star :: l) s ↔ ∃ u v, s = u ++ v ∧ Splits M l v := by
  rw [splits_cons]
  exact exists_congr fun u ↦ exists_congr fun v ↦ and_congr_right fun _ ↦ and_iff_right trivial

/-- A star after a star takes nothing that the first does not. -/
theorem splits_star_star : Splits M (.star :: .star :: l) s ↔ Splits M (.star :: l) s := by
  rw [splits_star]
  constructor
  · rintro ⟨u, _, rfl, hrest⟩
    obtain ⟨v, w, rfl, hw⟩ := splits_star.mp hrest
    exact splits_star.mpr ⟨u ++ v, w, (List.append_assoc u v w).symm, hw⟩
  · exact fun h ↦ ⟨[], s, rfl, h⟩

/-- Letters that stand for themselves are taken as they are. -/
theorem splits_map_lit {t : List α} :
    Splits M (t.map .lit ++ l) s ↔ ∃ v, s = t ++ v ∧ Splits M l v := by
  induction t generalizing s with
  | nil => simp
  | cons d t ih =>
    rw [List.map_cons, List.cons_append, splits_lit]
    constructor
    · rintro ⟨_, rfl, hv⟩
      obtain ⟨w, rfl, hw⟩ := ih.mp hv
      exact ⟨w, rfl, hw⟩
    · rintro ⟨v, rfl, hv⟩
      exact ⟨t ++ v, rfl, ih.mpr ⟨v, rfl, hv⟩⟩

end CasePattern
