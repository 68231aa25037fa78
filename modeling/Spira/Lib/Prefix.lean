import Mathlib.Algebra.GroupWithZero.Nat
import Mathlib.Data.List.Lex
import Mathlib.Data.String.Basic
import Mathlib.Order.Fin.Basic

/-!
# Prefixes in the order of keys

Keys are ordered so that those with a common prefix stand together, and an ordered store answers a
prefix query by a range of keys.  `KeyPrefix` is what such a query needs of a type of keys; lists,
in lexicographic order, and strings have it.

For keys that are strings of bytes the range has an upper end as well.  `successor p` is the least
key above all those that start with `p`, found by raising the last byte that can be raised:
`starts_iff_of_successor` says that the range from `p` up to it is exactly the keys under `p`.
-/

set_option autoImplicit false

/-- Keys with prefixes: those that start with `p` stand together, from `p` on. -/
class KeyPrefix (K : Type*) [LinearOrder K] where
  /-- Whether the key starts with the prefix. -/
  starts : K → K → Bool
  le_of_starts : ∀ {p k : K}, starts p k → p ≤ k
  starts_of_between : ∀ {p j k : K}, starts p k → p ≤ j → j ≤ k → starts p j

namespace KeyPrefix

/-! ## Lists and strings -/

section Lists

variable {α : Type*} [LinearOrder α]

theorem nil_le (k : List α) : [] ≤ k := not_lt.mp (List.not_lt_nil k)

theorem cons_le_cons {a b : α} {p k : List α} : a :: p ≤ b :: k ↔ a < b ∨ (a = b ∧ p ≤ k) := by
  rw [← not_lt, List.cons_lt_cons_iff, ← not_lt]
  rcases lt_trichotomy a b with h | rfl | h
  · simp [h, h.not_gt, h.ne']
  · simp
  · simp [h, h.not_gt, h.ne']

theorem le_of_isPrefix : ∀ {p k : List α}, p <+: k → p ≤ k
  | [], k, _ => nil_le k
  | a :: p, [], h => by simp at h
  | a :: p, b :: k, h => by
    obtain ⟨rfl, hp⟩ := List.cons_prefix_cons.mp h
    exact cons_le_cons.mpr (.inr ⟨rfl, le_of_isPrefix hp⟩)

theorem isPrefix_of_between : ∀ {p j k : List α}, p <+: k → p ≤ j → j ≤ k → p <+: j
  | [], j, _, _, _, _ => List.nil_prefix
  | a :: p, j, [], h, _, _ => by simp at h
  | a :: p, [], b :: k, _, hpj, _ => absurd (List.nil_lt_cons a p) hpj.not_gt
  | a :: p, c :: j, b :: k, h, hpj, hjk => by
    obtain ⟨rfl, hp⟩ := List.cons_prefix_cons.mp h
    -- The heads are squeezed together, and then the tails are.
    obtain hac | ⟨hac, hpj⟩ := cons_le_cons.mp hpj <;>
      obtain hca | ⟨hca, hjk⟩ := cons_le_cons.mp hjk
    · exact absurd hac hca.not_gt
    · exact absurd hca hac.ne'
    · exact absurd hac hca.ne'
    · exact List.cons_prefix_cons.mpr ⟨hac, isPrefix_of_between hp hpj hjk⟩

instance : KeyPrefix (List α) where
  starts p k := p.isPrefixOf k
  le_of_starts h := le_of_isPrefix (List.isPrefixOf_iff_prefix.mp h)
  starts_of_between h hpj hjk := List.isPrefixOf_iff_prefix.mpr
    (isPrefix_of_between (List.isPrefixOf_iff_prefix.mp h) hpj hjk)

theorem starts_list {p k : List α} : starts p k ↔ p <+: k := List.isPrefixOf_iff_prefix

end Lists

instance : KeyPrefix String where
  starts p k := p.toList.isPrefixOf k.toList
  le_of_starts h := String.le_iff_toList_le.mpr (le_of_isPrefix (List.isPrefixOf_iff_prefix.mp h))
  starts_of_between h hpj hjk := List.isPrefixOf_iff_prefix.mpr
    (isPrefix_of_between (List.isPrefixOf_iff_prefix.mp h) (String.le_iff_toList_le.mp hpj)
      (String.le_iff_toList_le.mp hjk))

theorem starts_string {p k : String} : starts p k ↔ p.toList <+: k.toList :=
  List.isPrefixOf_iff_prefix

theorem starts_append (p s : String) : starts p (p ++ s) := by
  rw [starts_string, String.toList_append]
  exact List.prefix_append _ _

/-- A key is not under two prefixes neither of which is under the other. -/
theorem not_starts {p q k : String} (h : starts p k) (hpq : starts p q = false)
    (hqp : starts q p = false) : starts q k = false := by
  rw [Bool.eq_false_iff] at *
  intro h'
  rw [Ne, starts_string] at hpq hqp
  rw [starts_string] at h h'
  exact (List.prefix_or_prefix_of_prefix h h').elim hpq hqp

/-- In a list of entries in key order, those under `p` follow one another from `p` on. -/
theorem takeWhile_starts {K V : Type*} [LinearOrder K] [KeyPrefix K] (p : K) :
    ∀ {l : List (K × V)}, l.Pairwise (·.1 < ·.1) →
      (l.filter fun e ↦ p ≤ e.1).takeWhile (fun e ↦ starts p e.1) = l.filter fun e ↦ starts p e.1
  | [], _ => rfl
  | a :: l, h => by
    obtain ⟨ha, hl⟩ := List.pairwise_cons.mp h
    have ih := takeWhile_starts p hl
    by_cases hs : starts p a.1
    · simp [hs, le_of_starts hs, ih]
    · have hneg : (a :: l).filter (fun e ↦ starts p e.1) = l.filter fun e ↦ starts p e.1 :=
        List.filter_cons_of_neg hs
      rw [hneg]
      by_cases hp : p ≤ a.1
      · -- The first key from `p` on is not under it, and so no later one is.
        rw [List.filter_cons_of_pos (by simpa using hp), List.takeWhile_cons, if_neg hs]
        refine (List.filter_eq_nil_iff.mpr fun b hb hsb ↦ hs ?_).symm
        exact starts_of_between hsb hp (ha b hb).le
      · rw [List.filter_cons_of_neg (by simpa using hp), ih]

/-- Whether the key is strictly after `after`. -/
def past {K : Type*} [LinearOrder K] (after : Option K) (k : K) : Bool := after.all (· < k)

@[simp] theorem past_none {K : Type*} [LinearOrder K] {k : K} : past none k = true := rfl

@[simp] theorem past_some {K : Type*} [LinearOrder K] {a k : K} : past (some a) k ↔ a < k := by
  simp [past]

/-! ## Byte strings -/

/-- A byte. -/
abbrev Byte := Fin 256

instance neZeroByte : NeZero 256 := ⟨by decide⟩

/-- From the last byte on: drop those that cannot be raised, and raise the first that can. -/
def successorRev : List Byte → Option (List Byte)
  | [] => none
  | last :: rest => if last < 255 then some ((last + 1) :: rest) else successorRev rest

/-- The least byte string above every one that starts with `p`; `none` where there is no such bound
(an empty prefix, or one whose bytes are all `0xff`). -/
def successor (p : List Byte) : Option (List Byte) := (successorRev p.reverse).map List.reverse

theorem successorRev_append (xs : List Byte) (b : Byte) :
    successorRev (xs ++ [b]) =
      match successorRev xs with
      | some q => some (q ++ [b])
      | none => if b < 255 then some [b + 1] else none := by
  induction xs with
  | nil => simp [successorRev]
  | cons a xs ih =>
    rw [List.cons_append, successorRev, successorRev, ih]
    by_cases ha : a < 255 <;> simp [ha]

theorem successor_nil : successor [] = none := rfl

theorem successor_cons (b : Byte) (p : List Byte) :
    successor (b :: p) =
      match successor p with
      | some q => some (b :: q)
      | none => if b < 255 then some [b + 1] else none := by
  rw [successor, List.reverse_cons, successorRev_append, successor]
  cases successorRev p.reverse with
  | some q => simp
  | none =>
    by_cases hb : b < 255 <;> simp [hb]

theorem lt_succ_iff {b c : Byte} (hb : b < 255) : c < b + 1 ↔ c ≤ b := by
  rw [Fin.lt_def, Fin.le_def, Fin.val_add_one_of_lt hb]
  omega

/-- The keys that start with `p` are those from `p` up to its successor, and all those from `p` on
where it has none. -/
theorem starts_iff_range : ∀ {p k : List Byte},
    p <+: k ↔ p ≤ k ∧ ∀ q, successor p = some q → k < q
  | [], k => by simp [successor_nil, nil_le]
  | b :: p, [] => by simp
  | b :: p, c :: k => by
    rw [List.cons_prefix_cons, starts_iff_range, cons_le_cons, successor_cons]
    cases successor p with
    | some q =>
      simp only [Option.some.injEq, forall_eq', List.cons_lt_cons_iff]
      constructor
      · rintro ⟨rfl, hp, hq⟩
        exact ⟨.inr ⟨rfl, hp⟩, .inr ⟨rfl, hq⟩⟩
      · rintro ⟨hb | ⟨hb, hp⟩, hc | ⟨hc, hq⟩⟩
        · exact absurd hb hc.not_gt
        · exact absurd hc hb.ne'
        · exact absurd hb hc.ne'
        · exact ⟨hb, hp, hq⟩
    | none =>
      by_cases hb : b < 255
      · simp only [if_pos hb, Option.some.injEq, forall_eq', reduceCtorEq, false_implies,
          implies_true, and_true, List.cons_lt_cons_iff, List.not_lt_nil, and_false, or_false,
          lt_succ_iff hb]
        constructor
        · rintro ⟨rfl, hp⟩
          exact ⟨.inr ⟨rfl, hp⟩, le_refl _⟩
        · rintro ⟨hbc | ⟨rfl, hp⟩, hc⟩
          · exact absurd hbc hc.not_gt
          · exact ⟨rfl, hp⟩
      · simp only [if_neg hb, reduceCtorEq, false_implies, implies_true, and_true]
        have : ¬ b < c := fun h ↦ hb (h.trans_le (Fin.le_last c))
        simp [this]

/-- The inclusive lower bound of the keys under `p` strictly after `after`. -/
def lowerBound (p : List Byte) (after : Option (List Byte)) : List Byte :=
  match after with
  | some a => if p ≤ a then a ++ [0] else p
  | none => p

/-- Nothing stands between `a` and `a` with a zero byte at its end. -/
theorem append_zero_le : ∀ {a k : List Byte}, a ++ [0] ≤ k ↔ a < k
  | [], [] => by decide
  | [], b :: k => by simp [cons_le_cons, nil_le, Fin.pos_iff_ne_zero, eq_comm, em']
  | a :: as, [] => by simp [← not_lt]
  | a :: as, b :: k => by
    rw [List.cons_append, cons_le_cons, append_zero_le, List.cons_lt_cons_iff]

/-- Above its lower bound, a key under `p` is strictly after `after`. -/
theorem lowerBound_le_iff {p k : List Byte} {after : Option (List Byte)} (h : p <+: k) :
    lowerBound p after ≤ k ↔ past after k := by
  cases after with
  | none => simpa [lowerBound] using le_of_isPrefix h
  | some a =>
    rw [lowerBound]
    split
    · simp [append_zero_le]
    · rename_i ha
      simpa [le_of_isPrefix h] using (not_le.mp ha).trans_le (le_of_isPrefix h)

theorem le_lowerBound {p : List Byte} {after : Option (List Byte)} : p ≤ lowerBound p after := by
  cases after with
  | none => exact le_refl p
  | some a =>
    rw [lowerBound]
    split
    · rename_i ha
      exact ha.trans (append_zero_le.mp (le_refl _)).le
    · exact le_refl p

/-- **The keys under `p` strictly after `after` are those between the two bounds.** -/
theorem starts_after_iff {p k : List Byte} {after : Option (List Byte)} :
    (p <+: k ∧ past after k) ↔
      lowerBound p after ≤ k ∧ ∀ q, successor p = some q → k < q := by
  constructor
  · rintro ⟨hp, ha⟩
    exact ⟨(lowerBound_le_iff hp).mpr ha, (starts_iff_range.mp hp).2⟩
  · rintro ⟨hlo, hhi⟩
    have hp : p <+: k := starts_iff_range.mpr ⟨le_lowerBound.trans hlo, hhi⟩
    exact ⟨hp, (lowerBound_le_iff hp).mp hlo⟩

end KeyPrefix
