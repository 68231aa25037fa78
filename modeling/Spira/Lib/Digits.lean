import Mathlib.Algebra.GroupWithZero.Nat
import Mathlib.Data.Nat.Notation
import Mathlib.Order.Nat

/-!
# Decimal digits of a fixed width

A run of digits and its value determine each other, once the width is fixed, and runs of one width
are in the order of their values.
-/

set_option autoImplicit false

namespace Digits

/-- The number that a run of digits writes. -/
def value (l : List Char) : ℕ := Nat.ofDigitChars 10 l 0

/-- A number in at least `width` digits. -/
def pad (width n : ℕ) : List Char :=
  List.replicate (width - (Nat.toDigits 10 n).length) '0' ++ Nat.toDigits 10 n

variable {width n : ℕ} {c : Char} {l m : List Char}

@[simp] theorem value_nil : value [] = 0 := rfl

theorem value_cons : value (c :: l) = (c.toNat - '0'.toNat) * 10 ^ l.length + value l := by
  rw [value, Nat.ofDigitChars_cons, Nat.mul_zero, Nat.zero_add,
    Nat.ofDigitChars_eq_ofDigitChars_zero, Nat.mul_comm, value]

theorem value_append : value (l ++ m) = value l * 10 ^ m.length + value m := by
  rw [value, Nat.ofDigitChars_append, Nat.ofDigitChars_eq_ofDigitChars_zero, Nat.mul_comm, value,
    value]

@[simp] theorem value_pad : value (pad width n) = n := by
  rw [value, pad, Nat.ofDigitChars_append, Nat.ofDigitChars_replicate_zero, Nat.mul_zero,
    Nat.ofDigitChars_ten_toDigits]

theorem length_pad (hw : 0 < width) (h : n < 10 ^ width) : (pad width n).length = width := by
  have hle : (Nat.toDigits 10 n).length ≤ width := (Nat.length_toDigits_le_iff (by decide) hw).mpr h
  rw [pad, List.length_append, List.length_replicate]
  omega

theorem isDigit_of_mem_pad (h : c ∈ pad width n) : c.isDigit := by
  rcases List.mem_append.mp h with h | h
  · rw [List.eq_of_mem_replicate h]
    rfl
  · exact Nat.isDigit_of_mem_toDigits (by decide) (by decide) h

theorem pad_ne_nil : pad width n ≠ [] := fun h ↦
  Nat.toDigits_ne_nil (List.append_eq_nil_iff.mp h).2

/-- A digit is at most nine, and its number decides it. -/
theorem digit_bounds (h : c.isDigit) : '0'.toNat ≤ c.toNat ∧ c.toNat ≤ '0'.toNat + 9 := by
  obtain ⟨h₀, h₉⟩ := Bool.and_eq_true_iff.mp h
  exact ⟨of_decide_eq_true h₀, of_decide_eq_true h₉⟩

theorem value_lt (h : ∀ c ∈ l, c.isDigit) : value l < 10 ^ l.length := by
  induction l with
  | nil => exact Nat.one_pos
  | cons c l ih =>
    obtain ⟨h₀, h₉⟩ := digit_bounds (h c List.mem_cons_self)
    have hl := ih fun d hd ↦ h d (List.mem_cons_of_mem _ hd)
    have hc : (c.toNat - '0'.toNat) * 10 ^ l.length ≤ 9 * 10 ^ l.length :=
      Nat.mul_le_mul_right _ (by omega)
    rw [value_cons, List.length_cons, Nat.pow_succ]
    omega

/-- **Runs of digits of one width are in the order of their values.** -/
theorem lt_iff_value_lt (hl : ∀ c ∈ l, c.isDigit) (hm : ∀ c ∈ m, c.isDigit)
    (hlen : l.length = m.length) : l < m ↔ value l < value m := by
  induction l generalizing m with
  | nil =>
    obtain rfl := List.length_eq_zero_iff.mp hlen.symm
    simp
  | cons c l ih =>
    cases m with
    | nil => simp at hlen
    | cons d m =>
      have hlen' : l.length = m.length := Nat.succ.inj hlen
      have hl' := fun e he ↦ hl e (List.mem_cons_of_mem _ he)
      have hm' := fun e he ↦ hm e (List.mem_cons_of_mem _ he)
      obtain ⟨hc₀, hc₉⟩ := digit_bounds (hl c List.mem_cons_self)
      obtain ⟨hd₀, hd₉⟩ := digit_bounds (hm d List.mem_cons_self)
      have hvl := value_lt hl'
      have hvm := value_lt hm'
      rw [List.cons_lt_cons_iff, value_cons, value_cons, hlen', ih hl' hm' hlen']
      rw [hlen'] at hvl
      rcases lt_trichotomy c.toNat d.toNat with hlt | heq | hgt
      · have hstep : (c.toNat - '0'.toNat + 1) * 10 ^ m.length ≤
            (d.toNat - '0'.toNat) * 10 ^ m.length := Nat.mul_le_mul_right _ (by omega)
        rw [Nat.add_mul] at hstep
        exact iff_of_true (.inl hlt) (by omega)
      · obtain rfl := Char.toNat_inj.mp heq
        simp
      · have hstep : (d.toNat - '0'.toNat + 1) * 10 ^ m.length ≤
            (c.toNat - '0'.toNat) * 10 ^ m.length := Nat.mul_le_mul_right _ (by omega)
        rw [Nat.add_mul] at hstep
        refine iff_of_false ?_ (by omega)
        rintro (hlt | ⟨rfl, -⟩)
        · exact absurd hgt (Nat.lt_asymm hlt)
        · exact absurd hgt (Nat.lt_irrefl _)

theorem value_inj (hl : ∀ c ∈ l, c.isDigit) (hm : ∀ c ∈ m, c.isDigit) (hlen : l.length = m.length)
    (h : value l = value m) : l = m := by
  induction l generalizing m with
  | nil => exact (List.length_eq_zero_iff.mp hlen.symm).symm
  | cons c l ih =>
    cases m with
    | nil => simp at hlen
    | cons d m =>
      have hlen' : l.length = m.length := Nat.succ.inj hlen
      have hl' := fun e he ↦ hl e (List.mem_cons_of_mem _ he)
      have hm' := fun e he ↦ hm e (List.mem_cons_of_mem _ he)
      have hvl := value_lt hl'
      have hvm := value_lt hm'
      obtain ⟨hc₀, -⟩ := digit_bounds (hl c List.mem_cons_self)
      obtain ⟨hd₀, -⟩ := digit_bounds (hm d List.mem_cons_self)
      rw [value_cons, value_cons, hlen'] at h
      rw [hlen'] at hvl
      have hpos : 0 < 10 ^ m.length := Nat.pow_pos (by decide)
      have hhead : c.toNat - '0'.toNat = d.toNat - '0'.toNat := by
        have hdiv := congrArg (· / 10 ^ m.length) h
        simpa [Nat.mul_add_div hpos, Nat.add_comm, Nat.mul_comm, Nat.add_mul_div_left _ _ hpos,
          Nat.div_eq_of_lt hvl, Nat.div_eq_of_lt hvm] using hdiv
      obtain rfl : c = d := Char.toNat_inj.mp (by omega)
      rw [ih hl' hm' hlen' (Nat.add_left_cancel h)]

/-- Texts with beginnings of one length are in the order of the beginnings, then of the rests. -/
theorem append_lt_append_iff {l' m' : List Char} (hlen : l.length = m.length) :
    l ++ l' < m ++ m' ↔ l < m ∨ l = m ∧ l' < m' := by
  induction l generalizing m with
  | nil =>
    obtain rfl := List.length_eq_zero_iff.mp hlen.symm
    simp
  | cons c l ih =>
    cases m with
    | nil => simp at hlen
    | cons d m =>
      rw [List.cons_append, List.cons_append, List.cons_lt_cons_iff, List.cons_lt_cons_iff,
        ih (Nat.succ.inj hlen), List.cons.injEq, and_or_left, or_assoc, and_assoc]

/-- Padded numbers of one width are in the order of the numbers, then of what stands after them. -/
theorem pad_append_lt_iff {a b : ℕ} {l' m' : List Char} (hw : 0 < width) (ha : a < 10 ^ width)
    (hb : b < 10 ^ width) : pad width a ++ l' < pad width b ++ m' ↔ a < b ∨ a = b ∧ l' < m' := by
  have hlen : (pad width a).length = (pad width b).length := by
    rw [length_pad hw ha, length_pad hw hb]
  have hdigits (n : ℕ) : ∀ c ∈ pad width n, c.isDigit := fun _ ↦ isDigit_of_mem_pad
  rw [append_lt_append_iff hlen, lt_iff_value_lt (hdigits a) (hdigits b) hlen, value_pad,
    value_pad]
  refine or_congr_right (and_congr_left' ⟨fun h ↦ ?_, fun h ↦ h ▸ rfl⟩)
  have hvalue := congrArg value h
  rwa [value_pad, value_pad] at hvalue

/-- What stands before the first place of a character, and after it. -/
theorem append_cons_inj {l' m' : List Char} (hl : c ∉ l) (hm : c ∉ m)
    (h : l ++ c :: l' = m ++ c :: m') : l = m ∧ l' = m' := by
  induction l generalizing m with
  | nil =>
    cases m with
    | nil => exact ⟨rfl, (List.cons.inj h).2⟩
    | cons d m => exact absurd (List.cons.inj h).1 (List.ne_of_not_mem_cons hm)
  | cons d l ih =>
    cases m with
    | nil => exact absurd (List.cons.inj h).1.symm (List.ne_of_not_mem_cons hl)
    | cons e m =>
      obtain ⟨rfl, hrest⟩ := List.cons.inj h
      obtain ⟨hlm, hend⟩ :=
        ih (List.not_mem_of_not_mem_cons hl) (List.not_mem_of_not_mem_cons hm) hrest
      exact ⟨hlm ▸ rfl, hend⟩

/-- A padded number ends at the first character that is no digit. -/
theorem pad_append_cons_inj {a b : ℕ} {l' m' : List Char} (hc : ¬ c.isDigit)
    (h : pad width a ++ c :: l' = pad width b ++ c :: m') : a = b ∧ l' = m' := by
  have hnot (n : ℕ) : c ∉ pad width n := fun hmem ↦ hc (isDigit_of_mem_pad hmem)
  obtain ⟨hpad, hrest⟩ := append_cons_inj (hnot a) (hnot b) h
  have hvalue := congrArg value hpad
  rw [value_pad, value_pad] at hvalue
  exact ⟨hvalue, hrest⟩

/-- A run of digits is what pads its value to its width. -/
theorem pad_value (hw : l ≠ []) (h : ∀ c ∈ l, c.isDigit) : pad l.length (value l) = l :=
  value_inj (fun _ ↦ isDigit_of_mem_pad) h (length_pad (List.length_pos_iff.mpr hw) (value_lt h))
    value_pad

end Digits
