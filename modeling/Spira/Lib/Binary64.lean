import Mathlib.Algebra.Order.Field.Rat
import Mathlib.Algebra.Order.Floor.Ring
import Mathlib.Data.List.TakeWhile
import Mathlib.Data.Rat.Floor
import Spira.Lib.Digits

/-!
# Floating-point numbers in exact arithmetic

A float is a rational number, or one of the three values that are none.  Arithmetic is that of the
rationals, so nothing is rounded but where a program asks for it.
-/

set_option autoImplicit false

namespace Binary64

inductive F64
  | fin (q : ℚ)
  | inf
  | negInf
  | nan
  deriving DecidableEq

namespace F64

def neg : F64 → F64
  | fin q => fin (-q)
  | inf => negInf
  | negInf => inf
  | nan => nan

def add : F64 → F64 → F64
  | fin a, fin b => fin (a + b)
  | fin _, x | x, fin _ => x
  | inf, inf => inf
  | negInf, negInf => negInf
  | _, _ => nan

def sub (x y : F64) : F64 := x.add y.neg

/-- A rational times an infinity, which is positive where `pos` says so. -/
def scale (q : ℚ) (pos : Bool) : F64 :=
  if q = 0 then nan else if (0 < q) = pos then inf else negInf

def mul : F64 → F64 → F64
  | fin a, fin b => fin (a * b)
  | fin a, inf | inf, fin a => scale a true
  | fin a, negInf | negInf, fin a => scale a false
  | inf, inf | negInf, negInf => inf
  | inf, negInf | negInf, inf => negInf
  | _, _ => nan

/-- The greater; the other where one is no number. -/
def max : F64 → F64 → F64
  | fin a, fin b => fin (Max.max a b)
  | nan, x | x, nan => x
  | inf, _ | _, inf => inf
  | negInf, x | x, negInf => x

/-- The nearest integer, halves away from zero. -/
def roundAway (q : ℚ) : ℤ := if 0 ≤ q then ⌊q + 1 / 2⌋ else -⌊-q + 1 / 2⌋

def round : F64 → F64
  | fin q => fin (roundAway q)
  | x => x

/-- Whether nothing stands after the point. -/
def IsWhole : F64 → Prop
  | fin q => q.den = 1
  | _ => False

instance : DecidablePred IsWhole
  | fin q => inferInstanceAs (Decidable (q.den = 1))
  | inf | negInf | nan => isFalse id

/-- The integers of 64 bits, which a cast does not leave. -/
def clamp (z : ℤ) : ℤ := Max.max (-2 ^ 63) (min (2 ^ 63 - 1) z)

/-- The cast to an integer of 64 bits, towards zero. -/
def toI64 : F64 → ℤ
  | fin q => clamp (if 0 ≤ q then ⌊q⌋ else -⌊-q⌋)
  | inf => 2 ^ 63 - 1
  | negInf => -2 ^ 63
  | nan => 0

theorem toI64_natCast (n : ℕ) : (fin n).toI64 = min (2 ^ 63 - 1) (n : ℤ) := by
  rw [toI64, if_pos n.cast_nonneg, Int.floor_natCast, clamp]
  omega

theorem isWhole_natCast (n : ℕ) : (fin n).IsWhole := Rat.den_natCast n

/-- Halves of a quotient that is not negative go up. -/
theorem roundAway_div (a : ℕ) {b : ℕ} (hb : 0 < b) :
    roundAway ((a : ℚ) / b) = ((2 * a + b) / (2 * b) : ℕ) := by
  have hq : (a : ℚ) / b + 1 / 2 = ((2 * a + b : ℕ) : ℚ) / ((2 * b : ℕ) : ℚ) := by
    have hb' : (b : ℚ) ≠ 0 := by exact_mod_cast hb.ne'
    push_cast
    field_simp
  rw [roundAway, if_pos (by positivity), hq,
    Rat.floor_natCast_div_natCast, Int.natCast_ediv]

end F64

/-! ## Texts -/

open Digits

/-- A sign, and what stands after it. -/
def unsign : List Char → Bool × List Char
  | '+' :: t => (false, t)
  | '-' :: t => (true, t)
  | t => (false, t)

/-- A whole number with its sign, of at least one digit. -/
def signed (t : List Char) : Option ℤ :=
  let (neg, t) := unsign t
  if t ≠ [] ∧ t.all Char.isDigit then some (if neg then -value t else value t) else none

/-- What stands after the digits of a number. -/
def exponent : List Char → Option ℤ
  | [] => some 0
  | c :: t => if c = 'e' ∨ c = 'E' then signed t else none

/-- Digits with or without a point in them, and an exponent or none. -/
def decimal (t : List Char) : Option ℚ :=
  let whole := t.takeWhile Char.isDigit
  let t := t.dropWhile Char.isDigit
  let (part, t) :=
    if t.head? = some '.' then (t.tail.takeWhile Char.isDigit, t.tail.dropWhile Char.isDigit)
    else ([], t)
  if whole = [] ∧ part = [] then none
  else (exponent t).map fun e ↦ value (whole ++ part) * (10 : ℚ) ^ (e - part.length : ℤ)

/-- The float that a text writes. -/
def parse (s : List Char) : Option F64 :=
  let (neg, t) := unsign s
  let word := t.map Char.toLower
  let x :=
    if word = "inf".toList ∨ word = "infinity".toList then some .inf
    else if word = "nan".toList then some .nan
    else (decimal t).map .fin
  x.map fun x ↦ if neg then x.neg else x

/-- Digits with no point write their value. -/
theorem decimal_digits {t : List Char} (hne : t ≠ []) (h : ∀ c ∈ t, c.isDigit) :
    decimal t = some (value t : ℚ) := by
  have htake : t.takeWhile Char.isDigit = t := List.takeWhile_eq_self_iff.mpr h
  have hdrop : t.dropWhile Char.isDigit = [] := List.dropWhile_eq_nil_iff.mpr h
  simp [decimal, htake, hdrop, hne, exponent]

/-- What digits with a point between them write. -/
theorem decimal_point {whole part : List Char} (hne : whole ≠ []) (hwhole : ∀ c ∈ whole, c.isDigit)
    (hpart : ∀ c ∈ part, c.isDigit) :
    decimal (whole ++ '.' :: part) = some (value (whole ++ part) / 10 ^ part.length : ℚ) := by
  have htake : (whole ++ '.' :: part).takeWhile Char.isDigit = whole := by
    rw [List.takeWhile_append_of_pos hwhole, List.takeWhile_cons_of_neg (by decide),
      List.append_nil]
  have hdrop : (whole ++ '.' :: part).dropWhile Char.isDigit = '.' :: part := by
    rw [List.dropWhile_append_of_pos hwhole, List.dropWhile_cons_of_neg (by decide)]
  have htake' : part.takeWhile Char.isDigit = part := List.takeWhile_eq_self_iff.mpr hpart
  have hdrop' : part.dropWhile Char.isDigit = [] := List.dropWhile_eq_nil_iff.mpr hpart
  simp [decimal, htake, hdrop, htake', hdrop', hne, exponent, div_eq_mul_inv]

/-- The numbers that a float holds, those below zero left out. -/
structure Holds (q : ℚ) : Prop where
  nonneg : 0 ≤ q
  dyadic : ∃ k, q.den = 2 ^ k

/-- A number with so many digits after the point that nothing is left over. -/
def print (q : ℚ) : List Char :=
  let k := q.den.log2 + 1
  let m := q.num.toNat * 10 ^ k / q.den
  pad 1 (m / 10 ^ k) ++ '.' :: pad k (m % 10 ^ k)

/-- What is printed begins with a digit, and goes on with digits and the point. -/
theorem print_eq_cons (q : ℚ) :
    ∃ c s, print q = c :: s ∧ c.isDigit ∧ ∀ d ∈ s, d.isDigit ∨ d = '.' := by
  obtain ⟨c, s, hs⟩ := List.exists_cons_of_ne_nil (pad_ne_nil :
    pad 1 (q.num.toNat * 10 ^ (q.den.log2 + 1) / q.den / 10 ^ (q.den.log2 + 1)) ≠ [])
  have hdigit {d : Char} (hd : d ∈ c :: s) : d.isDigit := isDigit_of_mem_pad (hs ▸ hd)
  refine ⟨c, s ++ _, by rw [print, hs]; rfl, hdigit List.mem_cons_self, fun d hd ↦ ?_⟩
  rcases List.mem_append.mp hd with hd | hd
  · exact .inl (hdigit (List.mem_cons_of_mem _ hd))
  · rcases List.mem_cons.mp hd with rfl | hd
    · exact .inr rfl
    · exact .inl (isDigit_of_mem_pad hd)

theorem decimal_print {q : ℚ} (hq : Holds q) : decimal (print q) = some q := by
  obtain ⟨hq, j, hj⟩ := hq
  have hlog : q.den.log2 + 1 = j + 1 := by rw [hj, Nat.log2_two_pow]
  -- so many digits hold the number whole
  have hdvd : q.den ∣ q.num.toNat * 10 ^ (j + 1) := by
    rw [hj]
    exact Dvd.dvd.mul_left ((pow_dvd_pow_of_dvd (by decide) j).trans (pow_dvd_pow 10 (by omega))) _
  obtain ⟨m, hm⟩ := hdvd
  have hm' : q.num.toNat * 10 ^ (j + 1) / q.den = m := by
    rw [hm, Nat.mul_div_cancel_left _ q.den_pos]
  have hlen : (pad (j + 1) (m % 10 ^ (j + 1))).length = j + 1 :=
    length_pad (Nat.succ_pos j) (Nat.mod_lt _ (by positivity))
  have hval : value (pad 1 (m / 10 ^ (j + 1)) ++ pad (j + 1) (m % 10 ^ (j + 1))) = m := by
    rw [value_append, value_pad, value_pad, hlen, Nat.mul_comm]
    exact Nat.div_add_mod m _
  rw [print, hlog, hm', decimal_point pad_ne_nil (fun _ ↦ isDigit_of_mem_pad) (fun _ ↦ isDigit_of_mem_pad), hval, hlen]
  have hnum : (q.num.toNat : ℤ) = q.num := Int.toNat_of_nonneg (Rat.num_nonneg.mpr hq)
  have hmq : (q.num : ℚ) * 10 ^ (j + 1) = q.den * m := by
    rw [← hnum]
    exact_mod_cast hm
  have hden : (q.den : ℚ) ≠ 0 := by exact_mod_cast q.den_ne_zero
  have hten : (10 : ℚ) ^ (j + 1) ≠ 0 := by positivity
  congr 1
  rw [div_eq_iff hten, ← mul_right_inj' hden, ← hmq, ← mul_assoc, mul_comm (q.den : ℚ) q,
    Rat.mul_den_eq_num]

/-- A run of digits writes no word, and has no sign. -/
theorem parse_digits {t : List Char} (hne : t ≠ []) (h : ∀ c ∈ t, c.isDigit) :
    parse t = some (.fin (value t)) := by
  obtain ⟨c, t, rfl⟩ := List.exists_cons_of_ne_nil hne
  have hc := h c List.mem_cons_self
  have hsign : unsign (c :: t) = (false, c :: t) := by
    rw [unsign]
    · rintro _ ⟨⟩
      exact absurd hc (by decide)
    · rintro _ ⟨⟩
      exact absurd hc (by decide)
  have hlow : c.toLower = c := by
    have hbounds := digit_bounds hc
    refine dif_neg ?_
    rintro ⟨hA, -⟩
    have hle : 'A'.toNat ≤ c.toNat := hA
    have hA' : 'A'.toNat = '0'.toNat + 17 := rfl
    omega
  have hword {w : List Char} (hw : w.head?.any Char.isDigit = false) :
      (c :: t).map Char.toLower ≠ w := by
    rintro rfl
    rw [List.map_cons, hlow, List.head?_cons, Option.any_some, hc] at hw
    cases hw
  rw [parse, hsign]
  dsimp only
  rw [if_neg (not_or.mpr ⟨hword rfl, hword rfl⟩), if_neg (hword rfl),
    decimal_digits hne h]
  rfl

end Binary64
