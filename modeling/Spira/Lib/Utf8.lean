import Mathlib.Data.Nat.Notation
import Mathlib.Data.List.Basic
import Mathlib.Data.List.TakeWhile

/-!
# Texts in UTF-8

A character is one to four bytes.  The first of them is told from the others, so a text's bytes can
be cut only where its characters begin (`exists_of_encode_eq_append`).
-/

set_option autoImplicit false

namespace Utf8

/-- The bytes of characters. -/
def encode (l : List Char) : List UInt8 := l.flatMap String.utf8EncodeChar

variable {c d k : Char} {l m : List Char} {x y : List UInt8} {b : UInt8}

@[simp] theorem encode_nil : encode [] = [] := rfl

theorem encode_cons : encode (c :: l) = String.utf8EncodeChar c ++ encode l := rfl

theorem encode_append : encode (l ++ m) = encode l ++ encode m := List.flatMap_append

theorem encode_eq_nil : encode l = [] ↔ l = [] := by
  cases l with
  | nil => exact iff_of_true rfl rfl
  | cons c l =>
    refine iff_of_false (fun h ↦ ?_) (List.cons_ne_nil c l)
    exact String.utf8EncodeChar_ne_nil (List.append_eq_nil_iff.mp h).1

theorem toUTF8_toList (s : String) : s.toUTF8.data.toList = encode s.toList := by
  rw [String.toUTF8, ← String.utf8Encode_toList, List.utf8Encode]
  simp [encode]

/-- A character's bytes tell where it ends. -/
theorem char_inj (h : String.utf8EncodeChar c ++ x = String.utf8EncodeChar d ++ y) :
    c = d ∧ x = y := by
  have hread (c : Char) (x : List UInt8) :
      ByteArray.utf8DecodeChar? (String.utf8EncodeChar c ++ x).toByteArray 0 = some c := by
    rw [List.toByteArray_append]
    exact ByteArray.utf8DecodeChar?_utf8EncodeChar_append
  have hc := hread c x
  rw [h, hread d y, Option.some.injEq] at hc
  subst hc
  exact ⟨rfl, List.append_cancel_left h⟩

/-- The first byte of a character, and those after it. -/
theorem exists_bytes (c : Char) : ∃ b bs, String.utf8EncodeChar c = b :: bs ∧ b.IsUTF8FirstByte ∧
    ∀ b' ∈ bs, ¬ b'.IsUTF8FirstByte := by
  cases h : String.utf8EncodeChar c with
  | nil => exact absurd h String.utf8EncodeChar_ne_nil
  | cons b bs =>
    have hfirst (i : ℕ) (hi : i < (b :: bs).length) : (b :: bs)[i].IsUTF8FirstByte ↔ i = 0 := by
      have hread := @UInt8.isUTF8FirstByte_getElem_utf8EncodeChar c i (h ▸ hi)
      simpa only [h] using hread
    refine ⟨b, bs, rfl, (hfirst 0 (Nat.succ_pos _)).mpr rfl, fun b' hb' hin ↦ ?_⟩
    obtain ⟨i, hi, rfl⟩ := List.getElem_of_mem hb'
    exact absurd ((hfirst (i + 1) (Nat.succ_lt_succ hi)).mp hin) (Nat.succ_ne_zero i)

/-- A character of one byte. -/
def IsAscii (c : Char) : Prop := c.toNat < 128

instance : DecidablePred IsAscii := fun c ↦ inferInstanceAs (Decidable (c.toNat < 128))

theorem utf8Size_eq_one_iff : c.utf8Size = 1 ↔ IsAscii c := by
  have hval : c.val ≤ 0x7f ↔ IsAscii c := UInt32.le_iff_toNat_le.trans Nat.lt_succ_iff.symm
  rw [← hval, Char.utf8Size]
  split
  · rename_i h
    exact iff_of_true rfl h
  · rename_i h
    refine iff_of_false ?_ h
    split
    · decide
    · split <;> decide

theorem utf8EncodeChar_of_isAscii (h : IsAscii c) : String.utf8EncodeChar c = [c.val.toUInt8] :=
  String.utf8EncodeChar_eq_singleton (utf8Size_eq_one_iff.mpr h)

theorem toNat_toUInt8_of_isAscii (h : IsAscii c) : c.val.toUInt8.toNat = c.toNat := by
  have hlt : c.val.toNat < 128 := h
  rw [UInt32.toNat_toUInt8, Nat.mod_eq_of_lt (by omega)]
  rfl

/-- No byte of another character is one of its own. -/
theorem le_of_mem_utf8EncodeChar (h : ¬ IsAscii c) {b : UInt8} (hb : b ∈ String.utf8EncodeChar c) :
    128 ≤ b.toNat := by
  have hor {x y : UInt8} (hy : 128 ≤ y.toNat) : 128 ≤ (x ||| y).toNat := by
    rw [UInt8.toNat_or]
    exact Nat.le_trans hy Nat.right_le_or
  match hc : c.utf8Size, c.utf8Size_pos, c.utf8Size_le_four with
  | 1, _, _ => exact absurd (utf8Size_eq_one_iff.mp hc) h
  | 2, _, _ =>
    rw [String.utf8EncodeChar_eq_cons_cons hc] at hb
    simp only [List.mem_cons, List.not_mem_nil, or_false] at hb
    rcases hb with rfl | rfl <;> exact hor (by decide)
  | 3, _, _ =>
    rw [String.utf8EncodeChar_eq_cons_cons_cons hc] at hb
    simp only [List.mem_cons, List.not_mem_nil, or_false] at hb
    rcases hb with rfl | rfl | rfl <;> exact hor (by decide)
  | 4, _, _ =>
    rw [String.utf8EncodeChar_eq_cons_cons_cons_cons hc] at hb
    simp only [List.mem_cons, List.not_mem_nil, or_false] at hb
    rcases hb with rfl | rfl | rfl | rfl <;> exact hor (by decide)

theorem toUInt8_inj (hc : IsAscii c) (hd : IsAscii d)
    (h : c.val.toUInt8 = d.val.toUInt8) : c = d := by
  have hnat := congrArg UInt8.toNat h
  rw [toNat_toUInt8_of_isAscii hc, toNat_toUInt8_of_isAscii hd] at hnat
  exact Char.ext (UInt32.toNat_inj.mp hnat)

theorem toUInt8_le (hc : IsAscii c) (hd : IsAscii d) :
    c.val.toUInt8 ≤ d.val.toUInt8 ↔ c ≤ d := by
  rw [UInt8.le_iff_toNat_le, toNat_toUInt8_of_isAscii hc, toNat_toUInt8_of_isAscii hd]
  exact UInt32.le_iff_toNat_le.symm

/-- The byte of `k` is in no other character. -/
theorem mem_utf8EncodeChar (hk : IsAscii k) : k.val.toUInt8 ∈ String.utf8EncodeChar c ↔ c = k := by
  by_cases hc : IsAscii c
  · rw [utf8EncodeChar_of_isAscii hc, List.mem_singleton]
    exact ⟨fun h ↦ toUInt8_inj hc hk h.symm, fun h ↦ h ▸ rfl⟩
  · refine iff_of_false (fun h ↦ ?_) fun h ↦ hc (h ▸ hk)
    have hle := le_of_mem_utf8EncodeChar hc h
    rw [toNat_toUInt8_of_isAscii hk] at hle
    exact absurd hk (Nat.not_lt.mpr hle)

/-- The byte that a character begins with tells whether it is `k`. -/
theorem head_eq_iff (hk : IsAscii k) (h : String.utf8EncodeChar c = b :: x) :
    b = k.val.toUInt8 ↔ c = k := by
  rw [← mem_utf8EncodeChar hk, h]
  refine ⟨fun hb ↦ hb ▸ List.mem_cons_self, fun hmem ↦ ?_⟩
  rw [← h, mem_utf8EncodeChar hk] at hmem
  rw [hmem, utf8EncodeChar_of_isAscii hk] at h
  exact (List.cons.inj h).1.symm

theorem le_of_mem_tail (h : String.utf8EncodeChar c = b :: x) {b' : UInt8} (hb : b' ∈ x) :
    128 ≤ b'.toNat := by
  by_cases hc : IsAscii c
  · rw [utf8EncodeChar_of_isAscii hc, List.cons.injEq] at h
    rw [← h.2] at hb
    exact absurd hb List.not_mem_nil
  · exact le_of_mem_utf8EncodeChar hc (h ▸ List.mem_cons_of_mem b hb)

theorem mem_encode (hk : IsAscii k) : k.val.toUInt8 ∈ encode l ↔ k ∈ l := by
  rw [encode, List.mem_flatMap]
  constructor
  · rintro ⟨c, hc, hmem⟩
    exact (mem_utf8EncodeChar hk).mp hmem ▸ hc
  · exact fun h ↦ ⟨k, h, (mem_utf8EncodeChar hk).mpr rfl⟩

/-- Where the text is cut at `k`, its bytes are. -/
theorem takeWhile_encode (hk : IsAscii k) :
    (encode l).takeWhile (· ≠ k.val.toUInt8) = encode (l.takeWhile (· ≠ k)) := by
  induction l with
  | nil => rfl
  | cons c l ih =>
    rw [encode_cons]
    by_cases hc : c = k
    · subst hc
      rw [utf8EncodeChar_of_isAscii hk, List.takeWhile_cons_of_neg (by simp)]
      exact List.takeWhile_cons_of_neg (by simp)
    · rw [List.takeWhile_cons_of_pos (by simpa using hc), encode_cons, ← ih]
      refine List.takeWhile_append_of_pos fun b hb ↦ decide_eq_true ?_
      rintro rfl
      exact hc ((mem_utf8EncodeChar hk).mp hb)

theorem dropWhile_encode (hk : IsAscii k) :
    (encode l).dropWhile (· ≠ k.val.toUInt8) = encode (l.dropWhile (· ≠ k)) := by
  have hbytes := List.takeWhile_append_dropWhile (p := fun b ↦ b ≠ k.val.toUInt8) (l := encode l)
  have hchars := List.takeWhile_append_dropWhile (p := fun c ↦ c ≠ k) (l := l)
  rw [takeWhile_encode hk] at hbytes
  refine List.append_cancel_left (hbytes.trans ?_)
  rw [← encode_append, hchars]

/-- The bytes before a character that begins somewhere in a text are those of the characters before
it. -/
theorem exists_of_encode_eq_append (h : encode l = x ++ y)
    (hy : ∀ b ∈ y.head?, b.IsUTF8FirstByte) : ∃ u v, l = u ++ v ∧ x = encode u ∧ y = encode v := by
  induction l generalizing x with
  | nil =>
    obtain ⟨rfl, rfl⟩ := List.append_eq_nil_iff.mp h.symm
    exact ⟨[], [], rfl, rfl, rfl⟩
  | cons c l ih =>
    cases x with
    | nil => exact ⟨[], c :: l, rfl, rfl, h.symm⟩
    | cons b x =>
      rw [encode_cons] at h
      rcases List.append_eq_append_iff.mp h with ⟨z, hz, hrest⟩ | ⟨z, hz, hrest⟩
      · obtain ⟨u, v, rfl, rfl, rfl⟩ := ih hrest
        exact ⟨c :: u, v, rfl, hz, rfl⟩
      · cases z with
        | nil =>
          rw [List.append_nil] at hz
          rw [List.nil_append] at hrest
          exact ⟨[c], l, rfl, by rw [encode_cons, encode_nil, List.append_nil, hz], hrest⟩
        | cons b' z =>
          -- it would begin within this character
          obtain ⟨b₀, bs, hbytes, -, hbs⟩ := exists_bytes c
          rw [hbytes, List.cons_append, List.cons.injEq] at hz
          have hmem : b' ∈ bs := by
            rw [hz.2]
            exact List.mem_append_right _ List.mem_cons_self
          rw [hrest] at hy
          exact absurd (hy b' rfl) (hbs b' hmem)

end Utf8
