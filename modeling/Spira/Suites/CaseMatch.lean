import Mathlib.Data.List.Infix
import Mathlib.Data.List.TakeWhile
import Spira.Lib.CasePattern
import Spira.Lib.Utf8
import Spira.Suites.Glob

/-!
# The matcher of case patterns

The matcher does what the items of a pattern say, over bytes, and over characters where `?` and
brackets meet only characters of one byte.
-/

set_option autoImplicit false

namespace Spira.Suites

open CasePattern Utf8

/-- The marks of a pattern in bytes. -/
def bytes : Marks UInt8 := ⟨42, 63, 91, 93, 33, 94, 45, 92⟩

section Bytes

variable {c x y : UInt8} {first hit : Bool} {l r s p : List UInt8} {n : ℕ}

theorem bracket_close : bracket c false hit (93 :: r) = some (hit, r) := by
  unfold bracket
  exact if_pos ⟨rfl, rfl⟩

/-- What the rest of a bracket expression tells of `c`, where `content` comes before the closing
bracket. -/
def Tells (c : UInt8) (hit : Bool) (res : Option (Bool × List UInt8)) (content l : List UInt8) :
    Prop :=
  (93 ∈ l → ∃ h, res = some (h, (l.dropWhile (· ≠ 93)).tail) ∧
    (h = true ↔ hit = true ∨ InSet bytes c content)) ∧ (93 ∉ l → res = none)

/-- One member more, or one range. -/
theorem Tells.more {hit' : Bool} {res : Option (Bool × List UInt8)} {content content' : List UInt8}
    (h : Tells c hit' res content' l)
    (hhit : hit' = true ∨ InSet bytes c content' ↔ hit = true ∨ InSet bytes c content) :
    Tells c hit res content l := by
  obtain ⟨hin, hout⟩ := h
  refine ⟨fun hl ↦ ?_, hout⟩
  obtain ⟨b, hres, hb⟩ := hin hl
  exact ⟨b, hres, hb.trans hhit⟩

/-- Where brackets go on after their first member, they end at the next closing bracket. -/
theorem Tells.next (h : ∀ y t, l = y :: t → y ≠ 93 →
      Tells c hit (bracket c false hit l) (y :: t.takeWhile (· ≠ 93)) t) :
    Tells c hit (bracket c false hit l) (l.takeWhile (· ≠ 93)) l := by
  cases l with
  | nil => exact ⟨fun h ↦ absurd h List.not_mem_nil, fun _ ↦ rfl⟩
  | cons y t =>
    by_cases hy : y = 93
    · subst hy
      refine ⟨fun _ ↦ ⟨hit, ?_, ?_⟩, fun h ↦ absurd List.mem_cons_self h⟩
      · rw [bracket_close, List.dropWhile_cons_of_neg (by decide), List.tail_cons]
      · rw [List.takeWhile_cons_of_neg (by decide), InSet, or_false]
    · obtain ⟨hin, hout⟩ := h y t rfl hy
      have hmem : 93 ∈ y :: t ↔ 93 ∈ t := by
        rw [List.mem_cons, or_iff_right (Ne.symm hy)]
      rw [Tells, hmem, List.dropWhile_cons_of_pos (by simpa using hy),
        List.takeWhile_cons_of_pos (by simpa using hy)]
      exact ⟨hin, hout⟩

theorem Tells.cons {res : Option (Bool × List UInt8)} {content : List UInt8} (hy : y ≠ 93)
    (h : Tells c hit res content l) : Tells c hit res content (y :: l) := by
  have hmem : 93 ∈ y :: l ↔ 93 ∈ l := by
    rw [List.mem_cons, or_iff_right (Ne.symm hy)]
  rw [Tells, hmem, List.dropWhile_cons_of_pos (by simpa using hy)]
  exact h

/-- A member that no range begins with. -/
theorem inSet_cons (h : ∀ hi t, l ≠ 45 :: hi :: t) :
    InSet bytes c (x :: l) ↔ c = x ∨ InSet bytes c l := by
  match l with
  | [] => exact Iff.rfl
  | [d] => exact Iff.rfl
  | d :: hi :: t =>
    rw [InSet, if_neg]
    rintro rfl
    exact h hi t rfl

/-- What a bracket expression tells: it ends at the first closing bracket that does not stand first,
whatever ranges there are before it. -/
theorem bracket_cons (hx : ¬ (x = 93 ∧ !first)) :
    Tells c hit (bracket c first hit (x :: r)) (x :: r.takeWhile (· ≠ 93)) r := by
  generalize hl : x :: r = l
  induction first, hit, l using bracket.induct c generalizing x r with
  | case1 => cases hl
  | case2 first hit x' r' h =>
    cases hl
    exact absurd h hx
  | case3 first hit x' h hi r' hne ih =>
    obtain ⟨rfl, rfl⟩ := List.cons.inj hl
    have hread : bracket c first hit (x :: 45 :: hi :: r') =
        bracket c false (hit || (x ≤ c && c ≤ hi)) r' := by
      rw [bracket, if_neg h, if_pos hne]
    have hnext := Tells.next fun y t ht hy ↦ ih (fun hy' ↦ hy hy'.1) ht.symm
    rw [hread, List.takeWhile_cons_of_pos (by decide),
      List.takeWhile_cons_of_pos (by simpa using hne)]
    refine ((hnext.more ?_).cons hne).cons (by decide)
    have hdash : 45 = bytes.dash := rfl
    rw [InSet, if_pos hdash]
    simp only [Bool.or_eq_true, Bool.and_eq_true, decide_eq_true_eq, or_assoc]
  | case4 first hit x' h hi r' hne ih =>
    obtain ⟨rfl, rfl⟩ := List.cons.inj hl
    have hread : bracket c first hit (x :: 45 :: hi :: r') =
        bracket c false (hit || x = c) (45 :: hi :: r') := by
      rw [bracket, if_neg h, if_neg hne]
    obtain rfl : hi = 93 := not_not.mp hne
    have hmember := ih (x := 45) (fun h ↦ absurd h.1 (by decide)) rfl
    rw [hread, List.takeWhile_cons_of_pos (by decide)]
    refine (hmember.more ?_).cons (by decide)
    rw [List.takeWhile_cons_of_neg (by decide), inSet_cons (by rintro _ _ ⟨⟩)]
    simp only [Bool.or_eq_true, decide_eq_true_eq, or_assoc, @eq_comm _ x c]
    exact Iff.rfl
  | case5 first hit x' h r' hne ih =>
    obtain ⟨rfl, rfl⟩ := List.cons.inj hl
    have hread : bracket c first hit (x :: r) = bracket c false (hit || x = c) r := by
      rw [bracket, if_neg h]
      exact hne
    have hnext := Tells.next fun y t ht hy ↦ ih (fun hy' ↦ hy hy'.1) ht.symm
    rw [hread]
    refine hnext.more ?_
    rw [inSet_cons]
    · simp only [Bool.or_eq_true, decide_eq_true_eq, or_assoc, @eq_comm _ x c]
    · intro hi t ht
      have hsplit := List.takeWhile_append_dropWhile (p := fun b : UInt8 ↦ b ≠ 93) (l := r)
      rw [ht] at hsplit
      exact hne hi _ hsplit.symm

/-- Runs of stars take what one of them takes. -/
theorem splits_collapsed : Splits bytes (.star :: items bytes l) s ↔
    Splits bytes (.star :: items bytes (l.dropWhile (· = 42))) s := by
  induction l with
  | nil => rfl
  | cons x l ih =>
    by_cases hx : x = 42
    · subst hx
      have hread : items bytes (42 :: l) = .star :: items bytes l := by
        rw [items]
        rfl
      rw [hread, splits_star_star, ih, List.dropWhile_cons_of_pos (by decide)]
    · rw [List.dropWhile_cons_of_neg (by simpa using hx)]

/-- A star, and what is tried after it. -/
theorem any_tails_eq_true (h : ∀ t, m n p t = true ↔ Matches bytes p t) :
    s.tails.any (m n p) = true ↔ Splits bytes (.star :: items bytes p) s := by
  rw [List.any_eq_true, splits_star]
  constructor
  · rintro ⟨t, ht, hm⟩
    obtain ⟨u, rfl⟩ := (List.mem_tails t s).mp ht
    exact ⟨u, t, rfl, (h t).mp hm⟩
  · rintro ⟨u, v, rfl, hv⟩
    exact ⟨v, (List.mem_tails v _).mpr ⟨u, rfl⟩, (h v).mpr hv⟩

/-- A letter that stands for itself. -/
theorem m_lit (x : UInt8) (h : ∀ t, m n l t = true ↔ Matches bytes l t)
    (hread : items bytes p = .lit x :: items bytes l)
    (hm : ∀ c t, m (n + 1) p (c :: t) = (c = x && m n l t)) (hnil : m (n + 1) p [] = false) :
    m (n + 1) p s = true ↔ Matches bytes p s := by
  rw [Matches, hread, splits_lit]
  cases s with
  | nil =>
    rw [hnil]
    refine iff_of_false Bool.false_ne_true ?_
    rintro ⟨_, h, -⟩
    cases h
  | cons c t =>
    rw [hm, Bool.and_eq_true, decide_eq_true_eq, h]
    constructor
    · rintro ⟨rfl, ht⟩
      exact ⟨t, rfl, ht⟩
    · rintro ⟨_, ⟨⟩, hv⟩
      exact ⟨rfl, hv⟩

theorem match_negated : (match l with
    | 33 :: set => (true, set)
    | 94 :: set => (true, set)
    | set => (false, set)) = negated bytes l := by
  unfold negated
  split
  · exact (if_pos (Or.inl rfl)).symm
  · exact (if_pos (Or.inr rfl)).symm
  · rename_i h₁ h₂
    cases l with
    | nil => rfl
    | cons y l =>
      refine (if_neg ?_).symm
      rintro (rfl | rfl)
      · exact h₁ l rfl
      · exact h₂ l rfl

/-- What the matcher reads of a bracket expression is what is closed there. -/
theorem bracket_closed : match closed bytes l with
    | some (content, r) => ∃ h, bracket c true false l = some (h, r) ∧
        (h = true ↔ InSet bytes c content)
    | none => bracket c true false l = none := by
  cases l with
  | nil => rfl
  | cons y l =>
    have htells : Tells c false (bracket c true false (y :: l)) (y :: l.takeWhile (· ≠ 93)) l :=
      bracket_cons fun h ↦ Bool.noConfusion h.2
    obtain ⟨hin, hout⟩ := htells
    rw [closed]
    by_cases hl : 93 ∈ l
    · obtain ⟨h, hread, hh⟩ := hin hl
      rw [if_pos (show bytes.close ∈ l from hl)]
      exact ⟨h, hread, hh.trans (or_iff_right Bool.false_ne_true)⟩
    · rw [if_neg (show bytes.close ∉ l from hl)]
      exact hout hl

/-- What the matcher does with what it read of a bracket expression. -/
def afterBracket (neg literal : Bool) (rest : List UInt8 → Bool) :
    Option (Bool × List UInt8) → Bool
  | some (hit, r) => hit != neg && rest r
  | none => literal

/-- A bracket expression, closed or not. -/
theorem m_bracket (h : ∀ p t, p.length ≤ l.length → (m n p t = true ↔ Matches bytes p t)) :
    m (n + 1) (91 :: l) s = true ↔ Matches bytes (91 :: l) s := by
  have hm (c : UInt8) (t : List UInt8) : m (n + 1) (91 :: l) (c :: t) =
      afterBracket (negated bytes l).1 (c = 91 && m n l t) (m n · t)
        (bracket c true false (negated bytes l).2) := by
    rw [← match_negated]
    rfl
  have hnil : m (n + 1) (91 :: l) [] = false := rfl
  cases hclosed : closed bytes (negated bytes l).2 with
  | none =>
    have hopn : readItem bytes 91 l = (.lit 91, l) :=
      readItem_opn_none (by decide) (by decide) hclosed
    refine m_lit 91 (fun t ↦ h l t le_rfl) ?_ (fun c t ↦ ?_) hnil
    · rw [items_cons, hopn]
    · have hnone := bracket_closed (c := c) (l := (negated bytes l).2)
      rw [hclosed] at hnone
      rw [hm, hnone, afterBracket]
  | some cr =>
    obtain ⟨content, r⟩ := cr
    have hopn : readItem bytes 91 l = (.set (negated bytes l).1 content, r) :=
      readItem_opn_some (by decide) (by decide) hclosed
    have hr : r.length ≤ l.length :=
      (length_closed_lt bytes hclosed).le.trans (length_negated_le bytes l)
    rw [Matches, items_cons, hopn, splits_set]
    cases s with
    | nil =>
      refine iff_of_false Bool.false_ne_true ?_
      rintro ⟨_, _, hnil, -⟩
      cases hnil
    | cons c t =>
      have hsome := bracket_closed (c := c) (l := (negated bytes l).2)
      rw [hclosed] at hsome
      obtain ⟨hit, hread, hhit⟩ := hsome
      have hin : (hit != (negated bytes l).1) = true ↔
          (InSet bytes c content ↔ (negated bytes l).1 = false) := by
        rw [← hhit]
        cases hit <;> cases (negated bytes l).1 <;> decide
      rw [hm, hread, afterBracket]
      simp only [Bool.and_eq_true, hin, h r t hr]
      constructor
      · rintro ⟨hset, hrest⟩
        exact ⟨c, t, rfl, hset, hrest⟩
      · rintro ⟨_, _, ⟨⟩, hset, hrest⟩
        exact ⟨hset, hrest⟩

/-- **The matcher over bytes** does what the items of the pattern say. -/
theorem m_eq_true (hn : p.length < n) : m n p s = true ↔ Matches bytes p s := by
  induction n generalizing p s with
  | zero => exact absurd hn (Nat.not_lt_zero _)
  | succ n ih =>
    cases p with
    | nil =>
      rw [Matches, items, splits_nil]
      exact List.isEmpty_iff
    | cons x l =>
      rw [List.length_cons] at hn
      have hl : l.length < n := Nat.lt_of_succ_lt_succ hn
      by_cases hstar : x = 42
      · subst hstar
        have hread : items bytes (42 :: l) = .star :: items bytes l := items_cons
        have hrest : (l.dropWhile (· = 42)).length < n :=
          Nat.lt_of_le_of_lt (List.dropWhile_sublist (l := l) (· = 42)).length_le hl
        rw [Matches, hread, splits_collapsed, ← any_tails_eq_true fun t ↦ ih hrest]
        have hm : m (n + 1) (42 :: l) s = ((l.dropWhile (· = 42)).isEmpty ||
            s.tails.any (m n (l.dropWhile (· = 42)))) := rfl
        rw [hm, Bool.or_eq_true, List.isEmpty_iff]
        refine or_iff_right_of_imp fun hempty ↦ ?_
        rw [hempty] at hrest ⊢
        exact List.any_eq_true.mpr ⟨[], (List.mem_tails _ _).mpr List.nil_suffix,
          (ih hrest).mpr (by rw [Matches, items, splits_nil])⟩
      · by_cases hany : x = 63
        · subst hany
          have hread : items bytes (63 :: l) = .any :: items bytes l := items_cons
          rw [Matches, hread, splits_any]
          cases s with
          | nil =>
            refine iff_of_false Bool.false_ne_true ?_
            rintro ⟨_, _, hnil, -⟩
            cases hnil
          | cons c t =>
            have hm : m (n + 1) (63 :: l) (c :: t) = m n l t := rfl
            rw [hm, ih hl]
            constructor
            · intro h
              exact ⟨c, t, rfl, h⟩
            · rintro ⟨_, _, ⟨⟩, hv⟩
              exact hv
        · by_cases hopn : x = 91
          · subst hopn
            exact m_bracket fun p t hp ↦ ih (Nat.lt_of_le_of_lt hp hl)
          · by_cases hesc : x = 92
            · subst hesc
              cases l with
              | nil =>
                refine m_lit 92 (fun t ↦ ih hl) ?_ (fun c t ↦ ?_) ?_
                · exact items_cons
                · rw [m] <;> simp
                · rw [m] <;> simp
              | cons y l =>
                refine m_lit y (fun t ↦ ih (Nat.lt_of_succ_lt hl)) ?_ (fun c t ↦ ?_) ?_
                · exact items_cons
                · rw [m]
                · rw [m]
            · refine m_lit x (fun t ↦ ih hl) ?_ (fun c t ↦ ?_) ?_
              · have hread : readItem bytes x l = (.lit x, l) := readItem_lit hstar hany hopn hesc
                rw [items_cons, hread]
              · rw [m] <;> simp_all
              · rw [m] <;> simp_all

end Bytes

/-- The marks of a pattern in characters. -/
def chars : Marks Char := ⟨'*', '?', '[', ']', '!', '^', '-', '\\'⟩

/-- An item of characters, read as bytes. -/
def inBytes : Item Char → List (Item UInt8)
  | .star => [.star]
  | .any => [.any]
  | .set neg content => [.set neg (encode content)]
  | .lit c => (String.utf8EncodeChar c).map .lit

section Chars

variable {c x : Char} {l p s : List Char} {b : UInt8} {bs r : List UInt8} {neg : Bool}

theorem negated_encode :
    negated bytes (encode l) = ((negated chars l).1, encode (negated chars l).2) := by
  cases l with
  | nil => rfl
  | cons c l =>
    obtain ⟨b, bs, hbytes, -⟩ := exists_bytes c
    have hbang : b = bytes.bang ↔ c = chars.bang := head_eq_iff (k := '!') (by decide) hbytes
    have hcaret : b = bytes.caret ↔ c = chars.caret := head_eq_iff (k := '^') (by decide) hbytes
    rw [encode_cons, hbytes, List.cons_append, negated, negated]
    simp only [hbang, hcaret]
    split
    · rename_i h
      have hone : String.utf8EncodeChar c = [c.val.toUInt8] := by
        rcases h with rfl | rfl <;> rfl
      obtain ⟨-, rfl⟩ := List.cons.inj (hbytes.symm.trans hone)
      rfl
    · rw [encode_cons, hbytes, List.cons_append]

theorem closed_encode : closed bytes (encode l) =
    (closed chars l).map fun cr ↦ (encode cr.1, encode cr.2) := by
  cases l with
  | nil => rfl
  | cons c l =>
    obtain ⟨b, bs, hbytes, -⟩ := exists_bytes c
    have hk : IsAscii ']' := by decide
    have hclose : bytes.close = ']'.val.toUInt8 := rfl
    have hbs {b' : UInt8} (hb' : b' ∈ bs) : b' ≠ ']'.val.toUInt8 := by
      rintro rfl
      exact absurd (le_of_mem_tail hbytes hb') (by decide)
    have hmem : bytes.close ∈ bs ++ encode l ↔ chars.close ∈ l := by
      rw [hclose, List.mem_append, mem_encode hk]
      exact or_iff_right fun h ↦ hbs h rfl
    have htake := takeWhile_encode (l := l) hk
    have hdrop := dropWhile_encode (l := l) hk
    rw [encode_cons, hbytes, List.cons_append, closed, closed]
    by_cases h : chars.close ∈ l
    · have hne {b' : UInt8} (hb' : b' ∈ bs) : decide (b' ≠ bytes.close) = true :=
        decide_eq_true (hbs hb')
      rw [if_pos h, if_pos (hmem.mpr h), List.takeWhile_append_of_pos fun _ ↦ hne,
        List.dropWhile_append_of_pos fun _ ↦ hne]
      obtain ⟨u, v, rfl, hu⟩ := List.eq_append_cons_of_mem h
      have hrest : (u ++ chars.close :: v).dropWhile (· ≠ ']') = chars.close :: v := by
        rw [List.dropWhile_append_of_pos, List.dropWhile_cons_of_neg (by decide)]
        rintro d hd
        exact decide_eq_true fun heq ↦ hu (show ']' ∈ u from heq ▸ hd)
      rw [hrest] at hdrop
      refine congrArg some (Prod.ext ?_ ?_)
      · show b :: (bs ++ _) = encode (c :: _)
        rw [encode_cons, hbytes]
        exact congrArg (b :: bs ++ ·) htake
      · show List.tail _ = encode (List.tail _)
        exact (congrArg List.tail hdrop).trans (congrArg (fun r ↦ encode (List.tail r)) hrest.symm)
    · rw [if_neg h, if_neg (mt hmem.mp h)]
      rfl

/-- The letters of a byte that is no mark. -/
theorem items_append (h : ∀ b ∈ bs, 128 ≤ b.toNat) :
    items bytes (bs ++ r) = bs.map .lit ++ items bytes r := by
  induction bs with
  | nil => rfl
  | cons b bs ih =>
    have hb : 128 ≤ b.toNat := h b List.mem_cons_self
    have hne (k : UInt8) (hk : k.toNat < 128) : b ≠ k := by
      rintro rfl
      exact absurd hk (Nat.not_lt.mpr hb)
    have hread : readItem bytes b (bs ++ r) = (.lit b, bs ++ r) := by
      exact readItem_lit (hne 42 (by decide)) (hne 63 (by decide)) (hne 91 (by decide))
        (hne 92 (by decide))
    rw [List.cons_append, items_cons, hread, ih fun b' hb' ↦ h b' (List.mem_cons_of_mem b hb')]
    rfl

/-- The first item of a pattern, in bytes as in characters. -/
theorem items_encode_cons : items bytes (encode (x :: p)) =
    inBytes (readItem chars x p).1 ++ items bytes (encode (readItem chars x p).2) := by
  obtain ⟨b, bs, hbytes, -⟩ := exists_bytes x
  by_cases hx : IsAscii x
  · have hone := utf8EncodeChar_of_isAscii hx
    rw [encode_cons, hone, List.cons_append, List.nil_append, items_cons]
    by_cases hstar : x = '*'
    · subst hstar
      rfl
    by_cases hany : x = '?'
    · subst hany
      rfl
    by_cases hopn : x = '['
    · subst hopn
      have hneg := negated_encode (l := p)
      have hclosed := closed_encode (l := (negated chars p).2)
      cases h : closed chars (negated chars p).2 with
      | none =>
        rw [h] at hclosed
        have hchars : readItem chars '[' p = (.lit '[', p) :=
          readItem_opn_none (by decide) (by decide) h
        have hbytes : readItem bytes 91 (encode p) = (.lit 91, encode p) :=
          readItem_opn_none (by decide) (by decide) (by rw [hneg]; exact hclosed)
        rw [hchars, show '['.val.toUInt8 = 91 from rfl, hbytes]
        rfl
      | some cr =>
        obtain ⟨content, r⟩ := cr
        rw [h] at hclosed
        have hchars : readItem chars '[' p = (.set (negated chars p).1 content, r) :=
          readItem_opn_some (by decide) (by decide) h
        have hbytes : readItem bytes 91 (encode p) =
            (.set (negated bytes (encode p)).1 (encode content), encode r) :=
          readItem_opn_some (by decide) (by decide) (by rw [hneg]; exact hclosed)
        rw [hchars, show '['.val.toUInt8 = 91 from rfl, hbytes, hneg]
        rfl
    by_cases hesc : x = '\\'
    · subst hesc
      cases p with
      | nil => rfl
      | cons c p =>
        obtain ⟨b, bs, hbytes, -⟩ := exists_bytes c
        have hread : readItem chars '\\' (c :: p) = (.lit c, p) := rfl
        have hreadBytes : readItem bytes 92 (b :: (bs ++ encode p)) = (.lit b, bs ++ encode p) :=
          rfl
        rw [hread, encode_cons, hbytes, List.cons_append, show '\\'.val.toUInt8 = 92 from rfl,
          hreadBytes, items_append fun b' ↦ le_of_mem_tail hbytes, inBytes, hbytes]
        rfl
    have hne (k : Char) (hk : IsAscii k) (h : x ≠ k) : x.val.toUInt8 ≠ k.val.toUInt8 :=
      mt (toUInt8_inj hx hk) h
    have hbytes : readItem bytes x.val.toUInt8 (encode p) = (.lit x.val.toUInt8, encode p) :=
      readItem_lit (hne '*' (by decide) hstar) (hne '?' (by decide) hany) (hne '[' (by decide) hopn)
        (hne '\\' (by decide) hesc)
    have hchars : readItem chars x p = (.lit x, p) := readItem_lit hstar hany hopn hesc
    rw [hbytes, hchars, inBytes, hone]
    rfl
  · have hread : readItem chars x p = (.lit x, p) := by
      have hne (k : Char) (hk : IsAscii k) : x ≠ k := fun h ↦ hx (h ▸ hk)
      exact readItem_lit (hne '*' (by decide)) (hne '?' (by decide)) (hne '[' (by decide))
        (hne '\\' (by decide))
    rw [hread, encode_cons, items_append fun b hb ↦ le_of_mem_utf8EncodeChar hx hb]
    rfl

theorem items_encode : items bytes (encode p) = (items chars p).flatMap inBytes := by
  induction p using items.induct chars with
  | case1 => 
    rw [encode_nil, items, items]
    rfl
  | case2 x p ih =>
    rw [items_encode_cons, ih, items, List.flatMap_cons]

/-- The item takes `c` for one byte, if it takes it. -/
def OneByte (c : Char) : Item Char → Prop
  | .any => IsAscii c
  | .set neg content => (∀ d ∈ content, IsAscii d) ∧ (neg = true → IsAscii c)
  | _ => True

/-- Wherever the items before `x` match a beginning of the text, `x` takes the character that comes
next for one byte. -/
def Fits (l : List (Item Char)) (s : List Char) : Prop :=
  ∀ q x p u c v, l = q ++ x :: p → s = u ++ c :: v → Splits chars q u → OneByte c x

variable {i : Item Char} {q : List (Item Char)}

theorem Fits.tail {u v : List Char} (h : Fits (i :: q) (u ++ v)) (hu : i.Takes chars u) :
    Fits q v := by
  rintro q' x p u' c v' rfl rfl hsplits
  refine h (i :: q') x p (u ++ u') c v' rfl (List.append_assoc u u' _).symm ?_
  exact splits_cons.mpr ⟨u, u', rfl, hu, hsplits⟩

theorem Fits.head (h : Fits (i :: q) (c :: s)) : OneByte c i :=
  h [] i q [] c s rfl rfl (splits_nil.mpr rfl)

theorem fits_of_oneByte (h : ∀ i ∈ q, ∀ c ∈ s, OneByte c i) : Fits q s := by
  rintro q' x p u c v rfl rfl -
  exact h x (List.mem_append_right q' List.mem_cons_self) c
    (List.mem_append_right u List.mem_cons_self)

instance : DecidablePred (OneByte c)
  | .star => .isTrue trivial
  | .any => inferInstanceAs (Decidable (IsAscii c))
  | .set neg content =>
    inferInstanceAs (Decidable ((∀ d ∈ content, IsAscii d) ∧ (neg = true → IsAscii c)))
  | .lit _ => .isTrue trivial

/-- After a star, any of the text may come next. -/
theorem Fits.after_star (h : Fits (.star :: i :: q) s) (hc : c ∈ s) : OneByte c i := by
  obtain ⟨u, v, rfl⟩ := List.append_of_mem hc
  exact h [.star] i q u c v rfl rfl (splits_star.mpr ⟨u, [], (List.append_nil u).symm,
    splits_nil.mpr rfl⟩)

theorem encode_eq_map {content : List Char} (hcontent : ∀ d ∈ content, IsAscii d) :
    encode content = content.map fun d ↦ d.val.toUInt8 := by
  rw [encode, List.map_eq_flatMap]
  exact List.flatMap_congr fun d hd ↦ utf8EncodeChar_of_isAscii (hcontent d hd)

/-- No byte of another character is in brackets. -/
theorem not_inSet_encode {content : List Char} (hcontent : ∀ d ∈ content, IsAscii d)
    (hb : 128 ≤ b.toNat) : ¬ InSet bytes b (encode content) := by
  intro h
  obtain ⟨x, hx, hle⟩ := exists_of_inSet h
  rw [encode_eq_map hcontent] at hx
  obtain ⟨d, hd, rfl⟩ := List.mem_map.mp hx
  have hlt : d.val.toUInt8.toNat < 128 := by
    rw [toNat_toUInt8_of_isAscii (hcontent d hd)]
    exact hcontent d hd
  rcases hle with rfl | hle
  · exact absurd hb (Nat.not_le.mpr hlt)
  · exact absurd (hb.trans (UInt8.le_iff_toNat_le.mp hle)) (Nat.not_le.mpr hlt)

/-- Brackets tell of a character what they tell of the byte it begins with. -/
theorem inSet_encode {content : List Char} (hcontent : ∀ d ∈ content, IsAscii d)
    (hbytes : String.utf8EncodeChar c = b :: bs) :
    InSet bytes b (encode content) ↔ InSet chars c content := by
  by_cases hc : IsAscii c
  · rw [utf8EncodeChar_of_isAscii hc, List.cons.injEq] at hbytes
    rw [← hbytes.1, encode_eq_map hcontent]
    exact inSet_map (f := fun d : Char ↦ d.val.toUInt8) (Q := IsAscii) rfl (by decide) toUInt8_inj
      toUInt8_le hc hcontent
  · have hb : 128 ≤ b.toNat := le_of_mem_utf8EncodeChar hc (hbytes ▸ List.mem_cons_self)
    refine iff_of_false (not_inSet_encode hcontent hb) fun h ↦ ?_
    obtain ⟨d, hd, hle⟩ := exists_of_inSet h
    rcases hle with rfl | hle
    · exact hc (hcontent c hd)
    · exact hc (Nat.lt_of_le_of_lt (UInt32.le_iff_toNat_le.mp hle) (hcontent d hd))

/-- A text in bytes is cut where a character begins, or within a character that no item takes for a
byte. -/
theorem exists_of_cut {y z : List UInt8} (h : encode s = y ++ z) :
    (∃ u v, s = u ++ v ∧ y = encode u ∧ z = encode v) ∨
      ∃ b r c, z = b :: r ∧ c ∈ s ∧ ¬ IsAscii c ∧ 128 ≤ b.toNat ∧ ¬ b.IsUTF8FirstByte := by
  cases z with
  | nil =>
    rw [List.append_nil] at h
    exact Or.inl ⟨s, [], (List.append_nil s).symm, h.symm, rfl⟩
  | cons b r =>
    by_cases hb : b.IsUTF8FirstByte
    · exact Or.inl (exists_of_encode_eq_append h fun b' hb' ↦ by cases hb'; exact hb)
    · right
      have hmem : b ∈ encode s := h ▸ List.mem_append_right y List.mem_cons_self
      obtain ⟨c, hc, hbc⟩ := List.mem_flatMap.mp hmem
      have hascii : ¬ IsAscii c := by
        intro hascii
        obtain ⟨b', bs, hbytes, hfirst, -⟩ := exists_bytes c
        rw [utf8EncodeChar_of_isAscii hascii] at hbytes hbc
        obtain ⟨rfl, -⟩ := List.cons.inj hbytes
        exact hb (List.mem_singleton.mp hbc ▸ hfirst)
      exact ⟨b, r, c, rfl, hc, hascii, le_of_mem_utf8EncodeChar hascii hbc, hb⟩

/-- No item goes on within a character. -/
theorem not_splits_within {i : Item Char} (hi : i ≠ .star) (hbyte : OneByte c i) (hc : ¬ IsAscii c)
    (hb : 128 ≤ b.toNat) (hfirst : ¬ b.IsUTF8FirstByte) {l : List (Item UInt8)} :
    ¬ Splits bytes (inBytes i ++ l) (b :: r) := by
  intro h
  cases i with
  | star => exact hi rfl
  | any => exact hc hbyte
  | set neg content =>
    obtain ⟨hcontent, hneg⟩ := hbyte
    obtain ⟨b', v, hv, hset, -⟩ := splits_set.mp h
    obtain ⟨rfl, -⟩ := List.cons.inj hv
    cases neg with
    | false => exact not_inSet_encode hcontent hb (hset.mpr rfl)
    | true => exact hc (hneg rfl)
  | lit d =>
    obtain ⟨b', bs, hbytes, hfirst', -⟩ := exists_bytes d
    obtain ⟨v, hv, -⟩ := splits_map_lit.mp h
    rw [hbytes, List.cons_append] at hv
    exact hfirst ((List.cons.inj hv).1 ▸ hfirst')

/-- **Where the items take their characters for single bytes**, the pieces of the bytes are the
pieces of the text. -/
theorem splits_encode (h : Fits q s) :
    Splits bytes (q.flatMap inBytes) (encode s) ↔ Splits chars q s := by
  induction q generalizing s with
  | nil => rw [List.flatMap_nil, splits_nil, splits_nil, encode_eq_nil]
  | cons i q ih =>
    rw [List.flatMap_cons]
    cases i with
    | star =>
      have hstar : Splits bytes (inBytes .star ++ q.flatMap inBytes) (encode s) ↔
          ∃ y z, encode s = y ++ z ∧ Splits bytes (q.flatMap inBytes) z := splits_star
      rw [hstar, splits_star]
      constructor
      · rintro ⟨y, z, hcut, hz⟩
        rcases exists_of_cut hcut with
          ⟨u, v, rfl, rfl, rfl⟩ | ⟨b, r, c, rfl, hc, hascii, hb, hfirst⟩
        · exact ⟨u, v, rfl, (ih (h.tail trivial)).mp hz⟩
        · cases q with
          | nil => exact absurd (splits_nil.mp hz) (List.cons_ne_nil b r)
          | cons j q =>
            rw [List.flatMap_cons] at hz
            by_cases hj : j = .star
            · subst hj
              obtain ⟨y', z', hz', hrest⟩ := splits_star.mp hz
              have hwhole : encode s = y ++ y' ++ z' := by
                rw [hcut, hz', List.append_assoc]
              have hs : Fits (.star :: q) s := h.tail (u := []) trivial
              exact ⟨[], s, rfl, (ih hs).mp (splits_star.mpr ⟨y ++ y', z', hwhole, hrest⟩)⟩
            · exact absurd hz (not_splits_within hj (h.after_star hc) hascii hb hfirst)
      · rintro ⟨u, v, rfl, hv⟩
        exact ⟨encode u, encode v, encode_append, (ih (h.tail trivial)).mpr hv⟩
    | any =>
      have hany : Splits bytes (inBytes .any ++ q.flatMap inBytes) (encode s) ↔
          ∃ b r, encode s = b :: r ∧ Splits bytes (q.flatMap inBytes) r := splits_any
      rw [hany, splits_any]
      cases s with
      | nil =>
        refine iff_of_false ?_ ?_
        · rintro ⟨_, _, h, -⟩
          cases h
        · rintro ⟨_, _, h, -⟩
          cases h
      | cons c s =>
        have hascii : IsAscii c := h.head
        have hrest := ih (h.tail (u := [c]) ⟨c, rfl⟩)
        rw [encode_cons, utf8EncodeChar_of_isAscii hascii]
        constructor
        · rintro ⟨b, r, ⟨⟩, hr⟩
          exact ⟨c, s, rfl, hrest.mp hr⟩
        · rintro ⟨_, _, ⟨⟩, hv⟩
          exact ⟨_, _, rfl, hrest.mpr hv⟩
    | set neg content =>
      have hset : Splits bytes (inBytes (.set neg content) ++ q.flatMap inBytes) (encode s) ↔
          ∃ b r, encode s = b :: r ∧ (InSet bytes b (encode content) ↔ neg = false) ∧
            Splits bytes (q.flatMap inBytes) r := splits_set
      rw [hset, splits_set]
      cases s with
      | nil =>
        refine iff_of_false ?_ ?_
        · rintro ⟨_, _, h, -⟩
          cases h
        · rintro ⟨_, _, h, -⟩
          cases h
      | cons c s =>
        obtain ⟨hcontent, hneg⟩ : OneByte c (.set neg content) := h.head
        obtain ⟨b, bs, hbytes, -⟩ := exists_bytes c
        have hin := inSet_encode hcontent hbytes
        rw [encode_cons, hbytes, List.cons_append]
        by_cases htake : InSet chars c content ↔ neg = false
        · have hascii : IsAscii c := by
            by_contra hc
            have hb : 128 ≤ b.toNat := le_of_mem_utf8EncodeChar hc (hbytes ▸ List.mem_cons_self)
            cases neg with
            | false => exact not_inSet_encode hcontent hb (hin.mpr (htake.mpr rfl))
            | true => exact hc (hneg rfl)
          rw [utf8EncodeChar_of_isAscii hascii, List.cons.injEq] at hbytes
          have hrest := ih (h.tail (u := [c]) ⟨c, rfl, htake⟩)
          rw [← hbytes.2, List.nil_append]
          constructor
          · rintro ⟨_, r, ⟨⟩, -, hr⟩
            exact ⟨c, s, rfl, htake, hrest.mp hr⟩
          · rintro ⟨_, v, ⟨⟩, -, hv⟩
            exact ⟨b, encode s, rfl, hin.trans htake, hrest.mpr hv⟩
        · refine iff_of_false ?_ ?_
          · rintro ⟨_, r, ⟨⟩, hset, -⟩
            exact htake (hin.symm.trans hset)
          · rintro ⟨_, v, ⟨⟩, hset, -⟩
            exact htake hset
    | lit d =>
      have hlit : Splits bytes (inBytes (.lit d) ++ q.flatMap inBytes) (encode s) ↔
          ∃ r, encode s = String.utf8EncodeChar d ++ r ∧ Splits bytes (q.flatMap inBytes) r :=
        splits_map_lit
      rw [hlit, splits_lit]
      constructor
      · rintro ⟨r, hr, hrest⟩
        cases s with
        | nil => exact absurd (List.append_eq_nil_iff.mp hr.symm).1 String.utf8EncodeChar_ne_nil
        | cons c s =>
          obtain ⟨rfl, rfl⟩ := char_inj hr
          exact ⟨s, rfl, (ih (h.tail (u := [c]) rfl)).mp hrest⟩
      · rintro ⟨v, rfl, hv⟩
        exact ⟨encode v, encode_cons, (ih (h.tail (u := [d]) rfl)).mpr hv⟩

end Chars

/-- The matcher goes by the items of the bytes. -/
theorem caseMatch_bytes (pat path : String) :
    caseMatch pat path = true ↔ Matches bytes (asBytes pat) (asBytes path) :=
  m_eq_true (Nat.lt_succ_self _)

end Spira.Suites
