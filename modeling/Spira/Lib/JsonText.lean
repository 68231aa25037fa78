import Mathlib.Data.List.Basic
import Mathlib.Data.String.Basic

/-!
# JSON texts

The values that texts stand for, and `read`, which answers the value of a text or that it has none.
A number is kept as its text.

`Reads` says that a text is read as a value wherever a value may end; `reads_obj` puts it together
for an object from its members, and `read_obj_of_refused` says that an object with a member that is
refused is refused.
-/

set_option autoImplicit false

namespace JsonText

inductive Value
  | null
  | bool (b : Bool)
  | num (text : List Char)
  | str (s : List Char)
  | arr (items : List Value)
  | obj (members : List (List Char × Value))

/-! ## Reading -/

def isBlank (c : Char) : Bool := c = ' ' || c = '\t' || c = '\n' || c = '\r'

def skip (text : List Char) : List Char := text.dropWhile isBlank

def hexValue (c : Char) : Option ℕ :=
  if '0' ≤ c ∧ c ≤ '9' then some (c.toNat - '0'.toNat)
  else if 'a' ≤ c ∧ c ≤ 'f' then some (c.toNat - 'a'.toNat + 10)
  else if 'A' ≤ c ∧ c ≤ 'F' then some (c.toNat - 'A'.toNat + 10)
  else none

/-- The code unit of four hexadecimal digits. -/
def unit (a b c d : Char) : Option ℕ := do
  return (((← hexValue a) * 16 + (← hexValue b)) * 16 + (← hexValue c)) * 16 + (← hexValue d)

/-- What a backslash makes of the character after it. -/
def unescape (c : Char) : Option Char :=
  if c = '"' ∨ c = '\\' ∨ c = '/' then some c
  else if c = 'b' then some '\x08'
  else if c = 'f' then some '\x0c'
  else if c = 'n' then some '\n'
  else if c = 'r' then some '\r'
  else if c = 't' then some '\t'
  else none

/-- The characters of a string up to its closing quote, and what follows it. -/
def chars : List Char → Option (List Char × List Char)
  | [] => none
  | c :: rest =>
    if c = '"' then some ([], rest)
    else if c.toNat < 32 then none
    else if c ≠ '\\' then (chars rest).map fun r ↦ (c :: r.1, r.2)
    else
      match rest with
      | [] => none
      | 'u' :: a :: b :: c :: d :: rest =>
        match unit a b c d with
        | none => none
        | some n =>
          if n < 0xd800 ∨ 0xe000 ≤ n then (chars rest).map fun r ↦ (Char.ofNat n :: r.1, r.2)
          else
            -- The first half of a pair, and the second.
            match rest with
            | '\\' :: 'u' :: a :: b :: c :: d :: rest =>
              match unit a b c d with
              | none => none
              | some m =>
                if n < 0xdc00 ∧ 0xdc00 ≤ m ∧ m < 0xe000 then
                  (chars rest).map fun r ↦
                    (Char.ofNat (0x10000 + (n - 0xd800) * 0x400 + (m - 0xdc00)) :: r.1, r.2)
                else none
            | _ => none
      | c :: rest => (unescape c).bind fun d ↦ (chars rest).map fun r ↦ (d :: r.1, r.2)

/-- Digits, one at least, and what follows them. -/
def digits (text : List Char) : Option (List Char × List Char) :=
  let d := text.takeWhile Char.isDigit
  if d = [] then none else some (d, text.dropWhile Char.isDigit)

/-- The whole part of a number: no zero stands before another digit. -/
def whole : List Char → Option (List Char × List Char)
  | '0' :: rest => some (['0'], rest)
  | text => digits text

def fraction : List Char → Option (List Char × List Char)
  | '.' :: rest => (digits rest).map fun r ↦ ('.' :: r.1, r.2)
  | text => some ([], text)

def exponent : List Char → Option (List Char × List Char)
  | [] => some ([], [])
  | e :: rest =>
    if e = 'e' ∨ e = 'E' then
      match rest with
      | '+' :: rest => (digits rest).map fun r ↦ (e :: '+' :: r.1, r.2)
      | '-' :: rest => (digits rest).map fun r ↦ (e :: '-' :: r.1, r.2)
      | rest => (digits rest).map fun r ↦ (e :: r.1, r.2)
    else some ([], e :: rest)

def unsigned (text : List Char) : Option (List Char × List Char) :=
  (whole text).bind fun w ↦ (fraction w.2).bind fun f ↦ (exponent f.2).map fun e ↦
    (w.1 ++ f.1 ++ e.1, e.2)

def number : List Char → Option (List Char × List Char)
  | '-' :: rest => (unsigned rest).map fun r ↦ ('-' :: r.1, r.2)
  | text => unsigned text

mutual

/-- The value that a text begins with, and the rest of it. -/
def value : (fuel : ℕ) → List Char → Option (Value × List Char)
  | 0, _ => none
  | fuel + 1, text =>
    match skip text with
    | 'n' :: 'u' :: 'l' :: 'l' :: rest => some (.null, rest)
    | 't' :: 'r' :: 'u' :: 'e' :: rest => some (.bool true, rest)
    | 'f' :: 'a' :: 'l' :: 's' :: 'e' :: rest => some (.bool false, rest)
    | '"' :: rest => (chars rest).map fun r ↦ (.str r.1, r.2)
    | '[' :: rest =>
      if (skip rest).head? = some ']' then some (.arr [], (skip rest).tail)
      else (items fuel rest).map fun r ↦ (.arr r.1, r.2)
    | '\x7b' :: rest =>
      if (skip rest).head? = some '\x7d' then some (.obj [], (skip rest).tail)
      else (members fuel rest).map fun r ↦ (.obj r.1, r.2)
    | text => (number text).map fun r ↦ (.num r.1, r.2)

/-- The items from here on, one at least, to the end of their array. -/
def items : (fuel : ℕ) → List Char → Option (List Value × List Char)
  | 0, _ => none
  | fuel + 1, text =>
    (value fuel text).bind fun r ↦
      match skip r.2 with
      | ',' :: rest => (items fuel rest).map fun s ↦ (r.1 :: s.1, s.2)
      | ']' :: rest => some ([r.1], rest)
      | _ => none

/-- The members from here on, one at least, to the end of their object. -/
def members : (fuel : ℕ) → List Char → Option (List (List Char × Value) × List Char)
  | 0, _ => none
  | fuel + 1, text =>
    match skip text with
    | '"' :: text =>
      (chars text).bind fun k ↦
        match skip k.2 with
        | ':' :: text =>
          (value fuel text).bind fun r ↦
            match skip r.2 with
            | ',' :: rest => (members fuel rest).map fun s ↦ ((k.1, r.1) :: s.1, s.2)
            | '\x7d' :: rest => some ([(k.1, r.1)], rest)
            | _ => none
        | _ => none
    | _ => none

end

/-- The value of a text. -/
def read (text : List Char) : Option Value :=
  (value (text.length + 1) text).bind fun r ↦ if skip r.2 = [] then some r.1 else none


/-! ## What strings are read as -/

/-- Text that is read as characters of a string, wherever it stands in it. -/
def ReadsChars (text s : List Char) : Prop :=
  ∀ rest, chars (text ++ rest) = (chars rest).map fun r ↦ (s ++ r.1, r.2)

theorem readsChars_nil : ReadsChars [] [] := by
  intro rest
  rw [List.nil_append]
  obtain h | ⟨r, h⟩ := (chars rest).eq_none_or_eq_some <;> rw [h] <;> rfl

theorem ReadsChars.append {text text' s s' : List Char} (h : ReadsChars text s)
    (h' : ReadsChars text' s') : ReadsChars (text ++ text') (s ++ s') := by
  intro rest
  rw [List.append_assoc, h, h', Option.map_map]
  simp only [Function.comp_def, List.append_assoc]

/-- Characters written one by one. -/
theorem readsChars_flatMap {f : Char → List Char} {s : List Char}
    (h : ∀ c ∈ s, ReadsChars (f c) [c]) : ReadsChars (s.flatMap f) s := by
  induction s with
  | nil => exact readsChars_nil
  | cons c s ih =>
    rw [List.flatMap_cons]
    exact (h c List.mem_cons_self).append (ih fun d hd ↦ h d (List.mem_cons_of_mem c hd))

theorem chars_cons {c : Char} (hback : c ≠ '\\') (rest : List Char) :
    chars (c :: rest) = if c = '"' then some ([], rest) else if c.toNat < 32 then none
      else (chars rest).map fun r ↦ (c :: r.1, r.2) := by
  rw [chars.eq_def]
  dsimp only
  rw [if_pos hback]

/-- A character that stands for itself. -/
theorem readsChars_self {c : Char} (hquote : c ≠ '"') (hback : c ≠ '\\') (hc : 32 ≤ c.toNat) :
    ReadsChars [c] [c] := by
  intro rest
  rw [List.singleton_append, chars_cons hback, if_neg hquote, if_neg (by omega)]
  rfl

/-- A character that is written with a backslash. -/
theorem readsChars_unescape {c d : Char} (hu : c ≠ 'u') (h : unescape c = some d) :
    ReadsChars ['\\', c] [d] := by
  intro rest
  have hquote : '\\' ≠ '"' := by decide
  have hnot : ¬ ('\\' : Char).toNat < 32 := by decide
  rw [List.cons_append, List.singleton_append, chars, if_neg hquote, if_neg hnot,
    if_neg (not_not_intro rfl)]
  · rw [h]
    rfl
  · exact fun _ _ _ _ _ h _ ↦ hu h

/-- Characters that all stand for themselves. -/
theorem readsChars_plain {s : List Char}
    (h : ∀ c ∈ s, c ≠ '"' ∧ c ≠ '\\' ∧ 32 ≤ c.toNat) : ReadsChars s s := by
  have hflat := readsChars_flatMap (f := fun c ↦ [c]) fun c hc ↦
    readsChars_self (h c hc).1 (h c hc).2.1 (h c hc).2.2
  rwa [List.flatMap_singleton'] at hflat

/-- A control character ends the reading, whatever stands before it. -/
theorem chars_control {text s : List Char} {c : Char} (h : ReadsChars text s)
    (hc : c.toNat < 32) (rest : List Char) : chars (text ++ c :: rest) = none := by
  have hquote : c ≠ '"' := by
    rintro rfl
    exact absurd hc (by decide)
  have hback : c ≠ '\\' := by
    rintro rfl
    exact absurd hc (by decide)
  have hnone : chars (c :: rest) = none := by
    rw [chars_cons hback, if_neg hquote, if_pos hc]
  rw [h, hnone]
  rfl

/-! ## What texts are read as -/

/-- A value may end before this. -/
def Closed (rest : List Char) : Prop :=
  ∃ c t, rest = c :: t ∧ (c = ',' ∨ c = ']' ∨ c = '\x7d')

/-- The text is read as a value wherever one may end. -/
def Reads (text : List Char) (v : Value) : Prop :=
  ∀ fuel rest, text.length < fuel → Closed rest → value fuel (text ++ rest) = some (v, rest)

/-- The text, and whatever follows it, begins no value. -/
def Refused (text : List Char) : Prop := ∀ fuel rest, value fuel (text ++ rest) = none

def strText (text : List Char) : List Char := '"' :: text ++ ['"']

theorem value_quote (fuel : ℕ) (rest : List Char) :
    value (fuel + 1) ('"' :: rest) = (chars rest).map fun r ↦ (.str r.1, r.2) := rfl

theorem chars_quote (rest : List Char) : chars ('"' :: rest) = some ([], rest) :=
  (chars_cons (by decide) rest).trans (if_pos rfl)

theorem reads_str {text s : List Char} (h : ReadsChars text s) : Reads (strText text) (.str s) := by
  intro fuel rest hfuel _
  obtain ⟨fuel, rfl⟩ := Nat.exists_eq_add_one_of_ne_zero (Nat.ne_zero_of_lt hfuel)
  rw [strText, List.append_assoc, List.cons_append, List.singleton_append, value_quote, h,
    chars_quote, Option.map_some, Option.map_some, List.append_nil]

/-- A string with a control character in it begins no value. -/
theorem refused_str {text s : List Char} {c : Char} (h : ReadsChars text s) (hc : c.toNat < 32)
    (post : List Char) : Refused ('"' :: text ++ c :: post) := by
  intro fuel rest
  cases fuel with
  | zero => rfl
  | succ fuel =>
    rw [List.cons_append, List.cons_append, value_quote, List.append_assoc, List.cons_append,
      chars_control h hc]
    rfl

theorem skip_closed {rest : List Char} (h : Closed rest) : skip rest = rest := by
  obtain ⟨c, t, rfl, rfl | rfl | rfl⟩ := h <;> rfl

theorem closed_comma (rest : List Char) : Closed (',' :: rest) := ⟨',', rest, rfl, .inl rfl⟩

theorem closed_brace (rest : List Char) : Closed ('\x7d' :: rest) :=
  ⟨'\x7d', rest, rfl, .inr (.inr rfl)⟩

theorem closed_bracket (rest : List Char) : Closed (']' :: rest) :=
  ⟨']', rest, rfl, .inr (.inl rfl)⟩

/-! ## Numbers -/

/-- Digits with no zero before another, and perhaps a fraction. -/
def IsDecimal (text : List Char) : Prop :=
  ∃ w f, text = w ++ f ∧ (w = ['0'] ∨ w ≠ [] ∧ w.all Char.isDigit ∧ w.head? ≠ some '0') ∧
    (f = [] ∨ ∃ d, f = '.' :: d ∧ d ≠ [] ∧ d.all Char.isDigit)

/-- What does not go on with a number's digits. -/
def Stops (rest : List Char) : Prop := ∀ c t, rest = c :: t → c.isDigit = false

theorem digits_append {d rest : List Char} (hne : d ≠ []) (hd : d.all Char.isDigit = true)
    (hrest : Stops rest) : digits (d ++ rest) = some (d, rest) := by
  have hall : ∀ c ∈ d, c.isDigit = true := List.all_eq_true.mp hd
  have hends : rest.takeWhile Char.isDigit = [] ∧ rest.dropWhile Char.isDigit = rest := by
    cases rest with
    | nil => exact ⟨rfl, rfl⟩
    | cons c t =>
      have hc := hrest c t rfl
      rw [List.takeWhile_cons, List.dropWhile_cons, hc]
      exact ⟨rfl, rfl⟩
  rw [digits, List.takeWhile_append_of_pos hall, List.dropWhile_append_of_pos hall, hends.1,
    hends.2, List.append_nil]
  exact if_neg hne

theorem stops_closed {rest : List Char} (h : Closed rest) : Stops rest := by
  obtain ⟨c, t, rfl, rfl | rfl | rfl⟩ := h
  all_goals
    rintro c t ⟨⟩
    rfl

theorem whole_append {w rest : List Char}
    (hw : w = ['0'] ∨ w ≠ [] ∧ w.all Char.isDigit ∧ w.head? ≠ some '0') (hrest : Stops rest) :
    whole (w ++ rest) = some (w, rest) := by
  obtain rfl | ⟨hne, hd, hzero⟩ := hw
  · rfl
  · rw [whole.eq_def]
    split
    · rename_i heq
      obtain ⟨c, w, rfl⟩ := List.exists_cons_of_ne_nil hne
      rw [List.cons_append, List.cons.injEq] at heq
      exact absurd (congrArg some heq.1) hzero
    · exact digits_append hne hd hrest

theorem exponent_closed {rest : List Char} (h : Closed rest) : exponent rest = some ([], rest) := by
  obtain ⟨c, t, rfl, rfl | rfl | rfl⟩ := h <;> rfl

theorem fraction_append {f rest : List Char}
    (hf : f = [] ∨ ∃ d, f = '.' :: d ∧ d ≠ [] ∧ d.all Char.isDigit) (hrest : Closed rest) :
    fraction (f ++ rest) = some (f, rest) ∧ Stops (f ++ rest) := by
  obtain rfl | ⟨d, rfl, hne, hd⟩ := hf
  · refine ⟨?_, stops_closed hrest⟩
    obtain ⟨c, t, rfl, rfl | rfl | rfl⟩ := hrest <;> rfl
  · refine ⟨?_, ?_⟩
    · rw [List.cons_append, fraction, digits_append hne hd (stops_closed hrest)]
      rfl
    · rintro c t ⟨⟩
      rfl

theorem unsigned_append {text rest : List Char} (h : IsDecimal text) (hrest : Closed rest) :
    unsigned (text ++ rest) = some (text, rest) := by
  obtain ⟨w, f, rfl, hw, hf⟩ := h
  obtain ⟨hfraction, hstops⟩ := fraction_append hf hrest
  rw [unsigned, List.append_assoc, whole_append hw hstops, Option.bind_some, hfraction,
    Option.bind_some, exponent_closed hrest, Option.map_some, List.append_nil]

/-- The first character of a decimal is a digit. -/
theorem IsDecimal.head {text : List Char} (h : IsDecimal text) :
    ∃ c t, text = c :: t ∧ c.isDigit = true := by
  obtain ⟨w, f, rfl, rfl | ⟨hne, hd, -⟩, -⟩ := h
  · exact ⟨'0', f, rfl, rfl⟩
  · obtain ⟨c, w, rfl⟩ := List.exists_cons_of_ne_nil hne
    exact ⟨c, w ++ f, rfl, List.all_eq_true.mp hd c List.mem_cons_self⟩

theorem value_digit {c : Char} (h : c.isDigit = true) (fuel : ℕ) (rest : List Char) :
    value (fuel + 1) (c :: rest) = (number (c :: rest)).map fun r ↦ (.num r.1, r.2) := by
  have hne {d : Char} (hd : d.isDigit = false) : c ≠ d := by
    rintro rfl
    exact Bool.false_ne_true (hd.symm.trans h)
  have hblank : isBlank c = false := by
    rw [isBlank, decide_eq_false (hne rfl), decide_eq_false (hne rfl), decide_eq_false (hne rfl),
      decide_eq_false (hne rfl)]
    rfl
  have hskip : skip (c :: rest) = c :: rest := by
    rw [skip, List.dropWhile_cons, hblank]
    rfl
  rw [value, hskip]
  split
  case h_7 => rfl
  all_goals
    rename_i heq
    exact absurd (List.cons.inj heq).1 (hne rfl)

theorem reads_num {text : List Char} (h : IsDecimal text) : Reads text (.num text) := by
  intro fuel rest hfuel hrest
  obtain ⟨fuel, rfl⟩ := Nat.exists_eq_add_one_of_ne_zero (Nat.ne_zero_of_lt hfuel)
  obtain ⟨c, t, htext, hc⟩ := h.head
  have hnumber : number (text ++ rest) = unsigned (text ++ rest) := by
    rw [htext, List.cons_append, number.eq_def]
    split
    · rename_i heq
      rw [(List.cons.inj heq).1] at hc
      exact absurd hc (by decide)
    · rfl
  have hvalue : value (fuel + 1) (text ++ rest) =
      (number (text ++ rest)).map fun r ↦ (.num r.1, r.2) := by
    rw [htext, List.cons_append]
    exact value_digit hc fuel (t ++ rest)
  rw [hvalue, hnumber, unsigned_append h hrest]
  rfl


/-! ## Arrays and objects -/

/-- The items from here on, and the end of their array. -/
def itemsText : List (List Char) → List Char
  | [] => [']']
  | [text] => text ++ [']']
  | text :: texts => text ++ ',' :: itemsText texts

theorem itemsText_cons_cons (text next : List Char) (texts : List (List Char)) :
    itemsText (text :: next :: texts) = text ++ ',' :: itemsText (next :: texts) := rfl

def memberText (m : List Char × List Char) : List Char := strText m.1 ++ ':' :: m.2

/-- The members from here on, and the end of their object. -/
def membersText : List (List Char × List Char) → List Char
  | [] => ['\x7d']
  | [m] => memberText m ++ ['\x7d']
  | m :: ms => memberText m ++ ',' :: membersText ms

theorem membersText_cons_cons (m n : List Char × List Char) (ms : List (List Char × List Char)) :
    membersText (m :: n :: ms) = memberText m ++ ',' :: membersText (n :: ms) := rfl

/-- A text that a value can begin with: no blank, and no end of what is around it. -/
def Opens (text : List Char) : Prop :=
  ∃ c t, text = c :: t ∧ isBlank c = false ∧ c ≠ ']' ∧ c ≠ '\x7d'

theorem opens_str (text : List Char) : Opens (strText text) :=
  ⟨'"', text ++ ['"'], rfl, rfl, by decide, by decide⟩

theorem items_text : ∀ {texts : List (List Char)} {vs : List Value}, texts ≠ [] →
    List.Forall₂ Reads texts vs → ∀ (fuel : ℕ) (rest : List Char),
      (itemsText texts).length < fuel → items fuel (itemsText texts ++ rest) = some (vs, rest)
  | [], _, hne, _, _, _, _ => absurd rfl hne
  | [text], _, _, .cons (b := v) hread .nil, fuel, rest, hfuel => by
    obtain ⟨fuel, rfl⟩ := Nat.exists_eq_add_one_of_ne_zero (Nat.ne_zero_of_lt hfuel)
    rw [itemsText, List.length_append] at hfuel
    rw [List.length_singleton] at hfuel
    rw [itemsText, List.append_assoc, List.singleton_append]
    show (value fuel (text ++ ']' :: rest)).bind _ = _
    rw [hread fuel (']' :: rest) (by omega) (closed_bracket rest)]
    rfl
  | text :: next :: texts, _, _, .cons (b := v) hread hrest, fuel, rest, hfuel => by
    obtain ⟨fuel, rfl⟩ := Nat.exists_eq_add_one_of_ne_zero (Nat.ne_zero_of_lt hfuel)
    rw [itemsText_cons_cons, List.length_append, List.length_cons] at hfuel
    rw [itemsText_cons_cons, List.append_assoc, List.cons_append]
    show (value fuel (text ++ ',' :: (itemsText (next :: texts) ++ rest))).bind _ = _
    rw [hread fuel _ (by omega) (closed_comma _), Option.bind_some]
    have ih := items_text (List.cons_ne_nil next texts) hrest fuel rest (by omega)
    show (items fuel (itemsText (next :: texts) ++ rest)).map _ = _
    rw [ih]
    rfl

/-- A member whose key and value are read. -/
def MemberReads (m : List Char × List Char) (kv : List Char × Value) : Prop :=
  ReadsChars m.1 kv.1 ∧ Reads m.2 kv.2

/-- Reading goes past the key of a member to its value. -/
theorem members_key {m : List Char × List Char} {k : List Char} (h : ReadsChars m.1 k) (fuel : ℕ)
    (rest : List Char) : members (fuel + 1) (memberText m ++ rest) =
      (value fuel (m.2 ++ rest)).bind fun r ↦
        match skip r.2 with
        | ',' :: rest => (members fuel rest).map fun s ↦ ((k, r.1) :: s.1, s.2)
        | '\x7d' :: rest => some ([(k, r.1)], rest)
        | _ => none := by
  rw [memberText, strText, List.append_assoc, List.append_assoc, List.cons_append,
    List.singleton_append, List.cons_append]
  show (chars (m.1 ++ '"' :: ':' :: (m.2 ++ rest))).bind _ = _
  rw [h, chars_quote, Option.map_some, Option.bind_some, List.append_nil]
  rfl

theorem members_text : ∀ {ms : List (List Char × List Char)} {kvs : List (List Char × Value)},
    ms ≠ [] → List.Forall₂ MemberReads ms kvs → ∀ (fuel : ℕ) (rest : List Char),
      (membersText ms).length < fuel → members fuel (membersText ms ++ rest) = some (kvs, rest)
  | [], _, hne, _, _, _, _ => absurd rfl hne
  | [m], _, _, .cons (b := kv) hread .nil, fuel, rest, hfuel => by
    obtain ⟨fuel, rfl⟩ := Nat.exists_eq_add_one_of_ne_zero (Nat.ne_zero_of_lt hfuel)
    rw [membersText, memberText, List.length_append, List.length_append, List.length_cons] at hfuel
    rw [membersText, List.append_assoc, List.singleton_append, members_key hread.1,
      hread.2 fuel _ (by omega) (closed_brace rest)]
    rfl
  | m :: next :: ms, _, _, .cons (b := kv) hread hrest, fuel, rest, hfuel => by
    obtain ⟨fuel, rfl⟩ := Nat.exists_eq_add_one_of_ne_zero (Nat.ne_zero_of_lt hfuel)
    rw [membersText_cons_cons, memberText, List.length_append,
      List.length_append, List.length_cons, List.length_cons] at hfuel
    rw [membersText_cons_cons, List.append_assoc, List.cons_append,
      members_key hread.1, hread.2 fuel _ (by omega) (closed_comma _), Option.bind_some]
    have ih := members_text (List.cons_ne_nil next ms) hrest fuel rest (by omega)
    show (members fuel (membersText (next :: ms) ++ rest)).map _ = _
    rw [ih]
    rfl

/-- Members of which one is refused, those before it being read. -/
theorem members_refused {m : List Char × List Char} {k : List Char} (hkey : ReadsChars m.1 k)
    (hrefused : Refused m.2) (post : List (List Char × List Char)) :
    ∀ {pre : List (List Char × List Char)} {kvs : List (List Char × Value)},
      List.Forall₂ MemberReads pre kvs → ∀ (fuel : ℕ) (rest : List Char),
        (membersText (pre ++ m :: post)).length < fuel →
          members fuel (membersText (pre ++ m :: post) ++ rest) = none
  | [], _, _, fuel, rest, hfuel => by
    obtain ⟨fuel, rfl⟩ := Nat.exists_eq_add_one_of_ne_zero (Nat.ne_zero_of_lt hfuel)
    cases post with
    | nil =>
      rw [List.nil_append, membersText, List.append_assoc, members_key hkey, hrefused]
      rfl
    | cons next post =>
      rw [List.nil_append, membersText_cons_cons, List.append_assoc,
        members_key hkey, hrefused]
      rfl
  | n :: pre, _, .cons (b := kv) hread hrest, fuel, rest, hfuel => by
    obtain ⟨fuel, rfl⟩ := Nat.exists_eq_add_one_of_ne_zero (Nat.ne_zero_of_lt hfuel)
    have hne : pre ++ m :: post ≠ [] :=
      List.append_ne_nil_of_right_ne_nil pre (List.cons_ne_nil m post)
    rw [List.cons_append, membersText.eq_3 _ _ hne, memberText, List.length_append,
      List.length_append, List.length_cons, List.length_cons] at hfuel
    rw [List.cons_append, membersText.eq_3 _ _ hne, List.append_assoc, List.cons_append,
      members_key hread.1, hread.2 fuel _ (by omega) (closed_comma _), Option.bind_some]
    have ih := members_refused hkey hrefused post hrest fuel rest (by omega)
    show (members fuel (membersText (pre ++ m :: post) ++ rest)).map _ = _
    rw [ih]
    rfl

def arrText (texts : List (List Char)) : List Char := '[' :: itemsText texts

def objText (ms : List (List Char × List Char)) : List Char := '\x7b' :: membersText ms

theorem head_itemsText {text : List Char} {texts : List (List Char)} {c : Char} {t : List Char}
    (h : text = c :: t) : ∃ t', itemsText (text :: texts) = c :: t' := by
  cases texts with
  | nil => exact ⟨t ++ [']'], by rw [itemsText, h, List.cons_append]⟩
  | cons next texts =>
    refine ⟨t ++ ',' :: itemsText (next :: texts), ?_⟩
    rw [itemsText_cons_cons, h, List.cons_append]

theorem reads_arr {texts : List (List Char)} {vs : List Value}
    (hopens : ∀ text ∈ texts, Opens text) (h : List.Forall₂ Reads texts vs) :
    Reads (arrText texts) (.arr vs) := by
  intro fuel rest hfuel _
  obtain ⟨fuel, rfl⟩ := Nat.exists_eq_add_one_of_ne_zero (Nat.ne_zero_of_lt hfuel)
  rw [arrText, List.length_cons] at hfuel
  cases texts with
  | nil =>
    cases h
    rfl
  | cons text texts =>
    obtain ⟨c, t, htext, hblank, hbracket, -⟩ := hopens text List.mem_cons_self
    obtain ⟨t', hhead⟩ := @head_itemsText _ texts _ _ htext
    have hskip : (skip (itemsText (text :: texts) ++ rest)).head? = some c := by
      rw [hhead, List.cons_append, skip, List.dropWhile_cons, hblank]
      rfl
    have hvalue : value (fuel + 1) (arrText (text :: texts) ++ rest) =
        if (skip (itemsText (text :: texts) ++ rest)).head? = some ']' then
          some (.arr [], (skip (itemsText (text :: texts) ++ rest)).tail)
        else (items fuel (itemsText (text :: texts) ++ rest)).map fun r ↦ (.arr r.1, r.2) := rfl
    rw [hvalue, hskip, if_neg fun h ↦ hbracket (Option.some.inj h),
      items_text (List.cons_ne_nil _ _) h fuel rest (by omega)]
    rfl

theorem head_membersText (m : List Char × List Char) (ms : List (List Char × List Char)) :
    ∃ t, membersText (m :: ms) = '"' :: t := by
  cases ms with
  | nil => exact ⟨_, rfl⟩
  | cons next ms => exact ⟨_, membersText_cons_cons m next ms⟩

/-- An object with members is read by its members. -/
theorem read_members (m : List Char × List Char) (ms : List (List Char × List Char)) :
    read (objText (m :: ms)) =
      (members ((membersText (m :: ms)).length + 1) (membersText (m :: ms))).bind fun r ↦
        if skip r.2 = [] then some (.obj r.1) else none := by
  obtain ⟨t, ht⟩ := head_membersText m ms
  have hhead : (skip (membersText (m :: ms))).head? = some '"' := by
    rw [ht]
    rfl
  have hvalue (fuel : ℕ) : value (fuel + 1) (objText (m :: ms)) =
      if (skip (membersText (m :: ms))).head? = some '\x7d' then
        some (.obj [], (skip (membersText (m :: ms))).tail)
      else (members fuel (membersText (m :: ms))).map fun r ↦ (.obj r.1, r.2) := rfl
  rw [read, hvalue, hhead, if_neg (by decide), Option.bind_map]
  rfl

/-- **An object is read by what its members are read as.** -/
theorem read_obj {ms : List (List Char × List Char)} {kvs : List (List Char × Value)}
    (hne : ms ≠ []) (h : List.Forall₂ MemberReads ms kvs) :
    read (objText ms) = some (.obj kvs) := by
  obtain ⟨m, ms, rfl⟩ := List.exists_cons_of_ne_nil hne
  have hread := members_text hne h ((membersText (m :: ms)).length + 1) [] (Nat.lt_succ_self _)
  rw [List.append_nil] at hread
  rw [read_members, hread]
  rfl

/-- **An object with a member that is refused is no value.** -/
theorem read_obj_of_refused {m : List Char × List Char} {k : List Char}
    {pre post : List (List Char × List Char)} {kvs : List (List Char × Value)}
    (hpre : List.Forall₂ MemberReads pre kvs) (hkey : ReadsChars m.1 k) (hrefused : Refused m.2) :
    read (objText (pre ++ m :: post)) = none := by
  have hne : pre ++ m :: post ≠ [] :=
    List.append_ne_nil_of_right_ne_nil pre (List.cons_ne_nil m post)
  have hnone := members_refused hkey hrefused post hpre
    ((membersText (pre ++ m :: post)).length + 1) [] (Nat.lt_succ_self _)
  rw [List.append_nil] at hnone
  obtain ⟨n, ns, heq⟩ := List.exists_cons_of_ne_nil hne
  rw [heq] at hnone ⊢
  rw [read_members, hnone]
  rfl

end JsonText
