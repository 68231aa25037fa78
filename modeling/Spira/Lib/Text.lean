import Mathlib.Data.String.Basic

/-!
# Text as the standard library of the source has it

The few operations on strings a program's decisions turn on: trimming at both ends, a prefix
test, and the quoted form error texts print a string in.  They are defined on the list of
characters, so that a closed instance of them evaluates.
-/

set_option autoImplicit false

namespace Text

/-- The characters with the Unicode property `White_Space`. -/
def isWhite (c : Char) : Bool :=
  let n := c.toNat
  (9 ≤ n && n ≤ 13) || n == 0x20 || n == 0x85 || n == 0xa0 || n == 0x1680 ||
    (0x2000 ≤ n && n ≤ 0x200a) || n == 0x2028 || n == 0x2029 || n == 0x202f || n == 0x205f ||
    n == 0x3000

/-- `s` without the white space at its two ends. -/
def trim (s : String) : String :=
  String.ofList (((s.toList.dropWhile isWhite).reverse.dropWhile isWhite).reverse)

theorem dropWhile_eq_self {p : Char → Bool} {l : List Char}
    (h : ∀ c, l.head? = some c → p c = false) : l.dropWhile p = l := by
  cases l with
  | nil => rfl
  | cons c l => rw [List.dropWhile_cons_of_neg (by simp [h c rfl])]

/-- A text with no white space at its ends. -/
theorem trim_eq_self {l : List Char} (hhead : ∀ c, l.head? = some c → isWhite c = false)
    (hlast : ∀ c, l.getLast? = some c → isWhite c = false) :
    trim (String.ofList l) = String.ofList l := by
  rw [trim, String.toList_ofList, dropWhile_eq_self hhead,
    dropWhile_eq_self (l := l.reverse) (by rwa [List.head?_reverse]), List.reverse_reverse]

/-- Whether `s` starts with `p`. -/
def startsWith (s p : String) : Bool := p.toList.isPrefixOf s.toList

def contains (s p : String) : Bool := s.toList.tails.any p.toList.isPrefixOf

/-- What comes after the last `c`: all of it where there is none. -/
def afterLast (c : Char) (s : String) : String :=
  String.ofList (s.toList.reverse.takeWhile (· ≠ c)).reverse

/-- What stands before the first `c` and after it, where there is one. -/
def splitOnce (c : Char) : List Char → Option (List Char × List Char)
  | [] => none
  | x :: s => if x = c then some ([], s) else (splitOnce c s).map fun (l, r) ↦ (x :: l, r)

/-- A line without the carriage return before its line feed. -/
def dropReturn (l : List Char) : List Char := if l.getLast? = some '\r' then l.dropLast else l

/-- The lines of a text, `read` being what was read of the current one. -/
def linesFrom (read : List Char) : List Char → List (List Char)
  | [] => if read = [] then [] else [read.reverse]
  | c :: s => if c = '\n' then dropReturn read.reverse :: linesFrom [] s else linesFrom (c :: read) s

/-- The lines of a text; the last needs no end. -/
def lines (s : String) : List String := (linesFrom [] s.toList).map String.ofList

/-- The stretches of a text between the characters that separate, `read` being what was read of the
current one. -/
def fieldsFrom (sep : Char → Bool) (read : List Char) : List Char → List (List Char)
  | [] => if read = [] then [] else [read.reverse]
  | c :: s =>
    if sep c then
      if read = [] then fieldsFrom sep [] s else read.reverse :: fieldsFrom sep [] s
    else fieldsFrom sep (c :: read) s

/-- The stretches between separators that are not empty. -/
def fields (sep : Char → Bool) (s : String) : List String :=
  (fieldsFrom sep [] s.toList).map String.ofList

/-- The words of a text. -/
def words (s : String) : List String := fields isWhite s

theorem splitOnce_cons {c : Char} {l r : List Char} (h : c ∉ l) :
    splitOnce c (l ++ c :: r) = some (l, r) := by
  induction l with
  | nil => simp [splitOnce]
  | cons x l ih =>
    rw [List.mem_cons, not_or] at h
    rw [List.cons_append, splitOnce, if_neg (Ne.symm h.1), ih h.2]
    rfl

theorem linesFrom_append {read l rest : List Char} (h : '\n' ∉ l) :
    linesFrom read (l ++ '\n' :: rest) = dropReturn (read.reverse ++ l) :: linesFrom [] rest := by
  induction l generalizing read with
  | nil => simp [linesFrom]
  | cons x l ih =>
    rw [List.mem_cons, not_or] at h
    rw [List.cons_append, linesFrom, if_neg (Ne.symm h.1), ih h.2]
    simp

theorem dropReturn_of_ne {l : List Char} (h : l.getLast? ≠ some '\r') : dropReturn l = l := if_neg h

/-- Lines that are written one after the other are the lines that are read, unless one has a line
feed in it or ends in a carriage return. -/
theorem linesFrom_flatMap {α : Type*} {f : α → List Char} {l : List α} (hn : ∀ a ∈ l, '\n' ∉ f a)
    (hr : ∀ a ∈ l, (f a).getLast? ≠ some '\r') :
    linesFrom [] (l.flatMap fun a ↦ f a ++ ['\n']) = l.map f := by
  induction l with
  | nil => rfl
  | cons a l ih =>
    rw [List.flatMap_cons, List.append_assoc, List.singleton_append,
      linesFrom_append (hn a List.mem_cons_self), List.reverse_nil, List.nil_append,
      dropReturn_of_ne (hr a List.mem_cons_self), List.map_cons,
      ih (fun b hb ↦ hn b (List.mem_cons_of_mem a hb)) fun b hb ↦ hr b (List.mem_cons_of_mem a hb)]

theorem newline_notMem_linesFrom {read s l : List Char} (hread : '\n' ∉ read)
    (h : l ∈ linesFrom read s) : '\n' ∉ l := by
  induction s generalizing read with
  | nil =>
    rw [linesFrom] at h
    split at h
    · cases h
    · rw [List.mem_singleton.mp h, List.mem_reverse]
      exact hread
  | cons c s ih =>
    rw [linesFrom] at h
    split at h
    · rcases List.mem_cons.mp h with rfl | h
      · intro hm
        rw [dropReturn] at hm
        split at hm
        · exact hread (List.mem_reverse.mp (List.dropLast_subset _ hm))
        · exact hread (List.mem_reverse.mp hm)
      · exact ih List.not_mem_nil h
    · rename_i hc
      exact ih (fun hm ↦ (List.mem_cons.mp hm).elim (fun e ↦ hc e.symm) hread) h

theorem sep_notMem_fieldsFrom {sep : Char → Bool} {read s l : List Char} {c : Char}
    (hread : ∀ c ∈ read, sep c = false) (h : l ∈ fieldsFrom sep read s) (hc : c ∈ l) :
    sep c = false := by
  induction s generalizing read with
  | nil =>
    rw [fieldsFrom] at h
    split at h
    · cases h
    · rw [List.mem_singleton.mp h, List.mem_reverse] at hc
      exact hread c hc
  | cons x s ih =>
    rw [fieldsFrom] at h
    split at h
    · split at h
      · exact ih (by simp) h
      · rcases List.mem_cons.mp h with rfl | h
        · exact hread c (List.mem_reverse.mp hc)
        · exact ih (by simp) h
    · rename_i hx
      refine ih (fun y hy ↦ ?_) h
      rcases List.mem_cons.mp hy with rfl | hy
      · exact Bool.eq_false_of_not_eq_true hx
      · exact hread y hy

/-- A digit of a hexadecimal escape. -/
def hexDigit (n : Nat) : Char :=
  if n < 10 then Char.ofNat (48 + n) else Char.ofNat (87 + n)

/-- One character of a quoted string.  A control character below `0x80` is escaped by its code
point; what lies above is printed as it is. -/
def quotedChar (c : Char) : List Char :=
  if c = '"' then ['\\', '"']
  else if c = '\\' then ['\\', '\\']
  else if c = '\n' then ['\\', 'n']
  else if c = '\r' then ['\\', 'r']
  else if c = '\t' then ['\\', 't']
  else if c.toNat = 0 then ['\\', '0']
  else if c.toNat < 16 then ['\\', 'u', '\x7b', hexDigit c.toNat, '\x7d']
  else if c.toNat < 32 ∨ c.toNat = 127 then
    ['\\', 'u', '\x7b', hexDigit (c.toNat / 16), hexDigit (c.toNat % 16), '\x7d']
  else [c]

/-- The quoted form of a string, as an error text prints it. -/
def quoted (s : String) : String :=
  String.ofList ('"' :: s.toList.flatMap quotedChar ++ ['"'])

end Text
