import Mathlib.Data.Int.Notation
import Mathlib.Data.List.Basic
import Mathlib.Data.Nat.Digits.Defs
import Spira.Lib.Text

/-!
# JSON values and their texts

A value is a tree; an object is the list of its entries, in the order they are printed in.  A number
is an integer, or a float by its bits.

`Codec` is what a program relies on of the library that prints values and reads them back: it reads
what it printed, but refuses a value that nests too deep, and may read a float as one beside it.
`compact` is one such codec.
-/

set_option autoImplicit false

inductive Json
  | null
  | bool (b : Bool)
  | int (n : ℤ)
  | float (bits : UInt64)
  | str (s : String)
  | arr (items : List Json)
  | obj (fields : List (String × Json))
  deriving Repr

namespace Json

/-! ## Equality -/

mutual

def decEq : (v w : Json) → Decidable (v = w)
  | null, null => isTrue rfl
  | bool a, bool b => decidable_of_iff (a = b) (by simp)
  | int a, int b => decidable_of_iff (a = b) (by simp)
  | float a, float b => decidable_of_iff (a = b) (by simp)
  | str a, str b => decidable_of_iff (a = b) (by simp)
  | arr a, arr b =>
    match decEqOf a b with
    | isTrue h => isTrue (congrArg arr h)
    | isFalse h => isFalse fun e ↦ h (arr.inj e)
  | obj a, obj b =>
    match decEqIn a b with
    | isTrue h => isTrue (congrArg obj h)
    | isFalse h => isFalse fun e ↦ h (obj.inj e)
  | null, bool _ | null, int _ | null, float _ | null, str _ | null, arr _ | null, obj _
  | bool _, null | bool _, int _ | bool _, float _ | bool _, str _ | bool _, arr _ | bool _, obj _
  | int _, null | int _, bool _ | int _, float _ | int _, str _ | int _, arr _ | int _, obj _
  | float _, null | float _, bool _ | float _, int _ | float _, str _ | float _, arr _
  | float _, obj _
  | str _, null | str _, bool _ | str _, int _ | str _, float _ | str _, arr _ | str _, obj _
  | arr _, null | arr _, bool _ | arr _, int _ | arr _, float _ | arr _, str _ | arr _, obj _
  | obj _, null | obj _, bool _ | obj _, int _ | obj _, float _ | obj _, str _ | obj _, arr _ =>
    isFalse nofun

def decEqOf : (l m : List Json) → Decidable (l = m)
  | [], [] => isTrue rfl
  | [], _ :: _ | _ :: _, [] => isFalse nofun
  | v :: l, w :: m =>
    match decEq v w, decEqOf l m with
    | isTrue h, isTrue h' => isTrue (by rw [h, h'])
    | isFalse h, _ => isFalse fun e ↦ h (List.cons.inj e).1
    | _, isFalse h => isFalse fun e ↦ h (List.cons.inj e).2

def decEqIn : (l m : List (String × Json)) → Decidable (l = m)
  | [], [] => isTrue rfl
  | [], _ :: _ | _ :: _, [] => isFalse nofun
  | (k, v) :: l, (k', w) :: m =>
    match decEq v w, decEqIn l m with
    | isTrue h, isTrue h' =>
      if hk : k = k' then isTrue (by rw [h, h', hk])
      else isFalse fun e ↦ hk (Prod.mk.inj (List.cons.inj e).1).1
    | isFalse h, _ => isFalse fun e ↦ h (Prod.mk.inj (List.cons.inj e).1).2
    | _, isFalse h => isFalse fun e ↦ h (List.cons.inj e).2

end

instance : DecidableEq Json := decEq

/-! ## Reading a value -/

/-- The entry of an object under a key. -/
def get (v : Json) (k : String) : Option Json :=
  match v with
  | obj fields => fields.lookup k
  | _ => none

/-- The entry under a key, and null where there is none. -/
def index (v : Json) (k : String) : Json := (v.get k).getD null

def asU64 : Json → Option ℕ
  | int (.ofNat n) => if n < 2 ^ 64 then some n else none
  | _ => none

def asStr : Json → Option String
  | str s => some s
  | _ => none

def asArray : Json → Option (List Json)
  | arr items => some items
  | _ => none

/-- `~` and then `c`, written as `r`. -/
def replaceTilde (c r : Char) : List Char → List Char
  | '~' :: d :: rest =>
    if d = c then r :: replaceTilde c r rest else '~' :: replaceTilde c r (d :: rest)
  | x :: rest => x :: replaceTilde c r rest
  | [] => []

/-- A step of a pointer, with its escapes read. -/
def token (s : List Char) : List Char := replaceTilde '0' '~' (replaceTilde '1' '/' s)

/-- The index a step into an array is: its digits, without a sign or a zero before others. -/
def parseIndex (s : List Char) : Option ℕ :=
  if s = [] ∨ (s.head? = some '0' ∧ s.length ≠ 1) ∨ ¬ s.all Char.isDigit then none
  else some (s.foldl (fun n c ↦ 10 * n + (c.toNat - '0'.toNat)) 0)

/-- One step of a pointer. -/
def child (v : Json) (step : List Char) : Option Json :=
  match v with
  | obj fields => fields.lookup (String.ofList step)
  | arr items => (parseIndex step).bind (items[·]?)
  | _ => none

/-- The value at a JSON pointer. -/
def pointer (v : Json) (ptr : String) : Option Json :=
  if ptr = "" then some v
  else if ptr.toList.head? = some '/' then
    ((ptr.toList.splitOn '/').tail.map token).foldlM child v
  else none

/-- Two floats are the same number: zero is, whatever its sign. -/
def sameFloat (a b : UInt64) : Bool := a == b || (a <<< 1 == 0 && b <<< 1 == 0)

mutual

/-- Two values are equal, the order of an object's entries aside. -/
def same : Json → Json → Bool
  | null, null => true
  | bool a, bool b => a == b
  | int a, int b => a == b
  | float a, float b => sameFloat a b
  | str a, str b => a == b
  | arr a, arr b => sameOf a b
  | obj a, obj b => a.length == b.length && sameIn a b
  | _, _ => false

def sameOf : List Json → List Json → Bool
  | [], [] => true
  | v :: l, w :: m => same v w && sameOf l m
  | _, _ => false

def sameIn : List (String × Json) → List (String × Json) → Bool
  | [], _ => true
  | (k, v) :: l, m => (match m.lookup k with
    | some w => same v w
    | none => false) && sameIn l m

end

/-- An unsigned number. -/
def nat (n : ℕ) : Json := int n

theorem asU64_nat {n : ℕ} (h : n < 2 ^ 64) : (nat n).asU64 = some n := if_pos h

theorem lt_of_asU64 {v : Json} {n : ℕ} (h : v.asU64 = some n) : n < 2 ^ 64 := by
  rw [asU64.eq_def] at h
  split at h
  · split at h
    · rw [← Option.some.inj h]
      assumption
    · cases h
  · cases h

/-! ## Nesting and floats -/

mutual

/-- How deep arrays and objects nest in a value. -/
def depth : Json → ℕ
  | arr items => depthOf items + 1
  | obj fields => depthIn fields + 1
  | null | bool _ | int _ | float _ | str _ => 0

def depthOf : List Json → ℕ
  | [] => 0
  | v :: l => max v.depth (depthOf l)

def depthIn : List (String × Json) → ℕ
  | [] => 0
  | (_, v) :: l => max v.depth (depthIn l)

end

mutual

/-- The value with every float of it replaced. -/
def mapFloats (f : UInt64 → UInt64) : Json → Json
  | float x => float (f x)
  | arr items => arr (mapFloatsOf f items)
  | obj fields => obj (mapFloatsIn f fields)
  | null => null
  | bool b => bool b
  | int n => int n
  | str s => str s

def mapFloatsOf (f : UInt64 → UInt64) : List Json → List Json
  | [] => []
  | v :: l => v.mapFloats f :: mapFloatsOf f l

def mapFloatsIn (f : UInt64 → UInt64) : List (String × Json) → List (String × Json)
  | [] => []
  | (k, v) :: l => (k, v.mapFloats f) :: mapFloatsIn f l

end

mutual

theorem mapFloats_id : ∀ v : Json, v.mapFloats id = v
  | float _ | null | bool _ | int _ | str _ => rfl
  | arr items => congrArg arr (mapFloatsOf_id items)
  | obj fields => congrArg obj (mapFloatsIn_id fields)

theorem mapFloatsOf_id : ∀ l : List Json, mapFloatsOf id l = l
  | [] => rfl
  | v :: l => by rw [mapFloatsOf, mapFloats_id v, mapFloatsOf_id l]

theorem mapFloatsIn_id : ∀ l : List (String × Json), mapFloatsIn id l = l
  | [] => rfl
  | (k, v) :: l => by rw [mapFloatsIn, mapFloats_id v, mapFloatsIn_id l]

end

mutual

/-- The floats in a value. -/
def floats : Json → List UInt64
  | float x => [x]
  | arr items => floatsOf items
  | obj fields => floatsIn fields
  | null | bool _ | int _ | str _ => []

def floatsOf : List Json → List UInt64
  | [] => []
  | v :: l => v.floats ++ floatsOf l

def floatsIn : List (String × Json) → List UInt64
  | [] => []
  | (_, v) :: l => v.floats ++ floatsIn l

end

mutual

/-- A value is as it was if and only if each float in it is. -/
theorem mapFloats_eq_self {f : UInt64 → UInt64} :
    ∀ v : Json, v.mapFloats f = v ↔ ∀ x ∈ v.floats, f x = x
  | float x => by simp [mapFloats, floats]
  | arr items => by
    rw [mapFloats, floats, arr.injEq, mapFloatsOf_eq_self items]
  | obj fields => by
    rw [mapFloats, floats, obj.injEq, mapFloatsIn_eq_self fields]
  | null | bool _ | int _ | str _ => by simp [mapFloats, floats]

theorem mapFloatsOf_eq_self {f : UInt64 → UInt64} :
    ∀ l : List Json, mapFloatsOf f l = l ↔ ∀ x ∈ floatsOf l, f x = x
  | [] => by simp [mapFloatsOf, floatsOf]
  | v :: l => by
    rw [mapFloatsOf, floatsOf, List.cons.injEq, mapFloats_eq_self v, mapFloatsOf_eq_self l,
      List.forall_mem_append]

theorem mapFloatsIn_eq_self {f : UInt64 → UInt64} :
    ∀ l : List (String × Json), mapFloatsIn f l = l ↔ ∀ x ∈ floatsIn l, f x = x
  | [] => by simp [mapFloatsIn, floatsIn]
  | (k, v) :: l => by
    rw [mapFloatsIn, floatsIn, List.cons.injEq, Prod.mk.injEq, mapFloats_eq_self v,
      mapFloatsIn_eq_self l, List.forall_mem_append]
    simp

end

theorem mapFloats_eq_null {f : UInt64 → UInt64} {v : Json} : v.mapFloats f = null ↔ v = null := by
  cases v <;> simp [mapFloats]

theorem mapFloatsOf_eq_map {f : UInt64 → UInt64} : ∀ l : List Json,
    mapFloatsOf f l = l.map (mapFloats f)
  | [] => rfl
  | v :: l => by rw [mapFloatsOf, mapFloatsOf_eq_map l, List.map_cons]

theorem mapFloatsIn_append {f : UInt64 → UInt64} : ∀ l m : List (String × Json),
    mapFloatsIn f (l ++ m) = mapFloatsIn f l ++ mapFloatsIn f m
  | [], m => by rw [mapFloatsIn, List.nil_append, List.nil_append]
  | (k, v) :: l, m => by
    rw [List.cons_append, mapFloatsIn, mapFloatsIn_append l m, mapFloatsIn, List.cons_append]

theorem depthOf_le {n : ℕ} : ∀ {l : List Json}, depthOf l ≤ n ↔ ∀ v ∈ l, v.depth ≤ n
  | [] => by simp [depthOf]
  | v :: l => by rw [depthOf, max_le_iff, depthOf_le, List.forall_mem_cons]

theorem depthIn_le {n : ℕ} : ∀ {l : List (String × Json)}, depthIn l ≤ n ↔ ∀ p ∈ l, p.2.depth ≤ n
  | [] => by simp [depthIn]
  | (k, v) :: l => by rw [depthIn, max_le_iff, depthIn_le, List.forall_mem_cons]

/-! ## Texts -/

/-- How deep a text may nest before its reading is refused. -/
def maxDepth : ℕ := 128

/-- What is relied on of the library that prints values and reads them. -/
structure Codec where
  print : Json → List Char
  /-- The value of a text, or why it has none. -/
  parse : List Char → Except String Json
  /-- What a float that was printed is read as. -/
  read : UInt64 → UInt64
  parse_print {v : Json} (h : v.depth < maxDepth) : parse (print v) = .ok (v.mapFloats read)
  parse_deep {v : Json} (h : maxDepth ≤ v.depth) : ∃ why, parse (print v) = .error why
  /-- What is printed stands on one line, with no white space at its ends. -/
  newline (v : Json) : '\n' ∉ print v
  return_ (v : Json) : '\r' ∉ print v
  trim (v : Json) : Text.trim (String.ofList (print v)) = String.ofList (print v)
  ne_nil (v : Json) : print v ≠ []

/-! ## Printing -/

/-- A character of a string, as it stands between the quotes. -/
def escape (c : Char) : List Char :=
  if c = '"' then ['\\', '"']
  else if c = '\\' then ['\\', '\\']
  else if c.toNat < 32 then
    ['\\', 'u', '0', '0', Text.hexDigit (c.toNat / 16), Text.hexDigit (c.toNat % 16)]
  else [c]

def printStr (s : String) : List Char := '"' :: s.toList.flatMap escape ++ ['"']

def printNat (n : ℕ) : List Char := Nat.toDigits 10 n

mutual

def print : Json → List Char
  | null => ['n', 'u', 'l', 'l']
  | bool true => ['t', 'r', 'u', 'e']
  | bool false => ['f', 'a', 'l', 's', 'e']
  | int (.ofNat n) => printNat n
  | int (.negSucc n) => '-' :: printNat (n + 1)
  -- A stand-in for the decimal form: the float's bits.
  | float x => '.' :: printNat x.toNat
  | str s => printStr s
  | arr items => '[' :: printOf items
  | obj fields => '\x7b' :: printIn fields

/-- The items from here on, and the end of their array. -/
def printOf : List Json → List Char
  | [] => [']']
  | v :: l => print v ++ match l with
    | [] => [']']
    | _ :: _ => ',' :: printOf l

/-- The entries from here on, and the end of their object. -/
def printIn : List (String × Json) → List Char
  | [] => ['\x7d']
  | (k, v) :: l => printStr k ++ ':' :: print v ++ match l with
    | [] => ['\x7d']
    | _ :: _ => ',' :: printIn l

end

/-! ## Reading -/

/-- The value of a hexadecimal digit. -/
def hexValue (c : Char) : Option ℕ :=
  if '0'.toNat ≤ c.toNat ∧ c.toNat ≤ '9'.toNat then some (c.toNat - '0'.toNat)
  else if 'a'.toNat ≤ c.toNat ∧ c.toNat ≤ 'f'.toNat then some (c.toNat - 87)
  else none

/-- The characters up to the closing quote, and what follows it. -/
def parseChars : List Char → Option (List Char × List Char)
  | '"' :: rest => some ([], rest)
  | '\\' :: '"' :: rest => (parseChars rest).map fun (s, r) ↦ ('"' :: s, r)
  | '\\' :: '\\' :: rest => (parseChars rest).map fun (s, r) ↦ ('\\' :: s, r)
  | '\\' :: 'u' :: '0' :: '0' :: a :: b :: rest =>
    match hexValue a, hexValue b with
    | some a, some b => (parseChars rest).map fun (s, r) ↦ (Char.ofNat (a * 16 + b) :: s, r)
    | _, _ => none
  | c :: rest =>
    if c = '\\' ∨ c.toNat < 32 then none
    else (parseChars rest).map fun (s, r) ↦ (c :: s, r)
  | [] => none

def parseNat (text : List Char) : Option (ℕ × List Char) :=
  let digits := text.takeWhile Char.isDigit
  if digits = [] then none
  else some (Nat.ofDigitChars 10 digits 0, text.dropWhile Char.isDigit)

mutual

/-- The value a text begins with and the rest of it; it may nest `limit` deep, less one. -/
def parseValue : (fuel limit : ℕ) → List Char → Option (Json × List Char)
  | 0, _, _ => none
  | fuel + 1, limit, text =>
    match text with
    | 'n' :: 'u' :: 'l' :: 'l' :: rest => some (null, rest)
    | 't' :: 'r' :: 'u' :: 'e' :: rest => some (bool true, rest)
    | 'f' :: 'a' :: 'l' :: 's' :: 'e' :: rest => some (bool false, rest)
    | '"' :: rest => (parseChars rest).map fun (s, r) ↦ (str (String.ofList s), r)
    | '-' :: rest => (parseNat rest).map fun (n, r) ↦ (int (-n), r)
    | '.' :: rest => (parseNat rest).map fun (n, r) ↦ (float (UInt64.ofNat n), r)
    | '[' :: rest =>
      if limit ≤ 1 then none
      else (parseOf fuel (limit - 1) rest).map fun (l, r) ↦ (arr l, r)
    | '\x7b' :: rest =>
      if limit ≤ 1 then none
      else (parseIn fuel (limit - 1) rest).map fun (l, r) ↦ (obj l, r)
    | text => (parseNat text).map fun (n, r) ↦ (int n, r)

def parseOf : (fuel limit : ℕ) → List Char → Option (List Json × List Char)
  | 0, _, _ => none
  | _ + 1, _, ']' :: rest => some ([], rest)
  | fuel + 1, limit, text =>
    match parseValue fuel limit text with
    | some (v, ',' :: rest) =>
      -- No value is empty, so an item stands after the comma.
      if rest.head? = some ']' then none
      else (parseOf fuel limit rest).map fun (l, r) ↦ (v :: l, r)
    | some (v, ']' :: rest) => some ([v], rest)
    | _ => none

def parseIn : (fuel limit : ℕ) → List Char → Option (List (String × Json) × List Char)
  | 0, _, _ => none
  | _ + 1, _, '\x7d' :: rest => some ([], rest)
  | fuel + 1, limit, '"' :: text =>
    match parseChars text with
    | some (k, ':' :: rest) =>
      match parseValue fuel limit rest with
      | some (v, ',' :: rest) =>
        if rest.head? = some '\x7d' then none
        else (parseIn fuel limit rest).map fun (l, r) ↦ ((String.ofList k, v) :: l, r)
      | some (v, '\x7d' :: rest) => some ([(String.ofList k, v)], rest)
      | _ => none
    | _ => none
  | _, _, _ => none

end

def parse (text : List Char) : Except String Json :=
  match parseValue (text.length + 1) maxDepth text with
  | some (v, []) => .ok v
  | some (_, _) => .error "trailing characters"
  | none => .error "not a value"

/-! ## What is printed is read -/

/-- What follows a value does not go on with its digits. -/
def Ends (rest : List Char) : Prop := ∀ c, rest.head? = some c → c.isDigit = false

theorem ends_nil : Ends [] := nofun

theorem ends_cons {c : Char} {rest : List Char} (h : c.isDigit = false) : Ends (c :: rest) :=
  fun _ hc ↦ Option.some.inj hc ▸ h

theorem hexValue_hexDigit {n : ℕ} (h : n < 16) : hexValue (Text.hexDigit n) = some n := by
  have hall : ∀ m : Fin 16, hexValue (Text.hexDigit m) = some m.val := by decide
  exact hall ⟨n, h⟩

theorem parseChars_cons {c : Char} {rest : List Char} (hquote : c ≠ '"') (hback : c ≠ '\\')
    (hctrl : 32 ≤ c.toNat) :
    parseChars (c :: rest) = (parseChars rest).map fun (s, r) ↦ (c :: s, r) := by
  rw [parseChars]
  · rw [if_neg]
    rintro (h | h)
    · exact hback h
    · omega
  all_goals
    intros
    simp_all

theorem parseChars_escape (s rest : List Char) :
    parseChars (s.flatMap escape ++ '"' :: rest) = some (s, rest) := by
  induction s with
  | nil => rfl
  | cons c s ih =>
    rw [List.flatMap_cons, List.append_assoc, escape]
    split
    · rename_i hc
      rw [List.cons_append, List.cons_append, List.nil_append, parseChars, ih, hc]
      rfl
    · split
      · rename_i hc
        rw [List.cons_append, List.cons_append, List.nil_append, parseChars, ih, hc]
        rfl
      · split
        · rename_i hc
          have hcode : c.toNat / 16 * 16 + c.toNat % 16 = c.toNat := Nat.div_add_mod' _ _
          simp only [List.cons_append, List.nil_append]
          rw [parseChars, hexValue_hexDigit (by omega), hexValue_hexDigit (by omega)]
          simp only [ih, Option.map_some, hcode, Char.ofNat_toNat]
        · rename_i hquote hback hctrl
          rw [List.cons_append, List.nil_append, parseChars_cons hquote hback (by omega), ih]
          rfl

theorem isDigit_of_mem_printNat {n : ℕ} {c : Char} (h : c ∈ printNat n) : c.isDigit :=
  Nat.isDigit_of_mem_toDigits (by decide) (by decide) h

theorem printNat_ne_nil (n : ℕ) : printNat n ≠ [] := Nat.toDigits_ne_nil

theorem parseNat_print (n : ℕ) {rest : List Char} (h : Ends rest) :
    parseNat (printNat n ++ rest) = some (n, rest) := by
  have hall : ∀ c ∈ printNat n, c.isDigit := fun _ ↦ isDigit_of_mem_printNat
  have hstop : rest.takeWhile Char.isDigit = [] ∧ rest.dropWhile Char.isDigit = rest := by
    cases rest with
    | nil => exact ⟨rfl, rfl⟩
    | cons c rest =>
      have hc := h c rfl
      simp [hc]
  rw [parseNat, List.takeWhile_append_of_pos hall, List.dropWhile_append_of_pos hall, hstop.1,
    hstop.2, List.append_nil, if_neg (printNat_ne_nil n), printNat, Nat.ofDigitChars_ten_toDigits]

/-- The first character of a value. -/
def Opens (c : Char) : Prop :=
  c.isDigit ∨ c = 'n' ∨ c = 't' ∨ c = 'f' ∨ c = '-' ∨ c = '.' ∨ c = '"' ∨ c = '[' ∨ c = '\x7b'

theorem opens_printNat (n : ℕ) : ∃ c t, printNat n = c :: t ∧ c.isDigit := by
  obtain ⟨c, t, h⟩ := List.exists_cons_of_ne_nil (printNat_ne_nil n)
  exact ⟨c, t, h, isDigit_of_mem_printNat (h ▸ List.mem_cons_self)⟩

theorem opens_print (v : Json) : ∃ c t, print v = c :: t ∧ Opens c := by
  cases v with
  | null => exact ⟨_, _, rfl, by simp [Opens]⟩
  | bool b => cases b <;> exact ⟨_, _, rfl, by simp [Opens]⟩
  | int n =>
    cases n with
    | ofNat n =>
      obtain ⟨c, t, h, hc⟩ := opens_printNat n
      exact ⟨c, t, by rw [print, h], .inl hc⟩
    | negSucc n => exact ⟨_, _, rfl, by simp [Opens]⟩
  | float x => exact ⟨_, _, rfl, by simp [Opens]⟩
  | str s => exact ⟨_, _, rfl, by simp [Opens]⟩
  | arr items => exact ⟨_, _, rfl, by simp [Opens]⟩
  | obj fields => exact ⟨_, _, rfl, by simp [Opens]⟩

theorem Opens.ne {c d : Char} (h : Opens c) (hd : ¬ Opens d) : c ≠ d := fun e ↦ hd (e ▸ h)

theorem parseValue_digit {fuel limit : ℕ} {c : Char} {rest : List Char} (h : c.isDigit) :
    parseValue (fuel + 1) limit (c :: rest) =
      (parseNat (c :: rest)).map fun (n, r) ↦ (int n, r) := by
  rw [parseValue]
  all_goals
    intro rest' heq
    obtain ⟨rfl, -⟩ := List.cons.inj heq
    simp at h

theorem parseOf_value {fuel limit : ℕ} {v : Json} {rest : List Char} :
    parseOf (fuel + 1) limit (print v ++ rest) =
      match parseValue fuel limit (print v ++ rest) with
      | some (v, ',' :: rest) =>
        if rest.head? = some ']' then none
        else (parseOf fuel limit rest).map fun (l, r) ↦ (v :: l, r)
      | some (v, ']' :: rest) => some ([v], rest)
      | _ => none := by
  obtain ⟨c, t, hv, hc⟩ := opens_print v
  rw [hv, List.cons_append, parseOf]
  intro rest' h
  exact hc.ne (by simp [Opens]) (List.cons.inj h).1

theorem parseIn_value {fuel limit : ℕ} {k : String} {rest : List Char} :
    parseIn (fuel + 1) limit (printStr k ++ ':' :: rest) =
      match parseValue fuel limit rest with
      | some (v, ',' :: rest) =>
        if rest.head? = some '\x7d' then none
        else (parseIn fuel limit rest).map fun (l, r) ↦ ((k, v) :: l, r)
      | some (v, '\x7d' :: rest) => some ([(k, v)], rest)
      | _ => none := by
  rw [printStr, List.cons_append, List.cons_append, List.append_assoc, List.singleton_append,
    parseIn, parseChars_escape]
  simp only [String.ofList_toList]

/-- What stands before the items that are left is no end. -/
theorem head?_printOf {v : Json} {l : List Json} {rest : List Char} :
    (printOf (v :: l) ++ rest).head? ≠ some ']' := by
  obtain ⟨c, t, hv, hc⟩ := opens_print v
  have hne : c ≠ ']' := hc.ne (by simp [Opens])
  cases l <;> simpa [printOf, hv] using hne

theorem head?_printIn {e : String × Json} {l : List (String × Json)} {rest : List Char} :
    (printIn (e :: l) ++ rest).head? ≠ some '\x7d' := by
  cases l <;> simp [printIn, printStr]

mutual

/-- **A value that does not nest too deep is read as it was printed.** -/
theorem parseValue_print : ∀ (v : Json) {fuel limit : ℕ} {rest : List Char}, v.depth < limit →
    (print v).length ≤ fuel → Ends rest → parseValue fuel limit (print v ++ rest) = some (v, rest)
  | v, 0, _, _, _, hf, _ => by
    obtain ⟨c, t, hv, -⟩ := opens_print v
    rw [hv] at hf
    cases hf
  | null, _ + 1, _, _, _, _, _ => rfl
  | bool true, _ + 1, _, _, _, _, _ => rfl
  | bool false, _ + 1, _, _, _, _, _ => rfl
  | int (.ofNat n), _ + 1, _, _, _, _, he => by
    obtain ⟨c, t, hn, hc⟩ := opens_printNat n
    rw [print, hn, List.cons_append, parseValue_digit hc, ← List.cons_append, ← hn,
      parseNat_print n he]
    rfl
  | int (.negSucc n), _ + 1, _, _, _, _, he => by
    rw [print, List.cons_append, parseValue, parseNat_print (n + 1) he]
    rfl
  | float x, _ + 1, _, _, _, _, he => by
    rw [print, List.cons_append, parseValue, parseNat_print _ he]
    exact congrArg (fun y ↦ some (float y, _)) UInt64.ofNat_toNat
  | str s, _ + 1, _, _, _, _, _ => by
    rw [print, printStr, List.cons_append, List.cons_append, List.append_assoc,
      List.singleton_append, parseValue, parseChars_escape]
    exact congrArg (fun t ↦ some (str t, _)) String.ofList_toList
  | arr items, fuel + 1, limit, rest, hd, hf, _ => by
    rw [depth] at hd
    rw [print, List.length_cons] at hf
    rw [print, List.cons_append, parseValue, if_neg (by omega),
      parseOf_print items (by omega) (by omega)]
    rfl
  | obj fields, fuel + 1, limit, rest, hd, hf, _ => by
    rw [depth] at hd
    rw [print, List.length_cons] at hf
    rw [print, List.cons_append, parseValue, if_neg (by omega),
      parseIn_print fields (by omega) (by omega)]
    rfl

theorem parseOf_print : ∀ (l : List Json) {fuel limit : ℕ} {rest : List Char},
    depthOf l < limit → (printOf l).length ≤ fuel →
      parseOf fuel limit (printOf l ++ rest) = some (l, rest)
  | l, 0, _, _, _, hf => by
    cases l with
    | nil => simp [printOf] at hf
    | cons v l =>
      cases l <;> simp [printOf] at hf
  | [], _ + 1, _, _, _, _ => rfl
  | [v], fuel + 1, limit, rest, hd, hf => by
    rw [depthOf, max_lt_iff] at hd
    simp only [printOf, List.length_append, List.length_singleton] at hf
    rw [printOf, List.append_assoc, parseOf_value, List.singleton_append,
      parseValue_print v hd.1 (by omega) (ends_cons (by decide))]
    rfl
  | v :: w :: l, fuel + 1, limit, rest, hd, hf => by
    rw [depthOf, max_lt_iff] at hd
    rw [printOf, List.length_append, List.length_cons] at hf
    rw [printOf, List.append_assoc, parseOf_value, List.cons_append,
      parseValue_print v hd.1 (by omega) (ends_cons (by decide))]
    simp only [if_neg head?_printOf]
    rw [parseOf_print (w :: l) hd.2 (by omega)]
    rfl

theorem parseIn_print : ∀ (l : List (String × Json)) {fuel limit : ℕ} {rest : List Char},
    depthIn l < limit → (printIn l).length ≤ fuel →
      parseIn fuel limit (printIn l ++ rest) = some (l, rest)
  | l, 0, _, _, _, hf => by
    cases l with
    | nil => simp [printIn] at hf
    | cons e l =>
      cases l <;> simp [printIn] at hf
  | [], _ + 1, _, _, _, _ => rfl
  | [(k, v)], fuel + 1, limit, rest, hd, hf => by
    rw [depthIn, max_lt_iff] at hd
    simp only [printIn, List.length_append, List.length_cons] at hf
    rw [printIn, List.append_assoc, List.append_assoc, List.cons_append, parseIn_value,
      List.singleton_append, parseValue_print v hd.1 (by omega) (ends_cons (by decide))]
    rfl
  | (k, v) :: e :: l, fuel + 1, limit, rest, hd, hf => by
    rw [depthIn, max_lt_iff] at hd
    rw [printIn, List.length_append, List.length_append, List.length_cons, List.length_cons] at hf
    rw [printIn, List.append_assoc, List.append_assoc, List.cons_append, parseIn_value,
      List.cons_append, parseValue_print v hd.1 (by omega) (ends_cons (by decide))]
    simp only [if_neg head?_printIn]
    rw [parseIn_print (e :: l) hd.2 (by omega)]
    rfl

end

mutual

/-- **A value that nests too deep is not read.** -/
theorem parseValue_deep : ∀ (v : Json) {fuel limit : ℕ} {rest : List Char}, 0 < limit →
    limit ≤ v.depth → (print v).length ≤ fuel → parseValue fuel limit (print v ++ rest) = none
  | _, 0, _, _, _, _, _ => by rw [parseValue]
  | null, _ + 1, _, _, hl, hd, _ | bool _, _ + 1, _, _, hl, hd, _ | int _, _ + 1, _, _, hl, hd, _
  | float _, _ + 1, _, _, hl, hd, _ | str _, _ + 1, _, _, hl, hd, _ => absurd hl (not_lt.mpr hd)
  | arr items, fuel + 1, limit, rest, _, hd, hf => by
    rw [depth] at hd
    rw [print, List.length_cons] at hf
    rw [print, List.cons_append, parseValue]
    split
    · rfl
    · rw [parseOf_deep items (by omega) (by omega) (by omega)]
      rfl
  | obj fields, fuel + 1, limit, rest, _, hd, hf => by
    rw [depth] at hd
    rw [print, List.length_cons] at hf
    rw [print, List.cons_append, parseValue]
    split
    · rfl
    · rw [parseIn_deep fields (by omega) (by omega) (by omega)]
      rfl

theorem parseOf_deep : ∀ (l : List Json) {fuel limit : ℕ} {rest : List Char}, 0 < limit →
    limit ≤ depthOf l → (printOf l).length ≤ fuel → parseOf fuel limit (printOf l ++ rest) = none
  | _, 0, _, _, _, _, _ => by rw [parseOf]
  | [], _ + 1, _, _, hl, hd, _ => absurd hl (not_lt.mpr hd)
  | [v], fuel + 1, limit, rest, hl, hd, hf => by
    have hv : limit ≤ v.depth := by
      rw [depthOf, depthOf] at hd
      omega
    simp only [printOf, List.length_append, List.length_singleton] at hf
    rw [printOf, List.append_assoc, parseOf_value, parseValue_deep v hl hv (by omega)]
  | v :: w :: l, fuel + 1, limit, rest, hl, hd, hf => by
    rw [depthOf] at hd
    rw [printOf, List.length_append, List.length_cons] at hf
    rw [printOf, List.append_assoc, parseOf_value]
    by_cases hv : limit ≤ v.depth
    · rw [parseValue_deep v hl hv (by omega)]
    · rw [List.cons_append,
        parseValue_print v (not_le.mp hv) (by omega) (ends_cons (by decide))]
      simp only [if_neg head?_printOf]
      rw [parseOf_deep (w :: l) hl (by omega) (by omega)]
      rfl

theorem parseIn_deep : ∀ (l : List (String × Json)) {fuel limit : ℕ} {rest : List Char},
    0 < limit → limit ≤ depthIn l → (printIn l).length ≤ fuel →
      parseIn fuel limit (printIn l ++ rest) = none
  | _, 0, _, _, _, _, _ => by rw [parseIn]
  | [], _ + 1, _, _, hl, hd, _ => absurd hl (not_lt.mpr hd)
  | [(k, v)], fuel + 1, limit, rest, hl, hd, hf => by
    have hv : limit ≤ v.depth := by
      rw [depthIn, depthIn] at hd
      omega
    simp only [printIn, List.length_append, List.length_cons] at hf
    rw [printIn, List.append_assoc, List.append_assoc, List.cons_append, parseIn_value,
      parseValue_deep v hl hv (by omega)]
  | (k, v) :: e :: l, fuel + 1, limit, rest, hl, hd, hf => by
    rw [depthIn] at hd
    rw [printIn, List.length_append, List.length_append, List.length_cons, List.length_cons] at hf
    rw [printIn, List.append_assoc, List.append_assoc, List.cons_append, parseIn_value]
    by_cases hv : limit ≤ v.depth
    · rw [parseValue_deep v hl hv (by omega)]
    · rw [List.cons_append,
        parseValue_print v (not_le.mp hv) (by omega) (ends_cons (by decide))]
      simp only [if_neg head?_printIn]
      rw [parseIn_deep (e :: l) hl (by omega) (by omega)]
      rfl

end

/-! ## What is printed stands on one line -/

theorem le_of_isDigit {c : Char} (h : c.isDigit) : 48 ≤ c.toNat := by
  rw [Char.isDigit, Bool.and_eq_true, decide_eq_true_eq, ge_iff_le, UInt32.le_iff_toNat_le] at h
  exact h.1

theorem le_hexDigit {n : ℕ} (h : n < 16) : 32 ≤ (Text.hexDigit n).toNat := by
  have hall : ∀ m : Fin 16, 32 ≤ (Text.hexDigit m).toNat := by decide
  exact hall ⟨n, h⟩

theorem le_of_mem_escape {c d : Char} (h : d ∈ escape c) : 32 ≤ d.toNat := by
  rw [escape] at h
  split at h
  · revert h
    simp only [List.mem_cons, List.not_mem_nil, or_false]
    rintro (rfl | rfl) <;> decide
  · split at h
    · revert h
      simp only [List.mem_cons, List.not_mem_nil, or_false]
      rintro (rfl | rfl) <;> decide
    · split at h
      · revert h
        simp only [List.mem_cons, List.not_mem_nil, or_false]
        rintro (rfl | rfl | rfl | rfl | rfl | rfl)
        any_goals decide
        · exact le_hexDigit (by omega)
        · exact le_hexDigit (by omega)
      · rw [List.mem_singleton.mp h]
        omega

theorem le_of_mem_printStr {s : String} {c : Char} (h : c ∈ printStr s) : 32 ≤ c.toNat := by
  rw [printStr, List.mem_append, List.mem_cons, List.mem_flatMap, List.mem_singleton] at h
  rcases h with (rfl | ⟨d, -, h⟩) | rfl
  · decide
  · exact le_of_mem_escape h
  · decide

theorem le_of_mem_printNat {n : ℕ} {c : Char} (h : c ∈ printNat n) : 32 ≤ c.toNat :=
  le_trans (by decide) (le_of_isDigit (isDigit_of_mem_printNat h))

mutual

/-- Nothing is printed below the space. -/
theorem le_of_mem_print : ∀ (v : Json) {c : Char}, c ∈ print v → 32 ≤ c.toNat
  | null, c, h => by
    revert h
    simp only [print, List.mem_cons, List.not_mem_nil, or_false]
    rintro (rfl | rfl | rfl | rfl) <;> decide
  | bool true, c, h => by
    revert h
    simp only [print, List.mem_cons, List.not_mem_nil, or_false]
    rintro (rfl | rfl | rfl | rfl) <;> decide
  | bool false, c, h => by
    revert h
    simp only [print, List.mem_cons, List.not_mem_nil, or_false]
    rintro (rfl | rfl | rfl | rfl | rfl) <;> decide
  | int (.ofNat n), c, h => le_of_mem_printNat h
  | int (.negSucc n), c, h => by
    rcases List.mem_cons.mp h with rfl | h
    · decide
    · exact le_of_mem_printNat h
  | float x, c, h => by
    rcases List.mem_cons.mp h with rfl | h
    · decide
    · exact le_of_mem_printNat h
  | str s, c, h => le_of_mem_printStr h
  | arr items, c, h => by
    rcases List.mem_cons.mp h with rfl | h
    · decide
    · exact le_of_mem_printOf items h
  | obj fields, c, h => by
    rcases List.mem_cons.mp h with rfl | h
    · decide
    · exact le_of_mem_printIn fields h

theorem le_of_mem_printOf : ∀ (l : List Json) {c : Char}, c ∈ printOf l → 32 ≤ c.toNat
  | [], c, h => by
    rw [List.mem_singleton.mp h]
    decide
  | [v], c, h => by
    rcases List.mem_append.mp h with h | h
    · exact le_of_mem_print v h
    · rw [List.mem_singleton.mp h]
      decide
  | v :: w :: l, c, h => by
    rcases List.mem_append.mp h with h | h
    · exact le_of_mem_print v h
    · rcases List.mem_cons.mp h with rfl | h
      · decide
      · exact le_of_mem_printOf (w :: l) h

theorem le_of_mem_printIn : ∀ (l : List (String × Json)) {c : Char}, c ∈ printIn l → 32 ≤ c.toNat
  | [], c, h => by
    rw [List.mem_singleton.mp h]
    decide
  | [(k, v)], c, h => by
    rcases List.mem_append.mp h with h | h
    · rcases List.mem_append.mp h with h | h
      · exact le_of_mem_printStr h
      · rcases List.mem_cons.mp h with rfl | h
        · decide
        · exact le_of_mem_print v h
    · rw [List.mem_singleton.mp h]
      decide
  | (k, v) :: e :: l, c, h => by
    rcases List.mem_append.mp h with h | h
    · rcases List.mem_append.mp h with h | h
      · exact le_of_mem_printStr h
      · rcases List.mem_cons.mp h with rfl | h
        · decide
        · exact le_of_mem_print v h
    · rcases List.mem_cons.mp h with rfl | h
      · decide
      · exact le_of_mem_printIn (e :: l) h

end

theorem isWhite_of_isDigit {c : Char} (h : c.isDigit) : Text.isWhite c = false := by
  have hle : 48 ≤ c.toNat := le_of_isDigit h
  have hge : c.toNat ≤ 57 := by
    rw [Char.isDigit, Bool.and_eq_true, decide_eq_true_eq, decide_eq_true_eq] at h
    exact UInt32.le_iff_toNat_le.mp h.2
  simp only [Text.isWhite, Bool.or_eq_false_iff, Bool.and_eq_false_iff, decide_eq_false_iff_not,
    beq_eq_false_iff_ne]
  omega

theorem Opens.isWhite {c : Char} (h : Opens c) : Text.isWhite c = false := by
  rcases h with h | rfl | rfl | rfl | rfl | rfl | rfl | rfl | rfl
  · exact isWhite_of_isDigit h
  all_goals decide

theorem getLast?_printNat (n : ℕ) : ∃ c, (printNat n).getLast? = some c ∧ c.isDigit := by
  refine ⟨(printNat n).getLast (printNat_ne_nil n), List.getLast?_eq_some_getLast _, ?_⟩
  exact isDigit_of_mem_printNat (List.getLast_mem _)

theorem getLast?_printOf : ∀ l : List Json, (printOf l).getLast? = some ']'
  | [] => rfl
  | [v] => by rw [printOf, List.getLast?_append]; rfl
  | v :: w :: l => by
    rw [printOf, List.getLast?_append, List.getLast?_cons, getLast?_printOf (w :: l)]
    rfl

theorem getLast?_printIn : ∀ l : List (String × Json), (printIn l).getLast? = some '\x7d'
  | [] => rfl
  | [(k, v)] => by rw [printIn, List.getLast?_append]; rfl
  | (k, v) :: e :: l => by
    rw [printIn, List.getLast?_append, List.getLast?_cons, getLast?_printIn (e :: l)]
    rfl

theorem isWhite_getLast (v : Json) {c : Char} (h : (print v).getLast? = some c) :
    Text.isWhite c = false := by
  have hnat {n : ℕ} {c' : Char} (h : (printNat n).getLast? = some c') :
      Text.isWhite c' = false := by
    obtain ⟨d, hd, hdig⟩ := getLast?_printNat n
    obtain rfl := Option.some.inj (hd.symm.trans h)
    exact isWhite_of_isDigit hdig
  have hcons {n : ℕ} {x c' : Char} (h : (x :: printNat n).getLast? = some c') :
      Text.isWhite c' = false := by
    obtain ⟨d, hd, hdig⟩ := getLast?_printNat n
    rw [List.getLast?_cons, hd] at h
    exact Option.some.inj h ▸ isWhite_of_isDigit hdig
  cases v with
  | null => exact Option.some.inj h ▸ by decide
  | bool b => cases b <;> exact Option.some.inj h ▸ by decide
  | int n =>
    cases n with
    | ofNat n => exact hnat h
    | negSucc n => exact hcons h
  | float x => exact hcons h
  | str s =>
    rw [print, printStr, List.getLast?_append] at h
    exact Option.some.inj h ▸ by decide
  | arr items =>
    rw [print, List.getLast?_cons, getLast?_printOf] at h
    exact Option.some.inj h ▸ by decide
  | obj fields =>
    rw [print, List.getLast?_cons, getLast?_printIn] at h
    exact Option.some.inj h ▸ by decide

/-- Compact texts, and their reading: every float is read as it was printed. -/
def compact : Codec where
  print := print
  parse := parse
  read := id
  parse_print {v} h := by
    have hread := parseValue_print v h (Nat.le_succ _) ends_nil
    rw [List.append_nil] at hread
    rw [parse, hread, mapFloats_id]
  parse_deep {v} h := by
    have hread : parseValue ((print v).length + 1) maxDepth (print v ++ []) = none :=
      parseValue_deep v (by decide) h (Nat.le_succ _)
    rw [List.append_nil] at hread
    exact ⟨_, by rw [parse, hread]⟩
  newline v h := absurd (le_of_mem_print v h) (by decide)
  return_ v h := absurd (le_of_mem_print v h) (by decide)
  trim v := by
    refine Text.trim_eq_self (fun c hc ↦ ?_) fun c hc ↦ isWhite_getLast v hc
    obtain ⟨d, t, hv, hd⟩ := opens_print v
    rw [hv] at hc
    exact Option.some.inj hc ▸ hd.isWhite
  ne_nil v h := by
    obtain ⟨d, t, hv, -⟩ := opens_print v
    rw [hv] at h
    cases h

end Json
