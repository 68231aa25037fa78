import Mathlib.Data.String.Basic

/-!
# Case patterns

`case "$path" in $pat)` matching, over bytes: `*` matches any string, `/` included; `?` one byte;
`[...]` a bracket expression; `\x` a literal `x`.  Anything else matches itself.
-/

set_option autoImplicit false

namespace Spira.Suites

/-- The bytes of a text. -/
def asBytes (s : String) : List UInt8 := s.toUTF8.data.toList

/-- A bracket expression from its first byte on: whether `c` is of its set, and what follows the
closing bracket.  A closing bracket that stands first is of the set. -/
def bracket (c : UInt8) : Bool → Bool → List UInt8 → Option (Bool × List UInt8)
  | _, _, [] => none
  | first, hit, x :: r =>
    if x = 93 ∧ !first then some (hit, r)
    else match r with
      | 45 :: hi :: r' =>
        if hi ≠ 93 then bracket c false (hit || (x ≤ c && c ≤ hi)) r'
        else bracket c false (hit || x = c) (45 :: hi :: r')
      | r => bracket c false (hit || x = c) r

/-- The match of a pattern, with fuel for its bytes. -/
def m : ℕ → List UInt8 → List UInt8 → Bool
  | 0, _, _ => false
  | _ + 1, [], s => s.isEmpty
  | n + 1, 42 :: rest, s =>
    -- Runs of `*` are collapsed; then every split point is tried.
    let rest := rest.dropWhile (· = 42)
    rest.isEmpty || s.tails.any (m n rest)
  | n + 1, 63 :: rest, s =>
    match s with
    | [] => false
    | _ :: s => m n rest s
  | n + 1, 91 :: rest, s =>
    match s with
    | [] => false
    | c :: s =>
      let (neg, set) := match rest with
        | 33 :: set => (true, set)
        | 94 :: set => (true, set)
        | set => (false, set)
      match bracket c true false set with
      | some (hit, r) => hit != neg && m n r s
      -- No closing bracket: the `[` is literal.
      | none => c = 91 && m n rest s
  | n + 1, 92 :: x :: rest, s =>
    match s with
    | [] => false
    | c :: s => c = x && m n rest s
  | n + 1, x :: rest, s =>
    match s with
    | [] => false
    | c :: s => c = x && m n rest s

/-- Does `path` match the case pattern `pat`? -/
def caseMatch (pat path : String) : Bool := m ((asBytes pat).length + 1) (asBytes pat) (asBytes path)

/-- The empty pattern matches the empty path alone. -/
theorem eq_empty_of_caseMatch_empty {path : String} (h : caseMatch "" path) : path = "" := by
  have hbytes : (asBytes path).isEmpty = true := h
  rw [List.isEmpty_iff, asBytes, Array.toList_eq_nil_iff] at hbytes
  rw [← String.utf8ByteSize_eq_zero_iff, ← String.size_toByteArray, ByteArray.size]
  exact congrArg Array.size hbytes

example : caseMatch "*/Cargo.toml" "cockpit/panel/Cargo.toml" ∧ !caseMatch "t[!0-3].sh" "t2.sh" ∧
    caseMatch "a[b" "a[b" := by decide

end Spira.Suites
