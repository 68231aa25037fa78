import Mathlib
import Spira.Lib.Json
import Spira.StateStore.Backend

/-!
# The revision log's runs

A run is every key every transaction of `from_` to `to_` wrote, as one object: a header, which
carries the body's SHA-256, and a line for each entry.  A run may also carry the revisions the
store recorded as never used, its jumps, which are the only ones it may lack.

`decode` reads the object whole, and then walks the revisions the header claims: it collects those
the run must hold in a vector, with increments of 64 bits that nothing guards.
-/

set_option autoImplicit false

namespace Spira.Store.Revlog

abbrev Entry := LogEntry String ByteArray

structure Run where
  from_ : ℕ
  to_ : ℕ
  entries : List Entry
  /-- Recorded jumps inside the range, in order: unused revisions, not lost ones. -/
  jumps : List (ℕ × ℕ)
  deriving DecidableEq

/-- Why no run was read. -/
inductive Fault
  | refused (why : String)
  /-- An increment past the largest number of its type, or a vector past the address space: a panic, or
  a wrap and then a loop without end. -/
  | panicked
  deriving DecidableEq

def u64Max : ℕ := 2 ^ 64 - 1

def u32Max : ℕ := 2 ^ 32 - 1

/-- How many numbers of 64 bits a vector may hold. -/
def vecMax : ℕ := (2 ^ 63 - 1) / 8

/-! ## Encoding -/

def hex (bytes : ByteArray) : String :=
  String.ofList (bytes.data.toList.flatMap fun b ↦
    [Text.hexDigit (b.toNat / 16), Text.hexDigit (b.toNat % 16)])

def digit16 (c : Char) : Option ℕ :=
  if c.isDigit then some (c.toNat - '0'.toNat)
  else if 'a'.toNat ≤ c.toNat ∧ c.toNat ≤ 'f'.toNat then some (c.toNat - 'a'.toNat + 10)
  else if 'A'.toNat ≤ c.toNat ∧ c.toNat ≤ 'F'.toNat then some (c.toNat - 'A'.toNat + 10)
  else none

/-- A byte of two characters; a sign may stand before a single digit. -/
def byteOf (a b : Char) : Option UInt8 :=
  if a = '+' then (digit16 b).map UInt8.ofNat
  else do return UInt8.ofNat ((← digit16 a) * 16 + (← digit16 b))

def unhexFrom : List Char → Option (List UInt8)
  | [] => some []
  | [_] => none
  | a :: b :: rest => do return (← byteOf a b) :: (← unhexFrom rest)

def unhex (s : String) : Option ByteArray := (unhexFrom s.toList).map fun l ↦ ⟨l.toArray⟩

def revJson : Option Rev → Json
  | none => .null
  | some r => .arr [.nat r.main, .nat r.sub]

def revOf : Json → Except Fault (Option Rev)
  | .null => return none
  | .arr [main, sub] => do
    let some main := main.asU64 | throw (.refused "a revision's main is not a number")
    let some sub := sub.asU64 | throw (.refused "a revision's sub is not a number")
    if u32Max < sub then throw (.refused "a revision's sub exceeds u32")
    return some ⟨main, sub⟩
  | _ => throw (.refused "a revision is not [main, sub]")

/-- The value of an entry: as text where it is UTF-8, and else in hexadecimal. -/
def valueFields : Option ByteArray → List (String × Json)
  | none => []
  | some bytes =>
    match String.fromUTF8? bytes with
    | some text => [("v", .str text)]
    | none => [("vx", .str (hex bytes))]

def entryJson (e : Entry) : Json :=
  .obj ([("k", .str e.key), ("m", .nat e.rev.main), ("s", .nat e.rev.sub),
    ("c", revJson e.createRev), ("p", revJson e.prev)] ++ valueFields e.value)

def jumpJson (j : ℕ × ℕ) : Json := .arr [.nat j.1, .nat j.2]

section Format

variable (codec : Json.Codec) (sha256 : ByteArray → ByteArray)

def bodyOf (entries : List Entry) : List Char :=
  entries.flatMap fun e ↦ codec.print (entryJson e) ++ ['\n']

def sumOf (body : List Char) : String := hex (sha256 (String.ofList body).toByteArray)

def headerOf (run : Run) (sum : String) : Json :=
  .obj ([("from", .nat run.from_), ("to", .nat run.to_), ("entries", .nat run.entries.length),
    ("sha256", .str sum)] ++
      if run.jumps = [] then [] else [("jumps", .arr (run.jumps.map jumpJson))])

def encode (run : Run) : ByteArray :=
  let body := bodyOf codec run.entries
  (String.ofList
    (codec.print (headerOf run (sumOf sha256 body)) ++ '\n' :: body)).toByteArray

/-! ## Decoding -/

def valueOf (v : Json) : Except Fault (Option ByteArray) :=
  match v.get "v", v.get "vx" with
  | some t, none =>
    match t.asStr with
    | some text => return some text.toByteArray
    | none => throw (.refused "a value is not a string")
  | none, some x =>
    match unhex (x.asStr.getD "-") with
    | some bytes => return some bytes
    | none => throw (.refused "a value is not hex")
  | none, none => return none
  | some _, some _ => throw (.refused "an entry carries two values")

def parsed (what : String) (text : List Char) : Except Fault Json :=
  match codec.parse text with
  | .ok v => return v
  | .error e => throw (.refused s!"{what} is not JSON: {e}")

def entryOf (line : List Char) : Except Fault Entry := do
  let v ← parsed codec "an entry" line
  let some key := (v.index "k").asStr | throw (.refused "an entry has no key")
  let some main := (v.index "m").asU64 | throw (.refused "an entry has no main")
  let some sub := (v.index "s").asU64.filter (· ≤ u32Max) | throw (.refused "an entry has no sub")
  let value ← valueOf v
  return ⟨key, ⟨main, sub⟩, value, ← revOf (v.index "c"), ← revOf (v.index "p")⟩

def entriesOf : List (List Char) → Except Fault (List Entry)
  | [] => return []
  | line :: rest => do return (← entryOf codec line) :: (← entriesOf rest)

/-- A jump: of a list's first two items, whatever follows them. -/
def jumpOf (p : Json) : Except Fault (ℕ × ℕ) :=
  match p.asArray.map fun a ↦ (a[0]?.bind Json.asU64, a[1]?.bind Json.asU64) with
  | some (some a, some b) =>
    if a ≤ b then return (a, b) else throw (.refused "a jump is not [first, last]")
  | _ => throw (.refused "a jump is not [first, last]")

def jumpsOf : List Json → Except Fault (List (ℕ × ℕ))
  | [] => return []
  | p :: rest => do return (← jumpOf p) :: (← jumpsOf rest)

def jumpsField (h : Json) : Except Fault (List (ℕ × ℕ)) :=
  match h.get "jumps" with
  | none => return []
  | some j =>
    match j.asArray with
    | some l => jumpsOf l
    | none => throw (.refused "the header's jumps are not a list")

/-- What the object says, before its revisions are walked. -/
def read (bytes : ByteArray) : Except Fault Run := do
  let some text := String.fromUTF8? bytes | throw (.refused "the run is not UTF-8")
  let some (head, body) := Text.splitOnce '\n' text.toList
    | throw (.refused "the run has no header")
  let h ← parsed codec "the header" head
  let some from_ := (h.index "from").asU64 | throw (.refused "the header has no from")
  let some to_ := (h.index "to").asU64 | throw (.refused "the header has no to")
  let sum := sumOf sha256 body
  if (h.index "sha256").asStr ≠ some sum then
    throw (.refused s!"its body's sha256 is {sum}, not the header's")
  let entries ← entriesOf codec (Text.linesFrom [] body)
  if (h.index "entries").asU64 ≠ some entries.length then
    throw (.refused "the header's entry count is not the body's")
  let jumps ← jumpsField h
  if to_ < from_ then throw (.refused s!"its range {from_}..={to_} is empty")
  return ⟨from_, to_, entries, jumps⟩

end Format

/-- The next number of 64 bits. -/
def bump (m : ℕ) : Except Fault ℕ := if m < u64Max then return m + 1 else throw .panicked

def pushed (expect : List ℕ) (m : ℕ) : Except Fault (List ℕ) :=
  if expect.length < vecMax then return expect ++ [m] else throw .panicked

/-- The loop over `m`: the revisions the run must hold, every one up to `to_` outside a declared
jump, and the jumps that were not met.  The fuel is the revisions that are left. -/
def walk (run : Run) : ℕ → (m lastJump : ℕ) → List (ℕ × ℕ) → List ℕ →
    Except Fault (List ℕ × List (ℕ × ℕ))
  | 0, _, _, js, expect => return (expect, js)
  | fuel + 1, m, lastJump, js, expect =>
    if run.to_ < m then return (expect, js)
    else match js with
      | (a, b) :: rest =>
        if a ≤ m then
          if a ≠ m ∨ b < a ∨ run.to_ < b ∨ a ≤ lastJump then
            throw (.refused s!"the jump {a}..={b} is not inside {run.from_}..={run.to_} in order")
          else do walk run fuel (← bump b) b rest expect
        else do
          let expect ← pushed expect m
          walk run fuel (← bump m) lastJump js expect
      | [] => do
        let expect ← pushed expect m
        walk run fuel (← bump m) lastJump [] expect

/-- The main that is wanted next, for an entry of a new one. -/
def fresh (e : Entry) : List ℕ → Except Fault ((ℕ × ℕ) × List ℕ)
  | main :: want => return ((main, 0), want)
  | [] => throw (.refused s!"entry {e.key} at {e.rev.main}.{e.rev.sub} is past the run's revisions")

/-- The revision that is next, and the mains wanted after it. -/
def next (e : Entry) (cur : Option (ℕ × ℕ)) (want : List ℕ) :
    Except Fault ((ℕ × ℕ) × List ℕ) :=
  match cur with
  | some (main, sub) =>
    if e.rev.main = main then
      if sub < u32Max then return ((main, sub + 1), want) else throw .panicked
    else fresh e want
  | none => fresh e want

/-- The loop over the entries: where it stands, and the mains still wanted. -/
def follow : Option (ℕ × ℕ) → List ℕ → List Entry →
    Except Fault (Option (ℕ × ℕ) × List ℕ)
  | cur, want, [] => return (cur, want)
  | cur, want, e :: es => do
    let ((main, sub), want) ← next e cur want
    if e.rev.main ≠ main ∨ e.rev.sub ≠ sub then
      throw (.refused (s!"entry {e.key} at {e.rev.main}.{e.rev.sub} where " ++
        s!"{main}.{sub} was next"))
    else follow (some (main, sub)) want es

/-- Every main of the range present, in order, each one's subs numbered from 0. -/
def accept (run : Run) : Except Fault Run := do
  let (expect, left) ← walk run (run.to_ + 1 - run.from_) run.from_ (run.from_ - 1) run.jumps []
  if left ≠ [] then throw (.refused s!"a jump lies outside {run.from_}..={run.to_}")
  let (_, want) ← follow none expect run.entries
  match want with
  | [] => return run
  | m :: _ => throw (.refused (s!"its entries do not cover revision {m} of " ++
      s!"{run.from_}..={run.to_}, which no jump declares"))

def decode (codec : Json.Codec) (sha256 : ByteArray → ByteArray) (bytes : ByteArray) :
    Except Fault Run := do
  accept (← read codec sha256 bytes)

/-! ## The largest numbers and the faults -/

theorem u32Max_le_u64Max : u32Max ≤ u64Max := by norm_num [u32Max, u64Max]

theorem vecMax_le_u64Max : vecMax ≤ u64Max := by norm_num [vecMax, u64Max]

theorem u64Max_lt : u64Max < 2 ^ 64 := by norm_num [u64Max]

@[simp]
theorem ok_bind {α β : Type} (a : α) (f : α → Except Fault β) : (Except.ok a >>= f) = f a := rfl

@[simp]
theorem error_bind {α β : Type} (e : Fault) (f : α → Except Fault β) :
    (Except.error e >>= f) = .error e := rfl

@[simp]
theorem return_eq {α : Type} (a : α) : (pure a : Except Fault α) = .ok a := rfl

@[simp]
theorem throw_eq {α : Type} (e : Fault) : (throw e : Except Fault α) = .error e := rfl

/-! ## What is encoded is read -/

section Read

variable {codec : Json.Codec} {sha256 : ByteArray → ByteArray}

/-- The numbers of a revision are of their types. -/
def Small (r : Rev) : Prop := r.main ≤ u64Max ∧ r.sub ≤ u32Max

/-- A run whose numbers are of their types, and whose entries fit in a vector. -/
structure Typed (run : Run) : Prop where
  from_ : run.from_ ≤ u64Max
  to_ : run.to_ ≤ u64Max
  jump {j : ℕ × ℕ} (h : j ∈ run.jumps) : j.1 ≤ u64Max ∧ j.2 ≤ u64Max
  rev {e : Entry} (h : e ∈ run.entries) : Small e.rev
  createRev {e : Entry} (h : e ∈ run.entries) {r : Rev} (hr : e.createRev = some r) : Small r
  prev {e : Entry} (h : e ∈ run.entries) {r : Rev} (hr : e.prev = some r) : Small r
  length : run.entries.length ≤ vecMax

theorem asU64_of_le {n : ℕ} (h : n ≤ u64Max) : (Json.nat n).asU64 = some n :=
  Json.asU64_nat (h.trans_lt u64Max_lt)

theorem digit16_hexDigit {n : ℕ} (h : n < 16) : digit16 (Text.hexDigit n) = some n := by
  have hall : ∀ m : Fin 16, digit16 (Text.hexDigit m) = some m.val := by decide
  exact hall ⟨n, h⟩

theorem byteOf_hexDigit (b : UInt8) :
    byteOf (Text.hexDigit (b.toNat / 16)) (Text.hexDigit (b.toNat % 16)) = some b := by
  have hb : b.toNat < 256 := b.toNat_lt
  have hplus : Text.hexDigit (b.toNat / 16) ≠ '+' := by
    have hall : ∀ m : Fin 16, Text.hexDigit m ≠ '+' := by decide
    exact hall ⟨b.toNat / 16, by omega⟩
  rw [byteOf, if_neg hplus, digit16_hexDigit (by omega), digit16_hexDigit (by omega)]
  have hn : b.toNat / 16 * 16 + b.toNat % 16 = b.toNat := Nat.div_add_mod' _ _
  show some (UInt8.ofNat (b.toNat / 16 * 16 + b.toNat % 16)) = some b
  rw [hn, UInt8.ofNat_toNat]

theorem unhex_hex (bytes : ByteArray) : unhex (hex bytes) = some bytes := by
  have hlist (l : List UInt8) : unhexFrom (l.flatMap fun b ↦
      [Text.hexDigit (b.toNat / 16), Text.hexDigit (b.toNat % 16)]) = some l := by
    induction l with
    | nil => rfl
    | cons b l ih =>
      rw [List.flatMap_cons, List.cons_append, List.cons_append, List.nil_append, unhexFrom,
        byteOf_hexDigit, ih]
      rfl
  rw [unhex, hex, String.toList_ofList, hlist]
  rfl

theorem toByteArray_of_fromUTF8? {bytes : ByteArray} {text : String}
    (h : String.fromUTF8? bytes = some text) : text.toByteArray = bytes := by
  rw [String.fromUTF8?] at h
  split at h
  · rw [← Option.some.inj h]
    rfl
  · cases h

theorem fromUTF8?_toByteArray (text : String) : String.fromUTF8? text.toByteArray = some text := by
  rw [String.fromUTF8?, dif_pos text.isValidUTF8]
  rfl

theorem revOf_revJson {r : Option Rev} (h : ∀ r', r = some r' → Small r') :
    revOf (revJson r) = .ok r := by
  cases r with
  | none => rfl
  | some r =>
    obtain ⟨hmain, hsub⟩ := h r rfl
    rw [revJson, revOf, asU64_of_le hmain, asU64_of_le (hsub.trans u32Max_le_u64Max)]
    simp only [if_neg (not_lt.mpr hsub), return_eq]

/-- A value with no float that nests little is read as it was printed. -/
theorem parse_plain {v : Json} (hdepth : v.depth < Json.maxDepth)
    (hplain : ∀ f, v.mapFloats f = v) : codec.parse (codec.print v) = .ok v := by
  rw [codec.parse_print hdepth, hplain]

theorem parse_entryJson (e : Entry) :
    codec.parse (codec.print (entryJson e)) = .ok (entryJson e) := by
  have hrev (r : Option Rev) : (revJson r).depth ≤ 1 ∧ ∀ f, (revJson r).mapFloats f = revJson r := by
    cases r with
    | none => exact ⟨Nat.zero_le _, fun _ ↦ rfl⟩
    | some r => exact ⟨le_rfl, fun _ ↦ rfl⟩
  have hc := hrev e.createRev
  have hp := hrev e.prev
  have hv : Json.depthIn (valueFields e.value) = 0 ∧
      ∀ f, Json.mapFloatsIn f (valueFields e.value) = valueFields e.value := by
    unfold valueFields
    split
    · exact ⟨rfl, fun _ ↦ rfl⟩
    · split <;> exact ⟨rfl, fun _ ↦ rfl⟩
  refine parse_plain ?_ fun f ↦ ?_
  · simp only [entryJson, List.cons_append, List.nil_append, Json.depth, Json.depthIn, hv.1,
      Json.maxDepth, Json.nat]
    omega
  · simp only [entryJson, List.cons_append, List.nil_append, Json.mapFloats, Json.mapFloatsIn,
      hv.2, hc.2, hp.2, Json.nat]

theorem valueOf_entryJson (e : Entry) : valueOf (entryJson e) = .ok e.value := by
  have hget (k : String) (hk : k = "v" ∨ k = "vx") :
      (entryJson e).get k = (valueFields e.value).lookup k := by
    rcases hk with rfl | rfl <;> simp [entryJson, Json.get, List.lookup_cons]
  rw [valueOf, hget "v" (.inl rfl), hget "vx" (.inr rfl)]
  cases hval : e.value with
  | none => simp [valueFields, return_eq]
  | some bytes =>
    cases htext : String.fromUTF8? bytes with
    | some text =>
      have hv : (valueFields (some bytes)).lookup "v" = some (.str text) := by
        rw [valueFields.eq_def]
        simp [htext]
      have hvx : (valueFields (some bytes)).lookup "vx" = none := by
        rw [valueFields.eq_def]
        simp [htext, List.lookup_cons]
      rw [hv, hvx]
      simp only [Json.asStr, return_eq, toByteArray_of_fromUTF8? htext]
    | none =>
      have hv : (valueFields (some bytes)).lookup "v" = none := by
        rw [valueFields.eq_def]
        simp [htext, List.lookup_cons]
      have hvx : (valueFields (some bytes)).lookup "vx" = some (.str (hex bytes)) := by
        rw [valueFields.eq_def]
        simp [htext]
      rw [hv, hvx]
      simp only [Json.asStr, Option.getD_some, unhex_hex, return_eq]

theorem entryOf_print {e : Entry} (hrev : Small e.rev)
    (hcreate : ∀ r, e.createRev = some r → Small r) (hprev : ∀ r, e.prev = some r → Small r) :
    entryOf codec (codec.print (entryJson e)) = .ok e := by
  have hmain : ((entryJson e).index "m").asU64 = some e.rev.main := asU64_of_le hrev.1
  have hsub : ((entryJson e).index "s").asU64.filter (· ≤ u32Max) = some e.rev.sub := by
    have hs : ((entryJson e).index "s").asU64 = some e.rev.sub :=
      asU64_of_le (hrev.2.trans u32Max_le_u64Max)
    rw [hs, Option.filter_some, if_pos (decide_eq_true hrev.2)]
  have hc : revOf ((entryJson e).index "c") = .ok e.createRev := revOf_revJson hcreate
  have hp : revOf ((entryJson e).index "p") = .ok e.prev := revOf_revJson hprev
  have hk : ((entryJson e).index "k").asStr = some e.key := rfl
  rw [entryOf, parsed, parse_entryJson]
  simp only [return_eq, ok_bind, hk, hmain, hsub, valueOf_entryJson, hc, hp]

theorem entriesOf_print {entries : List Entry} (hrev : ∀ e ∈ entries, Small e.rev)
    (hcreate : ∀ e ∈ entries, ∀ r, e.createRev = some r → Small r)
    (hprev : ∀ e ∈ entries, ∀ r, e.prev = some r → Small r) :
    entriesOf codec (entries.map fun e ↦ codec.print (entryJson e)) = .ok entries := by
  induction entries with
  | nil => rfl
  | cons e entries ih =>
    rw [List.map_cons, entriesOf, entryOf_print (hrev e List.mem_cons_self)
      (hcreate e List.mem_cons_self) (hprev e List.mem_cons_self),
      ih (fun e' h ↦ hrev e' (List.mem_cons_of_mem e h))
        (fun e' h ↦ hcreate e' (List.mem_cons_of_mem e h))
        fun e' h ↦ hprev e' (List.mem_cons_of_mem e h)]
    rfl

theorem jumpsOf_map {jumps : List (ℕ × ℕ)} (h : ∀ j ∈ jumps, j.1 ≤ j.2 ∧ j.2 ≤ u64Max) :
    jumpsOf (jumps.map jumpJson) = .ok jumps := by
  induction jumps with
  | nil => rfl
  | cons j jumps ih =>
    obtain ⟨hle, hmax⟩ := h j List.mem_cons_self
    have hj : jumpOf (jumpJson j) = .ok j := by
      have ha : (Json.nat j.1).asU64 = some j.1 := asU64_of_le (hle.trans hmax)
      have hb : (Json.nat j.2).asU64 = some j.2 := asU64_of_le hmax
      simp only [jumpOf, jumpJson, Json.asArray, Option.map_some, List.getElem?_cons_zero,
        List.getElem?_cons_succ, Option.bind_some, ha, hb, if_pos hle, return_eq]
    rw [List.map_cons, jumpsOf, hj, ih fun j' hj' ↦ h j' (List.mem_cons_of_mem j hj')]
    rfl

theorem jumps_plain (jumps : List (ℕ × ℕ)) : Json.depthOf (jumps.map jumpJson) ≤ 1 ∧
    ∀ f, Json.mapFloatsOf f (jumps.map jumpJson) = jumps.map jumpJson := by
  induction jumps with
  | nil => exact ⟨Nat.zero_le _, fun _ ↦ rfl⟩
  | cons j jumps ih =>
    have hj : (jumpJson j).depth = 1 := rfl
    refine ⟨?_, fun f ↦ ?_⟩
    · rw [List.map_cons, Json.depthOf, hj]
      omega
    · rw [List.map_cons, Json.mapFloatsOf, ih.2 f]
      rfl

theorem parse_headerOf (run : Run) (sum : String) :
    codec.parse (codec.print (headerOf run sum)) = .ok (headerOf run sum) := by
  obtain ⟨hdepth, hplain⟩ := jumps_plain run.jumps
  refine parse_plain ?_ fun f ↦ ?_
  · rw [headerOf]
    split
    · exact Nat.lt_of_le_of_lt (m := 1) le_rfl (by decide)
    · simp only [List.cons_append, List.nil_append, Json.depth, Json.depthIn, Json.nat,
        Json.maxDepth]
      omega
  · rw [headerOf]
    split
    · rfl
    · simp only [List.cons_append, List.nil_append, Json.mapFloats, Json.mapFloatsIn, Json.nat,
        hplain]

theorem jumpsField_headerOf {run : Run} {sum : String}
    (h : ∀ j ∈ run.jumps, j.1 ≤ j.2 ∧ j.2 ≤ u64Max) :
    jumpsField (headerOf run sum) = .ok run.jumps := by
  have hget : (headerOf run sum).get "jumps" =
      if run.jumps = [] then none else some (.arr (run.jumps.map jumpJson)) := by
    rw [headerOf]
    split <;> rfl
  rw [jumpsField, hget]
  by_cases hnil : run.jumps = []
  · rw [if_pos hnil, hnil]
    rfl
  · rw [if_neg hnil]
    exact jumpsOf_map h

/-- **What is encoded is read.** -/
theorem read_encode {run : Run} (h : Typed run) (hrange : run.from_ ≤ run.to_)
    (hjumps : ∀ j ∈ run.jumps, j.1 ≤ j.2) : read codec sha256 (encode codec sha256 run) = .ok run := by
  set body := bodyOf codec run.entries with hbody
  have hsplit : Text.splitOnce '\n' (codec.print (headerOf run (sumOf sha256 body)) ++ '\n' :: body) =
      some (codec.print (headerOf run (sumOf sha256 body)), body) :=
    Text.splitOnce_cons (codec.newline _)
  have hlines : Text.linesFrom [] body = run.entries.map fun e ↦ codec.print (entryJson e) :=
    Text.linesFrom_flatMap (fun _ _ ↦ codec.newline _) fun _ _ h ↦
      codec.return_ _ (List.mem_of_getLast? h)
  have hentries : entriesOf codec (Text.linesFrom [] body) = .ok run.entries := by
    rw [hlines]
    exact entriesOf_print (fun _ ↦ h.rev) (fun _ he _ ↦ h.createRev he) fun _ he _ ↦ h.prev he
  have hfrom : ((headerOf run (sumOf sha256 body)).index "from").asU64 = some run.from_ :=
    asU64_of_le h.from_
  have hto : ((headerOf run (sumOf sha256 body)).index "to").asU64 = some run.to_ :=
    asU64_of_le h.to_
  have hlen : ((headerOf run (sumOf sha256 body)).index "entries").asU64 =
      some run.entries.length := asU64_of_le (h.length.trans vecMax_le_u64Max)
  have hsum : ((headerOf run (sumOf sha256 body)).index "sha256").asStr =
      some (sumOf sha256 body) := rfl
  have hj : jumpsField (headerOf run (sumOf sha256 body)) = .ok run.jumps :=
    jumpsField_headerOf fun j hm ↦ ⟨hjumps j hm, (h.jump hm).2⟩
  rw [encode, ← hbody, read, fromUTF8?_toByteArray]
  simp only [String.toList_ofList, hsplit, parsed, parse_headerOf, return_eq, ok_bind, hfrom, hto, hsum,
    ne_eq, not_true_eq_false, if_false, hentries, hlen, hj, if_neg (not_lt.mpr hrange)]

end Read

/-! ## The shape of a run -/

/-- A revision of no jump. -/
def Outside (js : List (ℕ × ℕ)) (n : ℕ) : Prop := ∀ j ∈ js, n < j.1 ∨ j.2 < n

instance (js : List (ℕ × ℕ)) (n : ℕ) : Decidable (Outside js n) :=
  inferInstanceAs (Decidable (∀ j ∈ js, n < j.1 ∨ j.2 < n))

/-- The revisions from `m` on that a run must hold. -/
def wanted (to_ m : ℕ) (js : List (ℕ × ℕ)) : List ℕ :=
  (List.range' m (to_ + 1 - m)).filter fun n ↦ decide (Outside js n)

/-- A transaction: its main, and how many entries it has, their subs numbered from 0. -/
def block (txn : ℕ × ℕ) : List Rev := (List.range txn.2).map fun sub ↦ ⟨txn.1, sub⟩

/-- Whole transactions, one for each revision of the range outside the jumps, in order; and the
jumps are inside the range, in order. -/
structure Shaped (run : Run) : Prop where
  range : run.from_ ≤ run.to_
  jump {j : ℕ × ℕ} (h : j ∈ run.jumps) : run.from_ ≤ j.1 ∧ j.1 ≤ j.2 ∧ j.2 ≤ run.to_
  order : run.jumps.Pairwise fun i j ↦ i.2 < j.1
  whole : ∃ txns : List (ℕ × ℕ), txns.map Prod.fst = wanted run.to_ run.from_ run.jumps ∧
    (∀ txn ∈ txns, 0 < txn.2) ∧ run.entries.map LogEntry.rev = txns.flatMap block

theorem wanted_of_lt {to_ m : ℕ} {js : List (ℕ × ℕ)} (h : to_ < m) : wanted to_ m js = [] := by
  have hn : to_ + 1 - m = 0 := by omega
  rw [wanted, hn]
  rfl

theorem wanted_push {to_ m : ℕ} {js : List (ℕ × ℕ)} (hm : m ≤ to_) (h : ∀ j ∈ js, m < j.1) :
    wanted to_ m js = m :: wanted to_ (m + 1) js := by
  have hn : to_ + 1 - m = to_ + 1 - (m + 1) + 1 := by omega
  have hout : Outside js m := fun j hj ↦ .inl (h j hj)
  rw [wanted, hn, List.range'_succ, List.filter_cons, if_pos (decide_eq_true hout)]
  rfl

/-- A jump takes its revisions out. -/
theorem wanted_jump {to_ m b : ℕ} {js : List (ℕ × ℕ)} (hm : m ≤ b) (hb : b ≤ to_) :
    wanted to_ m ((m, b) :: js) = wanted to_ (b + 1) js := by
  have hn : to_ + 1 - m = (b + 1 - m) + (to_ + 1 - (b + 1)) := by omega
  have hmid : m + 1 * (b + 1 - m) = b + 1 := by omega
  rw [wanted, hn, ← List.range'_append, List.filter_append, hmid, List.filter_eq_nil_iff.mpr,
    List.nil_append, wanted]
  · refine List.filter_congr fun n hn ↦ decide_eq_decide.mpr ?_
    have hlt : b < n := (List.mem_range'_1.mp hn).1
    refine ⟨fun h j hj ↦ h j (List.mem_cons_of_mem _ hj), fun h j hj ↦ ?_⟩
    rcases List.mem_cons.mp hj with rfl | hj
    · exact .inr hlt
    · exact h j hj
  · intro n hn h
    obtain ⟨hle, hlt⟩ := List.mem_range'_1.mp hn
    rcases of_decide_eq_true h (m, b) List.mem_cons_self with h | h
    · exact absurd h (not_lt.mpr hle)
    · have h' : b < n := h
      omega

/-! ## The walk over the revisions -/

/-- The jumps are in place from `m` on: each is inside the range, past the one before it and past
revision 0. -/
def InPlace (to_ : ℕ) : ℕ → List (ℕ × ℕ) → Prop
  | _, [] => True
  | m, (a, b) :: rest => (m ≤ a ∧ 0 < a ∧ b ≤ to_) ∧ InPlace to_ (b + 1) rest

/-- No jump out of place is met before the range's last revision is passed. -/
def Passes (to_ : ℕ) : ℕ → List (ℕ × ℕ) → Prop
  | _, [] => True
  | m, (a, b) :: rest =>
    if m ≤ a ∧ 0 < a ∧ b ≤ to_ then b = to_ ∨ Passes to_ (b + 1) rest else to_ < a

/-- How many revisions are wanted before the first jump that is out of place. -/
def asked (to_ : ℕ) : ℕ → List (ℕ × ℕ) → ℕ
  | m, [] => to_ + 1 - m
  | m, (a, b) :: rest =>
    if m ≤ a ∧ 0 < a ∧ b ≤ to_ then a - m + asked to_ (b + 1) rest else min a (to_ + 1) - m

/-- A header that no walk returns from: it claims the last revision there is, or more revisions
than a vector may hold. -/
def Runaway (run : Run) : Prop :=
  (run.to_ = u64Max ∧ Passes run.to_ run.from_ run.jumps) ∨
    vecMax < asked run.to_ run.from_ run.jumps

theorem InPlace.le {to_ m : ℕ} {js : List (ℕ × ℕ)} (hle : ∀ j ∈ js, j.1 ≤ j.2)
    (h : InPlace to_ m js) : ∀ j ∈ js, m ≤ j.1 ∧ 0 < j.1 ∧ j.2 ≤ to_ := by
  induction js generalizing m with
  | nil => exact fun _ hj ↦ nomatch hj
  | cons j js ih =>
    intro i hi
    have hj := hle j List.mem_cons_self
    have hhead : m ≤ j.1 ∧ 0 < j.1 ∧ j.2 ≤ to_ := h.1
    rcases List.mem_cons.mp hi with rfl | hi
    · exact hhead
    · obtain ⟨h₁, h₂, h₃⟩ := ih (fun i hi ↦ hle i (List.mem_cons_of_mem j hi)) h.2 i hi
      exact ⟨by omega, h₂, h₃⟩

theorem inPlace_iff {to_ m : ℕ} {js : List (ℕ × ℕ)} (hle : ∀ j ∈ js, j.1 ≤ j.2) :
    InPlace to_ m js ↔
      (∀ j ∈ js, m ≤ j.1 ∧ 0 < j.1 ∧ j.2 ≤ to_) ∧ js.Pairwise fun i j ↦ i.2 < j.1 := by
  refine ⟨fun h ↦ ⟨h.le hle, ?_⟩, fun ⟨hin, horder⟩ ↦ ?_⟩
  · induction js generalizing m with
    | nil => exact .nil
    | cons j js ih =>
      have hle' : ∀ i ∈ js, i.1 ≤ i.2 := fun i hi ↦ hle i (List.mem_cons_of_mem j hi)
      exact .cons (fun i hi ↦ (h.2.le hle' i hi).1) (ih hle' h.2)
  · induction js generalizing m with
    | nil => trivial
    | cons j js ih =>
      obtain ⟨hhead, htail⟩ := List.pairwise_cons.mp horder
      have hin' : ∀ i ∈ js, j.2 + 1 ≤ i.1 ∧ 0 < i.1 ∧ i.2 ≤ to_ := fun i hi ↦
        ⟨hhead i hi, (hin i (List.mem_cons_of_mem j hi)).2⟩
      exact ⟨hin j List.mem_cons_self,
        ih (fun i hi ↦ hle i (List.mem_cons_of_mem j hi)) ⟨hin', htail⟩ hin' htail⟩

theorem InPlace.passes {to_ m : ℕ} {js : List (ℕ × ℕ)} (h : InPlace to_ m js) :
    Passes to_ m js := by
  induction js generalizing m with
  | nil => trivial
  | cons j js ih =>
    rw [Passes, if_pos h.1]
    exact .inr (ih h.2)

theorem asked_push {to_ m : ℕ} {js : List (ℕ × ℕ)} (hm : m ≤ to_)
    (h : ∀ j, js.head? = some j → m < j.1) : asked to_ m js = asked to_ (m + 1) js + 1 := by
  cases js with
  | nil =>
    rw [asked, asked]
    omega
  | cons j js =>
    have hj := h j rfl
    rw [asked, asked]
    split_ifs <;> omega

theorem passes_push {to_ m : ℕ} {js : List (ℕ × ℕ)} (h : ∀ j, js.head? = some j → m < j.1) :
    Passes to_ (m + 1) js ↔ Passes to_ m js := by
  cases js with
  | nil => exact Iff.rfl
  | cons j js =>
    have hj := h j rfl
    have hcond : (m + 1 ≤ j.1 ∧ 0 < j.1 ∧ j.2 ≤ to_) ↔ (m ≤ j.1 ∧ 0 < j.1 ∧ j.2 ≤ to_) := by
      omega
    simp only [Passes, hcond]

theorem inPlace_push {to_ m : ℕ} {js : List (ℕ × ℕ)} (h : ∀ j, js.head? = some j → m < j.1) :
    InPlace to_ (m + 1) js ↔ InPlace to_ m js := by
  cases js with
  | nil => exact Iff.rfl
  | cons j js =>
    have hj := h j rfl
    have hcond : (m + 1 ≤ j.1 ∧ 0 < j.1 ∧ j.2 ≤ to_) ↔ (m ≤ j.1 ∧ 0 < j.1 ∧ j.2 ≤ to_) := by
      omega
    simp only [InPlace, hcond]

theorem asked_of_lt {to_ m : ℕ} {js : List (ℕ × ℕ)} (hle : ∀ j ∈ js, j.1 ≤ j.2) (h : to_ < m) :
    asked to_ m js = 0 := by
  cases js with
  | nil =>
    rw [asked]
    omega
  | cons j js =>
    have hj := hle j List.mem_cons_self
    rw [asked, if_neg (by omega)]
    omega

/-- As many revisions are asked for as the run must hold. -/
theorem asked_eq {to_ m : ℕ} {js : List (ℕ × ℕ)} (hle : ∀ j ∈ js, j.1 ≤ j.2)
    (h : InPlace to_ m js) : asked to_ m js = (wanted to_ m js).length := by
  obtain ⟨n, hn⟩ : ∃ n, to_ + 1 - m = n := ⟨_, rfl⟩
  induction n using Nat.strong_induction_on generalizing m js with
  | _ n ih =>
    by_cases hm : m ≤ to_
    · cases js with
      | nil =>
        have hstep : asked to_ (m + 1) [] = (wanted to_ (m + 1) []).length :=
          ih (n - 1) (by omega) (fun _ hi ↦ nomatch hi) trivial (by omega)
        rw [asked_push hm (by simp), wanted_push hm (by simp), hstep, List.length_cons]
      | cons j js =>
        have hj := hle j List.mem_cons_self
        have hjs : ∀ i ∈ js, i.1 ≤ i.2 := fun i hi ↦ hle i (List.mem_cons_of_mem j hi)
        obtain ⟨hma, -, hb⟩ := h.1
        rcases hma.lt_or_eq with hlt | heq
        · have hhead : ∀ i, (j :: js).head? = some i → m < i.1 := by
            intro i hi
            rwa [← Option.some.inj hi]
          have hall : ∀ i ∈ j :: js, m < i.1 := fun i hi ↦
            ((inPlace_push hhead).mpr h |>.le hle i hi).1
          have hstep := ih (n - 1) (by omega) hle ((inPlace_push hhead).mpr h) (by omega)
          rw [asked_push hm hhead, wanted_push hm hall, hstep, List.length_cons]
        · obtain ⟨a, b⟩ := j
          obtain rfl : m = a := heq
          have hb' : b ≤ to_ := hb
          have hmb : m ≤ b := hj
          have hstep := ih (to_ + 1 - (b + 1)) (by omega) hjs h.2 rfl
          rw [asked, if_pos h.1, wanted_jump hmb hb', hstep]
          omega
    · rw [asked_of_lt hle (not_le.mp hm), wanted_of_lt (not_le.mp hm)]
      rfl

/-- Where no jump is to be taken, the walk asks for a revision. -/
theorem walk_push {run : Run} {fuel m lastJump : ℕ} {js : List (ℕ × ℕ)} {expect : List ℕ}
    (hm : m ≤ run.to_) (h : ∀ j, js.head? = some j → m < j.1) :
    walk run (fuel + 1) m lastJump js expect =
      (pushed expect m >>= fun expect ↦ bump m >>= fun m ↦ walk run fuel m lastJump js expect) := by
  cases js with
  | nil => rw [walk, if_neg (not_lt.mpr hm)]
  | cons j js =>
    obtain ⟨a, b⟩ := j
    have ha : m < a := h _ rfl
    rw [walk, if_neg (not_lt.mpr hm)]
    simp only [if_neg (not_le.mpr ha)]

theorem walk_jump {run : Run} {fuel m lastJump b : ℕ} {js : List (ℕ × ℕ)} {expect : List ℕ}
    (hm : m ≤ run.to_) (hb : b ≤ run.to_) (hmb : m ≤ b) (hlast : lastJump < m) :
    walk run (fuel + 1) m lastJump ((m, b) :: js) expect =
      (bump b >>= fun m ↦ walk run fuel m b js expect) := by
  have hbad : ¬ (m ≠ m ∨ b < m ∨ run.to_ < b ∨ m ≤ lastJump) := by omega
  rw [walk, if_neg (not_lt.mpr hm)]
  simp only [if_pos le_rfl, if_neg hbad]

theorem walk_refused {run : Run} {fuel m lastJump : ℕ} {j : ℕ × ℕ} {js : List (ℕ × ℕ)}
    {expect : List ℕ} (hm : m ≤ run.to_) (ha : j.1 ≤ m)
    (hbad : j.1 ≠ m ∨ run.to_ < j.2 ∨ j.1 ≤ lastJump) :
    ∃ why, walk run (fuel + 1) m lastJump (j :: js) expect = .error (.refused why) := by
  obtain ⟨a, b⟩ := j
  have hbad' : a ≠ m ∨ b < a ∨ run.to_ < b ∨ a ≤ lastJump := by
    rcases hbad with h | h | h
    · exact .inl h
    · exact .inr (.inr (.inl h))
    · exact .inr (.inr (.inr h))
  rw [walk, if_neg (not_lt.mpr hm)]
  simp only [if_pos (show a ≤ m from ha), if_pos hbad']
  exact ⟨_, rfl⟩

theorem pushed_cases (expect : List ℕ) (m : ℕ) :
    (expect.length < vecMax ∧ pushed expect m = .ok (expect ++ [m])) ∨
      (vecMax ≤ expect.length ∧ pushed expect m = .error .panicked) := by
  by_cases h : expect.length < vecMax
  · exact .inl ⟨h, if_pos h⟩
  · exact .inr ⟨not_lt.mp h, if_neg h⟩

theorem bump_cases (m : ℕ) :
    (m < u64Max ∧ bump m = .ok (m + 1)) ∨ (u64Max ≤ m ∧ bump m = .error .panicked) := by
  by_cases h : m < u64Max
  · exact .inl ⟨h, if_pos h⟩
  · exact .inr ⟨not_lt.mp h, if_neg h⟩

/-- What a walk from `m` on gives: it panics exactly where it runs away, and else it gives the
revisions the run must hold, with no jump left, exactly where the jumps are in place. -/
structure Walked (run : Run) (m : ℕ) (js : List (ℕ × ℕ)) (expect : List ℕ)
    (out : Except Fault (List ℕ × List (ℕ × ℕ))) : Prop where
  panicked : out = .error .panicked ↔
    (run.to_ = u64Max ∧ m ≤ run.to_ ∧ Passes run.to_ m js) ∨
      vecMax < expect.length + asked run.to_ m js
  sound {l : List ℕ} (h : out = .ok (l, [])) :
    InPlace run.to_ m js ∧ l = expect ++ wanted run.to_ m js
  complete (h : InPlace run.to_ m js) :
    out = .error .panicked ∨ out = .ok (expect ++ wanted run.to_ m js, [])

/-- What the rest of a walk gives is what the walk gives, where a revision was asked for first. -/
theorem Walked.push {run : Run} {m : ℕ} {js : List (ℕ × ℕ)} {expect : List ℕ}
    {out : Except Fault (List ℕ × List (ℕ × ℕ))} (h : Walked run (m + 1) js (expect ++ [m]) out)
    (hm : m ≤ run.to_) (hmax : m < u64Max) (hle : ∀ j ∈ js, j.1 ≤ j.2)
    (hhead : ∀ j, js.head? = some j → m < j.1) : Walked run m js expect out := by
  have hlen : (expect ++ [m]).length = expect.length + 1 := by simp
  have hasked := asked_push hm hhead
  -- a jump in place starts past the revision
  have hwanted (hin : InPlace run.to_ (m + 1) js) :
      expect ++ [m] ++ wanted run.to_ (m + 1) js = expect ++ wanted run.to_ m js := by
    rw [wanted_push hm fun j hj ↦ (hin.le hle j hj).1, List.append_assoc]
    rfl
  refine ⟨h.panicked.trans ?_, fun hout ↦ ?_, fun hin ↦ ?_⟩
  · have hlast : run.to_ = u64Max ∧ m + 1 ≤ run.to_ ↔ run.to_ = u64Max ∧ m ≤ run.to_ := by omega
    have hcount : expect.length + 1 + asked run.to_ (m + 1) js =
        expect.length + (asked run.to_ (m + 1) js + 1) := by omega
    rw [passes_push hhead, hasked, hlen, hcount, ← and_assoc, ← and_assoc, hlast]
  · obtain ⟨hin, hl⟩ := h.sound hout
    exact ⟨(inPlace_push hhead).mp hin, hl.trans (hwanted hin)⟩
  · have hin' := (inPlace_push hhead).mpr hin
    rw [← hwanted hin']
    exact h.complete hin'

/-- And where a jump was taken first. -/
theorem Walked.jump {run : Run} {m b : ℕ} {js : List (ℕ × ℕ)} {expect : List ℕ}
    {out : Except Fault (List ℕ × List (ℕ × ℕ))} (h : Walked run (b + 1) js expect out)
    (hpos : 0 < m) (hmb : m ≤ b) (hb : b ≤ run.to_) (hmax : b < u64Max) :
    Walked run m ((m, b) :: js) expect out := by
  have hcond : m ≤ m ∧ 0 < m ∧ b ≤ run.to_ := ⟨le_rfl, hpos, hb⟩
  have hwanted : wanted run.to_ m ((m, b) :: js) = _ := wanted_jump hmb hb
  refine ⟨h.panicked.trans ?_, fun hout ↦ ?_, fun hin ↦ ?_⟩
  · have hlast : run.to_ = u64Max ∧ b + 1 ≤ run.to_ ∧ Passes run.to_ (b + 1) js ↔
        run.to_ = u64Max ∧ m ≤ run.to_ ∧ (b = run.to_ ∨ Passes run.to_ (b + 1) js) := by
      refine ⟨fun ⟨h, _, hp⟩ ↦ ⟨h, hmb.trans hb, .inr hp⟩, fun ⟨h, _, hp⟩ ↦ ⟨h, by omega, ?_⟩⟩
      exact hp.resolve_left (by omega)
    rw [Passes, asked, if_pos hcond, if_pos hcond, Nat.sub_self, Nat.zero_add, hlast]
  · obtain ⟨hin, hl⟩ := h.sound hout
    rw [hwanted]
    exact ⟨⟨hcond, hin⟩, hl⟩
  · rw [hwanted]
    exact h.complete hin.2

/-- Past the last revision the walk is over. -/
theorem walked_of_lt {run : Run} {m : ℕ} {js : List (ℕ × ℕ)} {expect : List ℕ}
    (hle : ∀ j ∈ js, j.1 ≤ j.2) (hfits : expect.length ≤ vecMax) (hm : run.to_ < m) :
    Walked run m js expect (.ok (expect, js)) := by
  have hwanted : wanted run.to_ m js = [] := wanted_of_lt hm
  refine ⟨⟨nofun, ?_⟩, fun hout ↦ ?_, fun hin ↦ ?_⟩
  · rw [asked_of_lt hle hm]
    omega
  · obtain ⟨rfl, rfl⟩ := Prod.mk.inj (Except.ok.inj hout)
    rw [hwanted, List.append_nil]
    exact ⟨trivial, rfl⟩
  · cases js with
    | nil =>
      rw [hwanted, List.append_nil]
      exact .inr rfl
    | cons j js =>
      have hj := hle j List.mem_cons_self
      obtain ⟨hma, -, hb⟩ := hin.1
      omega

/-- At a jump out of place the walk refuses the run. -/
theorem walked_refused {run : Run} {m : ℕ} {j : ℕ × ℕ} {js : List (ℕ × ℕ)} {expect : List ℕ}
    {why : String} (hfits : expect.length ≤ vecMax) (hm : m ≤ run.to_) (ha : j.1 ≤ m)
    (hbad : ¬ (m ≤ j.1 ∧ 0 < j.1 ∧ j.2 ≤ run.to_)) :
    Walked run m (j :: js) expect (.error (.refused why)) := by
  refine ⟨⟨nofun, ?_⟩, nofun, fun hin ↦ absurd hin.1 hbad⟩
  rw [Passes, asked, if_neg hbad, if_neg hbad]
  omega

theorem walked {run : Run} (hto : run.to_ ≤ u64Max) {fuel m lastJump : ℕ} {js : List (ℕ × ℕ)}
    {expect : List ℕ} (hfuel : run.to_ + 1 ≤ m + fuel) (hlast : lastJump < m ∨ lastJump = 0)
    (hle : ∀ j ∈ js, j.1 ≤ j.2) (hmax : ∀ j ∈ js, j.2 ≤ u64Max) (hfits : expect.length ≤ vecMax) :
    Walked run m js expect (walk run fuel m lastJump js expect) := by
  induction fuel generalizing m lastJump js expect with
  | zero => exact walked_of_lt hle hfits (by omega)
  | succ fuel ih =>
    by_cases hm : m ≤ run.to_
    · by_cases hhead : ∀ j, js.head? = some j → m < j.1
      · have hasked := asked_push hm hhead
        rw [walk_push hm hhead]
        rcases pushed_cases expect m with ⟨hlt, hpush⟩ | ⟨hge, hpush⟩
        · rw [hpush, ok_bind]
          rcases bump_cases m with ⟨hm', hbump⟩ | ⟨hm', hbump⟩
          · rw [hbump, ok_bind]
            have hlen : (expect ++ [m]).length ≤ vecMax := by
              rw [List.length_append, List.length_singleton]
              omega
            have hrest : Walked run (m + 1) js (expect ++ [m])
                (walk run fuel (m + 1) lastJump js (expect ++ [m])) :=
              ih (by omega) (by omega) hle hmax hlen
            exact hrest.push hm hm' hle hhead
          · -- no jump starts past the largest number
            rw [hbump, error_bind]
            have hjs : js = [] := by
              rcases js with - | ⟨j, js⟩
              · rfl
              · have hj := hhead j rfl
                have hj' := hle j List.mem_cons_self
                have hj'' := hmax j List.mem_cons_self
                omega
            have hpasses : Passes run.to_ m js := by
              rw [hjs]
              trivial
            exact ⟨⟨fun _ ↦ .inl ⟨by omega, hm, hpasses⟩, fun _ ↦ rfl⟩, nofun, fun _ ↦ .inl rfl⟩
        · rw [hpush, error_bind]
          exact ⟨⟨fun _ ↦ .inr (by omega), fun _ ↦ rfl⟩, nofun, fun _ ↦ .inl rfl⟩
      · obtain ⟨j, js, rfl, ha⟩ : ∃ j js', js = j :: js' ∧ j.1 ≤ m := by
          rcases js with - | ⟨j, js⟩
          · exact absurd nofun hhead
          · refine ⟨j, js, rfl, not_lt.mp fun h ↦ hhead fun i hi ↦ ?_⟩
            rwa [← Option.some.inj hi]
        have hle' : ∀ i ∈ js, i.1 ≤ i.2 := fun i hi ↦ hle i (List.mem_cons_of_mem j hi)
        have hmax' : ∀ i ∈ js, i.2 ≤ u64Max := fun i hi ↦ hmax i (List.mem_cons_of_mem j hi)
        by_cases hgood : m ≤ j.1 ∧ 0 < j.1 ∧ j.2 ≤ run.to_
        · obtain ⟨a, b⟩ := j
          obtain rfl : a = m := le_antisymm ha hgood.1
          have hab : a ≤ b := hle _ List.mem_cons_self
          have hb : b ≤ run.to_ := hgood.2.2
          rw [walk_jump hm hb hab (by omega)]
          rcases bump_cases b with ⟨hb', hbump⟩ | ⟨hb', hbump⟩
          · rw [hbump, ok_bind]
            have hrest : Walked run (b + 1) js expect (walk run fuel (b + 1) b js expect) :=
              ih (by omega) (by omega) hle' hmax' hfits
            exact hrest.jump hgood.2.1 hab hb hb'
          · rw [hbump, error_bind]
            have hpasses : Passes run.to_ a ((a, b) :: js) := by
              rw [Passes, if_pos hgood]
              exact .inl (by omega)
            exact ⟨⟨fun _ ↦ .inl ⟨by omega, hm, hpasses⟩, fun _ ↦ rfl⟩, nofun, fun _ ↦ .inl rfl⟩
        · obtain ⟨why, hwhy⟩ : ∃ why,
              walk run (fuel + 1) m lastJump (j :: js) expect = .error (.refused why) :=
            walk_refused hm ha (by omega)
          rw [hwhy]
          exact walked_refused hfits hm ha hgood
    · have hwalk : walk run (fuel + 1) m lastJump js expect = .ok (expect, js) := by
        rcases js with - | ⟨j, js⟩ <;> rw [walk, if_pos (not_le.mp hm), return_eq]
      rw [hwalk]
      exact walked_of_lt hle hfits (not_le.mp hm)

/-! ## The entries -/

/-- Where the loop over the entries stands after those of whole transactions. -/
def stands (txns : List (ℕ × ℕ)) : Option (ℕ × ℕ) := txns.getLast?.map fun txn ↦ (txn.1, txn.2 - 1)

/-- Entries that whole transactions of the first of `expect` account for: where the loop stands,
and the revisions it still wants. -/
def Accounted (expect : List ℕ) (revs : List Rev) (cur : Option (ℕ × ℕ)) (want : List ℕ) : Prop :=
  ∃ txns : List (ℕ × ℕ), txns.map Prod.fst ++ want = expect ∧ (∀ txn ∈ txns, 0 < txn.2) ∧
    revs = txns.flatMap block ∧ cur = stands txns

theorem block_succ (m n : ℕ) : block (m, n + 1) = block (m, n) ++ [⟨m, n⟩] := by
  rw [block, List.range_succ, List.map_append]
  rfl

theorem Accounted.step {expect : List ℕ} {revs : List Rev} {cur : Option (ℕ × ℕ)}
    {want want' : List ℕ} {e : Entry} {at_ : ℕ × ℕ} (h : Accounted expect revs cur want)
    (hnext : next e cur want = .ok (at_, want')) (hrev : e.rev = ⟨at_.1, at_.2⟩) :
    Accounted expect (revs ++ [e.rev]) (some at_) want' := by
  obtain ⟨txns, hexpect, hpos, rfl, rfl⟩ := h
  -- an entry of a new transaction
  have hfresh (h : fresh e want = .ok (at_, want')) :
      Accounted expect (txns.flatMap block ++ [e.rev]) (some at_) want' := by
    rcases want with - | ⟨main, want⟩
    · cases h
    · obtain ⟨rfl, rfl⟩ := Prod.mk.inj (Except.ok.inj h)
      refine ⟨txns ++ [(main, 1)], ?_, ?_, ?_, ?_⟩
      · rw [List.map_append, List.append_assoc, ← hexpect]
        rfl
      · intro txn htxn
        rcases List.mem_append.mp htxn with htxn | htxn
        · exact hpos txn htxn
        · rw [List.mem_singleton.mp htxn]
          exact Nat.one_pos
      · rw [List.flatMap_append, hrev]
        rfl
      · rw [stands, List.getLast?_concat]
        rfl
  rcases List.eq_nil_or_concat txns with rfl | ⟨init, ⟨m, n⟩, rfl⟩
  · exact hfresh hnext
  · have hn : 0 < n := hpos (m, n) (by simp)
    have hstands : stands (init ++ [(m, n)]) = some (m, n - 1) := by
      rw [stands, List.getLast?_concat]
      rfl
    rw [List.concat_eq_append, hstands] at hnext
    by_cases hm : e.rev.main = m
    · rw [next, if_pos hm] at hnext
      split at hnext
      · obtain ⟨rfl, rfl⟩ := Prod.mk.inj (Except.ok.inj hnext)
        have hsucc : n - 1 + 1 = n := by omega
        refine ⟨init ++ [(m, n + 1)], ?_, ?_, ?_, ?_⟩
        · rw [← hexpect, List.concat_eq_append, List.map_append, List.map_append]
          rfl
        · intro txn htxn
          rcases List.mem_append.mp htxn with htxn | htxn
          · exact hpos txn (by rw [List.concat_eq_append]; exact List.mem_append_left _ htxn)
          · rw [List.mem_singleton.mp htxn]
            exact Nat.succ_pos n
        · rw [hrev, hsucc, List.concat_eq_append, List.flatMap_append, List.flatMap_append,
            List.flatMap_singleton, List.flatMap_singleton, block_succ, List.append_assoc]
        · rw [stands, List.getLast?_concat, hsucc]
          rfl
      · cases hnext
    · rw [next, if_neg hm] at hnext
      exact hfresh hnext

/-- One entry read, and the rest. -/
theorem follow_cons (cur : Option (ℕ × ℕ)) (want : List ℕ) (e : Entry) (es : List Entry) :
    (∃ at_ want', next e cur want = .ok (at_, want') ∧ e.rev = ⟨at_.1, at_.2⟩ ∧
        follow cur want (e :: es) = follow (some at_) want' es) ∨
      (next e cur want = .error .panicked ∧ follow cur want (e :: es) = .error .panicked) ∨
      ∃ why, follow cur want (e :: es) = .error (.refused why) := by
  rw [follow]
  rcases hnext : next e cur want with (why | _) | ⟨⟨main, sub⟩, want'⟩
  · exact .inr (.inr ⟨why, rfl⟩)
  · exact .inr (.inl ⟨rfl, rfl⟩)
  · rw [ok_bind]
    by_cases hne : e.rev.main ≠ main ∨ e.rev.sub ≠ sub
    · simp only [if_pos hne]
      exact .inr (.inr ⟨_, rfl⟩)
    · simp only [if_neg hne]
      push Not at hne
      obtain ⟨hmain, hsub⟩ := hne
      refine .inl ⟨(main, sub), want', rfl, ?_, rfl⟩
      rw [← hmain, ← hsub]

theorem next_panicked {e : Entry} {cur : Option (ℕ × ℕ)} {want : List ℕ}
    (h : next e cur want = .error .panicked) :
    ∃ sub, cur = some (e.rev.main, sub) ∧ u32Max ≤ sub := by
  have hfresh (h : fresh e want = .error .panicked) : False := by
    rcases want with - | ⟨main, want⟩ <;> cases h
  rcases cur with - | ⟨main, sub⟩
  · exact (hfresh h).elim
  · by_cases hm : e.rev.main = main
    · rw [next, if_pos hm] at h
      split at h
      · cases h
      · rename_i hsub
        exact ⟨sub, by rw [hm], not_lt.mp hsub⟩
    · rw [next, if_neg hm] at h
      exact (hfresh h).elim

/-- The entries that are read are accounted for. -/
theorem Accounted.follow {expect : List ℕ} {revs : List Rev} {cur cur' : Option (ℕ × ℕ)}
    {want want' : List ℕ} {es : List Entry} (h : Accounted expect revs cur want)
    (hfollow : follow cur want es = .ok (cur', want')) :
    Accounted expect (revs ++ es.map LogEntry.rev) cur' want' := by
  induction es generalizing revs cur want with
  | nil =>
    obtain ⟨rfl, rfl⟩ := Prod.mk.inj (Except.ok.inj hfollow)
    rwa [List.map_nil, List.append_nil]
  | cons e es ih =>
    rcases follow_cons cur want e es with ⟨at_, want₁, hnext, hrev, heq⟩ | ⟨-, heq⟩ | ⟨why, heq⟩
    · have hrest := ih (h.step hnext hrev) (heq ▸ hfollow)
      rwa [List.append_assoc] at hrest
    · rw [heq] at hfollow
      cases hfollow
    · rw [heq] at hfollow
      cases hfollow

/-- Where the loop over the entries panics, it stands at the last sub there is, and the entry
after it is of the same main. -/
theorem Accounted.panicked {expect : List ℕ} {revs : List Rev} {cur : Option (ℕ × ℕ)}
    {want : List ℕ} {es : List Entry} (h : Accounted expect revs cur want)
    (hfollow : Revlog.follow cur want es = .error .panicked) :
    ∃ es₁ e es₂ sub want', es = es₁ ++ e :: es₂ ∧ u32Max ≤ sub ∧
      Accounted expect (revs ++ es₁.map LogEntry.rev) (some (e.rev.main, sub)) want' := by
  induction es generalizing revs cur want with
  | nil => cases hfollow
  | cons e es ih =>
    rcases follow_cons cur want e es with ⟨at_, want₁, hnext, hrev, heq⟩ | ⟨hnext, -⟩ | ⟨why, heq⟩
    · obtain ⟨es₁, e', es₂, sub, want', rfl, hsub, hacc⟩ :=
        ih (h.step hnext hrev) (heq ▸ hfollow)
      rw [List.append_assoc] at hacc
      exact ⟨e :: es₁, e', es₂, sub, want', rfl, hsub, hacc⟩
    · obtain ⟨sub, rfl, hsub⟩ := next_panicked hnext
      refine ⟨[], e, es, sub, want, rfl, hsub, ?_⟩
      rwa [List.map_nil, List.append_nil]
    · rw [heq] at hfollow
      cases hfollow

/-- The rest of a transaction is read. -/
theorem follow_rest {m sub : ℕ} {want : List ℕ} {es es' : List Entry}
    (h : es.map LogEntry.rev = (List.range' (sub + 1) es.length).map fun s ↦ ⟨m, s⟩)
    (hmax : sub + es.length ≤ u32Max) :
    follow (some (m, sub)) want (es ++ es') = follow (some (m, sub + es.length)) want es' := by
  induction es generalizing sub with
  | nil => rfl
  | cons e es ih =>
    rw [List.map_cons, List.length_cons, List.range'_succ, List.map_cons] at h
    obtain ⟨hrev, hrest⟩ := List.cons.inj h
    rw [List.length_cons] at hmax
    have hmain : e.rev.main = m := by rw [hrev]
    have hsub : e.rev.sub = sub + 1 := by rw [hrev]
    have hne : ¬ (e.rev.main ≠ m ∨ e.rev.sub ≠ sub + 1) := by simp [hmain, hsub]
    have hlen : sub + (e :: es).length = sub + 1 + es.length := by
      rw [List.length_cons]
      omega
    rw [List.cons_append, follow, next, if_pos hmain, if_pos (by omega), return_eq, ok_bind]
    simp only [if_neg hne]
    rw [ih hrest (by omega), hlen]

/-- A whole transaction of the revision that is wanted next is read. -/
theorem follow_block {cur : Option (ℕ × ℕ)} {m n : ℕ} {want : List ℕ} {es es' : List Entry}
    (hcur : ∀ c, cur = some c → c.1 ≠ m) (hn : 0 < n) (hmax : n - 1 ≤ u32Max)
    (h : es.map LogEntry.rev = block (m, n)) :
    follow cur (m :: want) (es ++ es') = follow (some (m, n - 1)) want es' := by
  obtain ⟨k, rfl⟩ : ∃ k, n = k + 1 := ⟨n - 1, by omega⟩
  have hlen : es.length = k + 1 := by
    rw [← List.length_map (f := LogEntry.rev), h, block, List.length_map, List.length_range]
  rcases es with - | ⟨e, es⟩
  · cases hlen
  · rw [block, List.range_eq_range', List.range'_succ, List.map_cons, List.map_cons] at h
    obtain ⟨hrev, hrest⟩ := List.cons.inj h
    have hlen' : es.length = k := Nat.succ.inj hlen
    have hnext : next e cur (m :: want) = .ok ((m, 0), want) := by
      rcases cur with - | c
      · rfl
      · have hne : e.rev.main ≠ c.1 := by
          rw [hrev]
          exact (hcur c rfl).symm
        rw [next, if_neg hne]
        rfl
    have hne : ¬ (e.rev.main ≠ m ∨ e.rev.sub ≠ 0) := by simp [hrev]
    rw [List.cons_append, follow, hnext, ok_bind]
    simp only [if_neg hne]
    rw [follow_rest (by rw [hlen', hrest]) (by omega), hlen', Nat.zero_add, Nat.add_sub_cancel]

/-- Whole transactions of the revisions that are wanted are read. -/
theorem follow_blocks {cur : Option (ℕ × ℕ)} {txns : List (ℕ × ℕ)} {want : List ℕ}
    {es es' : List Entry} (hcur : ∀ c, cur = some c → c.1 ∉ txns.map Prod.fst)
    (hnodup : (txns.map Prod.fst).Nodup) (hpos : ∀ txn ∈ txns, 0 < txn.2)
    (hmax : ∀ txn ∈ txns, txn.2 - 1 ≤ u32Max) (h : es.map LogEntry.rev = txns.flatMap block) :
    follow cur (txns.map Prod.fst ++ want) (es ++ es') =
      follow ((stands txns).or cur) want es' := by
  induction txns generalizing cur es with
  | nil =>
    obtain rfl : es = [] := List.map_eq_nil_iff.mp h
    rfl
  | cons txn txns ih =>
    obtain ⟨m, n⟩ := txn
    rw [List.flatMap_cons] at h
    obtain ⟨es₁, es₂, rfl, h₁, h₂⟩ := List.map_eq_append_iff.mp h
    obtain ⟨hm, hnodup'⟩ := List.nodup_cons.mp hnodup
    have hcur' (c : ℕ × ℕ) (hc : cur = some c) : c.1 ≠ m := fun e ↦
      hcur c hc (e ▸ List.mem_cons_self)
    rw [List.map_cons, List.cons_append, List.append_assoc,
      follow_block hcur' (hpos _ List.mem_cons_self) (hmax _ List.mem_cons_self) h₁,
      ih (fun c hc ↦ by rw [← Option.some.inj hc]; exact hm) hnodup'
        (fun t ht ↦ hpos t (List.mem_cons_of_mem _ ht))
        (fun t ht ↦ hmax t (List.mem_cons_of_mem _ ht)) h₂]
    rcases List.eq_nil_or_concat txns with rfl | ⟨init, last, rfl⟩
    · rfl
    · rw [List.concat_eq_append, stands, List.getLast?_concat, stands, ← List.cons_append,
        List.getLast?_concat]
      rfl

/-! ## What is accepted -/

/-- A transaction with every sub there is, and an entry of its main after it. -/
def Crowded (run : Run) : Prop :=
  InPlace run.to_ run.from_ run.jumps ∧
    ∃ (txns : List (ℕ × ℕ)) (m n : ℕ) (want : List ℕ) (e : Rev) (rest : List Rev),
      (txns ++ [(m, n)]).map Prod.fst ++ want = wanted run.to_ run.from_ run.jumps ∧
        (∀ txn ∈ txns, 0 < txn.2) ∧ n = u32Max + 1 ∧ e.main = m ∧
        run.entries.map LogEntry.rev = (txns ++ [(m, n)]).flatMap block ++ e :: rest

/-- What the bytes of a run are read as: its numbers are of their types. -/
structure Bounded (run : Run) : Prop where
  range : run.from_ ≤ run.to_
  to_ : run.to_ ≤ u64Max
  jump {j : ℕ × ℕ} (h : j ∈ run.jumps) : j.1 ≤ j.2 ∧ j.2 ≤ u64Max
  sub {e : Entry} (h : e ∈ run.entries) : e.rev.sub ≤ u32Max

theorem Typed.bounded {run : Run} (h : Typed run) (hrange : run.from_ ≤ run.to_)
    (hjumps : ∀ j ∈ run.jumps, j.1 ≤ j.2) : Bounded run where
  range := hrange
  to_ := h.to_
  jump hj := ⟨hjumps _ hj, (h.jump hj).2⟩
  sub he := (h.rev he).2

theorem wanted_nodup (to_ m : ℕ) (js : List (ℕ × ℕ)) : (wanted to_ m js).Nodup :=
  List.Nodup.filter _ List.nodup_range'

theorem sub_mem_block {txn : ℕ × ℕ} (h : 0 < txn.2) : (⟨txn.1, txn.2 - 1⟩ : Rev) ∈ block txn :=
  List.mem_map.mpr ⟨txn.2 - 1, List.mem_range.mpr (by omega), rfl⟩

theorem length_le_blocks {txns : List (ℕ × ℕ)} (hpos : ∀ txn ∈ txns, 0 < txn.2) :
    txns.length ≤ (txns.flatMap block).length := by
  induction txns with
  | nil => exact le_rfl
  | cons txn txns ih =>
    have hone := hpos txn List.mem_cons_self
    have hrest := ih fun t ht ↦ hpos t (List.mem_cons_of_mem txn ht)
    have hlen : (block txn).length = txn.2 := by rw [block, List.length_map, List.length_range]
    rw [List.flatMap_cons, List.length_append, hlen, List.length_cons]
    omega

section Accept

variable {run : Run}

theorem Bounded.walked (h : Bounded run) : Walked run run.from_ run.jumps []
    (walk run (run.to_ + 1 - run.from_) run.from_ (run.from_ - 1) run.jumps []) := by
  have hrange := h.range
  exact Revlog.walked h.to_ (by omega) (by omega) (fun _ hj ↦ (h.jump hj).1)
    (fun _ hj ↦ (h.jump hj).2) (Nat.zero_le _)

/-- The subs of the transactions of a run are those of its entries. -/
theorem Bounded.sub_le (h : Bounded run) {txns : List (ℕ × ℕ)} {rest : List Rev}
    (hrevs : run.entries.map LogEntry.rev = txns.flatMap block ++ rest)
    (hpos : ∀ txn ∈ txns, 0 < txn.2) : ∀ txn ∈ txns, txn.2 - 1 ≤ u32Max := by
  intro txn htxn
  have hmem : (⟨txn.1, txn.2 - 1⟩ : Rev) ∈ run.entries.map LogEntry.rev := by
    rw [hrevs]
    exact List.mem_append_left _
      (List.mem_flatMap.mpr ⟨txn, htxn, sub_mem_block (hpos txn htxn)⟩)
  obtain ⟨e, he, hrev⟩ := List.mem_map.mp hmem
  have hsub := h.sub he
  rwa [hrev] at hsub

theorem Bounded.runaway_iff (h : Bounded run) : Runaway run ↔
    walk run (run.to_ + 1 - run.from_) run.from_ (run.from_ - 1) run.jumps [] =
      .error .panicked := by
  rw [h.walked.panicked, Runaway, List.length_nil, Nat.zero_add]
  have hrange := h.range
  simp only [hrange, true_and]

/-- A run that is accepted has its shape, does not claim the last revision there is, and has no
jump at revision 0. -/
theorem Bounded.accepted (h : Bounded run) {run' : Run} (hacc : accept run = .ok run') :
    run' = run ∧ Shaped run ∧ run.to_ < u64Max ∧ ∀ j ∈ run.jumps, j.1 ≠ 0 := by
  have hle : ∀ j ∈ run.jumps, j.1 ≤ j.2 := fun _ hj ↦ (h.jump hj).1
  rw [accept] at hacc
  rcases hwalk : walk run (run.to_ + 1 - run.from_) run.from_ (run.from_ - 1) run.jumps [] with
    f | ⟨expect, left⟩
  · rw [hwalk] at hacc
    cases hacc
  · rw [hwalk, ok_bind] at hacc
    by_cases hleft : left ≠ []
    · simp only [if_pos hleft] at hacc
      cases hacc
    · simp only [if_neg hleft] at hacc
      obtain rfl : left = [] := not_not.mp hleft
      obtain ⟨hin, hexpect⟩ := h.walked.sound hwalk
      rw [List.nil_append] at hexpect
      rcases hfollow : follow none expect run.entries with f | ⟨cur, want⟩
      · rw [hfollow] at hacc
        cases hacc
      · rw [hfollow, ok_bind] at hacc
        rcases want with - | ⟨m, want⟩
        · obtain rfl : run = run' := Except.ok.inj hacc
          have hstart : Accounted expect [] none expect :=
            ⟨[], rfl, List.forall_mem_nil _, rfl, rfl⟩
          obtain ⟨txns, htxns, hpos, hrevs, -⟩ := hstart.follow hfollow
          rw [List.append_nil, hexpect] at htxns
          have hjumps := hin.le hle
          have hmax : run.to_ ≠ u64Max := by
            intro hto
            have hpanics := h.runaway_iff.mp (.inl ⟨hto, hin.passes⟩)
            rw [hwalk] at hpanics
            cases hpanics
          refine ⟨rfl, ⟨h.range, fun {j} hj ↦ ?_, ((inPlace_iff hle).mp hin).2,
            txns, htxns, hpos, hrevs⟩, ?_, fun j hj ↦ ?_⟩
          · exact ⟨(hjumps j hj).1, hle j hj, (hjumps j hj).2.2⟩
          · exact lt_of_le_of_ne h.to_ hmax
          · exact (hjumps j hj).2.1.ne'
        · cases hacc

/-- The loop over the entries of a run whose jumps are in place. -/
theorem Bounded.accept_eq (h : Bounded run) (hin : InPlace run.to_ run.from_ run.jumps)
    (hcalm : ¬ Runaway run) : accept run =
      (follow none (wanted run.to_ run.from_ run.jumps) run.entries >>= fun (_, want) ↦
        match want with
        | [] => .ok run
        | m :: _ => .error (.refused (s!"its entries do not cover revision {m} of " ++
          s!"{run.from_}..={run.to_}, which no jump declares"))) := by
  have hwalk := (h.walked.complete hin).resolve_left fun hp ↦ hcalm (h.runaway_iff.mpr hp)
  rw [accept, hwalk]
  rfl

theorem Bounded.accept_of_shaped (h : Bounded run) (hlen : run.entries.length ≤ vecMax)
    (hshaped : Shaped run) (hto : run.to_ < u64Max) (hzero : ∀ j ∈ run.jumps, j.1 ≠ 0) :
    accept run = .ok run := by
  have hle : ∀ j ∈ run.jumps, j.1 ≤ j.2 := fun _ hj ↦ (h.jump hj).1
  have hin : InPlace run.to_ run.from_ run.jumps := by
    refine (inPlace_iff hle).mpr ⟨fun j hj ↦ ?_, hshaped.order⟩
    obtain ⟨h₁, -, h₂⟩ := hshaped.jump hj
    exact ⟨h₁, Nat.pos_of_ne_zero (hzero j hj), h₂⟩
  obtain ⟨txns, htxns, hpos, hrevs⟩ := hshaped.whole
  have hcalm : ¬ Runaway run := by
    -- as many revisions are asked for as there are transactions, and each has an entry
    have hcount := length_le_blocks hpos
    have hentries : (txns.flatMap block).length = run.entries.length := by
      rw [← hrevs, List.length_map]
    rintro (⟨hmax, -⟩ | hmany)
    · omega
    · rw [asked_eq hle hin, ← htxns, List.length_map] at hmany
      omega
  have hfollow : follow none (wanted run.to_ run.from_ run.jumps) run.entries =
      .ok ((stands txns).or none, []) := by
    have hrevs' : run.entries.map LogEntry.rev = txns.flatMap block ++ [] := by
      rw [hrevs, List.append_nil]
    have hnodup : (txns.map Prod.fst).Nodup := htxns ▸ wanted_nodup _ _ _
    have hall : follow none (txns.map Prod.fst ++ []) (run.entries ++ []) = _ :=
      follow_blocks (by simp) hnodup hpos (h.sub_le hrevs' hpos) hrevs
    rwa [List.append_nil, List.append_nil, htxns] at hall
  rw [h.accept_eq hin hcalm, hfollow]
  rfl

theorem Bounded.crowded_iff (h : Bounded run) (hin : InPlace run.to_ run.from_ run.jumps) :
    Crowded run ↔
      follow none (wanted run.to_ run.from_ run.jumps) run.entries = .error .panicked := by
  refine ⟨fun ⟨_, txns, m, n, want, r, rest, hwant, hpos, hn, hm, hrevs⟩ ↦ ?_, fun hfollow ↦ ?_⟩
  · have hpos' : ∀ txn ∈ txns ++ [(m, n)], 0 < txn.2 := by
      intro txn htxn
      rcases List.mem_append.mp htxn with htxn | htxn
      · exact hpos txn htxn
      · rw [List.mem_singleton.mp htxn, hn]
        exact Nat.succ_pos _
    obtain ⟨es₁, es₂, hes, h₁, h₂⟩ := List.map_eq_append_iff.mp hrevs
    rcases es₂ with - | ⟨e, es₂⟩
    · cases h₂
    · obtain ⟨hrev, -⟩ := List.cons.inj h₂
      have hnodup : ((txns ++ [(m, n)]).map Prod.fst).Nodup :=
        (List.nodup_append.mp (hwant ▸ wanted_nodup run.to_ run.from_ run.jumps)).1
      have hmain : e.rev.main = m := by rw [hrev, hm]
      rw [← hwant, hes, follow_blocks (by simp) hnodup hpos' (h.sub_le hrevs hpos') h₁, stands,
        List.getLast?_concat, hn]
      simp only [Option.map_some, Option.some_or, Nat.add_sub_cancel, follow, next, if_pos hmain,
        lt_irrefl, if_false, throw_eq, error_bind]
  · have hstart : Accounted (wanted run.to_ run.from_ run.jumps) [] none
        (wanted run.to_ run.from_ run.jumps) := ⟨[], rfl, List.forall_mem_nil _, rfl, rfl⟩
    obtain ⟨es₁, e, es₂, sub, want, hes, hsub, txns, hwant, hpos, hrevs, hcur⟩ :=
      hstart.panicked hfollow
    rw [List.nil_append] at hrevs
    have hall : run.entries.map LogEntry.rev =
        txns.flatMap block ++ e.rev :: es₂.map LogEntry.rev := by
      rw [hes, List.map_append, hrevs, List.map_cons]
    rcases List.eq_nil_or_concat txns with rfl | ⟨init, ⟨m, n⟩, rfl⟩
    · cases hcur
    · rw [List.concat_eq_append] at hwant hpos hall hcur
      rw [stands, List.getLast?_concat] at hcur
      obtain ⟨hm, hn⟩ := Prod.mk.inj (Option.some.inj hcur)
      have hlast : (m, n) ∈ init ++ [(m, n)] := by simp
      have hn' : 0 < n := hpos _ hlast
      have hmax : n - 1 ≤ u32Max := h.sub_le hall hpos _ hlast
      have hsub' : sub = n - 1 := hn
      exact ⟨hin, init, m, n, want, e.rev, es₂.map LogEntry.rev, hwant,
        fun txn ht ↦ hpos txn (List.mem_append_left _ ht), by omega, hm, hall⟩

theorem Bounded.accept_panicked (h : Bounded run) :
    accept run = .error .panicked ↔ Runaway run ∨ Crowded run := by
  by_cases hcalm : Runaway run
  · rw [accept, h.runaway_iff.mp hcalm]
    exact ⟨fun _ ↦ .inl hcalm, fun _ ↦ rfl⟩
  · rw [or_iff_right hcalm]
    by_cases hin : InPlace run.to_ run.from_ run.jumps
    · rw [h.accept_eq hin hcalm, h.crowded_iff hin]
      rcases follow none (wanted run.to_ run.from_ run.jumps) run.entries with
        (why | _) | ⟨cur, - | ⟨m, want⟩⟩
      · exact ⟨nofun, nofun⟩
      · exact ⟨fun _ ↦ rfl, fun _ ↦ rfl⟩
      · exact ⟨nofun, nofun⟩
      · exact ⟨nofun, nofun⟩
    · -- a jump out of place is refused
      refine ⟨fun hacc ↦ ?_, fun hcrowded ↦ absurd hcrowded.1 hin⟩
      rw [accept] at hacc
      rcases hwalk : walk run (run.to_ + 1 - run.from_) run.from_ (run.from_ - 1) run.jumps [] with
        (why | _) | ⟨expect, left⟩
      · rw [hwalk] at hacc
        cases hacc
      · exact absurd (h.runaway_iff.mpr hwalk) hcalm
      · have hleft : left ≠ [] := by
          rintro rfl
          exact hin (h.walked.sound hwalk).1
        rw [hwalk, ok_bind] at hacc
        simp only [if_pos hleft] at hacc
        cases hacc

end Accept

/-! ## What is read -/

/-- A reading does not panic, and what it gives satisfies `P`. -/
def Gives {α : Type} (P : α → Prop) : Except Fault α → Prop
  | .ok a => P a
  | .error (.refused _) => True
  | .error .panicked => False

section Gives

variable {α β : Type} {P : α → Prop} {Q : β → Prop} {x : Except Fault α}

theorem Gives.bind {f : α → Except Fault β} (h : Gives P x) (hf : ∀ a, P a → Gives Q (f a)) :
    Gives Q (x >>= f) := by
  rcases x with (why | _) | a
  · trivial
  · exact h.elim
  · exact hf a h

/-- A check that refuses. -/
theorem Gives.check {c : Prop} [Decidable c] {why : String} {f : β → Except Fault α}
    (h : ¬ c → Gives P x) : Gives P (if c then throw (.refused why) >>= f else x) := by
  split
  · trivial
  · exact h ‹_›

theorem Gives.ne_panicked (h : Gives P x) : x ≠ .error .panicked := by
  rintro rfl
  exact h

end Gives

theorem gives_revOf (v : Json) : Gives (fun _ ↦ True) (revOf v) := by
  unfold revOf
  repeat' split
  all_goals trivial

theorem gives_valueOf (v : Json) : Gives (fun _ ↦ True) (valueOf v) := by
  unfold valueOf
  repeat' split
  all_goals trivial

theorem asU64_le {v : Json} {n : ℕ} (h : v.asU64 = some n) : n ≤ u64Max := by
  have hlt := Json.lt_of_asU64 h
  rw [u64Max]
  omega

section Read

variable (codec : Json.Codec) (sha256 : ByteArray → ByteArray)

theorem gives_parsed (what : String) (text : List Char) :
    Gives (fun _ ↦ True) (parsed codec what text) := by
  rw [parsed]
  split <;> trivial

theorem gives_entryOf (line : List Char) :
    Gives (fun e ↦ e.rev.sub ≤ u32Max) (entryOf codec line) := by
  rw [entryOf]
  refine (gives_parsed codec _ _).bind fun v _ ↦ ?_
  split
  · split
    · split
      · rename_i sub hsub
        have hle : sub ≤ u32Max := of_decide_eq_true (Option.filter_eq_some_iff.mp hsub).2
        exact (gives_valueOf v).bind fun _ _ ↦ (gives_revOf _).bind fun _ _ ↦
          (gives_revOf _).bind fun _ _ ↦ hle
      · trivial
    · trivial
  · trivial

theorem gives_entriesOf (lines : List (List Char)) :
    Gives (fun es ↦ ∀ e ∈ es, e.rev.sub ≤ u32Max) (entriesOf codec lines) := by
  induction lines with
  | nil => exact List.forall_mem_nil _
  | cons line lines ih =>
    exact (gives_entryOf codec line).bind fun e he ↦ ih.bind fun es hes ↦
      List.forall_mem_cons.mpr ⟨he, hes⟩

theorem gives_jumpOf (p : Json) : Gives (fun j ↦ j.1 ≤ j.2 ∧ j.2 ≤ u64Max) (jumpOf p) := by
  rw [jumpOf]
  split
  · rename_i a b hab
    split
    · rename_i hle
      obtain ⟨items, -, hitems⟩ := Option.map_eq_some_iff.mp hab
      obtain ⟨v, -, hv⟩ := Option.bind_eq_some_iff.mp (Prod.mk.inj hitems).2
      exact ⟨hle, asU64_le hv⟩
    · trivial
  · trivial

theorem gives_jumpsOf (l : List Json) :
    Gives (fun js ↦ ∀ j ∈ js, j.1 ≤ j.2 ∧ j.2 ≤ u64Max) (jumpsOf l) := by
  induction l with
  | nil => exact List.forall_mem_nil _
  | cons p l ih =>
    exact (gives_jumpOf p).bind fun j hj ↦ ih.bind fun js hjs ↦
      List.forall_mem_cons.mpr ⟨hj, hjs⟩

theorem gives_jumpsField (h : Json) :
    Gives (fun js ↦ ∀ j ∈ js, j.1 ≤ j.2 ∧ j.2 ≤ u64Max) (jumpsField h) := by
  rw [jumpsField]
  split
  · exact List.forall_mem_nil _
  · split
    · exact gives_jumpsOf _
    · trivial

theorem gives_read (bytes : ByteArray) : Gives Bounded (read codec sha256 bytes) := by
  rw [read]
  split
  · split
    · refine (gives_parsed codec _ _).bind fun h _ ↦ ?_
      split
      · split
        · rename_i to_ hto
          refine Gives.check fun _ ↦ (gives_entriesOf codec _).bind fun entries hentries ↦ ?_
          refine Gives.check fun _ ↦ (gives_jumpsField h).bind fun jumps hjumps ↦ ?_
          refine Gives.check fun hrange ↦ ?_
          exact ⟨not_lt.mp hrange, asU64_le hto, fun {j} hj ↦ hjumps j hj,
            fun {e} he ↦ hentries e he⟩
        · trivial
      · trivial
    · trivial
  · trivial

end Read

/-! ## The format -/

/-- Runs that have the shape of a run are read back as they were written, exactly where they do
not claim the last revision there is and no jump starts at revision 0; the decoder returns,
whatever the bytes, exactly where the header does not run away and no transaction is crowded; and
what it reads has the shape of a run. -/
theorem decode_exact (codec : Json.Codec) (sha256 : ByteArray → ByteArray) :
    (∀ run, Typed run → Shaped run → (decode codec sha256 (encode codec sha256 run) = .ok run ↔
      run.to_ < u64Max ∧ ∀ j ∈ run.jumps, j.1 ≠ 0)) ∧
    (∀ bytes, decode codec sha256 bytes ≠ .error .panicked ↔
      ∀ run, read codec sha256 bytes = .ok run → ¬ Runaway run ∧ ¬ Crowded run) ∧
    ∀ bytes run, decode codec sha256 bytes = .ok run → Shaped run := by
  refine ⟨fun run htyped hshaped ↦ ?_, fun bytes ↦ ?_, fun bytes run hdecode ↦ ?_⟩
  · have hjumps : ∀ j ∈ run.jumps, j.1 ≤ j.2 := fun j hj ↦ (hshaped.jump hj).2.1
    have hbounded := htyped.bounded hshaped.range hjumps
    rw [decode, read_encode htyped hshaped.range hjumps, ok_bind]
    exact ⟨fun hacc ↦ (hbounded.accepted hacc).2.2,
      fun ⟨hto, hzero⟩ ↦ hbounded.accept_of_shaped htyped.length hshaped hto hzero⟩
  · have hgives := gives_read codec sha256 bytes
    rw [decode]
    rcases hread : read codec sha256 bytes with (why | _) | run
    · exact ⟨fun _ _ h ↦ (nomatch h), fun _ ↦ nofun⟩
    · rw [hread] at hgives
      exact hgives.elim
    · rw [hread] at hgives
      have hpanics := (show Bounded run from hgives).accept_panicked
      rw [ok_bind, Ne, hpanics, not_or]
      exact ⟨fun h run' hrun' ↦ Except.ok.inj hrun' ▸ h, fun h ↦ h run rfl⟩
  · have hgives := gives_read codec sha256 bytes
    rw [decode] at hdecode
    rcases hread : read codec sha256 bytes with f | run'
    · rw [hread] at hdecode
      cases hdecode
    · rw [hread] at hgives hdecode
      obtain ⟨rfl, hshaped, -⟩ := (show Bounded run' from hgives).accepted hdecode
      exact hshaped

/-- A run of the last revision there is, of one entry. -/
def lastRun : Run := ⟨u64Max, u64Max, [⟨"k", ⟨u64Max, 0⟩, none, none, none⟩], []⟩

theorem lastRun_typed : Typed lastRun where
  from_ := le_rfl
  to_ := le_rfl
  jump h := nomatch h
  rev {e} he := by
    rw [List.mem_singleton.mp he]
    exact ⟨le_rfl, Nat.zero_le _⟩
  createRev {e} he r hr := by
    rw [List.mem_singleton.mp he] at hr
    cases hr
  prev {e} he r hr := by
    rw [List.mem_singleton.mp he] at hr
    cases hr
  length := by
    have hmax : 1 ≤ vecMax := by norm_num [vecMax]
    exact hmax

theorem lastRun_shaped : Shaped lastRun where
  range := le_rfl
  jump h := nomatch h
  order := .nil
  whole := by
    have hwanted : wanted u64Max u64Max [] = [u64Max] := by
      rw [wanted_push le_rfl (by simp), wanted_of_lt (Nat.lt_succ_self _)]
    exact ⟨[(u64Max, 1)], hwanted.symm, by simp, rfl⟩

/-- It has the shape of a run, and decoding it panics. -/
theorem lastRun_panics : Typed lastRun ∧ Shaped lastRun ∧ ∀ codec sha256,
    decode codec sha256 (encode codec sha256 lastRun) = .error .panicked := by
  refine ⟨lastRun_typed, lastRun_shaped, fun codec sha256 ↦ ?_⟩
  have hread : read codec sha256 (encode codec sha256 lastRun) = .ok lastRun :=
    read_encode lastRun_typed le_rfl (List.forall_mem_nil _)
  have hbounded := lastRun_typed.bounded le_rfl (List.forall_mem_nil _)
  rw [decode, hread, ok_bind]
  exact hbounded.accept_panicked.mpr (.inl (.inl ⟨rfl, trivial⟩))

end Spira.Store.Revlog
