import Mathlib.Data.List.MinMax
import Mathlib.Logic.Equiv.Defs
import Spira.Lib.Json

/-!
# How a type is written as JSON and read back

A `Form` writes the values of a type and reads them, and carries the proof that it reads what it
wrote.  What is read may differ in one way: a value can hold JSON of any shape, its `data`, and a
float in that may have become another on the way.  The data is also all that decides how deep a
value nests, once the form's own arrays and objects fit.

Forms are built from forms.  An object is a list of `Fields`, each with what it is when it is left
out, and a choice is a list of `Variant`s, each told from the others by its name.
-/

set_option autoImplicit false

structure Form (A : Type) where
  write : A → Json
  /-- The value that is written so, or why there is none. -/
  read : Json → Except String A
  /-- The value with each float of its data replaced. -/
  mapFloats : (UInt64 → UInt64) → A → A
  /-- The data of a value, each with how many of the form's arrays and objects it stands in. -/
  data : A → List (ℕ × Json)
  /-- How deep the form itself nests at most. -/
  depth : ℕ
  read_write (f : UInt64 → UInt64) (a : A) : read ((write a).mapFloats f) = .ok (mapFloats f a)
  mapFloats_eq (f : UInt64 → UInt64) (a : A) :
    mapFloats f a = a ↔ ∀ p ∈ data a, p.2.mapFloats f = p.2
  depth_le {n : ℕ} (hn : depth ≤ n) (a : A) :
    (write a).depth ≤ n ↔ ∀ p ∈ data a, p.1 + p.2.depth ≤ n

namespace Form

open Json (mapFloatsIn depthIn)

variable {A B : Type}

/-! ## Values without parts -/

/-- A form of values that hold nothing else. -/
def scalar (write : A → Json) (read : Json → Except String A)
    (hplain : ∀ a, (write a).depth = 0 ∧ (write a).floats = [])
    (hread : ∀ a, read (write a) = .ok a) : Form A where
  write := write
  read := read
  mapFloats _ a := a
  data _ := []
  depth := 0
  read_write f a := by
    have hsame : (write a).mapFloats f = write a :=
      (Json.mapFloats_eq_self _).mpr fun x hx ↦ by simp [(hplain a).2] at hx
    rw [hsame, hread]
  mapFloats_eq f a := by simp
  depth_le _ a := by simp [(hplain a).1]

def mismatch (what : String) : String := "invalid type, expected " ++ what

def string : Form String :=
  scalar .str (fun | .str s => .ok s | _ => .error (mismatch "a string")) (fun _ ↦ ⟨rfl, rfl⟩)
    fun _ ↦ rfl

def bool : Form Bool :=
  scalar .bool (fun | .bool b => .ok b | _ => .error (mismatch "a boolean")) (fun _ ↦ ⟨rfl, rfl⟩)
    fun _ ↦ rfl

def unit : Form Unit :=
  scalar (fun _ ↦ .null) (fun | .null => .ok () | _ => .error (mismatch "unit"))
    (fun _ ↦ ⟨rfl, rfl⟩) fun _ ↦ rfl

def u64 : Form UInt64 :=
  scalar (fun n ↦ .nat n.toNat)
    (fun v ↦ match v.asU64 with
      | some n => .ok (.ofNat n)
      | none => .error (mismatch "u64"))
    (fun _ ↦ ⟨rfl, rfl⟩) fun n ↦ by simp [Json.asU64_nat n.toNat_lt]

def u32 : Form UInt32 :=
  scalar (fun n ↦ .nat n.toNat)
    (fun v ↦ match v.asU64.filter (· < 2 ^ 32) with
      | some n => .ok (.ofNat n)
      | none => .error (mismatch "u32"))
    (fun _ ↦ ⟨rfl, rfl⟩) fun n ↦ by
      have hlt : n.toNat < 4294967296 := n.toNat_lt
      have hu : (Json.nat n.toNat).asU64 = some n.toNat := Json.asU64_nat (by omega)
      simp [hu, Option.filter_some, hlt]

/-- Data, which is written as it is. -/
def json : Form Json where
  write v := v
  read v := .ok v
  mapFloats f v := v.mapFloats f
  data v := [(0, v)]
  depth := 0
  read_write _ _ := rfl
  mapFloats_eq _ _ := by simp
  depth_le _ _ := by simp

/-! ## Options, lists and pairs -/

/-- A value or null, of a form that never writes null. -/
def option (F : Form A) (hnull : ∀ a, F.write a ≠ .null) : Form (Option A) where
  write
    | none => .null
    | some a => F.write a
  read v := if v = .null then .ok none else (F.read v).map some
  mapFloats f := Option.map (F.mapFloats f)
  data
    | none => []
    | some a => F.data a
  depth := F.depth
  read_write f
    | none => by simp [Json.mapFloats]
    | some a => by
      rw [if_neg (by rw [Json.mapFloats_eq_null]; exact hnull a), F.read_write]
      rfl
  mapFloats_eq f
    | none => by simp
    | some a => by simpa using F.mapFloats_eq f a
  depth_le hn
    | none => by simp [Json.depth]
    | some a => F.depth_le hn a

/-- What stands in one array or object more. -/
def inside (l : List (ℕ × Json)) : List (ℕ × Json) := l.map fun p ↦ (p.1 + 1, p.2)

theorem forall_inside {P : ℕ × Json → Prop} {l : List (ℕ × Json)} :
    (∀ p ∈ inside l, P p) ↔ ∀ p ∈ l, P (p.1 + 1, p.2) := List.forall_mem_map

theorem inside_le {n : ℕ} {l : List (ℕ × Json)} :
    (∀ p ∈ inside l, p.1 + p.2.depth ≤ n + 1) ↔ ∀ p ∈ l, p.1 + p.2.depth ≤ n := by
  rw [forall_inside]
  refine forall₂_congr fun p _ ↦ ?_
  show p.1 + 1 + p.2.depth ≤ n + 1 ↔ p.1 + p.2.depth ≤ n
  omega

theorem mapM_read (F : Form A) (f : UInt64 → UInt64) : ∀ l : List A,
    (Json.mapFloatsOf f (l.map F.write)).mapM F.read = .ok (l.map (F.mapFloats f))
  | [] => rfl
  | a :: l => by
    rw [List.map_cons, Json.mapFloatsOf, List.mapM_cons, F.read_write, mapM_read F f l]
    rfl

def readList (F : Form A) : Json → Except String (List A)
  | .arr items => items.mapM F.read
  | _ => .error (mismatch "a sequence")

theorem map_mapFloats_eq (F : Form A) (f : UInt64 → UInt64) (l : List A) :
    l.map (F.mapFloats f) = l ↔ ∀ p ∈ inside (l.flatMap F.data), p.2.mapFloats f = p.2 := by
  rw [forall_inside, List.forall_mem_flatMap]
  induction l with
  | nil => simp
  | cons a l ih => rw [List.map_cons, List.cons.injEq, F.mapFloats_eq, ih, List.forall_mem_cons]

theorem depth_list_le (F : Form A) {n : ℕ} (hn : F.depth + 1 ≤ n) (l : List A) :
    (Json.arr (l.map F.write)).depth ≤ n ↔
      ∀ p ∈ inside (l.flatMap F.data), p.1 + p.2.depth ≤ n := by
  obtain ⟨n, rfl⟩ : ∃ m, n = m + 1 := ⟨n - 1, by omega⟩
  rw [Json.depth, Nat.add_le_add_iff_right, Json.depthOf_le, List.forall_mem_map, inside_le,
    List.forall_mem_flatMap]
  exact forall₂_congr fun a _ ↦ F.depth_le (by omega) a

def list (F : Form A) : Form (List A) where
  write l := .arr (l.map F.write)
  read := readList F
  mapFloats f := List.map (F.mapFloats f)
  data l := inside (l.flatMap F.data)
  depth := F.depth + 1
  read_write := mapM_read F
  mapFloats_eq := map_mapFloats_eq F
  depth_le := depth_list_le F

theorem data_list_nil {F : Form A} (h : ∀ a, F.data a = []) (l : List A) :
    (list F).data l = [] := by
  have hnil : l.flatMap F.data = [] := List.flatMap_eq_nil_iff.mpr fun a _ ↦ h a
  show inside (l.flatMap F.data) = []
  rw [hnil]
  rfl

/-- Two values in an array. -/
def readPair (F : Form A) (G : Form B) : Json → Except String (A × B)
  | .arr [v, w] => do return (← F.read v, ← G.read w)
  | _ => .error (mismatch "a tuple of size 2")

theorem readPair_write (F : Form A) (G : Form B) (f : UInt64 → UInt64) (p : A × B) :
    readPair F G ((Json.arr [F.write p.1, G.write p.2]).mapFloats f) =
      .ok (F.mapFloats f p.1, G.mapFloats f p.2) := by
  show (do return (← F.read _, ← G.read _)) = _
  rw [F.read_write, G.read_write]
  rfl

theorem mapFloats_pair_eq (F : Form A) (G : Form B) (f : UInt64 → UInt64) (p : A × B) :
    (F.mapFloats f p.1, G.mapFloats f p.2) = p ↔
      ∀ q ∈ inside (F.data p.1 ++ G.data p.2), q.2.mapFloats f = q.2 := by
  rw [Prod.ext_iff, F.mapFloats_eq, G.mapFloats_eq, forall_inside, List.forall_mem_append]

theorem depth_pair_le (F : Form A) (G : Form B) {n : ℕ} (hn : max F.depth G.depth + 1 ≤ n)
    (p : A × B) : (Json.arr [F.write p.1, G.write p.2]).depth ≤ n ↔
      ∀ q ∈ inside (F.data p.1 ++ G.data p.2), q.1 + q.2.depth ≤ n := by
  obtain ⟨n, rfl⟩ : ∃ m, n = m + 1 := ⟨n - 1, by omega⟩
  rw [Json.depth, Nat.add_le_add_iff_right, Json.depthOf_le, inside_le, List.forall_mem_append,
    ← F.depth_le (by omega), ← G.depth_le (by omega)]
  simp

def pair (F : Form A) (G : Form B) : Form (A × B) where
  write p := .arr [F.write p.1, G.write p.2]
  read := readPair F G
  mapFloats f p := (F.mapFloats f p.1, G.mapFloats f p.2)
  data p := inside (F.data p.1 ++ G.data p.2)
  depth := max F.depth G.depth + 1
  read_write := readPair_write F G
  mapFloats_eq := mapFloats_pair_eq F G
  depth_le := depth_pair_le F G

/-! ## Objects -/

/-- A field of an object, with what it is where it is left out. -/
structure Field (A : Type) where
  name : String
  form : Form A
  /-- Whether the field is left out. -/
  skip : A → Bool
  /-- What the field is in an object that does not have it. -/
  missing : Option A
  /-- What it is in an array that ends before it. -/
  short : Option A
  missing_of_skip (a : A) (h : skip a = true) : missing = some a

namespace Field

/-- A field that is always there. -/
def required (name : String) (form : Form A) : Field A :=
  ⟨name, form, fun _ ↦ false, none, none, nofun⟩

/-- A field that is none where it is not there. -/
def optional (name : String) (form : Form (Option A)) : Field (Option A) :=
  ⟨name, form, fun _ ↦ false, some none, none, nofun⟩

/-- A field that is `d` where it is not there. -/
def orDefault (name : String) (form : Form A) (d : A) : Field A :=
  ⟨name, form, fun _ ↦ false, some d, some d, nofun⟩

/-- A field that is left out where it is none. -/
def unlessNone (name : String) (form : Form (Option A)) : Field (Option A) :=
  ⟨name, form, Option.isNone, some none, some none,
    fun _ h ↦ by rw [Option.isNone_iff_eq_none.mp h]⟩

/-- A field that is left out where it is empty. -/
def unlessEmpty (name : String) (form : Form (List A)) : Field (List A) :=
  ⟨name, form, List.isEmpty, some [], some [], fun _ h ↦ by rw [List.isEmpty_iff.mp h]⟩

variable (field : Field A) (f : UInt64 → UInt64)

def entry (a : A) : List (String × Json) :=
  if field.skip a then [] else [(field.name, field.form.write a)]

def readIn (l : List (String × Json)) : Except String A :=
  match l.lookup field.name with
  | some v => field.form.read v
  | none => match field.missing with
    | some a => .ok a
    | none => .error ("missing field " ++ field.name)

def mapFloats (a : A) : A := if field.skip a then a else field.form.mapFloats f a

def data (a : A) : List (ℕ × Json) := if field.skip a then [] else field.form.data a

variable {field f}

theorem names_entry {a : A} {p : String × Json} (h : p ∈ field.entry a) : p.1 = field.name := by
  rw [entry] at h
  split at h
  · cases h
  · rw [List.mem_singleton.mp h]

/-- The field is read of a list that has it as its entry does. -/
theorem readIn_entry {a : A} {l : List (String × Json)}
    (hl : l.lookup field.name = (mapFloatsIn f (field.entry a)).lookup field.name) :
    field.readIn l = .ok (field.mapFloats f a) := by
  rw [readIn, hl, entry, mapFloats]
  cases hskip : field.skip a with
  | true =>
    rw [if_pos rfl, if_pos rfl, mapFloatsIn, List.lookup_nil]
    dsimp only
    rw [field.missing_of_skip a hskip]
  | false =>
    rw [if_neg Bool.false_ne_true, if_neg Bool.false_ne_true, mapFloatsIn, List.lookup_cons_self]
    exact field.form.read_write f a

theorem mapFloats_eq (a : A) :
    field.mapFloats f a = a ↔ ∀ p ∈ field.data a, p.2.mapFloats f = p.2 := by
  rw [mapFloats, data]
  split
  · simp
  · exact field.form.mapFloats_eq f a

theorem data_nil (h : ∀ a, field.form.data a = []) (a : A) : field.data a = [] := by
  rw [data, h, ite_self]

theorem depth_le {n : ℕ} (hn : field.form.depth ≤ n) (a : A) :
    depthIn (field.entry a) ≤ n ↔ ∀ p ∈ field.data a, p.1 + p.2.depth ≤ n := by
  rw [entry, data]
  split
  · simp [depthIn]
  · rw [← field.form.depth_le hn, Json.depthIn_le, List.forall_mem_singleton]

end Field

/-- The fields of an object, and the product of what they hold. -/
inductive Fields : Type → Type 1
  | nil : Fields Unit
  | cons {A T : Type} (field : Field A) (rest : Fields T) : Fields (A × T)

namespace Fields

def names : {T : Type} → Fields T → List String
  | _, nil => []
  | _, cons field rest => field.name :: rest.names

/-- The entries of the fields that are not left out. -/
def entries : {T : Type} → Fields T → T → List (String × Json)
  | _, nil, _ => []
  | _, cons field rest, (a, t) => field.entry a ++ rest.entries t

/-- The fields from the entries of an object. -/
def readIn : {T : Type} → Fields T → List (String × Json) → Except String T
  | _, nil, _ => .ok ()
  | _, cons field rest, l => do return (← field.readIn l, ← rest.readIn l)

/-- The fields from the items of an array, one after the other. -/
def readOf : {T : Type} → Fields T → List Json → Except String T
  | _, nil, [] => .ok ()
  | _, nil, _ :: _ => .error "invalid length"
  | _, cons field rest, [] => match field.short with
    | some a => do return (a, ← rest.readOf [])
    | none => .error "invalid length"
  | _, cons field rest, v :: l => do return (← field.form.read v, ← rest.readOf l)

def mapFloats (f : UInt64 → UInt64) : {T : Type} → Fields T → T → T
  | _, nil, t => t
  | _, cons field rest, (a, t) => (field.mapFloats f a, mapFloats f rest t)

def data : {T : Type} → Fields T → T → List (ℕ × Json)
  | _, nil, _ => []
  | _, cons field rest, (a, t) => field.data a ++ rest.data t

def depth : {T : Type} → Fields T → ℕ
  | _, nil => 0
  | _, cons field rest => max field.form.depth rest.depth

variable {f : UInt64 → UInt64}

theorem mem_names_of_entries : ∀ {T : Type} {fields : Fields T} {t : T} {p : String × Json},
    p ∈ fields.entries t → p.1 ∈ fields.names
  | _, cons _ _, (_, _), _, h => by
    rcases List.mem_append.mp h with h | h
    · exact List.mem_cons.mpr (.inl (Field.names_entry h))
    · exact List.mem_cons_of_mem _ (mem_names_of_entries h)

theorem map_fst_mapFloatsIn (l : List (String × Json)) :
    (mapFloatsIn f l).map Prod.fst = l.map Prod.fst := by
  induction l with
  | nil => rfl
  | cons p l ih => rw [mapFloatsIn, List.map_cons, List.map_cons, ih]

theorem lookup_eq_none_of_names {l : List (String × Json)} {name : String}
    (h : ∀ p ∈ l, p.1 ≠ name) : (mapFloatsIn f l).lookup name = none := by
  refine List.lookup_eq_none_iff.mpr fun p hp ↦ ?_
  have hmem : p.1 ∈ l.map Prod.fst := map_fst_mapFloatsIn l ▸ List.mem_map_of_mem hp
  obtain ⟨q, hq, heq⟩ := List.mem_map.mp hmem
  have hne : p.1 ≠ name := heq ▸ h q hq
  exact bne_iff_ne.mpr hne.symm

/-- **The fields are read of a list that has each as the entries do.** -/
theorem readIn_entries : ∀ {T : Type} {fields : Fields T} (_ : fields.names.Nodup) (t : T)
    {l : List (String × Json)}
    (_ : ∀ n ∈ fields.names, l.lookup n = (mapFloatsIn f (fields.entries t)).lookup n),
    fields.readIn l = .ok (fields.mapFloats f t)
  | _, nil, _, _, _, _ => rfl
  | _, cons field rest, hnodup, (a, t), l, hl => by
    obtain ⟨hnot, hrest⟩ := List.nodup_cons.mp hnodup
    rw [entries, Json.mapFloatsIn_append] at hl
    have hfield : field.readIn l = .ok (field.mapFloats f a) := by
      refine Field.readIn_entry ?_
      have hnone : (mapFloatsIn f (rest.entries t)).lookup field.name = none :=
        lookup_eq_none_of_names fun p hp heq ↦ hnot (heq ▸ mem_names_of_entries hp)
      rw [hl _ List.mem_cons_self, List.lookup_append, hnone, Option.or_none]
    have hfields : rest.readIn l = .ok (rest.mapFloats f t) := by
      refine readIn_entries hrest t fun n hn ↦ ?_
      have hnone : (mapFloatsIn f (field.entry a)).lookup n = none :=
        lookup_eq_none_of_names fun p hp heq ↦ hnot (by rwa [← Field.names_entry hp, heq])
      rw [hl n (List.mem_cons_of_mem _ hn), List.lookup_append, hnone, Option.none_or]
    rw [readIn, hfield, hfields]
    rfl

theorem mapFloats_eq : ∀ {T : Type} {fields : Fields T} (t : T),
    fields.mapFloats f t = t ↔ ∀ p ∈ fields.data t, p.2.mapFloats f = p.2
  | _, nil, _ => by simp [mapFloats, data]
  | _, cons field rest, (a, t) => by
    rw [mapFloats, data, Prod.mk.injEq, Field.mapFloats_eq, mapFloats_eq, List.forall_mem_append]

theorem depth_le : ∀ {T : Type} {fields : Fields T} {n : ℕ} (_ : fields.depth ≤ n) (t : T),
    depthIn (fields.entries t) ≤ n ↔ ∀ p ∈ fields.data t, p.1 + p.2.depth ≤ n
  | _, nil, _, _, _ => by simp [entries, data, depthIn]
  | _, cons field rest, n, hn, (a, t) => by
    obtain ⟨hfield, hrest⟩ := max_le_iff.mp hn
    rw [entries, data, Json.depthIn_le, List.forall_mem_append, ← Json.depthIn_le,
      ← Json.depthIn_le, Field.depth_le hfield, depth_le hrest, List.forall_mem_append]

end Fields

section Record

variable {T : Type} (fields : Fields T) (e : A ≃ T)

def readRecord : Json → Except String A
  | .obj l => (fields.readIn l).map e.symm
  | .arr l => (fields.readOf l).map e.symm
  | _ => .error (mismatch "a map")

theorem readRecord_write (hnodup : fields.names.Nodup) (f : UInt64 → UInt64) (a : A) :
    readRecord fields e ((Json.obj (fields.entries (e a))).mapFloats f) =
      .ok (e.symm (fields.mapFloats f (e a))) := by
  show (fields.readIn (mapFloatsIn f (fields.entries (e a)))).map e.symm = _
  rw [Fields.readIn_entries hnodup (e a) fun _ _ ↦ rfl]
  rfl

theorem mapFloats_record_eq (f : UInt64 → UInt64) (a : A) :
    e.symm (fields.mapFloats f (e a)) = a ↔
      ∀ p ∈ inside (fields.data (e a)), p.2.mapFloats f = p.2 := by
  rw [Equiv.symm_apply_eq, Fields.mapFloats_eq, forall_inside]

theorem depth_record_le {n : ℕ} (hn : fields.depth + 1 ≤ n) (a : A) :
    (Json.obj (fields.entries (e a))).depth ≤ n ↔
      ∀ p ∈ inside (fields.data (e a)), p.1 + p.2.depth ≤ n := by
  obtain ⟨n, rfl⟩ : ∃ m, n = m + 1 := ⟨n - 1, by omega⟩
  rw [Json.depth, Nat.add_le_add_iff_right, Fields.depth_le (by omega), inside_le]

/-- An object of fields. -/
def record (hnodup : fields.names.Nodup) : Form A where
  write a := .obj (fields.entries (e a))
  read := readRecord fields e
  mapFloats f a := e.symm (fields.mapFloats f (e a))
  data a := inside (fields.data (e a))
  depth := fields.depth + 1
  read_write := readRecord_write fields e hnodup
  mapFloats_eq := mapFloats_record_eq fields e
  depth_le := depth_record_le fields e

end Record

theorem record_ne_null {T : Type} {fields : Fields T} {e : A ≃ T} {hnodup : fields.names.Nodup}
    (a : A) : (record fields e hnodup).write a ≠ .null := nofun

/-- An object of one field. -/
def one (name : String) (F : Form A) : Form A :=
  record (.cons (.required name F) .nil) ⟨fun a ↦ (a, ()), Prod.fst, fun _ ↦ rfl, fun _ ↦ rfl⟩
    (List.nodup_cons.mpr ⟨List.not_mem_nil, List.nodup_nil⟩)

/-- An object of two fields. -/
def two (name name' : String) (F : Form A) (G : Form B) (h : name ≠ name') : Form (A × B) :=
  record (.cons (.required name F) (.cons (.required name' G) .nil))
    ⟨fun p ↦ (p.1, p.2, ()), fun t ↦ (t.1, t.2.1), fun _ ↦ rfl, fun _ ↦ rfl⟩
    (List.nodup_cons.mpr ⟨fun hmem ↦ h (List.mem_singleton.mp hmem),
      List.nodup_cons.mpr ⟨List.not_mem_nil, List.nodup_nil⟩⟩)

/-! ## Choices -/

/-- One of the ways a value of a type is made. -/
inductive Variant (E : Type) : Type 1
  /-- One value, told by its name alone. -/
  | unit (name : String) (e : E) (is : E → Bool) (is_iff : ∀ e', is e' = true ↔ e' = e)
  /-- What is made of the values of another type. -/
  | of {A : Type} (name : String) (form : Form A) (make : A → E) (view : E → Option A)
      (view_iff : ∀ e a, view e = some a ↔ e = make a)

namespace Variant

variable {E : Type}

def name : Variant E → String
  | unit name _ _ _ | of name _ _ _ _ => name

/-- Whether a value is made this way. -/
def holds : Variant E → E → Bool
  | unit _ _ is _, e => is e
  | of _ _ _ view _, e => (view e).isSome

def write : Variant E → E → Json
  | unit name _ _ _, _ => .str name
  | of name form _ view _, e => match view e with
    | some a => .obj [(name, form.write a)]
    | none => .null

/-- The value whose variant's name stands alone. -/
def readName : Variant E → Except String E
  | unit _ e _ _ => .ok e
  | of _ _ _ _ _ => .error (mismatch "a variant with a value")

/-- The value that stands under the name of its variant. -/
def readUnder : Variant E → Json → Except String E
  | unit _ e _ _, v => (Form.unit.read v).map fun _ ↦ e
  | of _ form make _ _, v => (form.read v).map make

def mapFloats (f : UInt64 → UInt64) : Variant E → E → E
  | unit _ _ _ _, e => e
  | of _ form make view _, e => match view e with
    | some a => make (form.mapFloats f a)
    | none => e

def data : Variant E → E → List (ℕ × Json)
  | unit _ _ _ _, _ => []
  | of _ form _ view _, e => match view e with
    | some a => inside (form.data a)
    | none => []

def depth : Variant E → ℕ
  | unit _ _ _ _ => 0
  | of _ form _ _ _ => form.depth + 1

variable {f : UInt64 → UInt64}

theorem mapFloats_eq : ∀ {v : Variant E} {e : E} (_ : v.holds e = true),
    v.mapFloats f e = e ↔ ∀ p ∈ v.data e, p.2.mapFloats f = p.2
  | unit _ _ _ _, e, _ => by simp [mapFloats, data]
  | of name form make view view_iff, e, h => by
    obtain ⟨a, ha⟩ := Option.isSome_iff_exists.mp h
    have hmake : ∀ b, make b = make a ↔ b = a := by
      refine fun b ↦ ⟨fun heq ↦ ?_, congrArg make⟩
      have hb := (view_iff _ b).mpr rfl
      rw [heq, (view_iff _ a).mpr rfl] at hb
      exact (Option.some.inj hb).symm
    have he : e = make a := (view_iff e a).mp ha
    simp only [mapFloats, data, ha]
    rw [forall_inside, ← form.mapFloats_eq, he, hmake]

theorem depth_le : ∀ {v : Variant E} {e : E} {n : ℕ} (_ : v.depth ≤ n) (_ : v.holds e = true),
    (v.write e).depth ≤ n ↔ ∀ p ∈ v.data e, p.1 + p.2.depth ≤ n
  | unit _ _ _ _, e, _, _, _ => by simp [write, data, Json.depth]
  | of name form make view view_iff, e, n, hn, h => by
    obtain ⟨a, ha⟩ := Option.isSome_iff_exists.mp h
    obtain ⟨n, rfl⟩ : ∃ m, n = m + 1 := ⟨n - 1, by rw [depth] at hn; omega⟩
    simp only [write, data, ha]
    rw [Json.depth, Nat.add_le_add_iff_right, Json.depthIn_le, List.forall_mem_singleton, inside_le,
      form.depth_le (Nat.le_of_succ_le_succ hn)]

end Variant

section Choice

variable {E : Type} {variants : List (Variant E)}

/-- The value of the variant whose name stands alone, or is the one entry of an object. -/
def readAs (variants : List (Variant E)) : Json → Except String E
  | .str name => match variants.find? (·.name = name) with
    | some v => v.readName
    | none => .error ("unknown variant " ++ name)
  | .obj [(name, w)] => match variants.find? (·.name = name) with
    | some v => v.readUnder w
    | none => .error ("unknown variant " ++ name)
  | _ => .error (mismatch "a variant")

theorem holds_of_find {v : Variant E} {e : E} (h : variants.find? (·.holds e) = some v) :
    v.holds e = true :=
  @List.find?_some _ (fun w : Variant E ↦ w.holds e) _ _ h

theorem find?_name (hnodup : (variants.map (·.name)).Nodup) {v : Variant E} (hv : v ∈ variants) :
    variants.find? (·.name = v.name) = some v := by
  induction variants with
  | nil => cases hv
  | cons w variants ih =>
    obtain ⟨hnot, hnodup⟩ := List.nodup_cons.mp hnodup
    rcases List.mem_cons.mp hv with rfl | hv
    · exact List.find?_cons_of_pos (by simp)
    · have hne : w.name ≠ v.name := fun h ↦ hnot (List.mem_map.mpr ⟨v, hv, h.symm⟩)
      rw [List.find?_cons_of_neg (by simpa using hne), ih hnodup hv]

theorem readAs_write (hnodup : (variants.map (·.name)).Nodup) (f : UInt64 → UInt64) :
    ∀ {v : Variant E} {e : E} (_ : v ∈ variants) (_ : v.holds e = true),
      readAs variants ((v.write e).mapFloats f) = .ok (v.mapFloats f e)
  | .unit name e₀ is is_iff, e, hv, h => by
    obtain rfl : e = e₀ := (is_iff e).mp h
    have hfind : variants.find? (·.name = name) = some (.unit name e is is_iff) :=
      find?_name hnodup hv
    rw [Variant.write, Json.mapFloats, readAs, hfind]
    rfl
  | .of name form make view view_iff, e, hv, h => by
    obtain ⟨a, ha⟩ := Option.isSome_iff_exists.mp h
    have hfind : variants.find? (·.name = name) = some (.of name form make view view_iff) :=
      find?_name hnodup hv
    simp only [Variant.write, Variant.mapFloats, ha]
    rw [Json.mapFloats, mapFloatsIn, mapFloatsIn, readAs, hfind]
    show (form.read _).map make = _
    rw [form.read_write]
    rfl

end Choice

/-- A value of one of the variants, under the variant's name. -/
def choice {E : Type} (variants : List (Variant E)) (hnodup : (variants.map (·.name)).Nodup)
    (hcover : ∀ e, variants.any (·.holds e) = true) : Form E where
  write e := match variants.find? (·.holds e) with
    | some v => v.write e
    | none => .null
  read := readAs variants
  mapFloats f e := match variants.find? (·.holds e) with
    | some v => v.mapFloats f e
    | none => e
  data e := match variants.find? (·.holds e) with
    | some v => v.data e
    | none => []
  depth := (variants.map Variant.depth).foldr max 0
  read_write f e := by
    cases hfind : variants.find? (·.holds e) with
    | some v => exact readAs_write hnodup f (List.mem_of_find?_eq_some hfind) (holds_of_find hfind)
    | none =>
      obtain ⟨v, hv, hholds⟩ := List.any_eq_true.mp (hcover e)
      exact absurd hholds (List.find?_eq_none.mp hfind v hv)
  mapFloats_eq f e := by
    cases hfind : variants.find? (·.holds e) with
    | some v => exact Variant.mapFloats_eq (holds_of_find hfind)
    | none => simp
  depth_le {n} hn e := by
    cases hfind : variants.find? (·.holds e) with
    | some v =>
      have hle : v.depth ≤ (variants.map Variant.depth).foldr max 0 :=
        List.le_max_of_le' 0 (List.mem_map_of_mem (List.mem_of_find?_eq_some hfind)) le_rfl
      exact Variant.depth_le (hle.trans hn) (holds_of_find hfind)
    | none => simp [Json.depth]

/-! ## Texts -/

section Texts

variable {codec : Json.Codec} {F : Form A} {a : A}

/-- The data in a value nests no deeper than a text may, where it stands. -/
def Shallow (l : List (ℕ × Json)) : Prop := ∀ p ∈ l, p.1 + p.2.depth < Json.maxDepth

/-- Each float in the data is read as it was printed. -/
def Exact (codec : Json.Codec) (l : List (ℕ × Json)) : Prop :=
  ∀ p ∈ l, ∀ x ∈ p.2.floats, codec.read x = x

theorem shallow_iff (hdepth : F.depth < Json.maxDepth) :
    Shallow (F.data a) ↔ (F.write a).depth < Json.maxDepth := by
  have hlt (n : ℕ) : n < Json.maxDepth ↔ n ≤ 127 := Nat.lt_succ_iff
  rw [hlt, F.depth_le ((hlt _).mp hdepth)]
  exact forall₂_congr fun _ _ ↦ hlt _

theorem exact_iff : Exact codec (F.data a) ↔ F.mapFloats codec.read a = a := by
  rw [F.mapFloats_eq]
  exact forall₂_congr fun p _ ↦ (Json.mapFloats_eq_self p.2).symm

/-- The text of a value. -/
def print (codec : Json.Codec) (F : Form A) (a : A) : String := .ofList (codec.print (F.write a))

/-- The value of a text. -/
def parse (codec : Json.Codec) (F : Form A) (text : String) : Except String A := do
  F.read (← codec.parse text.toList)

theorem parse_print (hdepth : F.depth < Json.maxDepth) (h : Shallow (F.data a)) :
    parse codec F (print codec F a) = .ok (F.mapFloats codec.read a) := by
  rw [parse, print, String.toList_ofList, codec.parse_print ((shallow_iff hdepth).mp h)]
  exact F.read_write codec.read a

/-- **A value is read of its own text if and only if its data is carried.** -/
theorem parse_print_iff (hdepth : F.depth < Json.maxDepth) :
    parse codec F (print codec F a) = .ok a ↔ Shallow (F.data a) ∧ Exact codec (F.data a) := by
  by_cases h : Shallow (F.data a)
  · rw [parse_print hdepth h, Except.ok.injEq, ← exact_iff, and_iff_right h]
  · have hdeep : Json.maxDepth ≤ (F.write a).depth :=
      not_lt.mp fun hlt ↦ h ((shallow_iff hdepth).mpr hlt)
    obtain ⟨why, hwhy⟩ := codec.parse_deep hdeep
    rw [parse, print, String.toList_ofList, hwhy]
    exact ⟨nofun, fun h' ↦ absurd h'.1 h⟩

end Texts

end Form
