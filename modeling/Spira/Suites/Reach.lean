import Mathlib.Data.List.Sort
import Mathlib.Data.List.MinMax
import Spira.Lib.Text
import Spira.Lib.Worklist

/-!
# Reverse-dependency reach

A changed file inside a workspace crate reaches every binary of that crate and of every crate that
depends on it; and a binary is built from its own crate and every crate that one depends on.  The
two tables are searched for separately, and are transposes of each other; a third search finds the
packages that a change can break the compile of.  `load_right` says what the three come to.
-/

set_option autoImplicit false

namespace Spira.Suites

open Relation (ReflTransGen)
open Worklist

/-- A workspace member: its directory as it is listed, its package and binaries, and the directories
it depends on. -/
structure Krate where
  dir : String
  name : String
  bins : List String
  deps : List String
  devDeps : List String
  deriving DecidableEq

structure Workspace where
  crates : List Krate
  /-- A member listed twice is read twice from its directory. -/
  read : ∀ k ∈ crates, ∀ k' ∈ crates, k.dir = k'.dir → k = k'

/-- The members of a set, in their order, each once. -/
def sorted (l : List String) : List String := l.dedup.insertionSort (· ≤ ·)

@[simp] theorem mem_sorted {l : List String} {x : String} : x ∈ sorted l ↔ x ∈ l := by
  simp [sorted]

namespace Workspace

variable (w : Workspace)

/-- The directories of the crates that depend on one. -/
def usersOf (dir : String) : List String := (w.crates.filter (dir ∈ ·.deps)).map (·.dir)

/-- The directories of the crates that depend on one, their tests included. -/
def checkersOf (dir : String) : List String :=
  (w.crates.filter fun u ↦ dir ∈ u.deps ++ u.devDeps).map (·.dir)

/-- The crates one depends on. -/
def depsOf (k : Krate) : List Krate := k.deps.filterMap fun d ↦ w.crates.find? (·.dir = d)

/-- The crates that use one, and those that use these. -/
def users (dir : String) : List String :=
  (spread w.usersOf (2 * (w.crates.length + 1)) ⟨[dir], [dir]⟩).seen

/-- The crates that one can break the compile of. -/
def checkers (dir : String) : List String :=
  (spread w.checkersOf (2 * (w.crates.length + 1)) ⟨[dir], [dir]⟩).seen

/-- The crates that one is built from; a crate is known by its directory. -/
def builtFrom (k : Krate) : List String :=
  (spread w.depsOf (2 * (w.crates.length + 1)) ⟨[k], [k]⟩).seen.map (·.dir)

end Workspace

/-- What a workspace's dependencies say of its files and its binaries. -/
structure Reach where
  /-- Crate directory → the binaries its change reaches. -/
  bins : List (String × List String)
  /-- Crate directory → the packages a change to it can break the compile of. -/
  dependents : List (String × List String)
  /-- Binary → the crate directories it is built from. -/
  sources : List (String × List String)

def Reach.load (w : Workspace) : Reach where
  bins := w.crates.map fun k ↦
    (k.dir, sorted ((w.crates.filter (·.dir ∈ w.users k.dir)).flatMap (·.bins)))
  dependents := w.crates.map fun k ↦
    (k.dir, sorted ((w.crates.filter (·.dir ∈ w.checkers k.dir)).map (·.name)))
  sources := (sorted (w.crates.flatMap (·.bins))).map fun b ↦
    (b, sorted ((w.crates.filter (b ∈ ·.bins)).flatMap w.builtFrom))

/-- Whether a path is inside a directory. -/
def underDir (dir path : String) : Bool := Text.startsWith path (dir ++ "/")

/-- The crate directories that a binary is built from; empty for a name no crate builds. -/
def Reach.sourcesOf (r : Reach) (bin : String) : List String := (r.sources.lookup bin).getD []

/-- The binaries a change to a path reaches, as the crate of the longest directory around it does;
empty outside every crate. -/
def Reach.binsFor (r : Reach) (path : String) : List String :=
  (((r.bins.filter fun e ↦ underDir e.1 path).argmax fun e ↦ e.1.utf8ByteSize).map (·.2)).getD []

/-- The files that can change how the whole workspace builds. -/
def buildFiles : List String :=
  ["Cargo.toml", "Cargo.lock", "rust-toolchain", "rust-toolchain.toml", "Makefile", "build.rs"]

def buildsAll (path : String) : Bool :=
  Text.afterLast '/' path ∈ buildFiles || Text.startsWith path ".cargo/"

/-- A `src/` that no crate need be around. -/
def inSrc (path : String) : Bool := Text.contains path "/src/" || Text.startsWith path "src/"

/-- The packages of the crates of the longest directories around the paths, path by path. -/
def Reach.checked (r : Reach) : List String → Option (List String)
  | [] => some []
  | p :: paths =>
    if buildsAll p then none
    else
      match (r.dependents.filter fun e ↦ underDir e.1 p).argmax fun e ↦ e.1.utf8ByteSize with
      | some (_, names) => (r.checked paths).map (names ++ ·)
      | none => if inSrc p then none else r.checked paths

/-- The packages that a check must cover for a change to the paths, where it need not cover the
workspace. -/
def Reach.checkClosure (r : Reach) (paths : List String) : Option (List String) :=
  (r.checked paths).map sorted

/-! ## The searches -/

namespace Workspace

variable {w : Workspace} {k c : Krate} {b path : String} {needs : Krate → List String}
  {next : String → List String}

/-- One crate needs the other. -/
def Needs (w : Workspace) (needs : Krate → List String) (k c : Krate) : Prop :=
  k ∈ w.crates ∧ c ∈ w.crates ∧ c.dir ∈ needs k

/-- One crate depends on the other, development apart. -/
def DependsOn (w : Workspace) : Krate → Krate → Prop := w.Needs (·.deps)

/-- One crate depends on the other, in its tests perhaps. -/
def ChecksWith (w : Workspace) : Krate → Krate → Prop := w.Needs fun k ↦ k.deps ++ k.devDeps

/-- The directories that a search may meet. -/
private def dirs (w : Workspace) : Finset String := (w.crates.map (·.dir)).toFinset

/-- The directories that lead back from a crate are those of the crates that need it. -/
theorem leads_back (hnext : ∀ d, next d = (w.crates.filter (d ∈ needs ·)).map (·.dir))
    (hk : k ∈ w.crates) (hc : c ∈ w.crates) :
    Leads next k.dir c.dir ↔ ReflTransGen (w.Needs needs) c k := by
  constructor
  · intro h
    generalize hd : c.dir = d at h
    induction h generalizing c with
    | refl => exact w.read c hc k hk hd ▸ .refl
    | @tail x y hx hstep ih =>
      rw [hnext] at hstep
      obtain ⟨u, hu, hud⟩ := List.mem_map.mp hstep
      obtain ⟨hu, hneeds⟩ := List.mem_filter.mp hu
      obtain rfl := w.read c hc u hu (hd.trans hud.symm)
      have hdirs : ∃ z ∈ w.crates, z.dir = x := by
        rcases ReflTransGen.cases_tail hx with rfl | ⟨v, -, hv⟩
        · exact ⟨k, hk, rfl⟩
        · rw [hnext] at hv
          obtain ⟨z, hz, rfl⟩ := List.mem_map.mp hv
          exact ⟨z, List.mem_of_mem_filter hz, rfl⟩
      obtain ⟨z, hz, rfl⟩ := hdirs
      exact .head ⟨hc, hz, of_decide_eq_true hneeds⟩ (ih hz rfl)
  · intro h
    induction h using ReflTransGen.head_induction_on with
    | refl => exact .refl
    | @head c c' hstep _ ih =>
      obtain ⟨-, hc', hneeds⟩ := hstep
      refine (ih hc').tail ?_
      rw [hnext]
      exact List.mem_map_of_mem (List.mem_filter.mpr ⟨hc, decide_eq_true hneeds⟩)

/-- A search back from a crate sees the crates that need it. -/
theorem mem_back (hnext : ∀ d, next d = (w.crates.filter (d ∈ needs ·)).map (·.dir))
    (hk : k ∈ w.crates) (hc : c ∈ w.crates) :
    c.dir ∈ (spread next (2 * (w.crates.length + 1)) ⟨[k.dir], [k.dir]⟩).seen ↔
      ReflTransGen (w.Needs needs) c k := by
  rw [← leads_back hnext hk hc]
  refine mem_spread (U := w.dirs) (fun x _ y hy ↦ ?_) ?_ ?_
  · rw [hnext] at hy
    obtain ⟨c, hc, rfl⟩ := List.mem_map.mp hy
    exact List.mem_toFinset.mpr (List.mem_map_of_mem (List.mem_of_mem_filter hc))
  · exact List.mem_toFinset.mpr (List.mem_map_of_mem hk)
  · have hcard := List.toFinset_card_le (w.crates.map (·.dir))
    rw [List.length_map] at hcard
    rw [dirs]
    omega

theorem mem_depsOf : c ∈ w.depsOf k ↔ c ∈ w.crates ∧ c.dir ∈ k.deps := by
  rw [depsOf, List.mem_filterMap]
  constructor
  · rintro ⟨d, hd, hfound⟩
    have hdir : c.dir = d := by simpa using List.find?_some hfound
    exact ⟨List.mem_of_find?_eq_some hfound, hdir ▸ hd⟩
  · rintro ⟨hc, hneeds⟩
    refine ⟨c.dir, hneeds, ?_⟩
    cases h : w.crates.find? (·.dir = c.dir) with
    | none =>
      have hno := List.find?_eq_none.mp h c hc
      simp at hno
    | some c' =>
      have hdir : c'.dir = c.dir := by simpa using List.find?_some h
      rw [w.read c' (List.mem_of_find?_eq_some h) c hc hdir]

theorem leads_depsOf (hk : k ∈ w.crates) :
    Leads w.depsOf k c ↔ ReflTransGen w.DependsOn k c := by
  constructor
  · intro h
    induction h using ReflTransGen.head_induction_on with
    | refl => exact .refl
    | @head x y hstep _ ih =>
      obtain ⟨hy, hneeds⟩ := mem_depsOf.mp hstep
      exact .head ⟨hk, hy, hneeds⟩ (ih hy)
  · exact ReflTransGen.mono (fun x y hxy ↦ mem_depsOf.mpr hxy.2) _ _

/-- A search on from a crate sees the crates that it needs. -/
theorem mem_builtFrom (hk : k ∈ w.crates) (hc : c ∈ w.crates) :
    c.dir ∈ w.builtFrom k ↔ ReflTransGen w.DependsOn k c := by
  have hseen {x : Krate} : x ∈ (spread w.depsOf (2 * (w.crates.length + 1)) ⟨[k], [k]⟩).seen ↔
      Leads w.depsOf k x := by
    refine mem_spread (U := w.crates.toFinset) (fun x _ y hy ↦ ?_) (List.mem_toFinset.mpr hk) ?_
    · exact List.mem_toFinset.mpr (mem_depsOf.mp hy).1
    · have hcard := List.toFinset_card_le w.crates
      omega
  rw [← leads_depsOf hk, builtFrom, List.mem_map]
  constructor
  · rintro ⟨c', hc', hdir⟩
    have hlead := hseen.mp hc'
    have hmem : c' ∈ w.crates := by
      rcases ReflTransGen.cases_tail hlead with rfl | ⟨x, -, hx⟩
      · exact hk
      · exact (mem_depsOf.mp hx).1
    exact w.read c' hmem c hc hdir ▸ hlead
  · exact fun h ↦ ⟨c, hseen.mpr h, rfl⟩

end Workspace

/-! ## The tables -/

theorem lookup_map {α : Type} {f : String → α} {l : List String} {x : String} :
    (l.map fun y ↦ (y, f y)).lookup x = if x ∈ l then some (f x) else none := by
  induction l with
  | nil => rfl
  | cons y l ih =>
    rw [List.map_cons, List.lookup_cons, ih]
    by_cases hxy : x = y
    · simp [hxy]
    · rw [beq_eq_false_iff_ne.mpr hxy]
      simp [hxy]

theorem mem_sourcesOf {w : Workspace} {b d : String} : d ∈ (Reach.load w).sourcesOf b ↔
    ∃ c ∈ w.crates, b ∈ c.bins ∧ d ∈ w.builtFrom c := by
  rw [Reach.sourcesOf, Reach.load, lookup_map]
  split
  · simp [and_assoc]
  · rename_i hno
    refine ⟨fun h ↦ by simp at h, ?_⟩
    rintro ⟨c, hc, hb, -⟩
    refine absurd ?_ hno
    exact mem_sorted.mpr (List.mem_flatMap.mpr ⟨c, hc, hb⟩)

/-- The binaries that a change to a crate reaches. -/
theorem mem_bins {w : Workspace} {k : Krate} {b : String} (hk : k ∈ w.crates) :
    b ∈ sorted ((w.crates.filter (·.dir ∈ w.users k.dir)).flatMap (·.bins)) ↔
      ∃ c ∈ w.crates, b ∈ c.bins ∧ ReflTransGen w.DependsOn c k := by
  rw [mem_sorted, List.mem_flatMap]
  constructor
  · rintro ⟨c, hc, hb⟩
    obtain ⟨hc, hd⟩ := List.mem_filter.mp hc
    exact ⟨c, hc, hb, (Workspace.mem_back (fun _ ↦ rfl) hk hc).mp (of_decide_eq_true hd)⟩
  · rintro ⟨c, hc, hb, hreach⟩
    have hd : c.dir ∈ w.users k.dir := (Workspace.mem_back (fun _ ↦ rfl) hk hc).mpr hreach
    exact ⟨c, List.mem_filter.mpr ⟨hc, decide_eq_true hd⟩, hb⟩

/-- The packages that a change to a crate can break the compile of. -/
theorem mem_dependents {w : Workspace} {k : Krate} {n : String} (hk : k ∈ w.crates) :
    n ∈ sorted ((w.crates.filter (·.dir ∈ w.checkers k.dir)).map (·.name)) ↔
      ∃ u ∈ w.crates, u.name = n ∧ ReflTransGen w.ChecksWith u k := by
  rw [mem_sorted, List.mem_map]
  constructor
  · rintro ⟨u, hu, rfl⟩
    obtain ⟨hu, hd⟩ := List.mem_filter.mp hu
    exact ⟨u, hu, rfl, (Workspace.mem_back (fun _ ↦ rfl) hk hu).mp (of_decide_eq_true hd)⟩
  · rintro ⟨u, hu, rfl, hreach⟩
    have hd : u.dir ∈ w.checkers k.dir := (Workspace.mem_back (fun _ ↦ rfl) hk hu).mpr hreach
    exact ⟨u, List.mem_filter.mpr ⟨hu, decide_eq_true hd⟩, rfl⟩

/-- **Reach and sources are transposes**: the binaries that a change to a crate's directory
reaches are those that are built from it. -/
theorem mem_bins_iff {w : Workspace} {d b : String} {bins : List String}
    (h : (d, bins) ∈ (Reach.load w).bins) : b ∈ bins ↔ d ∈ (Reach.load w).sourcesOf b := by
  obtain ⟨k, hk, he⟩ := List.mem_map.mp h
  obtain ⟨rfl, rfl⟩ := Prod.mk.inj he
  rw [mem_sourcesOf, mem_bins hk]
  exact exists_congr fun c ↦ and_congr_right fun hc ↦
    and_congr_right fun _ ↦ (Workspace.mem_builtFrom hc hk).symm

/-- A binary that a change to a path reaches is built from a directory around it. -/
theorem underDir_of_mem_binsFor {w : Workspace} {b path : String}
    (h : b ∈ (Reach.load w).binsFor path) :
    ∃ d ∈ (Reach.load w).sourcesOf b, underDir d path := by
  rw [Reach.binsFor] at h
  cases ha : ((Reach.load w).bins.filter fun e ↦ underDir e.1 path).argmax
      fun e ↦ e.1.utf8ByteSize with
  | none =>
    rw [ha] at h
    cases h
  | some e =>
    rw [ha] at h
    obtain ⟨he, hunder⟩ := List.mem_filter.mp (List.argmax_mem ha)
    exact ⟨e.1, (mem_bins_iff he).mp h, hunder⟩

/-! ## The owner of a path -/

theorem underDir_iff {d p : String} : underDir d p ↔ d.toList ++ ['/'] <+: p.toList := by
  rw [underDir, Text.startsWith, List.isPrefixOf_iff_prefix, String.toList_append]
  rfl

/-- Of two directories around a path one is around the other. -/
theorem underDir_or {a b p : String} (ha : underDir a p) (hb : underDir b p)
    (hle : a.utf8ByteSize ≤ b.utf8ByteSize) : a = b ∨ underDir a b := by
  rw [underDir_iff] at ha hb ⊢
  rcases List.prefix_or_prefix_of_prefix ha hb with hab | hba
  · rcases List.prefix_concat_iff.mp hab with heq | hab
    · exact .inl (String.toList_inj.mp (List.append_cancel_right heq))
    · exact .inr hab
  · rcases List.prefix_concat_iff.mp hba with heq | hba
    · exact .inl (String.toList_inj.mp (List.append_cancel_right heq)).symm
    · obtain ⟨t, ht⟩ := hba
      have hsize : a = b ++ "/" ++ String.ofList t := by
        refine String.toList_inj.mp ?_
        simp [← ht]
      have hslash : "/".utf8ByteSize = 1 := rfl
      rw [hsize, String.utf8ByteSize_append, String.utf8ByteSize_append] at hle
      omega

theorem not_underDir_self {a b : String} (hab : underDir a b) : ¬ underDir b a := by
  intro hba
  have hlen := (underDir_iff.mp hab).length_le
  have hlen' := (underDir_iff.mp hba).length_le
  rw [List.length_append, List.length_singleton] at hlen hlen'
  omega

/-- The crate whose directory is around the path, and around which every other such one is. -/
def Workspace.Owns (w : Workspace) (k : Krate) (path : String) : Prop :=
  k ∈ w.crates ∧ underDir k.dir path ∧
    ∀ c ∈ w.crates, underDir c.dir path → c.dir = k.dir ∨ underDir c.dir k.dir

theorem Workspace.Owns.unique {w : Workspace} {k k' : Krate} {path : String} (h : w.Owns k path)
    (h' : w.Owns k' path) : k = k' := by
  refine w.read k h.1 k' h'.1 ?_
  rcases h.2.2 k' h'.1 h'.2.1 with heq | hin
  · exact heq.symm
  · exact (h'.2.2 k h.1 h.2.1).resolve_right (not_underDir_self hin)

section Owner

variable {w : Workspace} {f : Krate → List String} {path : String}

/-- What a table says of the owner of a path. -/
theorem argmax_owner {e : String × List String}
    (h : ((w.crates.map fun k ↦ (k.dir, f k)).filter fun e ↦ underDir e.1 path).argmax
      (fun e ↦ e.1.utf8ByteSize) = some e) : ∃ k, w.Owns k path ∧ e = (k.dir, f k) := by
  obtain ⟨he, hunder⟩ := List.mem_filter.mp (List.argmax_mem h)
  obtain ⟨k, hk, rfl⟩ := List.mem_map.mp he
  refine ⟨k, ⟨hk, hunder, fun c hc hcunder ↦ underDir_or hcunder hunder ?_⟩, rfl⟩
  exact List.le_of_mem_argmax (f := fun e : String × List String ↦ e.1.utf8ByteSize)
    (List.mem_filter.mpr ⟨List.mem_map_of_mem hc, hcunder⟩) h

theorem argmax_unowned
    (h : ((w.crates.map fun k ↦ (k.dir, f k)).filter fun e ↦ underDir e.1 path).argmax
      (fun e ↦ e.1.utf8ByteSize) = none) (k : Krate) : ¬ w.Owns k path := by
  rintro ⟨hk, hunder, -⟩
  have hmem : (k.dir, f k) ∈ (w.crates.map fun k ↦ (k.dir, f k)).filter fun e ↦ underDir e.1 path :=
    List.mem_filter.mpr ⟨List.mem_map_of_mem hk, hunder⟩
  rw [List.argmax_eq_none.mp h] at hmem
  exact List.not_mem_nil hmem

/-- A path inside a crate has an owner. -/
theorem exists_owner {k : Krate} (hk : k ∈ w.crates) (hunder : underDir k.dir path) :
    ∃ k, w.Owns k path := by
  cases h : ((w.crates.map fun k ↦ (k.dir, k.bins)).filter fun e ↦ underDir e.1 path).argmax
      fun e ↦ e.1.utf8ByteSize with
  | none =>
    have hmem : (k.dir, k.bins) ∈ (w.crates.map fun k ↦ (k.dir, k.bins)).filter
        fun e ↦ underDir e.1 path := List.mem_filter.mpr ⟨List.mem_map_of_mem hk, hunder⟩
    rw [List.argmax_eq_none.mp h] at hmem
    exact absurd hmem List.not_mem_nil
  | some e =>
    obtain ⟨k, hk, -⟩ := argmax_owner h
    exact ⟨k, hk⟩

theorem lookup_bins {k : Krate} (hk : k ∈ w.crates) : (Reach.load w).bins.lookup k.dir =
    some (sorted ((w.crates.filter (·.dir ∈ w.users k.dir)).flatMap (·.bins))) := by
  have hdirs : (Reach.load w).bins = (w.crates.map (·.dir)).map fun d ↦
      (d, sorted ((w.crates.filter (·.dir ∈ w.users d)).flatMap (·.bins))) := by
    rw [List.map_map]
    rfl
  rw [hdirs, lookup_map, if_pos (List.mem_map_of_mem hk)]

/-- The binaries that a change to a path reaches are those its owner does. -/
theorem binsFor_of_owns {k : Krate} (hk : w.Owns k path) :
    (Reach.load w).bins.lookup k.dir = some ((Reach.load w).binsFor path) := by
  rw [lookup_bins hk.1, Reach.binsFor]
  cases h : ((Reach.load w).bins.filter fun e ↦ underDir e.1 path).argmax
      fun e ↦ e.1.utf8ByteSize with
  | none => exact absurd hk (argmax_unowned h k)
  | some e =>
    obtain ⟨k', hk', rfl⟩ := argmax_owner h
    obtain rfl := hk.unique hk'
    rfl

theorem binsFor_of_unowned (hun : ∀ k, ¬ w.Owns k path) : (Reach.load w).binsFor path = [] := by
  rw [Reach.binsFor]
  cases h : ((Reach.load w).bins.filter fun e ↦ underDir e.1 path).argmax
      fun e ↦ e.1.utf8ByteSize with
  | none => rfl
  | some e =>
    obtain ⟨k, hk, -⟩ := argmax_owner h
    exact absurd hk (hun k)

/-- The path can change how the whole workspace builds. -/
def Workspace.Whole (w : Workspace) (path : String) : Prop :=
  buildsAll path ∨ (∀ k, ¬ w.Owns k path) ∧ inSrc path

theorem checked_spec (paths : List String) :
    ((Reach.load w).checked paths = none ↔ ∃ p ∈ paths, w.Whole p) ∧
      ∀ names, (Reach.load w).checked paths = some names → ∀ n, n ∈ names ↔
        ∃ p ∈ paths, ∃ k, w.Owns k p ∧ ∃ u ∈ w.crates, u.name = n ∧
          ReflTransGen w.ChecksWith u k := by
  induction paths with
  | nil =>
    refine ⟨iff_of_false nofun fun ⟨p, hp, _⟩ ↦ absurd hp List.not_mem_nil, fun names h n ↦ ?_⟩
    obtain rfl := Option.some.inj h
    exact iff_of_false List.not_mem_nil fun ⟨p, hp, _⟩ ↦ absurd hp List.not_mem_nil
  | cons p paths ih =>
    simp only [List.exists_mem_cons_iff]
    rw [Reach.checked]
    by_cases hall : buildsAll p
    · rw [if_pos hall]
      exact ⟨iff_of_true rfl (.inl (.inl hall)), nofun⟩
    · rw [if_neg hall]
      split
      · rename_i d names' howner
        obtain ⟨k, hk, he⟩ := argmax_owner howner
        obtain ⟨rfl, rfl⟩ := Prod.mk.inj he
        have hpart : ¬ w.Whole p := fun h ↦ h.elim hall fun h ↦ h.1 k hk
        rw [Option.map_eq_none_iff, or_iff_right hpart]
        refine ⟨ih.1, fun names h n ↦ ?_⟩
        obtain ⟨rest, hrest, rfl⟩ := Option.map_eq_some_iff.mp h
        rw [List.mem_append, ih.2 rest hrest, mem_dependents hk.1]
        refine or_congr_left ⟨fun hn ↦ ⟨k, hk, hn⟩, ?_⟩
        rintro ⟨k', hk', hn⟩
        exact hk.unique hk' ▸ hn
      · rename_i howner
        have hun : ∀ k, ¬ w.Owns k p := argmax_unowned howner
        by_cases hsrc : inSrc p
        · rw [if_pos hsrc]
          exact ⟨iff_of_true rfl (.inl (.inr ⟨hun, hsrc⟩)), nofun⟩
        · rw [if_neg hsrc]
          have hpart : ¬ w.Whole p := fun h ↦ h.elim hall fun h ↦ hsrc h.2
          rw [or_iff_right hpart]
          refine ⟨ih.1, fun names h n ↦ ?_⟩
          rw [ih.2 names h, or_iff_right]
          exact fun ⟨k, hk, _⟩ ↦ hun k hk

end Owner

/-! ## What the reach of a workspace says -/

/-- The tables follow the dependencies, and a path counts for the crate of the deepest directory
around it. -/
structure Reach.Right (w : Workspace) (r : Reach) : Prop where
  reached : ∀ k ∈ w.crates, ∃ bins, r.bins.lookup k.dir = some bins ∧ ∀ b,
    (b ∈ bins ↔ k.dir ∈ r.sourcesOf b) ∧
      (b ∈ bins ↔ ∃ c ∈ w.crates, b ∈ c.bins ∧ ReflTransGen w.DependsOn c k)
  binsFor : ∀ path k, w.Owns k path → r.bins.lookup k.dir = some (r.binsFor path)
  outside : ∀ path, (∀ k, ¬ w.Owns k path) → r.binsFor path = []
  owned : ∀ path, (∃ k ∈ w.crates, underDir k.dir path) → ∃ k, w.Owns k path
  whole : ∀ paths, r.checkClosure paths = none ↔ ∃ p ∈ paths, w.Whole p
  checked : ∀ paths names, r.checkClosure paths = some names → ∀ n, n ∈ names ↔
    ∃ p ∈ paths, ∃ k, w.Owns k p ∧ ∃ u ∈ w.crates, u.name = n ∧ ReflTransGen w.ChecksWith u k

/-- **The three searches agree with the dependencies**, and each path counts for its owner. -/
theorem load_right (w : Workspace) : (Reach.load w).Right w where
  reached k hk := by
    refine ⟨_, lookup_bins hk, fun b ↦ ⟨?_, mem_bins hk⟩⟩
    exact mem_bins_iff (List.mem_map_of_mem (f := fun k : Krate ↦
      (k.dir, sorted ((w.crates.filter (·.dir ∈ w.users k.dir)).flatMap (·.bins)))) hk)
  binsFor _ _ hk := binsFor_of_owns hk
  outside _ hun := binsFor_of_unowned hun
  owned _ := fun ⟨_, hk, hunder⟩ ↦ exists_owner hk hunder
  whole paths := Option.map_eq_none_iff.trans (checked_spec paths).1
  checked paths names h n := by
    obtain ⟨names', hnames, rfl⟩ := Option.map_eq_some_iff.mp h
    exact mem_sorted.trans ((checked_spec paths).2 names' hnames n)

end Spira.Suites
