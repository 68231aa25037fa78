import Mathlib.Algebra.GroupWithZero.Nat
import Spira.Suites.Select

/-!
# A suite's input closure

What the test plan says a suite reads: its own file, what its `# covers:` names, the harness, the
scripts it runs, and the sources of the binaries it invokes.  Its key is a text of those paths and
their blob ids, so that two trees that differ only outside the closure share it.
-/

set_option autoImplicit false

namespace Spira.Suites

open Worklist

/-- Files every suite reads, whatever it declares. -/
def HARNESS : List String := ["spira/testlib.sh"]

/-- Workspace-wide build inputs. -/
def BUILD_ROOTS : List String := ["Cargo.lock", "Cargo.toml", "rust-toolchain.toml"]

/-! ## Trees -/

/-- A line of `git ls-tree -r`: the path, and what stands before it. -/
def lsEntry (l : String) : Option (String × List String) :=
  (Text.splitOnce '\t' l.toList).map fun (info, path) ↦
    (String.ofList path, Text.words (String.ofList info))

/-- What a line says, of its columns the `n`th: the path and that. -/
def lsColumn (n : ℕ) (l : String) : Option (String × String) :=
  (lsEntry l).bind fun (path, info) ↦ (info[n]?).map (path, ·)

/-- The map of some entries, by key: of several for a key the last stands. -/
def mapOf (entries : List (String × String)) : List (String × String) :=
  (sorted (entries.map (·.1))).filterMap fun p ↦ (entries.reverse.lookup p).map (p, ·)

/-- `git ls-tree -r <tree>` as path and blob id. -/
def parseLsTree (text : String) : List (String × String) :=
  mapOf ((Text.lines text).filterMap (lsColumn 2))

/-- The files of a listing, each with its mode. -/
def modesOf (text : String) : List (String × String) :=
  mapOf ((Text.lines text).filterMap (lsColumn 0))

/-! ## The closure -/

/-- The basename of a path that is a script, and not a suite: `spira/<name>.sh`. -/
def scriptOf (path : String) : Option String :=
  if Text.startsWith path "spira/" then
    let name := String.ofList (path.toList.drop 6)
    if '/' ∉ name.toList ∧ ".sh".toList.isSuffixOf name.toList ∧ !isSuiteFile name then some name
    else none
  else none

/-- The scripts in a tree, by basename. -/
def scripts (files : List (String × String)) : List (String × String) :=
  files.filterMap fun e ↦ (scriptOf e.1).map (·, e.1)

/-- The patterns whose files a suite reads. -/
def closurePats (s : Suite) (covers always : List String) : List String :=
  s!"spira/{s.name}" :: (covers.map filePart).filter (· ≠ "") ++ HARNESS ++ always

/-- The scripts one runs, of those there are. -/
def runsOf (corpus : Corpus) (byName : List (String × String)) (script : String) : List String :=
  (corpus.shell.tokensOfScript script).filter fun t ↦ (byName.lookup t).isSome

/-- The scripts a suite runs, and the scripts those run. -/
def scriptsRun (corpus : Corpus) (s : Suite) (byName : List (String × String)) : List String :=
  let runs := runsOf corpus byName
  let first := s.tokens.filter fun t ↦ (byName.lookup t).isSome
  (walk runs ((byName.map fun e ↦ (runs e.1).length).sum + first.length) ⟨first.reverse, []⟩).seen

/-- Whether a binary of the suite is built from a file: it is in a crate that one is built from,
or, where there is such a crate, a build input of the workspace. -/
def isBuilt (s : Suite) (reach : Option Reach) (file : String) : Bool :=
  match reach with
  | none => false
  | some r =>
    let dirs := s.invokes.flatMap r.sourcesOf
    !dirs.isEmpty && (file ∈ BUILD_ROOTS || dirs.any (underDir · file))

/-- The paths in a suite's closure, or none when it cannot be computed. -/
def closurePaths (corpus : Corpus) (s : Suite) (reach : Option Reach) (files : List (String × String))
    (always : List String) : Option (List String) :=
  s.covers.map fun covers ↦
    let byName := scripts files
    sorted ((files.map (·.1)).filter (anyMatch (closurePats s covers always)) ++
      (scriptsRun corpus s byName).filterMap (fun n ↦ byName.lookup n) ++
        (files.map (·.1)).filter (isBuilt s reach))

/-- A suite's input key: its closure's paths and blob ids as one text; none where it is always
run. -/
def suiteKey (corpus : Corpus) (s : Suite) (reach : Option Reach)
    (files : Option (List (String × String))) (always : List String) : Option String :=
  files.bind fun files ↦ (closurePaths corpus s reach files always).map fun paths ↦
    paths.foldl (fun text p ↦ text ++ (p ++ " " ++ (files.lookup p).getD "" ++ "\n"))
      "suite-inputs-v1\n"

/-- Every suite's input key. -/
def suiteInputs (corpus : Corpus) (reach : Option Reach) (files : Option (List (String × String)))
    (always : List String) : List (String × Option String) :=
  corpus.suites.map fun s ↦ (s.name, suiteKey corpus s reach files always)

end Spira.Suites
