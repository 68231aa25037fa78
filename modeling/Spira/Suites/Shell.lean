import Spira.Suites.Reach

/-!
# Function-level reach

The shell scripts of a suite directory: each function's body tokens, and each script's.  A change
confined to some functions of a shared script reaches only the suites that call one of them:
directly, through another function, or by running a script that does.
-/

set_option autoImplicit false

namespace Spira.Suites

/-- The files whose whole-file claims narrow to the functions a change touches. -/
def FUNCTION_SCOPED : List String := ["spira/lib.sh", "spira/conf.sh"]

def isNameChar (c : Char) : Bool := c.isAlphanum || c = '_'

/-- What separates tokens: `.` is kept, so that `queue.sh` is one. -/
def isTokenBreak (c : Char) : Bool := !(isNameChar c || c = '-' || c = '.')

/-- Whether a line is a comment. -/
def isComment (l : List Char) : Bool := (l.dropWhile Text.isWhite).head? = some '#'

/-- The tokens of the lines that are not comments. -/
def tokensOf (ls : List (List Char)) : List String :=
  sorted ((ls.filter (!isComment ·)).flatMap fun l ↦
    (Text.fieldsFrom isTokenBreak [] l).map String.ofList)

/-- The name that a line defines a function of, and the rest of the line. -/
def fnDef (l : List Char) : Option (String × List Char) :=
  match l with
  | [] => none
  | c :: _ =>
    if c.isAlpha || c = '_' then
      match l.dropWhile isNameChar with
      | '(' :: ')' :: rest => some (String.ofList (l.takeWhile isNameChar), rest)
      | _ => none
    else none

/-- Adds to what is kept under a key. -/
def addTo (k : String) (xs : List String) : List (String × List String) → List (String × List String)
  | [] => [(k, xs)]
  | (k', ys) :: e => if k' = k then (k', ys ++ xs) :: e else (k', ys) :: addTo k xs e

structure ShellGraph where
  /-- Function name → the tokens of its body, of every definition of the name. -/
  fns : List (String × List String)
  /-- Script basename → the tokens of its top-level code. -/
  scripts : List (String × List String)
  /-- Script basename → the functions it defines. -/
  defines : List (String × List String)

namespace ShellGraph

/-- A script being read: the function whose body is read, its lines, and the top-level ones. -/
structure Reading where
  graph : ShellGraph
  cur : Option String
  body : List (List Char)
  top : List (List Char)

def Reading.flush (name : String) (r : Reading) : Reading :=
  match r.cur with
  | none => { r with body := [] }
  | some f =>
    { r with
      graph := { r.graph with
        fns := addTo f (tokensOf r.body) r.graph.fns
        defines := addTo name [f] r.graph.defines }
      cur := none
      body := [] }

def Reading.line (name : String) (r : Reading) (l : List Char) : Reading :=
  if l.head? = some '\x7d' then r.flush name
  else match fnDef l with
    | some (f, rest) => { r.flush name with cur := some f, body := [rest] }
    | none =>
      if r.cur.isSome then { r with body := r.body ++ [l] } else { r with top := r.top ++ [l] }

/-- Adds one script's text under its basename. -/
def add (g : ShellGraph) (name text : String) : ShellGraph :=
  let r := ((Text.linesFrom [] text.toList).foldl (Reading.line name) ⟨g, none, [], []⟩).flush name
  { r.graph with
    scripts := r.graph.scripts.filter (·.1 ≠ name) ++ [(name, tokensOf r.top)] }

variable (g : ShellGraph)

/-- Every token a script can run: its top-level code and the bodies of the functions it defines. -/
def tokensOfScript (name : String) : List String :=
  (g.scripts.lookup name).getD [] ++
    ((g.defines.lookup name).getD []).flatMap fun f ↦ (g.fns.lookup f).getD []

/-- The last part of a path. -/
def basename (path : String) : String :=
  String.ofList ((path.toList.reverse.takeWhile (· ≠ '/')).reverse)

/-- Whether a file is a script this graph read and defines functions in. -/
def knows (file : String) : Bool := !((g.defines.lookup (basename file)).getD []).isEmpty

/-- One look at what calls something affected. -/
def affectedRound (entries : List (String × List String)) (a : List String) : List String :=
  entries.foldl (fun a (f, toks) ↦ if f ∉ a ∧ toks.any (· ∈ a) then f :: a else a) a

/-- Looks until nothing is added. -/
def affectedFrom : ℕ → List String → List String
  | 0, a => a
  | n + 1, a =>
    let a' := affectedRound g.scripts (affectedRound g.fns a)
    if a'.length = a.length then a' else affectedFrom n a'

/-- Every name a change to some functions reaches: these, every function that calls one, and every
script that does. -/
def affected (changed : List String) : List String :=
  g.affectedFrom (g.fns.length + g.scripts.length + 1) changed.dedup

end ShellGraph

end Spira.Suites
