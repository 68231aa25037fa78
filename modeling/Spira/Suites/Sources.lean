import Spira.Suites.Shell

/-!
# Shell sources

A script as it is written: top-level lines, functions over several lines and functions on one.
What a name runs is said of the sources; the graph reads it off the lines, and is right about it
where a script has no line it takes for something else.
-/

set_option autoImplicit false

namespace Spira.Suites

/-! ## Pieces -/

inductive Piece
  | top (line : List Char)
  /-- `name() {`, its body, and a closing brace on a line of its own. -/
  | fn (name : String) (body : List (List Char))
  /-- `name() { inner; }`. -/
  | one (name : String) (inner : List Char)
  deriving DecidableEq

namespace Piece

/-- What a function's name stands before: its opening brace, and all of it where it has one line. -/
def opening : List Char := ['(', ')', ' ', '\x7b']

def closing : List Char := ['\x7d']

def braced (inner : List Char) : List Char := ' ' :: '\x7b' :: ' ' :: (inner ++ [';', ' ', '\x7d'])

/-- The lines of a piece, each with the function it is part of. -/
def owned : Piece → List (Option String × List Char)
  | top line => [(none, line)]
  | fn name body => (some name, name.toList ++ opening) ::
      (body.map (some name, ·) ++ [(some name, closing)])
  | one name inner => [(some name, name.toList ++ '(' :: ')' :: braced inner)]

/-- The function a piece is, with its body. -/
def body? : Piece → Option (String × List (List Char))
  | top _ => none
  | fn name body => some (name, body)
  | one name inner => some (name, [braced inner])

def top? : Piece → Option (List Char)
  | top line => some line
  | _ => none

def isOne : Piece → Bool
  | one .. => true
  | _ => false

/-- A name a definition is read with. -/
def isName (name : String) : Bool :=
  name.toList.head?.any (fun c ↦ c.isAlpha || c = '_') && name.toList.all isNameChar

/-- No line of a piece is taken for the start or the end of a function that it is not. -/
def plain : Piece → Bool
  | top line => (fnDef line).isNone
  | fn name body => isName name && body.all fun l ↦ (fnDef l).isNone && l.head? ≠ some '\x7d'
  | one name _ => isName name

end Piece

open Piece

def ownedOf (ps : List Piece) : List (Option String × List Char) := ps.flatMap owned

def linesOf (ps : List Piece) : List (List Char) := (ownedOf ps).map (·.2)

/-- The lines of a function, of all its definitions. -/
def textOf (ps : List Piece) (name : String) : List (List Char) :=
  ((ownedOf ps).filter (·.1 = some name)).map (·.2)

/-- No piece is misread, and no top-level line follows a function on one line, whose end is not
seen. -/
structure Plainly (ps : List Piece) : Prop where
  plain : ∀ p ∈ ps, p.plain = true
  ended : ps.IsChain fun p q ↦ p.isOne = true → q.top? = none

/-- A script of the directory, as written. -/
structure Script where
  name : String
  text : String
  pieces : List Piece
  text_eq : Text.linesFrom [] text.toList = linesOf pieces

/-- A script is read as it is written: it is plain, and a top-level line that closes a brace runs
nothing. -/
structure Script.Read (s : Script) : Prop extends Plainly s.pieces where
  closed : ∀ p ∈ s.pieces, ∀ l, p.top? = some l → l.head? = some '\x7d' → tokensOf [l] = []

/-- What a name runs: the words of the body of a function of the name, in any script, and those of
the top-level code of the script of the name. -/
def Runs (scripts : List Script) (a t : String) : Prop :=
  (∃ s ∈ scripts, ∃ p ∈ s.pieces, ∃ body, p.body? = some (a, body) ∧ t ∈ tokensOf body) ∨
    ∃ s ∈ scripts, s.name = a ∧ t ∈ tokensOf (s.pieces.filterMap top?)

/-- One name leads to another by what they run. -/
def RunsTo (scripts : List Script) : String → String → Prop :=
  Relation.ReflTransGen (Runs scripts)

/-- The graph of the scripts of a directory. -/
def graphOf (scripts : List Script) : ShellGraph :=
  scripts.foldl (fun g s ↦ g.add s.name s.text) ⟨[], [], []⟩

/-! ## Lines -/

section Lines

variable {name : String} {l : List Char} {ls : List (List Char)} {t : String}

theorem mem_tokensOf (ls : List (List Char)) : t ∈ tokensOf ls ↔ ∃ l ∈ ls, t ∈ tokensOf [l] := by
  constructor
  · intro h
    obtain ⟨l, hl, ht⟩ := List.mem_flatMap.mp (mem_sorted.mp h)
    obtain ⟨hl, hcomment⟩ := List.mem_filter.mp hl
    refine ⟨l, hl, mem_sorted.mpr (List.mem_flatMap.mpr ⟨l, ?_, ht⟩)⟩
    exact List.mem_filter.mpr ⟨List.mem_singleton_self l, hcomment⟩
  · rintro ⟨l, hl, ht⟩
    obtain ⟨l', hl', ht⟩ := List.mem_flatMap.mp (mem_sorted.mp ht)
    obtain ⟨hl', hcomment⟩ := List.mem_filter.mp hl'
    rw [List.mem_singleton.mp hl'] at ht hcomment
    exact mem_sorted.mpr (List.mem_flatMap.mpr ⟨l, List.mem_filter.mpr ⟨hl, hcomment⟩, ht⟩)

theorem of_isName (h : isName name) : ∃ c cs, name.toList = c :: cs ∧
    (c.isAlpha || c = '_') = true ∧ ∀ x ∈ name.toList, isNameChar x = true := by
  obtain ⟨hhead, hall⟩ := Bool.and_eq_true_iff.mp h
  cases hlist : name.toList with
  | nil => simp [hlist] at hhead
  | cons c cs =>
    rw [hlist] at hhead hall
    exact ⟨c, cs, rfl, by simpa using hhead, List.all_eq_true.mp hall⟩

/-- A definition is read with its name. -/
theorem fnDef_of_isName (h : isName name) (rest : List Char) :
    fnDef (name.toList ++ '(' :: ')' :: rest) = some (name, rest) := by
  obtain ⟨c, cs, hcs, hc, hall⟩ := of_isName h
  have hdrop : (name.toList ++ '(' :: ')' :: rest).dropWhile isNameChar = '(' :: ')' :: rest := by
    rw [List.dropWhile_append_of_pos hall]
    rfl
  have htake : (name.toList ++ '(' :: ')' :: rest).takeWhile isNameChar = name.toList := by
    rw [List.takeWhile_append_of_pos hall]
    simp [isNameChar]
  unfold fnDef
  rw [hcs, List.cons_append] at hdrop htake ⊢
  dsimp only
  rw [if_pos hc, hdrop, htake, ← hcs]
  simp

theorem plain_fn {f : String} {body : List (List Char)} (h : (Piece.fn f body).plain = true) :
    isName f ∧ ∀ l ∈ body, fnDef l = none ∧ l.head? ≠ some '\x7d' := by
  obtain ⟨hname, hbody⟩ := Bool.and_eq_true_iff.mp h
  exact ⟨hname, by simpa using hbody⟩

theorem head?_of_isName (h : isName name) (rest : List Char) :
    (name.toList ++ rest).head? ≠ some '\x7d' := by
  obtain ⟨c, cs, hcs, hc, -⟩ := of_isName h
  rw [hcs, List.cons_append, List.head?_cons]
  rintro ⟨⟩
  revert hc
  decide

end Lines

/-! ## The graph -/

section Graph

/-- What a map keeps under a key. -/
def Entry (m : List (String × List String)) (k t : String) : Prop := ∃ ts, (k, ts) ∈ m ∧ t ∈ ts

theorem entry_addTo {m : List (String × List String)} {k a t : String} {xs : List String} :
    Entry (addTo k xs m) a t ↔ Entry m a t ∨ a = k ∧ t ∈ xs := by
  induction m with
  | nil => simp [Entry, addTo]
  | cons e m ih =>
    obtain ⟨k', ys⟩ := e
    have hcons (m : List (String × List String)) (zs : List String) :
        Entry ((k', zs) :: m) a t ↔ a = k' ∧ t ∈ zs ∨ Entry m a t := by
      simp [Entry, or_and_right, exists_or, and_assoc]
    rw [addTo]
    split
    · rename_i h
      rw [hcons, hcons, List.mem_append, h]
      tauto
    · rw [hcons, hcons, ih]
      tauto

namespace ShellGraph

/-- One name runs a word, as the graph has it. -/
def Calls (g : ShellGraph) (a t : String) : Prop := Entry g.fns a t ∨ Entry g.scripts a t

variable {n f : String} {r : Reading} {ps : List Piece} {ls : List (List Char)}

/-- The body of a function read to its end. -/
def Reading.closed (r : Reading) (n f : String) (body : List (List Char)) : Reading :=
  { r.flush n with
    graph := { (r.flush n).graph with
      fns := addTo f (tokensOf body) (r.flush n).graph.fns
      defines := addTo n [f] (r.flush n).graph.defines } }

theorem flush_of_none (h : r.cur = none) : r.flush n = { r with body := [] } := by
  rw [Reading.flush, h]

theorem cur_flush : (r.flush n).cur = none := by
  rw [Reading.flush]
  split
  · rename_i h
    exact h
  · rfl

theorem body_flush : (r.flush n).body = [] := by
  rw [Reading.flush]
  split <;> rfl

theorem top_flush : (r.flush n).top = r.top := by
  rw [Reading.flush]
  split <;> rfl

theorem scripts_flush : (r.flush n).graph.scripts = r.graph.scripts := by
  rw [Reading.flush]
  split <;> rfl

theorem line_def (hname : isName f) (rest : List Char) :
    r.line n (f.toList ++ '(' :: ')' :: rest) = { r.flush n with cur := some f, body := [rest] } := by
  rw [Reading.line, if_neg (head?_of_isName hname _), fnDef_of_isName hname]

theorem line_closing : r.line n closing = r.flush n := rfl

theorem flush_opened {body : List (List Char)} :
    Reading.flush n { r.flush n with cur := some f, body := body } = r.closed n f body := by
  have hcur := cur_flush (n := n) (r := r)
  have hbody := body_flush (n := n) (r := r)
  rw [Reading.flush, Reading.closed]
  simp [hcur, hbody]

theorem foldl_body (hr : r.cur = some f) (hls : ∀ l ∈ ls, fnDef l = none ∧ l.head? ≠ some '\x7d') :
    ls.foldl (Reading.line n) r = { r with body := r.body ++ ls } := by
  induction ls generalizing r with
  | nil => simp
  | cons l ls ih =>
    obtain ⟨hdef, hhead⟩ := hls l List.mem_cons_self
    have hline : r.line n l = { r with body := r.body ++ [l] } := by
      rw [Reading.line, if_neg hhead, hdef, hr]
      rfl
    have hrest := ih (r := { r with body := r.body ++ [l] }) hr fun l hl ↦
      hls l (List.mem_cons_of_mem _ hl)
    rw [List.foldl_cons, hline]
    exact hrest.trans (by rw [List.append_assoc, List.singleton_append])

/-- A function over several lines is read to its end. -/
theorem foldl_fn {body : List (List Char)} (h : (Piece.fn f body).plain = true) :
    (linesOf [.fn f body]).foldl (Reading.line n) r = r.closed n f ([' ', '\x7b'] :: body) := by
  have hlines : linesOf [.fn f body] = (f.toList ++ opening) :: (body ++ [closing]) := by
    simp [linesOf, ownedOf, owned, Function.comp_def]
  obtain ⟨hname, hbody⟩ := plain_fn h
  rw [hlines, List.foldl_cons, opening, line_def hname, List.foldl_append, foldl_body rfl hbody,
    List.foldl_cons, List.foldl_nil, line_closing]
  exact flush_opened

theorem flush_closed {body : List (List Char)} :
    (r.closed n f body).flush n = r.closed n f body := by
  have hcur : (r.closed n f body).cur = none := cur_flush
  have hbody : (r.closed n f body).body = [] := body_flush
  rw [flush_of_none hcur, ← hbody]

/-- What pieces add to what is read. -/
structure Took (ps : List Piece) (r r' : Reading) : Prop where
  fns : ∀ a t, Entry r'.graph.fns a t ↔
    Entry r.graph.fns a t ∨ ∃ p ∈ ps, ∃ body, p.body? = some (a, body) ∧ t ∈ tokensOf body
  scripts : r'.graph.scripts = r.graph.scripts
  top : ∀ t, t ∈ tokensOf r'.top ↔ t ∈ tokensOf r.top ∨ t ∈ tokensOf (ps.filterMap top?)

theorem Took.trans {r₁ r₂ r₃ : Reading} {p : Piece} (h : Took [p] r₁ r₂) (h' : Took ps r₂ r₃) :
    Took (p :: ps) r₁ r₃ := by
  refine ⟨fun a t ↦ ?_, h'.scripts.trans h.scripts, fun t ↦ ?_⟩
  · rw [h'.fns, h.fns]
    simp [or_assoc]
  · have htokens : t ∈ tokensOf ((p :: ps).filterMap top?) ↔
        t ∈ tokensOf ([p].filterMap top?) ∨ t ∈ tokensOf (ps.filterMap top?) := by
      rw [mem_tokensOf, mem_tokensOf ([p].filterMap top?), mem_tokensOf (ps.filterMap top?)]
      simp [or_and_right, exists_or]
    rw [h'.top, h.top, htokens, or_assoc]

/-- A function's body is what its closing adds. -/
theorem took_closed {p : Piece} {body read : List (List Char)} (hp : p.body? = some (f, body))
    (htop : p.top? = none) (hread : ∀ t, t ∈ tokensOf read ↔ t ∈ tokensOf body) :
    Took [p] (r.flush n) (r.closed n f read) := by
  refine ⟨fun a t ↦ ?_, rfl, fun t ↦ ?_⟩
  · have hentry : Entry (addTo f (tokensOf read) (r.flush n).graph.fns) a t ↔
        Entry (r.flush n).graph.fns a t ∨ a = f ∧ t ∈ tokensOf read := entry_addTo
    rw [Reading.closed, hentry, hread]
    simp [hp, eq_comm (a := f)]
  · rw [Reading.closed]
    simp [htop, tokensOf, sorted]

/-- One piece. -/
theorem took_piece {p : Piece} (hp : p.plain = true)
    (hclosed : ∀ l, p.top? = some l → l.head? = some '\x7d' → tokensOf [l] = [])
    (hr : r.cur.isSome = true → p.top? = none) :
    Took [p] (r.flush n) (((linesOf [p]).foldl (Reading.line n) r).flush n) ∧
      (p.isOne = false → ((linesOf [p]).foldl (Reading.line n) r).cur = none) := by
  cases p with
  | top l =>
    have hcur : r.cur = none := by
      by_contra hsome
      simpa [top?] using hr (Option.isSome_iff_ne_none.mpr hsome)
    have hlines : linesOf [.top l] = [l] := rfl
    have hbody : Piece.body? (.top l) = none := rfl
    rw [hlines, List.foldl_cons, List.foldl_nil]
    by_cases hhead : l.head? = some '\x7d'
    · rw [Reading.line, if_pos hhead, flush_of_none cur_flush, body_flush.symm]
      refine ⟨⟨fun a t ↦ ?_, rfl, fun t ↦ ?_⟩, fun _ ↦ cur_flush⟩
      · simp [hbody]
      · simp [top?, hclosed l rfl hhead]
    · have hdef : fnDef l = none := Option.isNone_iff_eq_none.mp hp
      have hline : r.line n l = { r with top := r.top ++ [l] } := by
        rw [Reading.line, if_neg hhead, hdef, hcur]
        rfl
      have hflush : Reading.flush n { r with top := r.top ++ [l] } =
          { r with top := r.top ++ [l], body := [] } := flush_of_none hcur
      rw [hline, flush_of_none hcur, hflush]
      refine ⟨⟨fun a t ↦ ?_, rfl, fun t ↦ ?_⟩, fun _ ↦ hcur⟩
      · simp [hbody]
      · have htop : t ∈ tokensOf (r.top ++ [l]) ↔ t ∈ tokensOf r.top ∨ t ∈ tokensOf [l] := by
          rw [mem_tokensOf, mem_tokensOf r.top]
          simp [or_and_right, exists_or]
        simpa [top?] using htop
  | fn f body =>
    rw [foldl_fn hp, flush_closed]
    refine ⟨took_closed rfl rfl fun t ↦ ?_, fun _ ↦ cur_flush⟩
    have hopen : tokensOf [[' ', '\x7b']] = [] := by decide
    rw [mem_tokensOf, mem_tokensOf body]
    simp [hopen]
  | one f inner =>
    have hline : (linesOf [.one f inner]).foldl (Reading.line n) r =
        { r.flush n with cur := some f, body := [braced inner] } := line_def hp _
    rw [hline, flush_opened]
    exact ⟨took_closed rfl rfl fun _ ↦ .rfl, nofun⟩

/-- All the pieces. -/
theorem took_pieces (hps : Plainly ps)
    (hclosed : ∀ p ∈ ps, ∀ l, p.top? = some l → l.head? = some '\x7d' → tokensOf [l] = [])
    (hr : r.cur.isSome = true → ∀ p ∈ ps.head?, p.top? = none) :
    Took ps (r.flush n) (((linesOf ps).foldl (Reading.line n) r).flush n) := by
  induction ps generalizing r with
  | nil => exact ⟨fun a t ↦ by simp [linesOf, ownedOf], rfl,
      fun t ↦ by simp [linesOf, ownedOf, tokensOf, sorted]⟩
  | cons p ps ih =>
    obtain ⟨hnext, hended⟩ := List.isChain_cons.mp hps.ended
    have hlines : linesOf (p :: ps) = linesOf [p] ++ linesOf ps := by simp [linesOf, ownedOf]
    obtain ⟨hpiece, hcur⟩ := took_piece (n := n) (hps.plain p List.mem_cons_self)
      (hclosed p List.mem_cons_self) (fun h ↦ hr h p (by simp))
    rw [hlines, List.foldl_append]
    refine hpiece.trans (ih ⟨fun q hq ↦ hps.plain q (List.mem_cons_of_mem _ hq), hended⟩
      (fun q hq ↦ hclosed q (List.mem_cons_of_mem _ hq)) fun hsome q hq ↦ hnext q hq ?_)
    by_contra hone
    rw [hcur (Bool.eq_false_of_not_eq_true hone)] at hsome
    cases hsome

section Add

variable {g : ShellGraph} {s : Script}

theorem took_script (hs : s.Read) : Took s.pieces (Reading.flush s.name ⟨g, none, [], []⟩)
    (((Text.linesFrom [] s.text.toList).foldl (Reading.line s.name) ⟨g, none, [], []⟩).flush s.name) := by
  rw [s.text_eq]
  exact took_pieces hs.toPlainly hs.closed nofun

/-- A script is listed under its name. -/
theorem scripts_add (hs : s.Read) : (g.add s.name s.text).scripts = (g.scripts.filter (·.1 ≠ s.name)) ++
    [(s.name, tokensOf (((Text.linesFrom [] s.text.toList).foldl (Reading.line s.name)
      ⟨g, none, [], []⟩).flush s.name).top)] :=
  congrArg (fun m ↦ (m.filter (·.1 ≠ s.name)) ++ _) (took_script hs).scripts

/-- Reading a script adds what its names run. -/
theorem calls_add (hs : s.Read) (hnew : ∀ e ∈ g.scripts, e.1 ≠ s.name) (a t : String) :
    (g.add s.name s.text).Calls a t ↔ g.Calls a t ∨ Runs [s] a t := by
  have hscripts : Entry (g.add s.name s.text).scripts a t ↔
      Entry g.scripts a t ∨ s.name = a ∧ t ∈ tokensOf (s.pieces.filterMap top?) := by
    have hkept : g.scripts.filter (·.1 ≠ s.name) = g.scripts :=
      List.filter_eq_self.mpr fun e he ↦ by simpa using hnew e he
    have hempty : t ∉ tokensOf (Reading.flush s.name ⟨g, none, [], []⟩).top := List.not_mem_nil
    have htop := ((took_script hs).top t).trans (or_iff_right hempty)
    rw [scripts_add hs, hkept]
    simp only [Entry, List.mem_append, List.mem_singleton, or_and_right, exists_or, Prod.mk.injEq,
      and_assoc, exists_and_left, exists_eq_left, htop]
    simp [eq_comm (a := a)]
  have hfns : Entry (g.add s.name s.text).fns a t ↔
      Entry g.fns a t ∨ ∃ p ∈ s.pieces, ∃ body, p.body? = some (a, body) ∧ t ∈ tokensOf body :=
    (took_script hs).fns a t
  rw [Calls, Calls, hscripts, hfns, Runs]
  simp only [List.mem_singleton, exists_eq_left]
  exact or_or_or_comm

end Add

end ShellGraph

/-- **The graph has what the names of the scripts run.** -/
theorem calls_graphOf {scripts : List Script} (hread : ∀ s ∈ scripts, s.Read)
    (hnames : (scripts.map (·.name)).Nodup) (a t : String) :
    (graphOf scripts).Calls a t ↔ Runs scripts a t := by
  have hfold (scripts : List Script) : ∀ g : ShellGraph, (∀ s ∈ scripts, s.Read) →
      (scripts.map (·.name)).Nodup → (∀ s ∈ scripts, ∀ e ∈ g.scripts, e.1 ≠ s.name) →
      ((scripts.foldl (fun g s ↦ g.add s.name s.text) g).Calls a t ↔
        g.Calls a t ∨ Runs scripts a t) := by
    induction scripts with
    | nil => simp [Runs]
    | cons s scripts ih =>
      intro g hread hnames hnew
      have hs := hread s List.mem_cons_self
      obtain ⟨hno, hnodup⟩ := List.nodup_cons.mp hnames
      have hruns : Runs (s :: scripts) a t ↔ Runs [s] a t ∨ Runs scripts a t := by
        simp only [Runs, List.mem_cons, List.not_mem_nil, or_false, or_and_right, exists_or,
          exists_eq_left]
        exact or_or_or_comm
      rw [List.foldl_cons, ih _ (fun x hx ↦ hread x (List.mem_cons_of_mem _ hx)) hnodup,
        ShellGraph.calls_add hs (hnew s List.mem_cons_self), hruns, or_assoc]
      intro x hx e he
      rw [ShellGraph.scripts_add hs] at he
      rcases List.mem_append.mp he with he | he
      · exact hnew x (List.mem_cons_of_mem _ hx) e (List.mem_of_mem_filter he)
      · rw [List.mem_singleton.mp he]
        exact fun h ↦ hno (List.mem_map.mpr ⟨x, hx, h.symm⟩)
  have hempty : ¬ (⟨[], [], []⟩ : ShellGraph).Calls a t := by simp [ShellGraph.Calls, Entry]
  rw [graphOf, hfold scripts _ hread hnames (by simp)]
  exact or_iff_right hempty

/-! ### What a change affects -/

namespace ShellGraph

variable {entries : List (String × List String)} {a : List String} {x : String}

/-- One entry of a map looked at. -/
def lookAt (a : List String) (e : String × List String) : List String :=
  if e.1 ∉ a ∧ e.2.any (· ∈ a) then e.1 :: a else a

theorem affectedRound_eq : affectedRound entries a = entries.foldl lookAt a := rfl

theorem subset_lookAt (e : String × List String) : a ⊆ lookAt a e := by
  rw [lookAt]
  split
  · exact List.subset_cons_self _ _
  · exact List.Subset.refl _

theorem subset_round : a ⊆ affectedRound entries a :=
  List.foldlRecOn (motive := fun b ↦ a ⊆ b) entries lookAt (List.Subset.refl _)
    fun _ hb _ _ ↦ List.Subset.trans hb (subset_lookAt _)

/-- What is added calls something that was affected. -/
theorem mem_round {P : String → Prop} (ha : ∀ x ∈ a, P x)
    (hstep : ∀ x t, Entry entries x t → P t → P x) : ∀ x ∈ affectedRound entries a, P x := by
  refine List.foldlRecOn (motive := fun b ↦ ∀ x ∈ b, P x) entries lookAt ha fun b hb e he x hx ↦ ?_
  rw [lookAt] at hx
  split at hx
  · rename_i hcond
    obtain ⟨t, ht, hin⟩ := List.any_eq_true.mp hcond.2
    rcases List.mem_cons.mp hx with rfl | hx
    · exact hstep _ t ⟨e.2, he, ht⟩ (hb t (of_decide_eq_true hin))
    · exact hb x hx
  · exact hb x hx

theorem length_round (entries : List (String × List String)) (a : List String) :
    a.length ≤ (affectedRound entries a).length :=
  List.foldlRecOn (motive := fun b ↦ a.length ≤ b.length) entries lookAt le_rfl fun b hb e _ ↦
    hb.trans (by rw [lookAt]; split <;> simp)

/-- Where nothing was added, what calls something affected is affected. -/
theorem round_closed (h : (affectedRound entries a).length = a.length) :
    affectedRound entries a = a ∧ ∀ x t, Entry entries x t → t ∈ a → x ∈ a := by
  induction entries with
  | nil => exact ⟨rfl, fun x t he ↦ by simp [Entry] at he⟩
  | cons e entries ih =>
    have hround : affectedRound (e :: entries) a = affectedRound entries (lookAt a e) := rfl
    have hlook : lookAt a e = a := by
      rw [lookAt]
      split
      · rename_i hcond
        have hle := length_round entries (e.1 :: a)
        rw [hround, lookAt, if_pos hcond] at h
        rw [h, List.length_cons] at hle
        omega
      · rfl
    rw [hround, hlook] at h ⊢
    refine ⟨(ih h).1, fun x t ⟨ts, hmem, ht⟩ hin ↦ ?_⟩
    rcases List.mem_cons.mp hmem with rfl | hmem
    · by_contra hx
      rw [lookAt, if_pos ⟨hx, List.any_eq_true.mpr ⟨t, ht, decide_eq_true hin⟩⟩] at hlook
      exact hx (hlook ▸ List.mem_cons_self)
    · exact (ih h).2 x t ⟨ts, hmem, ht⟩ hin

theorem nodup_round (h : a.Nodup) : (affectedRound entries a).Nodup := by
  refine List.foldlRecOn (motive := fun b ↦ b.Nodup) entries lookAt h fun b hb e _ ↦ ?_
  rw [lookAt]
  split
  · rename_i hcond
    exact List.nodup_cons.mpr ⟨hcond.1, hb⟩
  · exact hb

variable {g : ShellGraph} {start changed : List String}

/-- A look at both maps. -/
theorem round_round :
    affectedRound g.scripts (affectedRound g.fns a) = affectedRound (g.fns ++ g.scripts) a :=
  List.foldl_append.symm

theorem entry_append {m m' : List (String × List String)} {k t : String} :
    Entry (m ++ m') k t ↔ Entry m k t ∨ Entry m' k t := by
  simp [Entry, or_and_right, exists_or]

/-- What is listed is distinct, and from the start or a key. -/
structure Listed (g : ShellGraph) (start a : List String) : Prop where
  nodup : a.Nodup
  mem : ∀ x ∈ a, x ∈ start ∨ x ∈ (g.fns ++ g.scripts).map (·.1)

theorem Listed.round (h : Listed g start a) :
    Listed g start (affectedRound (g.fns ++ g.scripts) a) :=
  ⟨nodup_round h.nodup, mem_round h.mem fun _ _ ⟨_, hmem, _⟩ _ ↦ .inr (List.mem_map_of_mem hmem)⟩

theorem Listed.length_le (h : Listed g start a) :
    a.length ≤ start.length + (g.fns.length + g.scripts.length) := by
  have hsub : a ⊆ start ++ (g.fns ++ g.scripts).map (·.1) := fun x hx ↦
    List.mem_append.mpr (h.mem x hx)
  have hle := (h.nodup.subperm hsub).length_le
  simpa using hle

/-- Given fuel enough, what the looks end with is closed, and what a closed set holds of the start
holds of it. -/
theorem affectedFrom_closed {n : ℕ} (h : Listed g start a)
    (hn : start.length + (g.fns.length + g.scripts.length) < a.length + n) :
    a ⊆ g.affectedFrom n a ∧ ∀ x t, g.Calls x t → t ∈ g.affectedFrom n a → x ∈ g.affectedFrom n a := by
  induction n generalizing a with
  | zero =>
    have hle := h.length_le
    omega
  | succ n ih =>
    rw [affectedFrom, round_round]
    split
    · rename_i hlen
      obtain ⟨heq, hclosed⟩ := round_closed hlen
      rw [heq]
      exact ⟨List.Subset.refl _, fun x t hcalls ↦ hclosed x t (entry_append.mpr hcalls)⟩
    · rename_i hlen
      have hle := length_round (g.fns ++ g.scripts) a
      obtain ⟨hsub, hclosed⟩ := ih h.round (by omega)
      exact ⟨List.Subset.trans subset_round hsub, hclosed⟩

theorem mem_affectedFrom {n : ℕ} {P : String → Prop} (ha : ∀ x ∈ a, P x)
    (hstep : ∀ x t, g.Calls x t → P t → P x) : ∀ x ∈ g.affectedFrom n a, P x := by
  induction n generalizing a with
  | zero => exact ha
  | succ n ih =>
    have hround : ∀ x ∈ affectedRound (g.fns ++ g.scripts) a, P x :=
      mem_round ha fun x t he ↦ hstep x t (entry_append.mp he)
    rw [affectedFrom, round_round]
    split
    · exact hround
    · exact ih hround

/-- **A change affects what leads to it**, by what names run. -/
theorem mem_affected :
    x ∈ g.affected changed ↔ ∃ f ∈ changed, Relation.ReflTransGen g.Calls x f := by
  constructor
  · refine mem_affectedFrom (P := fun x ↦ ∃ f ∈ changed, Relation.ReflTransGen g.Calls x f)
      (fun x hx ↦ ⟨x, List.mem_dedup.mp hx, .refl⟩) (fun x t hcalls ⟨f, hf, hto⟩ ↦ ?_) x
    exact ⟨f, hf, .head hcalls hto⟩
  · rintro ⟨f, hf, hto⟩
    have hlisted : Listed g changed.dedup changed.dedup := ⟨List.nodup_dedup _, fun x hx ↦ .inl hx⟩
    obtain ⟨hsub, hclosed⟩ := affectedFrom_closed (n := g.fns.length + g.scripts.length + 1) hlisted
      (by omega)
    induction hto using Relation.ReflTransGen.head_induction_on with
    | refl => exact hsub (List.mem_dedup.mpr hf)
    | head hcalls _ ih => exact hclosed _ _ hcalls ih

end ShellGraph

end Graph

end Spira.Suites
