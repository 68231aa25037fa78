import Spira.Suites.Scope
import Spira.Suites.Sources

/-!
# When narrowing is sound

An edit of a function-scoped file leaves out the suites its claim narrows past.  It may: where
every line it cuts or puts in is part of a function, and no suite left out leads to a function
that differs.  A diff is placed by its head alone, so this holds only of edits that cut nothing
outside the functions, and no definition whose name leads to none of the functions they are placed
in.
-/

set_option autoImplicit false

namespace Spira.Suites

open Piece

/-! ## Diffs -/

/-- A stretch of a diff: a line of both texts, or lines cut and the lines put in their place. -/
inductive Chunk
  | keep (line : List Char)
  | hunk (cut put : List (List Char))

namespace Chunk

def base : Chunk → List (List Char)
  | keep l => [l]
  | hunk cut _ => cut

def head : Chunk → List (List Char)
  | keep l => [l]
  | hunk _ put => put

end Chunk

/-- Where a hunk stands: the lines before it and its own, in either text. -/
structure Place where
  base : ℕ
  cut : ℕ
  head : ℕ
  put : ℕ

/-- The places of the hunks, `b` and `h` being the lines before in either text. -/
def placesFrom (b h : ℕ) : List Chunk → List Place
  | [] => []
  | .keep _ :: cs => placesFrom (b + 1) (h + 1) cs
  | .hunk cut put :: cs =>
    ⟨b, cut.length, h, put.length⟩ :: placesFrom (b + cut.length) (h + put.length) cs

/-- Lines as a header gives them: the first, or the one before where there are none, and how many
unless there is one. -/
def rangeText (before count : ℕ) : List Char :=
  Nat.toDigits 10 (if count = 0 then before else before + 1) ++
    if count = 1 then [] else ',' :: Nat.toDigits 10 count

/-- A hunk's header, with what follows it on its line. -/
def Place.header (p : Place) (rest : List Char) : List Char :=
  '@' :: '@' :: ' ' :: '-' :: (rangeText p.base p.cut ++
    ' ' :: '+' :: (rangeText p.head p.put ++ ' ' :: '@' :: '@' :: rest))

/-- A diff without context: its headers are those of its hunks. -/
def IsDiff (diff : String) (cs : List Chunk) : Prop :=
  List.Forall₂ (fun l p ↦ ∃ rest, l = Place.header p rest)
    ((Text.linesFrom [] diff.toList).filter ("@@".toList.isPrefixOf ·)) (placesFrom 0 0 cs)

/-- What stands at the lines of the hunks, in one of the two texts. -/
def touched {α : Type} (side : Chunk → List (List Char)) : List Chunk → List α → List α
  | [], _ => []
  | .keep _ :: cs, xs => touched side cs xs.tail
  | .hunk cut put :: cs, xs =>
    let n := (side (.hunk cut put)).length
    xs.take n ++ touched side cs (xs.drop n)

/-- The functions that the hunks lie in, by the head, whose lines' functions are listed; `before`
is that of the line before.  Where nothing is put in, both neighbours must be of one function. -/
def lying (before : Option String) : List Chunk → List (Option String) → List (Option String)
  | [], _ => []
  | .keep _ :: cs, owners => lying owners.head?.join cs owners.tail
  | .hunk _ [] :: cs, owners =>
    (if before = owners.head?.join then before else none) :: lying before cs owners
  | .hunk _ (l :: ls) :: cs, owners =>
    let n := (l :: ls).length
    owners.take n ++ lying (owners.take n).getLast?.join cs (owners.drop n)

/-! ## Edits -/

/-- A function-scoped file is modified, in a directory of scripts. -/
structure Edit where
  scripts : List Script
  change : Change
  base : List Piece
  head : List Piece
  chunks : List Chunk
  diff : String
  text : String
  names : (scripts.map (·.name)).Nodup
  modified : change.added = false ∧ change.deleted = false
  listed : change.path ∈ FUNCTION_SCOPED
  known : (graphOf scripts).knows change.path = true
  base_eq : chunks.flatMap Chunk.base = linesOf base
  head_eq : chunks.flatMap Chunk.head = linesOf head
  text_eq : Text.linesFrom [] text.toList = linesOf head
  diff_eq : IsDiff diff chunks

namespace Edit

variable (e : Edit)

/-- The lines cut, each with its function. -/
def cut : List (Option String × List Char) := touched Chunk.base e.chunks (ownedOf e.base)

/-- The lines put in, each with its function. -/
def put : List (Option String × List Char) := touched Chunk.head e.chunks (ownedOf e.head)

/-- The functions the hunks lie in, by the head alone. -/
def lies : List (Option String) := lying none e.chunks ((ownedOf e.head).map (·.1))

/-- The functions whose lines differ: changed, added, deleted or renamed. -/
def Differs (name : String) : Prop := textOf e.base name ≠ textOf e.head name

/-- A suite may be left out: the edit touches lines of functions alone, and no word of the suite
leads to one that differs. -/
structure Apart (s : Suite) : Prop where
  cut : ∀ l ∈ e.cut, l.1 ≠ none
  put : ∀ l ∈ e.put, l.1 ≠ none
  words : ∀ w ∈ s.words ++ s.tokens, ∀ f, e.Differs f → ¬ RunsTo e.scripts w f

/-- The diff and the head text of the file are at hand. -/
structure Given (diff text : String → Option String) : Prop where
  diff : diff e.change.path = some e.diff
  text : text e.change.path = some e.text

/-- The selection of a diff leaves out only suites that may be. -/
def SelectsSoundly : Prop :=
  ∀ (corpus : Corpus) (changes : List Change) (diff text : String → Option String)
    (buckets : Buckets) (opts : Options) (s : Suite), corpus.shell = graphOf e.scripts →
    e.Given diff text → LeftOut corpus changes (fnChangedIn diff text) buckets opts e.change s → e.Apart s

/-- The gate with its suites off leaves out only suites that may be. -/
def CarvesSoundly : Prop :=
  ∀ (corpus : Corpus) (alwaysCovers : List String) (changes : List Change)
    (diff text : String → Option String) (s : Suite), corpus.shell = graphOf e.scripts →
    e.Given diff text → CarvedOut corpus alwaysCovers changes diff text e.change s → e.Apart s

/-- The scripts and both texts are read as they are written. -/
structure Read : Prop where
  scripts : ∀ s ∈ e.scripts, s.Read
  base : ∀ p ∈ e.base, p.plain = true
  head : Plainly e.head

/-- The head shows all that was cut: either a hunk lies outside the functions, and nothing
narrows, or what is cut is cut from functions, and each definition cut has a name that leads to a
function a hunk lies in. -/
def Shown : Prop :=
  e.lies = [] ∨ none ∈ e.lies ∨
    (∀ l ∈ e.cut, l.1 ≠ none) ∧
      ∀ l ∈ e.cut, ∀ name rest, fnDef l.2 = some (name, rest) →
        ∃ f, some f ∈ e.lies ∧ RunsTo e.scripts name f

end Edit

/-! ## The headers -/

section Header

theorem parseNat_toDigits (n : ℕ) : parseNat (Nat.toDigits 10 n) = some n := by
  have hall : (Nat.toDigits 10 n).all (·.isDigit) = true :=
    List.all_eq_true.mpr fun c hc ↦ Nat.isDigit_of_mem_toDigits (by decide) (by decide) hc
  rw [parseNat, hall, Nat.ofDigitChars_ten_toDigits]
  simp [Nat.toDigits_ne_nil]

theorem notMem_toDigits {c : Char} (hc : c.isDigit = false) (n : ℕ) : c ∉ Nat.toDigits 10 n := by
  intro hmem
  rw [Nat.isDigit_of_mem_toDigits (by decide) (by decide) hmem] at hc
  cases hc

theorem splitOnce_append {c : Char} {s r : List Char} (h : c ∉ s) :
    Text.splitOnce c (s ++ c :: r) = some (s, r) := by
  induction s with
  | nil => simp [Text.splitOnce]
  | cons x s ih =>
    have hx : x ≠ c := fun hx ↦ h (hx ▸ List.mem_cons_self)
    rw [List.cons_append, Text.splitOnce, if_neg hx, ih fun hmem ↦ h (List.mem_cons_of_mem _ hmem)]
    rfl

theorem splitOnce_none {c : Char} {s : List Char} (h : c ∉ s) : Text.splitOnce c s = none := by
  rcases splitOnce_eq (c := c) (s := s) with ⟨-, hc⟩ | ⟨hnone, -⟩
  · exact absurd hc h
  · exact hnone

theorem notMem_rangeText {c : Char} (hc : c.isDigit = false) (hcomma : c ≠ ',') (before count : ℕ) :
    c ∉ rangeText before count := by
  rw [rangeText, List.mem_append, not_or]
  refine ⟨notMem_toDigits hc _, ?_⟩
  split
  · exact List.not_mem_nil
  · exact fun h ↦ (List.mem_cons.mp h).elim hcomma (notMem_toDigits hc _)

theorem isRange_of_mem {c : Char} {before count : ℕ} (h : c ∈ rangeText before count) :
    (c.isDigit || c = ',') = true := by
  by_contra hno
  rw [Bool.or_eq_true, not_or, decide_eq_true_eq, Bool.not_eq_true] at hno
  exact notMem_rangeText hno.1 hno.2 _ _ h

/-- A header says where its hunk stands. -/
theorem placeOf_header (p : Place) (rest : List Char) :
    placeOf (p.header rest) = some (if p.put = 0 then p.head else p.head + 1, p.put) := by
  have hplus : '+' ∉ '@' :: '@' :: ' ' :: '-' :: (rangeText p.base p.cut ++ [' ']) := by
    have hrange := notMem_rangeText (c := '+') (by decide) (by decide) p.base p.cut
    simp [hrange]
  have hspec : (rangeText p.head p.put ++ ' ' :: '@' :: '@' :: rest).takeWhile
      (fun c ↦ c.isDigit || c = ',') = rangeText p.head p.put := by
    rw [List.takeWhile_append_of_pos fun c hc ↦ isRange_of_mem hc]
    simp
  have hsplit := splitOnce_append (r := rangeText p.head p.put ++ ' ' :: '@' :: '@' :: rest) hplus
  have hheader : p.header rest = '@' :: '@' :: ' ' :: '-' :: (rangeText p.base p.cut ++ [' ']) ++
      '+' :: (rangeText p.head p.put ++ ' ' :: '@' :: '@' :: rest) := by
    simp [Place.header]
  rw [← hheader] at hsplit
  rw [placeOf, hsplit]
  dsimp only
  rw [hspec, rangeText]
  have hcomma (n : ℕ) : ',' ∉ Nat.toDigits 10 n := notMem_toDigits (by decide) n
  by_cases hone : p.put = 1
  · rw [if_pos hone, List.append_nil, splitOnce_none (hcomma _)]
    simp [hone, parseNat_toDigits]
  · have hcount : (Nat.toDigits 10 p.put).takeWhile (· ≠ ',') = Nat.toDigits 10 p.put :=
      List.takeWhile_eq_self_iff.mpr fun c hc ↦ by
        simpa using fun h : c = ',' ↦ hcomma p.put (h ▸ hc)
    rw [if_neg hone, splitOnce_append (hcomma _)]
    dsimp only
    rw [hcount, parseNat_toDigits, parseNat_toDigits]
    rfl

end Header

/-! ## Whose a line is -/

section Owners

variable {ps : List Piece} {o : Option String} {l : List Char} {ls ls' : List (List Char)} {g : String}

/-- A piece's lines, read by the code, are its own; a function on one line is not seen to end. -/
theorem foldl_owned {r : Owning} {p : Piece} (hp : p.plain = true)
    (hr : r.cur.isSome = true → p.top? = none) :
    (((owned p).map (·.2)).foldl Owning.line r).owner = r.owner ++ (owned p).map (·.1) ∧
      (p.isOne = false → (((owned p).map (·.2)).foldl Owning.line r).cur = none) := by
  cases p with
  | top l =>
    have hcur : r.cur = none := by
      by_contra hsome
      simpa [top?] using hr (Option.isSome_iff_ne_none.mpr hsome)
    have hdef : fnDef l = none := Option.isNone_iff_eq_none.mp hp
    simp [owned, Owning.line, hdef, hcur]
  | fn f body =>
    obtain ⟨hname, hbody⟩ := plain_fn hp
    have hfold (ls : List (List Char)) (hls : ∀ l ∈ ls, fnDef l = none ∧ l.head? ≠ some '\x7d') :
        ∀ r : Owning, r.cur = some f →
          ls.foldl Owning.line r = ⟨some f, r.owner ++ ls.map fun _ ↦ some f⟩ := by
      induction ls with
      | nil => intro r hr; simp [← hr]
      | cons l ls ih =>
        intro r hr
        obtain ⟨hdef, hhead⟩ := hls l List.mem_cons_self
        have hline : r.line l = ⟨some f, r.owner ++ [some f]⟩ := by
          simp [Owning.line, hdef, hhead, hr]
        rw [List.foldl_cons, hline, ih (fun l hl ↦ hls l (List.mem_cons_of_mem _ hl)) _ rfl]
        simp
    have hopen : r.line (f.toList ++ opening) = ⟨some f, r.owner ++ [some f]⟩ := by
      have hhead := head?_of_isName hname opening
      have hdef : fnDef (f.toList ++ opening) = some (f, [' ', '\x7b']) := fnDef_of_isName hname _
      simp only [Owning.line, hdef, if_neg hhead]
    have hclose (r : Owning) (hr : r.cur = some f) :
        r.line closing = ⟨none, r.owner ++ [some f]⟩ := by
      have hdef : fnDef closing = none := rfl
      simp only [Owning.line, hdef, hr]
      rfl
    have hlines : (owned (.fn f body)).map (·.2) = (f.toList ++ opening) :: (body ++ [closing]) := by
      simp [owned, Function.comp_def]
    rw [hlines, List.foldl_cons, List.foldl_append, hopen, hfold body hbody _ rfl, List.foldl_cons,
      List.foldl_nil, hclose _ rfl]
    simp [owned, Function.comp_def]
  | one f inner =>
    have hdef := fnDef_of_isName hp (braced inner)
    simp [owned, Owning.line, hdef, isOne]

/-- A text read as it is written: each line's function is read off it. -/
theorem ownerOf_linesOf (h : Plainly ps) :
    ownerOf (linesOf ps) = none :: (ownedOf ps).map (·.1) := by
  have hfold (ps : List Piece) : ∀ r : Owning, Plainly ps →
      (r.cur.isSome = true → ∀ p ∈ ps.head?, p.top? = none) →
      ((linesOf ps).foldl Owning.line r).owner = r.owner ++ (ownedOf ps).map (·.1) := by
    induction ps with
    | nil => intro r _ _; simp [linesOf, ownedOf]
    | cons p ps ih =>
      intro r h hr
      obtain ⟨hnext, hended⟩ := List.isChain_cons.mp h.ended
      obtain ⟨howner, hcur⟩ := foldl_owned (h.plain p List.mem_cons_self) fun hsome ↦
        hr hsome p (by simp)
      have hlines : linesOf (p :: ps) = (owned p).map (·.2) ++ linesOf ps := by simp [linesOf, ownedOf]
      rw [hlines, List.foldl_append, ih _
        ⟨fun q hq ↦ h.plain q (List.mem_cons_of_mem _ hq), hended⟩, howner]
      · simp [ownedOf]
      · intro hsome q hq
        refine hnext q hq ?_
        by_contra hone
        rw [hcur (Bool.eq_false_of_not_eq_true hone)] at hsome
        cases hsome
  rw [ownerOf, hfold ps _ h (by simp)]
  rfl

/-- The name a line defines a function of. -/
def named (l : List Char) : Option String := (fnDef l).map (·.1)

/-- The function a line is part of, `o` being the one being read. -/
def ownerIn (o : Option String) (l : List Char) : Option String := (named l).or o

/-- The function being read after a line. -/
def after (o : Option String) (l : List Char) : Option String :=
  match named l with
  | some f => if l.getLast? = some '\x7d' then none else some f
  | none => if l.head? = some '\x7d' then none else o

def ownedFrom (o : Option String) : List (List Char) → List (Option String × List Char)
  | [] => []
  | l :: ls => (ownerIn o l, l) :: ownedFrom (after o l) ls

theorem ownedFrom_append :
    ownedFrom o (ls ++ ls') = ownedFrom o ls ++ ownedFrom (ls.foldl after o) ls' := by
  induction ls generalizing o with
  | nil => rfl
  | cons l ls ih => exact congrArg ((ownerIn o l, l) :: ·) ih

/-- What is left of a text of plain pieces, while a function is read or between two. -/
inductive Sits : Option String → List (List Char) → Prop
  | between {ps : List Piece} (hps : ∀ p ∈ ps, p.plain = true) : Sits none (linesOf ps)
  | within {f : String} {body : List (List Char)} {ps : List Piece}
      (hbody : ∀ l ∈ body, fnDef l = none ∧ l.head? ≠ some '\x7d')
      (hps : ∀ p ∈ ps, p.plain = true) : Sits (some f) (body ++ closing :: linesOf ps)

theorem named_def {f : String} (h : isName f) (rest : List Char) :
    named (f.toList ++ '(' :: ')' :: rest) = some f := by
  rw [named, fnDef_of_isName h]
  rfl

theorem after_opening {f : String} (h : isName f) : after o (f.toList ++ opening) = some f := by
  rw [after, opening, named_def h]
  simp

theorem after_one {f : String} (h : isName f) (inner : List Char) :
    after o (f.toList ++ '(' :: ')' :: braced inner) = none := by
  have hlast : (f.toList ++ '(' :: ')' :: braced inner).getLast? = some '\x7d' := by
    have hsplit : f.toList ++ '(' :: ')' :: braced inner =
        (f.toList ++ '(' :: ')' :: ' ' :: '\x7b' :: ' ' :: (inner ++ [';', ' '])) ++ ['\x7d'] := by
      simp [braced]
    rw [hsplit, List.getLast?_concat]
  rw [after, named_def h]
  exact if_pos hlast

theorem after_body {f : String} (hdef : fnDef l = none) (hhead : l.head? ≠ some '\x7d') :
    after (some f) l = some f := by
  rw [after, named, hdef]
  simp [hhead]

theorem after_none (h : named l = none) : after none l = none := by
  rw [after, h]
  simp

/-- While a function is read, the next line defines none. -/
theorem Sits.step (h : Sits o (l :: ls)) :
    Sits (after o l) ls ∧ (o.isSome = true → named l = none) := by
  generalize hall : l :: ls = all at h
  cases h with
  | @between ps hps =>
    refine ⟨?_, nofun⟩
    cases ps with
    | nil => cases hall
    | cons p ps =>
      have hp := hps p List.mem_cons_self
      have hrest : ∀ q ∈ ps, q.plain = true := fun q hq ↦ hps q (List.mem_cons_of_mem _ hq)
      cases p with
      | top line =>
        obtain ⟨rfl, rfl⟩ := List.cons.inj hall
        rw [after_none (by simp [named, Option.isNone_iff_eq_none.mp hp])]
        exact .between hrest
      | fn f body =>
        have hlines : linesOf (.fn f body :: ps) =
            (f.toList ++ opening) :: (body ++ closing :: linesOf ps) := by
          simp [linesOf, ownedOf, owned, Function.comp_def]
        obtain ⟨hname, hbody⟩ := plain_fn hp
        obtain ⟨rfl, rfl⟩ := List.cons.inj (hall.trans hlines)
        rw [after_opening hname]
        exact .within hbody hrest
      | one f inner =>
        obtain ⟨rfl, rfl⟩ := List.cons.inj hall
        rw [after_one hp]
        exact .between hrest
  | @within f body ps hbody hps =>
    cases body with
    | nil =>
      obtain ⟨rfl, rfl⟩ := List.cons.inj hall
      exact ⟨.between hps, fun _ ↦ rfl⟩
    | cons b body =>
      obtain ⟨rfl, rfl⟩ := List.cons.inj hall
      obtain ⟨hdef, hhead⟩ := hbody l List.mem_cons_self
      rw [after_body hdef hhead]
      exact ⟨.within (fun x hx ↦ hbody x (List.mem_cons_of_mem _ hx)) hps, fun _ ↦ by simp [named, hdef]⟩

theorem Sits.run (h : Sits o (ls ++ ls')) : Sits (ls.foldl after o) ls' := by
  induction ls generalizing o with
  | nil => exact h
  | cons l ls ih => exact ih h.step.1

/-- Line by line, a text of plain pieces is read as it is written. -/
theorem ownedFrom_linesOf (h : ∀ p ∈ ps, p.plain = true) : ownedFrom none (linesOf ps) = ownedOf ps := by
  induction ps with
  | nil => rfl
  | cons p ps ih =>
    have hlines : linesOf (p :: ps) = (owned p).map (·.2) ++ linesOf ps := by simp [linesOf, ownedOf]
    have hpiece : ownedFrom none ((owned p).map (·.2)) = owned p ∧
        ((owned p).map (·.2)).foldl after none = none := by
      have hp := h p List.mem_cons_self
      cases p with
      | top line =>
        have hnamed : named line = none := by simp [named, Option.isNone_iff_eq_none.mp hp]
        simp [owned, ownedFrom, ownerIn, hnamed, after_none hnamed]
      | fn f body =>
        obtain ⟨hname, hbody⟩ := plain_fn hp
        have hread (ls : List (List Char)) (hls : ∀ l ∈ ls, fnDef l = none ∧ l.head? ≠ some '\x7d') :
            ownedFrom (some f) ls = ls.map (some f, ·) ∧ ls.foldl after (some f) = some f := by
          induction ls with
          | nil => exact ⟨rfl, rfl⟩
          | cons l ls ih =>
            obtain ⟨hdef, hhead⟩ := hls l List.mem_cons_self
            have hnamed : named l = none := by simp [named, hdef]
            obtain ⟨howned, hrun⟩ := ih fun x hx ↦ hls x (List.mem_cons_of_mem _ hx)
            simp [ownedFrom, ownerIn, hnamed, after_body hdef hhead, howned, hrun]
        obtain ⟨howned, hrun⟩ := hread body hbody
        have hopen : named (f.toList ++ opening) = some f := named_def hname _
        have hclose : named closing = none := rfl
        have hlines : (owned (.fn f body)).map (·.2) =
            (f.toList ++ opening) :: (body ++ [closing]) := by simp [owned, Function.comp_def]
        rw [hlines, ownedFrom, List.foldl_cons, after_opening hname, ownedFrom_append, howned,
          List.foldl_append, hrun]
        simp [ownedFrom, ownerIn, hopen, hclose, owned, after]
        rfl
      | one f inner =>
        simp [owned, ownedFrom, ownerIn, named_def hp, after_one hp]
    rw [hlines, ownedFrom_append, hpiece.1, hpiece.2, ih fun q hq ↦ h q (List.mem_cons_of_mem _ hq)]
    simp [ownedOf]

/-- Lines that define no function of a name, read in no function of it, are not its own. -/
theorem notMem_ownedFrom (ho : o ≠ some g) (hls : ∀ l ∈ ls, named l ≠ some g) :
    (ownedFrom o ls).filter (·.1 = some g) = [] ∧ ls.foldl after o ≠ some g := by
  induction ls generalizing o with
  | nil => exact ⟨rfl, ho⟩
  | cons l ls ih =>
    have hname := hls l List.mem_cons_self
    have howner : ownerIn o l ≠ some g := by
      rw [ownerIn]
      cases hl : named l with
      | none => exact ho
      | some f =>
        rw [hl] at hname
        exact hname
    have hafter : after o l ≠ some g := by
      rw [after]
      split
      · rename_i f hf
        split
        · exact nofun
        · exact hf ▸ hname
      · split
        · exact nofun
        · exact ho
    obtain ⟨hown, hrun⟩ := ih hafter fun x hx ↦ hls x (List.mem_cons_of_mem _ hx)
    exact ⟨by simp [ownedFrom, howner, hown], hrun⟩

/-- What is put in where no function of a name is touched: it is not read in one, and defines
none. -/
theorem named_ne_of_notMem (h : some g ∉ (ownedFrom o ls).map (·.1)) : ∀ l ∈ ls, named l ≠ some g := by
  induction ls generalizing o with
  | nil => exact nofun
  | cons l ls ih =>
    rw [ownedFrom, List.map_cons, List.mem_cons, not_or] at h
    intro x hx
    rcases List.mem_cons.mp hx with rfl | hx
    · exact fun hname ↦ h.1 (by rw [ownerIn, hname]; rfl)
    · exact ih h.2 x hx

theorem ne_of_put (hsits : Sits o (l :: ls)) (h : ownerIn o l ≠ some g) : o ≠ some g := by
  rintro rfl
  exact h (by rw [ownerIn, hsits.step.2 rfl]; rfl)

/-- A cut where a function is read lies in it, if in any. -/
theorem eq_of_cut {before : Option String} (hsits : Sits (some g) ls)
    (h : none ≠ if before = ((ownedFrom (some g) ls).map (·.1)).head?.join then before else none) :
    some g = if before = ((ownedFrom (some g) ls).map (·.1)).head?.join then before else none := by
  split at h
  · rename_i heq
    cases ls with
    | nil => exact absurd heq.symm h
    | cons l ls =>
      have howner : ownerIn (some g) l = some g := by
        rw [ownerIn, hsits.step.2 rfl]
        rfl
      rw [if_pos heq, heq, ownedFrom, List.map_cons, List.head?_cons, howner]
      rfl
  · exact absurd rfl h

theorem map_ownedFrom (o : Option String) (ls : List (List Char)) :
    (ownedFrom o ls).map (·.2) = ls := by
  induction ls generalizing o with
  | nil => rfl
  | cons l ls ih => exact congrArg (l :: ·) (ih _)

theorem length_ownedFrom : (ownedFrom o ls).length = ls.length := by
  rw [← List.length_map (·.2), map_ownedFrom]

theorem touched_hunk {cs : List Chunk} {cut put : List (List Char)} (side : Chunk → List (List Char)) :
    touched side (.hunk cut put :: cs)
        (ownedFrom o (side (.hunk cut put) ++ cs.flatMap side)) =
      ownedFrom o (side (.hunk cut put)) ++
        touched side cs (ownedFrom ((side (.hunk cut put)).foldl after o) (cs.flatMap side)) := by
  rw [touched, ownedFrom_append]
  rw [List.take_left' length_ownedFrom, List.drop_left' length_ownedFrom]

theorem lying_put {cs : List Chunk} {cut : List (List Char)} {before : Option String} :
    lying before (.hunk cut (l :: ls) :: cs)
        ((ownedFrom o ((Chunk.hunk cut (l :: ls)).head ++ cs.flatMap Chunk.head)).map (·.1)) =
      (ownedFrom o (l :: ls)).map (·.1) ++
        lying ((ownedFrom o (l :: ls)).map (·.1)).getLast?.join cs
          ((ownedFrom ((l :: ls).foldl after o) (cs.flatMap Chunk.head)).map (·.1)) := by
  have hlen : ((ownedFrom o (l :: ls)).map (·.1)).length = (l :: ls).length := by
    rw [List.length_map, length_ownedFrom]
  rw [lying, Chunk.head, ownedFrom_append, List.map_append]
  rw [List.take_left' hlen, List.drop_left' hlen]

/-- **A function that no hunk lies in, and none of whose definitions is cut, has the same lines in
both texts**, where every hunk lies in a function: both read it at once, or neither. -/
theorem filter_ownedFrom_eq {cs : List Chunk} {before o' : Option String}
    (hsits : Sits o' (cs.flatMap Chunk.head)) (hboth : o = some g ↔ o' = some g)
    (hnone : none ∉ lying before cs ((ownedFrom o' (cs.flatMap Chunk.head)).map (·.1)))
    (hg : some g ∉ lying before cs ((ownedFrom o' (cs.flatMap Chunk.head)).map (·.1)))
    (hcut : ∀ l ∈ touched Chunk.base cs (ownedFrom o (cs.flatMap Chunk.base)), named l.2 ≠ some g) :
    (ownedFrom o (cs.flatMap Chunk.base)).filter (·.1 = some g) =
      (ownedFrom o' (cs.flatMap Chunk.head)).filter (·.1 = some g) := by
  induction cs generalizing o o' before with
  | nil => rfl
  | cons c cs ih =>
    simp only [List.flatMap_cons] at hsits hnone hg hcut ⊢
    cases c with
    | keep l =>
      have hafter : after o l = some g ↔ after o' l = some g := by
        simp only [after]
        split
        · rfl
        · split
          · rfl
          · exact hboth
      have howner : ownerIn o l = some g ↔ ownerIn o' l = some g := by
        simp only [ownerIn]
        cases named l with
        | none => exact hboth
        | some f => rfl
      have hrest := ih hsits.step.1 hafter hnone hg hcut
      have hbase : ownedFrom o ((Chunk.keep l).base ++ cs.flatMap Chunk.base) =
        (ownerIn o l, l) :: ownedFrom (after o l) (cs.flatMap Chunk.base) := rfl
      have hhead : ownedFrom o' ((Chunk.keep l).head ++ cs.flatMap Chunk.head) =
        (ownerIn o' l, l) :: ownedFrom (after o' l) (cs.flatMap Chunk.head) := rfl
      rw [hbase, hhead, List.filter_cons, List.filter_cons, hrest]
      by_cases h : ownerIn o' l = some g
      · simp [howner.mpr h, h]
      · simp [mt howner.mp h, h]
    | hunk cut put =>
      rw [touched_hunk] at hcut
      have hcutHere : ∀ l ∈ cut, named l ≠ some g := fun l hl ↦ by
        rw [← map_ownedFrom o cut] at hl
        obtain ⟨x, hx, rfl⟩ := List.mem_map.mp hl
        exact hcut x (List.mem_append_left _ hx)
      have hcutRest : ∀ l ∈ touched Chunk.base cs
          (ownedFrom (cut.foldl after o) (cs.flatMap Chunk.base)), named l.2 ≠ some g := fun l hl ↦
        hcut l (List.mem_append_right _ hl)
      cases put with
      | nil =>
        simp only [lying, Chunk.head, List.nil_append, List.mem_cons, not_or] at hnone hg hsits
        have ho' : o' ≠ some g := by
          rintro rfl
          exact hg.1 (eq_of_cut hsits hnone.1)
        have hgone := notMem_ownedFrom (fun h ↦ ho' (hboth.mp h)) hcutHere
        have hrest := ih hsits (iff_of_false hgone.2 ho') hnone.2 hg.2 hcutRest
        simpa [Chunk.base, Chunk.head, ownedFrom_append, hgone.1] using hrest
      | cons l ls =>
        rw [lying_put] at hnone hg
        simp only [List.mem_append, not_or] at hnone hg
        have ho' : o' ≠ some g := by
          refine ne_of_put hsits fun h ↦ hg.1 ?_
          rw [ownedFrom, List.map_cons, h]
          exact List.mem_cons_self
        have hgone := notMem_ownedFrom (fun h ↦ ho' (hboth.mp h)) hcutHere
        have hnew := notMem_ownedFrom ho' (named_ne_of_notMem hg.1)
        have hrest := ih hsits.run (iff_of_false hgone.2 hnew.2) hnone.2 hg.2 hcutRest
        rw [Chunk.base, Chunk.head, ownedFrom_append, ownedFrom_append, List.filter_append,
          List.filter_append, hgone.1, hnew.1]
        exact hrest

end Owners

/-! ## Where the hunks lie -/

section Lying

variable {pre owners : List (Option String)}

theorem ownerAt_length : ownerAt (none :: (pre ++ owners)) pre.length = pre.getLast?.join := by
  rcases List.eq_nil_or_concat pre with rfl | ⟨init, x, rfl⟩
  · rfl
  · simp [ownerAt]

theorem ownerAt_add (pre owners : List (Option String)) (i : ℕ) :
    ownerAt (none :: (pre ++ owners)) (pre.length + 1 + i) = (owners[i]?).join := by
  have hindex : pre.length + 1 + i = pre.length + i + 1 := by omega
  rw [ownerAt, hindex, List.getElem?_cons_succ, List.getElem?_append_right (by omega)]
  simp

theorem scopeOf_put {n : ℕ} (hn : n ≤ owners.length) (hpos : n ≠ 0) :
    scopeOf (none :: (pre ++ owners)) (pre.length + 1) n = owners.take n := by
  rw [scopeOf, if_neg hpos]
  refine List.ext_getElem? fun i ↦ ?_
  by_cases hi : i < n
  · have hin : i < owners.length := by omega
    rw [List.getElem?_map, List.getElem?_range' (by omega), List.getElem?_take_of_lt hi, Option.map_some,
      Nat.one_mul, ownerAt_add, List.getElem?_eq_getElem hin]
    rfl
  · rw [List.getElem?_eq_none (by simp; omega), List.getElem?_eq_none (by simp; omega)]

/-- The code places the hunks where they lie. -/
theorem flatMap_scopeOf {cs : List Chunk} (pre owners : List (Option String)) (b : ℕ)
    (hlen : owners.length = (cs.flatMap Chunk.head).length) :
    ((placesFrom b pre.length cs).flatMap fun p ↦
        scopeOf (none :: (pre ++ owners)) (if p.put = 0 then p.head else p.head + 1) p.put) =
      lying pre.getLast?.join cs owners := by
  induction cs generalizing pre owners b with
  | nil => rfl
  | cons c cs ih =>
    rw [List.flatMap_cons, List.length_append] at hlen
    cases c with
    | keep l =>
      have hone : (Chunk.keep l).head.length = 1 := rfl
      cases owners with
      | nil =>
        rw [List.length_nil] at hlen
        omega
      | cons x owners =>
        rw [List.length_cons] at hlen
        have hrest := ih (pre ++ [x]) owners (b + 1) (by omega)
        simpa [placesFrom, lying] using hrest
    | hunk cut put =>
      cases put with
      | nil =>
        have hrest := ih pre owners (b + cut.length) (by simpa [Chunk.head] using hlen)
        have hhere : scopeOf (none :: (pre ++ owners)) pre.length 0 =
            [if pre.getLast?.join = owners.head?.join then pre.getLast?.join else none] := by
          have hnext := ownerAt_add pre owners 0
          rw [Nat.add_zero, ← List.head?_eq_getElem?] at hnext
          rw [scopeOf, if_pos rfl, ownerAt_length, hnext]
          cases pre.getLast?.join with
          | none => simp
          | some a =>
            cases owners.head?.join with
            | none => simp
            | some b => by_cases hab : a = b <;> simp [hab]
        rw [placesFrom, List.flatMap_cons, List.length_nil, if_pos rfl, hhere, Nat.add_zero, hrest]
        rfl
      | cons l ls =>
        have hput : (Chunk.hunk cut (l :: ls)).head.length = (l :: ls).length := rfl
        have htake : (owners.take (l :: ls).length).length = (l :: ls).length := by
          rw [List.length_take]
          omega
        have hrest := ih (pre ++ owners.take (l :: ls).length) (owners.drop (l :: ls).length)
          (b + cut.length)
          (by rw [List.length_drop]; omega)
        rw [List.append_assoc, List.take_append_drop, List.length_append, htake] at hrest
        have hle : (l :: ls).length ≤ owners.length := by omega
        have hne : owners.take (l :: ls).length ≠ [] :=
          List.ne_nil_of_length_pos (by rw [htake]; exact Nat.succ_pos _)
        rw [List.getLast?_append_of_ne_nil _ hne] at hrest
        rw [placesFrom, List.flatMap_cons, hrest]
        dsimp only
        rw [if_neg (by simp), scopeOf_put hle (by simp), lying]

end Lying

/-! ## What an edit narrows to -/

namespace Edit

variable {e : Edit} {f name : String} {o : Option String}

/-- The functions the code has changed. -/
def fns (e : Edit) : List String := changedScope e.diff e.text

theorem filterMap_placeOf {ls : List (List Char)} {ps : List Place}
    (h : List.Forall₂ (fun l p ↦ ∃ rest, l = Place.header p rest) ls ps) :
    ls.filterMap placeOf = ps.map fun p ↦ (if p.put = 0 then p.head else p.head + 1, p.put) := by
  induction h with
  | nil => rfl
  | cons hl _ ih =>
    obtain ⟨rest, rfl⟩ := hl
    rw [List.filterMap_cons, placeOf_header, ih, List.map_cons]

/-- The code names where the hunks lie. -/
theorem mem_fns (h : e.Read) : f ∈ e.fns ↔ ∃ o ∈ e.lies, o.getD TOP_LEVEL = f := by
  have hlen : ((ownedOf e.head).map (·.1)).length = (e.chunks.flatMap Chunk.head).length := by
    rw [e.head_eq, linesOf, List.length_map, List.length_map]
  have hlies := flatMap_scopeOf [] _ 0 hlen
  have hfns : e.fns = (e.lies.map fun o ↦ o.getD TOP_LEVEL).foldl pushOnce [] := by
    rw [fns, changedScope, e.text_eq, ownerOf_linesOf h.head, filterMap_placeOf e.diff_eq,
      List.flatMap_map, List.foldl_map]
    exact congrArg (List.foldl (fun out o ↦ pushOnce out (o.getD TOP_LEVEL)) []) hlies
  rw [hfns, mem_foldl_pushOnce, List.mem_map]
  simp

theorem isName_of_owned {ps : List Piece} (h : ∀ p ∈ ps, p.plain = true) {l : List Char}
    (hl : (some f, l) ∈ ownedOf ps) : isName f = true := by
  obtain ⟨p, hp, hl⟩ := List.mem_flatMap.mp hl
  have hplain := h p hp
  cases p with
  | top line => simp [owned] at hl
  | fn name body =>
    have hname : name = f := by
      simp only [owned, List.mem_cons, List.mem_append, List.mem_map, List.not_mem_nil, or_false,
        Prod.mk.injEq, Option.some.injEq] at hl
      rcases hl with ⟨rfl, -⟩ | ⟨_, -, rfl, -⟩ | ⟨rfl, -⟩ <;> rfl
    exact hname ▸ (plain_fn hplain).1
  | one name inner =>
    have hname : f = name := by
      simp only [owned, List.mem_singleton, Prod.mk.injEq, Option.some.injEq] at hl
      exact hl.1
    exact hname ▸ hplain

theorem mem_lying {cs : List Chunk} {before : Option String} {owners : List (Option String)}
    (h : o ∈ lying before cs owners) : o = none ∨ o = before ∨ o ∈ owners := by
  induction cs generalizing before owners with
  | nil => cases h
  | cons c cs ih =>
    cases c with
    | keep l =>
      rcases ih h with h | h | h
      · exact .inl h
      · cases owners with
        | nil => exact .inl h
        | cons x owners => exact .inr (.inr (h ▸ List.mem_cons_self))
      · exact .inr (.inr (List.mem_of_mem_tail h))
    | hunk cut put =>
      cases put with
      | nil =>
        rcases List.mem_cons.mp h with h | h
        · split at h
          · exact .inr (.inl h)
          · exact .inl h
        · exact ih h
      | cons l ls =>
        rcases List.mem_append.mp h with h | h
        · exact .inr (.inr (List.mem_of_mem_take h))
        · rcases ih h with h | h | h
          · exact .inl h
          · cases hlast : (owners.take (l :: ls).length).getLast? with
            | none => exact .inl (by rw [h, hlast]; rfl)
            | some x =>
              refine .inr (.inr (List.mem_of_mem_take (List.mem_of_getLast? (hlast.trans ?_))))
              rw [h, hlast]
              rfl
          · exact .inr (.inr (List.mem_of_mem_drop h))

theorem isName_of_lies (h : e.Read) (hf : some f ∈ e.lies) : isName f = true := by
  rcases mem_lying hf with hf | hf | hf
  · cases hf
  · cases hf
  · obtain ⟨⟨o, l⟩, hl, rfl⟩ := List.mem_map.mp hf
    exact isName_of_owned h.head.plain hl

theorem top_mem_fns (h : e.Read) : TOP_LEVEL ∈ e.fns ↔ none ∈ e.lies := by
  rw [mem_fns h]
  refine ⟨fun ⟨o, ho, htop⟩ ↦ ?_, fun ho ↦ ⟨none, ho, rfl⟩⟩
  cases o with
  | none => exact ho
  | some f =>
    have hname := isName_of_lies h ho
    rw [show f = TOP_LEVEL from htop] at hname
    exact absurd hname (by decide)

/-- What the edit affects leads to a function that a hunk lies in. -/
theorem mem_affected (h : e.Read) (hnone : none ∉ e.lies) :
    f ∈ (graphOf e.scripts).affected e.fns ↔ ∃ g, some g ∈ e.lies ∧ RunsTo e.scripts f g := by
  have hcalls : (graphOf e.scripts).Calls = Runs e.scripts :=
    funext₂ fun a t ↦ propext (calls_graphOf h.scripts e.names a t)
  rw [ShellGraph.mem_affected, hcalls]
  constructor
  · rintro ⟨g, hg, hto⟩
    obtain ⟨o, ho, hog⟩ := (mem_fns h).mp hg
    cases o with
    | none => exact absurd ho hnone
    | some g' => exact ⟨g', ho, (show g' = g from hog) ▸ hto⟩
  · rintro ⟨g, hg, hto⟩
    exact ⟨g, (mem_fns h).mpr ⟨some g, hg, rfl⟩, hto⟩

/-- A suite that names the file as a whole is narrowed past: the hunks all lie in functions, and
no word of it leads to one of these. -/
theorem not_reached_iff (h : e.Read) {corpus : Corpus} (hshell : corpus.shell = graphOf e.scripts)
    {s : Suite} : wholeFileClaimReached corpus s e.change e.fns = false ↔
      e.lies ≠ [] ∧ none ∉ e.lies ∧
        ∀ w ∈ s.words ++ s.tokens, ∀ g, some g ∈ e.lies → ¬ RunsTo e.scripts w g := by
  have hscoped : functionScoped corpus e.change = true := by
    rw [functionScoped, e.modified.1, e.modified.2, hshell, e.known]
    simp [e.listed]
  have hempty : e.fns.isEmpty = true ↔ e.lies = [] := by
    rw [List.isEmpty_iff, List.eq_nil_iff_forall_not_mem, List.eq_nil_iff_forall_not_mem]
    constructor
    · exact fun hno o ho ↦ hno _ ((mem_fns h).mpr ⟨o, ho, rfl⟩)
    · rintro hno f hf
      obtain ⟨o, ho, -⟩ := (mem_fns h).mp hf
      exact hno o ho
  rw [wholeFileClaimReached, hscoped]
  by_cases hlies : e.lies = []
  · simp [hempty.mpr hlies, hlies]
  by_cases hnone : none ∈ e.lies
  · simp [(top_mem_fns h).mpr hnone, hnone]
  have htop : TOP_LEVEL ∉ e.fns := mt (top_mem_fns h).mp hnone
  have hne : e.fns.isEmpty = false := Bool.eq_false_of_not_eq_true (mt hempty.mp hlies)
  rw [hne, if_neg (by simp [htop]), hshell, reaches, List.any_eq_false]
  simp only [decide_eq_true_eq, mem_affected h hnone, not_exists, not_and]
  simp [hlies, hnone]

/-! ### What is shown is enough -/

theorem mem_lying_of_touched {cs : List Chunk} (before : Option String)
    {xs : List (Option String × List Char)} {x : Option String × List Char}
    (h : x ∈ touched Chunk.head cs xs) : x.1 ∈ lying before cs (xs.map (·.1)) := by
  induction cs generalizing before xs with
  | nil => cases h
  | cons c cs ih =>
    cases c with
    | keep l =>
      have hrest := ih (xs.map (·.1)).head?.join h
      rwa [List.map_tail] at hrest
    | hunk cut put =>
      cases put with
      | nil => exact List.mem_cons_of_mem _ (ih _ h)
      | cons l ls =>
        rw [lying, ← List.map_take, ← List.map_drop]
        rcases List.mem_append.mp h with h | h
        · exact List.mem_append_left _ (List.mem_map_of_mem h)
        · exact List.mem_append_right _ (ih _ h)

/-- A function that no hunk lies in, and none of whose definitions is cut, does not differ. -/
theorem not_differs (h : e.Read) (hnone : none ∉ e.lies) (hf : some f ∉ e.lies)
    (hcut : ∀ l ∈ e.cut, named l.2 ≠ some f) : ¬ e.Differs f := by
  have hbase : ownedOf e.base = ownedFrom none (e.chunks.flatMap Chunk.base) := by
    rw [e.base_eq, ownedFrom_linesOf h.base]
  have hhead : ownedOf e.head = ownedFrom none (e.chunks.flatMap Chunk.head) := by
    rw [e.head_eq, ownedFrom_linesOf h.head.plain]
  have hsits : Sits none (e.chunks.flatMap Chunk.head) := e.head_eq ▸ .between h.head.plain
  rw [lies, hhead] at hnone hf
  rw [cut, hbase] at hcut
  have heq := filter_ownedFrom_eq hsits .rfl hnone hf hcut
  rw [Differs, not_not, textOf, textOf, hbase, hhead, heq]

/-- The suites an edit may be narrowed past. -/
def Past (e : Edit) (s : Suite) : Prop :=
  e.lies ≠ [] ∧ none ∉ e.lies ∧
    ∀ w ∈ s.words ++ s.tokens, ∀ g, some g ∈ e.lies → ¬ RunsTo e.scripts w g

theorem apart_of_shown (h : e.Read) (hshown : e.Shown) {s : Suite} (hs : e.Past s) : e.Apart s := by
  obtain ⟨hne, hnone, hwords⟩ := hs
  obtain ⟨hcut, hdefs⟩ := (hshown.resolve_left hne).resolve_left hnone
  refine ⟨hcut, fun l hl htop ↦ hnone ?_, fun w hw f hdiffers hto ↦ ?_⟩
  · exact htop ▸ mem_lying_of_touched _ hl
  · by_cases hf : some f ∈ e.lies
    · exact hwords w hw f hf hto
    · refine not_differs h hnone hf (fun l hl hname ↦ ?_) hdiffers
      obtain ⟨⟨name, rest⟩, hdef, rfl⟩ := Option.map_eq_some_iff.mp hname
      obtain ⟨g, hg, hfg⟩ := hdefs l hl name rest hdef
      exact hwords w hw g hg (hto.trans hfg)

/-! ### And no less is -/

theorem map_touched {α β : Type} {side : Chunk → List (List Char)} {cs : List Chunk} {xs : List α}
    (f : α → β) : (touched side cs xs).map f = touched side cs (xs.map f) := by
  induction cs generalizing xs with
  | nil => rfl
  | cons c cs ih =>
    cases c with
    | keep l => rw [touched, touched, ih, List.map_tail]
    | hunk cut put => rw [touched, touched, List.map_append, ih, List.map_take, List.map_drop]

theorem mem_of_touched {α : Type} {side : Chunk → List (List Char)} {cs : List Chunk} {xs : List α}
    {x : α} (h : x ∈ touched side cs xs) : x ∈ xs := by
  induction cs generalizing xs with
  | nil => cases h
  | cons c cs ih =>
    cases c with
    | keep l => exact List.mem_of_mem_tail (ih h)
    | hunk cut put =>
      rcases List.mem_append.mp h with h | h
      · exact List.mem_of_mem_take h
      · exact List.mem_of_mem_drop (ih h)

/-- Lines are as many in either text, but for those of the hunks. -/
theorem countP_touched (q : List Char → Bool) (cs : List Chunk) :
    (touched Chunk.base cs (cs.flatMap Chunk.base)).countP q + (cs.flatMap Chunk.head).countP q =
      (touched Chunk.head cs (cs.flatMap Chunk.head)).countP q + (cs.flatMap Chunk.base).countP q := by
  induction cs with
  | nil => rfl
  | cons c cs ih =>
    cases c with
    | keep l =>
      simp only [List.flatMap_cons, touched, Chunk.base, Chunk.head, List.cons_append, List.nil_append,
        List.tail_cons, List.countP_cons]
      omega
    | hunk cut put =>
      simp only [List.flatMap_cons, touched, Chunk.base, Chunk.head, List.take_left, List.drop_left,
        List.countP_append]
      omega

theorem owner_of_named {ps : List Piece} (h : ∀ p ∈ ps, p.plain = true) {x : Option String × List Char}
    (hx : x ∈ ownedOf ps) (hname : named x.2 = some f) : x.1 = some f := by
  rw [← ownedFrom_linesOf h] at hx
  have howned (ls : List (List Char)) : ∀ o, x ∈ ownedFrom o ls → x.1 = some f := by
    induction ls with
    | nil => exact nofun
    | cons l ls ih =>
      intro o hx
      rcases List.mem_cons.mp hx with rfl | hx
      · show ownerIn o l = some f
        rw [ownerIn, show named l = some f from hname]
        rfl
      · exact ih _ hx
  exact howned _ _ hx

/-- The lines of a function hold all its definitions. -/
theorem countP_textOf {ps : List Piece} (h : ∀ p ∈ ps, p.plain = true) (f : String) :
    (textOf ps f).countP (named · = some f) = (linesOf ps).countP (named · = some f) := by
  rw [textOf, linesOf, List.countP_map, List.countP_map, List.countP_filter]
  refine List.countP_congr fun x hx ↦ ?_
  simp only [Function.comp_apply, Bool.and_eq_true, decide_eq_true_eq, and_iff_left_iff_imp]
  exact owner_of_named h hx

/-- A function a definition of which is cut, where no hunk lies in it, differs. -/
theorem differs_of_cut (h : e.Read) (hf : some f ∉ e.lies) {l : Option String × List Char}
    (hl : l ∈ e.cut) (hname : named l.2 = some f) : e.Differs f := by
  intro heq
  have hcount := countP_touched (fun l ↦ decide (named l = some f)) e.chunks
  have hcut : e.cut.map (·.2) = touched Chunk.base e.chunks (e.chunks.flatMap Chunk.base) := by
    rw [cut, map_touched, e.base_eq, linesOf]
  have hput : e.put.map (·.2) = touched Chunk.head e.chunks (e.chunks.flatMap Chunk.head) := by
    rw [put, map_touched, e.head_eq, linesOf]
  have hnew : (e.put.map (·.2)).countP (named · = some f) = 0 := by
    refine List.countP_eq_zero.mpr fun x hx hnamed ↦ hf ?_
    obtain ⟨y, hy, rfl⟩ := List.mem_map.mp hx
    have hmem : y ∈ ownedOf e.head := mem_of_touched hy
    rw [← owner_of_named h.head.plain hmem (of_decide_eq_true hnamed)]
    exact mem_lying_of_touched _ hy
  have hold : 0 < (e.cut.map (·.2)).countP (named · = some f) :=
    List.countP_pos_iff.mpr ⟨l.2, List.mem_map_of_mem hl, decide_eq_true hname⟩
  have htexts : (linesOf e.base).countP (named · = some f) =
      (linesOf e.head).countP (named · = some f) := by
    rw [← countP_textOf h.base, ← countP_textOf h.head.plain, heq]
  rw [← hcut, ← hput, e.base_eq, e.head_eq] at hcount
  omega

/-- A suite of some words. -/
def wordy (e : Edit) (words : List String) : Suite :=
  ⟨"test-a.sh", some [e.change.path], none, [], words, [], []⟩

theorem shown_of_apart (h : e.Read) (hall : ∀ words, e.Past (e.wordy words) → e.Apart (e.wordy words)) :
    e.Shown := by
  by_cases hlies : e.lies = []
  · exact .inl hlies
  by_cases hnone : none ∈ e.lies
  · exact .inr (.inl hnone)
  refine .inr (.inr ⟨(hall [] ⟨hlies, hnone, fun _ hw ↦ nomatch hw⟩).cut, fun l hl name rest hdef ↦ ?_⟩)
  by_contra hno
  have hname : named l.2 = some name := by rw [named, hdef]; rfl
  have hpast : e.Past (e.wordy [name]) := by
    refine ⟨hlies, hnone, fun w hw g hg hto ↦ hno ⟨g, hg, ?_⟩⟩
    rwa [List.mem_singleton.mp hw] at hto
  have hf : some name ∉ e.lies := fun hf ↦ hno ⟨name, hf, .refl⟩
  have hdiffers := differs_of_cut h hf hl hname
  exact (hall [name] hpast).words name (List.mem_singleton_self _) name hdiffers .refl

/-! ### In the selection, and in the gate's own list -/

/-- The suite alone. -/
def lone (e : Edit) (words : List String) : Corpus :=
  ⟨[e.wordy words], graphOf e.scripts, List.pairwise_singleton _ _⟩

theorem whole_path : splitToken e.change.path = none ∧ caseMatch e.change.path e.change.path = true := by
  have hlisted : e.change.path = "spira/lib.sh" ∨ e.change.path = "spira/conf.sh" :=
    List.mem_pair.mp e.listed
  rcases hlisted with h | h <;> rw [h] <;> decide

theorem names_wordy (words : List String) : (e.wordy words).NamesWhole e.change.path :=
  ⟨e.change.path, List.mem_singleton_self _, whole_path⟩

theorem leftOut_wordy {diff text : String → Option String} (hgiven : e.Given diff text)
    {words : List String}
    (hout : wholeFileClaimReached (e.lone words) (e.wordy words) e.change e.fns = false) :
    LeftOut (e.lone words) [e.change] (fnChangedIn diff text) ⟨[], [], []⟩ ⟨false, false, none, none⟩
      e.change (e.wordy words) := by
  refine ⟨List.mem_singleton_self _, names_wordy words, rfl, rfl, List.mem_singleton_self _, rfl, ?_⟩
  have hfns : fnChangedIn diff text e.change.path = e.fns := by
    rw [fnChangedIn, hgiven.diff, hgiven.text]
    rfl
  rw [wholeFileClaimReached_eq] at hout
  obtain ⟨affected, hnarrowed, hreach⟩ : ∃ affected,
      narrowedTo (e.lone words) e.change e.fns = some affected ∧
        reaches (e.wordy words) affected = false := by
    cases hn : narrowedTo (e.lone words) e.change e.fns with
    | none => simp [hn] at hout
    | some affected => exact ⟨affected, rfl, by simpa [hn] using hout⟩
  have hclaim : claim e.change.path (some affected) ⟨false, [], [], 0⟩ (e.wordy words) e.change.path =
      ⟨true, [], [], 1⟩ := by
    have hplain : (e.wordy words).selectsOn.isEmpty = true := rfl
    unfold claim
    rw [whole_path.1]
    dsimp only
    rw [if_pos whole_path.2, if_pos hplain, hreach]
    rfl
  have hchange : ∃ log, selectChange (e.lone words) (fnChangedIn diff text) ⟨false, false, none, none⟩
      ⟨[], [], []⟩ e.change = ⟨[], [], log⟩ := by
    have hfold : (e.lone words).suites.foldl (fun a s ↦ (s.covers.getD []).foldl
        (fun a pat ↦ claim e.change.path (some affected) a s pat) a) ⟨false, [], [], 0⟩ =
        ⟨true, [], [], 1⟩ := hclaim
    unfold selectChange
    dsimp only
    rw [hfns, hnarrowed, hfold]
    exact ⟨_, rfl⟩
  obtain ⟨log, hlog⟩ := hchange
  unfold select
  simp only [List.filter_cons, List.filter_nil, anyMatch, List.any_nil, Bool.not_false, if_true,
    List.isEmpty_cons, Bool.false_eq_true, if_false, List.foldl_cons, List.foldl_nil, hlog]
  exact ⟨_, rfl, List.not_mem_nil⟩

theorem carvedOut_wordy {diff text : String → Option String} (hgiven : e.Given diff text)
    {words : List String}
    (hout : wholeFileClaimReached (e.lone words) (e.wordy words) e.change e.fns = false) :
    CarvedOut (e.lone words) [e.change.path] [e.change] diff text e.change (e.wordy words) := by
  have hfns : fnChangedIn diff text e.change.path = e.fns := by
    rw [fnChangedIn, hgiven.diff, hgiven.text]
    rfl
  have hcritical : anyMatch [e.change.path] e.change.path = true := by
    simp [anyMatch, whole_path.2]
  refine ⟨List.mem_singleton_self _, names_wordy words, List.mem_singleton_self _, hcritical, ?_⟩
  have hcarves : carves (e.lone words) (e.wordy words) e.change e.fns e.change.path = false := by
    rw [carves, whole_path.1]
    simp [hout]
  intro hmem
  unfold carveOut at hmem
  dsimp only at hmem
  rw [List.filter_singleton, hcritical, cond_true, if_neg (by simp), List.mem_insertionSort] at hmem
  obtain ⟨s, hs, -⟩ := List.mem_map.mp hmem
  obtain ⟨hs, hany⟩ := List.mem_filter.mp hs
  obtain rfl := List.mem_singleton.mp hs
  obtain ⟨token, htoken, hcarve⟩ := List.any_eq_true.mp hany
  obtain rfl := List.mem_singleton.mp htoken
  obtain ⟨c, hc, hcarve⟩ := List.any_eq_true.mp hcarve
  obtain rfl := List.mem_singleton.mp hc
  rw [if_neg (by simp), hfns, hcarves] at hcarve
  cases hcarve

section Main

variable (e)

/-- A diff, and the text of its head, for the file. -/
theorem given_self : e.Given (fun _ ↦ some e.diff) (fun _ ↦ some e.text) := ⟨rfl, rfl⟩

variable {e}

theorem apart_of_selects (hsound : e.SelectsSoundly) {words : List String}
    (hout : wholeFileClaimReached (e.lone words) (e.wordy words) e.change e.fns = false) :
    e.Apart (e.wordy words) :=
  hsound _ _ _ _ _ _ _ rfl e.given_self (leftOut_wordy e.given_self hout)

theorem apart_of_carves (hsound : e.CarvesSoundly) {words : List String}
    (hout : wholeFileClaimReached (e.lone words) (e.wordy words) e.change e.fns = false) :
    e.Apart (e.wordy words) :=
  hsound _ _ _ _ _ _ rfl e.given_self (carvedOut_wordy e.given_self hout)

theorem shown_of_selects (h : e.Read) (hsound : e.SelectsSoundly) : e.Shown :=
  shown_of_apart h fun _ hpast ↦ apart_of_selects hsound ((not_reached_iff h rfl).mpr hpast)

theorem shown_of_carves (h : e.Read) (hsound : e.CarvesSoundly) : e.Shown :=
  shown_of_apart h fun _ hpast ↦ apart_of_carves hsound ((not_reached_iff h rfl).mpr hpast)

variable (e)

/-- **An edit is narrowed soundly exactly where the head shows all that was cut**, by the
selection of a diff and by the gate's own list, if the scripts and the texts are read as they are
written. -/
theorem narrows_soundly_iff (h : e.Read) :
    (e.SelectsSoundly ↔ e.Shown) ∧ (e.CarvesSoundly ↔ e.Shown) := by
  refine ⟨⟨shown_of_selects h, fun hshown ↦ ?_⟩, ⟨shown_of_carves h, fun hshown ↦ ?_⟩⟩
  · intro corpus changes diff text buckets opts s hcorpus hgiven hout
    have hreach := hout.not_reached
    rw [fnChangedIn, hgiven.diff, hgiven.text] at hreach
    exact apart_of_shown h hshown ((not_reached_iff h hcorpus).mp hreach)
  · intro corpus alwaysCovers changes diff text s hcorpus hgiven hout
    have hpath : e.change.path ≠ "" := by
      intro hempty
      have hlisted := e.listed
      rw [hempty] at hlisted
      exact absurd hlisted (by decide)
    have hreach := hout.not_reached hpath
    rw [fnChangedIn, hgiven.diff, hgiven.text] at hreach
    exact apart_of_shown h hshown ((not_reached_iff h hcorpus).mp hreach)

end Main

theorem isDiff_of_headers {diff : String} {cs : List Chunk}
    (h : (Text.linesFrom [] diff.toList).filter ("@@".toList.isPrefixOf ·) =
      (placesFrom 0 0 cs).map (·.header [])) : IsDiff diff cs := by
  rw [IsDiff, h, List.forall₂_map_left_iff]
  exact List.forall₂_same.mpr fun p _ ↦ ⟨[], rfl⟩

/-- The file is modified. -/
def modification : Change := ⟨"spira/lib.sh", false, false, false⟩

/-- A line of a function is changed, which another calls. -/
def bodyChanged : Edit where
  scripts := [⟨"lib.sh", "g() \x7b\nb\n\x7d\nh() \x7b\ng\n\x7d\n", [.fn "g" [['b']], .fn "h" [['g']]],
    by decide⟩]
  change := modification
  base := [.fn "g" [['a']], .fn "h" [['g']]]
  head := [.fn "g" [['b']], .fn "h" [['g']]]
  chunks := [.keep "g() \x7b".toList, .hunk [['a']] [['b']], .keep closing, .keep "h() \x7b".toList,
    .keep ['g'], .keep closing]
  diff := "@@ -2 +2 @@\n-a\n+b\n"
  text := "g() \x7b\nb\n\x7d\nh() \x7b\ng\n\x7d\n"
  names := by decide
  modified := ⟨rfl, rfl⟩
  listed := by decide
  known := by decide
  base_eq := by decide
  head_eq := by decide
  text_eq := by decide
  diff_eq := isDiff_of_headers (by decide)

/-- A function is renamed. -/
def renamed : Edit where
  scripts := [⟨"lib.sh", "h() \x7b\na\n\x7d\n", [.fn "h" [['a']]], by decide⟩]
  change := modification
  base := [.fn "g" [['a']]]
  head := [.fn "h" [['a']]]
  chunks := [.hunk ["g() \x7b".toList] ["h() \x7b".toList], .keep ['a'], .keep closing]
  diff := "@@ -1 +1 @@\n-g() \x7b\n+h() \x7b\n"
  text := "h() \x7b\na\n\x7d\n"
  names := by decide
  modified := ⟨rfl, rfl⟩
  listed := by decide
  known := by decide
  base_eq := by decide
  head_eq := by decide
  text_eq := by decide
  diff_eq := isDiff_of_headers (by decide)

/-- A top-level line is changed, after a function on one line. -/
def trailing : Edit where
  scripts := [⟨"lib.sh", "g() \x7b a; \x7d\ny\n", [.one "g" ['a'], .top ['y']], by decide⟩]
  change := modification
  base := [.one "g" ['a'], .top ['x']]
  head := [.one "g" ['a'], .top ['y']]
  chunks := [.keep "g() \x7b a; \x7d".toList, .hunk [['x']] [['y']]]
  diff := "@@ -2 +2 @@\n-x\n+y\n"
  text := "g() \x7b a; \x7d\ny\n"
  names := by decide
  modified := ⟨rfl, rfl⟩
  listed := by decide
  known := by decide
  base_eq := by decide
  head_eq := by decide
  text_eq := by decide
  diff_eq := isDiff_of_headers (by decide)

theorem bodyChanged_read : bodyChanged.Read where
  scripts := by
    intro s hs
    rw [List.mem_singleton.mp hs]
    exact ⟨⟨by decide, by decide⟩, by simp [Piece.top?]⟩
  base := by decide
  head := ⟨by decide, by decide⟩

theorem renamed_read : renamed.Read where
  scripts := by
    intro s hs
    rw [List.mem_singleton.mp hs]
    exact ⟨⟨by decide, by decide⟩, by simp [Piece.top?]⟩
  base := by decide
  head := ⟨by decide, by decide⟩

/-- A line changed in a function is shown by the head. -/
theorem bodyChanged_narrows : bodyChanged.SelectsSoundly ∧ bodyChanged.CarvesSoundly := by
  have hshown : bodyChanged.Shown := by
    have hcut : bodyChanged.cut = [(some "g", ['a'])] := by decide
    refine .inr (.inr ⟨fun l hl ↦ ?_, fun l hl name rest hdef ↦ ?_⟩)
    · rw [hcut] at hl
      rw [List.mem_singleton.mp hl]
      exact nofun
    · rw [hcut] at hl
      have hnone : fnDef ['a'] = none := by decide
      rw [List.mem_singleton.mp hl, hnone] at hdef
      cases hdef
  have hiff := narrows_soundly_iff bodyChanged bodyChanged_read
  exact ⟨hiff.1.mpr hshown, hiff.2.mpr hshown⟩

/-- The head shows the new name of a function alone, and a line after a function on one line is
taken for a part of it: what calls the old name, and what runs the line, is left out. -/
theorem renamed_past : (¬ renamed.SelectsSoundly ∧ ¬ renamed.CarvesSoundly) ∧
    ¬ trailing.SelectsSoundly ∧ ¬ trailing.CarvesSoundly := by
  have hnot : ¬ renamed.Shown := by
    have hlies : renamed.lies = [some "h"] := by decide
    have hcut : renamed.cut = [(some "g", "g() \x7b".toList)] := by decide
    rintro (hshown | hshown | ⟨-, hshown⟩)
    · rw [hlies] at hshown
      cases hshown
    · rw [hlies] at hshown
      simp at hshown
    · obtain ⟨f, hf, hto⟩ := hshown _ (hcut ▸ List.mem_singleton_self _) "g" [' ', '\x7b'] (by decide)
      rw [hlies, List.mem_singleton] at hf
      cases hf
      rcases Relation.ReflTransGen.cases_head hto with heq | ⟨t, hruns, -⟩
      · exact absurd heq (by decide)
      · simp [Runs, renamed, body?] at hruns
  have hpast : wholeFileClaimReached (trailing.lone []) (trailing.wordy []) trailing.change
      trailing.fns = false := by decide
  have hput : trailing.put = [(none, ['y'])] := by decide
  have hnotApart : ¬ trailing.Apart (trailing.wordy []) := fun happart ↦
    happart.put _ (hput ▸ List.mem_singleton_self _) rfl
  exact ⟨⟨fun hsound ↦ hnot (shown_of_selects renamed_read hsound),
      fun hsound ↦ hnot (shown_of_carves renamed_read hsound)⟩,
    fun hsound ↦ hnotApart (apart_of_selects hsound hpast),
    fun hsound ↦ hnotApart (apart_of_carves hsound hpast)⟩

end Edit

end Spira.Suites
