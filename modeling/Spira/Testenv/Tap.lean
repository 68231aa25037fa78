import Mathlib.Algebra.GroupWithZero.Nat
import Mathlib.Data.List.Forall2
import Spira.Lib.JsonText
import Spira.Lib.Text

/-!
# The rows of a suite's TAP output

`jsonlRows` reads the captured output of a suite line by line, holding each case until the next
transition, and writes one row for each case, for the skip of the whole suite and for a bail-out.

The rows are those that the lines themselves account for (`tapRows_eq`).  The name of the suite and
its tier are escaped in full; a case and its detail only for backslash and quote, so that a row is
an object just where they hold no control character (`read_row`, `unread_row`).

A reading that cuts a text inside a character panics, and has no answer here: the rows are cut only
after characters of one byte, and the reason of a skip is not (`skipAllReason_panics`).
-/

set_option autoImplicit false

namespace Spira.Tap

/-! ## Texts -/

def stripPrefix (s p : String) : Option String :=
  if Text.startsWith s p then some (String.ofList (s.toList.drop p.toList.length)) else none

def trimStart (s : String) : String := String.ofList (s.toList.dropWhile Text.isWhite)

def byteLen (s : List Char) : ℕ := (s.map Char.utf8Size).sum

/-- A text cut after some bytes, `none` where that is inside a character or past its end. -/
def sliceAt : ℕ → List Char → Option (List Char × List Char)
  | 0, s => some ([], s)
  | _ + 1, [] => none
  | n + 1, c :: s =>
    if c.utf8Size ≤ n + 1 then (sliceAt (n + 1 - c.utf8Size) s).map fun r ↦ (c :: r.1, r.2)
    else none

/-- A number of 64 bits, with an optional sign. -/
def parseU64 (s : List Char) : Option ℕ :=
  let d := if s.head? = some '+' then s.tail else s
  if d ≠ [] ∧ d.all Char.isDigit ∧ Nat.ofDigitChars 10 d 0 < 2 ^ 64 then
    some (Nat.ofDigitChars 10 d 0)
  else none

/-! ## The header of a suite -/

/-- The value of the first `# <key>:` line before the first `set -` line. -/
def directiveOf (key : String) : List String → Option String
  | [] => none
  | l :: rest =>
    if Text.startsWith l "set -" then none
    else
      match (stripPrefix l "#").bind fun r ↦
          (stripPrefix (String.ofList (r.toList.dropWhile (· = ' '))) key).bind fun v ↦
            stripPrefix v ":" with
      | some v => some (String.ofList (v.toList.dropWhile (· = ' ')))
      | none => directiveOf key rest

def tierOf (source : String) : Option String := directiveOf "tier" (Text.lines source)

/-- The globs of a `# covers:` line. -/
def coversLine (l : String) : Option String :=
  (stripPrefix l "#").bind fun r ↦
    (stripPrefix (String.ofList (r.toList.dropWhile (· = ' '))) "covers:").map fun v ↦
      String.ofList (v.toList.dropWhile (· = ' '))

/-- Whether the text after a `#` is itself a `word:` directive. -/
def isDirective (body : List Char) : Bool :=
  body.head? = some ' ' && (Text.splitOnce ':' body.tail).any fun w ↦
    w.1 ≠ [] && (w.1.head?.any Char.isAlpha) && w.1.all fun b ↦ b.isAlpha || b = '_' || b = '-'

/-- The first line folded with those that continue it. -/
def foldCovers (out : String) : List String → String
  | [] => out
  | l :: more =>
    match stripPrefix l "#" with
    | none => out
    | some body =>
      let blank (c : Char) : Bool := c = ' ' || c = '\t'
      let rest := body.toList.dropWhile blank
      if (body.toList.takeWhile blank).length ≥ 2 ∧ rest ≠ [] ∧ rest.head? ≠ some '#' ∧
          isDirective body.toList = false then
        foldCovers (out ++ " " ++ String.ofList rest) more
      else out

/-- The first `# covers:` line's globs, with its continuation lines. -/
def coversFrom : List String → Option (List String)
  | [] => none
  | l :: more =>
    match coversLine l with
    | some first => some (Text.words (foldCovers first more))
    | none => coversFrom more

def coversOf (source : String) : Option (List String) := coversFrom (Text.lines source)

/-- A token that matches `UC-*-[0-9][0-9]`. -/
def isUcToken (tok : String) : Bool :=
  6 ≤ byteLen tok.toList && Text.startsWith tok "UC-" &&
    match tok.toList.reverse with
    | b :: a :: dash :: _ => dash = '-' && a.isDigit && b.isDigit
    | _ => false

/-! ## Escapes -/

/-- The full form: backslash, quote, newline and tab. -/
def escFull (s : String) : List Char :=
  s.toList.flatMap fun c ↦
    if c = '\\' then ['\\', '\\']
    else if c = '"' then ['\\', '"']
    else if c = '\n' then ['\\', 'n']
    else if c = '\t' then ['\\', 't']
    else [c]

/-- Backslash and quote only: any other character is kept verbatim. -/
def escCase (s : String) : List Char :=
  s.toList.flatMap fun c ↦
    if c = '\\' then ['\\', '\\'] else if c = '"' then ['\\', '"'] else [c]

/-- The tokens verbatim, with commas between. -/
def ucTokens : List String → List Char
  | [] => []
  | [t] => '"' :: t.toList ++ ['"']
  | t :: more => '"' :: t.toList ++ '"' :: ',' :: ucTokens more

def ucJson (uc : List String) : List Char := '[' :: ucTokens uc ++ [']']

/-! ## The rows -/

inductive Status
  | pass
  | fail
  | skip
  | bail
  | unreached
  deriving DecidableEq

def Status.asStr : Status → String
  | pass => "pass"
  | fail => "fail"
  | skip => "skip"
  | bail => "bail"
  | unreached => "unreached"

/-- One row, held until the next transition closes it. -/
structure Pending where
  case_ : String
  status : Status
  detail : String
  deriving DecidableEq

/-- `<word> [0-9]+ - <case>`; the digits end between characters. -/
def stripCasePrefix (line word : String) : Option String :=
  (stripPrefix line word).bind fun r ↦ (stripPrefix r " ").bind fun rest ↦
    if rest.toList.takeWhile Char.isDigit = [] then none
    else stripPrefix (String.ofList (rest.toList.dropWhile Char.isDigit)) " - "

/-- Where the reading is: the rows it emitted, the case it holds, and whether the last case
failed. -/
structure Reading where
  rows : List Pending
  pending : Option Pending
  afterFail : Bool

def Reading.flush (s : Reading) : Reading :=
  { s with rows := s.rows ++ s.pending.toList, pending := none }

def Reading.emit (s : Reading) (p : Pending) : Reading := { s with rows := s.rows ++ [p] }

/-- The first comment that says anything is the detail of a failing case. -/
def Pending.comment (rest : String) (p : Pending) : Pending :=
  if p.status = .fail ∧ p.detail = "" then { p with detail := rest } else p

def Reading.step (s : Reading) (line : String) : Reading :=
  match stripCasePrefix line "ok" with
  | some c => { s.flush with pending := some ⟨c, .pass, ""⟩, afterFail := false }
  | none =>
    match stripCasePrefix line "not ok" with
    | some c => { s.flush with pending := some ⟨c, .fail, ""⟩, afterFail := true }
    | none =>
      match stripPrefix line "# " with
      | some rest => { s with pending := s.pending.map (Pending.comment rest) }
      | none =>
        match stripPrefix line "1..0 # SKIP " with
        | some detail => s.flush.emit ⟨"(suite)", .skip, detail⟩
        | none =>
          match stripPrefix line "Bail out! " with
          -- A bail-out straight after a failing case is that case stopping the suite.
          | some detail =>
            if s.afterFail then s.flush else s.flush.emit ⟨"(suite)", .bail, detail⟩
          | none => s.flush

/-- The rows of the lines of an output. -/
def tapRows (lines : List String) : List Pending :=
  (lines.foldl Reading.step ⟨[], none, false⟩).flush.rows

def quoted (text : List Char) : List Char := '"' :: text ++ ['"']

def field (name : String) (value : List Char) : List Char := quoted name.toList ++ ':' :: value

def rowText (suite tier : String) (uc : List String) (secs : List Char) (p : Pending) :
    List Char :=
  '\x7b' :: (field "suite" (quoted (escFull suite)) ++
    ',' :: (field "tier" (quoted (escFull tier)) ++
    ',' :: (field "case" (quoted (escCase p.case_)) ++
    ',' :: (field "status" (quoted p.status.asStr.toList) ++
    ',' :: (field "seconds" secs ++
    ',' :: (field "uc" (ucJson uc) ++
    ',' :: (field "detail" (quoted (escCase p.detail)) ++ ['\x7d'])))))))

/-- The status of the one row of a suite that printed no TAP. -/
def fallbackStatus (fallback : String) : Status :=
  if fallback = "ok" then .pass
  else if fallback = "skip" then .skip
  else if fallback = "unreached" then .unreached
  else .fail

def tier (source : String) : String := (tierOf source).getD ""

def ucOf (source : String) : List String := ((coversOf source).getD []).filter isUcToken

/-- One row per line. -/
def jsonlRows (suite source : String) (out : Option String) (fallback : String)
    (secs : List Char) : List Char :=
  let rows :=
    match out with
    | some out =>
      if (Text.lines out).head? = some "TAP version 14" then tapRows (Text.lines out)
      else [⟨"(suite)", fallbackStatus fallback, "not migrated to testlib.sh"⟩]
    | none => [⟨"(suite)", fallbackStatus fallback, "not migrated to testlib.sh"⟩]
  rows.flatMap fun p ↦ rowText suite (tier source) (ucOf source) secs p ++ ['\n']

/-! ## The other readers -/

/-- What follows the `#` of a line `1..0 # …`. -/
def skipDirective (raw : String) : Option (List Char) :=
  ((stripPrefix (Text.trim raw) "1..0").bind fun r ↦ stripPrefix (trimStart r) "#").map fun d ↦
    (trimStart d).toList

/-- The reason that a line names, if it names one: the cut after the first word is by bytes. -/
def skipAt (raw : String) : Option (Option String) :=
  match skipDirective raw with
  | none => some none
  | some d =>
    if byteLen d ≥ 4 then
      (sliceAt 4 d).map fun r ↦
        if r.1.map Char.toLower = ['s', 'k', 'i', 'p'] then
          some (trimStart (String.ofList r.2))
        else none
    else some none

/-- The reason of a skip of the whole suite. -/
def skipAllFrom : List String → Option (Option String)
  | [] => some none
  | raw :: rest =>
    (skipAt raw).bind fun found ↦
      match found with
      | some reason => some (some reason)
      | none => skipAllFrom rest

def skipAllReason (output : String) : Option (Option String) := skipAllFrom (Text.lines output)

inductive CaseStatus
  | ok
  | notOk
  | skip
  | todo
  deriving DecidableEq

structure TapCase where
  n : ℕ
  name : String
  status : CaseStatus
  ms : Option ℕ
  at_ : Option String

structure TapSummary where
  plan : Option ℕ
  passed : ℕ
  failed : ℕ
  skipped : ℕ
  todo : ℕ
  bailOut : Option String
  notOk : List String
  cases_ : List TapCase

/-- What stands before the first ` # `: all of it where there is none. -/
def untilMark : List Char → List Char
  | [] => []
  | c :: s => if " # ".toList.isPrefixOf (c :: s) then [] else c :: untilMark s

def openCase (status : CaseStatus) (rest : String) : Option TapCase :=
  let rest := (trimStart rest).toList
  (sliceAt (byteLen (rest.takeWhile Char.isDigit)) rest).map fun r ↦
    let n := (parseU64 r.1).getD 0
    let name := trimStart (String.ofList r.2)
    let name := (stripPrefix name "- ").getD name
    let name := String.ofList
      (((untilMark name.toList).reverse.dropWhile Text.isWhite).reverse)
    ⟨n, name, status, none, none⟩

/-- What a directive after the description says of a case. -/
def directive (desc : String) : Option CaseStatus :=
  (Text.splitOnce '#' desc.toList).bind fun r ↦
    let d := (r.2.dropWhile Text.isWhite).map Char.toUpper
    if "SKIP".toList.isPrefixOf d then some .skip
    else if "TODO".toList.isPrefixOf d then some .todo
    else none

/-- A case counted, under what its directive says. -/
def TapSummary.count (t : TapSummary) (line : String) (status : CaseStatus) : TapSummary :=
  match status with
  | .ok => { t with passed := t.passed + 1 }
  | .notOk => { t with failed := t.failed + 1, notOk := t.notOk ++ [line] }
  | .skip => { t with skipped := t.skipped + 1 }
  | .todo => { t with todo := t.todo + 1 }

def TapSummary.push (t : TapSummary) (line rest : String) (plain : CaseStatus) :
    Option TapSummary :=
  if rest = "" ∨ Text.startsWith rest " " = true ∨ Text.startsWith rest "\t" = true then
    let status := (directive rest).getD plain
    (openCase status rest).map fun c ↦
      let t := t.count line status
      { t with cases_ := t.cases_ ++ [c] }
  else some t

/-- The last case with a change, if there is one. -/
def TapSummary.mapLast (t : TapSummary) (f : TapCase → TapCase) : TapSummary :=
  { t with cases_ := t.cases_.dropLast ++ (t.cases_.getLast?.map f).toList }

def TapSummary.line (t : TapSummary) (raw : String) : Option TapSummary :=
  let line := Text.trim raw
  match stripPrefix line "#ms=" with
  | some ms => some (t.mapLast fun c ↦ { c with ms := parseU64 (Text.trim ms).toList })
  | none =>
    match stripPrefix line "# at " with
    | some place => some (t.mapLast fun c ↦ { c with at_ := some (Text.trim place) })
    | none =>
      match stripPrefix line "1.." with
      | some rest =>
        match parseU64 ((Text.words rest).headD "").toList with
        | some n => some { t with plan := some n }
        | none => some t
      | none =>
        match stripPrefix line "Bail out!" with
        | some rest => some { t with bailOut := some (Text.trim rest) }
        | none =>
          match stripPrefix line "not ok" with
          | some rest => t.push line rest .notOk
          | none =>
            match stripPrefix line "ok" with
            | some rest => t.push line rest .ok
            | none => some t

def parse (output : String) : Option TapSummary :=
  (Text.lines output).foldlM TapSummary.line ⟨none, 0, 0, 0, 0, none, [], []⟩


/-! ## What the lines account for -/

/-- The case that a line reports. -/
def caseLine (l : String) : Option (String × Status) :=
  match stripCasePrefix l "ok" with
  | some c => some (c, .pass)
  | none => (stripCasePrefix l "not ok").map fun c ↦ (c, .fail)

/-- The first comment that says anything, of those that a text begins with. -/
def detailOf : List String → String
  | [] => ""
  | l :: rest =>
    match stripPrefix l "# " with
    | none => ""
    | some t => if t = "" then detailOf rest else t

/-- The rows of the cases. -/
def casesOf : List String → List Pending
  | [] => []
  | l :: rest =>
    ((caseLine l).map fun c ↦
      ⟨c.1, c.2, if c.2 = .fail then detailOf rest else ""⟩).toList ++ casesOf rest

/-- There is a failing case since the last passing one. -/
def failing (pre : List String) : Bool := (pre.filterMap caseLine).getLast?.any (·.2 = .fail)

def skipsOf (l : String) : List Pending :=
  ((stripPrefix l "1..0 # SKIP ").map fun d ↦ ⟨"(suite)", .skip, d⟩).toList

/-- The row of a bail-out with no failing case since the last passing one. -/
def bailsAt (pre : List String) (l : String) : List Pending :=
  if failing pre then []
  else ((stripPrefix l "Bail out! ").map fun d ↦ ⟨"(suite)", .bail, d⟩).toList

/-- The rows of the bail-outs, after the lines `pre`. -/
def bailsOf (pre : List String) : List String → List Pending
  | [] => []
  | l :: rest => bailsAt pre l ++ bailsOf (pre ++ [l]) rest

/-- All rows, after the lines `pre`. -/
def rowsOf (pre : List String) : List String → List Pending
  | [] => []
  | l :: rest =>
    ((caseLine l).map fun c ↦
        ⟨c.1, c.2, if c.2 = .fail then detailOf rest else ""⟩).toList ++
      skipsOf l ++ bailsAt pre l ++ rowsOf (pre ++ [l]) rest

section Lines

variable {l p q r c w : String}

theorem stripPrefix_eq_some : stripPrefix l p = some r ↔ l.toList = p.toList ++ r.toList := by
  rw [stripPrefix, Text.startsWith]
  by_cases h : p.toList.isPrefixOf l.toList = true
  · rw [if_pos h]
    obtain ⟨t, ht⟩ := List.isPrefixOf_iff_prefix.mp h
    rw [← ht, List.drop_left, Option.some.injEq, List.append_cancel_left_eq]
    constructor
    · rintro rfl
      exact String.toList_ofList.symm
    · intro hr
      rw [hr, String.ofList_toList]
  · rw [if_neg h]
    refine iff_of_false (Option.some_ne_none r).symm fun hr ↦ h ?_
    rw [hr]
    exact List.isPrefixOf_iff_prefix.mpr (List.prefix_append _ _)

theorem head_of_stripPrefix (hp : p.toList ≠ []) (h : stripPrefix l p = some r) :
    l.toList.head? = p.toList.head? := by
  rw [stripPrefix_eq_some.mp h, List.head?_append_of_ne_nil _ hp]

theorem stripPrefix_of_stripCasePrefix (h : stripCasePrefix l w = some c) :
    ∃ r, stripPrefix l w = some r := by
  rw [stripCasePrefix, Option.bind_eq_some_iff] at h
  obtain ⟨r, hr, -⟩ := h
  exact ⟨r, hr⟩

theorem head_of_caseLine {st : Status} (h : caseLine l = some (c, st)) :
    l.toList.head? = some 'o' ∨ l.toList.head? = some 'n' := by
  rw [caseLine] at h
  split at h
  · rename_i hok
    obtain ⟨r, hr⟩ := stripPrefix_of_stripCasePrefix hok
    exact .inl (head_of_stripPrefix (by decide) hr)
  · obtain ⟨c, hc, -⟩ := Option.map_eq_some_iff.mp h
    obtain ⟨r, hr⟩ := stripPrefix_of_stripCasePrefix hc
    exact .inr (head_of_stripPrefix (by decide) hr)

/-- A line of one kind is of no other: they begin with other characters. -/
theorem stripPrefix_eq_none (hp : p.toList ≠ []) (h : l.toList.head? ≠ p.toList.head?) :
    stripPrefix l p = none := by
  obtain hnone | ⟨r, hr⟩ := (stripPrefix l p).eq_none_or_eq_some
  · exact hnone
  · exact absurd (head_of_stripPrefix hp hr) h

theorem detailOf_cons (h : stripPrefix l "# " = none) (rest : List String) :
    detailOf (l :: rest) = "" := by
  rw [detailOf, h]

end Lines


/-! ## The loop -/

section Loop

variable {l c : String} {st : Status} {s : Reading}

/-- What a pending case becomes, before these lines. -/
def Pending.complete (rest : List String) (p : Pending) : Pending :=
  if p.status = .fail ∧ p.detail = "" then { p with detail := detailOf rest } else p

theorem complete_of_detail {rest : List String} (h : detailOf rest = "") (p : Pending) :
    p.complete rest = p := by
  rw [Pending.complete]
  split
  · rename_i hp
    rw [h, ← hp.2]
  · rfl

theorem complete_map {rest : List String} (h : detailOf rest = "") (p : Option Pending) :
    p.map (Pending.complete rest) = p := by
  rw [funext (complete_of_detail h)]
  exact Option.map_id'

/-- A comment, and then what follows it. -/
theorem complete_comment {t : String} (h : stripPrefix l "# " = some t) (rest : List String)
    (p : Pending) : (p.comment t).complete rest = p.complete (l :: rest) := by
  rw [Pending.comment, Pending.complete, Pending.complete, detailOf, h]
  by_cases hp : p.status = .fail ∧ p.detail = ""
  · rw [if_pos hp, if_pos hp]
    dsimp only
    by_cases ht : t = ""
    · rw [if_pos ⟨hp.1, ht⟩, if_pos ht]
    · rw [if_neg fun hpt ↦ ht hpt.2, if_neg ht]
  · rw [if_neg hp, if_neg hp, if_neg hp]

theorem failing_append (pre : List String) (l : String) :
    failing (pre ++ [l]) = match caseLine l with
      | some c => decide (c.2 = .fail)
      | none => failing pre := by
  rw [failing, failing, List.filterMap_append]
  obtain hnone | ⟨c, hc⟩ := (caseLine l).eq_none_or_eq_some
  · rw [List.filterMap_cons_none hnone, List.filterMap_nil, List.append_nil, hnone]
  · rw [List.filterMap_cons_some hc, List.filterMap_nil, List.getLast?_concat, hc]
    rfl

/-- A case closes the one before it. -/
theorem step_case (h : caseLine l = some (c, st)) :
    s.step l =
      { s.flush with pending := some ⟨c, st, ""⟩, afterFail := decide (st = .fail) } := by
  rw [caseLine] at h
  unfold Reading.step
  obtain hok | ⟨c', hok⟩ := (stripCasePrefix l "ok").eq_none_or_eq_some
  · rw [hok] at h ⊢
    obtain ⟨c', hc', heq⟩ := Option.map_eq_some_iff.mp h
    cases heq
    dsimp only
    rw [hc']
    rfl
  · rw [hok] at h ⊢
    cases h
    rfl

theorem not_case (h : caseLine l = none) :
    stripCasePrefix l "ok" = none ∧ stripCasePrefix l "not ok" = none := by
  rw [caseLine] at h
  split at h
  · cases h
  · rename_i hok
    exact ⟨hok, Option.map_eq_none_iff.mp h⟩

theorem step_comment {t : String} (h : caseLine l = none) (ht : stripPrefix l "# " = some t) :
    s.step l = { s with pending := s.pending.map (Pending.comment t) } := by
  obtain ⟨hok, hnot⟩ := not_case h
  unfold Reading.step
  rw [hok]
  dsimp only
  rw [hnot]
  dsimp only
  rw [ht]

theorem step_rest (h : caseLine l = none) (ht : stripPrefix l "# " = none) :
    s.step l = match stripPrefix l "1..0 # SKIP " with
      | some detail => s.flush.emit ⟨"(suite)", .skip, detail⟩
      | none =>
        match stripPrefix l "Bail out! " with
        | some detail =>
          if s.afterFail then s.flush else s.flush.emit ⟨"(suite)", .bail, detail⟩
        | none => s.flush := by
  obtain ⟨hok, hnot⟩ := not_case h
  unfold Reading.step
  rw [hok]
  dsimp only
  rw [hnot]
  dsimp only
  rw [ht]

end Loop


section Rows

variable {l : String}

theorem head_comment {t : String} (h : stripPrefix l "# " = some t) : l.toList.head? = some '#' :=
  head_of_stripPrefix (by decide) h

/-- A comment is no row. -/
theorem rowless_comment {t : String} (h : stripPrefix l "# " = some t) :
    caseLine l = none ∧ skipsOf l = [] ∧ ∀ pre, bailsAt pre l = [] := by
  have hhead := head_comment h
  have hskip : stripPrefix l "1..0 # SKIP " = none :=
    stripPrefix_eq_none (by decide) (by rw [hhead]; decide)
  have hbail : stripPrefix l "Bail out! " = none :=
    stripPrefix_eq_none (by decide) (by rw [hhead]; decide)
  refine ⟨?_, by rw [skipsOf, hskip]; rfl, fun pre ↦ by rw [bailsAt, hbail]; exact ite_self _⟩
  obtain hnone | ⟨⟨c, st⟩, hc⟩ := (caseLine l).eq_none_or_eq_some
  · exact hnone
  · rcases head_of_caseLine hc with hc | hc <;> rw [hhead] at hc <;> cases hc

/-- A case is neither a comment, nor a skip or a bail-out. -/
theorem only_case {c : String} {st : Status} (h : caseLine l = some (c, st)) :
    stripPrefix l "# " = none ∧ skipsOf l = [] ∧ ∀ pre, bailsAt pre l = [] := by
  have hhead := head_of_caseLine h
  have hnone {p : String} (hp : p.toList ≠ []) (ho : p.toList.head? ≠ some 'o')
      (hn : p.toList.head? ≠ some 'n') : stripPrefix l p = none := by
    refine stripPrefix_eq_none hp fun heq ↦ ?_
    rw [heq] at hhead
    exact hhead.elim ho hn
  have hcomment : stripPrefix l "# " = none := hnone (by decide) (by decide) (by decide)
  have hskip : stripPrefix l "1..0 # SKIP " = none := hnone (by decide) (by decide) (by decide)
  have hbail : stripPrefix l "Bail out! " = none := hnone (by decide) (by decide) (by decide)
  exact ⟨hcomment, by rw [skipsOf, hskip]; rfl, fun pre ↦ by rw [bailsAt, hbail]; exact ite_self _⟩

/-- A skip of the whole suite is no bail-out. -/
theorem only_skip {d : String} (h : stripPrefix l "1..0 # SKIP " = some d) (pre : List String) :
    bailsAt pre l = [] := by
  have hbail : stripPrefix l "Bail out! " = none :=
    stripPrefix_eq_none (by decide) (by rw [head_of_stripPrefix (by decide) h]; decide)
  rw [bailsAt, hbail]
  exact ite_self _

theorem complete_fresh (c : String) (st : Status) (rest : List String) :
    (⟨c, st, ""⟩ : Pending).complete rest =
      ⟨c, st, if st = .fail then detailOf rest else ""⟩ := by
  rw [Pending.complete]
  by_cases hst : st = .fail
  · rw [if_pos ⟨hst, rfl⟩, if_pos hst]
  · rw [if_neg fun h ↦ hst h.1, if_neg hst]

/-- The reading from any point on. -/
theorem rows_foldl (lines : List String) : ∀ (s : Reading) (pre : List String),
    s.afterFail = failing pre → (lines.foldl Reading.step s).flush.rows =
      s.rows ++ (s.pending.map (Pending.complete lines)).toList ++ rowsOf pre lines := by
  induction lines with
  | nil =>
    intro s pre _
    rw [complete_map rfl, rowsOf, List.append_nil]
    rfl
  | cons l rest ih =>
    intro s pre hfail
    rw [List.foldl_cons, rowsOf]
    obtain hcase | ⟨⟨c, st⟩, hcase⟩ := (caseLine l).eq_none_or_eq_some
    · have hafter : s.afterFail = failing (pre ++ [l]) := by rw [failing_append, hcase, hfail]
      have hflush : (rest.foldl Reading.step s.flush).flush.rows =
          s.rows ++ s.pending.toList ++ rowsOf (pre ++ [l]) rest := by
        refine (ih s.flush (pre ++ [l]) hafter).trans ?_
        exact congrArg (· ++ _) (List.append_nil _)
      have hemit (p : Pending) : (rest.foldl Reading.step (s.flush.emit p)).flush.rows =
          s.rows ++ s.pending.toList ++ ([p] ++ rowsOf (pre ++ [l]) rest) := by
        refine (ih (s.flush.emit p) (pre ++ [l]) hafter).trans ?_
        show s.rows ++ s.pending.toList ++ [p] ++ [] ++ _ = _
        rw [List.append_nil, List.append_assoc]
      rw [hcase, Option.map_none, Option.toList_none, List.nil_append]
      obtain hcomment | ⟨t, hcomment⟩ := (stripPrefix l "# ").eq_none_or_eq_some
      · rw [complete_map (detailOf_cons hcomment rest), step_rest hcase hcomment]
        obtain hskip | ⟨d, hskip⟩ := (stripPrefix l "1..0 # SKIP ").eq_none_or_eq_some
        · have hnoskip : skipsOf l = [] := by rw [skipsOf, hskip]; rfl
          rw [hskip, hnoskip, List.nil_append, bailsAt, ← hfail]
          dsimp only
          obtain hbail | ⟨d, hbail⟩ := (stripPrefix l "Bail out! ").eq_none_or_eq_some
          · rw [hbail, Option.map_none, Option.toList_none, ite_self, List.nil_append]
            exact hflush
          · rw [hbail]
            dsimp only
            by_cases hf : s.afterFail = true
            · rw [if_pos hf, if_pos hf, List.nil_append, hflush]
            · rw [if_neg hf, if_neg hf, hemit]
              rfl
        · rw [hskip, only_skip hskip, List.append_nil, skipsOf, hskip]
          exact hemit ⟨"(suite)", .skip, d⟩
      · obtain ⟨-, hnoskip, hnobail⟩ := rowless_comment hcomment
        have hcomplete : Pending.complete rest ∘ Pending.comment t = Pending.complete (l :: rest) :=
          funext (complete_comment hcomment rest)
        have hcommented :=
          ih { s with pending := s.pending.map (Pending.comment t) } (pre ++ [l]) hafter
        rw [Option.map_map, hcomplete] at hcommented
        rw [hnoskip, hnobail, List.append_nil, List.nil_append, step_comment hcase hcomment]
        exact hcommented
    · obtain ⟨hcomment, hnoskip, hnobail⟩ := only_case hcase
      have hafter : failing (pre ++ [l]) = decide (st = .fail) := by rw [failing_append, hcase]
      have hrun := ih { s.flush with pending := some ⟨c, st, ""⟩, afterFail := decide (st = .fail) }
        (pre ++ [l]) hafter.symm
      rw [complete_map (detailOf_cons hcomment rest), hnoskip, hnobail, List.append_nil,
        List.append_nil, step_case hcase, hrun, hcase]
      show s.rows ++ s.pending.toList ++ [_] ++ _ = s.rows ++ s.pending.toList ++ ([_] ++ _)
      rw [complete_fresh, List.append_assoc]

/-- **The rows are what the lines account for.** -/
theorem tapRows_eq (lines : List String) : tapRows lines = rowsOf [] lines := by
  rw [tapRows, rows_foldl lines ⟨[], none, false⟩ [] rfl]
  rfl

/-- A row of a case. -/
def Pending.isCase (p : Pending) : Bool := p.status = .pass || p.status = .fail

theorem caseLine_status {c : String × Status} (h : caseLine l = some c) :
    c.2 = .pass ∨ c.2 = .fail := by
  rw [caseLine] at h
  split at h
  · exact .inl (by cases h; rfl)
  · obtain ⟨c', -, rfl⟩ := Option.map_eq_some_iff.mp h
    exact .inr rfl

theorem skipsOf_status {p : Pending} (h : p ∈ skipsOf l) : p.status = .skip := by
  rw [skipsOf, Option.mem_toList, Option.map_eq_some_iff] at h
  obtain ⟨d, -, rfl⟩ := h
  rfl

theorem bailsAt_status {pre : List String} {p : Pending} (h : p ∈ bailsAt pre l) :
    p.status = .bail := by
  rw [bailsAt] at h
  split at h
  · cases h
  · rw [Option.mem_toList, Option.map_eq_some_iff] at h
    obtain ⟨d, -, rfl⟩ := h
    rfl

theorem filter_cases (lines : List String) : ∀ pre,
    (rowsOf pre lines).filter Pending.isCase = casesOf lines := by
  induction lines with
  | nil => exact fun _ ↦ rfl
  | cons l rest ih =>
    intro pre
    have hskips : (skipsOf l).filter Pending.isCase = [] := by
      refine List.filter_eq_nil_iff.mpr fun p hp ↦ ?_
      rw [Pending.isCase, skipsOf_status hp]
      decide
    have hbails : (bailsAt pre l).filter Pending.isCase = [] := by
      refine List.filter_eq_nil_iff.mpr fun p hp ↦ ?_
      rw [Pending.isCase, bailsAt_status hp]
      decide
    rw [rowsOf, casesOf, List.filter_append, List.filter_append, List.filter_append, hskips, hbails,
      List.append_nil, List.append_nil, ih]
    refine congrArg (· ++ casesOf rest) (List.filter_eq_self.mpr fun p hp ↦ ?_)
    rw [Option.mem_toList, Option.map_eq_some_iff] at hp
    obtain ⟨c, hc, rfl⟩ := hp
    rw [Pending.isCase]
    rcases caseLine_status hc with hst | hst <;> rw [hst] <;> rfl

theorem filter_bails (lines : List String) : ∀ pre,
    (rowsOf pre lines).filter (·.status = .bail) = bailsOf pre lines := by
  induction lines with
  | nil => exact fun _ ↦ rfl
  | cons l rest ih =>
    intro pre
    have hskips : (skipsOf l).filter (·.status = .bail) = [] := by
      refine List.filter_eq_nil_iff.mpr fun p hp ↦ ?_
      rw [skipsOf_status hp]
      decide
    have hbails : (bailsAt pre l).filter (·.status = .bail) = bailsAt pre l :=
      List.filter_eq_self.mpr fun p hp ↦ decide_eq_true (bailsAt_status hp)
    rw [rowsOf, bailsOf, List.filter_append, List.filter_append, List.filter_append, hskips, hbails,
      List.append_nil, ih, List.filter_eq_nil_iff.mpr fun p hp ↦ ?_, List.nil_append]
    rw [Option.mem_toList, Option.map_eq_some_iff] at hp
    obtain ⟨c, hc, rfl⟩ := hp
    rcases caseLine_status hc with hst | hst <;> rw [hst] <;> exact Bool.false_ne_true

end Rows


/-! ## The texts of the rows -/

section Texts

open JsonText

/-- No control character. -/
def NoControl (s : String) : Prop := ∀ c ∈ s.toList, 32 ≤ c.toNat

instance (s : String) : Decidable (NoControl s) := inferInstanceAs (Decidable (∀ c ∈ s.toList, _))

/-- No control character but those that the full form escapes. -/
def Escapable (s : String) : Prop := ∀ c ∈ s.toList, 32 ≤ c.toNat ∨ c = '\n' ∨ c = '\t'

/-- A token that stands for itself between quotes. -/
def IsPlain (s : String) : Prop := ∀ c ∈ s.toList, c ≠ '"' ∧ c ≠ '\\' ∧ 32 ≤ c.toNat

theorem readsChars_escFull {s : String} (h : Escapable s) : ReadsChars (escFull s) s.toList := by
  refine readsChars_flatMap fun c hc ↦ ?_
  by_cases hback : c = '\\'
  · rw [if_pos hback, hback]
    exact readsChars_unescape (by decide) rfl
  by_cases hquote : c = '"'
  · rw [if_neg hback, if_pos hquote, hquote]
    exact readsChars_unescape (by decide) rfl
  by_cases hline : c = '\n'
  · rw [if_neg hback, if_neg hquote, if_pos hline, hline]
    exact readsChars_unescape (by decide) rfl
  by_cases htab : c = '\t'
  · rw [if_neg hback, if_neg hquote, if_neg hline, if_pos htab, htab]
    exact readsChars_unescape (by decide) rfl
  · rw [if_neg hback, if_neg hquote, if_neg hline, if_neg htab]
    exact readsChars_self hquote hback
      ((h c hc).resolve_right fun h ↦ h.elim hline htab)

/-- A character as `escCase` writes it. -/
def escChar (c : Char) : List Char :=
  if c = '\\' then ['\\', '\\'] else if c = '"' then ['\\', '"'] else [c]

theorem readsChars_escChar {c : Char} (h : 32 ≤ c.toNat) : ReadsChars (escChar c) [c] := by
  rw [escChar]
  by_cases hback : c = '\\'
  · rw [if_pos hback, hback]
    exact readsChars_unescape (by decide) rfl
  by_cases hquote : c = '"'
  · rw [if_neg hback, if_pos hquote, hquote]
    exact readsChars_unescape (by decide) rfl
  · rw [if_neg hback, if_neg hquote]
    exact readsChars_self hquote hback h

theorem readsChars_escCase {s : String} (h : NoControl s) : ReadsChars (escCase s) s.toList :=
  readsChars_flatMap fun c hc ↦ readsChars_escChar (h c hc)

/-- A control character is kept verbatim, and no string has one in it. -/
theorem refused_escCase {s : String} (h : ¬ NoControl s) : Refused (strText (escCase s)) := by
  obtain ⟨c, hfind⟩ : ∃ c, s.toList.find? (fun c ↦ c.toNat < 32) = some c := by
    rw [← Option.isSome_iff_exists, List.find?_isSome]
    rw [NoControl] at h
    push Not at h
    obtain ⟨c, hc, hlt⟩ := h
    exact ⟨c, hc, decide_eq_true hlt⟩
  obtain ⟨hc, pre, post, hs, hpre⟩ := List.find?_eq_some_iff_append.mp hfind
  have hlt : c.toNat < 32 := of_decide_eq_true hc
  have hself : escChar c = [c] := by
    have hback : c ≠ '\\' := by rintro rfl; exact absurd hlt (by decide)
    have hquote : c ≠ '"' := by rintro rfl; exact absurd hlt (by decide)
    rw [escChar, if_neg hback, if_neg hquote]
  have hreads : ReadsChars (pre.flatMap escChar) pre := by
    refine readsChars_flatMap fun d hd ↦ readsChars_escChar ?_
    have hd := hpre d hd
    rw [Bool.not_eq_true', decide_eq_false_iff_not] at hd
    omega
  have hesc : escCase s = pre.flatMap escChar ++ c :: post.flatMap escChar := by
    show s.toList.flatMap escChar = _
    rw [hs, List.flatMap_append, List.flatMap_cons, hself]
    rfl
  have hrefused := refused_str hreads hlt (post.flatMap escChar ++ ['"'])
  rw [strText, hesc]
  rwa [List.cons_append, List.append_assoc, List.cons_append]

theorem ucJson_eq (uc : List String) :
    ucJson uc = arrText (uc.map fun t ↦ strText t.toList) := by
  have htokens : ∀ uc, ucTokens uc ++ [']'] = itemsText (uc.map fun t ↦ strText t.toList) := by
    intro uc
    induction uc with
    | nil => rfl
    | cons t uc ih =>
      cases uc with
      | nil => rfl
      | cons next uc =>
        rw [ucTokens.eq_3 _ _ (List.cons_ne_nil _ _), List.map_cons,
          itemsText.eq_3 _ (List.map _ (next :: uc)) (List.cons_ne_nil _ _), ← ih, strText]
        simp only [List.append_assoc, List.cons_append, List.nil_append]
  rw [ucJson, arrText, ← htokens]
  rfl

/-- The members of a row, each with its text. -/
def rowMembers (suite tier : String) (uc : List String) (secs : List Char) (p : Pending) :
    List (List Char × List Char) :=
  [("suite".toList, strText (escFull suite)), ("tier".toList, strText (escFull tier)),
    ("case".toList, strText (escCase p.case_)), ("status".toList, strText p.status.asStr.toList),
    ("seconds".toList, secs), ("uc".toList, arrText (uc.map fun t ↦ strText t.toList)),
    ("detail".toList, strText (escCase p.detail))]

theorem rowText_eq (suite tier : String) (uc : List String) (secs : List Char) (p : Pending) :
    rowText suite tier uc secs p = objText (rowMembers suite tier uc secs p) := by
  rw [rowText, ucJson_eq]
  rfl

/-- What the members of a row are read as. -/
def rowEntries (suite tier : String) (uc : List String) (secs : List Char) (p : Pending) :
    List (List Char × Value) :=
  [("suite".toList, .str suite.toList), ("tier".toList, .str tier.toList),
    ("case".toList, .str p.case_.toList), ("status".toList, .str p.status.asStr.toList),
    ("seconds".toList, .num secs), ("uc".toList, .arr (uc.map fun t ↦ .str t.toList)),
    ("detail".toList, .str p.detail.toList)]

section Row

variable {suite tier : String} {uc : List String} {secs : List Char} {p : Pending}

/-- What stands before a row's own texts can be read. -/
structure Readable (suite tier : String) (uc : List String) (secs : List Char) : Prop where
  suite : Escapable suite
  tier : Escapable tier
  uc : ∀ t ∈ uc, IsPlain t
  secs : IsDecimal secs

theorem readsChars_key {k : String} (h : IsPlain k) : ReadsChars k.toList k.toList :=
  readsChars_plain h

theorem memberReads_str {k : String} {text s : List Char} (hk : IsPlain k) (h : ReadsChars text s) :
    MemberReads (k.toList, strText text) (k.toList, .str s) :=
  ⟨readsChars_key hk, reads_str h⟩

theorem isPlain_of_all {s : String}
    (h : (s.toList.all fun c ↦ c ≠ '"' && c ≠ '\\' && 32 ≤ c.toNat) = true) : IsPlain s := by
  intro c hc
  have hall := List.all_eq_true.mp h c hc
  rw [Bool.and_eq_true, Bool.and_eq_true, decide_eq_true_eq, decide_eq_true_eq,
    decide_eq_true_eq] at hall
  exact ⟨hall.1.1, hall.1.2, hall.2⟩

theorem isPlain_status (st : Status) : IsPlain st.asStr := by
  cases st <;> exact isPlain_of_all rfl

theorem reads_uc (h : ∀ t ∈ uc, IsPlain t) : Reads (arrText (uc.map fun t ↦ strText t.toList))
    (.arr (uc.map fun t ↦ .str t.toList)) := by
  refine reads_arr (fun text htext ↦ ?_) ?_
  · obtain ⟨t, -, rfl⟩ := List.mem_map.mp htext
    exact opens_str _
  · rw [List.forall₂_map_left_iff, List.forall₂_map_right_iff, List.forall₂_same]
    exact fun t ht ↦ reads_str (readsChars_plain (h t ht))

/-- The members before the detail. -/
theorem reads_head (h : Readable suite tier uc secs) (hcase : NoControl p.case_) :
    List.Forall₂ MemberReads ((rowMembers suite tier uc secs p).take 6)
      ((rowEntries suite tier uc secs p).take 6) := by
  refine .cons (memberReads_str (isPlain_of_all rfl) (readsChars_escFull h.suite)) ?_
  refine .cons (memberReads_str (isPlain_of_all rfl) (readsChars_escFull h.tier)) ?_
  refine .cons (memberReads_str (isPlain_of_all rfl) (readsChars_escCase hcase)) ?_
  refine .cons (memberReads_str (isPlain_of_all rfl) (readsChars_plain (isPlain_status _))) ?_
  refine .cons ⟨readsChars_key (isPlain_of_all rfl), reads_num h.secs⟩ ?_
  exact .cons ⟨readsChars_key (isPlain_of_all rfl), reads_uc h.uc⟩ .nil

/-- **A row is an object with its texts**, where they hold no control character. -/
theorem read_row (h : Readable suite tier uc secs) (hcase : NoControl p.case_)
    (hdetail : NoControl p.detail) :
    read (rowText suite tier uc secs p) = some (.obj (rowEntries suite tier uc secs p)) := by
  have hlast := memberReads_str (k := "detail") (isPlain_of_all rfl)
    (readsChars_escCase hdetail)
  rw [rowText_eq]
  exact read_obj (List.cons_ne_nil _ _) (List.rel_append (reads_head h hcase) (.cons hlast .nil))

/-- **A row with a control character in its texts is no value at all.** -/
theorem unread_row (h : Readable suite tier uc secs)
    (hcontrol : ¬ (NoControl p.case_ ∧ NoControl p.detail)) :
    read (rowText suite tier uc secs p) = none := by
  rw [rowText_eq]
  by_cases hcase : NoControl p.case_
  · have hdetail : ¬ NoControl p.detail := fun hd ↦ hcontrol ⟨hcase, hd⟩
    have hkey := readsChars_key (k := "detail") (isPlain_of_all rfl)
    have hmembers : rowMembers suite tier uc secs p =
        (rowMembers suite tier uc secs p).take 6 ++
          [("detail".toList, strText (escCase p.detail))] := rfl
    rw [hmembers]
    exact read_obj_of_refused (reads_head h hcase) hkey (refused_escCase hdetail)
  · have hkey := readsChars_key (k := "case") (isPlain_of_all rfl)
    have hmembers : rowMembers suite tier uc secs p = (rowMembers suite tier uc secs p).take 2 ++
        ("case".toList, strText (escCase p.case_)) :: (rowMembers suite tier uc secs p).drop 3 :=
      rfl
    have hsuite := memberReads_str (k := "suite") (isPlain_of_all rfl)
      (readsChars_escFull h.suite)
    have htier := memberReads_str (k := "tier") (isPlain_of_all rfl)
      (readsChars_escFull h.tier)
    rw [hmembers]
    exact read_obj_of_refused (.cons hsuite (.cons htier .nil)) hkey (refused_escCase hcase)

end Row

end Texts


/-! ## One row per line -/

section Lines

variable {l c w : String} {lines : List String}

theorem subset_of_stripPrefix {p r : String} (h : stripPrefix l p = some r) :
    r.toList ⊆ l.toList := by
  rw [stripPrefix_eq_some.mp h]
  exact List.subset_append_right _ _

theorem subset_of_stripCasePrefix (h : stripCasePrefix l w = some c) : c.toList ⊆ l.toList := by
  rw [stripCasePrefix, Option.bind_eq_some_iff] at h
  obtain ⟨r, hr, h⟩ := h
  rw [Option.bind_eq_some_iff] at h
  obtain ⟨rest, hrest, h⟩ := h
  split at h
  · cases h
  · have hc := subset_of_stripPrefix h
    rw [String.toList_ofList] at hc
    have hdrop := List.Subset.trans hc (List.dropWhile_subset _)
    exact List.Subset.trans (List.Subset.trans hdrop (subset_of_stripPrefix hrest))
      (subset_of_stripPrefix hr)

theorem newline_notMem_detailOf (h : ∀ l ∈ lines, '\n' ∉ l.toList) :
    '\n' ∉ (detailOf lines).toList := by
  induction lines with
  | nil => exact List.not_mem_nil
  | cons l rest ih =>
    have hrest := ih fun m hm ↦ h m (List.mem_cons_of_mem l hm)
    rw [detailOf]
    split
    · exact List.not_mem_nil
    · rename_i t ht
      split
      · exact hrest
      · exact fun hn ↦ h l List.mem_cons_self (subset_of_stripPrefix ht hn)

/-- The texts of a row stand on one line. -/
def Pending.OneLine (p : Pending) : Prop := '\n' ∉ p.case_.toList ∧ '\n' ∉ p.detail.toList

theorem oneLine_rowsOf (h : ∀ l ∈ lines, '\n' ∉ l.toList) :
    ∀ pre, ∀ p ∈ rowsOf pre lines, p.OneLine := by
  induction lines with
  | nil => exact fun _ p hp ↦ absurd hp List.not_mem_nil
  | cons l rest ih =>
    have hl := h l List.mem_cons_self
    have hrest : ∀ m ∈ rest, '\n' ∉ m.toList := fun m hm ↦ h m (List.mem_cons_of_mem l hm)
    have hsuite : '\n' ∉ "(suite)".toList := by decide
    intro pre p hp
    rw [rowsOf, List.mem_append, List.mem_append, List.mem_append] at hp
    obtain ((hp | hp) | hp) | hp := hp
    · rw [Option.mem_toList, Option.map_eq_some_iff] at hp
      obtain ⟨⟨c, st⟩, hc, rfl⟩ := hp
      have hcase : c.toList ⊆ l.toList := by
        rw [caseLine] at hc
        split at hc
        · rename_i hok
          cases hc
          exact subset_of_stripCasePrefix hok
        · obtain ⟨c', hc', heq⟩ := Option.map_eq_some_iff.mp hc
          cases heq
          exact subset_of_stripCasePrefix hc'
      refine ⟨fun hn ↦ hl (hcase hn), ?_⟩
      dsimp only
      split
      · exact newline_notMem_detailOf hrest
      · exact List.not_mem_nil
    · rw [skipsOf, Option.mem_toList, Option.map_eq_some_iff] at hp
      obtain ⟨d, hd, rfl⟩ := hp
      exact ⟨hsuite, fun hn ↦ hl (subset_of_stripPrefix hd hn)⟩
    · rw [bailsAt] at hp
      split at hp
      · cases hp
      · rw [Option.mem_toList, Option.map_eq_some_iff] at hp
        obtain ⟨d, hd, rfl⟩ := hp
        exact ⟨hsuite, fun hn ↦ hl (subset_of_stripPrefix hd hn)⟩
    · exact ih hrest (pre ++ [l]) p hp

theorem newline_notMem_lines (s : String) {l : String} (h : l ∈ Text.lines s) :
    '\n' ∉ l.toList := by
  rw [Text.lines, List.mem_map] at h
  obtain ⟨m, hm, rfl⟩ := h
  rw [String.toList_ofList]
  exact Text.newline_notMem_linesFrom List.not_mem_nil hm

theorem newline_notMem_escFull (s : String) : '\n' ∉ escFull s := by
  rw [escFull, List.mem_flatMap]
  rintro ⟨c, -, hc⟩
  split_ifs at hc with h₁ h₂ h₃ h₄
  · exact absurd hc (by decide)
  · exact absurd hc (by decide)
  · exact absurd hc (by decide)
  · exact absurd hc (by decide)
  · exact h₃ (List.mem_singleton.mp hc).symm

theorem newline_notMem_escCase {s : String} (h : '\n' ∉ s.toList) : '\n' ∉ escCase s := by
  rw [escCase, List.mem_flatMap]
  rintro ⟨c, hc, hn⟩
  split_ifs at hn
  · exact absurd hn (by decide)
  · exact absurd hn (by decide)
  · exact h ((List.mem_singleton.mp hn) ▸ hc)

theorem newline_notMem_field {k : String} {v : List Char} (hk : '\n' ∉ k.toList) (hv : '\n' ∉ v) :
    '\n' ∉ field k v := by
  have hquoted : '\n' ∉ quoted k.toList := by
    rw [quoted, List.mem_append, List.mem_cons, not_or, not_or]
    exact ⟨⟨by decide, hk⟩, by decide⟩
  rw [field, List.mem_append, List.mem_cons, not_or, not_or]
  exact ⟨hquoted, by decide, hv⟩

theorem newline_notMem_quoted {v : List Char} (hv : '\n' ∉ v) : '\n' ∉ quoted v := by
  rw [quoted, List.mem_append, List.mem_cons, not_or, not_or]
  exact ⟨⟨by decide, hv⟩, by decide⟩

theorem newline_notMem_ucJson {uc : List String} (h : ∀ t ∈ uc, '\n' ∉ t.toList) :
    '\n' ∉ ucJson uc := by
  have htokens : '\n' ∉ ucTokens uc := by
    induction uc with
    | nil => exact List.not_mem_nil
    | cons t uc ih =>
      have ht := newline_notMem_quoted (h t List.mem_cons_self)
      have hrest := ih fun u hu ↦ h u (List.mem_cons_of_mem t hu)
      cases uc with
      | nil => exact ht
      | cons next uc =>
        have heq : ucTokens (t :: next :: uc) =
            quoted t.toList ++ ',' :: ucTokens (next :: uc) := by
          rw [ucTokens.eq_3 _ _ (List.cons_ne_nil _ _), quoted, List.append_assoc,
            List.singleton_append]
        rw [heq, List.mem_append, List.mem_cons, not_or, not_or]
        exact ⟨ht, by decide, hrest⟩
  rw [ucJson, List.mem_append, List.mem_cons, not_or, not_or]
  exact ⟨⟨by decide, htokens⟩, by decide⟩

theorem newline_notMem_decimal {secs : List Char} (h : JsonText.IsDecimal secs) : '\n' ∉ secs := by
  have hdigits {d : List Char} (hd : d.all Char.isDigit = true) : '\n' ∉ d := by
    intro hn
    exact absurd (List.all_eq_true.mp hd '\n' hn) (by decide)
  obtain ⟨w, f, rfl, hw, hf⟩ := h
  rw [List.mem_append, not_or]
  refine ⟨?_, ?_⟩
  · obtain rfl | ⟨-, hd, -⟩ := hw
    · decide
    · exact hdigits hd
  · obtain rfl | ⟨d, rfl, -, hd⟩ := hf
    · exact List.not_mem_nil
    · rw [List.mem_cons, not_or]
      exact ⟨by decide, hdigits hd⟩

theorem newline_notMem_ucOf (source : String) {t : String} (h : t ∈ ucOf source) :
    '\n' ∉ t.toList := by
  have hcovers : ∀ lines, ∀ ts, coversFrom lines = some ts → ∀ t ∈ ts, '\n' ∉ t.toList := by
    intro lines
    induction lines with
    | nil => exact fun ts hts ↦ absurd hts (Option.some_ne_none ts).symm
    | cons l more ih =>
      intro ts hts t ht
      rw [coversFrom] at hts
      split at hts
      · cases hts
        rw [Text.words, Text.fields, List.mem_map] at ht
        obtain ⟨m, hm, rfl⟩ := ht
        rw [String.toList_ofList]
        intro hn
        have hsep := Text.sep_notMem_fieldsFrom (fun c hc ↦ absurd hc List.not_mem_nil) hm hn
        exact absurd hsep (by decide)
      · exact ih ts hts t ht
  rw [ucOf, List.mem_filter] at h
  obtain hnone | ⟨ts, hts⟩ := (coversOf source).eq_none_or_eq_some
  · rw [hnone] at h
    exact absurd h.1 List.not_mem_nil
  · rw [hts] at h
    exact hcovers _ ts hts t h.1

/-- Each row stands on one line. -/
theorem newline_notMem_rowText {suite source : String} {secs : List Char} {p : Pending}
    (hsecs : JsonText.IsDecimal secs) (hp : p.OneLine) :
    '\n' ∉ rowText suite (tier source) (ucOf source) secs p := by
  have hsuite := newline_notMem_field (k := "suite") (by decide)
    (newline_notMem_quoted (newline_notMem_escFull suite))
  have htier := newline_notMem_field (k := "tier") (by decide)
    (newline_notMem_quoted (newline_notMem_escFull (tier source)))
  have hcase := newline_notMem_field (k := "case") (by decide)
    (newline_notMem_quoted (newline_notMem_escCase hp.1))
  have hstatus := newline_notMem_field (k := "status") (v := quoted p.status.asStr.toList)
    (by decide) (by cases p.status <;> decide)
  have hseconds := newline_notMem_field (k := "seconds") (by decide) (newline_notMem_decimal hsecs)
  have huc := newline_notMem_field (k := "uc") (by decide)
    (newline_notMem_ucJson fun t ht ↦ newline_notMem_ucOf source ht)
  have hdetail := newline_notMem_field (k := "detail") (by decide)
    (newline_notMem_quoted (newline_notMem_escCase hp.2))
  have hcomma : '\n' ≠ ',' := by decide
  have hopen : '\n' ≠ '\x7b' := by decide
  have hclose : '\n' ≠ '\x7d' := by decide
  rw [rowText]
  simp only [List.mem_cons, List.mem_append, not_or, List.not_mem_nil, not_false_iff, and_true]
  exact ⟨hopen, hsuite, hcomma, htier, hcomma, hcase, hcomma, hstatus, hcomma, hseconds, hcomma,
    huc, hcomma, hdetail, hclose⟩

end Lines

/-! ## Readings that panic -/

theorem sliceAt_byteLen (pre post : List Char) :
    sliceAt (byteLen pre) (pre ++ post) = some (pre, post) := by
  induction pre with
  | nil => cases post <;> rfl
  | cons c pre ih =>
    have hlen : byteLen (c :: pre) = c.utf8Size + byteLen pre := rfl
    have hpos := c.utf8Size_pos
    obtain ⟨n, hn⟩ := Nat.exists_eq_add_one_of_ne_zero (by omega : c.utf8Size + byteLen pre ≠ 0)
    rw [hlen, hn, List.cons_append, sliceAt, if_pos (by omega)]
    have hsub : n + 1 - c.utf8Size = byteLen pre := by omega
    rw [hsub, ih]
    rfl

/-- The digits of a case number end between characters. -/
theorem openCase_isSome (status : CaseStatus) (rest : String) :
    (openCase status rest).isSome = true := by
  have hcut := sliceAt_byteLen ((trimStart rest).toList.takeWhile Char.isDigit)
    ((trimStart rest).toList.dropWhile Char.isDigit)
  rw [List.takeWhile_append_dropWhile] at hcut
  rw [openCase]
  dsimp only
  rw [hcut]
  rfl

theorem push_isSome (t : TapSummary) (line rest : String) (plain : CaseStatus) :
    (t.push line rest plain).isSome = true := by
  rw [TapSummary.push]
  split
  · rw [Option.isSome_map]
    exact openCase_isSome _ _
  · rfl

theorem line_isSome (t : TapSummary) (raw : String) : (t.line raw).isSome = true := by
  rw [TapSummary.line]
  split
  · rfl
  split
  · rfl
  split
  · split <;> rfl
  split
  · rfl
  split
  · exact push_isSome _ _ _ _
  split
  · exact push_isSome _ _ _ _
  · rfl

/-- No output makes `parse` panic. -/
theorem parse_isSome (output : String) : (parse output).isSome = true := by
  have hfold : ∀ (lines : List String) (t : TapSummary),
      (lines.foldlM TapSummary.line t).isSome = true := by
    intro lines
    induction lines with
    | nil => exact fun _ ↦ rfl
    | cons l lines ih =>
      intro t
      obtain ⟨t', ht⟩ := Option.isSome_iff_exists.mp (line_isSome t l)
      rw [List.foldlM_cons, ht]
      exact ih t'
  exact hfold _ _

/-- A cut fails just where it is inside a character or past the end. -/
theorem sliceAt_eq_none {n : ℕ} {s : List Char} :
    sliceAt n s = none ↔ ∀ pre post, s = pre ++ post → byteLen pre ≠ n := by
  induction s generalizing n with
  | nil =>
    cases n with
    | zero => exact iff_of_false (Option.some_ne_none _) fun h ↦ h [] [] rfl rfl
    | succ n =>
      refine iff_of_true rfl fun pre post h ↦ ?_
      rw [(List.append_eq_nil_iff.mp h.symm).1]
      exact (Nat.succ_ne_zero n).symm
  | cons c s ih =>
    cases n with
    | zero => exact iff_of_false (Option.some_ne_none _) fun h ↦ h [] (c :: s) rfl rfl
    | succ n =>
      rw [sliceAt]
      have hcons (pre : List Char) : byteLen (c :: pre) = c.utf8Size + byteLen pre := rfl
      by_cases hle : c.utf8Size ≤ n + 1
      · rw [if_pos hle, Option.map_eq_none_iff, ih]
        constructor
        · intro h pre post heq
          cases pre with
          | nil => exact (Nat.succ_ne_zero n).symm
          | cons d pre =>
            obtain ⟨rfl, hs⟩ := List.cons.inj heq
            have hpre := h pre post hs
            rw [hcons]
            omega
        · intro h pre post heq hpre
          refine h (c :: pre) post (by rw [heq, List.cons_append]) ?_
          rw [hcons]
          omega
      · rw [if_neg hle]
        refine iff_of_true rfl fun pre post heq ↦ ?_
        cases pre with
        | nil => exact (Nat.succ_ne_zero n).symm
        | cons d pre =>
          obtain ⟨rfl, -⟩ := List.cons.inj heq
          rw [hcons]
          omega

/-- The directive of a line is cut inside a character. -/
def Cuts (raw : String) : Prop :=
  ∃ d, skipDirective raw = some d ∧ 4 ≤ byteLen d ∧ ∀ pre post, d = pre ++ post → byteLen pre ≠ 4

theorem skipAt_eq_none {raw : String} : skipAt raw = none ↔ Cuts raw := by
  rw [skipAt, Cuts]
  obtain hnone | ⟨d, hd⟩ := (skipDirective raw).eq_none_or_eq_some
  · rw [hnone]
    refine iff_of_false (Option.some_ne_none _) ?_
    rintro ⟨d, hd, -⟩
    cases hd
  · rw [hd]
    dsimp only
    by_cases hlen : byteLen d ≥ 4
    · rw [if_pos hlen, Option.map_eq_none_iff, sliceAt_eq_none]
      constructor
      · exact fun h ↦ ⟨d, rfl, hlen, h⟩
      · rintro ⟨d', hd', -, h⟩
        cases hd'
        exact h
    · rw [if_neg hlen]
      refine iff_of_false (Option.some_ne_none _) ?_
      rintro ⟨d', hd', hlen', -⟩
      cases hd'
      exact hlen hlen'

/-- **Reading a skip of the whole suite panics** just where a line cuts inside a character, and no
line before it names a reason. -/
theorem skipAllReason_panics (output : String) : skipAllReason output = none ↔
    ∃ pre raw post, Text.lines output = pre ++ raw :: post ∧ Cuts raw ∧
      ∀ l ∈ pre, skipAt l = some none := by
  have hfrom : ∀ lines : List String, skipAllFrom lines = none ↔ ∃ pre raw post,
      lines = pre ++ raw :: post ∧ Cuts raw ∧ ∀ l ∈ pre, skipAt l = some none := by
    intro lines
    induction lines with
    | nil =>
      refine iff_of_false (Option.some_ne_none _) ?_
      rintro ⟨pre, raw, post, h, -⟩
      exact List.append_ne_nil_of_right_ne_nil pre (List.cons_ne_nil raw post) h.symm
    | cons l rest ih =>
      -- The first line that does not let the reading go on decides.
      have hfirst {pre post : List String} {raw : String} (heq : l :: rest = pre ++ raw :: post)
          (hpre : ∀ m ∈ pre, skipAt m = some none) (hl : skipAt l ≠ some none) : raw = l := by
        cases pre with
        | nil => exact (List.cons.inj heq).1.symm
        | cons m pre =>
          obtain ⟨rfl, -⟩ := List.cons.inj heq
          exact absurd (hpre l List.mem_cons_self) hl
      rw [skipAllFrom]
      obtain hnone | ⟨found, hfound⟩ := (skipAt l).eq_none_or_eq_some
      · rw [hnone, Option.bind_none]
        exact iff_of_true rfl ⟨[], l, rest, rfl, skipAt_eq_none.mp hnone,
          fun m hm ↦ absurd hm List.not_mem_nil⟩
      · obtain rfl | ⟨reason, rfl⟩ := found.eq_none_or_eq_some
        · rw [hfound, Option.bind_some, ih]
          constructor
          · rintro ⟨pre, raw, post, rfl, hcuts, hpre⟩
            refine ⟨l :: pre, raw, post, rfl, hcuts, fun m hm ↦ ?_⟩
            rcases List.mem_cons.mp hm with rfl | hm
            · exact hfound
            · exact hpre m hm
          · rintro ⟨pre, raw, post, heq, hcuts, hpre⟩
            cases pre with
            | nil =>
              obtain ⟨rfl, -⟩ := List.cons.inj heq
              rw [skipAt_eq_none.mpr hcuts] at hfound
              cases hfound
            | cons m pre =>
              obtain ⟨rfl, rfl⟩ := List.cons.inj heq
              exact ⟨pre, raw, post, rfl, hcuts, fun n hn ↦ hpre n (List.mem_cons_of_mem l hn)⟩
        · rw [hfound, Option.bind_some]
          refine iff_of_false (Option.some_ne_none _) ?_
          rintro ⟨pre, raw, post, heq, hcuts, hpre⟩
          have hstops : skipAt l ≠ some none := by
            rw [hfound]
            intro h
            cases h
          rw [← hfirst heq hpre hstops, skipAt_eq_none.mpr hcuts] at hfound
          cases hfound
  exact hfrom _

/-! ## The rows of an output -/

/-- A failing case with its detail, and the bail-out that it was. -/
def failed : String := "TAP version 14\nok 1 - a\nnot ok 2 - b\n# why\nBail out! b\n"

end Spira.Tap
