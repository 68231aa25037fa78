import Mathlib.Algebra.GroupWithZero.Nat
import Mathlib.Algebra.Ring.Int.Defs
import Mathlib.Data.Int.Notation
import Mathlib.Data.List.Sort
import Spira.Lib.Text

/-!
# The fold of a bead's events

Attempts, requeues and reclaims of one bead, from the rows of its events.  The rows are put in
order, by second and then by kind; `fold` then goes through them once.

A claim opens an attempt, and a close or a return that is not charged ends it.  A close or an
exempt row that finds no attempt open is a credit, which forgives a charged attempt.
-/

set_option autoImplicit false

namespace Spira.Claim

/-! ## Rows and kinds -/

/-- One row of the events, only the columns selected. -/
structure EventRow where
  issueId : String
  eventType : String
  newValue : Option String
  createdAt : String
  deriving DecidableEq, Repr

/-- The event kinds the fold reads; every other event type is ignored. -/
inductive EventKind
  | claim
  | close
  | requeued (cause : String)
  /-- A reopening, without a cause. -/
  | reopened
  /-- The row that gives the cause of a reopening. -/
  | reopen (cause : String)
  | reclaimed
  | poisonCleared
  deriving DecidableEq, Repr

def contains (s p : String) : Bool := s.toList.tails.any p.toList.isPrefixOf

def EventKind.of (row : EventRow) : Option EventKind :=
  let v := row.newValue.getD ""
  match row.eventType with
  | "claimed" => some .claim
  | "status_changed" => if contains v "in_progress" then some .claim else none
  | "closed" => some .close
  | "requeued" => some (.requeued v)
  | "reopened" => some .reopened
  | "reopen" => some (.reopen v)
  | "reclaimed" => some .reclaimed
  | "poison.cleared" => some .poisonCleared
  | _ => none

/-- Same-second tie-break: a claim precedes the close it ends, and a reopening the row that gives
its cause. -/
def EventKind.precedence : EventKind → ℕ
  | poisonCleared => 0
  | claim => 1
  | close => 2
  | requeued _ | reclaimed => 3
  | reopened => 4
  | reopen _ => 5

/-! ## Causes -/

/-- What a return says about the work. -/
inductive ReturnClass
  | notAReturn
  /-- The base moved; the work was not judged. -/
  | rebaseReturn
  /-- The harness returned it without judging it. -/
  | harnessReturn
  /-- The work was judged and found wanting. -/
  | judged
  /-- A cause no one has promoted to the allow-list: never charged. -/
  | unlisted
  deriving DecidableEq, Repr

/-- Causes that charge outright. -/
def codeFaultCauses : List String :=
  ["batch-eject", "queue-eject-local", "fast-tier-red", "resubmit-conflict", "unit-fail", "unit-red"]

def isLegacyExempt (cause : String) : Bool := cause == "thrash" || Text.startsWith cause "unjudged"

def noVerdictCause : String := "gate-no-verdict"

def isNoVerdict (cause : String) : Bool :=
  let c := Text.trim cause
  c == noVerdictCause || Text.startsWith c "gate-no-verdict:"

def baseRedCause : String := "gate-base-red"

def isBaseRed (cause : String) : Bool :=
  let c := Text.trim cause
  c == baseRedCause || Text.startsWith c "gate-base-red:"

def toAsciiLowercase (s : String) : String := String.ofList (s.toList.map Char.toLower)

/-- Classify a cause: the harness and rebase tables first, then the code-fault allow-list; any
other cause is unlisted and uncharged. -/
def classify (cause : String) : ReturnClass :=
  let c := Text.trim cause
  let lc := toAsciiLowercase c
  if isNoVerdict c || isBaseRed c then .harnessReturn
  else if c ∈ ["work-close-converted", "recurrence", "closed-while-live", "alert-recur"] then
    .notAReturn
  else if c ∈ ["eject", "queue-eject", "queue-eject-collateral", "ejected", "eviction-race", "slain",
      "fast-tier-harness", "closed-never-landed-batch-ready"] then
    .harnessReturn
  else if isLegacyExempt c then .harnessReturn
  else if c ∈ codeFaultCauses then .judged
  -- By token, so that "delivered" or "cleared" never reads as a red.
  else if (Text.fields (!·.isAlphanum) lc).contains "red" then .judged
  else if contains lc "conflict" || Text.startsWith lc "rebase" || Text.startsWith lc "no-rebase" ||
      contains lc "stale" || Text.startsWith lc "base_withdrawn" then
    .rebaseReturn
  else .unlisted

/-! ## Times -/

/-- The text with the blank at byte 10 made a `T`, where there is one. -/
def putT : ℕ → List Char → List Char
  | _, [] => []
  | n, c :: rest => if n = 10 ∧ c = ' ' then 'T' :: rest else c :: putT (n + c.utf8Size) rest

/-- The first 19 characters of a time, trimmed, with a `T` between date and time. -/
def normTs (s : String) : String :=
  let out := (Text.trim s).toList.take 19
  if (out.map Char.utf8Size).sum = 19 then String.ofList (putT 0 out) else String.ofList out

/-- A number in decimal digits. -/
def digits : List UInt8 → Option ℤ
  | [] => none
  | b :: rest => (b :: rest).foldlM (fun (n : ℤ) b ↦
      if 48 ≤ b.toNat ∧ b.toNat ≤ 57 then some (10 * n + (b.toNat - 48 : ℕ)) else none) 0

/-- A number with or without a sign. -/
def parseI64 : List UInt8 → Option ℤ
  | 43 :: rest => digits rest
  | 45 :: rest => (digits rest).map (-·)
  | l => digits l

/-- Seconds since the epoch for a normalized time, where it parses. -/
def epochS (ts : String) : Option ℤ := do
  let b := ts.toList.flatMap String.utf8EncodeChar
  if b.length < 19 then none else
  let num (lo hi : ℕ) : Option ℤ := parseI64 ((b.take hi).drop lo)
  let y ← num 0 4
  let m ← num 5 7
  let d ← num 8 10
  let hh ← num 11 13
  let mm ← num 14 16
  let ss ← num 17 19
  let y2 := if m ≤ 2 then y - 1 else y
  let era := (if 0 ≤ y2 then y2 else y2 - 399).tdiv 400
  let yoe := y2 - era * 400
  let mp := (m + 9).tmod 12
  let doy := (153 * mp + 2).tdiv 5 + d - 1
  let doe := yoe * 365 + yoe.tdiv 4 - yoe.tdiv 100 + doy
  let days := era * 146097 + doe - 719468
  return days * 86400 + hh * 3600 + mm * 60 + ss

/-- A cause this many seconds after a reopening is the cause of it. -/
def pairWindowS : ℤ := 120

/-- A second claim this close behind an open one is one claim seen twice. -/
def doubleClaimWindowS : ℤ := 10

/-! ## Events in order -/

/-- An event of a bead at its time. -/
abbrev Event := String × EventKind

/-- Whether an event is no later than another: by second, then by kind. -/
def Event.le (a b : Event) : Prop :=
  a.1 < b.1 ∨ (a.1 = b.1 ∧ a.2.precedence ≤ b.2.precedence)

instance : DecidableRel Event.le := fun a b ↦
  inferInstanceAs (Decidable (a.1 < b.1 ∨ (a.1 = b.1 ∧ a.2.precedence ≤ b.2.precedence)))

/-- The events of the rows. -/
def eventsOf (rows : List EventRow) : List Event :=
  rows.filterMap fun r ↦ (EventKind.of r).map fun k ↦ (normTs r.createdAt, k)

/-- The events of one bead's rows in order; events that tie stay as the rows stand. -/
def ordered (rows : List EventRow) : List Event := (eventsOf rows).insertionSort Event.le

/-! ## The fold -/

inductive AttemptOutcome
  | succeeded
  | exempt (why : String)
  | charged (why : String)
  deriving DecidableEq, Repr

structure Attempt where
  claimedAt : String
  outcome : AttemptOutcome
  deriving DecidableEq, Repr

def Attempt.isCharged (a : Attempt) : Bool :=
  match a.outcome with
  | .charged _ => true
  | _ => false

structure Return where
  at_ : String
  cause : String
  class_ : ReturnClass
  /-- Whether this return counts toward `requeues`. -/
  counts : Bool
  deriving DecidableEq, Repr

/-- The answer for one bead. -/
structure Ledger where
  bead : String
  /-- The last time the poison was cleared; attempts count only events strictly after it. -/
  floor : Option String
  attempts : ℕ
  requeues : ℕ
  reclaims : ℕ
  legacyCredits : ℕ
  attemptLog : List Attempt
  returns : List Return
  deriving DecidableEq, Repr

/-- What the fold has of the events so far. -/
structure Tally where
  attemptLog : List Attempt := []
  openAt : Option String := none
  credits : ℕ := 0
  spentByNoVerdict : Bool := false

/-- The open attempt ends so. -/
def Tally.push (s : Tally) (at_ : String) (outcome : AttemptOutcome) : Tally :=
  { s with attemptLog := s.attemptLog ++ [⟨at_, outcome⟩], openAt := none }

/-- Whether a claim is the open one seen again. -/
def sameClaim (openAt : Option String) (t : String) : Bool :=
  match openAt.bind epochS, epochS t with
  | some at_, some now => now - at_ ≤ doubleClaimWindowS
  | _, _ => false

/-- Whether a return of this class is not charged. -/
def ReturnClass.uncharged (c : ReturnClass) : Bool :=
  c == rebaseReturn || c == harnessReturn || c == unlisted

def Tally.return_ (s : Tally) (c : String) : Tally :=
  if (classify c).uncharged then
    match s.openAt with
    | some at_ =>
      { s.push at_ (.exempt c) with spentByNoVerdict := isNoVerdict c || isBaseRed c }
    | none => s
  else s

def Tally.step (s : Tally) : Event → Tally
  | (t, .claim) =>
    if sameClaim s.openAt t then s
    else
      let s' := match s.openAt with
        | some at_ => s.push at_ (.charged "claimed again without a close")
        | none => s
      { s' with spentByNoVerdict := false, openAt := some t }
  | (_, .close) => match s.openAt with
    | some at_ => s.push at_ .succeeded
    | none =>
      if s.spentByNoVerdict then { s with spentByNoVerdict := false }
      else { s with credits := s.credits + 1 }
  | (_, .requeued c) =>
    if isLegacyExempt c then
      match s.openAt with
      | some at_ => s.push at_ (.exempt c)
      | none => { s with credits := s.credits + 1 }
    else s.return_ c
  | (_, .reopen c) => s.return_ c
  | (_, .reopened) | (_, .reclaimed) | (_, .poisonCleared) => s

/-- The tally at the end: an attempt still open is charged. -/
def Tally.finish (s : Tally) : Tally :=
  match s.openAt with
  | some at_ => s.push at_ (.charged "still open")
  | none => s

/-- The last time the poison was cleared. -/
def floorOf (evs : List Event) : Option String :=
  ((evs.filter (·.2 = .poisonCleared)).map Prod.fst).max?

/-- The events strictly after the floor. -/
def afterFloor (evs : List Event) : List Event :=
  evs.filter fun e ↦ (floorOf evs).all (· < e.1)

def tallyOf (evs : List Event) : Tally := ((afterFloor evs).foldl Tally.step {}).finish

def attemptsOf (evs : List Event) : ℕ :=
  (tallyOf evs).attemptLog.countP Attempt.isCharged - (tallyOf evs).credits

def i64Min : ℤ := -2 ^ 63

/-- The times and places of the rows that give causes. -/
def causeRows (evs : List Event) : List (ℤ × ℕ) :=
  evs.zipIdx.filterMap fun p ↦ match p.1.2 with
    | .reopen _ => some ((epochS p.1.1).getD i64Min, p.2)
    | _ => none

/-- The reopenings that no cause is paired with, each cause being paired once. -/
def bareFrom (causes : List (ℤ × ℕ)) : List ℕ → List (Event × ℕ) → List String
  | _, [] => []
  | paired, (e, i) :: rest =>
    if e.2 = .reopened then
      match causes.find? fun c ↦ i < c.2 ∧ c.2 ∉ paired ∧
          (epochS e.1).any fun a ↦ a ≤ c.1 ∧ c.1 - a ≤ pairWindowS with
      | some c => bareFrom causes (c.2 :: paired) rest
      | none => e.1 :: bareFrom causes paired rest
    else bareFrom causes paired rest

/-- The times of the reopenings without a cause. -/
def bareReopened (evs : List Event) : List String := bareFrom (causeRows evs) [] evs.zipIdx

/-- The returns: every cause row, and the reopenings without one; the floor does not matter. -/
def returnsOf (evs : List Event) : List Return :=
  ((bareReopened evs).map fun t ↦ (⟨t, "unrecorded", .judged, true⟩ : Return)) ++
    evs.filterMap fun e ↦ match e.2 with
      | .reopen c => some ⟨e.1, c, classify c, classify c = .judged⟩
      | _ => none

/-- Fold one bead's rows; rows of other beads are ignored. -/
def fold (bead : String) (rows : List EventRow) : Ledger :=
  let evs := ordered (rows.filter (·.issueId = bead))
  let returns := (returnsOf evs).insertionSort (·.at_ ≤ ·.at_)
  { bead := bead
    floor := floorOf evs
    attempts := attemptsOf evs
    requeues := returns.countP (·.counts)
    reclaims := evs.countP (·.2 = .reclaimed)
    legacyCredits := (tallyOf evs).credits
    attemptLog := (tallyOf evs).attemptLog
    returns := returns }

end Spira.Claim
