import Mathlib.Algebra.Ring.Int.Defs
import Mathlib.Data.Finset.Insert
import Mathlib.Data.List.Nodup
import Mathlib.Data.String.Basic
import Mathlib.Logic.Function.Basic
import Spira.Lib.Digits
import Spira.Lib.History
import Spira.Lib.Text

/-!
# The hold sweep

Every held bead is visited at each pass, and moved one step for its kind.  `decide` is the rule for
one hold; `sweep` walks the holds, and keeps for each key when it last acted.

That one time stands for all duties of the key, so a question that is delivered in the second of the
pass that raised it counts as resurfaced (`raised_never_resurfaced`).  Each duty is done once where
no placement or question that is new to a key is as old as the last action on it (`duties`).
-/

set_option autoImplicit false

namespace Spira.Engine

def askResurfaceSecs : ℕ := 24 * 3600
def poisonDiagnoseSecs : ℕ := 24 * 3600
def manualRemindSecs : ℕ := 72 * 3600

inductive Kind
  | wait
  | ask
  | poison
  | operator
  deriving DecidableEq

def Kind.asStr : Kind → String
  | wait => "wait"
  | ask => "ask"
  | poison => "poison"
  | operator => "operator"

structure Hold where
  bead : String
  kind : Kind
  /-- When this hold was placed; `none` when the store carries no record of it. -/
  since : Option ℕ
  /-- The hold's own reason text. -/
  detail : Option String
  /-- Who placed it. -/
  actor : Option String
  deriving DecidableEq

def keyOf (bead : String) (kind : Kind) : String := "holds:" ++ bead ++ ":" ++ kind.asStr

def Hold.key (h : Hold) : String := keyOf h.bead h.kind

/-- The newest delivered question about a bead, and the mailbox it went to. -/
structure AskMail where
  deliveredAt : ℕ
  mailbox : String
  deriving DecidableEq

/-- A claim that ended without a submit. -/
structure Exit where
  endedAt : ℕ
  note : String
  deriving DecidableEq

/-- So many exits inside the window trip the breaker. -/
structure Breaker where
  claims : ℕ
  windowSecs : ℕ
  claims_pos : 0 < claims

def Breaker.new (claims windowMinutes : ℕ) : Except String Breaker :=
  if h : claims = 0 ∨ windowMinutes = 0 then
    .error ("no-progress breaker needs claims >= 1 and a window >= 1 minute, got " ++
      toString claims ++ " and " ++ toString windowMinutes)
  else .ok ⟨claims, windowMinutes * 60, Nat.pos_of_ne_zero (not_or.mp h).1⟩

/-- The runs of `n` in a list. -/
def windows {α : Type} (n : ℕ) (l : List α) : List (List α) :=
  (List.range (l.length + 1 - n)).map fun i ↦ (l.drop i).take n

/-- The first run of `claims` consecutive exits, oldest first, whose ends fit the window. -/
def Breaker.tripped (b : Breaker) (exits : List Exit) : Option (List Exit) :=
  (windows b.claims exits).find? fun w ↦
    (w.getLast?.map Exit.endedAt).getD 0 - (w.head?.map Exit.endedAt).getD 0 ≤ b.windowSecs

inductive Action
  | tripBreaker (exits : List Exit) (windowSecs : ℕ)
  | liftWait (untilTime : ℕ)
  | raiseAsk
  | resurfaceAsk (deliveredAt : ℕ) (mailbox : String)
  | diagnosePoison
  | remindManual
  deriving DecidableEq

/-- A number of 64 bits with a sign, as a text has it. -/
def parseI64 (s : String) : Option ℤ :=
  let l := s.toList
  let digits := if l.head? = some '+' ∨ l.head? = some '-' then l.tail else l
  let n : ℤ := if l.head? = some '-' then -(Digits.value digits : ℤ) else Digits.value digits
  if digits ≠ [] ∧ digits.all Char.isDigit ∧ -2 ^ 63 ≤ n ∧ n < 2 ^ 63 then some n else none

def stripPrefix (s p : String) : Option String :=
  if Text.startsWith s p then some (String.ofList (s.toList.drop p.length)) else none

/-- When the snooze of a `wait` hold ends. -/
def snoozeUntil (reason : String) : Option ℤ := do
  let rest ← stripPrefix reason "snooze-until:" <|> stripPrefix reason "checkpoint-until:"
  let word ← (Text.words rest).head?
  parseI64 word

/-- Each kind acts at its threshold and not before. -/
def decide (now : ℕ) (hold : Hold) (ask : Option AskMail) (lastActed : Option ℕ) : Option Action :=
  match hold.kind with
  | .wait => do
    let detail ← hold.detail
    let untilTime ← snoozeUntil detail
    if 0 ≤ untilTime ∧ untilTime < now then some (.liftWait untilTime.toNat) else none
  | .ask =>
    match ask with
    | none =>
      let recently := lastActed.any fun t ↦ now - t < askResurfaceSecs
      if !recently then some .raiseAsk else none
    | some m =>
      let stale := askResurfaceSecs ≤ now - m.deliveredAt
      let done := lastActed.any fun t ↦ m.deliveredAt ≤ t
      if stale && !done then some (.resurfaceAsk m.deliveredAt m.mailbox) else none
  | .poison => do
    let since ← hold.since
    let done := lastActed.any fun t ↦ since ≤ t
    if poisonDiagnoseSecs ≤ now - since && !done then some .diagnosePoison else none
  | .operator => do
    let since ← hold.since
    let due := lastActed.all fun t ↦ manualRemindSecs ≤ now - t
    if manualRemindSecs ≤ now - since && due then some .remindManual else none

/-- What is kept between passes: when the sweep last ran, and when it last acted on each hold. -/
structure SweepState where
  lastPass : ℕ := 0
  acted : String → Option ℕ := fun _ ↦ none

inductive Outcome
  | done
  /-- The kill switch held the action back. -/
  | shadowed
  | failed (e : String)
  deriving DecidableEq

structure Taken where
  key : String
  bead : String
  kind : Kind
  action : Action
  outcome : Outcome
  deriving DecidableEq

structure Report where
  visited : ℕ
  taken : List Taken := []
  wanted : Finset String := ∅
  seen : Finset String := ∅
  skipped : List String := []

/-- What the sweep reads and does. -/
structure Env where
  holds : Except String (List Hold)
  asks : Except String (String → Option AskMail)
  exits : String → Except String (List Exit)
  act : Hold → Action → Except String Unit

/-- What a hold needs now; an error tells why it is passed over. -/
def wants (now : ℕ) (env : Env) (breaker : Option Breaker) (lastActed : Option ℕ) (hold : Hold) :
    Except String (Option Action) :=
  match hold.kind with
  | .ask =>
    match env.asks with
    | .error e => .error s!"{hold.key}: mailboxes unreadable: {e}"
    | .ok m => .ok (decide now hold (m hold.bead) lastActed)
  | .wait =>
    match breaker, env.exits hold.bead with
    | none, _ => .error s!"{hold.key}: no-progress breaker unconfigured, wait not lifted"
    | some b, .ok exits =>
      match b.tripped exits with
      | some exits => .ok (some (.tripBreaker exits b.windowSecs))
      | none => .ok (decide now hold none lastActed)
    | some _, .error e => .error s!"{hold.key}: history unreadable: {e}"
  | .poison | .operator => .ok (decide now hold none lastActed)

/-- One hold of a sweep. -/
def visit (now : ℕ) (env : Env) (shadow : Bool) (breaker : Option Breaker)
    (acc : Report × (String → Option ℕ)) (hold : Hold) : Report × (String → Option ℕ) :=
  let (report, acted) := acc
  let key := hold.key
  let report := { report with seen := insert key report.seen }
  match wants now env breaker (acted key) hold with
  | .error e => ({ report with skipped := report.skipped ++ [e] }, acted)
  | .ok none => (report, acted)
  | .ok (some action) =>
    let report := { report with wanted := insert key report.wanted }
    let (outcome, acted) :=
      if shadow then (Outcome.shadowed, acted)
      else match env.act hold action with
        | .ok () => (.done, Function.update acted key (some now))
        | .error e => (.failed e, acted)
    let taken : Taken := { key, bead := hold.bead, kind := hold.kind, action, outcome }
    ({ report with taken := report.taken ++ [taken] }, acted)

/-- Visits every hold once.  `shadow` records what would be done and does none of it. -/
def sweep (now : ℕ) (env : Env) (state : SweepState) (shadow : Bool) (breaker : Option Breaker) :
    Except String (Report × SweepState) := do
  let holds ← env.holds
  let (report, acted) :=
    holds.foldl (visit now env shadow breaker) ({ visited := holds.length }, state.acted)
  .ok (report, { lastPass := now, acted := fun k ↦ if k ∈ report.seen then acted k else none })

/-! ## Passes -/

/-- What a pass finds.  A bead has at most one hold of a kind. -/
structure Pass where
  now : ℕ
  holds : List Hold
  asks : String → Option AskMail
  exits : String → Except String (List Exit)
  breaker : Option Breaker
  nodup : (holds.map Hold.key).Nodup

namespace Pass

variable (p : Pass)

/-- All is read, apart from histories, and every action succeeds. -/
def env : Env where
  holds := .ok p.holds
  asks := .ok p.asks
  exits := p.exits
  act _ _ := .ok ()

/-- The step of a hold. -/
def answer (lastActed : Option ℕ) (h : Hold) : Option Action :=
  match wants p.now p.env p.breaker lastActed h with
  | .ok a => a
  | .error _ => none

def swept (st : SweepState) : Except String (Report × SweepState) :=
  sweep p.now p.env st false p.breaker

/-- What the pass does. -/
def taken (st : SweepState) : List Taken :=
  match p.swept st with
  | .ok (report, _) => report.taken
  | .error _ => []

end Pass

/-- The state after a pass. -/
def step (st : SweepState) (p : Pass) : SweepState :=
  match p.swept st with
  | .ok (_, st) => st
  | .error _ => st

section Visit

variable {p : Pass} {st : SweepState} {h : Hold} {k : String} {report : Report}
  {acted : String → Option ℕ}

def takenOf (h : Hold) (a : Action) : Taken := ⟨h.key, h.bead, h.kind, a, .done⟩

/-- What the visit of one hold does. -/
theorem visit_spec (p : Pass) (report : Report) (acted : String → Option ℕ) (h : Hold) :
    (visit p.now p.env false p.breaker (report, acted) h).1.taken =
        report.taken ++ ((p.answer (acted h.key) h).map (takenOf h)).toList ∧
      (visit p.now p.env false p.breaker (report, acted) h).1.seen = insert h.key report.seen ∧
      (visit p.now p.env false p.breaker (report, acted) h).2 =
        if (p.answer (acted h.key) h).isSome then Function.update acted h.key (some p.now)
        else acted := by
  rw [visit, Pass.answer]
  cases wants p.now p.env p.breaker (acted h.key) h with
  | error e => exact ⟨(List.append_nil _).symm, rfl, rfl⟩
  | ok a =>
    cases a with
    | none => exact ⟨(List.append_nil _).symm, rfl, rfl⟩
    | some a => exact ⟨rfl, rfl, rfl⟩

/-- What the visits of holds with keys of their own do. -/
theorem fold_spec (p : Pass) (st : SweepState) {l : List Hold} (hl : (l.map Hold.key).Nodup)
    (acc : Report × (String → Option ℕ)) (hacc : ∀ h ∈ l, acc.2 h.key = st.acted h.key) :
    (l.foldl (visit p.now p.env false p.breaker) acc).1.taken = acc.1.taken ++
        l.filterMap (fun h ↦ (p.answer (st.acted h.key) h).map (takenOf h)) ∧
      (∀ k, k ∈ (l.foldl (visit p.now p.env false p.breaker) acc).1.seen ↔
        k ∈ acc.1.seen ∨ ∃ h ∈ l, h.key = k) ∧
      (∀ h ∈ l, (l.foldl (visit p.now p.env false p.breaker) acc).2 h.key =
        if (p.answer (st.acted h.key) h).isSome then some p.now else st.acted h.key) ∧
      ∀ k, (∀ h ∈ l, h.key ≠ k) →
        (l.foldl (visit p.now p.env false p.breaker) acc).2 k = acc.2 k := by
  induction l generalizing acc with
  | nil =>
    refine ⟨(List.append_nil _).symm, fun k ↦ ?_, ?_, fun k _ ↦ rfl⟩
    · refine (or_iff_left ?_).symm
      rintro ⟨h, hh, -⟩
      cases hh
    · intro h hh
      cases hh
  | cons h l ih =>
    obtain ⟨report, acted⟩ := acc
    rw [List.map_cons, List.nodup_cons, List.mem_map] at hl
    obtain ⟨hnot, hnodup⟩ := hl
    have hne (h' : Hold) (hh : h' ∈ l) : h'.key ≠ h.key := fun heq ↦ hnot ⟨h', hh, heq⟩
    have hself : acted h.key = st.acted h.key := hacc h List.mem_cons_self
    obtain ⟨htaken, hseen, hacted⟩ := visit_spec p report acted h
    rw [hself] at htaken hacted
    have hother (k : String) (hk : h.key ≠ k) :
        (visit p.now p.env false p.breaker (report, acted) h).2 k = acted k := by
      rw [hacted]
      split
      · exact Function.update_of_ne hk.symm ..
      · rfl
    obtain ⟨ihtaken, ihseen, ihmem, ihother⟩ :=
      ih hnodup (visit p.now p.env false p.breaker (report, acted) h) fun h' hh ↦
        (hother h'.key (hne h' hh).symm).trans (hacc h' (List.mem_cons_of_mem h hh))
    rw [List.foldl_cons]
    refine ⟨?_, fun k ↦ ?_, ?_, fun k hk ↦ ?_⟩
    · rw [ihtaken, htaken, List.append_assoc, List.filterMap_cons]
      congr 1
      cases (p.answer (st.acted h.key) h).map (takenOf h) <;> rfl
    · rw [ihseen, hseen, Finset.mem_insert, List.exists_mem_cons_iff, @eq_comm _ k]
      tauto
    · intro h' hh
      obtain rfl | hh := List.mem_cons.mp hh
      · rw [ihother h'.key hne, hacted]
        split
        · exact Function.update_self ..
        · exact hself
      · exact ihmem h' hh
    · rw [ihother k fun h' hh ↦ hk h' (List.mem_cons_of_mem h hh)]
      exact hother k (hk h List.mem_cons_self)

theorem swept_eq (p : Pass) (st : SweepState) : ∃ report acted, p.swept st =
      .ok (report, { lastPass := p.now, acted }) ∧
    report.taken = p.holds.filterMap (fun h ↦ (p.answer (st.acted h.key) h).map (takenOf h)) ∧
    (∀ h ∈ p.holds, acted h.key =
      if (p.answer (st.acted h.key) h).isSome then some p.now else st.acted h.key) ∧
    ∀ k, (∀ h ∈ p.holds, h.key ≠ k) → acted k = none := by
  obtain ⟨htaken, hseen, hmem, -⟩ :=
    fold_spec p st p.nodup ({ visited := p.holds.length }, st.acted) fun _ _ ↦ rfl
  refine ⟨_, _, rfl, htaken.trans (List.nil_append _), fun h hh ↦ ?_, fun k hk ↦ ?_⟩
  · exact (if_pos ((hseen h.key).mpr (.inr ⟨h, hh, rfl⟩))).trans (hmem h hh)
  · refine if_neg fun hin ↦ ?_
    obtain hin | ⟨h, hh, heq⟩ := (hseen k).mp hin
    · exact absurd hin (Finset.notMem_empty k)
    · exact hk h hh heq

theorem mem_taken {t : Taken} : t ∈ p.taken st ↔
    ∃ h ∈ p.holds, ∃ a, p.answer (st.acted h.key) h = some a ∧ t = takenOf h a := by
  obtain ⟨report, acted, hswept, htaken, -⟩ := swept_eq p st
  rw [Pass.taken, hswept]
  dsimp only
  rw [htaken, List.mem_filterMap]
  refine exists_congr fun h ↦ and_congr_right' ?_
  rw [Option.map_eq_some_iff]
  exact exists_congr fun a ↦ and_congr_right' eq_comm

theorem acted_step (hh : h ∈ p.holds) : (step st p).acted h.key =
    if (p.answer (st.acted h.key) h).isSome then some p.now else st.acted h.key := by
  obtain ⟨report, acted, hswept, -, hacted, -⟩ := swept_eq p st
  rw [step, hswept]
  exact hacted h hh

theorem acted_step_absent (hk : ∀ h ∈ p.holds, h.key ≠ k) : (step st p).acted k = none := by
  obtain ⟨report, acted, hswept, -, -, hnone⟩ := swept_eq p st
  rw [step, hswept]
  exact hnone k hk

end Visit

/-! ## What each kind does -/

section Answers

variable {p : Pass} {h : Hold} {a : Action} {last : Option ℕ} {d n now : ℕ}

/-- Not acted on at or after `d`. -/
def Before (last : Option ℕ) (d : ℕ) : Prop := ∀ t, last = some t → t < d

theorem any_le_eq_false : (last.any fun t ↦ d ≤ t) = false ↔ Before last d := by
  rw [Before, ← Bool.not_eq_true, Option.any_eq_true]
  simp only [decide_eq_true_eq, not_exists, not_and, Nat.not_le]

theorem key_inj {b b' : String} {k k' : Kind} (h : keyOf b k = keyOf b' k') : b = b' ∧ k = k' := by
  have hlast (b : String) (k : Kind) : (keyOf b k).toList.getLast? = k.asStr.toList.getLast? := by
    rw [keyOf, String.toList_append]
    refine List.getLast?_append_of_ne_nil _ ?_
    cases k <;> decide
  have hk : k = k' := by
    have hchar : k.asStr.toList.getLast? = k'.asStr.toList.getLast? := by
      rw [← hlast b k, h, hlast]
    revert hchar
    cases k <;> cases k' <;> decide
  subst hk
  have hlist := congrArg String.toList h
  rw [keyOf, keyOf, String.toList_append, String.toList_append, String.toList_append,
    String.toList_append, String.toList_append, String.toList_append,
    List.append_cancel_right_eq, List.append_cancel_right_eq, List.append_cancel_left_eq] at hlist
  exact ⟨String.toList_injective hlist, rfl⟩

theorem answer_ask (hk : h.kind = .ask) :
    p.answer last h = decide p.now h (p.asks h.bead) last := by
  rw [Pass.answer, wants.eq_def, hk]
  rfl

theorem answer_poison (hk : h.kind = .poison) : p.answer last h = some a ↔ a = .diagnosePoison ∧
    ∃ s, h.since = some s ∧ poisonDiagnoseSecs ≤ p.now - s ∧ Before last s := by
  have hanswer : p.answer last h = decide p.now h none last := by
    rw [Pass.answer, wants.eq_def, hk]
  rw [hanswer, decide, hk]
  dsimp only
  rw [Option.bind_eq_bind, Option.bind_eq_some_iff]
  constructor
  · rintro ⟨s, hs, hif⟩
    rw [Option.ite_none_right_eq_some, Bool.and_eq_true, decide_eq_true_eq, Bool.not_eq_true',
      any_le_eq_false] at hif
    exact ⟨(Option.some.inj hif.2).symm, s, hs, hif.1⟩
  · rintro ⟨rfl, s, hs, hdue, hbefore⟩
    refine ⟨s, hs, ?_⟩
    rw [Option.ite_none_right_eq_some, Bool.and_eq_true, decide_eq_true_eq, Bool.not_eq_true',
      any_le_eq_false]
    exact ⟨⟨hdue, hbefore⟩, rfl⟩

theorem answer_operator (hk : h.kind = .operator) : p.answer last h = some a ↔
    a = .remindManual ∧ ∃ s, h.since = some s ∧ manualRemindSecs ≤ p.now - s ∧
      ∀ t, last = some t → manualRemindSecs ≤ p.now - t := by
  have hanswer : p.answer last h = decide p.now h none last := by
    rw [Pass.answer, wants.eq_def, hk]
  have hall : (last.all fun t ↦ manualRemindSecs ≤ p.now - t) = true ↔
      ∀ t, last = some t → manualRemindSecs ≤ p.now - t := by
    rw [Option.all_eq_true]
    simp only [decide_eq_true_eq]
  rw [hanswer, decide, hk]
  dsimp only
  rw [Option.bind_eq_bind, Option.bind_eq_some_iff]
  constructor
  · rintro ⟨s, hs, hif⟩
    rw [Option.ite_none_right_eq_some, Bool.and_eq_true, decide_eq_true_eq, hall] at hif
    exact ⟨(Option.some.inj hif.2).symm, s, hs, hif.1⟩
  · rintro ⟨rfl, s, hs, hdue⟩
    refine ⟨s, hs, ?_⟩
    rw [Option.ite_none_right_eq_some, Bool.and_eq_true, decide_eq_true_eq, hall]
    exact ⟨hdue, rfl⟩

/-- A question that is delivered is resurfaced. -/
theorem answer_asked {m : AskMail} (hk : h.kind = .ask) (hm : p.asks h.bead = some m) :
    p.answer last h = some a ↔ a = .resurfaceAsk m.deliveredAt m.mailbox ∧
      askResurfaceSecs ≤ p.now - m.deliveredAt ∧ Before last m.deliveredAt := by
  rw [answer_ask hk, hm, decide, hk]
  dsimp only
  rw [Option.ite_none_right_eq_some, Bool.and_eq_true, decide_eq_true_eq, Bool.not_eq_true',
    any_le_eq_false, and_comm, @eq_comm _ a, Option.some.injEq]

/-- Only the snooze of a `wait` hold is lifted, and only past its end. -/
theorem answer_lifts {u : ℕ} (ha : p.answer last h = some (.liftWait u)) : h.kind = .wait ∧
    (∃ detail, h.detail = some detail ∧ snoozeUntil detail = some (u : ℤ)) ∧ u < p.now := by
  cases hk : h.kind with
  | ask =>
    rw [answer_ask hk, decide.eq_def, hk] at ha
    dsimp only at ha
    split at ha <;> rw [Option.ite_none_right_eq_some] at ha <;> cases ha.2
  | poison => cases ((answer_poison hk).mp ha).1
  | operator => cases ((answer_operator hk).mp ha).1
  | wait =>
    have hdecide : decide p.now h none last = some (.liftWait u) := by
      rw [Pass.answer, wants.eq_def, hk] at ha
      dsimp only at ha
      split at ha
      · rename_i heq
        subst ha
        split at heq
        · cases heq
        · split at heq
          · cases heq
          · exact Except.ok.inj heq
        · cases heq
      · cases ha
    rw [decide, hk] at hdecide
    obtain ⟨detail, hdetail, hrest⟩ := Option.bind_eq_some_iff.mp hdecide
    obtain ⟨end', hend, hif⟩ := Option.bind_eq_some_iff.mp hrest
    rw [Option.ite_none_right_eq_some] at hif
    obtain ⟨⟨hpos, hlt⟩, hu⟩ := hif
    cases hu
    refine ⟨rfl, ⟨detail, hdetail, ?_⟩, ?_⟩
    · rw [hend, Int.toNat_of_nonneg hpos]
    · omega

end Answers

open History

/-- The pass takes the action for a hold of the kind on the bead. -/
def Does (st : SweepState) (p : Pass) (bead : String) (kind : Kind) (a : Action) : Prop :=
  ∃ t ∈ p.taken st, t.bead = bead ∧ t.kind = kind ∧ t.action = a

/-- The bead has a poison that was placed then. -/
def Pass.Places (p : Pass) (bead : String) (s : ℕ) : Prop :=
  ∃ h ∈ p.holds, h.bead = bead ∧ h.kind = .poison ∧ h.since = some s

/-- The bead is held on a question, and `m` is its newest. -/
def Pass.Asked (p : Pass) (bead : String) (m : AskMail) : Prop :=
  (∃ h ∈ p.holds, h.bead = bead ∧ h.kind = .ask) ∧ p.asks bead = some m

/-- In every stretch of passes that find it, from the first that does, the first at or after the
time does what is due, and no other. -/
def Once (ps : List Pass) (finds : Pass → Prop) (does : SweepState → Pass → Prop) (time : ℕ) :
    Prop :=
  ∀ pre mid post, ps = pre ++ mid ++ post → (∀ p ∈ mid, finds p) →
    (∀ p, pre.getLast? = some p → ¬ finds p) → ∀ a p b, mid = a ++ p :: b →
      (does (run step {} (pre ++ a)) p ↔ time ≤ p.now ∧ ∀ q ∈ a, q.now < time)

structure Duties (ps : List Pass) : Prop where
  lifts : Always step (fun st p ↦ ∀ t ∈ p.taken st, ∀ u, t.action = .liftWait u →
    t.kind = .wait ∧ u < p.now ∧ ∃ h ∈ p.holds, h.bead = t.bead ∧ h.kind = .wait ∧
      ∃ detail, h.detail = some detail ∧ snoozeUntil detail = some (u : ℤ)) {} ps
  diagnosed (bead : String) (s : ℕ) : Once ps (Pass.Places · bead s)
    (Does · · bead .poison .diagnosePoison) (s + poisonDiagnoseSecs)
  resurfaced (bead : String) (m : AskMail) : Once ps (Pass.Asked · bead m)
    (Does · · bead .ask (.resurfaceAsk m.deliveredAt m.mailbox)) (m.deliveredAt + askResurfaceSecs)
  /-- Where the hold of the second was placed since every pass between that found none. -/
  reminded {pre mid post : List Pass} {p q : Pass} {bead : String} :
    ps = pre ++ p :: (mid ++ q :: post) →
    Does (run step {} pre) p bead .operator .remindManual →
    Does (run step {} (pre ++ p :: mid)) q bead .operator .remindManual →
    (∀ r ∈ mid, (∀ h ∈ r.holds, h.key ≠ keyOf bead .operator) →
      ∀ h ∈ q.holds, h.key = keyOf bead .operator → ∀ s, h.since = some s → r.now ≤ s) →
    p.now + manualRemindSecs ≤ q.now

/-- No placement and no question that the pass before did not find is as old as the last action on
its key. -/
def Fresh (ps : List Pass) : Prop :=
  ∀ pre p post, ps = pre ++ p :: post →
    (∀ bead s, p.Places bead s → (∀ q, pre.getLast? = some q → ¬ q.Places bead s) →
      Before ((run step {} pre).acted (keyOf bead .poison)) s) ∧
    ∀ bead m, p.Asked bead m → (∀ q, pre.getLast? = some q → ¬ q.Asked bead m) →
      Before ((run step {} pre).acted (keyOf bead .ask)) m.deliveredAt

section Runs

variable {p : Pass} {st : SweepState} {h : Hold} {bead : String} {k : Kind} {a : Action}

theorem does_iff (hh : h ∈ p.holds) : Does st p h.bead h.kind a ↔
    p.answer (st.acted h.key) h = some a := by
  constructor
  · rintro ⟨t, ht, hbead, hkind, rfl⟩
    obtain ⟨h', hh', a, ha, rfl⟩ := mem_taken.mp ht
    have hkey : h'.key = h.key := congrArg₂ keyOf hbead hkind
    obtain rfl : h' = h := List.inj_on_of_nodup_map p.nodup hh' hh hkey
    exact ha
  · intro ha
    exact ⟨takenOf h a, mem_taken.mpr ⟨h, hh, a, ha, rfl⟩, rfl, rfl, rfl⟩

/-- A duty is done once if it is done where it is due and was not done since `d`. -/
theorem once_of {ps : List Pass} {finds : Pass → Prop} {does : SweepState → Pass → Prop}
    {key : String} {d n : ℕ}
    (hdoes : ∀ st p, finds p → (does st p ↔ d + n ≤ p.now ∧ Before (st.acted key) d))
    (hdone : ∀ st p, finds p → does st p → (step st p).acted key = some p.now)
    (hidle : ∀ st p, finds p → ¬ does st p → (step st p).acted key = st.acted key)
    (hstart : ∀ pre p post, ps = pre ++ p :: post → finds p →
      (∀ q, pre.getLast? = some q → ¬ finds q) → Before ((run step {} pre).acted key) d) :
    Once ps finds does (d + n) := by
  intro pre mid post hps hmid hpre
  have hbefore (hne : mid ≠ []) : Before ((run step {} pre).acted key) d := by
    cases mid with
    | nil => exact absurd rfl hne
    | cons p mid =>
      refine hstart pre p (mid ++ post) ?_ (hmid p List.mem_cons_self) hpre
      rw [hps, List.append_assoc]
      rfl
  -- before the time nothing was done, and after it, it was
  have hrun (a : List Pass) (ha : ∀ p ∈ a, finds p) (hne : mid ≠ []) :
      Before ((run step {} (pre ++ a)).acted key) d ↔ ∀ q ∈ a, q.now < d + n := by
    induction a using List.reverseRecOn with
    | nil =>
      rw [List.append_nil]
      exact iff_of_true (hbefore hne) fun q hq ↦ by cases hq
    | append_singleton a p ih =>
      have hp : finds p := ha p (List.mem_append_right a List.mem_cons_self)
      have ih := ih fun q hq ↦ ha q (List.mem_append_left [p] hq)
      rw [← List.append_assoc, run_snoc, List.forall_mem_append, List.forall_mem_singleton]
      by_cases hd : does (run step {} (pre ++ a)) p
      · rw [hdone _ p hp hd]
        obtain ⟨htime, -⟩ := (hdoes _ p hp).mp hd
        refine iff_of_false (fun hb ↦ ?_) fun h ↦ Nat.not_lt_of_le htime h.2
        exact Nat.not_lt_of_le ((Nat.le_add_right d n).trans htime) (hb p.now rfl)
      · rw [hidle _ p hp hd, ih]
        rw [hdoes _ p hp, ih] at hd
        refine (and_iff_left_of_imp fun hall ↦ ?_).symm
        exact Nat.lt_of_not_le fun htime ↦ hd ⟨htime, hall⟩
  intro a p b hmid'
  have hp : p ∈ mid := hmid' ▸ List.mem_append_right a List.mem_cons_self
  have ha (q : Pass) (hq : q ∈ a) : finds q := hmid q (hmid' ▸ List.mem_append_left _ hq)
  rw [hdoes _ p (hmid p hp), hrun a ha (List.ne_nil_of_mem hp)]

theorem acted_of_does (hh : h ∈ p.holds) (hd : Does st p h.bead h.kind a) :
    (step st p).acted h.key = some p.now := by
  rw [acted_step hh, (does_iff hh).mp hd]
  rfl

/-- Where every action of the hold would be `a`, and it is not taken, nothing is. -/
theorem acted_of_not_does (hh : h ∈ p.holds) (hd : ¬ Does st p h.bead h.kind a)
    (honly : ∀ last a', p.answer last h = some a' → a' = a) :
    (step st p).acted h.key = st.acted h.key := by
  rw [does_iff hh] at hd
  rw [acted_step hh]
  cases ha : p.answer (st.acted h.key) h with
  | none => rfl
  | some a' => exact absurd (honly _ _ ha ▸ ha) hd

theorem due_iff {now d n : ℕ} (hn : 0 < n) : n ≤ now - d ↔ d + n ≤ now := by
  omega

theorem places_does {s : ℕ} (hp : p.Places bead s) :
    (Does st p bead .poison .diagnosePoison ↔ s + poisonDiagnoseSecs ≤ p.now ∧
      Before (st.acted (keyOf bead .poison)) s) ∧
    (Does st p bead .poison .diagnosePoison →
      (step st p).acted (keyOf bead .poison) = some p.now) ∧
    (¬ Does st p bead .poison .diagnosePoison →
      (step st p).acted (keyOf bead .poison) = st.acted (keyOf bead .poison)) := by
  obtain ⟨h, hh, rfl, hk, hs⟩ := hp
  have hkey : keyOf h.bead .poison = h.key := hk ▸ rfl
  rw [hkey, ← hk]
  refine ⟨?_, acted_of_does hh, fun hd ↦ acted_of_not_does hh hd fun last a' ha ↦ ?_⟩
  · rw [does_iff hh, answer_poison hk, ← due_iff (by decide), and_iff_right rfl]
    constructor
    · rintro ⟨s', hs', hdue, hbefore⟩
      obtain rfl : s' = s := Option.some.inj (hs'.symm.trans hs)
      exact ⟨hdue, hbefore⟩
    · rintro ⟨hdue, hbefore⟩
      exact ⟨s, hs, hdue, hbefore⟩
  · exact ((answer_poison hk).mp ha).1

theorem asked_does {m : AskMail} (hp : p.Asked bead m) :
    (Does st p bead .ask (.resurfaceAsk m.deliveredAt m.mailbox) ↔
      m.deliveredAt + askResurfaceSecs ≤ p.now ∧
        Before (st.acted (keyOf bead .ask)) m.deliveredAt) ∧
    (Does st p bead .ask (.resurfaceAsk m.deliveredAt m.mailbox) →
      (step st p).acted (keyOf bead .ask) = some p.now) ∧
    (¬ Does st p bead .ask (.resurfaceAsk m.deliveredAt m.mailbox) →
      (step st p).acted (keyOf bead .ask) = st.acted (keyOf bead .ask)) := by
  obtain ⟨⟨h, hh, rfl, hk⟩, hm⟩ := hp
  have hkey : keyOf h.bead .ask = h.key := hk ▸ rfl
  rw [hkey, ← hk]
  refine ⟨?_, acted_of_does hh, fun hd ↦ acted_of_not_does hh hd fun last a' ha ↦ ?_⟩
  · rw [does_iff hh, answer_asked hk hm, ← due_iff (by decide), and_iff_right rfl]
  · exact ((answer_asked hk hm).mp ha).1

/-- After a reminder, the key has a time from then on, or was not found at a pass since. -/
theorem acted_or_absent {pre mid : List Pass} (hd : Does (run step {} pre) p bead .operator
    .remindManual) (htimes : ∀ r ∈ mid, p.now ≤ r.now) :
    (∃ t, (run step {} (pre ++ p :: mid)).acted (keyOf bead .operator) = some t ∧ p.now ≤ t) ∨
      ∃ r ∈ mid, ∀ h ∈ r.holds, h.key ≠ keyOf bead .operator := by
  induction mid using List.reverseRecOn with
  | nil =>
    obtain ⟨t, ht, hbead, hkind, -⟩ := id hd
    obtain ⟨h, hh, a, -, rfl⟩ := mem_taken.mp ht
    obtain rfl : h.bead = bead := hbead
    have hk : h.kind = .operator := hkind
    have hkey : keyOf h.bead .operator = h.key := hk ▸ rfl
    rw [← hk] at hd
    rw [run_snoc, hkey]
    exact .inl ⟨p.now, acted_of_does hh hd, le_rfl⟩
  | append_singleton mid r ih =>
    have happend : pre ++ p :: (mid ++ [r]) = pre ++ p :: mid ++ [r] := by
      rw [List.append_assoc]
      rfl
    rw [happend, run_snoc]
    by_cases hr : ∀ h ∈ r.holds, h.key ≠ keyOf bead .operator
    · exact .inr ⟨r, List.mem_append_right mid List.mem_cons_self, hr⟩
    · obtain ⟨t, ht, hle⟩ | ⟨r', hr', habsent⟩ :=
        ih fun r' hr' ↦ htimes r' (List.mem_append_left [r] hr')
      · simp only [ne_eq, not_forall, not_not] at hr
        obtain ⟨h, hh, hkey⟩ := hr
        rw [← hkey] at ht ⊢
        rw [acted_step hh, ht]
        split
        · exact .inl ⟨r.now, rfl, htimes r (List.mem_append_right mid List.mem_cons_self)⟩
        · exact .inl ⟨t, rfl, hle⟩
      · exact .inr ⟨r', List.mem_append_left [r] hr', habsent⟩

/-- **Every duty is done once**, in the runs where no placement and no question that is new is as
old as the last action on its key. -/
theorem duties (ps : List Pass) (htimes : (ps.map Pass.now).Pairwise (· ≤ ·)) (hfresh : Fresh ps) :
    Duties ps := by
  refine ⟨?_, fun bead s ↦ ?_, fun bead m ↦ ?_, ?_⟩
  · rintro pre p post - t ht u hu
    obtain ⟨h, hh, a, ha, rfl⟩ := mem_taken.mp ht
    obtain rfl : a = .liftWait u := hu
    obtain ⟨hk, hend, hlt⟩ := answer_lifts ha
    exact ⟨hk, hlt, h, hh, rfl, hk, hend⟩
  · exact once_of (fun _ _ hp ↦ (places_does hp).1) (fun _ _ hp ↦ (places_does hp).2.1)
      (fun _ _ hp ↦ (places_does hp).2.2)
      fun pre p post hps hp hpre ↦ (hfresh pre p post hps).1 bead s hp hpre
  · exact once_of (fun _ _ hp ↦ (asked_does hp).1) (fun _ _ hp ↦ (asked_does hp).2.1)
      (fun _ _ hp ↦ (asked_does hp).2.2)
      fun pre p post hps hp hpre ↦ (hfresh pre p post hps).2 bead m hp hpre
  · intro pre mid post p q bead hps hdp hdq hsince
    rw [hps, List.map_append, List.pairwise_append, List.map_cons, List.pairwise_cons] at htimes
    have hle (r : Pass) (hr : r ∈ mid) : p.now ≤ r.now :=
      htimes.2.1.1 r.now (List.mem_map_of_mem (List.mem_append_left _ hr))
    obtain ⟨t, ht, hbead, hkind, hact⟩ := hdq
    obtain ⟨h, hh, a, ha, rfl⟩ := mem_taken.mp ht
    obtain rfl : h.bead = bead := hbead
    have hk : h.kind = .operator := hkind
    have hkey : h.key = keyOf h.bead .operator := hk ▸ rfl
    obtain ⟨-, s, hs, hdue, hlast⟩ := (answer_operator hk).mp ha
    obtain ⟨t, hacted, hpt⟩ | ⟨r, hr, habsent⟩ := acted_or_absent hdp hle
    · have hdue' := hlast t (hkey ▸ hacted)
      rw [due_iff (by decide)] at hdue'
      exact (Nat.add_le_add_right hpt _).trans hdue'
    · have hrs := hsince r hr habsent h hh hkey s hs
      rw [due_iff (by decide)] at hdue
      exact (Nat.add_le_add_right ((hle r hr).trans hrs) _).trans hdue

end Runs

/-! ## A question that is delivered as it is raised -/

def held : Hold := ⟨"b", .ask, some 0, some "q", none⟩

theorem nodup_held : ([held].map Hold.key).Nodup := List.nodup_singleton _

/-- A pass that finds `b` held on a question, and when it was delivered. -/
def asking (now : ℕ) (deliveredAt : Option ℕ) : Pass where
  now
  holds := [held]
  asks _ := deliveredAt.map (⟨·, "operator"⟩)
  exits _ := .ok []
  breaker := none
  nodup := nodup_held

theorem duties_asking :
    Does {} (asking 86500 (some 100)) "b" .ask (.resurfaceAsk 100 "operator") := by
  have hfresh : Fresh [asking 86500 (some 100)] := by
    intro pre p post hps
    cases pre with
    | nil =>
      have hnone (key : String) (d : ℕ) : Before ((run step {} []).acted key) d := by
        intro t ht
        cases ht
      exact ⟨fun bead s _ _ ↦ hnone _ s, fun bead m _ _ ↦ hnone _ m.deliveredAt⟩
    | cons q pre =>
      have hne : pre ++ p :: post ≠ [] :=
        List.append_ne_nil_of_right_ne_nil pre (List.cons_ne_nil p post)
      exact absurd (List.cons.inj hps).2.symm hne
  have hduties := duties [asking 86500 (some 100)] (List.pairwise_singleton _ _) hfresh
  have hasked : (asking 86500 (some 100)).Asked "b" ⟨100, "operator"⟩ :=
    ⟨⟨held, List.mem_cons_self, rfl, rfl⟩, rfl⟩
  refine (hduties.resurfaced "b" ⟨100, "operator"⟩ [] [_] [] rfl ?_ (fun p hp ↦ by cases hp)
    [] _ [] rfl).mpr ⟨by decide, fun q hq ↦ by cases hq⟩
  intro p hp
  exact List.mem_singleton.mp hp ▸ hasked

/-- A question that is delivered in the second of the pass that raised it is never resurfaced: the
raise counts for it. -/
theorem raised_never_resurfaced :
    ¬ ∀ ps : List Pass, (ps.map Pass.now).Pairwise (· ≤ ·) → Duties ps := by
  intro h
  have hduties : Duties [asking 100 none, asking 86500 (some 100)] := h _ (by decide)
  have hasked : (asking 86500 (some 100)).Asked "b" ⟨100, "operator"⟩ :=
    ⟨⟨held, List.mem_cons_self, rfl, rfl⟩, rfl⟩
  have hdoes : Does (step {} (asking 100 none)) (asking 86500 (some 100)) "b" .ask
      (.resurfaceAsk 100 "operator") := by
    refine (hduties.resurfaced "b" ⟨100, "operator"⟩ [asking 100 none] [_] [] rfl ?_ ?_
      [] _ [] rfl).mpr ⟨by decide, fun q hq ↦ by cases hq⟩
    · intro p hp
      exact List.mem_singleton.mp hp ▸ hasked
    · rintro p hp ⟨-, hm⟩
      obtain rfl := Option.some.inj hp
      cases hm
  have hanswer : (asking 86500 (some 100)).answer
      ((step {} (asking 100 none)).acted held.key) held = none := by decide
  have hsome := (does_iff (h := held) List.mem_cons_self).mp hdoes
  rw [hanswer] at hsome
  cases hsome

end Spira.Engine
