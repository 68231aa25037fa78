import Spira.Claim.Events

/-!
# Sessions

What an event does to the attempts is its `Mark`.  A session is a claim and the events up to the
next one; a claim that is the open one seen again begins none.  The fold charges the sessions that
nothing ended, and takes off the credits of the others (`attemptsOf_eq`).

`attempts_exact` says when nothing is taken off, in a history whose closes and exempt rows all
belong to a session.
-/

set_option autoImplicit false

namespace Spira.Claim

/-! ## Marks -/

/-- What an event does to an attempt. -/
inductive Mark
  | claim
  | close
  /-- A requeue that is a credit where no attempt is open. -/
  | exempt
  /-- A return of a run that reached no verdict, or of one whose base was red. -/
  | noVerdict
  /-- Any other return that is not charged. -/
  | uncharged
  | none
  deriving DecidableEq, Repr

def markOfReturn (cause : String) : Mark :=
  if (classify cause).uncharged then
    if isNoVerdict cause || isBaseRed cause then .noVerdict else .uncharged
  else .none

def EventKind.mark : EventKind → Mark
  | claim => .claim
  | close => .close
  | requeued c => if isLegacyExempt c then .exempt else markOfReturn c
  | reopen c => markOfReturn c
  | reopened | reclaimed | poisonCleared => .none

/-- Whether an event ends an attempt: a close, or a return that is not charged. -/
def Mark.ends : Mark → Bool
  | close | exempt | noVerdict | uncharged => true
  | claim | none => false

abbrev Event.mark (e : Event) : Mark := e.2.mark

/-! ## The fold on marks -/

/-- The numbers of a tally. -/
structure Count where
  charged : ℕ
  openAt : Option String
  credits : ℕ
  spent : Bool

def Tally.count (s : Tally) : Count :=
  ⟨s.attemptLog.countP Attempt.isCharged, s.openAt, s.credits, s.spentByNoVerdict⟩

def Count.step (s : Count) (t : String) : Mark → Count
  | .claim =>
    if sameClaim s.openAt t then s
    else ⟨s.charged + (if s.openAt.isSome then 1 else 0), some t, s.credits, false⟩
  | .close =>
    if s.openAt.isSome then { s with openAt := Option.none }
    else if s.spent then { s with spent := false }
    else { s with credits := s.credits + 1 }
  | .exempt =>
    if s.openAt.isSome then { s with openAt := Option.none } else { s with credits := s.credits + 1 }
  | .noVerdict => if s.openAt.isSome then { s with openAt := Option.none, spent := true } else s
  | .uncharged => if s.openAt.isSome then { s with openAt := Option.none, spent := false } else s
  | .none => s

theorem count_return (s : Tally) (t c : String) :
    (s.return_ c).count = s.count.step t (markOfReturn c) := by
  rw [Tally.return_, markOfReturn]
  split
  · cases hopen : s.openAt with
    | none =>
      cases hspent : isNoVerdict c || isBaseRed c <;> simp [Count.step, Tally.count, hopen]
    | some at_ =>
      cases hspent : isNoVerdict c || isBaseRed c <;>
        simp [Count.step, Tally.count, Tally.push, hopen, List.countP_append, Attempt.isCharged]
  · rfl

theorem count_step (s : Tally) (e : Event) : (s.step e).count = s.count.step e.1 e.mark := by
  obtain ⟨t, k⟩ := e
  cases k with
  | claim =>
    show (if sameClaim s.openAt t then s else _).count = if sameClaim s.openAt t then s.count else _
    split
    · rfl
    · cases hopen : s.openAt <;>
        simp [Tally.count, Tally.push, hopen, List.countP_append, Attempt.isCharged]
  | close =>
    cases hopen : s.openAt with
    | none => cases hspent : s.spentByNoVerdict <;>
        simp [Tally.step, Event.mark, EventKind.mark, Count.step, Tally.count, hopen, hspent]
    | some at_ =>
      simp [Tally.step, Event.mark, EventKind.mark, Count.step, Tally.count, Tally.push, hopen,
        List.countP_append, Attempt.isCharged]
  | requeued c =>
    rw [Tally.step, Event.mark, EventKind.mark]
    split
    · cases hopen : s.openAt <;>
        simp [Count.step, Tally.count, Tally.push, hopen, List.countP_append, Attempt.isCharged]
    · exact count_return s t c
  | reopen c => exact count_return s t c
  | reopened => rfl
  | reclaimed => rfl
  | poisonCleared => rfl

theorem count_foldl (evs : List Event) (s : Tally) :
    (evs.foldl Tally.step s).count = evs.foldl (fun c e ↦ c.step e.1 e.mark) s.count := by
  induction evs generalizing s with
  | nil => rfl
  | cons e evs ih => rw [List.foldl_cons, List.foldl_cons, ih, count_step]

/-! ## Sessions -/

/-- A claim, and the events from it to the next session. -/
structure Session where
  claimedAt : String
  events : List Event
  deriving Repr

/-- Whether anything ended the session. -/
def Session.ended (s : Session) : Bool := s.events.any (·.mark.ends)

/-- The events that go on with an open session, or belong to none, and the sessions after them. -/
@[grind =] def sessionsFrom : Option String → List Event → List Event × List Session
  | _, [] => ([], [])
  | openAt, e :: evs =>
    if e.mark = .claim ∧ ¬ sameClaim openAt e.1 then
      let (rest, sessions) := sessionsFrom (some e.1) evs
      ([], ⟨e.1, rest⟩ :: sessions)
    else
      let (rest, sessions) := sessionsFrom (if e.mark.ends then none else openAt) evs
      (e :: rest, sessions)

/-- How far a session is: open, or ended, `some true` if by a run without a verdict whose close is
still to come. -/
abbrev Phase := Option Bool

/-- The credits that events give. -/
@[grind =] def creditsFrom : Phase → List Event → ℕ
  | _, [] => 0
  | Option.none, e :: l =>
    if e.mark.ends then creditsFrom (some (e.mark = .noVerdict)) l else creditsFrom Option.none l
  | some spent, e :: l => match e.mark with
    | .close => creditsFrom (some false) l + if spent then 0 else 1
    | .exempt => creditsFrom (some spent) l + 1
    | .claim | .noVerdict | .uncharged | .none => creditsFrom (some spent) l

def Session.credits (s : Session) : ℕ := creditsFrom Option.none s.events

def Count.phase (s : Count) : Phase := if s.openAt.isSome then none else some s.spent

/-- What begins no session. -/
def Count.Goes (s : Count) (e : Event) : Prop := ¬ (e.mark = .claim ∧ ¬ sameClaim s.openAt e.1)

theorem step_of_not_ends {s : Count} {e : Event} (hgoes : s.Goes e) (h : e.mark.ends = false) :
    s.step e.1 e.mark = s := by
  cases hm : e.mark with
  | claim => exact if_pos (not_not.mp fun hsame ↦ hgoes ⟨hm, hsame⟩)
  | none => rfl
  | _ => simp [hm, Mark.ends] at h

/-- What ends an open session. -/
theorem step_of_ends {s : Count} {e : Event} (hopen : s.openAt.isSome) (hs : s.spent = false)
    (h : e.mark.ends) :
    s.step e.1 e.mark = ⟨s.charged, none, s.credits, e.mark = .noVerdict⟩ := by
  cases hm : e.mark with
  | claim => simp [hm, Mark.ends] at h
  | none => simp [hm, Mark.ends] at h
  | _ => simp [Count.step, hopen, hs]

/-- What comes after the end of a session. -/
theorem step_of_ended {s : Count} {e : Event} (hopen : s.openAt = none) (hgoes : s.Goes e)
    (l : List Event) : (s.step e.1 e.mark).openAt = none ∧
      (s.step e.1 e.mark).charged = s.charged ∧
      (s.step e.1 e.mark).credits + creditsFrom (s.step e.1 e.mark).phase l =
        s.credits + creditsFrom (some s.spent) (e :: l) := by
  cases hm : e.mark with
  | claim =>
    rw [hm.symm, step_of_not_ends hgoes (by rw [hm]; rfl)]
    exact ⟨hopen, rfl, by simp [Count.phase, hopen, creditsFrom, hm]⟩
  | close =>
    cases hspent : s.spent with
    | false =>
      simp [Count.step, hopen, hspent, Count.phase, creditsFrom, hm]
      omega
    | true => simp [Count.step, hopen, hspent, Count.phase, creditsFrom, hm]
  | exempt =>
    simp [Count.step, hopen, Count.phase, creditsFrom, hm]
    omega
  | _ => simp [Count.step, hopen, Count.phase, creditsFrom, hm]

/-- Whether the session that is open stays so. -/
def unended (openAt : Option String) (l : List Event) : ℕ :=
  if openAt.isSome && !l.any (·.mark.ends) then 1 else 0

theorem unended_cons (openAt : Option String) (e : Event) (l : List Event) :
    unended openAt (e :: l) = unended (if e.mark.ends then none else openAt) l := by
  cases h : e.mark.ends with
  | false => rw [unended, unended, List.any_cons, h, Bool.false_or, if_neg Bool.false_ne_true]
  | true => simp [unended, h]

/-- **The fold goes by sessions.** -/
theorem foldl_sessions : ∀ (evs : List Event) {s : Count} (_ : s.openAt.isSome → s.spent = false),
    let p := sessionsFrom s.openAt evs
    let s' := evs.foldl (fun c e ↦ c.step e.1 e.mark) s
    s'.charged + unended s'.openAt [] = s.charged + unended s.openAt p.1 + p.2.countP (!·.ended) ∧
      s'.credits = s.credits + creditsFrom s.phase p.1 + (p.2.map Session.credits).sum
  | [], s, _ => by simp [sessionsFrom, creditsFrom]
  | e :: evs, s, hs => by
    intro p s'
    by_cases hgoes : s.Goes e
    · have hsplit : sessionsFrom s.openAt (e :: evs) =
          (e :: (sessionsFrom (if e.mark.ends then none else s.openAt) evs).1,
            (sessionsFrom (if e.mark.ends then none else s.openAt) evs).2) := if_neg hgoes
      dsimp only [p, s']
      rw [hsplit, List.foldl_cons, unended_cons]
      cases hopen : s.openAt with
      | none =>
        obtain ⟨hnone, hcharged, hcredits⟩ := step_of_ended hopen hgoes (sessionsFrom none evs).1
        have hphase : s.phase = some s.spent := by simp [Count.phase, hopen]
        have ih := foldl_sessions evs (s := s.step e.1 e.mark) (by simp [hnone])
        simp only [hnone, hcharged, ite_self] at ih ⊢
        rw [hphase, ← hcredits]
        exact ih
      | some a =>
        have hphase : s.phase = none := by simp [Count.phase, hopen]
        have hisSome : s.openAt.isSome := by rw [hopen]; rfl
        cases hends : e.mark.ends with
        | false =>
          have ih := foldl_sessions evs hs
          rw [step_of_not_ends hgoes hends, hphase, creditsFrom, hends]
          rw [hphase, hopen] at ih
          exact ih
        | true =>
          rw [step_of_ends hisSome (hs hisSome) hends, hphase, creditsFrom, hends]
          exact foldl_sessions evs (s := ⟨s.charged, none, s.credits, e.mark = .noVerdict⟩) nofun
    · obtain ⟨hclaim, hnew⟩ := not_not.mp hgoes
      have hsplit : sessionsFrom s.openAt (e :: evs) =
          ([], ⟨e.1, (sessionsFrom (some e.1) evs).1⟩ :: (sessionsFrom (some e.1) evs).2) :=
        if_pos ⟨hclaim, hnew⟩
      have hstep : s.step e.1 e.mark =
          ⟨s.charged + (if s.openAt.isSome then 1 else 0), some e.1, s.credits, false⟩ := by
        rw [hclaim]
        exact if_neg hnew
      obtain ⟨hcharged, hcredits⟩ := foldl_sessions evs
        (s := ⟨s.charged + (if s.openAt.isSome then 1 else 0), some e.1, s.credits, false⟩)
        fun _ ↦ rfl
      dsimp only [p, s'] at hcharged hcredits ⊢
      rw [hsplit, List.foldl_cons, hstep]
      constructor
      · have hlast : unended (some e.1) (sessionsFrom (some e.1) evs).1 =
            if !(Session.mk e.1 (sessionsFrom (some e.1) evs).1).ended then 1 else 0 := rfl
        have hopen : unended s.openAt [] = if s.openAt.isSome then 1 else 0 := by
          simp [unended]
        rw [hcharged, hlast, hopen, List.countP_cons]
        omega
      · rw [hcredits, List.map_cons, List.sum_cons]
        simp only [creditsFrom, Count.phase, Option.isSome_some, if_true, Session.credits]
        omega

/-! ## Attempts -/

/-- The events after the floor that belong to none of the sessions. -/
def opening (evs : List Event) : List Event := (sessionsFrom none (afterFloor evs)).1

/-- The sessions that begin after the floor. -/
def sessions (evs : List Event) : List Session := (sessionsFrom none (afterFloor evs)).2

/-- What is taken off the attempts. -/
def creditsOf (evs : List Event) : ℕ :=
  creditsFrom (some false) (opening evs) + ((sessions evs).map Session.credits).sum

theorem count_finish (s : Tally) :
    s.finish.attemptLog.countP Attempt.isCharged = s.count.charged + unended s.count.openAt [] ∧
      s.finish.credits = s.count.credits := by
  cases hopen : s.openAt <;>
    simp [Tally.finish, Tally.push, Tally.count, unended, hopen, List.countP_append,
      Attempt.isCharged]

/-- **The attempts are the sessions that nothing ended, less the credits.** -/
theorem attemptsOf_eq (evs : List Event) :
    attemptsOf evs = (sessions evs).countP (!·.ended) - creditsOf evs := by
  obtain ⟨hcharged, hcredits⟩ := foldl_sessions (afterFloor evs) (s := Tally.count {}) nofun
  obtain ⟨hlog, hleft⟩ := count_finish ((afterFloor evs).foldl Tally.step {})
  rw [count_foldl] at hlog hleft
  have hnone : unended (Tally.count {}).openAt (sessionsFrom none (afterFloor evs)).1 = 0 := rfl
  rw [attemptsOf, tallyOf, hlog, hleft, hcharged, hcredits]
  simp only [Tally.count, List.countP_nil, Nat.zero_add, hnone] at *
  rfl

def closes (l : List Event) : ℕ := l.countP (·.mark = .close)

def exempts (l : List Event) : ℕ := l.countP (·.mark = .exempt)

/-- After the end every close and every exempt row is a credit, but for one close after a run
without a verdict. -/
theorem creditsFrom_some (spent : Bool) (l : List Event) :
    creditsFrom (some spent) l = (closes l - if spent then 1 else 0) + exempts l := by
  induction l generalizing spent with
  | nil => simp [creditsFrom, closes, exempts]
  | cons e l ih =>
    cases hm : e.mark with
    | close => cases spent <;> simp [creditsFrom, hm, ih, closes, exempts, Nat.add_right_comm]
    | exempt => cases spent <;> simp [creditsFrom, hm, ih, closes, exempts, Nat.add_assoc]
    | _ => simp [creditsFrom, hm, ih, closes, exempts]

/-- Whether nothing that comes after the end of a session is a credit: no exempt row, and a close
only after a run without a verdict, and only one. -/
def Session.Clean (s : Session) : Prop :=
  match s.events.dropWhile (!·.mark.ends) with
  | [] => True
  | e :: after => exempts after = 0 ∧ closes after ≤ if e.mark = .noVerdict then 1 else 0

theorem credits_eq_zero (s : Session) : s.credits = 0 ↔ s.Clean := by
  obtain ⟨at_, l⟩ := s
  rw [Session.credits, Session.Clean]
  induction l with
  | nil => simp [creditsFrom]
  | cons e l ih =>
    rw [creditsFrom, List.dropWhile_cons]
    cases hends : e.mark.ends with
    | false => exact ih
    | true =>
      rw [if_pos rfl, creditsFrom_some]
      simp only [Bool.not_true, Bool.false_eq_true, if_false, decide_eq_true_eq]
      omega

/-- **Attempts are exact** just where no session failed, or where nothing comes to forgive one: no
close or exempt row before the first claim after the floor, and none after the end of a session
but the close of a run without a verdict. -/
theorem attempts_exact (bead : String) (rows : List EventRow) :
    let evs := ordered (rows.filter (·.issueId = bead))
    (fold bead rows).attempts = (sessions evs).countP (!·.ended) ↔
      (∀ s ∈ sessions evs, s.ended) ∨
        (closes (opening evs) = 0 ∧ exempts (opening evs) = 0) ∧ ∀ s ∈ sessions evs, s.Clean := by
  intro evs
  have hattempts : (fold bead rows).attempts =
      (sessions evs).countP (!·.ended) - creditsOf evs := attemptsOf_eq evs
  have hnone : (sessions evs).countP (!·.ended) = 0 ↔ ∀ s ∈ sessions evs, s.ended := by
    simp [List.countP_eq_zero]
  have hclean : creditsOf evs = 0 ↔
      (closes (opening evs) = 0 ∧ exempts (opening evs) = 0) ∧ ∀ s ∈ sessions evs, s.Clean := by
    simp [creditsOf, creditsFrom_some, credits_eq_zero, List.sum_eq_zero_iff_forall_eq_nat]
  rw [hattempts, ← hnone, ← hclean]
  omega

/-- Whether every close ends the session of the last claim before it, and every exempt row is of a
session that is not closed. -/
@[grind =] def ownCloses : Bool → List Event → Bool
  | _, [] => true
  | live, e :: evs => match e.mark with
    | .claim => ownCloses true evs
    | .close => live && ownCloses false evs
    | .exempt => live && ownCloses live evs
    | .noVerdict | .uncharged | .none => ownCloses live evs

/-- A session that failed, and one that could not merge and was then closed. -/
def forgiven : List EventRow :=
  [⟨"b", "claimed", none, "2026-09-28T10:00:00Z"⟩, ⟨"b", "claimed", none, "2026-09-28T10:01:00Z"⟩,
    ⟨"b", "requeued", some "merge-conflict", "2026-09-28T10:02:00Z"⟩,
    ⟨"b", "closed", none, "2026-09-28T10:03:00Z"⟩]

/-- The close of the second session forgives the first. -/
theorem close_forgives_failure :
    ownCloses false (ordered (forgiven.filter (·.issueId = "b"))) = true ∧
      (sessions (ordered (forgiven.filter (·.issueId = "b")))).countP (!·.ended) = 1 ∧
      (fold "b" forgiven).attempts = 0 := by
  decide

end Spira.Claim
