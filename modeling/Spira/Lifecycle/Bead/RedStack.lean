import Spira.Lifecycle.Bead.RedTip

/-!
# Red stacks

A bead whose work was red is handed back with the stack that work was built on, and the same stack
would be red again: a claim out of REWORK must propose another.  The machine tells such a row by two
fields: the stack it records, and a reason that is the word of a gate verdict.  Both are overwritten
by events that say nothing of the red: a hold, a reply, a break-glass unhold or a withdrawn base
replaces the reason, an un-claim clears the stack, a landed prerequisite drops out of it; and a red
that came through `returned` never leaves the word of a gate verdict.

* `handedBack_of_redStack` — what the row does keep, in every run without an override: until the
  work is submitted anew it is in REWORK, WORKING from there or closed, and names the red tip.
* `redStacksStayBarred_iff` — so the stack stays barred in a run exactly when no claim of it meets a
  row in REWORK that has lost one of the two fields.
-/

set_option autoImplicit false

namespace Spira.Bead

open History

/-- The event is a claim that proposes `stack`, within its depth. -/
def BeadEventKind.claims (stack : Stack) : BeadEventKind → Prop
  | .claim _ _ proposed stackDepth stackMaxDepth _ => proposed = stack ∧ stackDepth ≤ stackMaxDepth
  | _ => False

/-- A red that bars `t` puts the row in REWORK while it records `stack`. -/
def RedOn (t : String) (stack : Stack) (row : BeadRow) (ev : BeadEvent) : Prop :=
  barredBy row ev = some t ∧ (step row ev).state = .rework ∧ (step row ev).stack = stack

/-- An accepted submission of another tip, or of work on another stack. -/
def SubmitsAnew (t : String) (stack : Stack) (row : BeadRow) (ev : BeadEvent) : Prop :=
  (apply row ev).applied = true ∧
    (match ev.kind with
      | .submit _ | .restack _ _ _ => True
      | _ => False) ∧
    ((step row ev).tip ≠ some t ∨ (step row ev).stack ≠ stack)

/-- `stack` was red at `t`, and no work has been submitted anew since. -/
def RedStack (t : String) (stack : Stack) (row : BeadRow) (es : List BeadEvent) : Prop :=
  stack.isEmpty = false ∧
    Since step (RedOn t stack) (fun row ev ↦ ¬ SubmitsAnew t stack row ev) row es

/-- In the run, no claim of a red stack is applied. -/
def RedStacksStayBarred (row : BeadRow) (es : List BeadEvent) : Prop :=
  ∀ pre ev post, es = pre ++ ev :: post → ∀ t stack, RedStack t stack row pre →
    ev.kind.claims stack → (apply (run step row pre) ev).applied = false

/-- The row no longer tells that `stack` was red: it records another, or its reason is not the word
of a gate verdict. -/
def Forgotten (stack : Stack) (row : BeadRow) : Prop :=
  row.stack ≠ stack ∨ row.reason.any (fun r ↦ (GateRedReason.fromStr r).isSome) = false

/-- No claim of a red stack meets a row in REWORK that has forgotten the red. -/
def NeverForgotten (row : BeadRow) (es : List BeadEvent) : Prop :=
  ∀ pre ev post, es = pre ++ ev :: post → ∀ t stack, RedStack t stack row pre →
    ev.kind.claims stack → Admitted (run step row pre) ev → (run step row pre).state = .rework →
    ¬ Forgotten stack (run step row pre)

/-- Where a red leaves a row until the work is submitted anew. -/
structure HandedBack (t : String) (row : BeadRow) : Prop where
  red : row.ejectedRedTip = some t
  place : row.state = .rework ∨ (row.state = .working ∧ row.claimedFrom = some .rework) ∨
    row.state.isTerminal

section Step

variable {row : BeadRow} {ev : BeadEvent} {t : String} {stack : Stack}

theorem handedBack_of_redOn (h : RedOn t stack row ev) : HandedBack t (step row ev) := by
  obtain ⟨hbar, hstate, -⟩ := h
  refine ⟨?_, .inl hstate⟩
  obtain ⟨hf, -⟩ | ⟨ha, -, mid, hm, hrow⟩ := step_cases row ev
  · simp [barredBy, hf] at hbar
  · rw [hrow, settled_state] at hstate
    rw [hrow, settled_ejectedRedTip]
    simp only [barredBy, ha, if_true] at hbar
    generalize ev.kind = kind at hm hbar
    cases hm with
    | @gateRed tip reason hs ht =>
      dsimp only at hbar ⊢
      split at hbar <;> rename_i hbars
      · rw [if_pos hbars, ht, hbar]
      · cases hbar
    | gateRedInDelivery hs ht =>
      rw [show row.state = .rework from hstate] at hs
      cases hs
    | @returned reason hs =>
      dsimp only at hbar ⊢
      split at hbar <;> rename_i hbars
      · rw [if_pos hbars, hbar]
      · cases hbar
    | unclaim hk hs => obtain rfl | rfl := hk <;> cases hbar
    | _ => cases hbar

/-- Where a row that was handed back can be. -/
theorem HandedBack.not_mem (h : HandedBack t row) :
    ¬ row.state.isPending ∧ row.state ≠ .inDelivery ∧ row.state ≠ .ready ∧ row.state ≠ .open := by
  obtain hs | ⟨hs, -⟩ | ht := h.place
  · simp [BeadState.isPending, hs]
  · simp [BeadState.isPending, hs]
  · refine ⟨?_, ?_, ?_, ?_⟩
    · rintro (hs | hs) <;> simp [hs, BeadState.isTerminal] at ht
    all_goals
      intro hs
      simp [hs, BeadState.isTerminal] at ht

theorem HandedBack.step (h : HandedBack t row) (hk : ¬ ev.kind.overrides)
    (hn : ¬ SubmitsAnew t stack row ev) : HandedBack t (Bead.step row ev) := by
  obtain ⟨-, hrow⟩ | ⟨ha, -, mid, hm, hrow⟩ := step_cases row ev
  · rwa [hrow]
  obtain ⟨hpending, hdelivery, hready, hopen⟩ := h.not_mem
  have same {row' : BeadRow} (hs : row'.state = row.state) (hc : row'.claimedFrom = row.claimedFrom)
      (hr : row'.ejectedRedTip = row.ejectedRedTip) :
      HandedBack t (settled row.state ev.at_ row') := by
    refine ⟨by rw [settled_ejectedRedTip, hr, h.red], ?_⟩
    simpa [hs, hc] using h.place
  have closed {row' : BeadRow} (hs : row'.state.isTerminal)
      (hr : row'.ejectedRedTip = row.ejectedRedTip) :
      HandedBack t (settled row.state ev.at_ row') :=
    ⟨by rw [settled_ejectedRedTip, hr, h.red], .inr (.inr hs)⟩
  rw [SubmitsAnew, hrow] at hn
  rw [hrow]
  generalize ev.kind = kind at hm hk hn
  cases hm with
  | absolve | resubmit | reclassify => exact absurd trivial hk
  | contentOnBase => exact closed rfl rfl
  | supersede => exact closed rfl rfl
  | drop => exact closed rfl rfl
  | correctDropped => exact closed rfl rfl
  | done => exact closed rfl rfl
  | delivered => exact closed rfl rfl
  | promote hs => exact absurd hs hopen
  | sifted hs => exact absurd hs hpending
  | restack hs => exact absurd hs hpending
  | claimReady hs => exact absurd hs hready
  | claimRework hs => exact ⟨h.red, .inr (.inl ⟨rfl, by simp [hs]⟩)⟩
  | baseWithdrawnReady hs => exact absurd hs hready
  | baseWithdrawnRework hs => exact absurd hs hpending
  | unclaim hk hs =>
    -- The claim was made from REWORK, so the row goes back there.
    have hc : row.claimedFrom = some .rework := by
      obtain hs' | ⟨-, hc⟩ | ht := h.place
      · rw [hs] at hs'
        cases hs'
      · exact hc
      · rw [hs] at ht
        cases ht
    exact ⟨h.red, .inl (by simp [hc])⟩
  | @submitWork tip hs notRed =>
    -- The red tip is refused, so another is submitted.
    have hne : (some tip : Option String) ≠ some t := fun he ↦ notRed (h.red.trans he.symm)
    exact absurd ⟨ha, trivial, .inl hne⟩ hn
  | submitMoved hs => exact absurd hs hpending
  | submitAgain hs => exact absurd hs hpending
  | gatePass hs => exact absurd (.inl hs) hpending
  | gateRed hs => exact absurd hs hpending
  | gateRedInDelivery hs => exact absurd hs hdelivery
  | reapHolder hs => exact absurd (.inl hs) hpending
  | deliverSubmitted hs => exact absurd (.inl hs) hpending
  | deliverCertified hs => exact absurd (.inr hs) hpending
  | gateInfra hs => exact absurd (.inl hs) hpending
  | returned hs => exact absurd hs hdelivery
  | requeuedRed hs => exact absurd hs hdelivery
  | requeuedCertified hs => exact absurd hs hdelivery
  | requeuedSubmitted hs => exact absurd hs hdelivery
  | _ => exact same rfl rfl rfl

end Step

/-! ## Every run -/

section Run

variable {row : BeadRow} {es : List BeadEvent} {t : String} {stack : Stack}

/-- **Until work is submitted anew, a row with a red stack is where the red left it**: in REWORK,
claimed from there, or closed, with the red tip named. -/
theorem handedBack_of_redStack (hu : Unoverridden es) (h : RedStack t stack row es) :
    HandedBack t (run step row es) := by
  induction es using List.reverseRecOn with
  | nil => exact absurd h.2 not_since_nil
  | append_singleton es ev ih =>
    rw [run_snoc]
    obtain hred | ⟨hs, hn⟩ := since_snoc.mp h.2
    · exact handedBack_of_redOn hred
    · exact (ih (fun e he ↦ hu e (by simp [he])) ⟨h.1, hs⟩).step (hu ev (by simp)) hn

/-- A claim of a stack out of REWORK is refused exactly while the row has not forgotten the red. -/
theorem claim_refused_iff {ev : BeadEvent} (hne : stack.isEmpty = false)
    (hk : ev.kind.claims stack) (ha : Admitted row ev) (hs : row.state = .rework) :
    (apply row ev).applied = false ↔ ¬ Forgotten stack row := by
  have hunchanged : reworkClaimStackUnchanged row.stack row.reason stack = true ↔
      ¬ Forgotten stack row := by
    simp only [reworkClaimStackUnchanged, Forgotten, hne, Bool.not_false, Bool.true_and,
      Bool.and_eq_true, decide_eq_true_eq, not_or, not_not, Bool.not_eq_false]
    exact and_congr_left' eq_comm
  rw [← hunchanged]
  obtain ⟨expect, version, kind, actor, at_⟩ := ev
  cases kind with
  | claim holder leaseUntil proposed stackDepth stackMaxDepth persona =>
    obtain ⟨rfl, hd⟩ := hk
    rw [apply_applied, applyTransition_of_admitted ha]
    simp only [dispatch, primaryTransition, hs, reworkTransition, if_neg (Nat.not_lt.mpr hd)]
    split <;> rename_i hc <;> simp [hc]
  | _ => exact hk.elim

/-- **The stacks a red was on stay barred in a run exactly when no claim of one meets a row in
REWORK that has forgotten the red.** -/
theorem redStacksStayBarred_iff (hu : Unoverridden es) :
    RedStacksStayBarred row es ↔ NeverForgotten row es := by
  constructor
  · intro h pre ev post hes t stack hred hk ha hs
    exact (claim_refused_iff hred.1 hk ha hs).mp (h pre ev post hes t stack hred hk)
  · intro h pre ev post hes t stack hred hk
    obtain ⟨hf, -⟩ | ⟨-, ha, mid, hm, -⟩ := step_cases (run step row pre) ev
    · exact hf
    have hback := handedBack_of_redStack (fun e he ↦ hu e (by simp [hes, he])) hred
    have hs : (run step row pre).state = .rework := by
      generalize ev.kind = kind at hm hk
      cases hm with
      | claimReady hs => exact absurd hs hback.not_mem.2.2.1
      | claimRework hs => exact hs
      | unclaim hk' => obtain rfl | rfl := hk' <;> exact hk.elim
      | _ => exact hk.elim
    exact (claim_refused_iff hred.1 hk ha hs).mpr (h pre ev post hes t stack hred hk ha hs)

end Run

/-!
## A red stack that comes back

A dwarf's work on `redStack` is red.  Proposing `redStack` again is refused (`refusedStack`); but
once the bead has been held, the hold's reason stands where the red's stood, and the claim is
taken (`heldStack`).
-/

def redStack : Stack := (∅ : Stack).insert "sp-a" otherTip

def redOnStack : List BeadEvent :=
  [.given .ready 0 (.claim "dwarf" 100 redStack 1 3 none),
    .given .working 1 (.submit redTip),
    .given .submitted 2 (.gateRed redTip .suitesFailed)]

def refusedStack : List BeadEvent :=
  redOnStack ++ [.given .rework 3 (.claim "dwarf" 200 redStack 1 3 none)]

def heldStack : List BeadEvent :=
  redOnStack ++
    [.given .rework 3 (.hold .wait .unlandedBlocker none),
      .given .rework 4 (.claim "dwarf" 200 redStack 1 3 none)]

theorem redStack_refused : RedStacksStayBarred (.filed "sp-1") refusedStack := by
  refine (redStacksStayBarred_iff ?_).mpr ?_
  · simp [Unoverridden, refusedStack, redOnStack, BeadEvent.given, BeadEventKind.overrides]
  · intro pre ev post h t stack hred hk ha hs
    simp only [refusedStack, redOnStack, List.cons_append, List.nil_append,
      List.cons_eq_append_iff, List.nil_eq, List.append_eq_nil_iff, List.cons.injEq, reduceCtorEq,
      and_false, exists_false, or_false] at h
    obtain ⟨rfl, rfl, -⟩ | ⟨_, rfl, ⟨rfl, rfl, -⟩ | ⟨_, rfl, ⟨rfl, rfl, -⟩ |
      ⟨_, rfl, rfl, rfl, -⟩⟩⟩ := h
    case inl => exact absurd hred.2 not_since_nil
    case inr.inr.inr =>
      -- The second claim finds both fields as the red left them.
      obtain ⟨rfl, -⟩ := hk
      rintro (hf | hf)
      · exact hf rfl
      · revert hf
        decide
    all_goals exact hk.elim

theorem redStack_heldStack :
    RedStack redTip redStack (.filed "sp-1") (heldStack.take 4) := by
  refine ⟨by simp [redStack], ?_⟩
  have hred : RedOn redTip redStack (run step (.filed "sp-1") (redOnStack.take 2))
      (.given .submitted 2 (.gateRed redTip .suitesFailed)) := ⟨by decide, by decide, rfl⟩
  refine since_snoc.mpr (.inr ⟨since_snoc.mpr (.inl hred), ?_⟩)
  exact fun h ↦ h.2.1

theorem redStack_reclaimed :
    Unoverridden heldStack ∧ ¬ RedStacksStayBarred (.filed "sp-1") heldStack := by
  refine ⟨by simp [Unoverridden, heldStack, redOnStack, BeadEvent.given,
    BeadEventKind.overrides], fun h ↦ ?_⟩
  have hclaims : (BeadEvent.given .rework 4 (.claim "dwarf" 200 redStack 1 3 none)).kind.claims
      redStack := ⟨rfl, by decide⟩
  have hrefused := h (heldStack.take 4) _ [] rfl redTip redStack redStack_heldStack hclaims
  refine (claim_refused_iff redStack_heldStack.1 hclaims ?_ (by decide)).mp hrefused
    (.inr (by decide))
  refine ⟨by decide, by decide, fun tip h ↦ ?_⟩
  cases h

end Spira.Bead
