import Spira.Lib.History
import Spira.Lifecycle.Bead.Moves

/-!
# Red tips

A red verdict on a tree is a verdict on one tip: the same tree is red again, so the machine means
to take only a changed tip after it.  It keeps the verdict on the row, in `ejectedRedTip`, and
`submit` from WORKING and `deliver` from SUBMITTED look there.

* `ejectedRedTip_since` — what is kept: the row names the tip of the last red it *recorded*, in every
  run without one of the three moves that may override a verdict.
* `redTipsStayBarred_iff` — what is meant, that a tip barred by a red is neither pending nor
  delivered again, holds of a run exactly when none of its steps readmits a barred tip.

The two differ in the reds a row takes IN_DELIVERY, which leave no mark but in the free-text
reason, and in the ways into SUBMITTED that do not look at the mark at all: `submit` and `restack`
on a row that is already SUBMITTED or CERTIFIED.
-/

set_option autoImplicit false

namespace Spira.Bead

open History

/-! ## What a red bars -/

/-- The three moves that may override a verdict. -/
def BeadEventKind.overrides : BeadEventKind → Prop
  | .resubmit _ _ | .absolve _ _ | .reclassify _ _ => True
  | _ => False

/-- The tip an applied event bars: a red gate verdict on the tree, or an ejection that judged the
member itself. -/
def barredBy (row : BeadRow) (ev : BeadEvent) : Option String :=
  if (apply row ev).applied then
    match ev.kind with
    | .gateRed tip reason => if gateRedBarsTip reason then some tip else none
    | .returned reason => if returnedBarsTip reason then row.tip else none
    | _ => none
  else none

/-- The tip an applied event bars and writes on the row as ejected: any red but one that arrives
while the row is IN_DELIVERY, which is left in the reason. -/
def recordedBy (row : BeadRow) (ev : BeadEvent) : Option String :=
  match ev.kind with
  | .gateRed _ _ => if row.state = .inDelivery then none else barredBy row ev
  | _ => barredBy row ev

/-- A red barred `t`, and no later one barred another tip. -/
def Barred (t : String) (row : BeadRow) (es : List BeadEvent) : Prop :=
  Since step (fun row ev ↦ barredBy row ev = some t)
    (fun row ev ↦ ∀ u, barredBy row ev = some u → u = t) row es

/-- The row is pending at `t`: the next round may take it. -/
def PendingAt (t : String) (row : BeadRow) : Prop := row.state.isPending ∧ row.tip = some t

/-- The event takes the row into delivery at `t`. -/
def DeliversAt (t : String) (row : BeadRow) (ev : BeadEvent) : Prop :=
  ev.kind = .deliver ∧ (apply row ev).applied = true ∧ row.tip = some t

/-- In no row of the run, and by no delivery of it, is a tip pending or delivered that a red before
had barred. -/
def RedTipsStayBarred (row : BeadRow) (es : List BeadEvent) : Prop :=
  ∀ t, (∀ pre post, es = pre ++ post → Barred t row pre → ¬ PendingAt t (run step row pre)) ∧
    ∀ pre ev post, es = pre ++ ev :: post → Barred t row pre →
      ¬ DeliversAt t (run step row pre) ev

/-- The steps that put a row back to pending at `t` whatever a red said of `t`: a `submit` or a
`restack` to `t` of a row that is pending already, a `submit` of `t` from WORKING when the row does
not name `t` as ejected, and a `requeued` of a row IN_DELIVERY at `t` when the row does not name as
ejected the tip the requeue names. -/
def Readmits (t : String) (row : BeadRow) (ev : BeadEvent) : Prop :=
  Admitted row ev ∧
    match ev.kind with
    | .submit tip => tip = t ∧
        (row.state.isPending ∨ (row.state = .working ∧ row.ejectedRedTip ≠ some t))
    | .restack tip stack stackDepth => tip = t ∧ row.state.isPending ∧
        ¬ stack.isEmpty ∧ stackDepth ≠ 0 ∧ row.beadId ∉ stack
    | .requeued tip => row.state = .inDelivery ∧ row.tip = some t ∧ row.ejectedRedTip ≠ some tip
    | _ => False

/-! ## One step -/

section Step

variable {row : BeadRow} {ev : BeadEvent} {t : String}

/-- A red leaves no row pending. -/
theorem not_pending_of_barredBy (h : barredBy row ev = some t) :
    ¬ (step row ev).state.isPending := by
  obtain ⟨hf, -⟩ | ⟨-, -, mid, hm, hrow⟩ := step_cases row ev
  · simp [barredBy, hf] at h
  · rw [hrow, settled_state]
    unfold barredBy at h
    generalize ev.kind = kind at hm h
    cases hm with
    | gateRed hs ht => simp [BeadState.isPending]
    | gateRedInDelivery hs ht => simp [BeadState.isPending, hs]
    | returned hs => simp [BeadState.isPending]
    | unclaim hk hs => rcases hk with rfl | rfl <;> simp at h
    | _ => simp at h

/-- A row becomes pending at `t` only by a step that readmits `t`. -/
theorem pendingAt_step (hk : ¬ ev.kind.overrides) (h : PendingAt t (step row ev)) :
    PendingAt t row ∨ Readmits t row ev := by
  obtain ⟨-, hrow⟩ | ⟨-, ha, mid, hm, hrow⟩ := step_cases row ev
  · exact .inl (hrow ▸ h)
  · rw [hrow] at h
    obtain ⟨hp, ht⟩ := h
    rw [settled_state] at hp
    rw [settled_tip] at ht
    unfold Readmits PendingAt
    generalize ev.kind = kind at hm hk
    cases hm with
    | submitWork hs notRed => 
      obtain rfl := Option.some.inj ht
      exact .inr ⟨ha, rfl, .inr ⟨hs, notRed⟩⟩
    | submitMoved hs moved => exact .inr ⟨ha, Option.some.inj ht, .inl hs⟩
    | restack hs nonempty deep notSelf =>
      exact .inr ⟨ha, Option.some.inj ht, hs, nonempty, deep, notSelf⟩
    | requeuedCertified hs notRed keyed certified htip => exact .inr ⟨ha, hs, ht, notRed⟩
    | requeuedSubmitted hs notRed void => exact .inr ⟨ha, hs, ht, notRed⟩
    | gatePass hs htip => exact .inl ⟨.inl hs, ht⟩
    | absolve => exact absurd trivial hk
    | resubmit => exact absurd trivial hk
    | reclassify => exact absurd trivial hk
    | unclaim hk hs => 
      exfalso
      revert hp
      dsimp only
      split <;> simp [BeadState.isPending]
    | _ => first | exact .inl ⟨hp, ht⟩ | exact absurd hp (by simp [BeadState.isPending])

theorem pendingAt_of_readmits (h : Readmits t row ev) : PendingAt t (step row ev) := by
  obtain ⟨ha, h⟩ := h
  have moved {row' : BeadRow} (hm : Move row ev.actor ev.kind row') (hp : row'.state.isPending)
      (ht : row'.tip = some t) : PendingAt t (step row ev) := by
    simpa [step, apply_of_move ha hm, PendingAt] using ⟨hp, ht⟩
  generalize hkind : ev.kind = kind at moved h
  cases kind with
  | submit tip =>
    obtain ⟨rfl, hp | ⟨hs, notRed⟩⟩ := h
    · by_cases ht : row.tip = some tip
      · exact moved (.submitAgain hp ht) hp ht
      · exact moved (.submitMoved hp ht) (.inl rfl) rfl
    · exact moved (.submitWork hs notRed) (.inl rfl) rfl
  | restack tip stack stackDepth =>
    obtain ⟨rfl, hp, nonempty, deep, notSelf⟩ := h
    exact moved (.restack hp nonempty deep notSelf) (.inl rfl) rfl
  | requeued tip =>
    obtain ⟨hs, ht, notRed⟩ := h
    by_cases hc : row.gateKey.isSome ∧ row.reason ≠ some fromSubmitted ∧ row.tip = some tip
    · exact moved (.requeuedCertified hs notRed hc.1 hc.2.1 hc.2.2) (.inr rfl) ht
    · exact moved (.requeuedSubmitted hs notRed hc) (.inl rfl) ht
  | _ => exact h.elim

/-- No step that readmits a tip is itself a red. -/
theorem barredBy_of_readmits (h : Readmits t row ev) : barredBy row ev = none := by
  obtain ⟨-, h⟩ := h
  unfold barredBy
  generalize ev.kind = kind at h
  cases kind with
  | gateRed | returned => exact h.elim
  | _ => simp

theorem pendingAt_of_deliversAt (h : DeliversAt t row ev) : PendingAt t row := by
  obtain ⟨hk, hap, ht⟩ := h
  obtain ⟨hf, -⟩ | ⟨-, -, mid, hm, -⟩ := step_cases row ev
  · simp [hf] at hap
  · rw [hk] at hm
    cases hm with
    | deliverSubmitted hs => exact ⟨.inl hs, ht⟩
    | deliverCertified hs => exact ⟨.inr hs, ht⟩
    | unclaim hk => simp at hk

/-- A row that is pending or in delivery has a tip. -/
def Tipped (row : BeadRow) : Prop :=
  row.state.isPending ∨ row.state = .inDelivery → row.tip.isSome

theorem tipped_step (hk : ¬ ev.kind.overrides) (h : Tipped row) : Tipped (step row ev) := by
  obtain ⟨-, hrow⟩ | ⟨-, -, mid, hm, hrow⟩ := step_cases row ev
  · rwa [hrow]
  · simp only [hrow, Tipped, settled_state, settled_tip, BeadState.isPending] at h ⊢
    generalize ev.kind = kind at hm hk
    cases hm with
    | absolve | resubmit | reclassify => exact absurd trivial hk
    | gatePass hs ht => simp [ht]
    | deliverSubmitted hs => simpa [hs] using h
    | deliverCertified hs => simpa [hs] using h
    | requeuedCertified hs => simpa [hs] using h
    | requeuedSubmitted hs => simpa [hs] using h
    | unclaim hk hs => split <;> simp
    | _ => simp_all

/-- What a step does to the ejected tip: it becomes the tip of the red the step records, if any. -/
theorem ejectedRedTip_step (hk : ¬ ev.kind.overrides) (h : Tipped row) :
    (step row ev).ejectedRedTip = (recordedBy row ev).or row.ejectedRedTip := by
  obtain ⟨hf, hrow⟩ | ⟨ha, -, mid, hm, hrow⟩ := step_cases row ev
  · have : barredBy row ev = none := by simp [barredBy, hf]
    rw [hrow, recordedBy]
    split <;> simp [this]
  · simp only [hrow, settled_ejectedRedTip, recordedBy, barredBy, ha, if_true]
    generalize ev.kind = kind at hm hk
    cases hm with
    | absolve | resubmit | reclassify => exact absurd trivial hk
    | gateRed hs ht =>
      have : row.state ≠ .inDelivery := by rcases hs with hs | hs <;> simp [hs]
      dsimp only
      rw [if_neg this, ht]
      split <;> rfl
    | gateRedInDelivery hs ht => simp [hs]
    | returned hs =>
      obtain ⟨u, hu⟩ := Option.isSome_iff_exists.mp (h (.inr hs))
      dsimp only
      rw [hu]
      split <;> rfl
    | unclaim hk hs => rcases hk with rfl | rfl <;> rfl
    | _ => rfl

end Step

/-! ## Every run -/

section Run

variable {row : BeadRow} {es : List BeadEvent} {t : String}

/-- The run holds none of the three moves that may override a verdict. -/
def Unoverridden (es : List BeadEvent) : Prop := ∀ ev ∈ es, ¬ ev.kind.overrides

/-- No step of the run readmits a tip a red before it had barred. -/
def NeverReadmits (row : BeadRow) (es : List BeadEvent) : Prop :=
  ∀ pre ev post, es = pre ++ ev :: post → ∀ t, Barred t row pre → ¬ Readmits t (run step row pre) ev

/-- **The row names as ejected the tip of the last red it recorded.** -/
theorem ejectedRedTip_since {beadId : String} (hu : Unoverridden es) :
    (run step (.filed beadId) es).ejectedRedTip = some t ↔
      Since step (fun row ev ↦ recordedBy row ev = some t)
        (fun row ev ↦ ∀ u, recordedBy row ev = some u → u = t) (.filed beadId) es := by
  have kept : ∀ es, Unoverridden es → Tipped (run step (.filed beadId) es) := by
    intro es
    induction es using List.reverseRecOn with
    | nil => exact fun _ h ↦ by simp [BeadRow.filed, BeadState.isPending] at h
    | append_singleton es ev ih =>
      intro hu
      rw [run_snoc]
      exact tipped_step (hu ev (by simp)) (ih fun e he ↦ hu e (by simp [he]))
  induction es using List.reverseRecOn with
  | nil => simp [BeadRow.filed]
  | append_singleton es ev ih =>
    have hu' : Unoverridden es := fun e he ↦ hu e (by simp [he])
    refine Iff.trans ?_ (since_snoc.trans (or_congr_right (and_congr_left' (ih hu').symm))).symm
    rw [run_snoc, ejectedRedTip_step (hu ev (by simp)) (kept es hu')]
    cases hr : recordedBy (run step (.filed beadId) es) ev with
    | none => simp
    | some u =>
      simp only [Option.some_or, Option.some.injEq, forall_eq']
      tauto

theorem not_pendingAt_of_barred (hu : Unoverridden es) (hn : NeverReadmits row es)
    (hb : Barred t row es) : ¬ PendingAt t (run step row es) := by
  induction es using List.reverseRecOn with
  | nil => exact absurd hb not_since_nil
  | append_singleton es ev ih =>
    rw [run_snoc]
    obtain hred | ⟨hb, -⟩ := since_snoc.mp hb
    · exact fun hp ↦ not_pending_of_barredBy hred hp.1
    · intro hp
      obtain hp | hr := pendingAt_step (hu ev (by simp)) hp
      · refine ih (fun e he ↦ hu e (by simp [he])) (fun pre e post h ↦ ?_) hb hp
        exact hn pre e (post ++ [ev]) (by simp [h])
      · exact hn es ev [] rfl t hb hr

/-- **Red tips stay barred in a run exactly when none of its steps readmits a barred tip.** -/
theorem redTipsStayBarred_iff (hu : Unoverridden es) :
    RedTipsStayBarred row es ↔ NeverReadmits row es := by
  constructor
  · rintro h pre ev post rfl t hb hr
    -- The step that readmits `t` is no red, so `t` is still barred in the row it leaves.
    refine (h t).1 (pre ++ [ev]) post (by simp) (since_snoc.mpr (.inr ⟨hb, fun u hu ↦ ?_⟩)) ?_
    · simp [barredBy_of_readmits hr] at hu
    · rw [run_snoc]
      exact pendingAt_of_readmits hr
  · intro hn t
    have clean : ∀ pre post, es = pre ++ post → Barred t row pre → ¬ PendingAt t (run step row pre) := by
      rintro pre post rfl hb
      refine not_pendingAt_of_barred (fun e he ↦ hu e (by simp [he])) ?_ hb
      rintro p e q rfl
      exact hn p e (q ++ post) (by simp)
    exact ⟨clean, fun pre ev post h hb hd ↦ clean pre (ev :: post) h hb (pendingAt_of_deliversAt hd)⟩

end Run

/-! ## A red tip that comes back

A dwarf submits `redTip` and the gate goes red on it.  The next dwarf cannot submit `redTip` again
(`refusedRed`); but it can submit `otherTip` and then, the row being SUBMITTED, `redTip`
(`resubmittedRed`): the mark is on the row, and nothing looks at it. -/

def redTip : String := "aaaaaaaaaaaaaaaaaaaaaaaaaaaaaaaaaaaaaaaa"

def otherTip : String := "bbbbbbbbbbbbbbbbbbbbbbbbbbbbbbbbbbbbbbbb"

def refusedRed : List BeadEvent :=
  [.given .ready 0 (.claim "dwarf" 100 ∅ 0 0 none),
    .given .working 1 (.submit redTip),
    .given .submitted 2 (.gateRed redTip .suitesFailed),
    .given .rework 3 (.claim "dwarf" 200 ∅ 0 0 none),
    .given .working 4 (.submit redTip)]

def resubmittedRed : List BeadEvent :=
  refusedRed.take 4 ++
    [.given .working 4 (.submit otherTip),
      .given .submitted 5 (.submit redTip)]

theorem redTip_refused : RedTipsStayBarred (.filed "sp-1") refusedRed := by
  refine (redTipsStayBarred_iff ?_).mpr ?_
  · simp [Unoverridden, refusedRed, BeadEvent.given, BeadEventKind.overrides]
  · intro pre ev post h t hb hr
    simp only [refusedRed, List.cons_eq_append_iff, List.nil_eq, List.append_eq_nil_iff,
      List.cons.injEq, reduceCtorEq, and_false, exists_false, or_false] at h
    obtain ⟨rfl, rfl, -⟩ | ⟨_, rfl, ⟨rfl, rfl, -⟩ | ⟨_, rfl, ⟨rfl, rfl, -⟩ |
      ⟨_, rfl, ⟨rfl, rfl, -⟩ | ⟨_, rfl, rfl, rfl, -⟩⟩⟩⟩ := h
    case inr.inl =>
      -- The first submit: no red has come before it.
      obtain ⟨e, he, row, hbar⟩ := hb.exists_mem
      obtain rfl : e = .given .ready 0 (.claim "dwarf" 100 ∅ 0 0 none) := by simpa using he
      have hnone : barredBy row (.given .ready 0 (.claim "dwarf" 100 ∅ 0 0 none)) = none := by
        unfold barredBy
        split <;> rfl
      simp [hnone] at hbar
    case inr.inr.inr.inr =>
      -- The second: the row names the tip as ejected.
      obtain ⟨rfl, hp | ⟨-, hne⟩⟩ := hr.2
      · exact absurd hp (by decide)
      · exact hne (by decide)
    all_goals exact hr.2

theorem redTip_readmitted :
    Unoverridden resubmittedRed ∧ ¬ RedTipsStayBarred (.filed "sp-1") resubmittedRed := by
  refine ⟨by simp [Unoverridden, resubmittedRed, refusedRed, BeadEvent.given,
    BeadEventKind.overrides], ?_⟩
  intro h
  refine (h redTip).1 resubmittedRed [] (by simp) ?_ ⟨by decide, by decide⟩
  have hred : barredBy (run step (.filed "sp-1") (resubmittedRed.take 2))
      (.given .submitted 2 (.gateRed redTip .suitesFailed)) = some redTip := by decide
  have hkeep : ∀ ev ∈ resubmittedRed.drop 3, ∀ row u, barredBy row ev = some u → u = redTip := by
    simp [resubmittedRed, refusedRed, BeadEvent.given, barredBy]
  have hsplit : resubmittedRed = resubmittedRed.take 2 ++
      .given .submitted 2 (.gateRed redTip .suitesFailed) :: resubmittedRed.drop 3 := rfl
  rw [Barred, hsplit]
  exact since_of_mem hred hkeep

end Spira.Bead
