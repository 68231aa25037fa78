import Spira.Lib.History
import Spira.Lifecycle.Bead.Moves

/-!
# The tip invariant

A certification is a claim about one exact tree.  The row keeps it as a gate key beside its tip,
and what voids it either clears the key or takes the row to a state from which the way back does.

Two events void a certification and do neither: a red verdict that arrives IN_DELIVERY, and a
requeue that names another tip.  `certifiedByPass_iff` says that these are all there is to it: a
CERTIFIED row stands on the last gate pass, with nothing having voided it since, in exactly the
runs where no requeue recertifies a row after one of the two.
-/

set_option autoImplicit false

namespace Spira.Bead

open History

/-! ## Passes and what voids them -/

/-- The event is a gate pass of `tip` with `gateKey`, and it was applied. -/
def Passes (tip gateKey : String) (row : BeadRow) (ev : BeadEvent) : Prop :=
  (apply row ev).applied = true ∧ ev.kind = .gatePass tip gateKey

/-- The event is an applied gate pass. -/
def IsPass (row : BeadRow) (ev : BeadEvent) : Prop := ∃ tip gateKey, Passes tip gateKey row ev

/-- The event was applied and voids a certification of `tip`. -/
def Voids (tip : String) (row : BeadRow) (ev : BeadEvent) : Prop :=
  (apply row ev).applied = true ∧
    match ev.kind with
    | .submit t | .restack t _ _ => t ≠ tip
    | .gateRed t _ => t = tip
    | .baseWithdrawn _ _ => (step row ev).state ≠ row.state
    | .requeued t => t ≠ tip
    | _ => False

/-- The event voids a certification of `tip` and leaves the key on the row, in a state from which it
may come back as CERTIFIED: a red verdict IN_DELIVERY, or a requeue that names another tip. -/
def Lapses (tip : String) (row : BeadRow) (ev : BeadEvent) : Prop :=
  (apply row ev).applied = true ∧
    match ev.kind with
    | .gateRed t _ => t = tip ∧ row.state = .inDelivery
    | .requeued t => t ≠ tip
    | _ => False

/-- Whenever the row is CERTIFIED, its tip and gate key are those of the last gate pass, and nothing
has voided that pass since. -/
def CertifiedByPass (row : BeadRow) (es : List BeadEvent) : Prop :=
  ∀ pre post, es = pre ++ post → (run step row pre).state = .certified →
    ∃ tip gateKey, (run step row pre).tip = some tip ∧ (run step row pre).gateKey = some gateKey ∧
      Since step (Passes tip gateKey) (fun row ev ↦ ¬ IsPass row ev ∧ ¬ Voids tip row ev) row pre

/-- The last gate pass of `tip` has lapsed: one of the two events has come after it. -/
def Lapsed (tip : String) (row : BeadRow) (es : List BeadEvent) : Prop :=
  Since step (Lapses tip) (fun row ev ↦ ¬ IsPass row ev) row es

/-- The step requeues, to CERTIFIED, a row IN_DELIVERY at `tip` that keeps a gate key. -/
def Recertifies (tip : String) (row : BeadRow) (ev : BeadEvent) : Prop :=
  Admitted row ev ∧ ev.kind = .requeued tip ∧ row.state = .inDelivery ∧ row.tip = some tip ∧
    row.gateKey.isSome ∧ row.reason ≠ some fromSubmitted ∧ row.ejectedRedTip ≠ some tip

/-- No step of the run requeues a row to CERTIFIED at a tip whose pass has lapsed. -/
def NeverRecertifiesLapsed (row : BeadRow) (es : List BeadEvent) : Prop :=
  ∀ pre ev post, es = pre ++ ev :: post → ∀ tip, Lapsed tip row pre →
    ¬ Recertifies tip (run step row pre) ev

/-- The classifier wrote no row of the run. -/
def Unclassified (es : List BeadEvent) : Prop :=
  ∀ ev ∈ es, ∀ state rule, ev.kind ≠ .reclassify state rule

/-! ## One step -/

/-- The states in which a row can carry a certification. -/
def BeadState.carriesKey (s : BeadState) : Prop := s.isPending ∨ s = .inDelivery

section Step

variable {row : BeadRow} {ev : BeadEvent} {tip key : String}

theorem lapses_voids (h : Lapses tip row ev) : Voids tip row ev := by
  obtain ⟨ha, h⟩ := h
  refine ⟨ha, ?_⟩
  generalize ev.kind = kind at h
  cases kind with
  | gateRed t reason => exact h.1
  | requeued t => exact h
  | _ => exact h.elim

/-- Where the key on a row that can carry one comes from: a pass, or the row before, which the step
has left where it can carry it without a void that would have cleared it. -/
theorem keyed_step (hc : ∀ state rule, ev.kind ≠ .reclassify state rule)
    (hs : (step row ev).state.carriesKey) (hk : (step row ev).gateKey = some key) :
    (∃ tip, Passes tip key row ev ∧ (step row ev).tip = some tip) ∨
      (row.state.carriesKey ∧ row.gateKey = some key ∧ (step row ev).tip = row.tip ∧
        ¬ IsPass row ev ∧ ∀ tip, row.tip = some tip → Voids tip row ev → Lapses tip row ev) := by
  obtain ⟨hf, hrow⟩ | ⟨ha, -, mid, hm, hrow⟩ := step_cases row ev
  · rw [hrow] at hs hk
    refine .inr ⟨hs, hk, by rw [hrow], ?_, fun tip _ hv ↦ ?_⟩
    · rintro ⟨tip, gateKey, hap, -⟩
      simp [hf] at hap
    · simp [Voids, hf] at hv
  · simp only [IsPass, Passes, Voids, Lapses, ha, hrow, settled_state, settled_tip,
      settled_gateKey, true_and] at hs hk ⊢
    generalize ev.kind = kind at hm hc
    cases hm with
    | gatePass | gateRedInDelivery | requeuedCertified | requeuedSubmitted | submitAgain =>
      simp_all [BeadState.carriesKey, BeadState.isPending]
    | reclassify => exact absurd rfl (hc _ _)
    | absolve =>
      -- A row that is readmitted loses its key.
      dsimp only at hs hk
      split at hk
      · simp at hk
      · rename_i hn
        rw [if_neg hn] at hs
        exact .inr ⟨hs, hk, rfl, by simp, by simp⟩
    | unclaim _ hw =>
      revert hs
      dsimp only
      split <;> simp [BeadState.carriesKey, BeadState.isPending]
    -- What is left clears the key, keeps state and tip, or leaves the states that carry a key.
    | _ =>
      first
      | exact .inr ⟨hs, hk, rfl, by simp, by simp⟩
      | simp_all [BeadState.carriesKey, BeadState.isPending]

/-- A row becomes CERTIFIED by a pass or by a requeue, and no step that finds it so and leaves it so
clears its key or lapses its pass. -/
theorem certified_step (hc : ∀ state rule, ev.kind ≠ .reclassify state rule)
    (hs : (step row ev).state = .certified) :
    (IsPass row ev ∧ (step row ev).gateKey.isSome) ∨
      ((step row ev).gateKey = row.gateKey ∧ (step row ev).tip = row.tip ∧
        ((row.state = .certified ∧ ∀ tip, ¬ Lapses tip row ev) ∨
          (row.gateKey.isSome ∧ ∃ tip, Recertifies tip row ev ∧ ¬ Lapses tip row ev))) := by
  obtain ⟨hf, hrow⟩ | ⟨ha, hadm, mid, hm, hrow⟩ := step_cases row ev
  · exact .inr ⟨by rw [hrow], by rw [hrow], .inl ⟨hrow ▸ hs, by simp [Lapses, hf]⟩⟩
  · simp only [IsPass, Passes, Lapses, Recertifies, ha, hadm, hrow, settled_state,
      settled_gateKey, settled_tip, true_and] at hs ⊢
    generalize ev.kind = kind at hm hc
    cases hm with
    | reclassify => exact absurd rfl (hc _ _)
    | requeuedCertified hps notRed keyed certified ht =>
      exact .inr ⟨rfl, rfl, .inr ⟨keyed, _, ⟨rfl, hps, ht, keyed, certified, notRed⟩, by simp⟩⟩
    | gatePass => simp
    | unclaim _ hw =>
      revert hs
      dsimp only
      split <;> simp
    | absolve =>
      dsimp only at hs ⊢
      split at hs
      · simp at hs
      · rename_i hn
        exact .inr ⟨if_neg hn, rfl, .inl ⟨hs, by simp⟩⟩
    | gateRedInDelivery hps => simp [hps] at hs
    | _ => first | exact .inr ⟨rfl, rfl, .inl ⟨hs, by simp⟩⟩ | simp at hs

theorem certified_of_recertifies (h : Recertifies tip row ev) :
    (step row ev).state = .certified ∧ (step row ev).tip = some tip := by
  obtain ⟨ha, hk, hs, ht, keyed, certified, notRed⟩ := h
  have hm : Move row ev.actor (.requeued tip) _ := .requeuedCertified hs notRed keyed certified ht
  rw [← hk] at hm
  simp [step, apply_of_move ha hm, ht]

end Step

/-! ## Every run -/

section Run

variable {beadId : String} {es : List BeadEvent} {tip key : String}

theorem Unclassified.of_snoc {ev : BeadEvent} (h : Unclassified (es ++ [ev])) :
    Unclassified es ∧ ∀ state rule, ev.kind ≠ .reclassify state rule :=
  ⟨fun e he ↦ h e (by simp [he]), h ev (by simp)⟩

/-- The key on a row that can carry one is that of the last pass, of the row's tip, and what has
voided the pass since has only lapsed it. -/
theorem since_pass (hu : Unclassified es) (hs : (run step (.filed beadId) es).state.carriesKey)
    (hk : (run step (.filed beadId) es).gateKey = some key) :
    ∃ tip, (run step (.filed beadId) es).tip = some tip ∧
      Since step (Passes tip key)
        (fun row ev ↦ ¬ IsPass row ev ∧ (Voids tip row ev → Lapses tip row ev))
        (.filed beadId) es := by
  induction es using List.reverseRecOn with
  | nil => simp [BeadRow.filed] at hk
  | append_singleton es ev ih =>
    rw [run_snoc] at hs hk ⊢
    obtain ⟨tip, hp, ht⟩ | ⟨hs', hk', ht, hnp, hv⟩ := keyed_step hu.of_snoc.2 hs hk
    · exact ⟨tip, ht, since_snoc.mpr (.inl hp)⟩
    · obtain ⟨tip, ht', h⟩ := ih hu.of_snoc.1 hs' hk'
      exact ⟨tip, ht.trans ht', since_snoc.mpr (.inr ⟨h, hnp, hv tip ht'⟩)⟩

/-- A CERTIFIED row carries a key, and where no requeue recertifies a lapsed pass its own pass has
not lapsed. -/
theorem not_lapsed_of_certified (hu : Unclassified es)
    (hn : NeverRecertifiesLapsed (.filed beadId) es)
    (hs : (run step (.filed beadId) es).state = .certified) :
    (run step (.filed beadId) es).gateKey.isSome ∧
      ∀ tip, (run step (.filed beadId) es).tip = some tip → ¬ Lapsed tip (.filed beadId) es := by
  induction es using List.reverseRecOn with
  | nil => simp [BeadRow.filed] at hs
  | append_singleton es ev ih =>
    have hn' : NeverRecertifiesLapsed (.filed beadId) es := fun pre e post h ↦
      hn pre e (post ++ [ev]) (by simp [h])
    rw [run_snoc] at hs ⊢
    obtain ⟨hpass, hkey⟩ | ⟨hkey, htip, hprev⟩ := certified_step hu.of_snoc.2 hs
    · refine ⟨hkey, fun tip _ hl ↦ ?_⟩
      obtain hl | ⟨-, hnp⟩ := since_snoc.mp hl
      · obtain ⟨_, _, -, hk⟩ := hpass
        simp [Lapses, hk] at hl
      · exact hnp hpass
    · rw [hkey, htip]
      -- Either the row was CERTIFIED before, or the requeue that makes it so meets the hypothesis.
      obtain ⟨hcert, hnl⟩ | ⟨hsome, tip', hre, hnl⟩ := hprev
      · obtain ⟨hsome, ih⟩ := ih hu.of_snoc.1 hn' hcert
        refine ⟨hsome, fun tip ht hl ↦ ?_⟩
        exact (since_snoc.mp hl).elim (hnl tip) fun hl ↦ ih tip ht hl.1
      · refine ⟨hsome, fun tip ht hl ↦ ?_⟩
        obtain rfl : tip = tip' := by simpa [ht] using hre.2.2.2.1
        exact (since_snoc.mp hl).elim hnl fun hl ↦ hn es ev [] rfl tip hl.1 hre

/-- **A CERTIFIED row stands on the last gate pass in exactly the runs where no requeue
recertifies a lapsed one.** -/
theorem certifiedByPass_iff (hu : Unclassified es) :
    CertifiedByPass (.filed beadId) es ↔ NeverRecertifiesLapsed (.filed beadId) es := by
  constructor
  · rintro h pre ev post rfl tip hl hr
    obtain ⟨hs, ht⟩ := certified_of_recertifies hr
    obtain ⟨tip', key, ht', -, hsince⟩ := h (pre ++ [ev]) post (by simp) (by simpa using hs)
    have hk : ev.kind = .requeued tip := hr.2.1
    obtain rfl : tip = tip' := by simpa [ht] using ht'
    have hl' : Lapsed tip (.filed beadId) (pre ++ [ev]) :=
      since_snoc.mpr (.inr ⟨hl, by simp [IsPass, Passes, hk]⟩)
    refine hsince.false_of hl' (fun row e hp ↦ ⟨?_, fun hnp ↦ hnp ⟨_, _, hp⟩⟩)
      fun row e hlap hkeep ↦ hkeep.2 (lapses_voids hlap)
    simp [Lapses, hp.2]
  · rintro hn pre post rfl hs
    have hu' : Unclassified pre := fun e he ↦ hu e (by simp [he])
    have hn' : NeverRecertifiesLapsed (.filed beadId) pre := by
      rintro p e q rfl
      exact hn p e (q ++ post) (by simp)
    obtain ⟨hkey, hnl⟩ := not_lapsed_of_certified hu' hn' hs
    obtain ⟨key, hkey⟩ := Option.isSome_iff_exists.mp hkey
    obtain ⟨tip, ht, hsince⟩ := since_pass hu' (.inl (.inr hs)) hkey
    refine ⟨tip, key, ht, hkey, (hsince.and_not (hnl tip ht) fun _ _ h ↦ h.1).mono ?_⟩
    exact fun row e h ↦ ⟨h.1.1, fun hv ↦ h.2 (h.1.2 hv)⟩

end Run

/-!
## A lapsed pass that comes back

A certified tip goes into delivery and is requeued.  Where nothing came between, the row is
rightly CERTIFIED (`requeuedClean`).  Where the gate went red on the very tip in the meantime, it
is CERTIFIED as well (`requeuedRedTip`).
-/

def passedTip : String := "cccccccccccccccccccccccccccccccccccccccc"

/-- A claim, a submit, a pass and a delivery of `passedTip`. -/
def deliveredTip : List BeadEvent :=
  [.given .ready 0 (.claim "dwarf" 100 ∅ 0 0 none),
    .given .working 1 (.submit passedTip),
    .given .submitted 2 (.gatePass passedTip "key"),
    .given .certified 3 .deliver]

def requeuedClean : List BeadEvent :=
  deliveredTip ++ [.given .inDelivery 4 (.requeued passedTip)]

def requeuedRedTip : List BeadEvent :=
  deliveredTip ++
    [.given .inDelivery 4 (.gateRed passedTip .suitesFailed),
      .given .inDelivery 5 (.requeued passedTip)]

theorem requeued_clean_certified : CertifiedByPass (.filed "sp-1") requeuedClean := by
  refine (certifiedByPass_iff ?_).mpr ?_
  · simp [Unclassified, requeuedClean, deliveredTip, BeadEvent.given]
  · intro pre ev post h tip hl hr
    -- The one requeue is the last event, and nothing before it lapses a pass.
    obtain rfl | ⟨post, last, rfl⟩ := post.eq_nil_or_concat
    · obtain ⟨rfl, -⟩ := List.append_inj' h rfl
      obtain ⟨e, he, row, hlap⟩ := hl.exists_mem
      simp only [deliveredTip, List.mem_cons, List.not_mem_nil, or_false] at he
      rcases he with rfl | rfl | rfl | rfl <;> exact hlap.2
    · have h' : deliveredTip = pre ++ ev :: post := by
        rw [List.concat_eq_append, ← List.cons_append, ← List.append_assoc] at h
        exact (List.append_inj' h rfl).1
      have hev : ev ∈ deliveredTip := by simp [h']
      have hkind := hr.2.1
      simp only [deliveredTip, List.mem_cons, List.not_mem_nil, or_false] at hev
      rcases hev with rfl | rfl | rfl | rfl <;> simp [BeadEvent.given] at hkind

theorem requeued_red_certified :
    Unclassified requeuedRedTip ∧ ¬ CertifiedByPass (.filed "sp-1") requeuedRedTip := by
  refine ⟨by simp [Unclassified, requeuedRedTip, deliveredTip, BeadEvent.given], ?_⟩
  intro h
  obtain ⟨tip, key, ht, -, hsince⟩ := h requeuedRedTip [] (by simp) (by decide)
  have htip : (run step (.filed "sp-1") requeuedRedTip).tip = some passedTip := by decide
  obtain rfl : passedTip = tip := by simpa [htip] using ht
  have hlap : Lapses passedTip (run step (.filed "sp-1") deliveredTip)
      (.given .inDelivery 4 (.gateRed passedTip .suitesFailed)) :=
    ⟨by decide, rfl, by decide⟩
  have hl : Lapsed passedTip (.filed "sp-1") requeuedRedTip := by
    refine since_of_mem hlap ?_
    simp [IsPass, Passes, BeadEvent.given]
  refine hsince.false_of hl (fun row e hp ↦ ⟨?_, fun hnp ↦ hnp ⟨_, _, hp⟩⟩)
    fun row e hlap hkeep ↦ hkeep.2 (lapses_voids hlap)
  simp [Lapses, hp.2]

end Spira.Bead
