import Spira.Lifecycle.Bead.RedTip

/-!
# Closed rows and open questions

Whether a row may still change once it is terminal, and whether it may close while a question to
the operator is open, is checked arm by arm.  Read off the list of moves, the checks come to this.

* A terminal row is changed by two corrections only: the classifier's, of a row that the residue
  rule closed, and that of a DROPPED row whose work was delivered (`terminal_absorbs`).
* A row carries the `ask` hold exactly while the question is open, from the hold that set it to the
  reply or the withdrawal that lifts it (`ask_mem_iff`); and meanwhile no closing event is taken but
  the correction of a row that is terminal already (`askStands_refuses`).

The hold bars closing, not delivery: no arm of `deliver` or `delivered` looks at the holds, and a
row with an open question goes IN_DELIVERY (`delivered_while_asked`).
-/

set_option autoImplicit false

namespace Spira.Bead

open History

/-- One of the two corrections of a terminal row. -/
def Corrects (row : BeadRow) (ev : BeadEvent) : Prop :=
  (ev.actor = "classifier" ∧ row.reason = some residueRule ∧
      ∃ state rule, ev.kind = .reclassify state rule) ∨
    (row.state = .dropped ∧ ev.actor = deliveredCorrectionActor ∧
      ∃ delivers, ev.kind = .done delivers)

/-- The question is asked: an applied hold of kind `ask`. -/
def Asks (row : BeadRow) (ev : BeadEvent) : Prop :=
  (apply row ev).applied = true ∧ ∃ cause detail, ev.kind = .hold .ask cause detail

/-- The question is closed: an applied reply with an id, or an applied withdrawal. -/
def LiftsAsk (row : BeadRow) (ev : BeadEvent) : Prop :=
  (apply row ev).applied = true ∧
    ((∃ messageId, messageId ≠ "" ∧ ev.kind = .reply messageId) ∨ ev.kind = .askWithdrawn)

/-- The question is open. -/
def AskStands (row : BeadRow) (es : List BeadEvent) : Prop :=
  Since step Asks (fun row ev ↦ ¬ LiftsAsk row ev) row es

/-- The events that close a bead whatever became of its work, `done` among them. -/
def BeadEventKind.closes : BeadEventKind → Prop
  | .contentOnBase _ | .supersede _ | .drop _ | .done _ => True
  | _ => False

section Step

variable {row : BeadRow} {ev : BeadEvent}

/-- **A terminal row stays as it is, but for the two corrections.** -/
theorem terminal_keeps (ht : row.state.isTerminal) (hno : ¬ Corrects row ev) : step row ev = row := by
  obtain ⟨-, hrow⟩ | ⟨-, -, mid, hm, -⟩ := step_cases row ev
  · exact hrow
  exfalso
  obtain ⟨expect, version, kind, actor, at_⟩ := ev
  dsimp only at hm
  have hpending : ¬ row.state.isPending := by
    rintro (hs | hs) <;> simp [hs, BeadState.isTerminal] at ht
  have hnotes : ¬ row.state.notesWithdrawal := by
    rintro (hs | hs | hs) <;> simp [hs, BeadState.isTerminal] at ht
  cases hm with
  | correctDropped hs ha => exact hno (.inr ⟨hs, ha, _, rfl⟩)
  | reclassify ha hs residue new => exact hno (.inl ⟨ha, residue ht, _, _, rfl⟩)
  | contentOnBase open_ | supersede open_ | drop open_ | hold open_ | express open_
  | unexpress open_ | absolve open_ | unhold open_ | reply open_ | askWithdrawn open_
  | prereqLanded open_ => exact open_ ht
  | sifted hs | restack hs | baseWithdrawnRework hs | submitMoved hs | submitAgain hs
  | gateRed hs => exact hpending hs
  | baseWithdrawnNoted hs | delivered hs => exact hnotes hs
  | done hs => obtain hs | hs := hs <;> simp [hs, BeadState.isTerminal] at ht
  | resubmit hs => obtain ⟨hs, -⟩ | ⟨hs, -⟩ := hs <;> simp [hs, BeadState.isTerminal] at ht
  | unclaim _ hs => simp [hs, BeadState.isTerminal] at ht
  | promote hs | phase hs | disposition hs | claimReady hs | claimRework hs | baseWithdrawnReady hs
  | submitWork hs | renew hs | gatePass hs | gateRedInDelivery hs | reapHolder hs
  | deliverSubmitted hs | deliverCertified hs | gateInfra hs | returned hs | requeuedRed hs
  | requeuedCertified hs | requeuedSubmitted hs => simp [hs, BeadState.isTerminal] at ht

/-- The `ask` hold is set by asking, and goes only when the question is closed. -/
theorem ask_mem_step : .ask ∈ (step row ev).holds ↔
    Asks row ev ∨ (.ask ∈ row.holds ∧ ¬ LiftsAsk row ev) := by
  obtain ⟨hf, hrow⟩ | ⟨ha, -, mid, hm, hrow⟩ := step_cases row ev
  · simp [Asks, LiftsAsk, hf, hrow]
  rw [hrow, settled_holds]
  simp only [Asks, LiftsAsk, ha, true_and]
  generalize ev.kind = kind at hm
  cases hm with
  | @hold kind cause detail =>
    cases kind <;> simp
  | unhold open_ notAsk => simp [notAsk, eq_comm]
  | reply open_ asked named => simp [named]
  | askWithdrawn => simp
  | baseWithdrawnReady => simp
  | unclaim hk => obtain rfl | rfl := hk <;> simp
  | _ => simp

/-- What closes a row that carries `ask` is the correction of a DROPPED one. -/
theorem asked_closes (ha : (apply row ev).applied = true) (hask : .ask ∈ row.holds)
    (hk : ev.kind.closes) : row.state = .dropped ∧ ev.actor = deliveredCorrectionActor ∧
      ∃ delivers, ev.kind = .done delivers := by
  obtain ⟨-, mid, hm, -⟩ := apply_move ha
  obtain ⟨expect, version, kind, actor, at_⟩ := ev
  dsimp only at hm hk
  cases hm with
  | contentOnBase _ answered | supersede _ answered | drop _ answered | done _ answered =>
    exact absurd hask answered
  | correctDropped hs own => exact ⟨hs, own, _, rfl⟩
  | unclaim hk' => obtain rfl | rfl := hk' <;> exact hk.elim
  | _ => exact hk.elim

end Step

/-! ## Every run -/

section Run

variable {row : BeadRow} {es : List BeadEvent}

/-- **Terminal states absorb.** -/
theorem terminal_absorbs (ht : row.state.isTerminal)
    (hno : Always step (fun row ev ↦ ¬ Corrects row ev) row es) : run step row es = row := by
  refine always_induction (J := fun es ↦ run step row es = row) rfl (fun es ev _ ih hok ↦ ?_) es hno
  rw [run_snoc, ih]
  rw [ih] at hok
  exact terminal_keeps ht hok

/-- **A row carries `ask` exactly while the question is open.** -/
theorem ask_mem_iff (h : .ask ∉ row.holds) : .ask ∈ (run step row es).holds ↔ AskStands row es := by
  induction es using List.reverseRecOn with
  | nil => exact iff_of_false h not_since_nil
  | append_singleton es ev ih => rw [run_snoc, ask_mem_step, ih, AskStands, AskStands, since_snoc]

end Run

/-- **What the two checks come to, in every run from the filed row.** -/
theorem closing (id : String) (es : List BeadEvent) :
    (∀ pre post, es = pre ++ post → (run step (.filed id) pre).state.isTerminal →
      Always step (fun row ev ↦ ¬ Corrects row ev) (run step (.filed id) pre) post →
      run step (.filed id) es = run step (.filed id) pre) ∧
    ∀ pre ev post, es = pre ++ ev :: post → AskStands (.filed id) pre →
      ((apply (run step (.filed id) pre) ev).applied = true → ev.kind.closes →
        (run step (.filed id) pre).state = .dropped ∧ ev.actor = deliveredCorrectionActor ∧
          ∃ delivers, ev.kind = .done delivers) ∧
      (¬ LiftsAsk (run step (.filed id) pre) ev → .ask ∈ (run step (.filed id) (pre ++ [ev])).holds) := by
  have hfiled : HoldKind.ask ∉ (BeadRow.filed id).holds := by simp [BeadRow.filed]
  refine ⟨fun pre post hes ht hno ↦ ?_, fun pre ev post hes hask ↦ ⟨fun ha hk ↦ ?_, fun hno ↦ ?_⟩⟩
  · rw [hes, run_append]
    exact terminal_absorbs ht hno
  · exact asked_closes ha ((ask_mem_iff hfiled).mpr hask) hk
  · exact (ask_mem_iff hfiled).mpr (since_snoc.mpr (.inr ⟨hask, hno⟩))

/-! ## A delivery under an open question -/

def submitted : List BeadEvent :=
  [.given .ready 0 (.claim "dwarf" 100 ∅ 0 0 none), .given .working 1 (.submit redTip)]

def question : BeadEvent := .given .submitted 2 (.hold .ask .operatorQuestion (some "which base?"))

theorem delivered_while_asked :
    ¬ ∀ (id : String) (pre : List BeadEvent) (ev : BeadEvent), AskStands (.filed id) pre →
      (ev.kind.closes ∨ ev.kind = .deliver) →
      (apply (run step (.filed id) pre) ev).applied = false := by
  intro h
  have hasked : AskStands (.filed "sp-1") (submitted ++ [question]) :=
    since_snoc.mpr (.inl ⟨by decide, .operatorQuestion, some "which base?", rfl⟩)
  have hrefused := h "sp-1" (submitted ++ [question]) (.given .submitted 3 .deliver) hasked (.inr rfl)
  revert hrefused
  decide

end Spira.Bead
