import Spira.Lib.History
import Spira.Lifecycle.Bead.Moves

/-!
# Custody

Seven fields of a row say who holds it and how far they are.  They are set by the claim arms,
moved by the holder's own events, cleared by the arms that leave WORKING and by `settled`.
`Custody` is what they keep to: a row is WORKING exactly while somebody holds it, and has the
seven fields only then.

The one arm that sets the state and leaves the seven alone is `reclassify`: naming WORKING, it
makes a WORKING row that nobody holds.  A run keeps `Custody` exactly when it has no such step
(`custody_iff`).
-/

set_option autoImplicit false

namespace Spira.Bead

open History

/-- The row is WORKING exactly while it is held, and has the custody fields only then. -/
structure Custody (row : BeadRow) : Prop where
  held : row.state = .working → row.holder.isSome ∧ row.leaseUntil.isSome ∧ row.phase.isSome ∧
    (row.claimedFrom = some .ready ∨ row.claimedFrom = some .rework)
  free : row.state ≠ .working → row.holder = none ∧ row.persona = none ∧ row.leaseUntil = none ∧
    row.phase = none ∧ row.disposition = none ∧ row.dispositionNote = none ∧
    row.claimedFrom = none

/-- The classifier names WORKING for a row it may classify. -/
def ReclassifiesWorking (row : BeadRow) (ev : BeadEvent) : Prop :=
  Admitted row ev ∧ (∃ rule, ev.kind = .reclassify .working rule) ∧ ev.actor = "classifier" ∧
    row.state ≠ .working ∧ (row.state.isTerminal → row.reason = some residueRule)

section Step

variable {row mid : BeadRow} {ev : BeadEvent} {at_ : Option Int}

theorem Custody.working_iff (h : Custody row) : row.state = .working ↔ row.holder.isSome := by
  refine ⟨fun hs ↦ (h.held hs).1, fun hh ↦ by_contra fun hs ↦ ?_⟩
  rw [(h.free hs).1] at hh
  cases hh

theorem custody_filed (id : String) : Custody (BeadRow.filed id) :=
  ⟨fun h ↦ (nomatch h), fun _ ↦ ⟨rfl, rfl, rfl, rfl, rfl, rfl, rfl⟩⟩

/-- The state and the seven fields. -/
def BeadRow.custody (row : BeadRow) :=
  (row.state, row.holder, row.persona, row.leaseUntil, row.phase, row.disposition,
    row.dispositionNote, row.claimedFrom)

/-- A move that touches none of them. -/
theorem Custody.same (h : Custody row) (he : mid.custody = row.custody) :
    Custody (settled row.state at_ mid) := by
  simp only [BeadRow.custody, Prod.mk.injEq] at he
  obtain ⟨hs, hh, hp, hl, hph, hd, hn, hc⟩ := he
  constructor
  · intro hw
    rw [settled_state, hs] at hw
    have hkeep : ¬ unholds .working .working := by decide
    simpa [hs, hh, hl, hph, hc, hw, hkeep] using h.held hw
  · intro hw
    rw [settled_state, hs] at hw
    obtain ⟨h₁, h₂, h₃, h₄, h₅, h₆, h₇⟩ := h.free hw
    simp [hs, hh, hp, hl, hph, hd, hn, hc, h₁, h₂, h₃, h₄, h₅, h₆, h₇]

/-- A move out of its state, and not into WORKING, that leaves nobody holding the row. -/
theorem Custody.moved (hne : mid.state ≠ row.state) (hw : mid.state ≠ .working)
    (hfree : unholds row.state mid.state ∨
      mid.holder = none ∧ mid.persona = none ∧ mid.leaseUntil = none) :
    Custody (settled row.state at_ mid) := by
  refine ⟨fun h ↦ absurd h hw, fun _ ↦ ?_⟩
  simp only [settled_holder, settled_persona, settled_leaseUntil, settled_phase,
    settled_disposition, settled_dispositionNote, settled_claimedFrom, if_pos hne, if_neg hw,
    if_pos (And.intro hne hw), and_true]
  obtain hu | ⟨h₁, h₂, h₃⟩ := hfree
  · simp only [if_pos hu, and_self]
  · simp only [h₁, h₂, h₃, ite_self, and_self]

/-- A move into REWORK or a terminal state, from another state. -/
theorem Custody.closed (hne : mid.state ≠ row.state) (hu : mid.state = .rework ∨ mid.state.isTerminal) :
    Custody (settled row.state at_ mid) := by
  refine Custody.moved hne ?_ (.inl (hu.imp_left fun hr ↦ ⟨hne, hr⟩))
  obtain hr | ht := hu
  · rw [hr]
    decide
  · rintro hs
    rw [hs] at ht
    cases ht

/-- A move between states in which nobody holds the row. -/
theorem Custody.idle (h : Custody row) (hs : row.state ≠ .working) (hw : mid.state ≠ .working)
    (he : mid.custody.2 = row.custody.2) : Custody (settled row.state at_ mid) := by
  by_cases hne : mid.state = row.state
  · exact h.same (Prod.ext hne he)
  · obtain ⟨hh, hp, hl, -⟩ := h.free hs
    simp only [BeadRow.custody, Prod.mk.injEq] at he
    exact .moved hne hw (.inr ⟨he.1.trans hh, he.2.1.trans hp, he.2.2.1.trans hl⟩)

/-- A claim takes custody. -/
theorem Custody.claimed {source : BeadState} {holder : String} {leaseUntil : Int} {stack : Stack}
    {stackDepth : Nat} {persona : Option String} (hs : row.state = source)
    (hsource : source = .ready ∨ source = .rework) :
    Custody (settled row.state at_
      (row.claimed source holder leaseUntil stack stackDepth persona)) := by
  have hne : (BeadState.working : BeadState) ≠ row.state := by
    rw [hs]
    rintro rfl
    simp at hsource
  have hkeep : ¬ unholds row.state .working := by simp [unholds, BeadState.isTerminal]
  refine ⟨fun _ ↦ ?_, fun h ↦ absurd rfl h⟩
  simp [hne, hkeep, hsource]

/-- **Every step but a `reclassify` to WORKING keeps custody.** -/
theorem Custody.step (h : Custody row) (hk : ¬ ReclassifiesWorking row ev) :
    Custody (Bead.step row ev) := by
  obtain ⟨-, hrow⟩ | ⟨-, hadm, mid, hm, hrow⟩ := step_cases row ev
  · rwa [hrow]
  rw [hrow]
  replace hk (rule : String) (he : ev.kind = .reclassify .working rule)
      (ha : ev.actor = "classifier") (hs : row.state ≠ .working)
      (residue : row.state.isTerminal → row.reason = some residueRule) : False :=
    hk ⟨hadm, ⟨rule, he⟩, ha, hs, residue⟩
  have hclosed {s : BeadState} (ho : ¬ row.state.isTerminal) (hs : s.isTerminal) : s ≠ row.state := by
    rintro rfl
    exact ho hs
  have hpending (hs : row.state.isPending) : row.state ≠ .working := by
    obtain hs | hs := hs <;> simp [hs]
  have hworking : ¬ unholds .working .working := by decide
  generalize ev.kind = kind at hm hk
  cases hm with
  | contentOnBase open_ => exact .closed (hclosed open_ rfl) (.inr rfl)
  | supersede open_ => exact .closed (hclosed open_ rfl) (.inr rfl)
  | drop open_ => exact .closed (hclosed open_ rfl) (.inr rfl)
  | correctDropped hs ha => exact .closed (by simp [hs]) (.inr rfl)
  | @reclassify state rule ha hs residue new =>
    have hw : state ≠ .working := by
      rintro rfl
      exact hk rule rfl ha hs residue
    exact h.idle hs hw rfl
  | promote hs => exact h.idle (by simp [hs]) (by simp) rfl
  | restack hs => exact h.idle (hpending hs) (by simp) rfl
  | @absolve tip breakGlass open_ red complete =>
    by_cases hr : row.state = .rework ∧ row.tip = some tip
    · exact h.idle (by simp [hr.1]) (by simp [hr]) rfl
    · exact h.same (by simp [BeadRow.custody, hr])
  | phase hs own forward =>
    obtain ⟨hh, hl, -, hc⟩ := h.held hs
    exact ⟨fun _ ↦ by simpa [hs, hworking] using ⟨hh, hl, hc⟩, fun hw ↦ absurd hs hw⟩
  | disposition hs stronger =>
    have hheld := h.held hs
    exact ⟨fun _ ↦ by simpa [hs, hworking] using hheld, fun hw ↦ absurd hs hw⟩
  | renew hs own forward =>
    obtain ⟨hh, -, hp, hc⟩ := h.held hs
    exact ⟨fun _ ↦ by simpa [hs, hworking] using ⟨hh, hp, hc⟩, fun hw ↦ absurd hs hw⟩
  | claimReady hs depth => exact .claimed hs (.inl rfl)
  | claimRework hs depth changed => exact .claimed hs (.inr rfl)
  | baseWithdrawnRework hs stacked => exact h.idle (hpending hs) (by simp) rfl
  | done hs answered => exact .closed (by obtain hs | hs := hs <;> simp [hs]) (.inr rfl)
  | delivered hs => exact .closed (by obtain hs | hs | hs := hs <;> simp [hs]) (.inr rfl)
  | resubmit hs complete =>
    exact h.idle (by obtain ⟨hs, -⟩ | ⟨hs, -⟩ := hs <;> simp [hs]) (by simp) rfl
  | unclaim _ hs =>
    refine .moved ?_ ?_ (.inr ⟨rfl, rfl, rfl⟩)
    · dsimp only
      split <;> simp [hs]
    · dsimp only
      split <;> simp
  | submitWork hs notRed => exact .moved (by simp [hs]) (by simp) (.inr ⟨rfl, rfl, rfl⟩)
  | submitMoved hs moved => exact h.idle (hpending hs) (by simp) rfl
  | gatePass hs ht => exact h.idle (by simp [hs]) (by simp) rfl
  | gateRed hs ht => exact h.idle (hpending hs) (by simp) rfl
  | reapHolder hs =>
    obtain ⟨hh, hp, hl, -⟩ := h.free (by simp [hs])
    exact h.same (by simp [BeadRow.custody, hh, hp, hl])
  | deliverSubmitted hs notRed => exact h.idle (by simp [hs]) (by simp) rfl
  | deliverCertified hs => exact h.idle (by simp [hs]) (by simp) rfl
  | returned hs => exact h.idle (by simp [hs]) (by simp) rfl
  | requeuedRed hs red => exact h.idle (by simp [hs]) (by simp) rfl
  | requeuedCertified hs => exact h.idle (by simp [hs]) (by simp) rfl
  | requeuedSubmitted hs => exact h.idle (by simp [hs]) (by simp) rfl
  -- The rest leave the state and the seven fields as they are.
  | _ => exact h.same rfl

end Step

/-! ## Runs -/

/-- A `reclassify` to WORKING ends custody, if there was any. -/
theorem not_custody_of_reclassifies {row : BeadRow} {ev : BeadEvent} (h : Custody row)
    (hk : ReclassifiesWorking row ev) : ¬ Custody (Bead.step row ev) := by
  intro hc
  obtain ⟨hadm, ⟨rule, hkind⟩, ha, hs, residue⟩ := hk
  have hm : Move row ev.actor ev.kind _ :=
    hkind ▸ Move.reclassify ha hs residue fun he ↦ hs he.1
  have hrow : Bead.step row ev = settled row.state ev.at_ _ :=
    congrArg Outcome.row (apply_of_move hadm hm)
  have hheld := (hc.held (by rw [hrow]; rfl)).1
  rw [hrow] at hheld
  simp [(h.free hs).1] at hheld

/-- **In a run from the filed row, custody holds in every row exactly when no step of the run is a
`reclassify` to WORKING.** -/
theorem custody_iff (id : String) (es : List BeadEvent) :
    (∀ pre post, es = pre ++ post → Custody (run step (BeadRow.filed id) pre)) ↔
      Always step (fun row ev ↦ ¬ ReclassifiesWorking row ev) (BeadRow.filed id) es := by
  constructor
  · rintro h pre ev post rfl hk
    refine not_custody_of_reclassifies (h pre _ rfl) hk ?_
    rw [← run_snoc step]
    exact h (pre ++ [ev]) post (by simp)
  · rintro h pre post rfl
    refine invariant_of_always (custody_filed id) (fun row ev hrow hk ↦ hrow.step hk) h.of_append

/-- The classifier may name WORKING for a row nobody holds. -/
theorem reclassified_unheld :
    ¬ ∀ (id : String) (es : List BeadEvent), Custody (run step (BeadRow.filed id) es) := by
  intro h
  have hc := h "sp-1" [⟨.ready, 0, .reclassify .working "holder-alive", "classifier", none⟩]
  have hheld := (hc.held (by decide)).1
  revert hheld
  decide

end Spira.Bead
