import Mathlib.Data.List.Infix
import Spira.Lifecycle.Bead.RedTip

/-!
# From a claim to an un-claim

While a claim lasts the holder stays, the lease and the two words of the run only move forward, and
none of the fields a verdict is about is touched but by `absolve`.  So an un-claim returns the work
where it was (`claim_episode`).

What "where it was" means is said twice: by the fields the claim found, and by the row a history
without the claim leaves (`claimFree`).  The two part where an `absolve` of the row's own tip comes
between: an unclaimed row in REWORK goes back to SUBMITTED by it and loses its gate key, a claimed
one stays with its holder.
-/

set_option autoImplicit false

namespace Spira.Bead

open History

/-- What the event does to the lease and to the words of the run: nothing, or a step forward. -/
structure Forward (row : BeadRow) (ev : BeadEvent) : Prop where
  lease : (step row ev).leaseUntil = row.leaseUntil ∨
    ∃ l l', ev.kind = .renew l' ∧ row.holder = some ev.actor ∧ row.leaseUntil = some l ∧
      (step row ev).leaseUntil = some l' ∧ l < l'
  phase : (step row ev).phase = row.phase ∨
    ∃ p, (step row ev).phase = some p ∧ ∀ q, row.phase = some q → q.rank < p.rank
  disposition : (step row ev).disposition = row.disposition ∨
    ∃ d, (step row ev).disposition = some d ∧ ∀ d', row.disposition = some d' → d'.rank < d.rank

/-- The row is held by the claim that `holder` made in `found`. -/
structure HeldFrom (found : BeadRow) (holder : String) (row : BeadRow) : Prop where
  state : row.state = .working
  holder : row.holder = some holder
  source : row.claimedFrom = some found.state
  lease : row.leaseUntil.isSome
  tip : row.tip = found.tip
  gateKey : row.gateKey = found.gateKey

/-- An applied withdrawal of the red the row names. -/
def Absolves (row : BeadRow) (ev : BeadEvent) : Prop :=
  (apply row ev).applied = true ∧ ∃ tip breakGlass, ev.kind = .absolve tip breakGlass

def BeadEventKind.isClaim : BeadEventKind → Prop
  | .claim _ _ _ _ _ _ => True
  | _ => False

def BeadEventKind.unclaims (kind : BeadEventKind) : Prop := kind = .release ∨ kind = .holderDead

section Step

variable {found row : BeadRow} {ev : BeadEvent} {holder : String}

/-- What is claimed is READY or in REWORK, and the claim holds it. -/
theorem heldFrom_claim (hk : ev.kind.isClaim) (ha : (apply found ev).applied = true) :
    (found.state = .ready ∨ found.state = .rework) ∧ ∃ holder, HeldFrom found holder (step found ev) ∧
      (step found ev).ejectedRedTip = found.ejectedRedTip := by
  obtain ⟨hf, -⟩ | ⟨-, -, mid, hm, hrow⟩ := step_cases found ev
  · rw [ha] at hf
    cases hf
  rw [hrow]
  have hkeep : ¬ unholds found.state .working := by simp [unholds, BeadState.isTerminal]
  generalize ev.kind = kind at hm hk
  cases hm with
  | @claimReady holder _ _ _ _ _ hs depth =>
    exact ⟨.inl hs, holder, ⟨rfl, by simp [hkeep], by simp [hs], by simp [hkeep], rfl, rfl⟩, rfl⟩
  | @claimRework holder _ _ _ _ _ hs depth changed =>
    exact ⟨.inr hs, holder, ⟨rfl, by simp [hkeep], by simp [hs], by simp [hkeep], rfl, rfl⟩, rfl⟩
  | unclaim hk' => obtain rfl | rfl := hk' <;> exact hk.elim
  | _ => exact hk.elim

/-- A row that stays WORKING has nothing to settle. -/
theorem settled_working {mid : BeadRow} {at_ : Option Int} (hs : mid.state = .working) :
    settled .working at_ mid = mid := by
  have hkeep : ¬ unholds .working .working := by decide
  simp only [settled, hs, ne_eq, not_true_eq_false, false_and, if_false, if_neg hkeep]
  rw [← hs]

/-- **A step under a claim** that leaves the row WORKING. -/
theorem HeldFrom.step (h : HeldFrom found holder row) (hw : (Bead.step row ev).state = .working) :
    HeldFrom found holder (Bead.step row ev) ∧ Forward row ev ∧
      ((Bead.step row ev).ejectedRedTip = row.ejectedRedTip ∨
        (Absolves row ev ∧ (Bead.step row ev).ejectedRedTip = none)) := by
  obtain ⟨-, hrow⟩ | ⟨ha, -, mid, hm, hrow⟩ := step_cases row ev
  · exact ⟨by rwa [hrow], ⟨.inl (by rw [hrow]), .inl (by rw [hrow]), .inl (by rw [hrow])⟩,
      .inl (by rw [hrow])⟩
  rw [hrow, settled_state] at hw
  rw [h.state, settled_working hw] at hrow
  -- Most events leave the fields of the claim as they are.
  have same (hh : mid.holder = row.holder) (hc : mid.claimedFrom = row.claimedFrom)
      (hl : mid.leaseUntil = row.leaseUntil) (ht : mid.tip = row.tip)
      (hg : mid.gateKey = row.gateKey) (hp : mid.phase = row.phase)
      (hd : mid.disposition = row.disposition) (he : mid.ejectedRedTip = row.ejectedRedTip) :
      HeldFrom found holder (Bead.step row ev) ∧ Forward row ev ∧
        ((Bead.step row ev).ejectedRedTip = row.ejectedRedTip ∨
          (Absolves row ev ∧ (Bead.step row ev).ejectedRedTip = none)) := by
    refine ⟨?_, ⟨.inl ?_, .inl ?_, .inl ?_⟩, .inl ?_⟩
    · rw [hrow]
      exact ⟨hw, hh.trans h.holder, hc.trans h.source, hl ▸ h.lease, ht.trans h.tip,
        hg.trans h.gateKey⟩
    all_goals rw [hrow]; assumption
  have held (hh : mid.holder = row.holder) (hc : mid.claimedFrom = row.claimedFrom)
      (hl : mid.leaseUntil.isSome) (ht : mid.tip = row.tip) (hg : mid.gateKey = row.gateKey) :
      HeldFrom found holder (Bead.step row ev) := by
    rw [hrow]
    exact ⟨hw, hh.trans h.holder, hc.trans h.source, hl, ht.trans h.tip, hg.trans h.gateKey⟩
  obtain ⟨expect, version, kind, actor, at_⟩ := ev
  dsimp only at hm
  cases hm with
  | @absolve tip breakGlass open_ red complete =>
    have hne : ¬(row.state = .rework ∧ row.tip = some tip) := fun hr ↦ by simp [h.state] at hr
    refine ⟨held rfl rfl h.lease rfl (if_neg hne), ⟨.inl ?_, .inl ?_, .inl ?_⟩,
      .inr ⟨⟨ha, tip, breakGlass, rfl⟩, by rw [hrow]⟩⟩
    all_goals rw [hrow]; rfl
  | phase hs own forward =>
    refine ⟨held rfl rfl h.lease rfl rfl, ⟨.inl ?_, .inr ?_, .inl ?_⟩, .inl ?_⟩
    · rw [hrow]
      rfl
    · rw [hrow]
      exact ⟨_, rfl, forward⟩
    all_goals rw [hrow]; rfl
  | disposition hs stronger =>
    refine ⟨held rfl rfl h.lease rfl rfl, ⟨.inl ?_, .inl ?_, .inr ?_⟩, .inl ?_⟩
    · rw [hrow]
      rfl
    · rw [hrow]
      rfl
    · rw [hrow]
      exact ⟨_, rfl, stronger⟩
    · rw [hrow]
      rfl
  | @renew leaseUntil hs own forward =>
    obtain ⟨l, hl⟩ := Option.isSome_iff_exists.mp h.lease
    refine ⟨held rfl rfl rfl rfl rfl, ⟨.inr ?_, .inl ?_, .inl ?_⟩, .inl ?_⟩
    · rw [hrow]
      exact ⟨l, leaseUntil, rfl, own, hl, rfl, forward l hl⟩
    all_goals rw [hrow]; rfl
  | hold | express | unexpress | unhold | reply | askWithdrawn | baseWithdrawnNoted | prereqLanded =>
    exact same rfl rfl rfl rfl rfl rfl rfl rfl
  | claimReady hs | claimRework hs =>
    rw [h.state] at hs
    cases hs
  | sifted hs | submitAgain hs =>
    obtain hs | hs := hs <;> rw [h.state] at hs <;> cases hs
  | unclaim hk hs =>
    dsimp only at hw
    split at hw <;> cases hw
  | promote hs | baseWithdrawnReady hs | gatePass hs | gateRedInDelivery hs | reapHolder hs
  | deliverSubmitted hs | deliverCertified hs | gateInfra hs | returned hs | requeuedRed hs
  | requeuedCertified hs | requeuedSubmitted hs | correctDropped hs =>
    rw [h.state] at hs
    cases hs
  | reclassify _ hs => exact absurd h.state hs
  | _ => cases hw

/-- The un-claim puts the row back where the claim found it. -/
theorem HeldFrom.unclaim (h : HeldFrom found holder row) (hfound : found.state = .ready ∨ found.state = .rework)
    (hk : ev.kind.unclaims) (ha : (apply row ev).applied = true) :
    (Bead.step row ev).state = found.state ∧ (Bead.step row ev).tip = found.tip ∧
      (Bead.step row ev).gateKey = found.gateKey ∧
      (Bead.step row ev).ejectedRedTip = row.ejectedRedTip := by
  obtain ⟨hf, -⟩ | ⟨-, -, mid, hm, hrow⟩ := step_cases row ev
  · rw [ha] at hf
    cases hf
  rw [hrow]
  generalize ev.kind = kind at hm hk
  cases hm with
  | unclaim _ hs =>
    refine ⟨?_, h.tip, h.gateKey, rfl⟩
    rw [settled_state]
    dsimp only
    rw [h.source]
    obtain hf | hf := hfound <;> rw [hf] <;> rfl
  | reapHolder hs =>
    rw [h.state] at hs
    cases hs
  | _ => obtain hk | hk := hk <;> cases hk

end Step

/-! ## A history without the claim -/

/-- The events that are the claim's own. -/
def BeadEventKind.custodial : BeadEventKind → Bool
  | .claim _ _ _ _ _ _ | .release | .holderDead | .renew _ | .phase _ | .disposition _ _ => true
  | _ => false

/-- The event as it would be sent to `row`. -/
def BeadEvent.sentTo (ev : BeadEvent) (row : BeadRow) : BeadEvent :=
  { ev with expect := row.state, version := row.version }

/-- A row under a claim, and beside it one that meets those of its events that are not the claim's
own. -/
def alongside (rows : BeadRow × BeadRow) (ev : BeadEvent) : BeadRow × BeadRow :=
  (step rows.1 ev,
    if (apply rows.1 ev).applied && !ev.kind.custodial then step rows.2 (ev.sentTo rows.2)
    else rows.2)

/-- An applied `absolve` of the tip a row in REWORK was claimed with: had nobody claimed it, the row
would be back in SUBMITTED. -/
def ReadmitsFound (found row : BeadRow) (ev : BeadEvent) : Prop :=
  (apply row ev).applied = true ∧ found.state = .rework ∧
    ∃ tip breakGlass, ev.kind = .absolve tip breakGlass ∧ found.tip = some tip

/-- What the events under a claim leave of the row it found, had it not been claimed. -/
def claimFree (found : BeadRow) (claim : BeadEvent) (es : List BeadEvent) : BeadRow :=
  (run alongside (step found claim, found) es).2

/-- The events a claimed row and an unclaimed one take alike, beside `absolve`. -/
def BeadEventKind.bystander : BeadEventKind → Bool
  | .hold _ _ _ | .unhold _ _ | .express | .unexpress | .reply _ | .askWithdrawn
  | .baseWithdrawn _ _ | .prereqLanded _ => true
  | _ => false

/-- The row an unclaimed history leaves agrees with a claimed one on what a verdict is about. -/
structure Beside (found row free : BeadRow) : Prop where
  state : free.state = found.state
  tip : free.tip = found.tip
  gateKey : free.gateKey = found.gateKey
  red : free.ejectedRedTip = row.ejectedRedTip

section Beside

variable {found row free mid : BeadRow} {ev : BeadEvent} {actor holder : String}
  {kind : BeadEventKind}

/-- Under a claim, an applied event is the claim's own, one both rows take alike, or an `absolve`.
-/
theorem bystander_of_move (hm : Move row actor kind mid) (hs : row.state = .working)
    (hw : mid.state = .working) :
    kind.custodial ∨ kind.bystander ∨ ∃ tip breakGlass, kind = .absolve tip breakGlass ∧
      row.ejectedRedTip = some tip ∧ breakGlass.gap actor tip = none := by
  cases hm with
  | absolve open_ red complete => exact .inr (.inr ⟨_, _, rfl, red, complete⟩)
  | claimReady | claimRework | phase | disposition | renew => exact .inl rfl
  | hold | express | unexpress | unhold | reply | askWithdrawn | baseWithdrawnReady
  | baseWithdrawnNoted | baseWithdrawnRework | prereqLanded => exact .inr (.inl rfl)
  | unclaim hk => obtain rfl | rfl := hk <;> exact .inl rfl
  | reapHolder => exact .inl rfl
  | sifted hs' | submitAgain hs' =>
    obtain hs' | hs' := hs' <;> rw [hs] at hs' <;> cases hs'
  | gateRedInDelivery hs' | gateInfra hs' =>
    rw [hs] at hs'
    cases hs'
  | reclassify _ hs' => exact absurd hs hs'
  | _ => cases hw

/-- An event both take alike leaves an unclaimed row's tip, key and red as they are. -/
theorem bystander_keeps (hm : Move free actor kind mid) (hk : kind.bystander)
    (hs : free.state = .ready ∨ free.state = .rework) :
    mid.state = free.state ∧ mid.tip = free.tip ∧ mid.gateKey = free.gateKey ∧
      mid.ejectedRedTip = free.ejectedRedTip := by
  cases hm with
  | baseWithdrawnRework hs' => obtain hs | hs := hs <;> obtain hs' | hs' := hs' <;> simp [hs] at hs'
  | unclaim hk' => obtain rfl | rfl := hk' <;> cases hk
  | hold | express | unexpress | unhold | reply | askWithdrawn | baseWithdrawnReady
  | baseWithdrawnNoted | prereqLanded => exact ⟨rfl, rfl, rfl, rfl⟩
  | _ => cases hk

/-- An `absolve` that does not readmit an unclaimed row's tip takes only its red. -/
theorem absolve_keeps {tip : String} {breakGlass : BreakGlass} (hkind : ev.kind = .absolve tip breakGlass)
    (hs : free.state = .ready ∨ free.state = .rework) (hred : free.ejectedRedTip = some tip)
    (hcomplete : breakGlass.gap ev.actor tip = none)
    (hnr : ¬(free.state = .rework ∧ free.tip = some tip)) :
    (Bead.step free (ev.sentTo free)).state = free.state ∧
      (Bead.step free (ev.sentTo free)).tip = free.tip ∧
      (Bead.step free (ev.sentTo free)).gateKey = free.gateKey ∧
      (Bead.step free (ev.sentTo free)).ejectedRedTip = none := by
  have hopen : ¬ free.state.isTerminal := by
    obtain hs | hs := hs <;> simp [hs, BeadState.isTerminal]
  have hm : Move free (ev.sentTo free).actor (ev.sentTo free).kind _ :=
    hkind ▸ Move.absolve hopen hred hcomplete
  have hwf (t : String) (ht : (ev.sentTo free).kind.submittedTip = some t) : isFullSha t = true := by
    simp [BeadEvent.sentTo, hkind, BeadEventKind.submittedTip] at ht
  have hstep : Bead.step free (ev.sentTo free) = settled free.state _ _ :=
    congrArg Outcome.row (apply_of_move ⟨rfl, rfl, hwf⟩ hm)
  rw [hstep]
  exact ⟨if_neg hnr, rfl, if_neg hnr, rfl⟩

/-- **An event under a claim** leaves the row beside it on the state, tip and key the claim found,
unless it is an `absolve` of the tip a row in REWORK was claimed with. -/
theorem Beside.step (h : Beside found row free) (hheld : HeldFrom found holder row)
    (hfound : found.state = .ready ∨ found.state = .rework)
    (hw : (Bead.step row ev).state = .working) (hno : ¬ ReadmitsFound found row ev) :
    Beside found (Bead.step row ev) (alongside (row, free) ev).2 := by
  have hstep := hheld.step hw
  obtain ⟨hf, hrow⟩ | ⟨ha, -, mid, hm, hrow⟩ := step_cases row ev
  · rw [alongside, if_neg (by simp [hf]), hrow]
    exact h
  have hkept (hk : ∀ tip breakGlass, ev.kind ≠ .absolve tip breakGlass) :
      (Bead.step row ev).ejectedRedTip = row.ejectedRedTip := by
    obtain hred | ⟨⟨-, tip, breakGlass, hkind⟩, -⟩ := hstep.2.2
    · exact hred
    · exact absurd hkind (hk tip breakGlass)
  have hmid : mid.state = .working := by rwa [hrow, settled_state] at hw
  obtain hc | hb | ⟨tip, breakGlass, hkind, hred, hcomplete⟩ := bystander_of_move hm hheld.state hmid
  · -- The claim's own events are not sent to the row beside it.
    rw [alongside, if_neg (by simp [hc])]
    refine ⟨h.state, h.tip, h.gateKey, h.red.trans (hkept ?_).symm⟩
    rintro tip breakGlass hkind
    rw [hkind] at hc
    cases hc
  · have hnc : ev.kind.custodial = false := by
      revert hb
      cases ev.kind <;> simp [BeadEventKind.bystander, BeadEventKind.custodial]
    have hna (tip : String) (breakGlass : BreakGlass) : ev.kind ≠ .absolve tip breakGlass := by
      intro hkind
      rw [hkind] at hb
      cases hb
    rw [alongside, if_pos (by simp [ha, hnc])]
    obtain ⟨-, hfree⟩ | ⟨-, -, mid', hm', hfree⟩ := step_cases free (ev.sentTo free)
    · rw [hfree]
      exact ⟨h.state, h.tip, h.gateKey, h.red.trans (hkept hna).symm⟩
    · obtain ⟨h₁, h₂, h₃, h₄⟩ := bystander_keeps hm' hb (h.state ▸ hfound)
      rw [hfree]
      exact ⟨h₁.trans h.state, h₂.trans h.tip, h₃.trans h.gateKey,
        h₄.trans (h.red.trans (hkept hna).symm)⟩
  · rw [alongside, if_pos (by simp [ha, hkind, BeadEventKind.custodial])]
    have hnr : ¬(free.state = .rework ∧ free.tip = some tip) := by
      rw [h.state, h.tip]
      exact fun hr ↦ hno ⟨ha, hr.1, tip, breakGlass, hkind, hr.2⟩
    -- What absolves the claimed row absolves the other.
    obtain ⟨h₁, h₂, h₃, h₄⟩ :=
      absolve_keeps hkind (h.state ▸ hfound) (h.red.trans hred) hcomplete hnr
    have hnone : (Bead.step row ev).ejectedRedTip = none := by
      rw [hrow]
      rw [hkind] at hm
      cases hm with
      | absolve => rfl
      | unclaim hk => obtain hk | hk := hk <;> cases hk
    exact ⟨h₁.trans h.state, h₂.trans h.tip, h₃.trans h.gateKey, h₄.trans hnone.symm⟩

end Beside

/-! ## The whole claim -/

/-- `claim` took `found`, and through `es` the row has not left WORKING. -/
structure UnderClaim (found : BeadRow) (claim : BeadEvent) (es : List BeadEvent) : Prop where
  isClaim : claim.kind.isClaim
  applied : (apply found claim).applied = true
  working : ∀ pre post, es = pre ++ post → (run step (step found claim) pre).state = .working

section Run

variable {found : BeadRow} {claim ev : BeadEvent} {es : List BeadEvent} {holder : String}

theorem UnderClaim.of_snoc (h : UnderClaim found claim (es ++ [ev])) : UnderClaim found claim es :=
  ⟨h.isClaim, h.applied, fun pre post hes ↦ h.working pre (post ++ [ev]) (by simp [hes])⟩

theorem UnderClaim.last (h : UnderClaim found claim (es ++ [ev])) :
    (step (run step (step found claim) es) ev).state = .working := by
  rw [← run_snoc step]
  exact h.working (es ++ [ev]) [] (by simp)

/-- **What a claim found stays with it.** -/
theorem UnderClaim.held (h : UnderClaim found claim es) (hh : HeldFrom found holder (step found claim)) :
    HeldFrom found holder (run step (step found claim) es) ∧
      Always step Forward (step found claim) es := by
  induction es using List.reverseRecOn with
  | nil => exact ⟨hh, always_nil⟩
  | append_singleton es ev ih =>
    obtain ⟨hheld, hforward⟩ := ih h.of_snoc
    obtain ⟨hheld', hev, -⟩ := hheld.step h.last
    rw [run_snoc]
    exact ⟨hheld', always_snoc.mpr ⟨hforward, hev⟩⟩

/-- The red it found stays too, until it is absolved. -/
theorem UnderClaim.red (h : UnderClaim found claim es) (hh : HeldFrom found holder (step found claim))
    (hred : (step found claim).ejectedRedTip = found.ejectedRedTip)
    (hno : Always step (fun row ev ↦ ¬ Absolves row ev) (step found claim) es) :
    (run step (step found claim) es).ejectedRedTip = found.ejectedRedTip := by
  induction es using List.reverseRecOn with
  | nil => exact hred
  | append_singleton es ev ih =>
    obtain ⟨hno, hlast⟩ := always_snoc.mp hno
    rw [run_snoc]
    obtain hev | ⟨habs, -⟩ := ((h.of_snoc.held hh).1.step h.last).2.2
    · exact hev.trans (ih h.of_snoc hno)
    · exact absurd habs hlast

theorem alongside_fst (rows : BeadRow × BeadRow) (es : List BeadEvent) :
    (run alongside rows es).1 = run step rows.1 es := by
  induction es using List.reverseRecOn with
  | nil => rfl
  | append_singleton es ev ih => rw [run_snoc, run_snoc, ← ih]; rfl

/-- **The row beside a claimed one stays where the claim found it.** -/
theorem UnderClaim.beside (h : UnderClaim found claim es) (hh : HeldFrom found holder (step found claim))
    (hfound : found.state = .ready ∨ found.state = .rework)
    (hred : (step found claim).ejectedRedTip = found.ejectedRedTip)
    (hno : Always step (fun row ev ↦ ¬ ReadmitsFound found row ev) (step found claim) es) :
    Beside found (run step (step found claim) es) (claimFree found claim es) := by
  induction es using List.reverseRecOn with
  | nil => exact ⟨rfl, rfl, rfl, hred.symm⟩
  | append_singleton es ev ih =>
    obtain ⟨hno, hlast⟩ := always_snoc.mp hno
    have hnext := (ih h.of_snoc hno).step (h.of_snoc.held hh).1 hfound h.last hlast
    rw [claimFree, run_snoc, run_snoc]
    have hfst := alongside_fst (step found claim, found) es
    rw [claimFree, ← hfst] at hnext
    rwa [← hfst]

/-- The row the un-claim leaves, against what the claim found and against a history without it. -/
structure Returned (found row free : BeadRow) (es : List BeadEvent) (claimed : BeadRow) : Prop where
  state : row.state = found.state
  tip : row.tip = found.tip
  gateKey : row.gateKey = found.gateKey
  /-- Only an `absolve` touches the red. -/
  red : Always step (fun row ev ↦ ¬ Absolves row ev) claimed es →
    row.ejectedRedTip = found.ejectedRedTip
  /-- Only an `absolve` of the tip handed back tells the two histories apart. -/
  free : Always step (fun row ev ↦ ¬ ReadmitsFound found row ev) claimed es →
    row.state = free.state ∧ row.tip = free.tip ∧ row.gateKey = free.gateKey ∧
      row.ejectedRedTip = free.ejectedRedTip

/-- **A claim, from its first event to the un-claim.** -/
theorem claim_episode (h : UnderClaim found claim es) :
    (found.state = .ready ∨ found.state = .rework) ∧
      (∃ holder, ∀ pre post, es = pre ++ post →
        (run step (step found claim) pre).holder = some holder) ∧
      Always step Forward (step found claim) es ∧
      ∀ ev : BeadEvent, ev.kind.unclaims →
        (apply (run step (step found claim) es) ev).applied = true →
        Returned found (step (run step (step found claim) es) ev) (claimFree found claim es) es
          (step found claim) := by
  obtain ⟨hfound, holder, hh, hred⟩ := heldFrom_claim h.isClaim h.applied
  refine ⟨hfound, ⟨holder, fun pre post hes ↦ ?_⟩, (h.held hh).2, fun ev hk ha ↦ ?_⟩
  · have hpre : UnderClaim found claim pre :=
      ⟨h.isClaim, h.applied, fun p q hp ↦ h.working p (q ++ post) (by simp [hes, hp])⟩
    exact (hpre.held hh).1.holder
  · obtain ⟨hs, ht, hg, he⟩ := (h.held hh).1.unclaim hfound hk ha
    refine ⟨hs, ht, hg, fun hno ↦ he.trans (h.red hh hred hno), fun hno ↦ ?_⟩
    have hb := h.beside hh hfound hred hno
    exact ⟨hs.trans hb.state.symm, ht.trans hb.tip.symm, hg.trans hb.gateKey.symm,
      he.trans hb.red.symm⟩

end Run

/-!
## A claim during which the tip is readmitted

The row goes to REWORK with a gate key of an earlier pass: a requeue that names another tip sends
it back to SUBMITTED with its key (`keptKey`), and there a red leaves the key alone.  The tip is
absolved while `reclaim` holds the row.
-/

def keptKey : List BeadEvent :=
  [.given .ready 0 (.claim "dwarf" 100 ∅ 0 0 none),
    .given .working 1 (.submit redTip),
    .given .submitted 2 (.gatePass redTip "key-1"),
    .given .certified 3 .deliver,
    .given .inDelivery 4 (.requeued otherTip),
    .given .submitted 5 (.gateRed redTip .suitesFailed)]

def reclaim : BeadEvent := .given .rework 6 (.claim "dwarf" 200 ∅ 0 0 none)

def readmission : BeadEvent := .given .working 7 (.absolve redTip ⟨"flake", "suites rerun", redTip⟩)

theorem underClaim_readmission :
    UnderClaim (run step (.filed "sp-1") keptKey) reclaim [readmission] := by
  refine ⟨trivial, by decide, fun pre post h ↦ ?_⟩
  have hall : ∀ pre ∈ [readmission].inits,
      (run step (step (run step (.filed "sp-1") keptKey) reclaim) pre).state = .working := by decide
  exact hall pre ((List.mem_inits _ _).mpr ⟨post, h.symm⟩)

theorem claim_episode_readmission :
    (step (run step (step (run step (.filed "sp-1") keptKey) reclaim) [readmission])
      (.given .working 8 .release)).state = .rework := by
  obtain ⟨-, -, -, hreturn⟩ := claim_episode underClaim_readmission
  have hs := (hreturn (.given .working 8 .release) (.inl rfl) (by decide)).state
  exact hs.trans (by decide)

/-- Without the claim, the readmission would have taken the gate key. -/
theorem readmitted_under_claim :
    ¬ ∀ (id : String) (pre es : List BeadEvent) (claim ev : BeadEvent),
      UnderClaim (run step (.filed id) pre) claim es → ev.kind.unclaims →
      (apply (run step (step (run step (.filed id) pre) claim) es) ev).applied = true →
      (step (run step (step (run step (.filed id) pre) claim) es) ev).gateKey =
        (claimFree (run step (.filed id) pre) claim es).gateKey := by
  intro h
  have hkey := h "sp-1" keptKey [readmission] reclaim (.given .working 8 .release)
    underClaim_readmission (.inl rfl) (by decide)
  revert hkey
  decide

end Spira.Bead
