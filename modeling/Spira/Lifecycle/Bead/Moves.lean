import Spira.Lifecycle.Bead.Machine

/-!
# The moves of the bead machine

`Move row actor kind row'` lists what an applied event can do to a row, one constructor for each arm
of the tables, guards included, before the bookkeeping of `settled`.  `applyTransition_iff` says the
list is exact: an event is applied, and leaves `row'`, exactly when its compare-and-swap holds, the
tip it submits is well formed, and there is such a move.

Every invariant of the machine is proved from this list: a case analysis on the move, with no
unfolding of the tables.
-/

set_option autoImplicit false

namespace Spira.Bead

/-- The states a certification or a delivery can still be taken from. -/
def BeadState.isPending (s : BeadState) : Prop := s = .submitted ∨ s = .certified

instance (s : BeadState) : Decidable s.isPending := inferInstanceAs (Decidable (_ ∨ _))

/-- The states in which a withdrawn base is recorded and the row stays put. -/
def BeadState.notesWithdrawal (s : BeadState) : Prop :=
  s = .working ∨ s = .inDelivery ∨ s = .rework

instance (s : BeadState) : Decidable s.notesWithdrawal := inferInstanceAs (Decidable (_ ∨ _))

/-- What an applied event of `actor` can do to a row. -/
inductive Move (row : BeadRow) (actor : String) : BeadEventKind → BeadRow → Prop
  | contentOnBase {proof : String} (open_ : ¬ row.state.isTerminal) (answered : .ask ∉ row.holds) :
      Move row actor (.contentOnBase proof)
        { row.bump with state := .landed, reason := some proof }
  | supersede {successor : String} (open_ : ¬ row.state.isTerminal)
      (answered : .ask ∉ row.holds) :
      Move row actor (.supersede successor)
        { row.bump with state := .superseded, reason := some successor }
  | drop {reason : DropReason} (open_ : ¬ row.state.isTerminal) (answered : .ask ∉ row.holds) :
      Move row actor (.drop reason)
        { row.bump with state := .dropped, reason := some reason.asStr }
  | correctDropped {delivers : String} (hs : row.state = .dropped)
      (ha : actor = deliveredCorrectionActor) :
      Move row actor (.done delivers) { row.bump with state := .done, reason := some delivers }
  | reclassify {state : BeadState} {rule : String} (ha : actor = "classifier")
      (hs : row.state ≠ .working) (residue : row.state.isTerminal → row.reason = some residueRule)
      (new : ¬(row.state = state ∧ row.reason = some rule)) :
      Move row actor (.reclassify state rule)
        { row.bump with state := state, reason := some rule }
  | hold {kind : HoldKind} {cause : HoldCause} {detail : Option String}
      (open_ : ¬ row.state.isTerminal)
      (reasoned : kind = .manual → cause = .manualHold → manualReasonRefusal detail = none) :
      Move row actor (.hold kind cause detail)
        { row.bump with
          holds := insert kind row.holds
          reason := some (detail.getD cause.asStr) }
  | express (open_ : ¬ row.state.isTerminal) :
      Move row actor .express { row.bump with express := true }
  | unexpress (open_ : ¬ row.state.isTerminal) :
      Move row actor .unexpress { row.bump with express := false }
  | promote (hs : row.state = .open) : Move row actor .promote { row.bump with state := .ready }
  | sifted {tip : String} (hs : row.state.isPending) (ht : row.tip = some tip) :
      Move row actor (.sifted tip) { row.bump with siftedTip := some tip }
  | restack {tip : String} {stack : Stack} {stackDepth : Nat} (hs : row.state.isPending)
      (nonempty : ¬ stack.isEmpty) (deep : stackDepth ≠ 0) (notSelf : row.beadId ∉ stack) :
      Move row actor (.restack tip stack stackDepth)
        { row.bump with
          state := .submitted
          tip := some tip
          stack := stack
          stackDepth := stackDepth
          gateKey := none
          siftedTip := none }
  | absolve {tip : String} {breakGlass : BreakGlass} (open_ : ¬ row.state.isTerminal)
      (red : row.ejectedRedTip = some tip) (complete : breakGlass.gap actor tip = none) :
      Move row actor (.absolve tip breakGlass)
        { row.bump with
          ejectedRedTip := none
          state := if row.state = .rework ∧ row.tip = some tip then .submitted else row.state
          gateKey := if row.state = .rework ∧ row.tip = some tip then none else row.gateKey
          reason := some (breakGlass.stamp actor tip) }
  | unhold {kind : HoldKind} {breakGlass : BreakGlass} (open_ : ¬ row.state.isTerminal)
      (notAsk : kind ≠ .ask)
      (complete : gateHold row kind → breakGlass.gap actor (row.tip.getD "") = none) :
      Move row actor (.unhold kind breakGlass)
        { row.bump with
          holds := row.holds.erase kind
          reason := if gateHold row kind then some (breakGlass.stamp actor (row.tip.getD ""))
            else row.reason }
  | reply {messageId : String} (open_ : ¬ row.state.isTerminal) (asked : .ask ∈ row.holds)
      (named : messageId ≠ "") :
      Move row actor (.reply messageId)
        { row.bump with
          holds := row.holds.erase .ask
          reason := some ("reply: " ++ messageId) }
  | askWithdrawn (open_ : ¬ row.state.isTerminal) (asked : .ask ∈ row.holds) :
      Move row actor .askWithdrawn
        { row.bump with holds := row.holds.erase .ask, reason := some "ask withdrawn" }
  | phase {phase : DwarfPhase} (hs : row.state = .working) (own : row.holder = some actor)
      (forward : ∀ p, row.phase = some p → p.rank < phase.rank) :
      Move row actor (.phase phase) { row.bump with phase := some phase }
  | disposition {status : DispositionStatus} {note : String} (hs : row.state = .working)
      (stronger : ∀ d, row.disposition = some d → d.rank < status.rank) :
      Move row actor (.disposition status note)
        { row.bump with disposition := some status, dispositionNote := some note }
  | claimReady {holder : String} {leaseUntil : Int} {stack : Stack} {stackDepth stackMaxDepth : Nat}
      {persona : Option String} (hs : row.state = .ready) (depth : stackDepth ≤ stackMaxDepth) :
      Move row actor (.claim holder leaseUntil stack stackDepth stackMaxDepth persona)
        (row.claimed .ready holder leaseUntil stack stackDepth persona)
  | claimRework {holder : String} {leaseUntil : Int} {stack : Stack}
      {stackDepth stackMaxDepth : Nat} {persona : Option String} (hs : row.state = .rework)
      (depth : stackDepth ≤ stackMaxDepth)
      (changed : reworkClaimStackUnchanged row.stack row.reason stack = false) :
      Move row actor (.claim holder leaseUntil stack stackDepth stackMaxDepth persona)
        (row.claimed .rework holder leaseUntil stack stackDepth persona)
  | baseWithdrawnReady {prereq tip : String} (hs : row.state = .ready) :
      Move row actor (.baseWithdrawn prereq tip) { row.bump with holds := insert .wait row.holds }
  | baseWithdrawnNoted {prereq tip : String} (hs : row.state.notesWithdrawal)
      (stacked : row.stack[prereq]? = some tip) :
      Move row actor (.baseWithdrawn prereq tip)
        { row.bump with reason := some (baseWithdrawnNote prereq tip) }
  | baseWithdrawnRework {prereq tip : String} (hs : row.state.isPending)
      (stacked : row.stack[prereq]? = some tip) :
      Move row actor (.baseWithdrawn prereq tip)
        { row.bump with state := .rework, reason := some (baseWithdrawnNote prereq tip) }
  | prereqLanded {prereq : String} (open_ : ¬ row.state.isTerminal) (hs : row.state ≠ .open) :
      Move row actor (.prereqLanded prereq) { row.bump with stack := row.stack.erase prereq }
  | done {delivers : String} (hs : row.state = .ready ∨ row.state = .working)
      (answered : .ask ∉ row.holds) :
      Move row actor (.done delivers) { row.bump with state := .done, reason := some delivers }
  | resubmit {tip : String} {breakGlass : BreakGlass}
      (hs : (row.state = .ready ∧ .ask ∉ row.holds ∧ .wait ∉ row.holds) ∨
        (row.state = .rework ∧ .manual ∈ row.holds))
      (complete : breakGlass.gap actor tip = none) :
      Move row actor (.resubmit tip breakGlass)
        { row.bump with
          state := .submitted
          tip := some tip
          gateKey := none
          reason := some (breakGlass.stamp actor tip) }
  | unclaim {kind : BeadEventKind} (hk : kind = .release ∨ kind = .holderDead)
      (hs : row.state = .working) :
      Move row actor kind
        { row.bump with
          state := if row.claimedFrom = some .rework then .rework else .ready
          holder := none
          persona := none
          leaseUntil := none
          stack := ∅
          stackDepth := 0 }
  | submitWork {tip : String} (hs : row.state = .working) (notRed : row.ejectedRedTip ≠ some tip) :
      Move row actor (.submit tip)
        { row.bump with
          state := .submitted
          tip := some tip
          gateKey := none
          holder := none
          persona := none
          leaseUntil := none }
  | submitMoved {tip : String} (hs : row.state.isPending) (moved : row.tip ≠ some tip) :
      Move row actor (.submit tip)
        { row.bump with state := .submitted, tip := some tip, gateKey := none }
  | submitAgain {tip : String} (hs : row.state.isPending) (ht : row.tip = some tip) :
      Move row actor (.submit tip) row.bump
  | renew {leaseUntil : Int} (hs : row.state = .working) (own : row.holder = some actor)
      (forward : ∀ l, row.leaseUntil = some l → l < leaseUntil) :
      Move row actor (.renew leaseUntil) { row.bump with leaseUntil := some leaseUntil }
  | delivered {mergeSha proof : String} (hs : row.state.notesWithdrawal) :
      Move row actor (.delivered mergeSha proof)
        { row.bump with state := .landed, reason := some mergeSha }
  | gatePass {tip gateKey : String} (hs : row.state = .submitted) (ht : row.tip = some tip) :
      Move row actor (.gatePass tip gateKey)
        { row.bump with state := .certified, gateKey := some gateKey }
  | gateRed {tip : String} {reason : GateRedReason} (hs : row.state.isPending)
      (ht : row.tip = some tip) :
      Move row actor (.gateRed tip reason)
        { row.bump with
          state := .rework
          gateKey := if row.state = .certified then none else row.gateKey
          reason := some reason.asStr
          ejectedRedTip := if gateRedBarsTip reason then row.tip else row.ejectedRedTip }
  | gateRedInDelivery {tip : String} {reason : GateRedReason} (hs : row.state = .inDelivery)
      (ht : row.tip = some tip) :
      Move row actor (.gateRed tip reason)
        { row.bump with reason := some (gateRedMark ++ reason.asStr) }
  | reapHolder (hs : row.state = .submitted) :
      Move row actor .holderDead
        { row.bump with holder := none, persona := none, leaseUntil := none }
  | deliverSubmitted (hs : row.state = .submitted)
      (notRed : ∀ t, row.tip = some t → row.ejectedRedTip ≠ some t) :
      Move row actor .deliver
        { row.bump with state := .inDelivery, reason := some fromSubmitted }
  | deliverCertified (hs : row.state = .certified) :
      Move row actor .deliver { row.bump with state := .inDelivery, reason := none }
  | gateInfra {tip : String} (hs : row.state = .submitted) (ht : row.tip = some tip) :
      Move row actor (.gateInfra tip) row.bump
  | returned {reason : ReturnedReason} (hs : row.state = .inDelivery) :
      Move row actor (.returned reason)
        { row.bump with
          state := .rework
          reason := some reason.asStr
          ejectedRedTip := if returnedBarsTip reason then row.tip else row.ejectedRedTip }
  | requeuedRed {tip : String} (hs : row.state = .inDelivery)
      (red : row.ejectedRedTip = some tip) :
      Move row actor (.requeued tip) { row.bump with state := .rework, reason := none }
  | requeuedCertified {tip : String} (hs : row.state = .inDelivery)
      (notRed : row.ejectedRedTip ≠ some tip) (keyed : row.gateKey.isSome)
      (certified : row.reason ≠ some fromSubmitted) (ht : row.tip = some tip) :
      Move row actor (.requeued tip) { row.bump with state := .certified, reason := none }
  | requeuedSubmitted {tip : String} (hs : row.state = .inDelivery)
      (notRed : row.ejectedRedTip ≠ some tip)
      (void : ¬(row.gateKey.isSome ∧ row.reason ≠ some fromSubmitted ∧ row.tip = some tip)) :
      Move row actor (.requeued tip) { row.bump with state := .submitted, reason := none }

/-! ## Every applied event is one of the moves -/

section Inversion

variable {row : BeadRow} {actor : String} {kind : BeadEventKind}

theorem dropPrereq_grants {prereq : String} (open_ : ¬ row.state.isTerminal)
    (hs : row.state ≠ .open) :
    (dropPrereq row prereq).Grants (Move row actor (.prereqLanded prereq)) := by
  simpa [dropPrereq] using Move.prereqLanded open_ hs

theorem noteBaseWithdrawn_grants {prereq tip : String} (hs : row.state.notesWithdrawal) :
    (noteBaseWithdrawn row prereq tip).Grants (Move row actor (.baseWithdrawn prereq tip)) := by
  simp only [noteBaseWithdrawn, notInStack, Outcome.grants_guard,
    Outcome.grants_accepted]
  exact fun h ↦ .baseWithdrawnNoted hs (by simpa using h)

theorem reworkBaseWithdrawn_grants {prereq tip : String} (hs : row.state.isPending) :
    (reworkBaseWithdrawn row prereq tip).Grants (Move row actor (.baseWithdrawn prereq tip)) := by
  simp only [reworkBaseWithdrawn, notInStack, Outcome.grants_guard,
    Outcome.grants_accepted]
  exact fun h ↦ .baseWithdrawnRework hs (by simpa using h)

/-- A `resubmit` is left out of what follows: its reason is written after the table has answered. -/
def BeadEventKind.isResubmit : BeadEventKind → Prop
  | .resubmit _ _ => True
  | _ => False

theorem readyTransition_grants (hs : row.state = .ready) (hk : ¬ kind.isResubmit) :
    (readyTransition row kind).Grants (Move row actor kind) := by
  cases kind with
  | claim holder leaseUntil stack stackDepth stackMaxDepth persona =>
    simp only [readyTransition, depthExceeded, Outcome.grants_guard,
      Outcome.grants_accepted]
    exact fun h ↦ .claimReady hs (by omega)
  | baseWithdrawn prereq tip =>
    simpa only [readyTransition, Outcome.grants_accepted] using Move.baseWithdrawnReady hs
  | prereqLanded prereq => exact dropPrereq_grants (by simp [hs, BeadState.isTerminal]) (by simp [hs])
  | done delivers =>
    simp only [readyTransition, awaitingReply, Outcome.grants_guard,
      Outcome.grants_accepted]
    exact fun h ↦ .done (.inl hs) h
  | resubmit tip breakGlass => exact absurd trivial hk
  | _ => simp [readyTransition, illegal]

theorem workingTransition_grants (hs : row.state = .working)
    (own : ∀ l, kind = .renew l → row.holder = some actor) :
    (workingTransition row kind).Grants (Move row actor kind) := by
  have hn : row.state.notesWithdrawal := .inl hs
  cases kind with
  | release => simpa only [workingTransition, Outcome.grants_accepted] using .unclaim (.inl rfl) hs
  | holderDead =>
    simpa only [workingTransition, Outcome.grants_accepted] using .unclaim (.inr rfl) hs
  | submit tip =>
    simp only [workingTransition, Outcome.grants_guard,
      Outcome.grants_accepted]
    exact fun h ↦ .submitWork hs h
  | done delivers =>
    simp only [workingTransition, awaitingReply, Outcome.grants_guard,
      Outcome.grants_accepted]
    exact fun h ↦ .done (.inr hs) h
  | baseWithdrawn prereq tip => exact noteBaseWithdrawn_grants hn
  | prereqLanded prereq => exact dropPrereq_grants (by simp [hs, BeadState.isTerminal]) (by simp [hs])
  | renew leaseUntil =>
    simp only [workingTransition, illegal, Outcome.grants_guard,
      Outcome.grants_accepted]
    refine fun h ↦ .renew hs (own _ rfl) fun l hl ↦ ?_
    simpa [hl] using h
  | delivered mergeSha proof =>
    simpa only [workingTransition, landedUnderHolder, Outcome.grants_accepted] using .delivered hn
  | _ => simp [workingTransition, illegal]

theorem submittedTransition_grants (hs : row.state = .submitted) :
    (submittedTransition row kind).Grants (Move row actor kind) := by
  have hp : row.state.isPending := .inl hs
  cases kind with
  | submit tip =>
    simp only [submittedTransition, Outcome.grants_ite, Outcome.grants_accepted]
    refine ⟨fun h ↦ ?_, fun h ↦ .submitAgain hp (not_not.mp h)⟩
    have hm : Move row actor (.submit tip) _ := .submitMoved hp h
    rwa [← hs] at hm
  | gatePass tip gateKey =>
    simp only [submittedTransition, tipMismatch, Outcome.grants_guard,
      Outcome.grants_accepted]
    exact fun h ↦ .gatePass hs (not_not.mp h)
  | gateRed tip reason =>
    simp only [submittedTransition, tipMismatch, Outcome.grants_guard,
      Outcome.grants_accepted]
    refine fun h ↦ ?_
    have hm : Move row actor (.gateRed tip reason) _ := .gateRed hp (not_not.mp h)
    simpa [hs] using hm
  | holderDead =>
    simpa only [submittedTransition, Outcome.grants_accepted] using .reapHolder hs
  | deliver =>
    simp only [submittedTransition]
    split
    · simp
    · rename_i h
      rw [Outcome.grants_accepted]
      refine .deliverSubmitted hs fun t ht hr ↦ ?_
      simp [ht, hr] at h
  | gateInfra tip =>
    simp only [submittedTransition, tipMismatch, Outcome.grants_guard,
      Outcome.grants_accepted]
    exact fun h ↦ .gateInfra hs (not_not.mp h)
  | baseWithdrawn prereq tip => exact reworkBaseWithdrawn_grants hp
  | prereqLanded prereq => exact dropPrereq_grants (by simp [hs, BeadState.isTerminal]) (by simp [hs])
  | _ => simp [submittedTransition, illegal]

theorem certifiedTransition_grants (hs : row.state = .certified) :
    (certifiedTransition row kind).Grants (Move row actor kind) := by
  have hp : row.state.isPending := .inr hs
  cases kind with
  | deliver =>
    simpa only [certifiedTransition, Outcome.grants_accepted] using .deliverCertified hs
  | submit tip =>
    simp only [certifiedTransition, Outcome.grants_ite, Outcome.grants_accepted]
    exact ⟨fun h ↦ .submitMoved hp h, fun h ↦ .submitAgain hp (not_not.mp h)⟩
  | gateRed tip reason =>
    simp only [certifiedTransition, tipMismatch, Outcome.grants_guard,
      Outcome.grants_accepted]
    refine fun h ↦ ?_
    have hm : Move row actor (.gateRed tip reason) _ := .gateRed hp (not_not.mp h)
    simpa [hs] using hm
  | baseWithdrawn prereq tip => exact reworkBaseWithdrawn_grants hp
  | prereqLanded prereq => exact dropPrereq_grants (by simp [hs, BeadState.isTerminal]) (by simp [hs])
  | _ => simp [certifiedTransition, illegal]

theorem inDeliveryTransition_grants (hs : row.state = .inDelivery) :
    (inDeliveryTransition row kind).Grants (Move row actor kind) := by
  have hn : row.state.notesWithdrawal := .inr (.inl hs)
  cases kind with
  | delivered mergeSha proof =>
    simpa only [inDeliveryTransition, Outcome.grants_accepted] using .delivered hn
  | returned reason =>
    simpa only [inDeliveryTransition, Outcome.grants_accepted] using .returned hs
  | requeued tip =>
    simp only [inDeliveryTransition, Outcome.grants_ite, Outcome.grants_accepted]
    refine ⟨fun h ↦ .requeuedRed hs h, fun hr ↦ ?_⟩
    split
    · rename_i h
      simp only [Bool.and_eq_true, decide_eq_true_eq] at h
      exact .requeuedCertified hs hr h.1.1 h.1.2 h.2
    · rename_i h
      exact .requeuedSubmitted hs hr (by simpa [and_assoc] using h)
  | baseWithdrawn prereq tip => exact noteBaseWithdrawn_grants hn
  | prereqLanded prereq => exact dropPrereq_grants (by simp [hs, BeadState.isTerminal]) (by simp [hs])
  | gateRed tip reason =>
    simp only [inDeliveryTransition, tipMismatch, Outcome.grants_guard,
      Outcome.grants_accepted]
    exact fun h ↦ .gateRedInDelivery hs (not_not.mp h)
  | _ => simp [inDeliveryTransition, illegal]

theorem reworkTransition_grants (hs : row.state = .rework) (hk : ¬ kind.isResubmit) :
    (reworkTransition row kind).Grants (Move row actor kind) := by
  have hn : row.state.notesWithdrawal := .inr (.inr hs)
  cases kind with
  | claim holder leaseUntil stack stackDepth stackMaxDepth persona =>
    simp only [reworkTransition, depthExceeded, Outcome.grants_guard,
      Outcome.grants_accepted]
    exact fun h hu ↦ .claimRework hs (by omega) (by simpa using hu)
  | baseWithdrawn prereq tip => exact noteBaseWithdrawn_grants hn
  | prereqLanded prereq => exact dropPrereq_grants (by simp [hs, BeadState.isTerminal]) (by simp [hs])
  | resubmit tip breakGlass => exact absurd trivial hk
  | delivered mergeSha proof =>
    simpa only [reworkTransition, landedUnderHolder, Outcome.grants_accepted] using .delivered hn
  | _ => simp [reworkTransition, illegal]

/-- What the table grants, state by state. -/
theorem primaryTransition_grants (hk : ¬ kind.isResubmit)
    (own : ∀ l, kind = .renew l → row.state = .working → row.holder = some actor) :
    (primaryTransition row kind).Grants (Move row actor kind) := by
  unfold primaryTransition
  split <;> rename_i hs
  · exact readyTransition_grants hs hk
  · simp [illegal]
  · exact workingTransition_grants hs fun l hl ↦ own l hl hs
  · exact submittedTransition_grants hs
  · exact certifiedTransition_grants hs
  · exact inDeliveryTransition_grants hs
  · exact reworkTransition_grants hs hk
  all_goals simp [terminal]

theorem closeAs_grants {state : BeadState} {reason : String} {P : BeadRow → Prop}
    (h : ¬ row.state.isTerminal → .ask ∉ row.holds →
      P { row.bump with state := state, reason := some reason }) :
    (closeAs row kind state reason).Grants P := by
  simp only [closeAs, terminal, awaitingReply, Outcome.grants_guard,
    Outcome.grants_accepted]
  exact fun ho ha ↦ h ho ha

theorem liftAsk_grants {legal : Bool} {reason : String} {P : BeadRow → Prop}
    (h : ¬ row.state.isTerminal → .ask ∈ row.holds → legal = true →
      P { row.bump with holds := row.holds.erase .ask, reason := some reason }) :
    (liftAsk row kind legal reason).Grants P := by
  simp only [liftAsk, terminal, illegal, Outcome.grants_guard,
    Outcome.grants_accepted]
  refine fun ho hl ↦ ?_
  simp only [Bool.or_eq_true, decide_eq_true_eq, Bool.not_eq_true', not_or, not_not,
    Bool.not_eq_false] at hl
  exact h ho hl.1 hl.2

/-- What the table answers to a `resubmit`, whose reason it does not write yet. -/
theorem primaryTransition_resubmit {tip : String} {breakGlass : BreakGlass}
    (h : (primaryTransition row (.resubmit tip breakGlass)).applied = true) :
    ((row.state = .ready ∧ .ask ∉ row.holds ∧ .wait ∉ row.holds) ∨
        (row.state = .rework ∧ .manual ∈ row.holds)) ∧
      (primaryTransition row (.resubmit tip breakGlass)).row =
        { row.bump with
          state := .submitted, tip := some tip, gateKey := none, reason := none } := by
  revert h
  unfold primaryTransition
  split <;> rename_i hs
  case h_1 =>
    simp only [readyTransition, awaitingReply, illegal]
    split
    · simp
    · split <;> simp_all
  case h_7 =>
    simp only [reworkTransition]
    split <;> simp_all
  all_goals simp [illegal, terminal, workingTransition, submittedTransition, certifiedTransition,
    inDeliveryTransition]

theorem dispatch_grants {ev : BeadEvent} : (dispatch row ev).Grants (Move row ev.actor ev.kind) := by
  obtain ⟨expect, version, kind, actor, at_⟩ := ev
  dsimp only
  cases kind with
  | contentOnBase proof => exact closeAs_grants .contentOnBase
  | supersede successor => exact closeAs_grants .supersede
  | drop reason => exact closeAs_grants .drop
  | done delivers =>
    simp only [dispatch, Outcome.grants_ite, Outcome.grants_accepted]
    exact ⟨fun h ↦ .correctDropped h.1 h.2, fun _ ↦ primaryTransition_grants id (by simp)⟩
  | reclassify state rule =>
    simp only [dispatch, illegal, terminal, Outcome.grants_guard,
      Outcome.grants_accepted]
    refine fun h hr hn ↦ ?_
    push Not at h
    exact .reclassify h.1 h.2 (fun ht ↦ by_contra fun hne ↦ hr ⟨ht, hne⟩) hn
  | hold kind cause detail =>
    simp only [dispatch, terminal, Outcome.grants_guard]
    intro ho
    split
    · simp
    · rename_i hm
      rw [Outcome.grants_accepted]
      exact .hold ho fun hk hc ↦ by simpa [hk, hc] using hm
  | express =>
    simp only [dispatch, terminal, Outcome.grants_guard,
      Outcome.grants_accepted]
    exact .express
  | unexpress =>
    simp only [dispatch, terminal, Outcome.grants_guard,
      Outcome.grants_accepted]
    exact .unexpress
  | promote =>
    simp only [dispatch, illegal, Outcome.grants_guard,
      Outcome.grants_accepted]
    exact fun h ↦ .promote (not_not.mp h)
  | sifted tip =>
    simp only [dispatch, illegal, tipMismatch, Outcome.grants_guard,
      Outcome.grants_accepted]
    exact fun h ht ↦ .sifted (not_not.mp h) (not_not.mp ht)
  | restack tip stack stackDepth =>
    simp only [dispatch, illegal, Outcome.grants_guard,
      Outcome.grants_accepted]
    refine fun h hg ↦ ?_
    push Not at hg
    exact .restack (not_not.mp h) hg.1 hg.2.1 hg.2.2
  | absolve tip breakGlass =>
    simp only [dispatch, terminal, illegal, Outcome.grants_guard]
    intro ho hr
    split
    · simp
    · rename_i hg
      rw [Outcome.grants_accepted]
      exact .absolve ho (not_not.mp hr) hg
  | unhold kind breakGlass =>
    simp only [dispatch, terminal, awaitingReply, Outcome.grants_guard]
    intro ho hk
    split
    · simp
    · rename_i hg
      rw [Outcome.grants_accepted]
      exact .unhold ho hk fun hh ↦ by simpa [hh] using hg
  | reply messageId =>
    exact liftAsk_grants fun ho ha hl ↦ .reply ho ha (by simpa using hl)
  | askWithdrawn => exact liftAsk_grants fun ho ha _ ↦ .askWithdrawn ho ha
  | resubmit tip breakGlass =>
    simp only [dispatch]
    split
    · simp
    · rename_i hg
      intro ha
      by_cases hp : (primaryTransition row (.resubmit tip breakGlass)).applied = true
      · obtain ⟨hs, hrow⟩ := primaryTransition_resubmit hp
        simp only [hp, if_true, hrow]
        refine .resubmit hs ?_
        have : row.state = .ready ∨ row.state = .rework := hs.imp And.left And.left
        simpa [this] using hg
      · simp [hp] at ha
  | phase phase =>
    simp only [dispatch, terminal, illegal, illegalInPhase, Outcome.grants_guard, Outcome.grants_accepted]
    refine fun _ hs ho hp ↦ .phase (not_not.mp hs) (not_not.mp ho) fun p hrow ↦ ?_
    simpa [hrow] using hp
  | disposition status note =>
    simp only [dispatch, terminal, illegal, illegalInPhase, Outcome.grants_guard, Outcome.grants_accepted]
    refine fun _ hs hp ↦ .disposition (not_not.mp hs) fun d hrow ↦ ?_
    simpa [hrow] using hp
  | renew leaseUntil =>
    simp only [dispatch, Outcome.grants_guard]
    intro ho
    refine primaryTransition_grants id fun l _ hs ↦ ?_
    exact by_contra fun hne ↦ ho ⟨hs, hne⟩
  | _ => exact primaryTransition_grants id (by simp)

end Inversion

/-! ## A refused event changes nothing -/

section Refused

variable {row : BeadRow} {kind : BeadEventKind}

theorem primaryTransition_keeps : (primaryTransition row kind).Keeps row := by
  unfold primaryTransition
  split
  case h_1 => unfold readyTransition; split <;> simp [depthExceeded, dropPrereq, awaitingReply, illegal]
  case h_3 =>
    unfold workingTransition
    split <;>
      simp [noteBaseWithdrawn, notInStack, dropPrereq, awaitingReply, landedUnderHolder, illegal]
  case h_4 =>
    unfold submittedTransition
    split <;> try simp [tipMismatch, reworkBaseWithdrawn, notInStack, dropPrereq, illegal]
    split <;> simp
  case h_5 =>
    unfold certifiedTransition
    split <;> simp [tipMismatch, reworkBaseWithdrawn, notInStack, dropPrereq, illegal]
  case h_6 =>
    unfold inDeliveryTransition
    split <;> simp [tipMismatch, noteBaseWithdrawn, notInStack, dropPrereq, illegal]
  case h_7 =>
    unfold reworkTransition
    split <;>
      simp [depthExceeded, noteBaseWithdrawn, notInStack, dropPrereq, landedUnderHolder, illegal]
  all_goals simp [illegal, terminal]

theorem dispatch_keeps {ev : BeadEvent} : (dispatch row ev).Keeps row := by
  unfold dispatch
  split
  case h_6 | h_12 | h_13 =>
    simp only [terminal, awaitingReply, illegal, Outcome.keeps_ite, Outcome.keeps_refuse,
      implies_true, true_and]
    intros
    split <;> simp
  case h_16 =>
    split
    · simp
    · dsimp only
      split
      · rename_i ha
        exact fun hf ↦ absurd (ha.symm.trans hf) (by simp)
      · exact primaryTransition_keeps
  all_goals simp [closeAs, liftAsk, terminal, awaitingReply, illegal, illegalInPhase, tipMismatch,
    primaryTransition_keeps]

theorem apply_refused {ev : BeadEvent} (h : (apply row ev).applied = false) :
    (apply row ev).row = row := by
  have hk : (applyTransition row ev).Keeps row := by
    unfold applyTransition
    simp only [Outcome.keeps_ite, Outcome.keeps_refuse, implies_true, true_and]
    intros
    split
    · simp
    · exact dispatch_keeps
  by_cases ha : (applyTransition row ev).applied = true
  · simp [apply, ha] at h
  · simp [apply, ha, hk (by simpa using ha)]

end Refused

/-! ## Every move is applied -/

/-- The checks every event passes before its own arm is looked at. -/
structure Admitted (row : BeadRow) (ev : BeadEvent) : Prop where
  version : ev.version = row.version
  expect : ev.expect = row.state
  wellFormed : ∀ tip, ev.kind.submittedTip = some tip → isFullSha tip = true

theorem applyTransition_of_admitted {row : BeadRow} {ev : BeadEvent} (h : Admitted row ev) :
    applyTransition row ev = dispatch row ev := by
  have hf : ev.kind.submittedTip.filter (!isFullSha ·) = none := by
    cases ht : ev.kind.submittedTip with
    | none => rfl
    | some tip => simp [h.wellFormed tip ht]
  simp [applyTransition, h.version, h.expect, hf]

theorem admitted_of_applied {row : BeadRow} {ev : BeadEvent}
    (h : (applyTransition row ev).applied = true) : Admitted row ev := by
  unfold applyTransition at h
  split at h
  · simp at h
  · rename_i hv
    split at h
    · simp at h
    · rename_i he
      split at h
      · simp at h
      · rename_i hf
        refine ⟨not_not.mp hv, not_not.mp he, fun tip ht ↦ ?_⟩
        simpa [ht] using hf

theorem primaryTransition_of_prereqLanded {row : BeadRow} {prereq : String}
    (open_ : ¬ row.state.isTerminal) (hs : row.state ≠ .open) :
    primaryTransition row (.prereqLanded prereq) = dropPrereq row prereq := by
  unfold primaryTransition
  split <;> simp_all [readyTransition, workingTransition, submittedTransition,
    certifiedTransition, inDeliveryTransition, reworkTransition, BeadState.isTerminal]

theorem dispatch_of_move {row row' : BeadRow} {ev : BeadEvent}
    (h : Move row ev.actor ev.kind row') : dispatch row ev = .accepted row' := by
  obtain ⟨expect, version, kind, actor, at_⟩ := ev
  dsimp only at h
  cases h with
  | contentOnBase open_ answered => simp [dispatch, closeAs, open_, answered]
  | supersede open_ answered => simp [dispatch, closeAs, open_, answered]
  | drop open_ answered => simp [dispatch, closeAs, open_, answered]
  | correctDropped hs ha => simp [dispatch, hs, ha]
  | @reclassify state rule ha hs residue new =>
    have hr : ¬(row.state.isTerminal = true ∧ row.reason ≠ some residueRule) :=
      fun h ↦ h.2 (residue h.1)
    simp [dispatch, ha, hs, if_neg hr, if_neg new]
  | @hold kind cause detail open_ reasoned =>
    by_cases hm : kind = .manual ∧ cause = .manualHold
    · simp [dispatch, open_, hm, reasoned hm.1 hm.2]
    · simp [dispatch, open_, hm]
  | express open_ => simp [dispatch, open_]
  | unexpress open_ => simp [dispatch, open_]
  | promote hs => simp [dispatch, hs]
  | sifted hs ht => simp [dispatch, ht, show row.state = _ ∨ row.state = _ from hs]
  | restack hs nonempty deep notSelf =>
    simp [dispatch, nonempty, deep, notSelf, show row.state = _ ∨ row.state = _ from hs]
  | absolve open_ red complete => simp [dispatch, open_, red, complete]
  | @unhold kind breakGlass open_ notAsk complete =>
    by_cases hg : gateHold row kind = true
    · simp [dispatch, open_, notAsk, hg, complete hg]
    · simp [dispatch, open_, notAsk, hg]
  | reply open_ asked named => simp [dispatch, liftAsk, open_, asked, named]
  | askWithdrawn open_ asked => simp [dispatch, liftAsk, open_, asked]
  | @phase phase hs own forward =>
    have hp : row.phase.any (phase.rank ≤ ·.rank) = false := by
      cases h : row.phase with
      | none => rfl
      | some p => simpa using forward p h
    simp [dispatch, hs, own, hp, BeadState.isTerminal]
  | @disposition status note hs stronger =>
    have hd : row.disposition.any (status.rank ≤ ·.rank) = false := by
      cases h : row.disposition with
      | none => rfl
      | some d => simpa using stronger d h
    simp [dispatch, hs, hd, BeadState.isTerminal]
  | claimReady hs depth => simp [dispatch, primaryTransition, hs, readyTransition, depth]
  | claimRework hs depth changed =>
    simp [dispatch, primaryTransition, hs, reworkTransition, depth, changed]
  | baseWithdrawnReady hs => simp [dispatch, primaryTransition, hs, readyTransition]
  | baseWithdrawnNoted hs stacked =>
    rcases hs with hs | hs | hs <;>
      simp [dispatch, primaryTransition, hs, workingTransition, inDeliveryTransition,
        reworkTransition, noteBaseWithdrawn, stacked]
  | baseWithdrawnRework hs stacked =>
    rcases hs with hs | hs <;>
      simp [dispatch, primaryTransition, hs, submittedTransition, certifiedTransition,
        reworkBaseWithdrawn, stacked]
  | prereqLanded open_ hs =>
    simp [dispatch, primaryTransition_of_prereqLanded open_ hs, dropPrereq]
  | done hs answered =>
    rcases hs with hs | hs <;>
      simp [dispatch, primaryTransition, hs, readyTransition, workingTransition, answered]
  | resubmit hs complete =>
    rcases hs with ⟨hs, ha, hw⟩ | ⟨hs, hm⟩
    · simp [dispatch, primaryTransition, hs, readyTransition, complete, ha, hw, Outcome.accepted]
    · simp [dispatch, primaryTransition, hs, reworkTransition, complete, hm, Outcome.accepted]
  | unclaim hk hs =>
    rcases hk with rfl | rfl <;> simp [dispatch, primaryTransition, hs, workingTransition]
  | submitWork hs notRed => simp [dispatch, primaryTransition, hs, workingTransition, notRed]
  | submitMoved hs moved =>
    rcases hs with hs | hs <;>
      simp [dispatch, primaryTransition, hs, submittedTransition, certifiedTransition, moved]
  | submitAgain hs ht =>
    rcases hs with hs | hs <;>
      simp [dispatch, primaryTransition, hs, submittedTransition, certifiedTransition, ht]
  | @renew leaseUntil hs own forward =>
    have hl : row.leaseUntil.any (leaseUntil ≤ ·) = false := by
      cases h : row.leaseUntil with
      | none => rfl
      | some l => simpa using forward l h
    simp [dispatch, primaryTransition, hs, workingTransition, own, hl]
  | delivered hs =>
    rcases hs with hs | hs | hs <;>
      simp [dispatch, primaryTransition, hs, workingTransition, inDeliveryTransition,
        reworkTransition, landedUnderHolder]
  | gatePass hs ht => simp [dispatch, primaryTransition, hs, submittedTransition, ht]
  | gateRed hs ht =>
    rcases hs with hs | hs <;>
      simp [dispatch, primaryTransition, hs, submittedTransition, certifiedTransition, ht]
  | gateRedInDelivery hs ht => simp [dispatch, primaryTransition, hs, inDeliveryTransition, ht]
  | reapHolder hs => simp [dispatch, primaryTransition, hs, submittedTransition]
  | deliverSubmitted hs notRed =>
    have hf : row.tip.filter (row.ejectedRedTip = some ·) = none := by
      cases ht : row.tip with
      | none => rfl
      | some t => simpa using notRed t ht
    simp [dispatch, primaryTransition, hs, submittedTransition, hf]
  | deliverCertified hs => simp [dispatch, primaryTransition, hs, certifiedTransition]
  | gateInfra hs ht => simp [dispatch, primaryTransition, hs, submittedTransition, ht]
  | returned hs => simp [dispatch, primaryTransition, hs, inDeliveryTransition]
  | requeuedRed hs red => simp [dispatch, primaryTransition, hs, inDeliveryTransition, red]
  | requeuedCertified hs notRed keyed certified ht =>
    simp [dispatch, primaryTransition, hs, inDeliveryTransition, notRed, keyed, certified, ht]
  | requeuedSubmitted hs notRed void =>
    simp only [dispatch, primaryTransition, hs, inDeliveryTransition, if_neg notRed]
    rw [if_neg (by simpa [and_assoc] using void)]

/-! ## The machine, move by move -/

section Apply

variable {row row' : BeadRow} {ev : BeadEvent}

theorem apply_applied : (apply row ev).applied = (applyTransition row ev).applied := by
  simp only [apply]
  split <;> rfl

/-- **An applied event is a move, settled.** -/
theorem apply_move (h : (apply row ev).applied = true) :
    Admitted row ev ∧ ∃ mid, Move row ev.actor ev.kind mid ∧
      (apply row ev).row = settled row.state ev.at_ mid := by
  rw [apply_applied] at h
  have ha := admitted_of_applied h
  refine ⟨ha, (applyTransition row ev).row, ?_, by simp [apply, h]⟩
  rw [applyTransition_of_admitted ha] at h ⊢
  exact dispatch_grants h

/-- **Every move is applied**, to an event that passes the checks all events are put to. -/
theorem apply_of_move (ha : Admitted row ev) (h : Move row ev.actor ev.kind row') :
    apply row ev = .accepted (settled row.state ev.at_ row') := by
  simp [apply, applyTransition_of_admitted ha, dispatch_of_move h, Outcome.accepted]

/-- The row after an event, applied or refused. -/
def step (row : BeadRow) (ev : BeadEvent) : BeadRow := (apply row ev).row

/-- **A step is a refusal that changes nothing, or a move, settled.** -/
theorem step_cases (row : BeadRow) (ev : BeadEvent) :
    ((apply row ev).applied = false ∧ step row ev = row) ∨
      ((apply row ev).applied = true ∧ Admitted row ev ∧
        ∃ mid, Move row ev.actor ev.kind mid ∧ step row ev = settled row.state ev.at_ mid) := by
  cases h : (apply row ev).applied with
  | false => exact .inl ⟨rfl, apply_refused h⟩
  | true => exact .inr ⟨rfl, (apply_move h).1, (apply_move h).2⟩

end Apply

end Spira.Bead
