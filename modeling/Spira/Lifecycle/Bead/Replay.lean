import Spira.Control.Records
import Spira.Lifecycle.Bead.RedTip

/-!
# Replay

A row is a cache of its event log: as a refused event never changes the row, the fold of the whole
log, refusals included, should give the row the live applications left.  `foldBead` is that fold,
and it starts from the filed row, while a bead is born in one of three ways.

* What the log says of versions is the same for every birth: the version counts the applied events,
  and of two events of one version at most one is applied (`version_run`, `applied_once`).
* A bead born READY differs from the filed row in its stamp alone, until an event takes it out of
  READY and stamps both rows alike.  So its log replays exactly when some event does
  (`replays_ready_iff`).
* A bead born OPEN or SUBMITTED is in a state, or at a version, the filed row is not.  The fold takes
  none of the events that were sent to the bead as it stood, and never reaches its row
  (`not_replays`).
-/

set_option autoImplicit false

namespace Spira.Bead

open History Control

/-- The row a bead's events fold to. -/
def foldBead (id : String) (events : List BeadEvent) : BeadRow :=
  events.foldl (fun row ev ↦ (apply row ev).row) (.filed id)

/-- The ways a bead is born. -/
inductive Birth
  | ready
  | «open»
  | submitted (tip actor : String)
  deriving DecidableEq

def Birth.record (birth : Birth) (id : String) (repo : Option String) (at_ : Int) :
    LifecycleRecord :=
  match birth with
  | ready => .born id repo none at_
  | «open» => .bornOpen id repo at_
  | submitted tip _ => .born id repo (some tip) at_

/-- What a birth writes into the log: being born SUBMITTED is recorded as a submit from READY. -/
def Birth.logged (birth : Birth) (at_ : Int) : List BeadEvent :=
  match birth with
  | submitted tip actor => [⟨.ready, 0, .submit tip, actor, some at_⟩]
  | _ => []

/-- The number of events of the run that were applied. -/
def appliedCount (row : BeadRow) (es : List BeadEvent) : Nat :=
  (run (fun (s : BeadRow × Nat) ev ↦
    (step s.1 ev, if (apply s.1 ev).applied then s.2 + 1 else s.2)) (row, 0) es).2

/-- The log of a bead, its birth included, replays. -/
structure Replays (birth : Birth) (id : String) (repo : Option String) (at_ : Int)
    (es : List BeadEvent) : Prop where
  same : foldBead id (birth.logged at_ ++ es) = run step (birth.record id repo at_).row es
  version : (run step (birth.record id repo at_).row es).version =
    (birth.record id repo at_).row.version + appliedCount (birth.record id repo at_).row es
  refused : ∀ pre ev post, es = pre ++ ev :: post →
    (apply (run step (birth.record id repo at_).row pre) ev).applied = false ∨
      ev.version ≠ (run step (birth.record id repo at_).row pre).version →
    run step (birth.record id repo at_).row (pre ++ [ev]) =
      run step (birth.record id repo at_).row pre
  once : ∀ pre ev mid ev' post, es = pre ++ ev :: (mid ++ ev' :: post) → ev.version = ev'.version →
    (apply (run step (birth.record id repo at_).row pre) ev).applied = true →
    (apply (run step (birth.record id repo at_).row (pre ++ ev :: mid)) ev').applied = false

/-- The event takes a READY row to another state. -/
def LeavesReady (row : BeadRow) (ev : BeadEvent) : Prop :=
  row.state = .ready ∧ Admitted row ev ∧
    match ev.kind with
    | .claim _ _ _ stackDepth stackMaxDepth _ => stackDepth ≤ stackMaxDepth
    | .done _ | .contentOnBase _ | .supersede _ | .drop _ => .ask ∉ row.holds
    | .resubmit tip breakGlass =>
      .ask ∉ row.holds ∧ .wait ∉ row.holds ∧ breakGlass.gap ev.actor tip = none
    | .reclassify state _ => ev.actor = "classifier" ∧ state ≠ .ready
    | _ => False

/-- The event was sent to the row as it stands. -/
def SentTo (row : BeadRow) (ev : BeadEvent) : Prop :=
  ev.version = row.version ∧ ev.expect = row.state

/-! ## What the log says of versions -/

section Version

variable {row : BeadRow} {ev : BeadEvent}

theorem applied_version (h : (apply row ev).applied = true) : ev.version = row.version :=
  (apply_move h).1.version

/-- Every move counts. -/
theorem version_move {actor : String} {kind : BeadEventKind} {mid : BeadRow}
    (hm : Move row actor kind mid) : mid.version = row.version + 1 := by
  cases hm <;> rfl

theorem version_step : (step row ev).version =
    row.version + if (apply row ev).applied then 1 else 0 := by
  obtain ⟨hf, hrow⟩ | ⟨ha, -, mid, hm, hrow⟩ := step_cases row ev
  · rw [hrow, hf]
    rfl
  · rw [hrow, settled_version, version_move hm, ha]
    rfl

theorem version_mono (row : BeadRow) (es : List BeadEvent) :
    row.version ≤ (run step row es).version := by
  induction es using List.reverseRecOn with
  | nil => exact Nat.le_refl _
  | append_singleton es ev ih =>
    rw [run_snoc, version_step]
    exact Nat.le_trans ih (Nat.le_add_right _ _)

/-- **The version counts the applied events.** -/
theorem version_run (row : BeadRow) (es : List BeadEvent) :
    (run step row es).version = row.version + appliedCount row es := by
  suffices h : ∀ es : List BeadEvent, (run (fun (s : BeadRow × Nat) ev ↦
      (step s.1 ev, if (apply s.1 ev).applied then s.2 + 1 else s.2)) (row, 0) es).1 =
        run step row es ∧ (run step row es).version = row.version + appliedCount row es from (h es).2
  intro es
  induction es using List.reverseRecOn with
  | nil => exact ⟨rfl, rfl⟩
  | append_singleton es ev ih =>
    obtain ⟨hfst, hversion⟩ := ih
    rw [appliedCount] at hversion ⊢
    simp only [run_snoc, hfst, version_step, hversion, true_and]
    split <;> rfl

/-- **Of two events that carry one version, at most one is applied.** -/
theorem applied_once {pre mid : List BeadEvent} {ev ev' : BeadEvent} (hv : ev.version = ev'.version)
    (ha : (apply (run step row pre) ev).applied = true) :
    (apply (run step row (pre ++ ev :: mid)) ev').applied = false := by
  by_contra hne
  have ha' : (apply (run step row (pre ++ ev :: mid)) ev').applied = true := by simpa using hne
  have hgrown : (run step row pre).version < (run step row (pre ++ ev :: mid)).version := by
    have hsplit : pre ++ ev :: mid = (pre ++ [ev]) ++ mid := by simp
    rw [hsplit, run_append, run_snoc]
    refine Nat.lt_of_lt_of_le ?_ (version_mono _ mid)
    rw [version_step, ha]
    exact Nat.lt_succ_self _
  exact absurd ((applied_version ha).symm.trans (hv.trans (applied_version ha'))) (Nat.ne_of_lt hgrown)

/-- An event of another version, like a refused one, changes nothing. -/
theorem step_refused (h : (apply row ev).applied = false ∨ ev.version ≠ row.version) :
    step row ev = row := by
  obtain ⟨-, hrow⟩ | ⟨ha, hadm, -⟩ := step_cases row ev
  · exact hrow
  · obtain hf | hv := h
    · rw [ha] at hf
      cases hf
    · exact absurd hadm.version hv

end Version

/-! ## A bead born READY -/

section Ready

variable {row mid : BeadRow} {ev : BeadEvent} {since : Option Int} {actor : String}
  {kind : BeadEventKind}

def BeadRow.stamped (row : BeadRow) (since : Option Int) : BeadRow := { row with since := since }

/-- No move looks at the stamp, nor changes it. -/
theorem move_stamped (hm : Move row actor kind mid) :
    Move (row.stamped since) actor kind (mid.stamped since) := by
  cases hm with
  | contentOnBase open_ answered => exact .contentOnBase open_ answered
  | supersede open_ answered => exact .supersede open_ answered
  | drop open_ answered => exact .drop open_ answered
  | correctDropped hs ha => exact .correctDropped hs ha
  | reclassify ha hs residue new => exact .reclassify ha hs residue new
  | hold open_ reasoned => exact .hold open_ reasoned
  | express open_ => exact .express open_
  | unexpress open_ => exact .unexpress open_
  | promote hs => exact .promote hs
  | sifted hs ht => exact .sifted hs ht
  | restack hs nonempty deep notSelf => exact .restack hs nonempty deep notSelf
  | absolve open_ red complete => exact .absolve open_ red complete
  | unhold open_ notAsk complete => exact .unhold open_ notAsk complete
  | reply open_ asked named => exact .reply open_ asked named
  | askWithdrawn open_ asked => exact .askWithdrawn open_ asked
  | phase hs own forward => exact .phase hs own forward
  | disposition hs stronger => exact .disposition hs stronger
  | claimReady hs depth => exact .claimReady hs depth
  | claimRework hs depth changed => exact .claimRework hs depth changed
  | baseWithdrawnReady hs => exact .baseWithdrawnReady hs
  | baseWithdrawnNoted hs stacked => exact .baseWithdrawnNoted hs stacked
  | baseWithdrawnRework hs stacked => exact .baseWithdrawnRework hs stacked
  | prereqLanded open_ hs => exact .prereqLanded open_ hs
  | done hs answered => exact .done hs answered
  | resubmit hs complete => exact .resubmit hs complete
  | unclaim hk hs => exact .unclaim hk hs
  | submitWork hs notRed => exact .submitWork hs notRed
  | submitMoved hs moved => exact .submitMoved hs moved
  | submitAgain hs ht => exact .submitAgain hs ht
  | renew hs own forward => exact .renew hs own forward
  | delivered hs => exact .delivered hs
  | gatePass hs ht => exact .gatePass hs ht
  | gateRed hs ht => exact .gateRed hs ht
  | gateRedInDelivery hs ht => exact .gateRedInDelivery hs ht
  | reapHolder hs => exact .reapHolder hs
  | deliverSubmitted hs notRed => exact .deliverSubmitted hs notRed
  | deliverCertified hs => exact .deliverCertified hs
  | gateInfra hs ht => exact .gateInfra hs ht
  | returned hs => exact .returned hs
  | requeuedRed hs red => exact .requeuedRed hs red
  | requeuedCertified hs notRed keyed certified ht =>
    exact .requeuedCertified hs notRed keyed certified ht
  | requeuedSubmitted hs notRed void => exact .requeuedSubmitted hs notRed void

theorem settled_stamped {old : BeadState} {at_ : Option Int} :
    settled old at_ (mid.stamped since) =
      (settled old at_ mid).stamped (if mid.state ≠ old then at_ else since) := rfl

/-- An event does to a stamped row what it does to the row, and stamps it where it moves it. -/
theorem step_stamped (row : BeadRow) (ev : BeadEvent) (since : Option Int) :
    step (row.stamped since) ev =
      if (step row ev).state = row.state then (step row ev).stamped since else step row ev := by
  obtain ⟨hf, hrow⟩ | ⟨-, hadm, mid, hm, hrow⟩ := step_cases row ev
  · rw [hrow, if_pos rfl]
    obtain ⟨-, hrow'⟩ | ⟨-, hadm', mid', hm', -⟩ := step_cases (row.stamped since) ev
    · exact hrow'
    · -- What moves the stamped row moves the other.
      have hm : Move ((row.stamped since).stamped row.since) ev.actor ev.kind _ := move_stamped hm'
      have hadm : Admitted row ev := ⟨hadm'.version, hadm'.expect, hadm'.wellFormed⟩
      have happ := apply_of_move hadm hm
      rw [happ] at hf
      cases hf
  · have hadm' : Admitted (row.stamped since) ev := ⟨hadm.version, hadm.expect, hadm.wellFormed⟩
    have hstamped : step (row.stamped since) ev = settled row.state ev.at_ (mid.stamped since) :=
      congrArg Outcome.row (apply_of_move hadm' (move_stamped hm))
    rw [hstamped, hrow, settled_stamped, settled_state]
    by_cases hs : mid.state = row.state
    · rw [if_pos hs, if_neg (not_not.mpr hs)]
    · have hat : (settled row.state ev.at_ mid).since = ev.at_ := if_pos hs
      rw [if_neg hs, if_pos hs]
      exact congrArg (settled row.state ev.at_ mid).stamped hat.symm

theorem step_since (h : (step row ev).state = row.state) : (step row ev).since = row.since := by
  obtain ⟨-, hrow⟩ | ⟨-, -, mid, hm, hrow⟩ := step_cases row ev
  · rw [hrow]
  · have hmid : mid.since = row.since := by
      generalize ev.kind = kind at hm
      cases hm <;> rfl
    rw [hrow, settled_state] at h
    rw [hrow, settled_since, if_neg (not_not.mpr h), hmid]

/-- The events that take a row out of READY. -/
theorem leavesReady_iff (hs : row.state = .ready) : LeavesReady row ev ↔ (step row ev).state ≠ .ready := by
  constructor
  · rintro ⟨-, hadm, hkind⟩
    have hopen : ¬ row.state.isTerminal := by simp [hs, BeadState.isTerminal]
    have moved {mid : BeadRow} (hm : Move row ev.actor ev.kind mid) : (step row ev).state = mid.state :=
      congrArg (fun out : BeadOutcome ↦ out.row.state) (apply_of_move hadm hm)
    obtain ⟨expect, version, kind, actor, at_⟩ := ev
    dsimp only at hkind moved
    cases kind with
    | claim => simp [moved (.claimReady hs hkind)]
    | done => simp [moved (.done (.inl hs) hkind)]
    | contentOnBase => simp [moved (.contentOnBase hopen hkind)]
    | supersede => simp [moved (.supersede hopen hkind)]
    | drop => simp [moved (.drop hopen hkind)]
    | resubmit => simp [moved (.resubmit (.inl ⟨hs, hkind.1, hkind.2.1⟩) hkind.2.2)]
    | reclassify =>
      have hm := moved (.reclassify hkind.1 (by simp [hs]) (fun ht ↦ absurd ht hopen)
        fun hsame ↦ hkind.2 (hsame.1.symm.trans hs))
      simp [hm, hkind.2]
    | _ => exact hkind.elim
  · intro hne
    obtain ⟨-, hrow⟩ | ⟨-, hadm, mid, hm, hrow⟩ := step_cases row ev
    · exact absurd ((congrArg BeadRow.state hrow).trans hs) hne
    refine ⟨hs, hadm, ?_⟩
    rw [hrow, settled_state] at hne
    obtain ⟨expect, version, kind, actor, at_⟩ := ev
    dsimp only at hm ⊢
    have hpending : ¬ row.state.isPending := by simp [hs, BeadState.isPending]
    have hnotes : ¬ row.state.notesWithdrawal := by simp [hs, BeadState.notesWithdrawal]
    cases hm with
    | contentOnBase _ answered | supersede _ answered | drop _ answered | done _ answered =>
      exact answered
    | claimReady _ depth => exact depth
    | reclassify ha => exact ⟨ha, hne⟩
    | resubmit hs' complete =>
      obtain ⟨-, ha, hw⟩ | ⟨hr, -⟩ := hs'
      · exact ⟨ha, hw, complete⟩
      · simp [hs] at hr
    | restack hs' | baseWithdrawnRework hs' | submitMoved hs' | gateRed hs' => exact absurd hs' hpending
    | delivered hs' => exact absurd hs' hnotes
    | absolve =>
      dsimp only at hne
      rw [if_neg (by simp [hs])] at hne
      exact absurd hs hne
    | correctDropped hs' | promote hs' | claimRework hs' | unclaim _ hs' | submitWork hs'
    | gatePass hs' | deliverSubmitted hs' | deliverCertified hs' | returned hs' | requeuedRed hs'
    | requeuedCertified hs' | requeuedSubmitted hs' => simp [hs] at hs'
    | _ => exact absurd hs hne

/-- Until it leaves READY, a stamped row is the other with its stamp; then the two are one. -/
theorem run_stamped (since : Option Int) (hs : row.state = .ready) (es : List BeadEvent) :
    (Always step (fun row ev ↦ ¬ LeavesReady row ev) row es ∧ (run step row es).state = .ready ∧
        (run step row es).since = row.since ∧
        run step (row.stamped since) es = (run step row es).stamped since) ∨
      ((∃ pre ev post, es = pre ++ ev :: post ∧ LeavesReady (run step row pre) ev) ∧
        run step (row.stamped since) es = run step row es) := by
  induction es using List.reverseRecOn with
  | nil => exact .inl ⟨always_nil, hs, rfl, rfl⟩
  | append_singleton es ev ih =>
    obtain ⟨hno, hready, hsince, hsame⟩ | ⟨⟨pre, e, post, rfl, hleaves⟩, hsame⟩ := ih
    · simp only [run_snoc, hsame, step_stamped, hready]
      by_cases hstays : (step (run step row es) ev).state = .ready
      · have hnot : ¬ LeavesReady (run step row es) ev := fun h ↦ (leavesReady_iff hready).mp h hstays
        rw [if_pos hstays]
        exact .inl ⟨always_snoc.mpr ⟨hno, hnot⟩, hstays,
          (step_since (hstays.trans hready.symm)).trans hsince, rfl⟩
      · rw [if_neg hstays]
        exact .inr ⟨⟨es, ev, [], rfl, (leavesReady_iff hready).mpr hstays⟩, rfl⟩
    · refine .inr ⟨⟨pre, e, post ++ [ev], by simp, hleaves⟩, ?_⟩
      rw [run_snoc, run_snoc, hsame]

end Ready

/-! ## Every birth -/

section Births

variable {birth : Birth} {id : String} {repo : Option String} {at_ : Int} {es : List BeadEvent}

/-- The filed row takes no submit, so the fold begins with it whatever the birth logged. -/
theorem foldBead_logged (birth : Birth) (at_ : Int) :
    foldBead id (birth.logged at_ ++ es) = run step (.filed id) es := by
  have hfold (events : List BeadEvent) : foldBead id events = run step (.filed id) events := rfl
  rw [hfold, run_append]
  congr 1
  cases birth with
  | ready => rfl
  | «open» => rfl
  | submitted tip actor =>
    obtain ⟨-, hrow⟩ | ⟨-, -, mid, hm, -⟩ := step_cases (.filed id) ⟨.ready, 0, .submit tip, actor, some at_⟩
    · exact hrow
    · exfalso
      cases hm with
      | unclaim hk => obtain hk | hk := hk <;> cases hk
      | submitWork hs => cases hs
      | submitMoved hs => obtain hs | hs := hs <;> cases hs
      | submitAgain hs => obtain hs | hs := hs <;> cases hs

/-- What is left to show of a replay is that the two rows are one. -/
theorem replays_iff_same : Replays birth id repo at_ es ↔
    run step (.filed id) es = run step (birth.record id repo at_).row es := by
  rw [← foldBead_logged birth at_]
  refine ⟨Replays.same, fun h ↦ ⟨h, version_run _ _, ?_, ?_⟩⟩
  · rintro pre ev post - hrefused
    rw [run_snoc]
    exact step_refused hrefused
  · rintro pre ev mid ev' post - hv ha
    exact applied_once hv ha

/-- **The log of a bead born READY replays exactly when some event takes it out of READY.** -/
theorem replays_ready_iff : Replays .ready id repo at_ es ↔
    ∃ pre ev post, es = pre ++ ev :: post ∧ LeavesReady (run step (.filed id) pre) ev := by
  have hborn : (Birth.ready.record id repo at_).row = (BeadRow.filed id).stamped (some at_) := rfl
  rw [replays_iff_same, hborn]
  obtain ⟨hno, -, hsince, hsame⟩ | ⟨hleaves, hsame⟩ :=
    run_stamped (some at_) (show (BeadRow.filed id).state = .ready from rfl) es
  · refine iff_of_false (fun h ↦ ?_) ?_
    · -- The filed row has no stamp.
      have hstamp := congrArg BeadRow.since (h.trans hsame)
      rw [hsince] at hstamp
      cases hstamp
    · rintro ⟨pre, ev, post, hes, hleaves⟩
      exact hno pre ev post hes hleaves
  · exact iff_of_true hsame.symm hleaves

/-- **The log of a bead born OPEN or SUBMITTED does not replay**, when every event in it was sent to
the bead as it stood. -/
theorem not_replays (hb : birth ≠ .ready)
    (hsent : Always step SentTo (birth.record id repo at_).row es) :
    ¬ Replays birth id repo at_ es := by
  rw [replays_iff_same]
  -- The fold takes none of the events: it stays at version 0, in READY.
  suffices h : run step (.filed id) es = .filed id ∧
      ((run step (birth.record id repo at_).row es).version ≠ 0 ∨
        (run step (birth.record id repo at_).row es).state ≠ .ready) by
    rintro hsame
    rw [h.1] at hsame
    rw [← hsame] at h
    obtain h | h := h.2 <;> exact h rfl
  refine always_induction (J := fun es ↦ run step (.filed id) es = .filed id ∧
    ((run step (birth.record id repo at_).row es).version ≠ 0 ∨
      (run step (birth.record id repo at_).row es).state ≠ .ready)) ⟨rfl, ?_⟩
    (fun es ev _ ih hok ↦ ?_) es hsent
  · cases birth with
    | ready => exact absurd rfl hb
    | «open» => exact .inr fun h ↦ nomatch h
    | submitted => exact .inl (Nat.succ_ne_zero 0)
  · obtain ⟨hfold, hdiffers⟩ := ih
    rw [run_snoc, run_snoc, hfold]
    constructor
    · obtain ⟨-, hrow⟩ | ⟨-, hadm, -⟩ := step_cases (.filed id) ev
      · exact hrow
      · obtain hv | hs := hdiffers
        · exact absurd (hok.1.symm.trans hadm.version) hv
        · exact absurd (hok.2.symm.trans hadm.expect) hs
    · obtain hv | hs := hdiffers
      · refine .inl fun h ↦ hv ?_
        rw [version_step] at h
        exact Nat.eq_zero_of_add_eq_zero_right h
      · by_cases ha : (apply (run step (birth.record id repo at_).row es) ev).applied = true
        · refine .inl ?_
          rw [version_step, ha]
          exact Nat.succ_ne_zero _
        · exact .inr (by rwa [step_refused (.inl (by simpa using ha))])

end Births

/-- **When a log replays.** -/
theorem replays_iff (birth : Birth) (id : String) (repo : Option String) (at_ : Int)
    (es : List BeadEvent) :
    (birth = .ready → (Replays birth id repo at_ es ↔
      ∃ pre ev post, es = pre ++ ev :: post ∧ LeavesReady (run step (.filed id) pre) ev)) ∧
    (birth ≠ .ready → Always step SentTo (birth.record id repo at_).row es →
      ¬ Replays birth id repo at_ es) := by
  refine ⟨?_, not_replays⟩
  rintro rfl
  exact replays_ready_iff

/-- A bead born OPEN is promoted; the fold of its log is still the filed row. -/
theorem promoted_not_replayed :
    ¬ ∀ (birth : Birth) (id : String) (repo : Option String) (at_ : Int) (es : List BeadEvent),
      Replays birth id repo at_ es := by
  intro h
  have hsame := (h .open "sp-1" none 100 [⟨.open, 0, .promote, "bead.sh", some 101⟩]).same
  have hversion := congrArg BeadRow.version hsame
  revert hversion
  decide

end Spira.Bead
