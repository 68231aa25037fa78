import Spira.Lib.History
import Spira.Lifecycle.Outcome
import Spira.Lifecycle.Reason

/-!
# The delivery machine

One row for each time a bead is IN_DELIVERY, started in the mode its repository lands by.  A row
ends in one of three exits, and an exited row has no further moves but those of local mode: the
publish queue records there what became of the commit it carried to the forge.

A publication is of a commit that was delivered.  The arms that record one look at the mode and
not at the exit, so a row of local mode that was returned or requeued takes them too.
`deliveryLaw_iff` has the condition under which the machine's law holds of a run: no publication
is sent to such a row.
-/

set_option autoImplicit false

namespace Spira.Delivery

open History

/-! ## Rows and events -/

/-- The only actor whose `requeued` a row of pr mode accepts. -/
def harnessActor : String := "harness"

inductive Mode
  | queue
  | pr
  | push
  | «local»
  deriving DecidableEq, Repr

inductive DeliveryState
  | queued
  | batched
  | prOpen
  | pushing
  | exited
  /-- The publish queue opened a PR for the commit; `ci` on the row is the sub-state. -/
  | publishing
  /-- The commit is on the forge, and its CI went green. -/
  | published
  /-- The forge's CI came back red. -/
  | publishRed
  deriving DecidableEq, Repr

def DeliveryState.asStr : DeliveryState → String
  | queued => "QUEUED"
  | batched => "BATCHED"
  | prOpen => "PR_OPEN"
  | pushing => "PUSHING"
  | exited => "EXITED"
  | publishing => "PUBLISHING"
  | published => "PUBLISHED"
  | publishRed => "PUBLISH_RED"

/-- The forge CI sub-state of a PUBLISHING row. -/
inductive CiState
  | pending
  | running
  | green
  | red
  deriving DecidableEq, Repr

/-- CI moves forward only: by way of running, or straight to a verdict. -/
def CiState.canGo (source target : CiState) : Bool :=
  match source, target with
  | pending, running | pending, green | pending, red | running, green | running, red => true
  | _, _ => false

/-- The exit a row concluded with. -/
inductive Exit
  | delivered
  | returned
  | requeued
  deriving DecidableEq, Repr

structure DeliveryRow where
  beadId : String
  mode : Mode
  state : DeliveryState
  batchId : Option String
  pr : Option Nat
  mergeSha : Option String
  exit : Option Exit
  /-- Set while the row is PUBLISHING, and kept as the final CI verdict after. -/
  ci : Option CiState
  version : Version
  deriving DecidableEq

def DeliveryRow.startQueue (beadId : String) : DeliveryRow where
  beadId := beadId
  mode := .queue
  state := .queued
  batchId := none
  pr := none
  mergeSha := none
  exit := none
  ci := none
  version := 0

def DeliveryRow.startPr (beadId : String) (pr : Nat) : DeliveryRow :=
  { startQueue beadId with mode := .pr, state := .prOpen, pr := some pr }

def DeliveryRow.startPush (beadId : String) : DeliveryRow :=
  { startQueue beadId with mode := .push, state := .pushing }

/-- The shape of a queue row, distinguished by its mode alone. -/
def DeliveryRow.startLocal (beadId : String) : DeliveryRow :=
  { startQueue beadId with mode := .local }

inductive DeliveryEventKind
  | cut (batchId : String)
  | delivered (mergeSha proof : String)
  | returned (reason : ReturnedReason)
  | requeued (tip : String)
  | publishStarted (pr : Nat)
  | publishCi (ci : CiState)
  | published (forgeSha : String)
  /-- `fixForward` is the id of the new bead that carries the retry: evidence only. -/
  | publishRed (fixForward : String)
  deriving DecidableEq

structure DeliveryEvent where
  expect : DeliveryState
  version : Version
  kind : DeliveryEventKind
  actor : String
  deriving DecidableEq

abbrev DeliveryOutcome := Outcome DeliveryEventKind DeliveryRow

/-! ## The table -/

section Table

variable (row : DeliveryRow) (kind : DeliveryEventKind)

def illegal : DeliveryOutcome := .refuse row (.illegalTransition row.state.asStr kind)

def terminal : DeliveryOutcome := .refuse row (.terminal row.state.asStr)

def DeliveryRow.bump : DeliveryRow := { row with version := row.version + 1 }

def DeliveryRow.exits (exit : Exit) : DeliveryRow :=
  { row.bump with state := .exited, exit := some exit }

def queuedTransition : DeliveryOutcome :=
  match kind with
  | .cut batchId => .accepted { row.bump with state := .batched, batchId := some batchId }
  | _ => illegal row kind

/-- The arm of the three states a row exits from.  In pr mode a requeue is accepted from the harness
alone, never as a human's or the forge's decision. -/
def exitTransition (requeues : Bool) : DeliveryOutcome :=
  match kind with
  | .delivered mergeSha _ => .accepted { row.exits .delivered with mergeSha := some mergeSha }
  | .returned _ => .accepted (row.exits .returned)
  | .requeued _ => if requeues then .accepted (row.exits .requeued) else illegal row kind
  | _ => illegal row kind

def exitedTransition : DeliveryOutcome :=
  match kind with
  | .publishStarted pr =>
    if row.mode ≠ .local then illegal row kind
    else .accepted { row.bump with state := .publishing, pr := some pr, ci := some .pending }
  | .publishCi _ => illegal row kind
  | .published forgeSha =>
    if row.mode ≠ .local then illegal row kind
    else .accepted { row.bump with state := .published, mergeSha := some forgeSha }
  | .publishRed _ =>
    if row.mode ≠ .local then illegal row kind
    else .accepted { row.bump with state := .publishRed }
  | .cut _ | .delivered _ _ | .returned _ | .requeued _ => terminal row

def publishingTransition : DeliveryOutcome :=
  match kind with
  | .publishCi ci =>
    if !row.ci.any (·.canGo ci) then illegal row kind
    else .accepted { row.bump with ci := some ci }
  | .published forgeSha =>
    if row.ci = some .green then
      .accepted { row.bump with state := .published, mergeSha := some forgeSha }
    else illegal row kind
  | .publishRed _ => .accepted { row.bump with state := .publishRed }
  | _ => illegal row kind

end Table

/-- Apply one event to one delivery row. -/
def apply (row : DeliveryRow) (ev : DeliveryEvent) : DeliveryOutcome :=
  if ev.version ≠ row.version then .refuse row (.staleVersion ev.version row.version)
  else if ev.expect ≠ row.state then
    .refuse row (.expectMismatch ev.expect.asStr row.state.asStr)
  else
    match row.state with
    | .queued => queuedTransition row ev.kind
    | .batched => exitTransition row ev.kind true
    | .prOpen => exitTransition row ev.kind (ev.actor = harnessActor)
    | .pushing => exitTransition row ev.kind true
    | .exited => exitedTransition row ev.kind
    | .publishing => publishingTransition row ev.kind
    | .published | .publishRed => terminal row

/-! ## The moves -/

/-- The states a row exits from. -/
def DeliveryState.isUnderway (s : DeliveryState) : Prop :=
  s = .batched ∨ s = .prOpen ∨ s = .pushing

/-- The states that record a publication. -/
def DeliveryState.isPublication (s : DeliveryState) : Prop :=
  s = .publishing ∨ s = .published ∨ s = .publishRed

/-- What an applied event can do to a row. -/
inductive Move (row : DeliveryRow) : DeliveryEventKind → DeliveryRow → Prop
  | cut {batchId : String} (hs : row.state = .queued) :
      Move row (.cut batchId) { row.bump with state := .batched, batchId := some batchId }
  | delivered {mergeSha proof : String} (hs : row.state.isUnderway) :
      Move row (.delivered mergeSha proof)
        { row.exits .delivered with mergeSha := some mergeSha }
  | returned {reason : ReturnedReason} (hs : row.state.isUnderway) :
      Move row (.returned reason) (row.exits .returned)
  | requeued {tip : String} (hs : row.state.isUnderway) :
      Move row (.requeued tip) (row.exits .requeued)
  | publishStarted {pr : Nat} (hs : row.state = .exited) (mode : row.mode = .local) :
      Move row (.publishStarted pr)
        { row.bump with state := .publishing, pr := some pr, ci := some .pending }
  | publishCi {source ci : CiState} (hs : row.state = .publishing) (hc : row.ci = some source)
      (forward : source.canGo ci = true) : Move row (.publishCi ci) { row.bump with ci := some ci }
  | published {forgeSha : String} (hs : row.state = .exited ∧ row.mode = .local ∨
      row.state = .publishing ∧ row.ci = some .green) :
      Move row (.published forgeSha)
        { row.bump with state := .published, mergeSha := some forgeSha }
  | publishRed {fixForward : String} (hs : row.state = .exited ∧ row.mode = .local ∨
      row.state = .publishing) :
      Move row (.publishRed fixForward) { row.bump with state := .publishRed }

section Inversion

variable {row : DeliveryRow} {ev : DeliveryEvent} {kind : DeliveryEventKind}

theorem exitTransition_grants {requeues : Bool} (hs : row.state.isUnderway) :
    (exitTransition row kind requeues).Grants (Move row kind) := by
  cases kind with
  | delivered => exact Outcome.grants_accepted.mpr (.delivered hs)
  | returned => exact Outcome.grants_accepted.mpr (.returned hs)
  | requeued =>
    simp only [exitTransition, illegal, Outcome.grants_ite, Outcome.grants_accepted,
      Outcome.grants_refuse, implies_true, and_true]
    exact fun _ ↦ .requeued hs
  | _ => simp [exitTransition, illegal]

theorem apply_grants : (apply row ev).Grants (Move row ev.kind) := by
  obtain ⟨expect, version, kind, actor⟩ := ev
  simp only [apply, Outcome.grants_guard]
  rintro - -
  split <;> rename_i hs
  · cases kind with
    | cut => exact Outcome.grants_accepted.mpr (.cut hs)
    | _ => simp [queuedTransition, illegal]
  · exact exitTransition_grants (.inl hs)
  · exact exitTransition_grants (.inr (.inl hs))
  · exact exitTransition_grants (.inr (.inr hs))
  · cases kind with
    | publishStarted =>
      simp only [exitedTransition, illegal, Outcome.grants_guard, Outcome.grants_accepted, not_not]
      exact .publishStarted hs
    | published =>
      simp only [exitedTransition, illegal, Outcome.grants_guard, Outcome.grants_accepted, not_not]
      exact fun hm ↦ .published (.inl ⟨hs, hm⟩)
    | publishRed =>
      simp only [exitedTransition, illegal, Outcome.grants_guard, Outcome.grants_accepted, not_not]
      exact fun hm ↦ .publishRed (.inl ⟨hs, hm⟩)
    | _ => simp [exitedTransition, illegal, terminal]
  · cases kind with
    | publishCi ci =>
      simp only [publishingTransition, illegal, Outcome.grants_guard, Outcome.grants_accepted]
      intro hc
      obtain ⟨source, hsource, hgo⟩ : ∃ c, row.ci = some c ∧ c.canGo ci = true := by
        simpa [Option.any_eq_true] using hc
      exact .publishCi hs hsource hgo
    | published =>
      simp only [publishingTransition, illegal, Outcome.grants_ite, Outcome.grants_accepted,
        Outcome.grants_refuse, implies_true, and_true]
      exact fun hc ↦ .published (.inr ⟨hs, hc⟩)
    | publishRed => exact Outcome.grants_accepted.mpr (.publishRed (.inr hs))
    | _ => simp [publishingTransition, illegal]
  all_goals simp [terminal]

theorem apply_refused (h : (apply row ev).applied = false) : (apply row ev).row = row := by
  suffices hk : (apply row ev).Keeps row from hk h
  simp only [apply, Outcome.keeps_ite, Outcome.keeps_refuse, implies_true, true_and]
  intros
  split <;> cases ev.kind <;>
    simp [queuedTransition, exitTransition, exitedTransition, publishingTransition, illegal, terminal]

theorem swapped_of_applied (h : (apply row ev).applied = true) :
    ev.version = row.version ∧ ev.expect = row.state := by
  by_contra hne
  rw [not_and_or] at hne
  by_cases hv : ev.version = row.version
  · simp [apply, hv, hne.resolve_left (not_not.mpr hv)] at h
  · simp [apply, hv] at h

/-- The row after an event, applied or refused. -/
def step (row : DeliveryRow) (ev : DeliveryEvent) : DeliveryRow := (apply row ev).row

/-- **A step is a refusal that changes nothing, or a move.** -/
theorem step_cases (row : DeliveryRow) (ev : DeliveryEvent) :
    ((apply row ev).applied = false ∧ step row ev = row) ∨
      ((apply row ev).applied = true ∧ Move row ev.kind (step row ev)) := by
  cases h : (apply row ev).applied with
  | false => exact .inl ⟨rfl, apply_refused h⟩
  | true => exact .inr ⟨rfl, apply_grants h⟩

/-- Every move counts. -/
theorem version_step (h : (apply row ev).applied = true) :
    (step row ev).version = row.version + 1 := by
  have hm : Move row ev.kind (step row ev) := apply_grants h
  generalize step row ev = row' at hm
  generalize ev.kind = kind at hm
  cases hm <;> rfl

end Inversion

/-! ## The law -/

/-- The event records what became of a commit. -/
def DeliveryEventKind.publishes : DeliveryEventKind → Bool
  | .publishStarted _ | .published _ | .publishRed _ => true
  | _ => false

/-- A row as one of the four modes starts it. -/
def Started (row : DeliveryRow) : Prop :=
  ∃ beadId, row = .startQueue beadId ∨ (∃ pr, row = .startPr beadId pr) ∨ row = .startPush beadId ∨
    row = .startLocal beadId

/-- What a step does to `ci`: nothing, the first word, or a word forward. -/
def CiForward (row : DeliveryRow) (ev : DeliveryEvent) : Prop :=
  (step row ev).ci = row.ci ∨ row.ci = none ∧ (step row ev).ci = some .pending ∨
    ∃ source target, row.ci = some source ∧ (step row ev).ci = some target ∧
      source.canGo target = true

/-- The machine's law, of one run. -/
structure DeliveryLaw (row : DeliveryRow) (es : List DeliveryEvent) : Prop where
  identity : ∀ pre post, es = pre ++ post →
    (run step row pre).beadId = row.beadId ∧ (run step row pre).mode = row.mode
  exit : ∀ pre post exit, es = pre ++ post → (run step row pre).exit = some exit →
    (run step row es).exit = some exit
  ci : Always step CiForward row es
  publication : ∀ pre post, es = pre ++ post → (run step row pre).state.isPublication →
    (run step row pre).mode = .local ∧ (run step row pre).exit = some .delivered
  unpublished : Always step (fun row ev ↦ row.exit ≠ none → row.exit ≠ some .delivered →
    ev.kind.publishes = true → (apply row ev).applied = false) row es

/-- A publication is sent to a row of local mode that was returned or requeued. -/
def PublishesUndelivered (row : DeliveryRow) (ev : DeliveryEvent) : Prop :=
  ev.version = row.version ∧ ev.expect = row.state ∧ row.state = .exited ∧ row.mode = .local ∧
    row.exit ≠ some .delivered ∧ ev.kind.publishes = true

/-- What every row of a run keeps to. -/
structure Sane (row : DeliveryRow) : Prop where
  unpublished : ¬ row.state.isPublication → row.ci = none
  underway : row.state ≠ .exited → ¬ row.state.isPublication → row.exit = none
  exited : row.state = .exited → row.exit ≠ none

section Step

variable {row : DeliveryRow} {ev : DeliveryEvent}

theorem sane_started (h : Started row) : Sane row ∧ ¬ row.state.isPublication := by
  obtain ⟨_, rfl | ⟨_, rfl⟩ | rfl | rfl⟩ := h <;>
  · refine ⟨⟨fun _ ↦ rfl, fun _ _ ↦ rfl, fun hs ↦ nomatch hs⟩, ?_⟩
    rintro (hs | hs | hs) <;> cases hs

theorem not_publication_of_underway {s : DeliveryState} (h : s.isUnderway) :
    s ≠ .exited ∧ ¬ s.isPublication := by
  obtain rfl | rfl | rfl := h <;> simp [DeliveryState.isPublication]

theorem step_identity (row : DeliveryRow) (ev : DeliveryEvent) :
    (step row ev).beadId = row.beadId ∧ (step row ev).mode = row.mode := by
  obtain ⟨-, hrow⟩ | ⟨-, hm⟩ := step_cases row ev
  · rw [hrow]
    exact ⟨rfl, rfl⟩
  · generalize step row ev = row' at hm
    generalize ev.kind = kind at hm
    cases hm <;> exact ⟨rfl, rfl⟩

/-- **What a step does to a row of a run.** -/
theorem sane_step (ev : DeliveryEvent) (h : Sane row) : Sane (step row ev) ∧ CiForward row ev ∧
    (row.exit = none ∨ (step row ev).exit = row.exit) := by
  obtain ⟨-, hrow⟩ | ⟨-, hm⟩ := step_cases row ev
  · rw [CiForward, hrow]
    exact ⟨h, .inl rfl, .inr rfl⟩
  rw [CiForward]
  generalize step row ev = row' at hm
  generalize ev.kind = kind at hm
  cases hm with
  | cut hs =>
    refine ⟨⟨fun _ ↦ h.unpublished ?_, fun _ _ ↦ h.underway ?_ ?_, nofun⟩, .inl rfl, .inr rfl⟩ <;>
      simp [hs, DeliveryState.isPublication]
  | delivered hs | returned hs | requeued hs =>
    obtain ⟨hne, hnp⟩ := not_publication_of_underway hs
    exact ⟨⟨fun _ ↦ h.unpublished hnp, fun hx ↦ absurd rfl hx, fun _ ↦ nofun⟩, .inl rfl,
      .inl (h.underway hne hnp)⟩
  | publishStarted hs hmode =>
    have hnp : ¬ row.state.isPublication := by simp [hs, DeliveryState.isPublication]
    exact ⟨⟨fun hn ↦ absurd (.inl rfl) hn, fun _ hn ↦ absurd (.inl rfl) hn, nofun⟩,
      .inr (.inl ⟨h.unpublished hnp, rfl⟩), .inr rfl⟩
  | publishCi hs hc forward =>
    have hp : row.state.isPublication := .inl hs
    exact ⟨⟨fun hn ↦ absurd hp hn, fun _ hn ↦ absurd hp hn, fun hx ↦ by simp [hs, DeliveryRow.bump] at hx⟩,
      .inr (.inr ⟨_, _, hc, rfl, forward⟩), .inr rfl⟩
  | published =>
    have hp : DeliveryState.published.isPublication := .inr (.inl rfl)
    exact ⟨⟨fun hn ↦ absurd hp hn, fun _ hn ↦ absurd hp hn, nofun⟩, .inl rfl, .inr rfl⟩
  | publishRed =>
    have hp : DeliveryState.publishRed.isPublication := .inr (.inr rfl)
    exact ⟨⟨fun hn ↦ absurd hp hn, fun _ hn ↦ absurd hp hn, nofun⟩, .inl rfl, .inr rfl⟩

/-- A row records a publication because it did, or because one was sent to it as it stood: exited,
in local mode. -/
theorem published_step (h : (step row ev).state.isPublication) :
    (step row ev).exit = row.exit ∧ (row.state.isPublication ∨
      ev.version = row.version ∧ ev.expect = row.state ∧ row.state = .exited ∧ row.mode = .local ∧
        ev.kind.publishes = true) := by
  obtain ⟨-, hrow⟩ | ⟨ha, hm⟩ := step_cases row ev
  · rw [hrow] at h ⊢
    exact ⟨rfl, .inl h⟩
  obtain ⟨hv, he⟩ := swapped_of_applied ha
  generalize step row ev = row' at hm h
  generalize ev.kind = kind at hm
  cases hm with
  | publishStarted hs hmode => exact ⟨rfl, .inr ⟨hv, he, hs, hmode, rfl⟩⟩
  | publishCi hs => exact ⟨rfl, .inl (.inl hs)⟩
  | published hs =>
    obtain ⟨hs, hmode⟩ | ⟨hs, -⟩ := hs
    · exact ⟨rfl, .inr ⟨hv, he, hs, hmode, rfl⟩⟩
    · exact ⟨rfl, .inl (.inl hs)⟩
  | publishRed hs =>
    obtain ⟨hs, hmode⟩ | hs := hs
    · exact ⟨rfl, .inr ⟨hv, he, hs, hmode, rfl⟩⟩
    · exact ⟨rfl, .inl (.inl hs)⟩
  | _ => simp [DeliveryState.isPublication, DeliveryRow.bump, DeliveryRow.exits] at h

theorem publication_of_applied (ha : (apply row ev).applied = true)
    (hk : ev.kind.publishes = true) : (step row ev).state.isPublication := by
  obtain ⟨hf, -⟩ | ⟨-, hm⟩ := step_cases row ev
  · rw [ha] at hf
    cases hf
  generalize step row ev = row' at hm ⊢
  generalize ev.kind = kind at hm hk
  cases hm with
  | publishStarted => exact .inl rfl
  | published => exact .inr (.inl rfl)
  | publishRed => exact .inr (.inr rfl)
  | _ => cases hk

/-- What an exited row of local mode is sent of a publication, it records, whatever its exit. -/
theorem records_of_publishes (hv : ev.version = row.version) (he : ev.expect = row.state)
    (hs : row.state = .exited) (hmode : row.mode = .local) (hk : ev.kind.publishes = true) :
    (step row ev).state.isPublication ∧ (step row ev).exit = row.exit := by
  obtain ⟨expect, version, kind, actor⟩ := ev
  obtain rfl : version = row.version := hv
  obtain rfl : expect = row.state := he
  cases kind with
  | publishStarted => simp [step, apply, hs, hmode, exitedTransition, DeliveryState.isPublication, DeliveryRow.bump]
  | published => simp [step, apply, hs, hmode, exitedTransition, DeliveryState.isPublication, DeliveryRow.bump]
  | publishRed => simp [step, apply, hs, hmode, exitedTransition, DeliveryState.isPublication, DeliveryRow.bump]
  | _ => cases hk

end Step

/-! ## Every run -/

section Run

variable {row : DeliveryRow} {es fs : List DeliveryEvent}

theorem run_identity : (run step row es).beadId = row.beadId ∧ (run step row es).mode = row.mode := by
  induction es using List.reverseRecOn with
  | nil => exact ⟨rfl, rfl⟩
  | append_singleton es ev ih =>
    rw [run_snoc]
    obtain ⟨hid, hmode⟩ := step_identity (run step row es) ev
    exact ⟨hid.trans ih.1, hmode.trans ih.2⟩

theorem sane_run (es : List DeliveryEvent) (h : Sane row) : Sane (run step row es) := by
  induction es using List.reverseRecOn with
  | nil => exact h
  | append_singleton es ev ih =>
    rw [run_snoc]
    exact (sane_step ev ih).1

/-- **An exit is for good.** -/
theorem exit_run {exit : Exit} (h : Sane row) (hx : row.exit = some exit) :
    (run step row es).exit = some exit := by
  induction es using List.reverseRecOn with
  | nil => exact hx
  | append_singleton es ev ih =>
    rw [run_snoc]
    obtain hnone | hsame := (sane_step ev (sane_run es h)).2.2
    · rw [hnone] at ih
      cases ih
    · exact hsame.trans ih

/-- **A publication is of a delivered row**, when none is sent to another. -/
theorem publication_of_always (h : ¬ row.state.isPublication)
    (hno : Always step (fun row ev ↦ ¬ PublishesUndelivered row ev) row es)
    (hp : (run step row es).state.isPublication) :
    (run step row es).mode = .local ∧ (run step row es).exit = some .delivered := by
  induction es using List.reverseRecOn with
  | nil => exact absurd hp h
  | append_singleton es ev ih =>
    obtain ⟨hno, hlast⟩ := always_snoc.mp hno
    rw [run_snoc] at hp ⊢
    rw [(step_identity _ _).2]
    obtain ⟨hx, hbefore | ⟨hv, he, hs, hmode, hk⟩⟩ := published_step hp
    · rw [hx]
      exact ih hno hbefore
    · rw [hx]
      exact ⟨hmode, by_contra fun hne ↦ hlast ⟨hv, he, hs, hmode, hne, hk⟩⟩

/-- **The law holds of a run exactly when no publication is sent to a row that was not
delivered.** -/
theorem deliveryLaw_iff (hrow : Started row) :
    DeliveryLaw row es ↔ Always step (fun row ev ↦ ¬ PublishesUndelivered row ev) row es := by
  obtain ⟨hsane, hnp⟩ := sane_started hrow
  constructor
  · rintro h pre ev post rfl ⟨hv, he, hs, hmode, hne, hk⟩
    obtain ⟨hp, hx⟩ := records_of_publishes hv he hs hmode hk
    have hlaw := h.publication (pre ++ [ev]) post (by simp)
    rw [run_snoc] at hlaw
    exact hne (hx ▸ (hlaw hp).2)
  · intro hno
    refine ⟨fun pre post _ ↦ run_identity, ?_, ?_, ?_, ?_⟩
    · rintro pre post exit rfl hx
      rw [run_append]
      exact exit_run (sane_run pre hsane) hx
    · exact fun pre ev post _ ↦ (sane_step ev (sane_run pre hsane)).2.1
    · rintro pre post rfl hp
      exact publication_of_always hnp hno.of_append hp
    · rintro pre ev post rfl hx hne hk
      by_contra ha
      have hp := publication_of_applied (by simpa using ha) hk
      obtain ⟨-, hbefore | ⟨hv, he, hs, hmode, -⟩⟩ := published_step hp
      · exact hne (publication_of_always hnp hno.of_append hbefore).2
      · exact hno pre ev post rfl ⟨hv, he, hs, hmode, hne, hk⟩

end Run

/-! ## A returned row that is published -/

def sent (state : DeliveryState) (version : Version) (kind : DeliveryEventKind) : DeliveryEvent :=
  ⟨state, version, kind, "batch"⟩

def returnedLocal : List DeliveryEvent :=
  [sent .queued 0 (.cut "b1"), sent .batched 1 (.returned .batchEjectedRed)]

theorem deliveryLaw_returnedLocal : DeliveryLaw (.startLocal "sp-1") returnedLocal := by
  refine (deliveryLaw_iff ⟨_, .inr (.inr (.inr rfl))⟩).mpr fun pre ev post h hpub ↦ ?_
  have hev : ev ∈ returnedLocal := by rw [h]; simp
  simp only [returnedLocal, List.mem_cons, List.not_mem_nil, or_false] at hev
  obtain rfl | rfl := hev <;> cases hpub.2.2.2.2.2

theorem returned_published :
    ¬ ∀ (row : DeliveryRow) (es : List DeliveryEvent), Started row → DeliveryLaw row es := by
  intro h
  have hlaw := (h (.startLocal "sp-1") (returnedLocal ++ [sent .exited 2 (.published "sha-1")])
    ⟨_, .inr (.inr (.inr rfl))⟩).publication _ [] (List.append_nil _).symm (.inr (.inl (by decide)))
  revert hlaw
  decide

end Spira.Delivery
