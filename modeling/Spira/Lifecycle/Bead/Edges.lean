import Spira.Lifecycle.Bead.RedTip

/-!
# The drawn graph of the bead machine

`legalEdges` draws the machine's graph: it puts a fixed family of probe events to a fixed family
of rows and records every move to another state.  `drawn` is what it draws (`mem_legalEdges`).

The graph is a part of the transition relation.  Whatever it draws is a move some reachable row
makes (`edge_taken`).  A move is drawn exactly when the probes have its shape (`edge_drawn_iff`),
and there are moves they have not: the tips the probes submit are not object names, so no
`submit`, `resubmit` or `restack` of theirs passes the machine's own check of a tip; and no probed
row names a red tip, was claimed out of REWORK, or meets the actor of the DROPPED correction.
-/

set_option autoImplicit false

namespace Spira.Bead

open History

/-- One legal move of the bead machine: `event` takes a row in `source` to `target`. -/
structure LegalEdge where
  source : BeadState
  event : String
  target : BeadState
  deriving DecidableEq

/-- The event's name as the log has it. -/
def BeadEventKind.kindName : BeadEventKind → String
  | .claim _ _ _ _ _ _ => "Claim"
  | .release => "Release"
  | .holderDead => "HolderDead"
  | .submit _ => "Submit"
  | .done _ => "Done"
  | .gatePass _ _ => "GatePass"
  | .gateRed _ _ => "GateRed"
  | .gateInfra _ => "GateInfra"
  | .deliver => "Deliver"
  | .delivered _ _ => "Delivered"
  | .returned _ => "Returned"
  | .requeued _ => "Requeued"
  | .contentOnBase _ => "ContentOnBase"
  | .supersede _ => "Supersede"
  | .drop _ => "Drop"
  | .hold _ _ _ => "Hold"
  | .unhold _ _ => "Unhold"
  | .baseWithdrawn _ _ => "BaseWithdrawn"
  | .prereqLanded _ => "PrereqLanded"
  | .reply _ => "Reply"
  | .askWithdrawn => "AskWithdrawn"
  | .reclassify _ _ => "Reclassify"
  | .renew _ => "Renew"
  | .phase _ => "Phase"
  | .disposition _ _ => "Disposition"
  | .express => "Express"
  | .unexpress => "Unexpress"
  | .sifted _ => "Sifted"
  | .restack _ _ _ => "Restack"
  | .absolve _ _ => "Absolve"
  | .resubmit _ _ => "Resubmit"
  | .promote => "Promote"

/-- The probe events: one for each variant, and the variants whose target depends on the evidence.
-/
def edgeProbes : List BeadEventKind :=
  [.claim "h" 1 ∅ 0 4 none,
    .release,
    .holderDead,
    .submit "t1",
    .submit "other",
    .done "d",
    .gatePass "t1" "k",
    .gateRed "t1" .suitesFailed,
    .gateInfra "t1",
    .deliver,
    .delivered "s" "p",
    .returned .pushRejected,
    .requeued "t1",
    .requeued "other",
    .contentOnBase "p",
    .supersede "sp-2",
    .drop .unwanted,
    .hold .poison .attemptsExhausted none,
    .unhold .poison ⟨"", "", ""⟩,
    .baseWithdrawn "sp-prereq" "t1",
    .prereqLanded "sp-prereq",
    .renew 2,
    .phase .building,
    .disposition .slain "n",
    .express,
    .unexpress,
    .sifted "t1",
    .restack "t1" ((∅ : Stack).insert "sp-base" "t0") 1,
    .absolve "t1" ⟨"", "", ""⟩,
    .resubmit "t1" ⟨"", "", ""⟩,
    .promote]

/-- The row of each state the probes are put to. -/
def edgeRow (state : BeadState) (fromSubmitted_ : Bool) : BeadRow :=
  { BeadRow.filed "sp-edge" with
    state := state
    tip := some "t1"
    gateKey := some "k"
    holder := some "h"
    leaseUntil := some 1
    reason := if fromSubmitted_ then some fromSubmitted else none
    stack := (∅ : Stack).insert "sp-prereq" "t1" }

def BeadState.all : List BeadState :=
  [.open, .ready, .working, .submitted, .certified, .inDelivery, .rework, .landed, .superseded,
    .dropped, .done]

/-- The edge one probe draws from one row, if it moves it. -/
def probe (state : BeadState) (fromSubmitted_ : Bool) (kind : BeadEventKind) : Option LegalEdge :=
  let row := edgeRow state fromSubmitted_
  let out := apply row ⟨state, row.version, kind, "h", some 0⟩
  if out.applied && out.row.state ≠ state then some ⟨state, kind.kindName, out.row.state⟩ else none

/-- Every move to another state that the probes find.  The source keeps them in an ordered set. -/
def legalEdges : List LegalEdge :=
  (BeadState.all.flatMap fun state ↦ [false, true].flatMap fun fromSubmitted_ ↦
    edgeProbes.filterMap (probe state fromSubmitted_)).dedup

/-- The edges of the graph out of each state. -/
def drawn : BeadState → List (String × BeadState)
  | .open => ("Promote", .ready) :: closing
  | .ready => ("Claim", .working) :: ("Done", .done) :: closing
  | .working =>
    ("Release", .ready) :: ("HolderDead", .ready) :: ("Done", .done) :: ("Delivered", .landed) ::
      closing
  | .submitted =>
    ("GatePass", .certified) :: ("GateRed", .rework) :: ("BaseWithdrawn", .rework) ::
      ("Deliver", .inDelivery) :: closing
  | .certified =>
    ("GateRed", .rework) :: ("BaseWithdrawn", .rework) :: ("Deliver", .inDelivery) :: closing
  | .inDelivery =>
    ("Requeued", .certified) :: ("Requeued", .submitted) :: ("Returned", .rework) ::
      ("Delivered", .landed) :: closing
  | .rework => ("Claim", .working) :: ("Delivered", .landed) :: closing
  | .landed | .superseded | .dropped | .done => []
where
  closing : List (String × BeadState) :=
    [("ContentOnBase", .landed), ("Supersede", .superseded), ("Drop", .dropped)]

theorem mem_legalEdges {source target : BeadState} {event : String} :
    ⟨source, event, target⟩ ∈ legalEdges ↔ (event, target) ∈ drawn source := by
  have hsound : ∀ e ∈ legalEdges, (e.event, e.target) ∈ drawn e.source := by decide +kernel
  have hcomplete : ∀ s ∈ BeadState.all, ∀ p ∈ drawn s, ⟨s, p.1, p.2⟩ ∈ legalEdges := by
    decide +kernel
  refine ⟨fun h ↦ hsound _ h, fun h ↦ hcomplete source ?_ _ h⟩
  cases source <;> decide

/-! ## Which moves are drawn -/

/-- The move of the row has the shape of one of the probes. -/
def Probed (row : BeadRow) (ev : BeadEvent) : Prop :=
  match ev.kind with
  | .submit _ | .resubmit _ _ | .restack _ _ _ | .absolve _ _ => False
  | .release | .holderDead => row.claimedFrom ≠ some .rework
  | .requeued tip => row.ejectedRedTip ≠ some tip
  | .done _ => row.state ≠ .dropped
  | _ => True

/-- **A move to another state is drawn exactly when a probe has its shape.** -/
theorem edge_drawn_iff {row : BeadRow} {ev : BeadEvent} (ha : (apply row ev).applied = true)
    (hk : ∀ state rule, ev.kind ≠ .reclassify state rule) (hne : (step row ev).state ≠ row.state) :
    ⟨row.state, ev.kind.kindName, (step row ev).state⟩ ∈ legalEdges ↔ Probed row ev := by
  obtain ⟨hf, -⟩ | ⟨-, -, mid, hm, hrow⟩ := step_cases row ev
  · rw [ha] at hf
    cases hf
  rw [hrow, settled_state] at hne ⊢
  rw [mem_legalEdges]
  obtain ⟨expect, version, kind, actor, at_⟩ := ev
  dsimp only at hm hk ⊢
  cases hm with
  | contentOnBase open_ | supersede open_ | drop open_ =>
    dsimp only [BeadEventKind.kindName, Probed]
    revert open_
    cases row.state <;> simp [drawn, drawn.closing, BeadState.isTerminal]
  | reclassify => exact absurd rfl (hk _ _)
  -- The shapes no probe has.
  | correctDropped hs => simp [Probed, hs, drawn]
  | restack hs | submitMoved hs =>
    obtain hs | hs := hs <;> simp [Probed, hs, drawn, drawn.closing, BeadEventKind.kindName]
  | submitWork hs => simp [Probed, hs, drawn, drawn.closing, BeadEventKind.kindName]
  | resubmit hs =>
    obtain ⟨hs, -⟩ | ⟨hs, -⟩ := hs <;>
      simp [Probed, hs, drawn, drawn.closing, BeadEventKind.kindName]
  | @absolve tip breakGlass =>
    dsimp only at hne ⊢
    split at hne <;> rename_i hr
    · simp [Probed, hr, drawn, drawn.closing, BeadEventKind.kindName]
    · exact absurd rfl hne
  | unclaim hk' hs =>
    by_cases hc : row.claimedFrom = some .rework
    all_goals
      obtain rfl | rfl := hk' <;>
        simp [Probed, hs, hc, drawn, drawn.closing, BeadEventKind.kindName]
  | requeuedRed hs red => simp [Probed, hs, red, drawn, drawn.closing, BeadEventKind.kindName]
  -- The shapes a probe has.
  | requeuedCertified hs notRed =>
    simp [Probed, hs, notRed, drawn, BeadEventKind.kindName]
  | requeuedSubmitted hs notRed =>
    simp [Probed, hs, notRed, drawn, BeadEventKind.kindName]
  | promote hs | claimReady hs | claimRework hs | gatePass hs | deliverSubmitted hs
  | deliverCertified hs | returned hs => simp [Probed, hs, drawn, BeadEventKind.kindName]
  | baseWithdrawnRework hs | gateRed hs | done hs =>
    obtain hs | hs := hs <;> simp [Probed, hs, drawn, BeadEventKind.kindName]
  | delivered hs =>
    obtain hs | hs | hs := hs <;> simp [Probed, hs, drawn, BeadEventKind.kindName]
  | _ => exact absurd rfl hne

/-! ## Every edge is taken -/

/-- A bead on its way to delivery, stacked on `sp-a`. -/
def delivery : List BeadEvent :=
  [.given .ready 0 (.claim "dwarf" 100 ((∅ : Stack).insert "sp-a" otherTip) 1 3 none),
    .given .working 1 (.submit redTip),
    .given .submitted 2 (.gatePass redTip "key-1"),
    .given .certified 3 .deliver]

/-- A run to each state an edge leaves. -/
def runTo : BeadState → List BeadEvent
  | .open => [⟨.ready, 0, .reclassify .open "epic-container", "classifier", none⟩]
  | .working => delivery.take 1
  | .submitted => delivery.take 2
  | .certified => delivery.take 3
  | .inDelivery => delivery
  | .rework => delivery.take 2 ++ [.given .submitted 2 (.gateRed redTip .suitesFailed)]
  | _ => []

/-- An event that takes the row of `runTo` along each edge. -/
def edgeEvents : List BeadEventKind :=
  [.promote, .claim "dwarf" 200 ∅ 0 3 none, .release, .holderDead, .done "sp-1",
    .gatePass redTip "key-1", .gateRed redTip .suitesFailed, .baseWithdrawn "sp-a" otherTip,
    .deliver, .delivered "merge" "ancestry", .returned .pushRejected, .requeued redTip,
    .requeued otherTip, .contentOnBase "ancestry", .supersede "sp-2", .drop .unwanted]

/-- The event, as it is sent to the row of `runTo`. -/
def edgeEvent (source : BeadState) (kind : BeadEventKind) : BeadEvent :=
  .given source (run step (.filed "sp-1") (runTo source)).version kind

/-- **Every edge of the graph is a move of a reachable row.** -/
theorem edge_taken {e : LegalEdge} (he : e ∈ legalEdges) :
    ∃ id es ev, (run step (.filed id) es).state = e.source ∧ ev.kind.kindName = e.event ∧
      (apply (run step (.filed id) es) ev).applied = true ∧
      (step (run step (.filed id) es) ev).state = e.target := by
  have htaken : ∀ s ∈ BeadState.all, ∀ p ∈ drawn s, ∃ kind ∈ edgeEvents,
      (run step (.filed "sp-1") (runTo s)).state = s ∧ kind.kindName = p.1 ∧
        (apply (run step (.filed "sp-1") (runTo s)) (edgeEvent s kind)).applied = true ∧
        (step (run step (.filed "sp-1") (runTo s)) (edgeEvent s kind)).state = p.2 := by
    decide
  have hall : e.source ∈ BeadState.all := by cases e.source <;> decide
  obtain ⟨kind, -, h⟩ := htaken e.source hall (e.event, e.target) (mem_legalEdges.mp he)
  exact ⟨"sp-1", runTo e.source, edgeEvent e.source kind, h⟩

/-- **The graph is exactly the moves that have the shape of a probe.** -/
theorem legalEdges_iff (id : String) (es : List BeadEvent) (ev : BeadEvent) :
    ((∀ state rule, ev.kind ≠ .reclassify state rule) →
      (apply (run step (.filed id) es) ev).applied = true →
      (step (run step (.filed id) es) ev).state ≠ (run step (.filed id) es).state →
      (⟨(run step (.filed id) es).state, ev.kind.kindName,
        (step (run step (.filed id) es) ev).state⟩ ∈ legalEdges ↔
          Probed (run step (.filed id) es) ev)) ∧
    ∀ e ∈ legalEdges, ∃ id es ev, (run step (.filed id) es).state = e.source ∧
      ev.kind.kindName = e.event ∧ (apply (run step (.filed id) es) ev).applied = true ∧
      (step (run step (.filed id) es) ev).state = e.target :=
  ⟨fun hk ha hne ↦ edge_drawn_iff ha hk hne, fun _ he ↦ edge_taken he⟩

/-- The graph has no edge from WORKING to SUBMITTED. -/
theorem submit_not_drawn :
    ¬ ∀ (id : String) (es : List BeadEvent) (ev : BeadEvent),
      (∀ state rule, ev.kind ≠ .reclassify state rule) →
      (apply (run step (.filed id) es) ev).applied = true →
      (step (run step (.filed id) es) ev).state ≠ (run step (.filed id) es).state →
      ⟨(run step (.filed id) es).state, ev.kind.kindName,
        (step (run step (.filed id) es) ev).state⟩ ∈ legalEdges := by
  intro h
  have hdrawn := h "sp-1" (delivery.take 1) (.given .working 1 (.submit redTip))
    (by simp [BeadEvent.given]) (by decide) (by decide)
  rw [mem_legalEdges] at hdrawn
  revert hdrawn
  decide

end Spira.Bead
