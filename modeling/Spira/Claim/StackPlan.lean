import Mathlib.Data.String.Basic
import Spira.Lifecycle.Bead.Machine

/-!
# What a claim stacks on

A candidate waits on its parent and on the targets of its blocking edges.  A blocker that is over
holds nothing back, and a certified one of the same repository is stacked on: the claim carries its
tip.  `stackPlan` walks the blockers and answers the stack and the depth that a claim would carry,
which the bead machine judges again.

A blocker is stacked on by its state, and the tip it is stacked on at is read from its row, which
may have none: then it holds nothing back and the stack leaves it out (`tipless_left_out`).  The
depth is one more than a recorded one, in 32 bits.  Where neither happens, what is answered is what
the machine accepts (`stackPlan_faithful`).
-/

set_option autoImplicit false

namespace Spira.Claim

open Bead

/-! ## The rows -/

structure Dependency where
  issueId : Option String
  dependsOnId : Option String
  depType : Option String

/-- A bead as the planning plane has it. -/
structure ReadyRow where
  id : String
  parent : Option String
  labels : List String
  issueType : Option String
  status : Option String
  dependencies : List Dependency

def ReadyRow.labelValue (r : ReadyRow) (p : String) : Option String :=
  (r.labels.find? (Text.startsWith · p)).map fun l ↦ String.ofList (l.toList.drop p.length)

/-- A bead as the snapshot of the lifecycle has it. -/
structure LifecycleRow where
  state : BeadState
  holds : Finset HoldKind
  stackDepth : UInt32
  /-- The row's own certified tip: `none` for a row whose tip came back empty. -/
  tip : Option String
  snoozedUntil : Option Int
  /-- A dependent's stacked base failed to merge this row's tip. -/
  stackConflict : Bool
  /-- The stack recorded at the last claim, and why the row last left the queue. -/
  stack : Stack
  reason : Option String

/-! ## The blocking rule -/

def blockingTypes : List String := ["blocks", "blocked-by", "depends-on"]

/-- One edge from a dependent to the bead it names. -/
inductive Edge
  | dep (depType : String)
  /-- The dependent's parent: its state and whether it has a tip, `none` when it has no record. -/
  | parent (parent : Option (BeadState × Bool)) (split : Bool)

/-- Whether an edge holds its dependent back. -/
def blocks : Edge → Bool
  | .dep depType => depType ∈ blockingTypes
  | .parent none _ => false
  | .parent (some (.ready, false)) false => false
  | .parent _ _ => true

def splitLabel : String := "split-child"

def noRowTypes : List String := ["epic", "decision", "event", "molecule", "gate", "proposal"]

def isWorkType (issueType : Option String) : Bool := !issueType.any (· ∈ noRowTypes)

def isWork (r : ReadyRow) : Bool := isWorkType r.issueType

/-- A blocker with no lifecycle row: a bead that is no work is over when it is closed, and a work
bead with no row is no live work. -/
def rowlessBlockerDone (r : ReadyRow) : Bool :=
  if r.issueType.any (· ∈ ["gate", "epic", "decision", "event", "molecule"]) then
    r.status = some "closed"
  else true

def declaredBlockers (r : ReadyRow) : List String :=
  (((r.dependencies.filter fun d ↦ blocks (.dep (d.depType.getD ""))).filter fun d ↦
    d.issueId.all (· = r.id)).filterMap (·.dependsOnId)).filter fun b ↦ r.parent ≠ some b

/-- What a candidate may wait on: its parent, then the targets of its blocking edges. -/
def blockers (r : ReadyRow) : List String :=
  (r.parent.toList.filter fun p ↦ p ≠ "" ∧ p ≠ r.id) ++ declaredBlockers r

/-! ## The plan -/

inductive Verdict
  | noOwnRow
  | ownState (state : BeadState)
  | held (kind : HoldKind)
  | snoozed (untilTime : Int)
  | blocked (blocker : String)
  | tooDeep (depth max : UInt32)
  /-- A REWORK row whose red stack the claim would repeat. -/
  | stackUnchanged
  deriving DecidableEq

section Plan

variable (cand : ReadyRow) (lc : String → Option LifecycleRow) (bd : String → Option ReadyRow)
  (stackMaxDepth : UInt32)

/-- A parent that does not hold its child back. -/
def parentExempt (parent : String) : Bool :=
  !blocks (.parent ((lc parent).map fun row ↦ (row.state, row.tip.isSome))
    (splitLabel ∈ cand.labels))

/-- Whether a blocker may be stacked on: a work bead of the same repository, not the parent. -/
def stackable (bid : String) : Bool :=
  stackMaxDepth > 0 && cand.parent ≠ some bid &&
    (bd bid).any fun r ↦
      isWork r && r.labelValue "repo:" = cand.labelValue "repo:" && (cand.labelValue "repo:").isSome

/-- The tip of a blocker put on the stack, if it has one. -/
def pile (stack : Stack) (bid : String) : Option String → Stack
  | some tip => stack.insert bid tip
  | none => stack

/-- One blocker: what is stacked after it and the greatest depth of what is, or `none` where it
holds the candidate back. -/
def visit (bid : String) (stack : Stack) (stackedMax : Option UInt32) :
    Option (Stack × Option UInt32) :=
  match lc bid with
  | none => if (bd bid).any rowlessBlockerDone then some (stack, stackedMax) else none
  | some row =>
    match row.state with
    | .landed | .done => some (stack, stackedMax)
    | .certified | .inDelivery =>
      if stackable cand bd stackMaxDepth bid then
        if row.stackConflict then none
        else some (pile stack bid row.tip, some (max (stackedMax.getD 0) row.stackDepth))
      else if row.state.isTerminal then some (stack, stackedMax) else none
    -- Nothing more will happen to a blocker that is superseded or dropped.
    | s => if s.isTerminal then some (stack, stackedMax) else none

/-- The loop over the blockers. -/
def walk : List String → Stack → Option UInt32 → Except Verdict (Stack × Option UInt32)
  | [], stack, stackedMax => .ok (stack, stackedMax)
  | bid :: rest, stack, stackedMax =>
    if cand.parent = some bid && parentExempt cand lc bid then walk rest stack stackedMax
    else
      match visit cand lc bd stackMaxDepth bid stack stackedMax with
      | none => .error (.blocked bid)
      | some (stack, stackedMax) => walk rest stack stackedMax

/-- Why the candidate's own row is not claimable. -/
def ownRefusal (own : LifecycleRow) : Option Verdict :=
  match [HoldKind.poison, .ask, .wait, .manual].find? fun h ↦ h ∈ own.holds ∧ h ≠ .wait with
  | some h => some (.held h)
  | none =>
    match own.snoozedUntil with
    | some t => some (.snoozed t)
    | none =>
      if own.state = .ready ∨ own.state = .rework then none else some (.ownState own.state)

/-- What a claim on the candidate would carry: for each blocker that is stacked on its tip, and the
depth.  One more than a depth wraps. -/
def stackPlan : Except Verdict (Stack × UInt32) :=
  match lc cand.id with
  | none => .error .noOwnRow
  | some own =>
    match ownRefusal own with
    | some v => .error v
    | none =>
      match walk cand lc bd stackMaxDepth (blockers cand) ∅ none with
      | .error v => .error v
      | .ok (stack, stackedMax) =>
        let depth := (stackedMax.map (· + 1)).getD 0
        if depth > stackMaxDepth then .error (.tooDeep depth stackMaxDepth)
        else if own.state = .rework ∧ reworkClaimStackUnchanged own.stack own.reason stack then
          .error .stackUnchanged
        else .ok (stack, depth)

end Plan


/-! ## One blocker -/

section Blockers

variable (cand : ReadyRow) (lc : String → Option LifecycleRow) (bd : String → Option ReadyRow)
  (stackMaxDepth : UInt32)

/-- The blocker is a parent that does not hold the candidate back. -/
def Exempt (bid : String) : Prop := cand.parent = some bid ∧ parentExempt cand lc bid = true

/-- The blocker is terminal, or has no row and is done by the rule of its kind. -/
def Over (bid : String) : Prop :=
  (∃ row, lc bid = some row ∧ row.state.isTerminal = true) ∨
    lc bid = none ∧ ∃ r, bd bid = some r ∧ rowlessBlockerDone r = true

/-- The row of a blocker that the candidate stacks on. -/
def stackedRow (bid : String) : Option LifecycleRow :=
  (lc bid).filter fun row ↦ (row.state = .certified ∨ row.state = .inDelivery) ∧
    stackable cand bd stackMaxDepth bid = true ∧ row.stackConflict = false

/-- The tip that the candidate stacks on. -/
def stackedTip (bid : String) : Option String :=
  (stackedRow cand lc bd stackMaxDepth bid).bind (·.tip)

/-- The blocker does not hold the candidate back. -/
def Settled (bid : String) : Prop :=
  Exempt cand lc bid ∨ Over lc bd bid ∨ (stackedRow cand lc bd stackMaxDepth bid).isSome = true

variable {cand lc bd stackMaxDepth} {bid : String} {row : LifecycleRow}

theorem stackedRow_eq_some : stackedRow cand lc bd stackMaxDepth bid = some row ↔
    lc bid = some row ∧ (row.state = .certified ∨ row.state = .inDelivery) ∧
      stackable cand bd stackMaxDepth bid = true ∧ row.stackConflict = false := by
  rw [stackedRow, Option.filter_eq_some_iff, decide_eq_true_eq]

theorem not_over_of_stackedRow (h : stackedRow cand lc bd stackMaxDepth bid = some row) :
    ¬ Over lc bd bid := by
  obtain ⟨hrow, hstate, -⟩ := stackedRow_eq_some.mp h
  rintro (⟨row', hrow', hterminal⟩ | ⟨hnone, -⟩)
  · rw [hrow, Option.some.injEq] at hrow'
    rw [← hrow'] at hterminal
    rcases hstate with hstate | hstate <;> rw [hstate] at hterminal <;>
      exact Bool.false_ne_true hterminal
  · rw [hrow] at hnone
    exact Option.some_ne_none row hnone

theorem not_parent_of_stackedRow (h : stackedRow cand lc bd stackMaxDepth bid = some row) :
    cand.parent ≠ some bid := by
  have hstackable := (stackedRow_eq_some.mp h).2.2.1
  rw [stackable, Bool.and_eq_true, Bool.and_eq_true, decide_eq_true_eq, decide_eq_true_eq]
    at hstackable
  exact hstackable.1.2

theorem stackedRow_eq_none_of_exempt (h : Exempt cand lc bid) :
    stackedRow cand lc bd stackMaxDepth bid = none := by
  obtain hnone | ⟨row, hrow⟩ := (stackedRow cand lc bd stackMaxDepth bid).eq_none_or_eq_some
  · exact hnone
  · exact absurd h.1 (not_parent_of_stackedRow hrow)

theorem stackedRow_eq_none_of_over (h : Over lc bd bid) :
    stackedRow cand lc bd stackMaxDepth bid = none := by
  obtain hnone | ⟨row, hrow⟩ := (stackedRow cand lc bd stackMaxDepth bid).eq_none_or_eq_some
  · exact hnone
  · exact absurd h (not_over_of_stackedRow hrow)

variable {stack : Stack} {stackedMax : Option UInt32}

/-- Of a row that is in neither state to stack on, the state tells whether it is over. -/
theorem visit_of_row (hrow : lc bid = some row)
    (hstate : ¬ (row.state = .certified ∨ row.state = .inDelivery)) :
    visit cand lc bd stackMaxDepth bid stack stackedMax =
      if row.state.isTerminal then some (stack, stackedMax) else none := by
  rw [visit, hrow]
  dsimp only
  rcases hs : row.state <;> first | rfl | 
    exact (hstate (.inl hs)).elim | exact (hstate (.inr hs)).elim

theorem visit_of_certified (hrow : lc bid = some row)
    (hstate : row.state = .certified ∨ row.state = .inDelivery) :
    visit cand lc bd stackMaxDepth bid stack stackedMax =
      if stackable cand bd stackMaxDepth bid then
        if row.stackConflict then none
        else some (pile stack bid row.tip,
          some (max (stackedMax.getD 0) row.stackDepth))
      else none := by
  rw [visit, hrow]
  dsimp only
  rcases hstate with hs | hs <;> rw [hs] <;> rfl

theorem visit_over (h : Over lc bd bid) :
    visit cand lc bd stackMaxDepth bid stack stackedMax = some (stack, stackedMax) := by
  obtain ⟨row, hrow, hterminal⟩ | ⟨hnone, r, hr, hdone⟩ := h
  · rw [visit_of_row hrow, if_pos hterminal]
    rintro (hs | hs) <;> rw [hs] at hterminal <;> exact Bool.false_ne_true hterminal
  · rw [visit, hnone, hr]
    exact if_pos hdone

theorem visit_stacked (h : stackedRow cand lc bd stackMaxDepth bid = some row) :
    visit cand lc bd stackMaxDepth bid stack stackedMax =
      some (pile stack bid row.tip,
        some (max (stackedMax.getD 0) row.stackDepth)) := by
  obtain ⟨hrow, hstate, hstackable, hconflict⟩ := stackedRow_eq_some.mp h
  rw [visit_of_certified hrow hstate, if_pos hstackable, hconflict, if_neg Bool.false_ne_true]

theorem visit_unsettled (h : ¬ Settled cand lc bd stackMaxDepth bid) :
    visit cand lc bd stackMaxDepth bid stack stackedMax = none := by
  have hover : ¬ Over lc bd bid := fun hover ↦ h (.inr (.inl hover))
  have hstacked (row : LifecycleRow) : stackedRow cand lc bd stackMaxDepth bid ≠ some row :=
    fun hrow ↦ h (.inr (.inr (by rw [hrow, Option.isSome_some])))
  obtain hnone | ⟨row, hrow⟩ := (lc bid).eq_none_or_eq_some
  · rw [visit, hnone]
    refine if_neg fun hany ↦ ?_
    obtain ⟨r, hr, hdone⟩ := (Option.any_eq_true _ _).mp hany
    exact hover (.inr ⟨hnone, r, hr, hdone⟩)
  · by_cases hstate : row.state = .certified ∨ row.state = .inDelivery
    · rw [visit_of_certified hrow hstate]
      by_cases hstackable : stackable cand bd stackMaxDepth bid = true
      · rw [if_pos hstackable]
        refine if_pos (by_contra fun hconflict ↦ hstacked row ?_)
        rw [Bool.not_eq_true] at hconflict
        exact stackedRow_eq_some.mpr ⟨hrow, hstate, hstackable, hconflict⟩
      · rw [if_neg hstackable]
    · rw [visit_of_row hrow hstate]
      exact if_neg fun hterminal ↦ hover (.inl ⟨row, hrow, hterminal⟩)

/-! ## The loop -/

/-- The greatest depth of some rows, and of what is given. -/
def deepest (stackedMax : Option UInt32) (rows : List LifecycleRow) : Option UInt32 :=
  rows.foldl (fun d row ↦ some (max (d.getD 0) row.stackDepth)) stackedMax

/-- **The loop stacks the tips of the blockers it stacks on**, if none holds the candidate back. -/
theorem walk_settled {l : List String} (h : ∀ bid ∈ l, Settled cand lc bd stackMaxDepth bid)
    (stack : Stack) (stackedMax : Option UInt32) :
    ∃ stack', walk cand lc bd stackMaxDepth l stack stackedMax =
        .ok (stack', deepest stackedMax (l.filterMap (stackedRow cand lc bd stackMaxDepth))) ∧
      ∀ b, stack'[b]? =
        if b ∈ l then (stackedTip cand lc bd stackMaxDepth b).or stack[b]? else stack[b]? := by
  induction l generalizing stack stackedMax with
  | nil => exact ⟨stack, rfl, fun b ↦ (if_neg List.not_mem_nil).symm⟩
  | cons bid rest ih =>
    have hrest (b : String) (hb : b ∈ rest) : Settled cand lc bd stackMaxDepth b :=
      h b (List.mem_cons_of_mem bid hb)
    -- A blocker that puts nothing on the stack.
    have hskip (hnone : stackedRow cand lc bd stackMaxDepth bid = none)
        (hwalk : walk cand lc bd stackMaxDepth (bid :: rest) stack stackedMax =
          walk cand lc bd stackMaxDepth rest stack stackedMax) :
        ∃ stack', walk cand lc bd stackMaxDepth (bid :: rest) stack stackedMax =
            .ok (stack', deepest stackedMax
              ((bid :: rest).filterMap (stackedRow cand lc bd stackMaxDepth))) ∧
          ∀ b, stack'[b]? = if b ∈ bid :: rest
            then (stackedTip cand lc bd stackMaxDepth b).or stack[b]? else stack[b]? := by
      obtain ⟨stack', hok, hget⟩ := ih hrest stack stackedMax
      refine ⟨stack', ?_, fun b ↦ ?_⟩
      · rw [hwalk, hok, List.filterMap_cons_none hnone]
      · rw [hget b]
        by_cases hb : b = bid
        · have htip : stackedTip cand lc bd stackMaxDepth b = none := by
            rw [hb, stackedTip, hnone, Option.bind_none]
          rw [htip, Option.none_or, ite_self, ite_self]
        · simp only [List.mem_cons, hb, false_or]
    by_cases hexempt : Exempt cand lc bid
    · refine hskip (stackedRow_eq_none_of_exempt hexempt) ?_
      rw [walk, if_pos (by rw [hexempt.1, hexempt.2]; simp)]
    have hcond : ¬ (decide (cand.parent = some bid) && parentExempt cand lc bid) = true := by
      rw [Bool.and_eq_true, decide_eq_true_eq]
      exact hexempt
    rcases h bid List.mem_cons_self with hex | hover | hsome
    · exact absurd hex hexempt
    · refine hskip (stackedRow_eq_none_of_over hover) ?_
      rw [walk, if_neg hcond, visit_over hover]
    · obtain ⟨row, hrow⟩ := Option.isSome_iff_exists.mp hsome
      obtain ⟨stack', hok, hget⟩ := ih hrest (pile stack bid row.tip)
        (some (max (stackedMax.getD 0) row.stackDepth))
      refine ⟨stack', ?_, fun b ↦ ?_⟩
      · rw [walk, if_neg hcond, visit_stacked hrow]
        dsimp only
        rw [hok, List.filterMap_cons_some hrow, deepest, deepest, List.foldl_cons]
      · rw [hget b]
        have hpiled : (pile stack bid row.tip)[b]? =
            if b = bid then (stackedTip cand lc bd stackMaxDepth b).or stack[b]?
            else stack[b]? := by
          by_cases hb : b = bid
          · have htip : stackedTip cand lc bd stackMaxDepth b = row.tip := by
              rw [hb, stackedTip, hrow, Option.bind_some]
            rw [if_pos hb, htip]
            obtain hnone | ⟨tip, htip'⟩ := row.tip.eq_none_or_eq_some
            · rw [hnone]
              rfl
            · rw [htip', hb]
              exact Std.ExtTreeMap.getElem?_insert_self
          · rw [if_neg hb]
            obtain hnone | ⟨tip, htip'⟩ := row.tip.eq_none_or_eq_some
            · rw [hnone]
              rfl
            · rw [htip']
              refine (Std.ExtTreeMap.getElem?_insert ..).trans (if_neg fun h ↦ ?_)
              exact hb (Std.LawfulEqCmp.eq_of_compare h).symm
        rw [hpiled]
        by_cases hb : b = bid
        · have hmem : b ∈ bid :: rest := hb ▸ List.mem_cons_self
          rw [if_pos hb, if_pos hmem]
          split
          · rw [← Option.or_assoc, Option.or_self]
          · rfl
        · simp only [List.mem_cons, hb, false_or, if_false]

theorem walk_unsettled {l : List String} (h : ∃ bid ∈ l, ¬ Settled cand lc bd stackMaxDepth bid) :
    ∃ bid, walk cand lc bd stackMaxDepth l stack stackedMax = .error (.blocked bid) := by
  induction l generalizing stack stackedMax with
  | nil =>
    obtain ⟨bid, hbid, -⟩ := h
    cases hbid
  | cons bid rest ih =>
    rw [walk]
    split
    · rename_i hexempt
      rw [Bool.and_eq_true, decide_eq_true_eq] at hexempt
      obtain ⟨b, hb, hunsettled⟩ := h
      rcases List.mem_cons.mp hb with rfl | hb
      · exact absurd (.inl hexempt) hunsettled
      · exact ih ⟨b, hb, hunsettled⟩
    · by_cases hbid : Settled cand lc bd stackMaxDepth bid
      · obtain ⟨b, hb, hunsettled⟩ := h
        rcases List.mem_cons.mp hb with rfl | hb
        · exact absurd hbid hunsettled
        · obtain hnone | ⟨next, hnext⟩ :=
            (visit cand lc bd stackMaxDepth bid stack stackedMax).eq_none_or_eq_some
          · exact ⟨bid, by rw [hnone]⟩
          · rw [hnext]
            exact ih ⟨b, hb, hunsettled⟩
      · exact ⟨bid, by rw [visit_unsettled hbid]⟩

end Blockers


/-! ## The greatest depth -/

section Depth

theorem le_max_u32 (a b : UInt32) : a ≤ max a b ∧ b ≤ max a b := by
  show a ≤ (if a ≤ b then b else a) ∧ b ≤ (if a ≤ b then b else a)
  by_cases h : a ≤ b
  · rw [if_pos h]
    exact ⟨h, UInt32.le_refl b⟩
  · rw [if_neg h]
    exact ⟨UInt32.le_refl a, (UInt32.le_total a b).resolve_left h⟩

theorem max_eq_or_u32 (a b : UInt32) : max a b = a ∨ max a b = b := by
  show (if a ≤ b then b else a) = a ∨ (if a ≤ b then b else a) = b
  by_cases h : a ≤ b
  · exact .inr (if_pos h)
  · exact .inl (if_neg h)

theorem deepest_some (rows : List LifecycleRow) (d : UInt32) :
    ∃ d', deepest (some d) rows = some d' ∧ d ≤ d' ∧ (∀ row ∈ rows, row.stackDepth ≤ d') ∧
      (d' = d ∨ ∃ row ∈ rows, d' = row.stackDepth) := by
  induction rows generalizing d with
  | nil => exact ⟨d, rfl, UInt32.le_refl d, fun row h ↦ absurd h List.not_mem_nil, .inl rfl⟩
  | cons row rows ih =>
    obtain ⟨d', hd', hle, hrows, hor⟩ := ih (max d row.stackDepth)
    obtain ⟨hleft, hright⟩ := le_max_u32 d row.stackDepth
    refine ⟨d', hd', UInt32.le_trans hleft hle, fun r hr ↦ ?_, ?_⟩
    · rcases List.mem_cons.mp hr with rfl | hr
      · exact UInt32.le_trans hright hle
      · exact hrows r hr
    · obtain heq | ⟨r, hr, heq⟩ := hor
      · obtain hmax | hmax := max_eq_or_u32 d row.stackDepth
        · exact .inl (heq.trans hmax)
        · exact .inr ⟨row, List.mem_cons_self, heq.trans hmax⟩
      · exact .inr ⟨r, List.mem_cons_of_mem row hr, heq⟩

/-- The greatest depth of some rows is the depth of one of them. -/
theorem deepest_none {rows : List LifecycleRow} (h : rows ≠ []) :
    ∃ row ∈ rows, deepest none rows = some row.stackDepth ∧
      ∀ r ∈ rows, r.stackDepth ≤ row.stackDepth := by
  obtain ⟨row, rows, rfl⟩ := List.exists_cons_of_ne_nil h
  obtain ⟨d', hd', hle, hrows, hor⟩ := deepest_some rows (max 0 row.stackDepth)
  have hzero : max 0 row.stackDepth = row.stackDepth := if_pos UInt32.zero_le
  have hall (r : LifecycleRow) (hr : r ∈ row :: rows) : r.stackDepth ≤ d' := by
    rcases List.mem_cons.mp hr with rfl | hr
    · exact hzero ▸ hle
    · exact hrows r hr
  obtain heq | ⟨r, hr, heq⟩ := hor
  · rw [hzero] at heq
    exact ⟨row, List.mem_cons_self, heq ▸ hd', heq ▸ hall⟩
  · exact ⟨r, List.mem_cons_of_mem row hr, heq ▸ hd', heq ▸ hall⟩

end Depth


/-! ## What the machine is asked -/

section Claims

/-- The row of the machine is the one that the snapshot shows. -/
def Shows (own : LifecycleRow) (row : BeadRow) : Prop :=
  row.state = own.state ∧ row.stack = own.stack ∧ row.reason.filter (· ≠ "") = own.reason

/-- A blocker that a claim stacks on at a tip. -/
def AtTip (row : LifecycleRow) (tip : String) : Prop :=
  (row.state = .certified ∨ row.state = .inDelivery) ∧ row.tip = some tip

variable (cand : ReadyRow) (lc : String → Option LifecycleRow) (bd : String → Option ReadyRow)
  (stackMaxDepth : UInt32)

/-- What is proposed stacks on what the candidate waits on, and the machine accepts it. -/
structure Proposes (stack : Stack) (depth : UInt32) : Prop where
  settled : ∀ bid ∈ blockers cand, ¬ Exempt cand lc bid → Over lc bd bid ∨
    ∃ row tip, lc bid = some row ∧ AtTip row tip ∧ stack[bid]? = some tip
  only : ∀ bid tip, stack[bid]? = some tip → bid ∈ blockers cand ∧ ¬ Exempt cand lc bid ∧
    ∃ row, lc bid = some row ∧ AtTip row tip
  depth_eq : (stack = ∅ ∧ depth = 0) ∨ ∃ bid row, bid ∈ stack ∧ lc bid = some row ∧
    depth.toNat = row.stackDepth.toNat + 1 ∧
      ∀ bid' row', bid' ∈ stack → lc bid' = some row' → row'.stackDepth ≤ row.stackDepth
  depth_le : depth ≤ stackMaxDepth
  accepted : ∀ own row ev holder leaseUntil persona, lc cand.id = some own → Shows own row →
    ev.expect = row.state → ev.version = row.version →
    ev.kind = .claim holder leaseUntil stack depth.toNat stackMaxDepth.toNat persona →
      (apply row ev).applied = true

/-- The stack is the tips of the blockers that are stacked on. -/
def Carries (stack : Stack) : Prop := ∀ bid, stack[bid]? =
  if bid ∈ blockers cand then stackedTip cand lc bd stackMaxDepth bid else none

/-- The claim that a verdict refuses; the verdicts that are not the machine's refuse none. -/
def Refuses (stack : Stack) (depth max : ℕ) : Verdict → Prop
  | .ownState _ => True
  | .tooDeep d m => depth = d.toNat ∧ max = m.toNat
  | .stackUnchanged => Carries cand lc bd stackMaxDepth stack
  | _ => False

/-- What is answered is what the machine answers. -/
structure Faithful : Prop where
  proposes : ∀ stack depth, stackPlan cand lc bd stackMaxDepth = .ok (stack, depth) →
    Proposes cand lc bd stackMaxDepth stack depth
  refuses : ∀ v own row ev holder leaseUntil stack depth max persona,
    stackPlan cand lc bd stackMaxDepth = .error v → lc cand.id = some own → Shows own row →
    ev.kind = .claim holder leaseUntil stack depth max persona →
    Refuses cand lc bd stackMaxDepth stack depth max v → (apply row ev).applied = false

/-! ## The claim arms of the machine -/

variable {cand lc bd stackMaxDepth} {row : BeadRow} {ev : BeadEvent} {holder : String}
  {leaseUntil : Int} {stack : Stack} {depth max : ℕ} {persona : Option String}

/-- A claim that is not stale is answered by the table. -/
theorem applied_claim (hexpect : ev.expect = row.state) (hversion : ev.version = row.version)
    (hkind : ev.kind = .claim holder leaseUntil stack depth max persona) :
    (apply row ev).applied = (primaryTransition row ev.kind).applied := by
  have happly : applyTransition row ev = primaryTransition row ev.kind := by
    rw [applyTransition, if_neg (not_not_intro hversion), if_neg (not_not_intro hexpect)]
    have hdispatch : dispatch row ev = primaryTransition row ev.kind := by rw [dispatch, hkind]
    have htip : ev.kind.submittedTip = none := by rw [hkind]; rfl
    rw [htip]
    exact hdispatch
  rw [apply, happly]
  split <;> rfl

theorem applied_of_table
    (hkind : ev.kind = .claim holder leaseUntil stack depth max persona)
    (h : (apply row ev).applied = true) : (primaryTransition row ev.kind).applied = true := by
  by_cases hversion : ev.version = row.version
  · by_cases hexpect : ev.expect = row.state
    · rwa [applied_claim hexpect hversion hkind] at h
    · rw [apply, applyTransition, if_neg (not_not_intro hversion), if_pos hexpect] at h
      cases h
  · rw [apply, applyTransition, if_pos hversion] at h
    cases h

theorem table_claim_iff (hkind : ev.kind = .claim holder leaseUntil stack depth max persona) :
    (primaryTransition row ev.kind).applied = true ↔
      (row.state = .ready ∨ row.state = .rework) ∧ depth ≤ max ∧
        ¬ (row.state = .rework ∧ reworkClaimStackUnchanged row.stack row.reason stack = true) := by
  rw [hkind, primaryTransition]
  rcases hs : row.state
  case ready =>
    dsimp only
    rw [readyTransition]
    by_cases hdeep : depth > max
    · rw [if_pos hdeep]
      refine iff_of_false Bool.false_ne_true fun h ↦ ?_
      omega
    · rw [if_neg hdeep]
      refine iff_of_true rfl ⟨.inl rfl, by omega, ?_⟩
      rintro ⟨h, -⟩
      cases h
  case rework =>
    dsimp only
    rw [reworkTransition]
    by_cases hdeep : depth > max
    · rw [if_pos hdeep]
      refine iff_of_false Bool.false_ne_true fun h ↦ ?_
      omega
    rw [if_neg hdeep]
    by_cases hsame : reworkClaimStackUnchanged row.stack row.reason stack = true
    · rw [if_pos hsame]
      exact iff_of_false Bool.false_ne_true fun h ↦ h.2.2 ⟨rfl, hsame⟩
    · rw [if_neg hsame]
      exact iff_of_true rfl ⟨.inr rfl, by omega, fun h ↦ hsame h.2⟩
  all_goals
    refine iff_of_false Bool.false_ne_true fun h ↦ ?_
    obtain ⟨h | h, -⟩ := h <;> cases h

/-- An empty reason is none, to the check of the stack. -/
theorem unchanged_of_shows {own : LifecycleRow} (h : Shows own row) :
    reworkClaimStackUnchanged row.stack row.reason stack =
      reworkClaimStackUnchanged own.stack own.reason stack := by
  obtain ⟨-, hstack, hreason⟩ := h
  rw [reworkClaimStackUnchanged, reworkClaimStackUnchanged, hstack, ← hreason]
  obtain hnone | ⟨r, hr⟩ := row.reason.eq_none_or_eq_some
  · rw [hnone, Option.filter_none]
  · by_cases hempty : r = ""
    · rw [hr, hempty]
      rfl
    · rw [hr, Option.filter_some, if_pos (decide_eq_true hempty)]

end Claims


/-! ## Where the plan is answered -/

section Answers

variable (cand : ReadyRow) (lc : String → Option LifecycleRow) (bd : String → Option ReadyRow)
  (stackMaxDepth : UInt32)

/-- A blocker that the candidate stacks on. -/
def StacksOn (bid : String) (row : LifecycleRow) : Prop :=
  bid ∈ blockers cand ∧ stackedRow cand lc bd stackMaxDepth bid = some row

/-- The greatest depth there is. -/
def maxDepth : UInt32 := -1

/-- In REWORK after a red verdict, on the stack that would be proposed again. -/
def Repeats (own : LifecycleRow) : Prop :=
  own.state = .rework ∧ own.stack ≠ ∅ ∧ Carries cand lc bd stackMaxDepth own.stack ∧
    ∃ r, own.reason = some r ∧ (GateRedReason.fromStr r).isSome = true

/-- The candidate is free, nothing holds it back, and what it stacks on is neither too deep nor the
stack that was red. -/
structure Proposable : Prop where
  own : ∃ own, lc cand.id = some own ∧ (∀ h ∈ own.holds, h = .wait) ∧ own.snoozedUntil = none ∧
    (own.state = .ready ∨ own.state = .rework) ∧ ¬ Repeats cand lc bd stackMaxDepth own
  settled : ∀ bid ∈ blockers cand, Settled cand lc bd stackMaxDepth bid
  shallow :
    (∀ bid row, StacksOn cand lc bd stackMaxDepth bid row → row.stackDepth < stackMaxDepth) ∨
    ∃ bid row, StacksOn cand lc bd stackMaxDepth bid row ∧ row.stackDepth = maxDepth

variable {cand lc bd stackMaxDepth} {own : LifecycleRow}

theorem ownRefusal_eq_none : ownRefusal own = none ↔ (∀ h ∈ own.holds, h = .wait) ∧
    own.snoozedUntil = none ∧ (own.state = .ready ∨ own.state = .rework) := by
  have hall : ([HoldKind.poison, .ask, .wait, .manual].find? fun h ↦
      h ∈ own.holds ∧ h ≠ .wait) = none ↔ ∀ h ∈ own.holds, h = .wait := by
    rw [List.find?_eq_none]
    constructor
    · intro h kind hkind
      by_contra hne
      have hmem : kind ∈ [HoldKind.poison, .ask, .wait, .manual] := by cases kind <;> decide
      exact h kind hmem (decide_eq_true ⟨hkind, hne⟩)
    · intro h kind _ hkind
      obtain ⟨hin, hne⟩ := of_decide_eq_true hkind
      exact hne (h kind hin)
  rw [ownRefusal, ← hall]
  obtain hnone | ⟨h, hsome⟩ := ([HoldKind.poison, .ask, .wait, .manual].find? fun h ↦
    h ∈ own.holds ∧ h ≠ .wait).eq_none_or_eq_some
  · rw [hnone]
    simp only [true_and]
    obtain hawake | ⟨t, hsnoozed⟩ := own.snoozedUntil.eq_none_or_eq_some
    · rw [hawake]
      dsimp only
      by_cases hstate : own.state = .ready ∨ own.state = .rework
      · rw [if_pos hstate]
        exact iff_of_true rfl ⟨rfl, hstate⟩
      · rw [if_neg hstate]
        exact iff_of_false (Option.some_ne_none _) fun h ↦ hstate h.2
    · rw [hsnoozed]
      exact iff_of_false (Option.some_ne_none _) fun h ↦ Option.some_ne_none t h.1
  · rw [hsome]
    exact iff_of_false (Option.some_ne_none _) fun hn ↦ Option.some_ne_none h hn.1

theorem ownRefusal_cases {v : Verdict} (h : ownRefusal own = some v) :
    (∃ kind, v = .held kind) ∨ (∃ t, v = .snoozed t) ∨
      v = .ownState own.state ∧ ¬ (own.state = .ready ∨ own.state = .rework) := by
  rw [ownRefusal] at h
  split at h
  · exact .inl ⟨_, (Option.some.inj h).symm⟩
  split at h
  · exact .inr (.inl ⟨_, (Option.some.inj h).symm⟩)
  by_cases hstate : own.state = .ready ∨ own.state = .rework
  · rw [if_pos hstate] at h
    cases h
  · rw [if_neg hstate] at h
    exact .inr (.inr ⟨(Option.some.inj h).symm, hstate⟩)

theorem carries_unique {stack stack' : Stack} (h : Carries cand lc bd stackMaxDepth stack)
    (h' : Carries cand lc bd stackMaxDepth stack') : stack = stack' :=
  Std.ExtTreeMap.ext_getElem? fun {bid} ↦ (h bid).trans (h' bid).symm

/-- The depths of what is stacked on, in the order of the blockers. -/
def stackedRows (cand : ReadyRow) (lc : String → Option LifecycleRow)
    (bd : String → Option ReadyRow) (stackMaxDepth : UInt32) : List LifecycleRow :=
  (blockers cand).filterMap (stackedRow cand lc bd stackMaxDepth)

theorem mem_stackedRows {row : LifecycleRow} : row ∈ stackedRows cand lc bd stackMaxDepth ↔
    ∃ bid, StacksOn cand lc bd stackMaxDepth bid row := List.mem_filterMap

/-- The depth that is proposed. -/
def depthOf (rows : List LifecycleRow) : UInt32 := ((deepest none rows).map (· + 1)).getD 0

/-- Of a free candidate that nothing holds back, the depth and the stack decide. -/
theorem stackPlan_of_settled (hown : lc cand.id = some own) (hfree : ownRefusal own = none)
    (hsettled : ∀ bid ∈ blockers cand, Settled cand lc bd stackMaxDepth bid) :
    ∃ stack, Carries cand lc bd stackMaxDepth stack ∧
      stackPlan cand lc bd stackMaxDepth =
        if depthOf (stackedRows cand lc bd stackMaxDepth) > stackMaxDepth then
          .error (.tooDeep (depthOf (stackedRows cand lc bd stackMaxDepth)) stackMaxDepth)
        else if own.state = .rework ∧
            reworkClaimStackUnchanged own.stack own.reason stack = true then
          .error .stackUnchanged
        else .ok (stack, depthOf (stackedRows cand lc bd stackMaxDepth)) := by
  obtain ⟨stack, hwalk, hget⟩ := walk_settled hsettled ∅ none
  refine ⟨stack, fun bid ↦ (hget bid).trans ?_, ?_⟩
  · rw [Std.ExtTreeMap.getElem?_empty, Option.or_none]
  · rw [stackPlan, hown]
    dsimp only
    rw [hfree]
    dsimp only
    rw [hwalk]
    rfl

theorem stackPlan_of_held {v : Verdict} (hown : lc cand.id = some own)
    (hheld : ownRefusal own = some v) : stackPlan cand lc bd stackMaxDepth = .error v := by
  rw [stackPlan, hown]
  dsimp only
  rw [hheld]

theorem stackPlan_of_unsettled (hown : lc cand.id = some own) (hfree : ownRefusal own = none)
    (h : ¬ ∀ bid ∈ blockers cand, Settled cand lc bd stackMaxDepth bid) :
    ∃ bid, stackPlan cand lc bd stackMaxDepth = .error (.blocked bid) := by
  push Not at h
  obtain ⟨bid, hwalk⟩ := walk_unsettled h
  refine ⟨bid, ?_⟩
  rw [stackPlan, hown]
  dsimp only
  rw [hfree]
  dsimp only
  rw [hwalk]

theorem toNat_maxDepth : maxDepth.toNat = 4294967295 := by decide

theorem toNat_succ {d : UInt32} (h : d ≠ maxDepth) : (d + 1).toNat = d.toNat + 1 := by
  have hlt := d.toNat_lt
  have hne : d.toNat ≠ 4294967295 := fun heq ↦
    h (UInt32.toNat_inj.mp (heq.trans toNat_maxDepth.symm))
  rw [UInt32.toNat_add, UInt32.toNat_one]
  omega

/-- A depth is not too great: none is as great as the cap, or the greatest wraps. -/
theorem depthOf_le_iff {rows : List LifecycleRow} {cap : UInt32} : ¬ depthOf rows > cap ↔
    (∀ row ∈ rows, row.stackDepth < cap) ∨ ∃ row ∈ rows, row.stackDepth = maxDepth := by
  by_cases hnil : rows = []
  · rw [hnil]
    exact iff_of_true UInt32.not_lt_zero (.inl fun row h ↦ absurd h List.not_mem_nil)
  obtain ⟨row, hrow, hdeepest, hle⟩ := deepest_none hnil
  rw [depthOf, hdeepest, Option.map_some, Option.getD_some]
  by_cases hmax : row.stackDepth = maxDepth
  · refine iff_of_true ?_ (.inr ⟨row, hrow, hmax⟩)
    rw [hmax]
    exact UInt32.not_lt_zero
  · have hsucc := toNat_succ hmax
    constructor
    · intro h
      refine .inl fun r hr ↦ ?_
      have hr := UInt32.le_iff_toNat_le.mp (hle r hr)
      have h := UInt32.le_iff_toNat_le.mp (UInt32.not_lt.mp h)
      exact UInt32.lt_iff_toNat_lt.mpr (by omega)
    · rintro (h | ⟨r, hr, hdeep⟩)
      · have h := UInt32.lt_iff_toNat_lt.mp (h row hrow)
        refine fun hgt ↦ ?_
        have hgt := UInt32.lt_iff_toNat_lt.mp hgt
        omega
      · refine absurd (UInt32.le_antisymm ?_ (hdeep ▸ hle r hr)) hmax
        have hlt := row.stackDepth.toNat_lt
        rw [UInt32.le_iff_toNat_le, toNat_maxDepth]
        omega



theorem repeats_iff {stack : Stack} (h : Carries cand lc bd stackMaxDepth stack) :
    Repeats cand lc bd stackMaxDepth own ↔
      own.state = .rework ∧ reworkClaimStackUnchanged own.stack own.reason stack = true := by
  rw [Repeats, reworkClaimStackUnchanged, Bool.and_eq_true, Bool.and_eq_true, decide_eq_true_eq,
    Bool.not_eq_true', Option.any_eq_true]
  refine and_congr_right fun _ ↦ ?_
  constructor
  · rintro ⟨hne, hcarries, hreason⟩
    have heq := carries_unique h hcarries
    refine ⟨⟨?_, heq⟩, hreason⟩
    rw [heq, ← Bool.not_eq_true, Std.ExtTreeMap.isEmpty_iff]
    exact hne
  · rintro ⟨⟨hne, heq⟩, hreason⟩
    rw [heq, ← Bool.not_eq_true, Std.ExtTreeMap.isEmpty_iff] at hne
    exact ⟨hne, heq ▸ h, hreason⟩

/-- Every answer comes from a free candidate that nothing holds back. -/
theorem stackPlan_ok {stack : Stack} {depth : UInt32}
    (h : stackPlan cand lc bd stackMaxDepth = .ok (stack, depth)) :
    Proposable cand lc bd stackMaxDepth ∧ Carries cand lc bd stackMaxDepth stack ∧
      depth = depthOf (stackedRows cand lc bd stackMaxDepth) ∧ ¬ depth > stackMaxDepth := by
  obtain hnone | ⟨own, hown⟩ := (lc cand.id).eq_none_or_eq_some
  · rw [stackPlan, hnone] at h
    cases h
  obtain hfree | ⟨v, hheld⟩ := (ownRefusal own).eq_none_or_eq_some
  · by_cases hsettled : ∀ bid ∈ blockers cand, Settled cand lc bd stackMaxDepth bid
    · obtain ⟨stack', hcarries, hplan⟩ := stackPlan_of_settled hown hfree hsettled
      rw [hplan] at h
      by_cases hdeep : depthOf (stackedRows cand lc bd stackMaxDepth) > stackMaxDepth
      · rw [if_pos hdeep] at h
        cases h
      rw [if_neg hdeep] at h
      by_cases hsame : own.state = .rework ∧
          reworkClaimStackUnchanged own.stack own.reason stack' = true
      · rw [if_pos hsame] at h
        cases h
      rw [if_neg hsame] at h
      cases h
      obtain ⟨hholds, hawake, hstate⟩ := ownRefusal_eq_none.mp hfree
      have hrepeats := fun hr ↦ hsame ((repeats_iff hcarries).mp hr)
      refine ⟨⟨⟨own, hown, hholds, hawake, hstate, hrepeats⟩, hsettled, ?_⟩, hcarries, rfl, hdeep⟩
      obtain hall | ⟨row, hrow, hmax⟩ := depthOf_le_iff.mp hdeep
      · exact .inl fun bid row hon ↦ hall row (mem_stackedRows.mpr ⟨bid, hon⟩)
      · obtain ⟨bid, hon⟩ := mem_stackedRows.mp hrow
        exact .inr ⟨bid, row, hon, hmax⟩
    · obtain ⟨bid, hblocked⟩ := stackPlan_of_unsettled hown hfree hsettled
      rw [hblocked] at h
      cases h
  · rw [stackPlan_of_held hown hheld] at h
    cases h

theorem stackPlan_of_proposable (h : Proposable cand lc bd stackMaxDepth) :
    ∃ stack, Carries cand lc bd stackMaxDepth stack ∧ stackPlan cand lc bd stackMaxDepth =
      .ok (stack, depthOf (stackedRows cand lc bd stackMaxDepth)) := by
  obtain ⟨⟨own, hown, hholds, hawake, hstate, hrepeats⟩, hsettled, hshallow⟩ := h
  have hfree := ownRefusal_eq_none.mpr ⟨hholds, hawake, hstate⟩
  obtain ⟨stack, hcarries, hplan⟩ := stackPlan_of_settled hown hfree hsettled
  refine ⟨stack, hcarries, hplan.trans ?_⟩
  rw [if_neg, if_neg fun hsame ↦ hrepeats ((repeats_iff hcarries).mpr hsame)]
  rw [depthOf_le_iff]
  obtain hall | ⟨bid, row, hon, hmax⟩ := hshallow
  · refine .inl fun row hrow ↦ ?_
    obtain ⟨bid, hon⟩ := mem_stackedRows.mp hrow
    exact hall bid row hon
  · exact .inr ⟨row, mem_stackedRows.mpr ⟨bid, hon⟩, hmax⟩

/-! ## The proposals that hold -/

theorem atTip_of_stacked {bid tip : String} {stack : Stack}
    (hcarries : Carries cand lc bd stackMaxDepth stack) (h : stack[bid]? = some tip) :
    ∃ row, StacksOn cand lc bd stackMaxDepth bid row ∧ row.tip = some tip := by
  rw [hcarries bid] at h
  by_cases hmem : bid ∈ blockers cand
  · rw [if_pos hmem, stackedTip, Option.bind_eq_some_iff] at h
    obtain ⟨row, hrow, htip⟩ := h
    exact ⟨row, ⟨hmem, hrow⟩, htip⟩
  · rw [if_neg hmem] at h
    cases h

theorem getElem?_of_stacked {bid tip : String} {stack : Stack} {row : LifecycleRow}
    (hcarries : Carries cand lc bd stackMaxDepth stack)
    (hon : StacksOn cand lc bd stackMaxDepth bid row) (htip : row.tip = some tip) :
    stack[bid]? = some tip := by
  rw [hcarries bid, if_pos hon.1, stackedTip, hon.2, Option.bind_some, htip]

/-- A proposal for which every blocker that is stacked on has a tip, and a depth to go below. -/
theorem proposes_of_tips {stack : Stack} {depth : UInt32}
    (h : stackPlan cand lc bd stackMaxDepth = .ok (stack, depth))
    (htips : ∀ bid row, StacksOn cand lc bd stackMaxDepth bid row →
      row.tip.isSome = true ∧ row.stackDepth ≠ maxDepth) :
    Proposes cand lc bd stackMaxDepth stack depth := by
  obtain ⟨hproposable, hcarries, hdepth, hcap⟩ := stackPlan_ok h
  constructor
  case settled =>
    intro bid hbid hexempt
    obtain hex | hover | hsome := hproposable.settled bid hbid
    · exact absurd hex hexempt
    · exact .inl hover
    · obtain ⟨row, hrow⟩ := Option.isSome_iff_exists.mp hsome
      have hon : StacksOn cand lc bd stackMaxDepth bid row := ⟨hbid, hrow⟩
      obtain ⟨tip, htip⟩ := Option.isSome_iff_exists.mp (htips bid row hon).1
      obtain ⟨hlc, hstate, -⟩ := stackedRow_eq_some.mp hrow
      exact .inr ⟨row, tip, hlc, ⟨hstate, htip⟩, getElem?_of_stacked hcarries hon htip⟩
  case only =>
    intro bid tip hget
    obtain ⟨row, hon, htip⟩ := atTip_of_stacked hcarries hget
    obtain ⟨hlc, hstate, -⟩ := stackedRow_eq_some.mp hon.2
    exact ⟨hon.1, fun hex ↦ not_parent_of_stackedRow hon.2 hex.1, row, hlc, hstate, htip⟩
  case depth_eq =>
    by_cases hnil : stackedRows cand lc bd stackMaxDepth = []
    · refine .inl ⟨Std.ExtTreeMap.ext_getElem? fun {bid} ↦ ?_, ?_⟩
      · rw [Std.ExtTreeMap.getElem?_empty, Option.eq_none_iff_forall_ne_some]
        intro tip hget
        obtain ⟨row, hon, -⟩ := atTip_of_stacked hcarries hget
        have hmem := mem_stackedRows.mpr ⟨bid, hon⟩
        rw [hnil] at hmem
        cases hmem
      · rw [hdepth, hnil]
        rfl
    · obtain ⟨row, hrow, hdeepest, hle⟩ := deepest_none hnil
      obtain ⟨bid, hon⟩ := mem_stackedRows.mp hrow
      obtain ⟨hsome, hmax⟩ := htips bid row hon
      obtain ⟨tip, htip⟩ := Option.isSome_iff_exists.mp hsome
      refine .inr ⟨bid, row, ?_, (stackedRow_eq_some.mp hon.2).1, ?_, fun bid' row' hin hrow' ↦ ?_⟩
      · rw [← Std.ExtTreeMap.isSome_getElem?_iff_mem, getElem?_of_stacked hcarries hon htip]
        rfl
      · rw [hdepth, depthOf, hdeepest, Option.map_some, Option.getD_some]
        exact toNat_succ hmax
      · obtain ⟨tip', hget⟩ := Option.isSome_iff_exists.mp
          (Std.ExtTreeMap.isSome_getElem?_iff_mem.mpr hin)
        obtain ⟨row'', hon', -⟩ := atTip_of_stacked hcarries hget
        obtain ⟨hlc, -⟩ := stackedRow_eq_some.mp hon'.2
        have heq : row'' = row' := Option.some.inj (hlc.symm.trans hrow')
        exact heq ▸ hle row'' (mem_stackedRows.mpr ⟨bid', hon'⟩)
  case depth_le => exact UInt32.not_lt.mp hcap
  case accepted =>
    intro own row ev holder leaseUntil persona hown hshows hexpect hversion hkind
    obtain ⟨own', hown', -, -, hstate, hrepeats⟩ := hproposable.own
    obtain rfl : own = own' := Option.some.inj (hown.symm.trans hown')
    rw [applied_claim hexpect hversion hkind, table_claim_iff hkind, unchanged_of_shows hshows,
      hshows.1, ← repeats_iff hcarries]
    exact ⟨hstate, UInt32.le_iff_toNat_le.mp (UInt32.not_lt.mp hcap), hrepeats⟩

/-- The refusals that are the machine's own. -/
theorem refused_of_error {v : Verdict} {row : BeadRow} {ev : BeadEvent} {holder : String}
    {leaseUntil : Int} {stack : Stack} {depth max : ℕ} {persona : Option String}
    (hplan : stackPlan cand lc bd stackMaxDepth = .error v) (hown : lc cand.id = some own)
    (hshows : Shows own row) (hkind : ev.kind = .claim holder leaseUntil stack depth max persona)
    (hrefuses : Refuses cand lc bd stackMaxDepth stack depth max v) :
    (apply row ev).applied = false := by
  rw [← Bool.not_eq_true]
  intro happlied
  obtain ⟨hstate, hdepth, hsame⟩ := (table_claim_iff hkind).mp (applied_of_table hkind happlied)
  rw [unchanged_of_shows hshows, hshows.1] at hsame
  rw [hshows.1] at hstate
  obtain hfree | ⟨v', hheld⟩ := (ownRefusal own).eq_none_or_eq_some
  · by_cases hsettled : ∀ bid ∈ blockers cand, Settled cand lc bd stackMaxDepth bid
    · obtain ⟨stack', hcarries, heq⟩ := stackPlan_of_settled hown hfree hsettled
      rw [heq] at hplan
      by_cases hdeep : depthOf (stackedRows cand lc bd stackMaxDepth) > stackMaxDepth
      · rw [if_pos hdeep] at hplan
        cases hplan
        obtain ⟨rfl, rfl⟩ := hrefuses
        have hlt := UInt32.lt_iff_toNat_lt.mp hdeep
        omega
      rw [if_neg hdeep] at hplan
      by_cases hrepeats : own.state = .rework ∧
          reworkClaimStackUnchanged own.stack own.reason stack' = true
      · rw [if_pos hrepeats] at hplan
        cases hplan
        exact hsame (carries_unique hcarries hrefuses ▸ hrepeats)
      · rw [if_neg hrepeats] at hplan
        cases hplan
    · obtain ⟨bid, hblocked⟩ := stackPlan_of_unsettled hown hfree hsettled
      rw [hblocked] at hplan
      cases hplan
      exact hrefuses
  · rw [stackPlan_of_held hown hheld] at hplan
    cases hplan
    obtain ⟨kind, rfl⟩ | ⟨t, rfl⟩ | ⟨-, hother⟩ := ownRefusal_cases hheld
    · exact hrefuses
    · exact hrefuses
    · exact hother hstate

end Answers

/-- **What is proposed is what the machine accepts** exactly where every blocker that a proposal
stacks on has a tip, and a recorded depth that one can be added to. -/
theorem stackPlan_faithful (cand : ReadyRow) (lc : String → Option LifecycleRow)
    (bd : String → Option ReadyRow) (stackMaxDepth : UInt32) :
    Faithful cand lc bd stackMaxDepth ↔ (Proposable cand lc bd stackMaxDepth →
      ∀ bid row, StacksOn cand lc bd stackMaxDepth bid row →
        row.tip.isSome = true ∧ row.stackDepth ≠ maxDepth) := by
  constructor
  · intro hfaithful hproposable bid row hon
    obtain ⟨stack, hcarries, hplan⟩ := stackPlan_of_proposable hproposable
    have hproposes := hfaithful.proposes _ _ hplan
    obtain ⟨hlc, -⟩ := stackedRow_eq_some.mp hon.2
    obtain hover | ⟨row', tip, hlc', ⟨-, htip⟩, hget⟩ := hproposes.settled bid hon.1
      fun hex ↦ not_parent_of_stackedRow hon.2 hex.1
    · exact absurd hover (not_over_of_stackedRow hon.2)
    obtain rfl : row = row' := Option.some.inj (hlc.symm.trans hlc')
    refine ⟨Option.isSome_iff_exists.mpr ⟨tip, htip⟩, fun hmax ↦ ?_⟩
    -- The depth wraps to zero, which is one more than no depth.
    have hrows := mem_stackedRows.mpr ⟨bid, hon⟩
    obtain ⟨row', hrow', hdeepest, hle⟩ := deepest_none (List.ne_nil_of_mem hrows)
    have hmax' : row'.stackDepth = maxDepth := by
      have hge := UInt32.le_iff_toNat_le.mp (hmax ▸ hle row hrows)
      have hlt := row'.stackDepth.toNat_lt
      rw [toNat_maxDepth] at hge
      exact UInt32.toNat_inj.mp (by rw [toNat_maxDepth]; omega)
    have hzero : depthOf (stackedRows cand lc bd stackMaxDepth) = 0 := by
      rw [depthOf, hdeepest, hmax']
      rfl
    rw [hzero] at hproposes
    obtain ⟨hempty, -⟩ | ⟨_, _, -, -, hsucc, -⟩ := hproposes.depth_eq
    · rw [hempty, Std.ExtTreeMap.getElem?_empty] at hget
      cases hget
    · exact absurd hsucc (Nat.succ_ne_zero _).symm
  · intro h
    refine ⟨fun stack depth hplan ↦ ?_, ?_⟩
    · exact proposes_of_tips hplan (h (stackPlan_ok hplan).1)
    · intro v own row ev holder leaseUntil stack depth max persona hplan hown hshows hkind hrefuses
      exact refused_of_error hplan hown hshows hkind hrefuses

/-! ## A blocker with no tip -/

/-- Two work beads of one repository: the second waits on the first. -/
def waiting : ReadyRow where
  id := "B"
  parent := none
  labels := ["repo:spira"]
  issueType := some "task"
  status := some "open"
  dependencies := [⟨some "B", some "A", some "blocks"⟩]

def waitedOn : ReadyRow := { waiting with id := "A", dependencies := [] }

/-- The first is certified and its tip came back empty. -/
def snapshot (bid : String) : Option LifecycleRow :=
  if bid = "A" then some ⟨.certified, ∅, 0, none, none, false, ∅, none⟩
  else if bid = "B" then some ⟨.ready, ∅, 0, none, none, false, ∅, none⟩
  else none

def records (bid : String) : Option ReadyRow := if bid = "A" then some waitedOn else none

/-- A blocker that is certified at no tip holds nothing back, and the stack leaves it out. -/
theorem tipless_left_out : stackPlan waiting snapshot records 4 = .ok (∅, 1) ∧
    ¬ Proposes waiting snapshot records 4 ∅ 1 ∧ ¬ Faithful waiting snapshot records 4 := by
  have hplan : stackPlan waiting snapshot records 4 = .ok (∅, 1) := by rfl
  have hnot : ¬ Proposes waiting snapshot records 4 ∅ 1 := by
    intro h
    obtain ⟨-, hzero⟩ | ⟨bid, row, hin, -⟩ := h.depth_eq
    · exact absurd hzero (by decide)
    · exact absurd hin Std.ExtTreeMap.not_mem_empty
  exact ⟨hplan, hnot, fun h ↦ hnot (h.proposes _ _ hplan)⟩

end Spira.Claim
