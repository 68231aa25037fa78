import Spira.Control.Exits
import Spira.Lib.Worklist

/-!
# The members stacked on a member

The frontier walk is a worklist: it finds every member that leads back to a root by declared
stacks and containments, whatever the stacks say (`stackedDependents_iff`).  A settlement takes a
round's members apart by it: a member is ejected, withdrawn with the member it is stacked on,
requeued, or left where it is.
-/

set_option autoImplicit false

namespace Spira.Control

open Spira.Bead Spira.Batch Spira.Delivery Store Stopping Relation Cascade

/-! ## The closure -/

section Closure

variable {memberStacks : List (String × BeadRow)} {tips : String → Option String}
  {contained : List (String × String)} {roots : List String}

/-- A member is stacked on a prerequisite: its row names the prerequisite at the tip the round
lists it at, or its branch contains the prerequisite's. -/
def stackedOn (tips : String → Option String) (contained : List (String × String))
    (prereq : String) (m : String × BeadRow) : Bool :=
  m.2.stack[prereq]?.any (tips prereq = some ·) || (m.1, prereq) ∈ contained

/-- The members stacked on a prerequisite. -/
def stackedNext (memberStacks : List (String × BeadRow)) (tips : String → Option String)
    (contained : List (String × String)) (prereq : String) : List String :=
  (memberStacks.filter (stackedOn tips contained prereq)).map Prod.fst

/-- One member is stacked on another, as their records have it. -/
def StackedOn (memberStacks : List (String × BeadRow)) (tips : String → Option String)
    (contained : List (String × String)) (prereq id : String) : Prop :=
  ∃ row, (id, row) ∈ memberStacks ∧ stackedOn tips contained prereq (id, row)

theorem mem_stackedNext {prereq id : String} :
    id ∈ stackedNext memberStacks tips contained prereq ↔
      StackedOn memberStacks tips contained prereq id := by
  rw [stackedNext, List.mem_map]
  constructor
  · rintro ⟨⟨_, row⟩, hm, rfl⟩
    exact ⟨row, List.mem_filter.mp hm⟩
  · rintro ⟨row, hm⟩
    exact ⟨(id, row), List.mem_filter.mpr hm, rfl⟩

/-- The walk stands where the worklist does, its lists in the other order. -/
structure Stands (roots : List String) (w : Walk) (s : Worklist.State String) : Prop where
  frontier : w.frontier = s.todo.reverse
  visited : w.visited = s.seen.reverse
  dependents : w.visited = roots ++ w.dependents.map Prod.fst
  once : (w.dependents.map Prod.fst).Nodup
  apart : ∀ id ∈ w.dependents.map Prod.fst, id ∉ roots

theorem Stands.visit {w : Walk} {s : Worklist.State String} {prereq : String}
    {m : String × BeadRow} (h : Stands roots w s) :
    Stands roots (w.visit tips contained prereq m)
      (if stackedOn tips contained prereq m then s.push m.1 else s) := by
  have hseen : m.1 ∈ w.visited ↔ m.1 ∈ s.seen := by rw [h.visited, List.mem_reverse]
  by_cases hv : m.1 ∈ w.visited
  · have hpush : s.push m.1 = s := if_pos (hseen.mp hv)
    rw [Walk.visit, if_pos hv, hpush, ite_self]
    exact h
  · have hvisit : w.visit tips contained prereq m =
        if stackedOn tips contained prereq m then
          ⟨w.visited ++ [m.1], w.frontier ++ [m.1], w.dependents ++ [(m.1, prereq)]⟩
        else w := if_neg hv
    rw [hvisit]
    by_cases hs : stackedOn tips contained prereq m
    · have hpush : s.push m.1 = ⟨m.1 :: s.todo, m.1 :: s.seen⟩ := if_neg (mt hseen.mpr hv)
      rw [if_pos hs, if_pos hs, hpush]
      rw [h.dependents, List.mem_append, not_or] at hv
      refine ⟨?_, ?_, ?_, ?_, ?_⟩
      · rw [h.frontier, List.reverse_cons]
      · rw [h.visited, List.reverse_cons]
      · rw [h.dependents, List.map_append, List.append_assoc]
        rfl
      · rw [List.map_append]
        exact h.once.append (List.nodup_singleton _) (by simpa using hv.2)
      · intro id hid
        rw [List.map_append, List.mem_append] at hid
        rcases hid with hid | hid
        · exact h.apart id hid
        · rw [List.mem_singleton.mp hid]
          exact hv.1
    · rw [if_neg hs, if_neg hs]
      exact h

/-- Holding every member against a prerequisite pushes those stacked on it. -/
theorem Stands.foldl {w : Walk} {s : Worklist.State String} {prereq : String}
    (l : List (String × BeadRow)) (h : Stands roots w s) :
    Stands roots (l.foldl (Walk.visit tips contained prereq) w)
      ((stackedNext l tips contained prereq).foldl Worklist.State.push s) := by
  induction l generalizing w s with
  | nil => exact h
  | cons m l ih =>
    have hvisit : Stands roots (w.visit tips contained prereq m) _ := h.visit
    have hstep := ih hvisit
    by_cases hs : stackedOn tips contained prereq m
    · rw [if_pos hs] at hstep
      rw [stackedNext, List.filter_cons_of_pos hs]
      exact hstep
    · rw [if_neg hs] at hstep
      rw [stackedNext, List.filter_cons_of_neg hs]
      exact hstep

/-- The walk goes on as the worklist does. -/
theorem Stands.follow {w : Walk} {s : Worklist.State String} {n : ℕ} (h : Stands roots w s) :
    Stands roots (Walk.follow memberStacks tips contained n w)
      (Worklist.spread (stackedNext memberStacks tips contained) n s) := by
  induction n generalizing w s with
  | zero => exact h
  | succ n ih =>
    obtain ⟨todo, seen⟩ := s
    rcases todo with - | ⟨x, todo⟩
    · have hnil : w.frontier = [] := h.frontier
      rw [Walk.follow, hnil, List.getLast?_nil, Worklist.spread_of_nil rfl]
      exact h
    · have hfrontier : w.frontier = todo.reverse ++ [x] := by
        rw [h.frontier, List.reverse_cons]
      rw [Walk.follow, hfrontier, List.getLast?_concat, List.dropLast_concat]
      have hpopped : Stands roots { w with frontier := todo.reverse } ⟨todo, seen⟩ :=
        ⟨rfl, h.visited, h.dependents, h.once, h.apart⟩
      exact ih (hpopped.foldl memberStacks)

theorem stands_start (roots : List String) :
    Stands roots ⟨roots, roots, []⟩ ⟨roots.reverse, roots.reverse⟩ :=
  ⟨roots.reverse_reverse.symm, roots.reverse_reverse.symm, (List.append_nil roots).symm, .nil,
    fun _ h ↦ nomatch h⟩

/-- The ids that the walk may come to. -/
private def walked (memberStacks : List (String × BeadRow)) (roots : List String) : Finset String :=
  (memberStacks.map Prod.fst).toFinset ∪ roots.toFinset

theorem todo_follow : (Worklist.spread (stackedNext memberStacks tips contained)
    (memberStacks.length + roots.length) ⟨roots.reverse, roots.reverse⟩).todo = [] := by
  refine Worklist.todo_spread (U := walked memberStacks roots) (fun x _ y hy ↦ ?_) (fun x hx ↦ ?_) ?_
  · obtain ⟨row, hm, -⟩ := mem_stackedNext.mp hy
    exact Finset.mem_union_left _ (List.mem_toFinset.mpr (List.mem_map_of_mem hm))
  · exact Finset.mem_union_right _ (List.mem_toFinset.mpr (List.mem_reverse.mp hx))
  · have hsub : walked memberStacks roots \ roots.reverse.toFinset ⊆
        (memberStacks.map Prod.fst).toFinset := by
      intro x hx
      obtain ⟨hmem, hno⟩ := Finset.mem_sdiff.mp hx
      rw [List.toFinset_reverse] at hno
      exact (Finset.mem_union.mp hmem).resolve_right hno
    have hcard := Finset.card_le_card hsub
    have hlen := List.toFinset_card_le (memberStacks.map Prod.fst)
    rw [List.length_map] at hlen
    show (walked memberStacks roots \ roots.reverse.toFinset).card + roots.reverse.length ≤ _
    rw [List.length_reverse]
    omega

/-- The walk comes to its end: nothing is left to follow. -/
theorem follow_frontier (memberStacks : List (String × BeadRow)) (tips : String → Option String)
    (contained : List (String × String)) (roots : List String) :
    (Walk.follow memberStacks tips contained (memberStacks.length + roots.length)
      ⟨roots, roots, []⟩).frontier = [] := by
  rw [(stands_start roots).follow.frontier, todo_follow]
  rfl

theorem stackedDependents_nodup :
    ((stackedDependentsFrom memberStacks tips contained roots).map Prod.fst).Nodup :=
  (stands_start roots).follow.once

/-- **What the walk finds**: every member that leads to a root in one step or more, but the roots.
-/
theorem stackedDependents_iff {id : String} :
    id ∈ (stackedDependentsFrom memberStacks tips contained roots).map Prod.fst ↔
      id ∉ roots ∧ ∃ root ∈ roots, TransGen (StackedOn memberStacks tips contained) root id := by
  have hstands : Stands roots (Walk.follow memberStacks tips contained
      (memberStacks.length + roots.length) ⟨roots, roots, []⟩) _ := (stands_start roots).follow
  have hspreading : Worklist.Spreading roots (stackedNext memberStacks tips contained)
      (Worklist.spread (stackedNext memberStacks tips contained)
        (memberStacks.length + roots.length) ⟨roots.reverse, roots.reverse⟩) :=
    Worklist.spreading_spread
      { todo := fun x hx ↦ ⟨x, List.mem_reverse.mp hx, .refl⟩
        seen := fun x hx ↦ ⟨x, List.mem_reverse.mp hx, .refl⟩
        listed := fun _ h ↦ h
        started := fun _ ht ↦ List.mem_reverse.mpr ht
        looked := fun _ hx hno ↦ absurd hx hno }
  have hsteps : (fun a b ↦ b ∈ stackedNext memberStacks tips contained a) =
      StackedOn memberStacks tips contained := by
    ext a b
    exact mem_stackedNext
  -- what is visited is what the roots lead to
  have hvisited : id ∈ (Walk.follow memberStacks tips contained (memberStacks.length + roots.length)
      ⟨roots, roots, []⟩).visited ↔
        ∃ root ∈ roots, ReflTransGen (StackedOn memberStacks tips contained) root id := by
    rw [hstands.visited, List.mem_reverse, ← hsteps]
    refine ⟨hspreading.seen id, fun ⟨root, hroot, hlead⟩ ↦ ?_⟩
    refine Worklist.mem_of_leads (fun x hx ↦ hspreading.looked x hx ?_)
      (hspreading.started root hroot) hlead
    rw [todo_follow]
    exact List.not_mem_nil
  rw [stackedDependentsFrom]
  constructor
  · intro hid
    have hno := hstands.apart id hid
    have hmem := hstands.dependents ▸ List.mem_append_right roots hid
    obtain ⟨root, hroot, hlead⟩ := hvisited.mp hmem
    refine ⟨hno, root, hroot, (reflTransGen_iff_eq_or_transGen.mp hlead).resolve_left ?_⟩
    rintro rfl
    exact hno hroot
  · rintro ⟨hno, root, hroot, hlead⟩
    have hmem := hvisited.mpr ⟨root, hroot, hlead.to_reflTransGen⟩
    rw [hstands.dependents] at hmem
    exact (List.mem_append.mp hmem).resolve_left hno

end Closure

/-! ## Out of the batch -/

section Out

variable {r : Reads} {c c' : Cascade} {id actor : String} {kind : DeliveryEventKind} {at_ : Int}
  {done : List (String × DeliveryEventKind)} {view : View}

/-- The delivery of `id` is planned out of every batch. -/
def Cascade.Out (view : View) (c : Cascade) (id : String) : Prop :=
  ∀ d, rowOf DeliveryRow (c.planned view) (Keys.delivery id) = some d → d.state ≠ .batched

theorem Cascade.Out.frame {keys : List String} (h : c.Out view id) (hf : Frame view keys c c')
    (hk : Keys.delivery id ∉ keys) : c'.Out view id := by
  intro d hd
  rw [rowOf, hf.planned _ hk] at hd
  exact h d hd

/-- A delivery that does not take an exit is not batched, and one that takes it exits. -/
theorem exit_state {row : DeliveryRow} {beadKind : BeadEventKind} (hk : exitKind kind = some beadKind) :
    (Delivery.step row (deliveryEvent row kind actor)).state ≠ .batched := by
  rcases Delivery.step_cases row (deliveryEvent row kind actor) with ⟨hno, heq⟩ | ⟨-, hmove⟩
  · rw [heq]
    intro hstate
    have htakes : TakesExit row kind actor := ⟨.inl hstate, fun hopen ↦ by rw [hstate] at hopen; cases hopen⟩
    rw [(delivery_takes_iff hk).mpr htakes] at hno
    cases hno
  · cases kind with
    | returned reason =>
      generalize Delivery.step row (deliveryEvent row (.returned reason) actor) = row' at hmove
      rcases hmove with ⟨⟩
      exact nofun
    | requeued tip =>
      generalize Delivery.step row (deliveryEvent row (.requeued tip) actor) = row' at hmove
      rcases hmove with ⟨⟩
      exact nofun
    | _ => cases hk

theorem exit_out (h : Sound r.view c) :
    Ends (exit r id kind actor at_) c fun _ c' ↦ c'.Out r.view id := by
  have hbead {beadKind : BeadEventKind} {c' : Cascade} (hs : Sound r.view c') (ho : c'.Out r.view id) :
      Ends (do let _ ← beadStep r id beadKind actor at_) c' fun _ c'' ↦ c''.Out r.view id := by
    refine ends_bind ((beadStep_ends hs).imp fun _ c₂ hstep ↦ ends_pure ?_)
    rcases hstep with ⟨-, hf, -⟩ | ⟨-, rec, -, -, hf, -⟩
    · exact ho.frame hf List.not_mem_nil
    · exact ho.frame hf (by simp [lifecycle_ne_delivery.symm, gate_ne_delivery.symm])
  have hgo {beadKind : BeadEventKind} (hk : exitKind kind = some beadKind) :
      Ends (exitAs r id kind beadKind actor at_) c fun _ c' ↦ c'.Out r.view id := by
    refine ends_bind ((get_frame h).imp fun a c₁ hget ↦ ?_)
    obtain ⟨hf₁, hp₁, -, ha, -⟩ := hget
    cases a with
    | none =>
      refine hbead hf₁.sound fun d hd ↦ ?_
      rw [hp₁, ← ha] at hd
      cases hd
    | some d =>
      refine ends_bind ((deliveryStep_ends hf₁.sound).imp fun _ c₂ hstep ↦ ?_)
      have hstate : (Delivery.step d (deliveryEvent d kind actor)).state ≠ .batched := exit_state hk
      rcases hstep with ⟨hno, -, rfl⟩ | ⟨-, -, hput⟩
      · refine hbead hf₁.sound fun d' hd' ↦ ?_
        rw [hp₁, ← ha] at hd'
        rw [Delivery.step, Delivery.apply_refused hno] at hstate
        rwa [← Option.some.inj hd']
      · refine hbead hput.frame.sound fun d' hd' ↦ ?_
        rw [hput.row] at hd'
        rwa [← Option.some.inj hd']
  cases kind with
  | returned reason => exact hgo rfl
  | requeued tip => exact hgo rfl
  | _ => exact ends_bind ends_throw

/-- The cascade has come to some exits, and whom they are of is planned out. -/
structure Leaving (view : View) (actor : String) (done : List (String × DeliveryEventKind))
    (c : Cascade) : Prop extends Exiting view actor done c where
  out : ∀ e ∈ done, c.Out view e.1

theorem exit_leaving (h : Leaving r.view actor done c) :
    Ends (exit r id kind actor at_) c fun _ c' ↦ Leaving r.view actor (done ++ [(id, kind)]) c' := by
  refine ((exit_ends h.sound).and (exit_out h.sound)).imp fun _ c' ⟨hx, ho⟩ ↦
    ⟨h.toExiting.snoc hx, fun e he ↦ ?_⟩
  by_cases hid : e.1 = id
  · rw [hid]
    exact ho
  · rcases List.mem_append.mp he with he | he
    · exact (h.out e he).frame hx.frame (not_mem_memberKeys hid).1
    · exact absurd (congrArg Prod.fst (List.mem_singleton.mp he)) hid

theorem Leaving.same (h : Leaving view actor done c) (hs : Sound view c')
    (hp : c'.planned view = c.planned view) (hw : c'.Writes = c.Writes) :
    Leaving view actor done c' :=
  ⟨h.toExiting.same hs hp hw, fun e he d hd ↦ h.out e he d (by rwa [hp] at hd)⟩

theorem leaving_forM {α : Type} {l : List α} {f : α → Plan Unit}
    {e : α → List (String × DeliveryEventKind)} (h : Leaving r.view actor done c)
    (hstep : ∀ a done c, Leaving r.view actor done c →
      Ends (f a) c fun _ c' ↦ Leaving r.view actor (done ++ e a) c') :
    Ends (l.forM f) c fun _ c' ↦ Leaving r.view actor (done ++ l.flatMap e) c' := by
  refine (ends_forM (I := fun part c ↦ Leaving r.view actor (done ++ part.flatMap e) c)
    (by simpa using h) fun part a rest _ c hc ↦ (hstep a _ c hc).imp fun _ c' hc' ↦ ?_)
  simpa using hc'

theorem withdraw_leaving {withdrawn : List (String × String)} (h : Leaving r.view actor done c) :
    Ends (withdraw r withdrawn actor at_) c fun _ c' ↦
      Leaving r.view actor (done ++ withdrawn.flatMap fun p ↦ [(p.1, .returned .baseWithdrawn)])
        c' := by
  refine leaving_forM h fun p done c hc ↦ ends_bind ((exit_leaving hc).imp fun _ c' hc' ↦ ?_)
  exact (namePrerequisite_ends hc'.sound.leaves).imp fun _ _ hl ↦ hc'.same hl.sound hl.planned hl.writes

theorem planSettle_leaving {round : String} {ev : BatchEvent} {ejected requeued : List String} :
    Ends (planSettle r round ev ejected requeued at_) {} fun _ c ↦ ∃ key rec, Found r round key rec ∧
      Leaving r.view ev.actor
        (Command.exits r rec (.settle round ev ejected requeued at_)) c := by
  refine ends_bind (round_ends.imp fun a c₁ ⟨hs, _, hw, hfound⟩ ↦ ?_)
  obtain _ | ⟨key, rec⟩ := a
  · exact ends_throw
  have hf := hfound key rec rfl
  refine ends_bind ((batchStep_exiting hf hs hw).imp fun _ c₂ h₂ ↦
    ends_bind ((stackedDependents_exiting h₂).imp fun deps c₃ ⟨hdeps, h₃⟩ ↦ ?_))
  subst hdeps
  have hstart : Leaving r.view ev.actor [] c₃ := ⟨h₃, fun _ he ↦ nomatch he⟩
  refine ends_bind ((leaving_forM hstart fun e done c h ↦ exit_leaving h).imp fun _ c₄ h₄ ↦
    ends_bind ((withdraw_leaving h₄).imp fun _ c₅ h₅ ↦ ?_))
  refine (leaving_forM h₅ (e := fun m ↦
    ((rec.members.find? (·.beadId = m)).map fun member ↦ (m, .requeued member.tip)).toList)
    fun m done c h ↦ ?_).imp fun _ c₆ h₆ ↦ ⟨key, rec, hf, ?_⟩
  · cases rec.members.find? (·.beadId = m) with
    | none => exact ends_pure (by simpa using h)
    | some member => exact exit_leaving h
  · rw [List.nil_append] at h₆
    exact h₆

end Out

/-! ## The parts of a settlement -/

section Parts

variable {r : Reads} {rec : BatchRecord} {ejected requeued : List String} {id : String}

theorem mem_namedMembers :
    id ∈ namedMembers rec ejected ↔ id ∈ ejected ∧ id ∈ rec.members.map (·.beadId) := by
  have hone (named : List String) (e : String) :
      id ∈ (if rec.members.any (·.beadId = e) && !named.contains e then named ++ [e] else named) ↔
        id ∈ named ∨ id = e ∧ id ∈ rec.members.map (·.beadId) := by
    have hany : rec.members.any (·.beadId = e) = true ↔ e ∈ rec.members.map (·.beadId) := by simp
    split
    · rename_i h
      rw [Bool.and_eq_true, hany] at h
      rw [List.mem_append]
      refine or_congr_right ⟨fun hid ↦ ?_, fun hid ↦ hid.1 ▸ List.mem_singleton_self _⟩
      obtain rfl := List.mem_singleton.mp hid
      exact ⟨rfl, h.1⟩
    · rename_i h
      refine ⟨.inl, fun hid ↦ hid.elim (fun hid ↦ hid) fun ⟨heq, hm⟩ ↦ ?_⟩
      by_contra hno
      rw [heq] at hm hno
      exact h (by simpa [hany.mpr hm] using hno)
  have hfold (named : List String) : id ∈ ejected.foldl (fun named e ↦
      if rec.members.any (·.beadId = e) && !named.contains e then named ++ [e] else named) named ↔
        id ∈ named ∨ id ∈ ejected ∧ id ∈ rec.members.map (·.beadId) := by
    induction ejected generalizing named with
    | nil => simp
    | cons e l ih =>
      rw [List.foldl_cons, ih, hone, List.mem_cons]
      tauto
  rw [namedMembers, hfold]
  simp

/-- The records of a round's members, as they are read. -/
def memberStacksOf (r : Reads) (rec : BatchRecord) : List (String × BeadRow) :=
  (pairs rec.members).filterMap fun m ↦
    (recordOf LifecycleRecord r.view (Keys.lifecycle m.1)).map fun l ↦ (m.1, l.row)

/-- A member of the round is stacked on another. -/
def MemberOn (r : Reads) (rec : BatchRecord) : String → String → Prop :=
  StackedOn (memberStacksOf r rec) (tipOf (pairs rec.members))
    (r.branchContainment rec.row (pairs rec.members))

/-- A settlement ejects `id`. -/
def Ejects (rec : BatchRecord) (ejected : List String) (id : String) : Prop :=
  id ∈ ejected ∧ id ∈ rec.members.map (·.beadId)

/-- `id` leads to a member that the settlement ejects, and is not ejected itself. -/
def Follows (r : Reads) (rec : BatchRecord) (ejected : List String) (id : String) : Prop :=
  ¬ Ejects rec ejected id ∧ ∃ root, Ejects rec ejected root ∧ TransGen (MemberOn r rec) root id

/-- A settlement requeues `id`, at the tip the round lists it at. -/
def Requeues (r : Reads) (rec : BatchRecord) (ejected requeued : List String) (id tip : String) :
    Prop :=
  ¬ Ejects rec ejected id ∧ ¬ Follows r rec ejected id ∧ id ∈ requeued ∧
    (rec.members.find? (·.beadId = id)).map (·.tip) = some tip

theorem mem_dependentsOf :
    id ∈ (dependentsOf r rec (namedMembers rec ejected)).map Prod.fst ↔
      Follows r rec ejected id := by
  have hiff : id ∈ (stackedDependentsFrom (memberStacksOf r rec) (tipOf (pairs rec.members))
      (r.branchContainment rec.row (pairs rec.members)) (namedMembers rec ejected)).map Prod.fst ↔ _ :=
    stackedDependents_iff
  simp only [mem_namedMembers] at hiff
  exact hiff

/-- **The parts of a settlement.**  Each id takes the exit of the one part it is in, and no other;
one that is in none takes none. -/
theorem mem_exits_settle {round : String} {ev : BatchEvent} {at_ : Int} {kind : DeliveryEventKind} :
    (id, kind) ∈ Command.exits r rec (.settle round ev ejected requeued at_) ↔
      (Ejects rec ejected id ∧ kind = .returned .batchEjectedRed) ∨
      (Follows r rec ejected id ∧ kind = .returned .baseWithdrawn) ∨
      ∃ tip, Requeues r rec ejected requeued id tip ∧ kind = .requeued tip := by
  have hejects : id ∈ namedMembers rec ejected ↔ Ejects rec ejected id := mem_namedMembers
  have hfollows : id ∈ (dependentsOf r rec (namedMembers rec ejected)).map Prod.fst ↔
      Follows r rec ejected id := mem_dependentsOf
  -- no dependent is filtered out: the roots are not among them
  have hwithdrawn : id ∈ ((dependentsOf r rec (namedMembers rec ejected)).filter
      (!(namedMembers rec ejected).contains ·.1)).map Prod.fst ↔ Follows r rec ejected id := by
    rw [← hfollows, List.mem_map, List.mem_map]
    constructor
    · rintro ⟨p, hp, rfl⟩
      exact ⟨p, List.mem_of_mem_filter hp, rfl⟩
    · rintro ⟨p, hp, rfl⟩
      have hno : p.1 ∉ namedMembers rec ejected := fun h ↦
        (mem_dependentsOf.mp (List.mem_map_of_mem hp)).1 (mem_namedMembers.mp h)
      exact ⟨p, List.mem_filter.mpr ⟨hp, by simpa using hno⟩, rfl⟩
  rw [Command.exits, List.mem_append, List.mem_append, or_assoc]
  refine or_congr ?_ (or_congr ?_ ?_)
  · rw [← hejects, List.mem_flatMap]
    constructor
    · rintro ⟨e, he, hmem⟩
      obtain ⟨rfl, rfl⟩ := Prod.mk.inj (List.mem_singleton.mp hmem)
      exact ⟨he, rfl⟩
    · rintro ⟨he, rfl⟩
      exact ⟨id, he, List.mem_singleton_self _⟩
  · rw [← hwithdrawn, List.mem_flatMap, List.mem_map]
    constructor
    · rintro ⟨p, hp, hmem⟩
      obtain ⟨rfl, rfl⟩ := Prod.mk.inj (List.mem_singleton.mp hmem)
      exact ⟨⟨p, hp, rfl⟩, rfl⟩
    · rintro ⟨⟨p, hp, rfl⟩, rfl⟩
      exact ⟨p, hp, List.mem_singleton_self _⟩
  · rw [List.mem_flatMap]
    constructor
    · rintro ⟨m, hm, hmem⟩
      obtain ⟨member, hmember, heq⟩ := Option.map_eq_some_iff.mp (Option.mem_toList.mp hmem)
      obtain ⟨rfl, rfl⟩ := Prod.mk.inj heq
      obtain ⟨hreq, hcarried⟩ := List.mem_filter.mp hm
      rw [Bool.not_eq_true', Bool.or_eq_false_iff] at hcarried
      refine ⟨member.tip, ⟨mt hejects.mpr ?_, mt hwithdrawn.mpr ?_, hreq, ?_⟩, rfl⟩
      · simpa using hcarried.1
      · intro h
        obtain ⟨p, hp, heq⟩ := List.mem_map.mp h
        have hno := List.any_eq_false.mp hcarried.2 p hp
        exact hno (decide_eq_true heq)
      · rw [hmember]
        rfl
    · rintro ⟨tip, ⟨hnot, hno, hreq, htip⟩, rfl⟩
      obtain ⟨member, hmember, rfl⟩ := Option.map_eq_some_iff.mp htip
      refine ⟨id, List.mem_filter.mpr ⟨hreq, ?_⟩, ?_⟩
      · rw [Bool.not_eq_true', Bool.or_eq_false_iff]
        refine ⟨by simpa using mt hejects.mp hnot, List.any_eq_false.mpr fun p hp heq ↦ ?_⟩
        exact hno (hwithdrawn.mp (List.mem_map.mpr ⟨p, hp, of_decide_eq_true heq⟩))
      · rw [hmember]
        exact Option.mem_toList.mpr rfl

end Parts

/-- The walk ends, and finds each member that leads to a root in one step or more, once, and no
root. What a settlement plans is an exit of each member it ejects, of each that leads to one of
these and of each other one it is asked to requeue, each by its own kind alone; it spares every
other member, and leaves no delivery that it gives an exit in a batch. -/
theorem settle_parts :
    (∀ (memberStacks : List (String × BeadRow)) (tips : String → Option String)
      (contained : List (String × String)) (roots : List String),
      (Walk.follow memberStacks tips contained (memberStacks.length + roots.length)
        ⟨roots, roots, []⟩).frontier = [] ∧
      ((stackedDependentsFrom memberStacks tips contained roots).map Prod.fst).Nodup ∧
      ∀ id, id ∈ (stackedDependentsFrom memberStacks tips contained roots).map Prod.fst ↔
        id ∉ roots ∧ ∃ root ∈ roots, TransGen (StackedOn memberStacks tips contained) root id) ∧
    ∀ (r : Reads) (round : String) (ev : BatchEvent) (ejected requeued : List String) (at_ : Int)
      (c : Cascade), planSettle r round ev ejected requeued at_ {} = .ok ((), c) →
      ∃ key rec exits, Found r round key rec ∧ Exiting r.view ev.actor exits c ∧
        (∀ id kind, (id, kind) ∈ exits ↔
          (Ejects rec ejected id ∧ kind = .returned .batchEjectedRed) ∨
          (Follows r rec ejected id ∧ kind = .returned .baseWithdrawn) ∨
          ∃ tip, Requeues r rec ejected requeued id tip ∧ kind = .requeued tip) ∧
        ∀ e ∈ exits, c.Out r.view e.1 := by
  refine ⟨fun memberStacks tips contained roots ↦ ⟨follow_frontier _ _ _ _, stackedDependents_nodup,
    fun _ ↦ stackedDependents_iff⟩, fun r round ev ejected requeued at_ c hplan ↦ ?_⟩
  obtain ⟨key, rec, hf, hleaving⟩ := planSettle_leaving () c hplan
  exact ⟨key, rec, _, hf, hleaving.toExiting, fun _ _ ↦ mem_exits_settle, hleaving.out⟩

namespace Kept

/-- A round of one member, when its pass is attributed. -/
def attributing : BatchRecord :=
  { Recut.opened "b1" 6 with row := { (Recut.opened "b1" 6).row with state := .attributing } }

def reads : Reads :=
  Reads.only [indexItem attributing ⟨2, 0⟩, roundItem attributing ⟨2, 1⟩ ⟨2, 1⟩]

def settle : BatchEvent := ⟨.attributing, 1, .settle, "op"⟩

theorem found : Found reads "b1" (Keys.batch "h" "b1") attributing where
  index := ⟨indexItem attributing ⟨2, 0⟩, by decide, ⟨"h"⟩, by decide, rfl⟩
  round := by decide

end Kept

/-- A member that no list of a settlement names is left where it is. -/
theorem settle_keeps : ¬ ∀ (r : Reads) (round : String) (ev : BatchEvent)
    (ejected requeued : List String) (at_ : Int) (c : Cascade) (key : String) (rec : BatchRecord),
    planSettle r round ev ejected requeued at_ {} = .ok ((), c) → Found r round key rec →
      ∀ id ∈ rec.members.map (·.beadId), Ejects rec ejected id ∨ Follows r rec ejected id ∨
        ∃ tip, Requeues r rec ejected requeued id tip := by
  intro h
  have hplans : (planSettle Kept.reads "b1" Kept.settle [] [] 9 {}).toOption.isSome = true := by
    decide
  cases hplan : planSettle Kept.reads "b1" Kept.settle [] [] 9 {} with
  | error e =>
    rw [hplan] at hplans
    cases hplans
  | ok p =>
    obtain ⟨⟨⟩, c⟩ := p
    obtain ⟨key, rec, hf, -⟩ := planSettle_leaving () c hplan
    obtain ⟨-, rfl⟩ := hf.unique Kept.found
    rcases h _ _ _ _ _ _ c key _ hplan hf "sp-1" (List.mem_singleton_self _) with
      hno | ⟨-, root, hno, -⟩ | ⟨tip, -, -, hno, -⟩
    · exact absurd hno.1 List.not_mem_nil
    · exact absurd hno.1 List.not_mem_nil
    · exact absurd hno List.not_mem_nil

end Spira.Control
