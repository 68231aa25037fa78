import Mathlib.Algebra.Order.BigOperators.Group.Finset
import Mathlib.Algebra.GroupWithZero.Nat
import Mathlib.Data.List.Nodup
import Mathlib.Logic.Function.Basic
import Mathlib.Logic.Relation
import Mathlib.Order.Nat

/-!
# Strongly connected components

`tarjan` walks a graph with a stack of frames of its own.  A node is numbered where it is discovered
and put on the stack; when its frame is left, and its low link is its own number, what is on the
stack from it on is a component.

Two nodes are in one component exactly when each reaches the other (`mem_tarjan_iff`), and each node
is in one (`nodup_flatten_tarjan`, `mem_flatten_tarjan`).  What the search keeps at every step is
`Search.Inv`.
-/

set_option autoImplicit false

namespace Spira.Strand

open Relation

/-- A graph by adjacency lists: its nodes are the places in the list. -/
abbrev Graph := List (List ℕ)

namespace Graph

variable (g : Graph)

def succ (v : ℕ) : List ℕ := g[v]?.getD []

/-- Every edge is to a node. -/
def Closed : Prop := ∀ l ∈ g, ∀ w ∈ l, w < g.length

instance : Decidable g.Closed := inferInstanceAs (Decidable (∀ l ∈ g, ∀ w ∈ l, w < g.length))

def Edge (v w : ℕ) : Prop := w ∈ g.succ v

def Reach : ℕ → ℕ → Prop := ReflTransGen g.Edge

/-- How many frames and edges there are to go through. -/
def size : ℕ := ∑ v ∈ Finset.range g.length, ((g.succ v).length + 1)

variable {g}

theorem Closed.lt (h : g.Closed) {v w : ℕ} (hw : w ∈ g.succ v) : w < g.length := by
  rw [succ] at hw
  cases hl : g[v]? with
  | none =>
    rw [hl] at hw
    cases hw
  | some l =>
    rw [hl] at hw
    exact h l (List.mem_of_getElem? hl) w hw

end Graph

structure Search where
  /-- The number of a node, where it is discovered; `none` for `usize::MAX`. -/
  index : ℕ → Option ℕ := fun _ ↦ none
  low : ℕ → ℕ := fun _ ↦ 0
  on : ℕ → Bool := fun _ ↦ false
  stack : List ℕ := []
  comps : List (List ℕ) := []
  counter : ℕ := 0
  /-- The frames, the last one first: a node, and how many of its edges were taken. -/
  work : List (ℕ × ℕ) := []

namespace Search

def discover (s : Search) (w : ℕ) : Search :=
  { s with
    index := Function.update s.index w (some s.counter)
    low := Function.update s.low w s.counter
    counter := s.counter + 1
    stack := w :: s.stack
    on := Function.update s.on w true
    work := (w, 0) :: s.work }

/-- `low[v] = low[v].min(i)` -/
def lower (s : Search) (v i : ℕ) : Search :=
  { s with low := Function.update s.low v (min (s.low v) i) }

/-- The stack is popped up to `v`. -/
def popTo (v : ℕ) : List ℕ → (ℕ → Bool) → List ℕ → List ℕ × (ℕ → Bool) × List ℕ
  | [], on, comp => ([], on, comp)
  | w :: stack, on, comp =>
    if w = v then (stack, Function.update on w false, comp ++ [w])
    else popTo v stack (Function.update on w false) (comp ++ [w])

/-- The last frame takes the low link of `v`. -/
def passLow (s : Search) (v : ℕ) : Search :=
  match s.work with
  | (u, _) :: _ => s.lower u (s.low v)
  | [] => s

/-- The frame of `v` is left, over the frames `rest`. -/
def leave (s : Search) (v : ℕ) (rest : List (ℕ × ℕ)) : Search :=
  let s : Search := passLow { s with work := rest } v
  if some (s.low v) = s.index v then
    let (stack, on, comp) := popTo v s.stack s.on []
    { s with stack := stack, on := on, comps := s.comps ++ [comp] }
  else s

/-- One turn of the loop over the frames. -/
def step (g : Graph) (s : Search) : Search :=
  match s.work with
  | [] => s
  | (v, next) :: rest =>
    match (g.succ v)[next]? with
    | some w =>
      let s : Search := { s with work := (v, next + 1) :: rest }
      match s.index w with
      | none => s.discover w
      | some i => if s.on w then s.lower v i else s
    | none => s.leave v rest

/-- The loop over the frames. -/
def visit (g : Graph) : ℕ → Search → Search
  | 0, s => s
  | n + 1, s => if s.work = [] then s else visit g n (s.step g)

def root (g : Graph) (s : Search) (r : ℕ) : Search :=
  match s.index r with
  | some _ => s
  | none => visit g g.size (discover { s with work := [] } r)

end Search

/-- Strongly connected components, in completion order. -/
def tarjan (g : Graph) : List (List ℕ) := ((List.range g.length).foldl (Search.root g) {}).comps

example : tarjan [[1], [2, 4], [0, 0], [3], [3]] = [[3], [4], [2, 1, 0]] := by decide

namespace Search

/-- The number of a node that is discovered. -/
def num (s : Search) (v : ℕ) : ℕ := (s.index v).getD 0

/-- An edge of `v` that its frame has taken, or any where the frame is left. -/
def Taken (g : Graph) (work : List (ℕ × ℕ)) (v w : ℕ) : Prop :=
  ∃ j, (g.succ v)[j]? = some w ∧ ∀ k, (v, k) ∈ work → j < k

/-- What the search keeps: a node that is discovered is on the stack, in the order of the numbers,
or in a component; the frames are of nodes on the stack that reach what is above them; and the low
link of a frame is the least number on the stack that is met from what was discovered under it. -/
structure Inv (g : Graph) (s : Search) : Prop where
  index_lt {v i : ℕ} : s.index v = some i → v < g.length ∧ i < s.counter
  index_inj {v w i : ℕ} : s.index v = some i → s.index w = some i → v = w
  on_iff {v : ℕ} : s.on v = true ↔ v ∈ s.stack
  isSome_iff {v : ℕ} : (s.index v).isSome = true ↔ v ∈ s.stack ∨ v ∈ s.comps.flatten
  nodup : (s.stack ++ s.comps.flatten).Nodup
  sorted : s.stack.Pairwise fun v w ↦ s.num w < s.num v
  closed {v w : ℕ} : v ∈ s.comps.flatten → g.Edge v w → w ∈ s.comps.flatten
  comp {c : List ℕ} {v : ℕ} : c ∈ s.comps → v ∈ c → ∀ w, w ∈ c ↔ g.Reach v w ∧ g.Reach w v
  ne_nil {c : List ℕ} : c ∈ s.comps → c ≠ []
  frames : s.work.Pairwise fun p q ↦ s.num q.1 < s.num p.1
  on_stack {p : ℕ × ℕ} : p ∈ s.work → p.1 ∈ s.stack
  taken {v w : ℕ} : v ∈ s.stack → Taken g s.work v w → (s.index w).isSome = true
  up {v : ℕ} : v ∈ s.stack → ∃ p ∈ s.work, s.num p.1 ≤ s.num v ∧ g.Reach v p.1
  down {p : ℕ × ℕ} {v : ℕ} : p ∈ s.work → v ∈ s.stack → s.num p.1 ≤ s.num v → g.Reach p.1 v
  low_mem {p : ℕ × ℕ} : p ∈ s.work → ∃ u ∈ s.stack, s.num u = s.low p.1 ∧ g.Reach p.1 u
  low_le_num {p : ℕ × ℕ} : p ∈ s.work → s.low p.1 ≤ s.num p.1
  low_le {p : ℕ × ℕ} {x y : ℕ} : p ∈ s.work → x ∈ s.stack → s.num p.1 ≤ s.num x →
    (∀ q ∈ s.work, s.num p.1 < s.num q.1 → s.num x < s.num q.1) → Taken g s.work x y →
      y ∈ s.stack → s.low p.1 ≤ s.num y

variable {g : Graph} {s : Search} {p q : ℕ × ℕ} {u v w x y k i : ℕ} {rest : List (ℕ × ℕ)}

theorem inv_empty : Inv g {} where
  index_lt h := by cases h
  index_inj h := by cases h
  on_iff := by simp
  isSome_iff := by simp
  nodup := by simp
  sorted := List.Pairwise.nil
  closed h := by simp at h
  comp h := by simp at h
  ne_nil h := by simp at h
  frames := List.Pairwise.nil
  on_stack h := by simp at h
  taken h := by simp at h
  up h := by simp at h
  down h := by simp at h
  low_mem h := by simp at h
  low_le_num h := by simp at h
  low_le h := by simp at h

theorem num_of_index (h : s.index v = some i) : s.num v = i := by
  rw [num, h]
  rfl

theorem Inv.index_of_mem (h : Inv g s) (hv : v ∈ s.stack) : s.index v = some (s.num v) := by
  obtain ⟨i, hi⟩ := Option.isSome_iff_exists.mp (h.isSome_iff.mpr (.inl hv))
  rw [num_of_index hi, hi]

theorem Inv.num_inj (h : Inv g s) (hv : v ∈ s.stack) (hw : w ∈ s.stack) (heq : s.num v = s.num w) :
    v = w :=
  h.index_inj (h.index_of_mem hv) (heq ▸ h.index_of_mem hw)

theorem Inv.num_lt (h : Inv g s) (hv : v ∈ s.stack) : s.num v < s.counter :=
  (h.index_lt (h.index_of_mem hv)).2

theorem Inv.not_mem (h : Inv g s) (hw : s.index w = none) : w ∉ s.stack ∧ w ∉ s.comps.flatten := by
  rw [← not_or, ← h.isSome_iff, hw]
  exact Bool.false_ne_true

/-- Nothing but a component's nodes is reached from it. -/
theorem Inv.closed_reach (h : Inv g s) (hv : v ∈ s.comps.flatten) (hreach : g.Reach v w) :
    w ∈ s.comps.flatten := by
  induction hreach with
  | refl => exact hv
  | tail _ hedge ih => exact h.closed ih hedge

/-! ## A node is discovered -/

theorem num_discover_self : (s.discover w).num w = s.counter := by
  have hindex : (s.discover w).index w = some s.counter := Function.update_self ..
  exact num_of_index hindex

theorem num_discover (hne : v ≠ w) : (s.discover w).num v = s.num v := by
  have hindex : (s.discover w).index v = s.index v := Function.update_of_ne hne ..
  rw [num, hindex, num]

theorem taken_of_cons {work : List (ℕ × ℕ)} (h : Taken g (p :: work) v w) : Taken g work v w := by
  obtain ⟨j, hj, hlt⟩ := h
  exact ⟨j, hj, fun k hk ↦ hlt k (List.mem_cons_of_mem p hk)⟩

theorem not_taken_zero {work : List (ℕ × ℕ)} : ¬ Taken g ((v, 0) :: work) v w := by
  rintro ⟨j, -, hlt⟩
  exact Nat.not_lt_zero j (hlt 0 List.mem_cons_self)

theorem Inv.discover (h : Inv g s) (hw : s.index w = none) (hlt : w < g.length)
    (hreach : ∀ p ∈ s.work, g.Reach p.1 w) : Inv g (s.discover w) := by
  obtain ⟨hstack, hcomps⟩ := h.not_mem hw
  have hne {v : ℕ} (hv : v ∈ s.stack) : v ≠ w := fun heq ↦ hstack (heq ▸ hv)
  have hnum {v : ℕ} (hv : v ∈ s.stack) : (s.discover w).num v = s.num v := num_discover (hne hv)
  have hself : (s.discover w).num w = s.counter := num_discover_self
  have hindex {v : ℕ} (hv : v ≠ w) : (s.discover w).index v = s.index v :=
    Function.update_of_ne hv ..
  have hindexSelf : (s.discover w).index w = some s.counter := Function.update_self ..
  have hlow {p : ℕ × ℕ} (hp : p ∈ s.work) : (s.discover w).low p.1 = s.low p.1 :=
    Function.update_of_ne (hne (h.on_stack hp)) ..
  have hlowSelf : (s.discover w).low w = s.counter := Function.update_self ..
  have hwork : (s.discover w).work = (w, 0) :: s.work := rfl
  have hstackEq : (s.discover w).stack = w :: s.stack := rfl
  have htaken {v y : ℕ} (hv : v ∈ w :: s.stack) (hy : Taken g ((w, 0) :: s.work) v y) :
      v ∈ s.stack ∧ Taken g s.work v y := by
    rcases List.mem_cons.mp hv with rfl | hv
    · exact absurd hy not_taken_zero
    · exact ⟨hv, taken_of_cons hy⟩
  constructor
  case index_lt =>
    intro v i hi
    by_cases hv : v = w
    · subst hv
      rw [hindexSelf] at hi
      obtain rfl := Option.some.inj hi
      exact ⟨hlt, Nat.lt_succ_self _⟩
    · rw [hindex hv] at hi
      exact ⟨(h.index_lt hi).1, Nat.lt_succ_of_lt (h.index_lt hi).2⟩
  case index_inj =>
    intro v v' i hv hv'
    by_cases hvw : v = w <;> by_cases hvw' : v' = w
    · rw [hvw, hvw']
    · rw [hvw, hindexSelf] at hv
      rw [hindex hvw', ← hv] at hv'
      exact absurd (h.index_lt hv').2 (Nat.lt_irrefl _)
    · rw [hvw', hindexSelf] at hv'
      rw [hindex hvw, ← hv'] at hv
      exact absurd (h.index_lt hv).2 (Nat.lt_irrefl _)
    · rw [hindex hvw] at hv
      rw [hindex hvw'] at hv'
      exact h.index_inj hv hv'
  case on_iff =>
    intro v
    show Function.update s.on w true v = true ↔ v ∈ w :: s.stack
    by_cases hv : v = w
    · subst hv
      rw [Function.update_self]
      exact iff_of_true rfl List.mem_cons_self
    · rw [Function.update_of_ne hv, h.on_iff, List.mem_cons, or_iff_right hv]
  case isSome_iff =>
    intro v
    rw [hstackEq, List.mem_cons, or_assoc]
    by_cases hv : v = w
    · subst hv
      rw [hindexSelf]
      exact iff_of_true rfl (.inl rfl)
    · rw [hindex hv, h.isSome_iff, or_iff_right hv]
      rfl
  case nodup =>
    refine List.nodup_cons.mpr ⟨?_, h.nodup⟩
    show w ∉ s.stack ++ s.comps.flatten
    rw [List.mem_append]
    exact not_or.mpr ⟨hstack, hcomps⟩
  case sorted =>
    refine List.pairwise_cons.mpr ⟨fun v hv ↦ ?_, h.sorted.imp_of_mem fun hv hv' hlt ↦ ?_⟩
    · rw [hself, hnum hv]
      exact h.num_lt hv
    · rw [hnum hv, hnum hv']
      exact hlt
  case closed => exact h.closed
  case comp => exact h.comp
  case ne_nil => exact h.ne_nil
  case frames =>
    refine List.pairwise_cons.mpr ⟨fun p hp ↦ ?_, h.frames.imp_of_mem fun hp hq hlt ↦ ?_⟩
    · rw [hself, hnum (h.on_stack hp)]
      exact h.num_lt (h.on_stack hp)
    · rw [hnum (h.on_stack hp), hnum (h.on_stack hq)]
      exact hlt
  case on_stack =>
    intro p hp
    rcases List.mem_cons.mp hp with rfl | hp
    · exact List.mem_cons_self
    · exact List.mem_cons_of_mem w (h.on_stack hp)
  case taken =>
    intro v y hv hy
    obtain ⟨hv, hy⟩ := htaken hv hy
    by_cases hyw : y = w
    · rw [hyw, hindexSelf]
      rfl
    · rw [hindex hyw]
      exact h.taken hv hy
  case up =>
    intro v hv
    rcases List.mem_cons.mp hv with rfl | hv
    · exact ⟨(v, 0), List.mem_cons_self, le_rfl, .refl⟩
    · obtain ⟨p, hp, hle, hreach⟩ := h.up hv
      refine ⟨p, List.mem_cons_of_mem _ hp, ?_, hreach⟩
      rw [hnum hv, hnum (h.on_stack hp)]
      exact hle
  case down =>
    intro p v hp hv hle
    obtain hp | hp := List.mem_cons.mp (show p ∈ (w, 0) :: s.work from hp)
    · obtain hv | hv := List.mem_cons.mp (show v ∈ w :: s.stack from hv)
      · rw [hp, hv]
        exact .refl
      · rw [hp, hself, hnum hv] at hle
        exact absurd (h.num_lt hv) (Nat.not_lt.mpr hle)
    · obtain hv | hv := List.mem_cons.mp (show v ∈ w :: s.stack from hv)
      · exact hv ▸ hreach p hp
      · rw [hnum hv, hnum (h.on_stack hp)] at hle
        exact h.down hp hv hle
  case low_mem =>
    intro p hp
    rcases List.mem_cons.mp hp with rfl | hp
    · exact ⟨w, List.mem_cons_self, hself.trans hlowSelf.symm, .refl⟩
    · obtain ⟨u, hu, heq, hreach⟩ := h.low_mem hp
      refine ⟨u, List.mem_cons_of_mem w hu, ?_, hreach⟩
      rw [hnum hu, hlow hp, heq]
  case low_le_num =>
    intro p hp
    rcases List.mem_cons.mp hp with rfl | hp
    · exact (hlowSelf.trans hself.symm).le
    · rw [hlow hp, hnum (h.on_stack hp)]
      exact h.low_le_num hp
  case low_le =>
    intro p x y hp hx hle hseg hy hyin
    obtain ⟨hx, hy⟩ := htaken hx hy
    obtain hp | hp := List.mem_cons.mp (show p ∈ (w, 0) :: s.work from hp)
    · rw [hp, hself, hnum hx] at hle
      exact absurd (h.num_lt hx) (Nat.not_lt.mpr hle)
    · rw [hnum hx, hnum (h.on_stack hp)] at hle
      rw [hlow hp]
      obtain hyin | hyin := List.mem_cons.mp (show y ∈ w :: s.stack from hyin)
      · rw [hyin, hself]
        exact (h.low_le_num hp).trans (h.num_lt (h.on_stack hp)).le
      · rw [hnum hyin]
        refine h.low_le hp hx hle (fun q hq hlt ↦ ?_) hy hyin
        have hlt' := hseg q (List.mem_cons_of_mem _ hq)
        rw [hnum (h.on_stack hp), hnum (h.on_stack hq), hnum hx] at hlt'
        exact hlt' hlt

/-! ## An edge is taken -/

/-- The frame at `pre` has taken one more edge. -/
def advance (s : Search) (pre : List (ℕ × ℕ)) (v k : ℕ) (rest : List (ℕ × ℕ)) : Search :=
  { s with work := pre ++ (v, k + 1) :: rest }

section Frames

variable {pre : List (ℕ × ℕ)}

/-- A node has one frame. -/
theorem Inv.frame_inj (h : Inv g s) (hp : p ∈ s.work) (hq : q ∈ s.work) (heq : p.1 = q.1) :
    p = q := by
  have hpair : s.work.Pairwise fun p q ↦ p.1 = q.1 → p = q :=
    h.frames.imp fun hlt heq ↦ absurd (congrArg s.num heq).symm hlt.ne
  have hflip : s.work.Pairwise (flip fun p q ↦ p.1 = q.1 → p = q) :=
    h.frames.imp fun hlt heq ↦ absurd (congrArg s.num heq) hlt.ne
  exact hpair.forall_of_forall_of_flip (fun _ _ _ ↦ rfl) hflip hp hq heq

theorem mem_advance (hwork : s.work = pre ++ (v, k) :: rest) :
    p ∈ (s.advance pre v k rest).work ↔ p = (v, k + 1) ∨ p ∈ s.work ∧ p ∈ pre ++ rest := by
  show p ∈ pre ++ (v, k + 1) :: rest ↔ _
  rw [hwork]
  simp only [List.mem_append, List.mem_cons]
  tauto

theorem exists_of_mem_advance (hwork : s.work = pre ++ (v, k) :: rest)
    (hp : p ∈ (s.advance pre v k rest).work) : ∃ q ∈ s.work, q.1 = p.1 := by
  obtain rfl | ⟨hp, -⟩ := (mem_advance hwork).mp hp
  · refine ⟨(v, k), ?_, rfl⟩
    rw [hwork]
    exact List.mem_append_right pre List.mem_cons_self
  · exact ⟨p, hp, rfl⟩

theorem exists_mem_advance (hwork : s.work = pre ++ (v, k) :: rest) (hp : p ∈ s.work) :
    ∃ q ∈ (s.advance pre v k rest).work, q.1 = p.1 := by
  rw [hwork, List.mem_append, List.mem_cons] at hp
  obtain hp | rfl | hp := hp
  · exact ⟨p, List.mem_append_left _ hp, rfl⟩
  · exact ⟨(v, k + 1), List.mem_append_right pre List.mem_cons_self, rfl⟩
  · exact ⟨p, List.mem_append_right pre (List.mem_cons_of_mem _ hp), rfl⟩

/-- The edge is the only one that is taken now and was not before. -/
theorem Inv.taken_advance (h : Inv g s) (hwork : s.work = pre ++ (v, k) :: rest)
    (hw : (g.succ v)[k]? = some w) (htaken : Taken g (s.advance pre v k rest).work x y) :
    Taken g s.work x y ∨ x = v ∧ y = w := by
  obtain ⟨j, hj, hlt⟩ := htaken
  by_cases hx : x = v ∧ j = k
  · obtain ⟨rfl, rfl⟩ := hx
    exact .inr ⟨rfl, Option.some.inj (hj.symm.trans hw)⟩
  · refine .inl ⟨j, hj, fun i hi ↦ ?_⟩
    have hvk : (v, k) ∈ s.work := hwork ▸ List.mem_append_right pre List.mem_cons_self
    by_cases hxv : x = v
    · subst hxv
      obtain rfl : i = k := congrArg Prod.snd (h.frame_inj hi hvk rfl)
      have hle : j < i + 1 := hlt (i + 1) ((mem_advance hwork).mpr (.inl rfl))
      have hne : j ≠ i := fun heq ↦ hx ⟨rfl, heq⟩
      omega
    · refine hlt i ((mem_advance hwork).mpr (.inr ⟨hi, ?_⟩))
      rw [hwork, List.mem_append, List.mem_cons] at hi
      obtain hi | hi | hi := hi
      · exact List.mem_append_left rest hi
      · exact absurd (congrArg Prod.fst hi) hxv
      · exact List.mem_append_right pre hi

theorem Inv.advance (h : Inv g s) (hwork : s.work = pre ++ (v, k) :: rest)
    (hw : (g.succ v)[k]? = some w) (hseen : (s.index w).isSome = true)
    (hlow : w ∈ s.stack → s.low v ≤ s.num w) : Inv g (s.advance pre v k rest) where
  index_lt := h.index_lt
  index_inj := h.index_inj
  on_iff := h.on_iff
  isSome_iff := h.isSome_iff
  nodup := h.nodup
  sorted := h.sorted
  closed := h.closed
  comp := h.comp
  ne_nil := h.ne_nil
  frames := by
    have hframes : (s.work.map Prod.fst).Pairwise fun v w ↦ s.num w < s.num v :=
      List.pairwise_map.mpr h.frames
    have hmap : (s.advance pre v k rest).work.map Prod.fst = s.work.map Prod.fst := by
      show (pre ++ (v, k + 1) :: rest).map Prod.fst = _
      rw [hwork, List.map_append, List.map_append]
      rfl
    exact List.pairwise_map.mp (hmap ▸ hframes)
  on_stack := by
    intro p hp
    obtain ⟨q, hq, heq⟩ := exists_of_mem_advance hwork hp
    exact heq ▸ h.on_stack hq
  taken := by
    intro x y hx hy
    obtain hy | ⟨-, rfl⟩ := h.taken_advance hwork hw hy
    · exact h.taken hx hy
    · exact hseen
  up := by
    intro x hx
    obtain ⟨p, hp, hle, hreach⟩ := h.up hx
    obtain ⟨q, hq, heq⟩ := exists_mem_advance hwork hp
    exact ⟨q, hq, heq ▸ hle, heq ▸ hreach⟩
  down := by
    intro p x hp hx hle
    obtain ⟨q, hq, heq⟩ := exists_of_mem_advance hwork hp
    exact heq ▸ h.down hq hx (heq ▸ hle)
  low_mem := by
    intro p hp
    obtain ⟨q, hq, heq⟩ := exists_of_mem_advance hwork hp
    exact heq ▸ h.low_mem hq
  low_le_num := by
    intro p hp
    obtain ⟨q, hq, heq⟩ := exists_of_mem_advance hwork hp
    exact heq ▸ h.low_le_num hq
  low_le := by
    intro p x y hp hx hle hseg hy hyin
    obtain ⟨p', hp', heq⟩ := exists_of_mem_advance hwork hp
    rw [← heq] at hle hseg ⊢
    have hseg' : ∀ q ∈ s.work, s.num p'.1 < s.num q.1 → s.num x < s.num q.1 := by
      intro q hq hlt
      obtain ⟨q', hq', heq'⟩ := exists_mem_advance hwork hq
      exact heq' ▸ hseg q' hq' (heq' ▸ hlt)
    obtain hy | ⟨rfl, rfl⟩ := h.taken_advance hwork hw hy
    · exact h.low_le hp' hx hle hseg' hy hyin
    · -- the frame of the edge is that of `p`: it is not below it, and not above it either
      have hxk : (x, k) ∈ s.work := hwork ▸ List.mem_append_right pre List.mem_cons_self
      have hnum : s.num p'.1 = s.num x := by
        refine hle.antisymm (Nat.le_of_not_lt fun hlt ↦ ?_)
        exact Nat.lt_irrefl _ (hseg' (x, k) hxk hlt)
      have hpx : p'.1 = x := h.num_inj (h.on_stack hp') hx hnum
      exact hpx ▸ hlow hyin

end Frames

/-! ## A low link is lowered -/

theorem Inv.lower (h : Inv g s) (hu : u ∈ s.stack) (hreach : g.Reach v u) :
    Inv g (s.lower v (s.num u)) := by
  have hle (x : ℕ) : (s.lower v (s.num u)).low x ≤ s.low x := by
    by_cases hx : x = v
    · subst hx
      exact (Function.update_self ..).trans_le (min_le_left ..)
    · exact (Function.update_of_ne hx ..).le
  refine { h with low_mem := ?_, low_le_num := ?_, low_le := ?_ }
  · intro p hp
    obtain ⟨x, hx, heq, hpx⟩ := h.low_mem hp
    by_cases hpv : p.1 = v
    · have hlow : (s.lower v (s.num u)).low p.1 = min (s.low v) (s.num u) := by
        rw [hpv]
        exact Function.update_self ..
      rw [hlow]
      by_cases hmin : s.low v ≤ s.num u
      · rw [Nat.min_eq_left hmin]
        exact ⟨x, hx, hpv ▸ heq, hpx⟩
      · rw [Nat.min_eq_right (Nat.le_of_not_le hmin)]
        exact ⟨u, hu, rfl, hpv ▸ hreach⟩
    · exact ⟨x, hx, heq.trans (Function.update_of_ne hpv ..).symm, hpx⟩
  · intro p hp
    exact (hle p.1).trans (h.low_le_num hp)
  · intro p x y hp hx hnum hseg hy hyin
    exact (hle p.1).trans (h.low_le hp hx hnum hseg hy hyin)

/-! ## A frame is left -/

section Leave

variable (hwork : s.work = (v, k) :: rest)
include hwork

/-- All edges of the node were taken, so nothing is missed without the frame. -/
theorem taken_of_rest (hk : (g.succ v)[k]? = none) (h : Taken g rest x y) : Taken g s.work x y := by
  obtain ⟨j, hj, hlt⟩ := h
  refine ⟨j, hj, fun i hi ↦ ?_⟩
  rw [hwork, List.mem_cons, Prod.mk.injEq] at hi
  obtain ⟨rfl, rfl⟩ | hi := hi
  · have hdeg : (g.succ x).length ≤ i := List.getElem?_eq_none_iff.mp hk
    obtain ⟨hj, -⟩ := List.getElem?_eq_some_iff.mp hj
    omega
  · exact hlt i hi

theorem Inv.num_rest_lt (h : Inv g s) (hp : p ∈ rest) : s.num p.1 < s.num v := by
  have hframes := h.frames
  rw [hwork] at hframes
  exact (List.pairwise_cons.mp hframes).1 p hp

theorem Inv.num_le_top (h : Inv g s) (hp : p ∈ s.work) : s.num p.1 ≤ s.num v := by
  rw [hwork, List.mem_cons] at hp
  obtain rfl | hp := hp
  · exact le_rfl
  · exact (h.num_rest_lt hwork hp).le

theorem mem_top : (v, k) ∈ s.work := hwork ▸ List.mem_cons_self

theorem mem_rest (hp : p ∈ rest) : p ∈ s.work := hwork ▸ List.mem_cons_of_mem _ hp

/-- What is on the stack from the top node on reaches it. -/
theorem Inv.reach_top (h : Inv g s) (hx : x ∈ s.stack) : g.Reach x v := by
  obtain ⟨p, hp, hle, hreach⟩ := h.up hx
  have hv : v ∈ s.stack := h.on_stack (mem_top hwork)
  exact hreach.trans (h.down hp hv (h.num_le_top hwork hp))

theorem Inv.frames_rest (h : Inv g s) : rest.Pairwise fun p q ↦ s.num q.1 < s.num p.1 := by
  have hframes := h.frames
  rw [hwork] at hframes
  exact (List.pairwise_cons.mp hframes).2

/-- A node that reaches below itself stays on the stack, under the frame before. -/
theorem Inv.pop (h : Inv g s) (hk : (g.succ v)[k]? = none) (hlow : s.low v ≠ s.num v)
    (hhead : ∀ p, rest.head? = some p → s.low p.1 ≤ s.low v) : Inv g { s with work := rest } := by
  have hv : v ∈ s.stack := h.on_stack (mem_top hwork)
  have hframes : rest.Pairwise fun p q ↦ s.num q.1 < s.num p.1 := h.frames_rest hwork
  refine { h with
    frames := hframes, on_stack := ?_, taken := ?_, up := ?_, down := ?_, low_mem := ?_
    low_le_num := ?_, low_le := ?_ }
  · intro p hp
    exact h.on_stack (mem_rest hwork hp)
  · intro x y hx hy
    exact h.taken hx (taken_of_rest hwork hk hy)
  · intro x hx
    obtain ⟨p, hp, hle, hreach⟩ := h.up hx
    rw [hwork, List.mem_cons] at hp
    obtain rfl | hp := hp
    · obtain ⟨u, hu, hnum, hvu⟩ := h.low_mem (mem_top hwork)
      obtain ⟨q, hq, hqu, huq⟩ := h.up hu
      have hlt : s.num u < s.num v :=
        hnum ▸ Nat.lt_of_le_of_ne (h.low_le_num (mem_top hwork)) hlow
      rw [hwork, List.mem_cons] at hq
      obtain rfl | hq := hq
      · exact absurd hqu (Nat.not_le_of_lt hlt)
      · exact ⟨q, hq, hqu.trans (hlt.le.trans hle), hreach.trans (hvu.trans huq)⟩
    · exact ⟨p, hp, hle, hreach⟩
  · intro p x hp hx hle
    exact h.down (mem_rest hwork hp) hx hle
  · intro p hp
    exact h.low_mem (mem_rest hwork hp)
  · intro p hp
    exact h.low_le_num (mem_rest hwork hp)
  · intro p x y hp hx hle hseg hy hyin
    have hy' : Taken g s.work x y := taken_of_rest hwork hk hy
    by_cases hvx : s.num v ≤ s.num x
    · -- `x` was discovered under `v`, so `p` is the frame that `v` was discovered from
      have hlv : s.low v ≤ s.num y := by
        refine h.low_le (mem_top hwork) hx hvx (fun q hq hlt ↦ ?_) hy' hyin
        exact absurd (h.num_le_top hwork hq) (Nat.not_le_of_lt hlt)
      refine (hhead p ?_).trans hlv
      cases rest with
      | nil => cases hp
      | cons q rest =>
        have hpq : ¬ s.num p.1 < s.num q.1 := by
          intro hlt
          have hxq : s.num x < s.num q.1 := hseg q List.mem_cons_self hlt
          exact Nat.lt_irrefl _ (hxq.trans ((h.num_rest_lt hwork List.mem_cons_self).trans_le hvx))
        rcases List.mem_cons.mp hp with rfl | hp
        · rfl
        · exact absurd ((List.pairwise_cons.mp (h.frames_rest hwork)).1 p hp) hpq
    · refine h.low_le (mem_rest hwork hp) hx hle (fun q hq hlt ↦ ?_) hy' hyin
      rw [hwork, List.mem_cons] at hq
      obtain rfl | hq := hq
      · exact Nat.lt_of_not_le hvx
      · exact hseg q hq hlt

end Leave

section Close

variable {pre post : List ℕ} {on : ℕ → Bool}

theorem exists_popTo (on : ℕ → Bool) (comp : List ℕ) (hv : v ∉ pre) :
    ∃ on', popTo v (pre ++ v :: post) on comp = (post, on', comp ++ (pre ++ [v])) ∧
      ∀ x, on' x = true ↔ on x = true ∧ x ∉ pre ++ [v] := by
  induction pre generalizing on comp with
  | nil =>
    refine ⟨Function.update on v false, if_pos rfl, fun x ↦ ?_⟩
    by_cases hx : x = v
    · subst hx
      rw [Function.update_self]
      refine iff_of_false Bool.false_ne_true fun h ↦ h.2 List.mem_cons_self
    · rw [Function.update_of_ne hx]
      refine (and_iff_left ?_).symm
      rw [List.nil_append, List.mem_singleton]
      exact hx
  | cons w pre ih =>
    have hne : w ≠ v := fun h ↦ hv (h ▸ List.mem_cons_self)
    obtain ⟨on', hpop, hon⟩ := ih (Function.update on w false) (comp ++ [w])
      fun h ↦ hv (List.mem_cons_of_mem w h)
    refine ⟨on', ?_, fun x ↦ ?_⟩
    · rw [List.cons_append, popTo, if_neg hne, hpop, List.append_assoc]
      rfl
    · rw [hon, List.cons_append, List.mem_cons, not_or, ← and_assoc]
      refine and_congr_left' ?_
      by_cases hx : x = w
      · subst hx
        rw [Function.update_self]
        exact iff_of_false Bool.false_ne_true fun h ↦ h.2 rfl
      · rw [Function.update_of_ne hx]
        exact (and_iff_left hx).symm

/-- What is on the stack from the node on is a component. -/
def close (s : Search) (v : ℕ) (pre post : List ℕ) (on : ℕ → Bool) (rest : List (ℕ × ℕ)) :
    Search :=
  { s with stack := post, on := on, comps := s.comps ++ [pre ++ [v]], work := rest }

variable (hwork : s.work = (v, k) :: rest) (hstack : s.stack = pre ++ v :: post)
include hwork hstack

omit hwork in
theorem mem_stack : x ∈ s.stack ↔ x ∈ pre ++ [v] ∨ x ∈ post := by
  rw [hstack, List.append_cons, List.mem_append]

omit hwork in
/-- The component is what has its number from the node's on. -/
theorem Inv.mem_component_iff (h : Inv g s) : x ∈ pre ++ [v] ↔ x ∈ s.stack ∧ s.num v ≤ s.num x := by
  have hsorted := h.sorted
  rw [hstack, List.pairwise_append, List.pairwise_cons] at hsorted
  obtain ⟨-, ⟨hpost, -⟩, hpre⟩ := hsorted
  constructor
  · intro hx
    refine ⟨(mem_stack hstack).mpr (.inl hx), ?_⟩
    rw [List.mem_append, List.mem_singleton] at hx
    obtain hx | rfl := hx
    · exact (hpre x hx v List.mem_cons_self).le
    · exact le_rfl
  · rintro ⟨hx, hle⟩
    exact ((mem_stack hstack).mp hx).resolve_right fun hx ↦ Nat.not_le_of_lt (hpost x hx) hle

omit hwork in
theorem Inv.mem_post_iff (h : Inv g s) : x ∈ post ↔ x ∈ s.stack ∧ s.num x < s.num v := by
  have hsorted := h.sorted
  rw [hstack, List.pairwise_append, List.pairwise_cons] at hsorted
  constructor
  · intro hx
    exact ⟨(mem_stack hstack).mpr (.inr hx), hsorted.2.1.1 x hx⟩
  · rintro ⟨hx, hlt⟩
    refine ((mem_stack hstack).mp hx).resolve_left fun hx ↦ ?_
    exact Nat.not_le_of_lt hlt ((h.mem_component_iff hstack).mp hx).2

theorem Inv.mem_post (h : Inv g s) (hp : p ∈ rest) : p.1 ∈ post :=
  (h.mem_post_iff hstack).mpr ⟨h.on_stack (mem_rest hwork hp), h.num_rest_lt hwork hp⟩

/-- From the component no node but its own is reached, and those of components before. -/
theorem Inv.component_closed (h : Inv g s) (hk : (g.succ v)[k]? = none) (hlow : s.low v = s.num v)
    (hx : x ∈ pre ++ [v]) (hedge : g.Edge x y) : y ∈ pre ++ [v] ∨ y ∈ s.comps.flatten := by
  obtain ⟨hxin, hle⟩ := (h.mem_component_iff hstack).mp hx
  obtain ⟨j, hj⟩ := List.mem_iff_getElem?.mp hedge
  have hy : Taken g s.work x y := by
    refine taken_of_rest hwork hk ⟨j, hj, fun i hi ↦ ?_⟩
    exact absurd (h.num_rest_lt hwork hi) (Nat.not_lt_of_le hle)
  obtain hyin | hyin := h.isSome_iff.mp (h.taken hxin hy)
  · refine .inl ((h.mem_component_iff hstack).mpr ⟨hyin, hlow ▸ ?_⟩)
    refine h.low_le (mem_top hwork) hxin hle (fun q hq hlt ↦ ?_) hy hyin
    exact absurd (h.num_le_top hwork hq) (Nat.not_le_of_lt hlt)
  · exact .inr hyin

theorem Inv.component_reach (h : Inv g s) (hk : (g.succ v)[k]? = none) (hlow : s.low v = s.num v)
    (hx : x ∈ pre ++ [v]) (hreach : g.Reach x y) : y ∈ pre ++ [v] ∨ y ∈ s.comps.flatten := by
  induction hreach with
  | refl => exact .inl hx
  | tail _ hedge ih =>
    obtain ih | ih := ih
    · exact h.component_closed hwork hstack hk hlow ih hedge
    · exact .inr (h.closed ih hedge)

theorem Inv.component (h : Inv g s) (hk : (g.succ v)[k]? = none) (hlow : s.low v = s.num v)
    (hx : x ∈ pre ++ [v]) : y ∈ pre ++ [v] ↔ g.Reach x y ∧ g.Reach y x := by
  have hv : (v, k) ∈ s.work := mem_top hwork
  have hmutual {z : ℕ} (hz : z ∈ pre ++ [v]) : g.Reach v z ∧ g.Reach z v := by
    obtain ⟨hzin, hle⟩ := (h.mem_component_iff hstack).mp hz
    exact ⟨h.down hv hzin hle, h.reach_top hwork hzin⟩
  constructor
  · intro hy
    exact ⟨(hmutual hx).2.trans (hmutual hy).1, (hmutual hy).2.trans (hmutual hx).1⟩
  · rintro ⟨hxy, hyx⟩
    refine (h.component_reach hwork hstack hk hlow hx hxy).resolve_right fun hy ↦ ?_
    have hxin : x ∈ s.stack := ((h.mem_component_iff hstack).mp hx).1
    exact (List.disjoint_of_nodup_append h.nodup) hxin (h.closed_reach hy hyx)

theorem Inv.close (h : Inv g s) (hk : (g.succ v)[k]? = none) (hlow : s.low v = s.num v)
    (hon : ∀ x, on x = true ↔ s.on x = true ∧ x ∉ pre ++ [v]) :
    Inv g (s.close v pre post on rest) := by
  have hflat : (s.close v pre post on rest).comps.flatten = s.comps.flatten ++ (pre ++ [v]) := by
    show (s.comps ++ [pre ++ [v]]).flatten = _
    rw [List.flatten_append, List.flatten_singleton]
  have hstackIn {x : ℕ} (hx : x ∈ post) : x ∈ s.stack := (mem_stack hstack).mpr (.inr hx)
  have hframes : rest.Pairwise fun p q ↦ s.num q.1 < s.num p.1 := h.frames_rest hwork
  have hnodup := h.nodup
  rw [hstack, List.append_cons, List.append_assoc] at hnodup
  constructor
  case index_lt => exact h.index_lt
  case index_inj => exact h.index_inj
  case on_iff =>
    intro x
    show on x = true ↔ x ∈ post
    rw [hon, h.on_iff, mem_stack hstack]
    constructor
    · rintro ⟨hx, hnot⟩
      exact hx.resolve_left hnot
    · intro hx
      refine ⟨.inr hx, fun hcomp ↦ ?_⟩
      exact List.disjoint_of_nodup_append hnodup hcomp (List.mem_append_left _ hx)
  case isSome_iff =>
    intro x
    rw [hflat, List.mem_append]
    show (s.index x).isSome = true ↔ x ∈ post ∨ _
    rw [h.isSome_iff, mem_stack hstack]
    tauto
  case nodup =>
    rw [hflat]
    show (post ++ (s.comps.flatten ++ (pre ++ [v]))).Nodup
    rw [← List.append_assoc]
    exact List.nodup_append_comm.mp hnodup
  case sorted =>
    have hsorted := h.sorted
    rw [hstack, List.pairwise_append, List.pairwise_cons] at hsorted
    exact hsorted.2.1.2
  case closed =>
    intro x y hx hedge
    rw [hflat, List.mem_append] at hx ⊢
    obtain hx | hx := hx
    · exact .inl (h.closed hx hedge)
    · exact (h.component_closed hwork hstack hk hlow hx hedge).symm
  case comp =>
    intro c x hc hx
    obtain hc | hc := List.mem_append.mp (show c ∈ s.comps ++ [pre ++ [v]] from hc)
    · exact h.comp hc hx
    · obtain rfl := List.mem_singleton.mp hc
      exact fun y ↦ h.component hwork hstack hk hlow hx
  case ne_nil =>
    intro c hc
    obtain hc | hc := List.mem_append.mp (show c ∈ s.comps ++ [pre ++ [v]] from hc)
    · exact h.ne_nil hc
    · rw [List.mem_singleton.mp hc]
      exact List.append_ne_nil_of_right_ne_nil pre (List.cons_ne_nil v [])
  case frames => exact hframes
  case on_stack =>
    intro p hp
    exact h.mem_post hwork hstack hp
  case taken =>
    intro x y hx hy
    exact h.taken (hstackIn hx) (taken_of_rest hwork hk hy)
  case up =>
    intro x hx
    obtain ⟨p, hp, hle, hreach⟩ := h.up (hstackIn hx)
    rw [hwork, List.mem_cons] at hp
    obtain rfl | hp := hp
    · exact absurd ((h.mem_post_iff hstack).mp hx).2 (Nat.not_lt_of_le hle)
    · exact ⟨p, hp, hle, hreach⟩
  case down =>
    intro p x hp hx hle
    exact h.down (mem_rest hwork hp) (hstackIn hx) hle
  case low_mem =>
    intro p hp
    obtain ⟨u, hu, hnum, hreach⟩ := h.low_mem (mem_rest hwork hp)
    refine ⟨u, (h.mem_post_iff hstack).mpr ⟨hu, ?_⟩, hnum, hreach⟩
    have hle : s.low p.1 ≤ s.num p.1 := h.low_le_num (mem_rest hwork hp)
    exact (hnum ▸ hle).trans_lt (h.num_rest_lt hwork hp)
  case low_le_num =>
    intro p hp
    exact h.low_le_num (mem_rest hwork hp)
  case low_le =>
    intro p x y hp hx hle hseg hy hyin
    refine h.low_le (mem_rest hwork hp) (hstackIn hx) hle (fun q hq hlt ↦ ?_)
      (taken_of_rest hwork hk hy) (hstackIn hyin)
    rw [hwork, List.mem_cons] at hq
    obtain rfl | hq := hq
    · exact ((h.mem_post_iff hstack).mp hx).2
    · exact hseg q hq hlt

end Close

section Leave

variable (hwork : s.work = (v, k) :: rest)
include hwork

/-- The low link is passed on before the frame is left. -/
theorem Inv.exists_passLow (h : Inv g s) : ∃ t : Search, Inv g t ∧ t.work = s.work ∧
    passLow { s with work := rest } v = { t with work := rest } ∧
    ∀ p, rest.head? = some p → t.low p.1 ≤ t.low v := by
  have hv : v ∈ s.stack := h.on_stack (mem_top hwork)
  cases rest with
  | nil => exact ⟨s, h, rfl, rfl, fun p hp ↦ by cases hp⟩
  | cons p rest =>
    have hlt : s.num p.1 < s.num v := h.num_rest_lt hwork List.mem_cons_self
    obtain ⟨u, hu, hnum, hvu⟩ := h.low_mem (mem_top hwork)
    have hreach : g.Reach p.1 u :=
      (h.down (mem_rest hwork List.mem_cons_self) hv hlt.le).trans hvu
    refine ⟨s.lower p.1 (s.low v), hnum ▸ h.lower hu hreach, rfl, rfl, fun q hq ↦ ?_⟩
    obtain rfl : p = q := Option.some.inj hq
    have hne : v ≠ p.1 := fun heq ↦ Nat.lt_irrefl _ (heq ▸ hlt)
    have hself : (s.lower p.1 (s.low v)).low p.1 = min (s.low p.1) (s.low v) :=
      Function.update_self ..
    have hother : (s.lower p.1 (s.low v)).low v = s.low v := Function.update_of_ne hne ..
    rw [hself, hother]
    exact Nat.min_le_right _ _

theorem Inv.leave (h : Inv g s) (hk : (g.succ v)[k]? = none) : Inv g (s.leave v rest) := by
  obtain ⟨t, ht, htwork, hpass, hhead⟩ := h.exists_passLow hwork
  rw [hwork] at htwork
  have hv : v ∈ t.stack := ht.on_stack (mem_top htwork)
  have hindex : t.index v = some (t.num v) := ht.index_of_mem hv
  rw [Search.leave, hpass]
  by_cases hlow : t.low v = t.num v
  · obtain ⟨pre, post, hstack, hpre⟩ := List.eq_append_cons_of_mem hv
    obtain ⟨on, hpop, hon⟩ := exists_popTo t.on [] hpre
    dsimp only
    rw [if_pos (show some (t.low v) = t.index v from hlow ▸ hindex.symm), hstack, hpop]
    exact ht.close htwork hstack hk hlow hon
  · have hne : some (t.low v) ≠ t.index v := fun heq ↦ hlow (Option.some.inj (heq.trans hindex))
    dsimp only
    rw [if_neg hne]
    exact ht.pop htwork hk hlow hhead

end Leave

/-! ## A run -/

theorem step_nil (hwork : s.work = []) : s.step g = s := by
  rw [step, hwork]

section Step

variable (hwork : s.work = (v, k) :: rest)
include hwork

theorem step_discover (hw : (g.succ v)[k]? = some w) (hindex : s.index w = none) :
    s.step g = (s.discover w).advance [(w, 0)] v k rest := by
  rw [step, hwork]
  dsimp only
  rw [hw]
  dsimp only
  rw [hindex]
  rfl

theorem step_lower (hw : (g.succ v)[k]? = some w) (hindex : s.index w = some i)
    (hon : s.on w = true) : s.step g = (s.lower v i).advance [] v k rest := by
  rw [step, hwork]
  dsimp only
  rw [hw]
  dsimp only
  rw [hindex]
  exact if_pos hon

theorem step_pass (hw : (g.succ v)[k]? = some w) (hindex : s.index w = some i)
    (hon : ¬ s.on w = true) : s.step g = s.advance [] v k rest := by
  rw [step, hwork]
  dsimp only
  rw [hw]
  dsimp only
  rw [hindex]
  exact if_neg hon

theorem step_leave (hk : (g.succ v)[k]? = none) : s.step g = s.leave v rest := by
  rw [step, hwork]
  dsimp only
  rw [hk]

end Step

theorem Inv.step (hg : g.Closed) (h : Inv g s) : Inv g (s.step g) := by
  rcases hwork : s.work with _ | ⟨⟨v, k⟩, rest⟩
  · rw [step_nil hwork]
    exact h
  have hmem : (v, k) ∈ s.work := mem_top hwork
  have hv : v ∈ s.stack := h.on_stack hmem
  rcases hw : (g.succ v)[k]? with _ | w
  · rw [step_leave hwork hw]
    exact h.leave hwork hw
  have hedge : g.Edge v w := List.mem_of_getElem? hw
  rcases hindex : s.index w with _ | i
  · rw [step_discover hwork hw hindex]
    have hdiscover : Inv g (s.discover w) :=
      h.discover hindex (hg.lt hedge) fun p hp ↦ (h.down hp hv (h.num_le_top hwork hp)).tail hedge
    have hself : (s.discover w).index w = some s.counter := Function.update_self ..
    have hwork' : (s.discover w).work = [(w, 0)] ++ (v, k) :: rest := by
      show (w, 0) :: s.work = _
      rw [hwork]
      rfl
    refine hdiscover.advance hwork' hw (hself ▸ rfl) fun _ ↦ ?_
    have hmem' : (v, k) ∈ (s.discover w).work := List.mem_cons_of_mem _ hmem
    have hlt : (s.discover w).num v < s.counter + 1 := hdiscover.num_lt (hdiscover.on_stack hmem')
    rw [num_discover_self]
    exact (hdiscover.low_le_num hmem').trans (Nat.le_of_lt_succ hlt)
  · by_cases hon : s.on w = true
    · rw [step_lower hwork hw hindex hon]
      have hnum : s.num w = i := num_of_index hindex
      have hlower : Inv g (s.lower v i) := hnum ▸ h.lower (h.on_iff.mp hon) (.single hedge)
      have hself : (s.lower v i).low v = min (s.low v) i := Function.update_self ..
      refine hlower.advance hwork hw (Option.isSome_iff_exists.mpr ⟨i, hindex⟩) fun _ ↦ ?_
      rw [hself]
      exact (Nat.min_le_right _ _).trans hnum.ge
    · rw [step_pass hwork hw hindex hon]
      refine h.advance hwork hw (Option.isSome_iff_exists.mpr ⟨i, hindex⟩) fun hin ↦ ?_
      exact absurd (h.on_iff.mpr hin) hon

/-- How many frames and edges there are still to go through. -/
def left (g : Graph) (s : Search) : ℕ :=
  ∑ v ∈ Finset.range g.length with s.index v = none, ((g.succ v).length + 1) +
    (s.work.map fun p ↦ (g.succ p.1).length - p.2 + 1).sum

theorem left_discover (hw : s.index w = none) (hlt : w < g.length) :
    (s.discover w).left g = s.left g := by
  have hmem : w ∈ {v ∈ Finset.range g.length | s.index v = none} :=
    Finset.mem_filter.mpr ⟨Finset.mem_range.mpr hlt, hw⟩
  have herase : {v ∈ Finset.range g.length | (s.discover w).index v = none} =
      ({v ∈ Finset.range g.length | s.index v = none} : Finset ℕ).erase w := by
    ext v
    rw [Finset.mem_erase, Finset.mem_filter, Finset.mem_filter]
    show v ∈ Finset.range g.length ∧ Function.update s.index w _ v = none ↔ _
    by_cases hv : v = w
    · subst hv
      rw [Function.update_self]
      exact iff_of_false (fun h ↦ Option.some_ne_none _ h.2) fun h ↦ h.1 rfl
    · rw [Function.update_of_ne hv]
      exact (and_iff_right hv).symm
  rw [left, left, herase, ← Finset.add_sum_erase _ _ hmem]
  show _ + (((g.succ w).length - 0 + 1) + (s.work.map _).sum) = _
  omega

theorem left_advance {pre : List (ℕ × ℕ)} (hwork : s.work = pre ++ (v, k) :: rest)
    (hk : k < (g.succ v).length) : (s.advance pre v k rest).left g + 1 = s.left g := by
  rw [left, left, hwork]
  show ∑ v ∈ Finset.range g.length with s.index v = none, ((g.succ v).length + 1) +
    ((pre ++ (v, k + 1) :: rest).map _).sum + 1 = _
  rw [List.map_append, List.map_append, List.sum_append, List.sum_append, List.map_cons,
    List.map_cons, List.sum_cons, List.sum_cons]
  dsimp only
  omega

theorem leave_work : (s.leave v rest).work = rest := by
  have hpass : (passLow { s with work := rest } v).work = rest := by
    cases rest <;> rfl
  rw [leave]
  dsimp only
  split <;> exact hpass

theorem leave_index : (s.leave v rest).index = s.index := by
  have hpass : (passLow { s with work := rest } v).index = s.index := by
    cases rest <;> rfl
  rw [leave]
  dsimp only
  split <;> exact hpass

theorem left_step (hg : g.Closed) (hwork : s.work = (v, k) :: rest) :
    (s.step g).left g < s.left g := by
  rcases hw : (g.succ v)[k]? with _ | w
  · rw [step_leave hwork hw, left, left, leave_work, leave_index, hwork, List.map_cons,
      List.sum_cons]
    omega
  have hk : k < (g.succ v).length := (List.getElem?_eq_some_iff.mp hw).1
  rcases hindex : s.index w with _ | i
  · rw [step_discover hwork hw hindex, ← left_discover hindex (hg.lt (List.mem_of_getElem? hw))]
    have hwork' : (s.discover w).work = [(w, 0)] ++ (v, k) :: rest := by
      show (w, 0) :: s.work = _
      rw [hwork]
      rfl
    exact (left_advance hwork' hk).le
  · by_cases hon : s.on w = true
    · rw [step_lower hwork hw hindex hon]
      exact (left_advance (show (s.lower v i).work = [] ++ (v, k) :: rest from hwork) hk).le
    · rw [step_pass hwork hw hindex hon]
      exact (left_advance (show s.work = [] ++ (v, k) :: rest from hwork) hk).le

theorem step_index (h : (s.index x).isSome = true) : ((s.step g).index x).isSome = true := by
  rcases hwork : s.work with _ | ⟨⟨v, k⟩, rest⟩
  · rw [step_nil hwork]
    exact h
  rcases hw : (g.succ v)[k]? with _ | w
  · rw [step_leave hwork hw, leave_index]
    exact h
  rcases hindex : s.index w with _ | i
  · rw [step_discover hwork hw hindex]
    have hne : x ≠ w := by
      rintro rfl
      rw [hindex] at h
      cases h
    have hsame : (s.discover w).index x = s.index x := Function.update_of_ne hne ..
    exact (congrArg Option.isSome hsame).trans h
  · by_cases hon : s.on w = true
    · rw [step_lower hwork hw hindex hon]
      exact h
    · rw [step_pass hwork hw hindex hon]
      exact h

/-- The loop over the frames ends, and keeps what was discovered before. -/
theorem Inv.visit (hg : g.Closed) {n : ℕ} (h : Inv g s) (hn : s.left g ≤ n) :
    Inv g (visit g n s) ∧ (visit g n s).work = [] ∧
      ∀ x, (s.index x).isSome = true → ((visit g n s).index x).isSome = true := by
  induction n generalizing s with
  | zero =>
    refine ⟨h, ?_, fun x hx ↦ hx⟩
    rw [left] at hn
    cases hwork : s.work with
    | nil => exact hwork
    | cons p rest =>
      rw [hwork, List.map_cons, List.sum_cons] at hn
      omega
  | succ n ih =>
    rw [Search.visit]
    cases hwork : s.work with
    | nil =>
      rw [if_pos rfl]
      exact ⟨h, hwork, fun x hx ↦ hx⟩
    | cons p rest =>
      rw [if_neg (List.cons_ne_nil p rest)]
      have hlt : (s.step g).left g < s.left g := left_step hg hwork
      obtain ⟨hinv, hend, hindex⟩ := ih (h.step hg) (by omega)
      exact ⟨hinv, hend, fun x hx ↦ hindex x (step_index hx)⟩

theorem Inv.root (hg : g.Closed) (h : Inv g s) (hwork : s.work = []) {r : ℕ} (hr : r < g.length) :
    Inv g (root g s r) ∧ (root g s r).work = [] ∧ ((root g s r).index r).isSome = true ∧
      ∀ x, (s.index x).isSome = true → ((root g s r).index x).isSome = true := by
  rw [Search.root]
  cases hindex : s.index r with
  | some i =>
    refine ⟨h, hwork, ?_, fun x hx ↦ hx⟩
    dsimp only
    rw [hindex]
    rfl
  | none =>
    have hs : { s with work := [] } = s := by
      rw [← hwork]
    dsimp only
    rw [hs]
    have hdiscover : Inv g (s.discover r) := by
      refine h.discover hindex hr fun p hp ↦ ?_
      rw [hwork] at hp
      cases hp
    have hleft : (s.discover r).left g ≤ g.size := by
      rw [left_discover hindex hr, left, hwork]
      show ∑ v ∈ Finset.range g.length with s.index v = none, ((g.succ v).length + 1) ≤ _
      exact Finset.sum_le_sum_of_subset (Finset.filter_subset (s.index · = none) _)
    obtain ⟨hinv, hend, hkeep⟩ := hdiscover.visit hg hleft
    refine ⟨hinv, hend, hkeep r ?_, fun x hx ↦ hkeep x ?_⟩
    · have hself : (s.discover r).index r = some s.counter := Function.update_self ..
      rw [hself]
      rfl
    · have hne : x ≠ r := by
        rintro rfl
        rw [hindex] at hx
        cases hx
      have hsame : (s.discover r).index x = s.index x := Function.update_of_ne hne ..
      exact (congrArg Option.isSome hsame).trans hx

/-- The search after the roots below `r`. -/
def upTo (g : Graph) (r : ℕ) : Search := (List.range r).foldl (root g) {}

theorem inv_upTo (hg : g.Closed) {r : ℕ} (hr : r ≤ g.length) : Inv g (upTo g r) ∧
    (upTo g r).work = [] ∧ ∀ x, x < r → ((upTo g r).index x).isSome = true := by
  induction r with
  | zero => exact ⟨inv_empty, rfl, fun x hx ↦ absurd hx (Nat.not_lt_zero x)⟩
  | succ r ih =>
    obtain ⟨hinv, hwork, hindex⟩ := ih (Nat.le_of_succ_le hr)
    obtain ⟨hinv', hwork', hself, hkeep⟩ := hinv.root hg hwork hr
    have hsucc : upTo g (r + 1) = root g (upTo g r) r := by
      rw [upTo, List.range_succ, List.foldl_append]
      rfl
    rw [hsucc]
    refine ⟨hinv', hwork', fun x hx ↦ ?_⟩
    obtain hx | rfl := Nat.lt_succ_iff_lt_or_eq.mp hx
    · exact hkeep x (hindex x hx)
    · exact hself

end Search

section Tarjan

variable {g : Graph}

/-- At the end every node is in a component. -/
theorem mem_flatten_tarjan (hg : g.Closed) {v : ℕ} : v ∈ (tarjan g).flatten ↔ v < g.length := by
  obtain ⟨hinv, hwork, hindex⟩ := Search.inv_upTo hg (Nat.le_refl g.length)
  have hstack : v ∉ (Search.upTo g g.length).stack := by
    intro hv
    obtain ⟨p, hp, -⟩ := hinv.up hv
    rw [hwork] at hp
    cases hp
  have hsome : ((Search.upTo g g.length).index v).isSome = true ↔ v ∈ (tarjan g).flatten :=
    hinv.isSome_iff.trans (or_iff_right hstack)
  rw [← hsome]
  constructor
  · intro h
    obtain ⟨i, hi⟩ := Option.isSome_iff_exists.mp h
    exact (hinv.index_lt hi).1
  · exact hindex v

theorem nodup_flatten_tarjan (hg : g.Closed) : (tarjan g).flatten.Nodup :=
  (List.nodup_append.mp (Search.inv_upTo hg (Nat.le_refl g.length)).1.nodup).2.1

/-- **The components are those of the graph**: with a node, what it reaches and is reached from. -/
theorem mem_tarjan_iff (hg : g.Closed) {c : List ℕ} {v w : ℕ} (hc : c ∈ tarjan g) (hv : v ∈ c) :
    w ∈ c ↔ g.Reach v w ∧ g.Reach w v :=
  (Search.inv_upTo hg (Nat.le_refl g.length)).1.comp hc hv w

theorem ne_nil_of_mem_tarjan (hg : g.Closed) {c : List ℕ} (hc : c ∈ tarjan g) : c ≠ [] :=
  (Search.inv_upTo hg (Nat.le_refl g.length)).1.ne_nil hc

end Tarjan

end Spira.Strand
