import Mathlib.Algebra.BigOperators.Group.Finset.Basic
import Mathlib.Logic.Relation

/-!
# Worklists

Two loops over a list of what is still to be looked at, and a set of what has been seen.  `spread`
marks an element seen when it puts it on the list; `walk` marks it when it takes it off, and so may
put one on twice.  Either sees exactly what the elements it starts with lead to (`mem_spread`,
`mem_walk`), given fuel enough to empty the list.
-/

set_option autoImplicit false

namespace Worklist

variable {α : Type}

/-- What is still to be looked at, and what has been seen. -/
structure State (α : Type) where
  todo : List α
  seen : List α

/-- One leads to another by steps of `next`. -/
def Leads (next : α → List α) : α → α → Prop := Relation.ReflTransGen fun a b ↦ b ∈ next a

/-- What is closed under the steps holds whatever its elements lead to. -/
theorem mem_of_leads {next : α → List α} {seen : List α} {x y : α}
    (hclosed : ∀ x ∈ seen, ∀ y ∈ next x, y ∈ seen) (hx : x ∈ seen) (h : Leads next x y) :
    y ∈ seen := by
  induction h with
  | refl => exact hx
  | tail _ hstep ih => exact hclosed _ ih _ hstep

variable [DecidableEq α]

def State.push (s : State α) (x : α) : State α :=
  if x ∈ s.seen then s else ⟨x :: s.todo, x :: s.seen⟩

variable (next : α → List α)

def spreadStep (s : State α) : State α :=
  match s.todo with
  | [] => s
  | x :: todo => (next x).foldl State.push ⟨todo, s.seen⟩

@[grind =] def spread : ℕ → State α → State α
  | 0, s => s
  | n + 1, s => spread n (spreadStep next s)

def walkStep (s : State α) : State α :=
  match s.todo with
  | [] => s
  | x :: todo =>
    if x ∈ s.seen then ⟨todo, s.seen⟩
    else ⟨((next x).filter (· ∉ x :: s.seen)).reverse ++ todo, x :: s.seen⟩

@[grind =] def walk : ℕ → State α → State α
  | 0, s => s
  | n + 1, s => walk n (walkStep next s)

/-! ## What is seen -/

variable {next} {start : List α} {s : State α} {U : Finset α} {x y : α} {n : ℕ}

/-- The start leads to whatever was listed or seen. -/
structure Reached (next : α → List α) (start : List α) (s : State α) : Prop where
  todo : ∀ x ∈ s.todo, ∃ t ∈ start, Leads next t x
  seen : ∀ x ∈ s.seen, ∃ t ∈ start, Leads next t x

/-! ### Spreading -/

/-- What was listed was seen, and what was looked at has had its next ones seen. -/
structure Spreading (start : List α) (next : α → List α) (s : State α) : Prop
    extends Reached next start s where
  listed : ∀ x ∈ s.todo, x ∈ s.seen
  started : ∀ t ∈ start, t ∈ s.seen
  looked : ∀ x ∈ s.seen, x ∉ s.todo → ∀ y ∈ next x, y ∈ s.seen

theorem mem_seen_push : y ∈ (s.push x).seen ↔ y = x ∨ y ∈ s.seen := by
  rw [State.push]
  split
  · rename_i h
    exact ⟨.inr, fun hy ↦ hy.elim (fun hyx ↦ hyx ▸ h) id⟩
  · exact List.mem_cons

theorem mem_seen_foldl {xs : List α} :
    y ∈ (xs.foldl State.push s).seen ↔ y ∈ xs ∨ y ∈ s.seen := by
  induction xs generalizing s with
  | nil => simp
  | cons x xs ih =>
    rw [List.foldl_cons, ih, mem_seen_push, List.mem_cons]
    tauto

/-- What is put on the list was not seen before. -/
theorem mem_todo_foldl {xs : List α} (h : y ∈ (xs.foldl State.push s).todo) :
    y ∈ s.todo ∨ y ∈ xs := by
  induction xs generalizing s with
  | nil => exact .inl h
  | cons x xs ih =>
    rcases ih h with h | h
    · rw [State.push] at h
      split at h
      · exact .inl h
      · rcases List.mem_cons.mp h with rfl | h
        · exact .inr List.mem_cons_self
        · exact .inl h
    · exact .inr (List.mem_cons_of_mem _ h)

theorem todo_subset_foldl {xs : List α} (h : y ∈ s.todo) : y ∈ (xs.foldl State.push s).todo := by
  induction xs generalizing s with
  | nil => exact h
  | cons x xs ih =>
    refine ih ?_
    rw [State.push]
    split
    · exact h
    · exact List.mem_cons_of_mem _ h

theorem new_mem_todo_foldl {xs : List α} (h : y ∈ (xs.foldl State.push s).seen)
    (hno : y ∉ s.seen) : y ∈ (xs.foldl State.push s).todo := by
  induction xs generalizing s with
  | nil => exact absurd h hno
  | cons x xs ih =>
    rw [List.foldl_cons] at h ⊢
    by_cases hy : y ∈ (s.push x).seen
    · obtain rfl := (mem_seen_push.mp hy).resolve_right hno
      refine todo_subset_foldl ?_
      rw [State.push, if_neg hno]
      exact List.mem_cons_self
    · exact ih h hy

theorem Spreading.step (h : Spreading start next s) : Spreading start next (spreadStep next s) := by
  rw [spreadStep]
  split
  · exact h
  · rename_i x todo htodo
    have hx : x ∈ s.todo := htodo ▸ List.mem_cons_self
    have hnext : ∀ y ∈ next x, ∃ t ∈ start, Leads next t y := by
      intro y hy
      obtain ⟨t, ht, htx⟩ := h.todo x hx
      exact ⟨t, ht, htx.tail hy⟩
    refine ⟨⟨fun y hy ↦ ?_, fun y hy ↦ ?_⟩, fun y hy ↦ ?_, fun t ht ↦ ?_, fun y hy hno z hz ↦ ?_⟩
    · rcases mem_todo_foldl hy with hy | hy
      · exact h.todo y (htodo ▸ List.mem_cons_of_mem _ hy)
      · exact hnext y hy
    · rcases mem_seen_foldl.mp hy with hy | hy
      · exact hnext y hy
      · exact h.seen y hy
    · rcases mem_todo_foldl hy with hy | hy
      · exact mem_seen_foldl.mpr (.inr (h.listed y (htodo ▸ List.mem_cons_of_mem _ hy)))
      · exact mem_seen_foldl.mpr (.inl hy)
    · exact mem_seen_foldl.mpr (.inr (h.started t ht))
    · by_cases hseen : y ∈ s.seen
      · by_cases hyx : y = x
        · exact mem_seen_foldl.mpr (.inl (hyx ▸ hz))
        · refine mem_seen_foldl.mpr (.inr (h.looked y hseen (fun hy' ↦ ?_) z hz))
          rw [htodo] at hy'
          exact hno (todo_subset_foldl ((List.mem_cons.mp hy').resolve_left hyx))
      · exact absurd (new_mem_todo_foldl hy hseen) hno

theorem spreading_spread (h : Spreading start next s) : Spreading start next (spread next n s) := by
  induction n generalizing s with
  | zero => exact h
  | succ n ih => exact ih h.step

/-- How many steps are left at most. -/
def spreadLeft (U : Finset α) (s : State α) : ℕ := (U \ s.seen.toFinset).card + s.todo.length

theorem spreadLeft_push (hx : x ∈ U) : spreadLeft U (s.push x) ≤ spreadLeft U s := by
  rw [State.push]
  split
  · exact le_rfl
  · rename_i h
    have hmem : x ∈ U \ s.seen.toFinset := by simp [hx, h]
    have hcard := Finset.card_erase_add_one hmem
    rw [spreadLeft, spreadLeft, List.toFinset_cons, Finset.sdiff_insert, List.length_cons]
    omega

theorem spreadLeft_foldl {xs : List α} (hxs : ∀ x ∈ xs, x ∈ U) :
    spreadLeft U (xs.foldl State.push s) ≤ spreadLeft U s := by
  induction xs generalizing s with
  | nil => exact le_rfl
  | cons x xs ih =>
    exact (ih fun y hy ↦ hxs y (List.mem_cons_of_mem _ hy)).trans
      (spreadLeft_push (hxs x List.mem_cons_self))

theorem spread_of_nil (h : s.todo = []) (n : ℕ) : spread next n s = s := by
  induction n with
  | zero => rfl
  | succ n ih =>
    have hstep : spreadStep next s = s := by rw [spreadStep, h]
    rw [spread, hstep, ih]

theorem todo_spread (hU : ∀ x ∈ U, ∀ y ∈ next x, y ∈ U) (htodo : ∀ x ∈ s.todo, x ∈ U)
    (hn : spreadLeft U s ≤ n) : (spread next n s).todo = [] := by
  induction n generalizing s with
  | zero =>
    rw [spreadLeft] at hn
    rw [spread]
    exact List.eq_nil_of_length_eq_zero (by omega)
  | succ n ih =>
    cases hs : s.todo with
    | nil => rw [spread_of_nil hs, hs]
    | cons x todo =>
      have hx : x ∈ U := htodo x (hs ▸ List.mem_cons_self)
      have hstep : spreadStep next s = (next x).foldl State.push ⟨todo, s.seen⟩ := by
        rw [spreadStep, hs]
      rw [spread, hstep]
      refine ih (fun y hy ↦ ?_) ?_
      · rcases mem_todo_foldl hy with hy | hy
        · exact htodo y (hs ▸ List.mem_cons_of_mem _ hy)
        · exact hU x hx y hy
      · have hle := spreadLeft_foldl (s := ⟨todo, s.seen⟩) (hU x hx)
        have hlt : spreadLeft U ⟨todo, s.seen⟩ < spreadLeft U s := by
          rw [spreadLeft, spreadLeft, hs, List.length_cons]
          exact Nat.lt_succ_self _
        omega

/-- **Spreading from one element sees what it leads to.** -/
theorem mem_spread (hU : ∀ x ∈ U, ∀ y ∈ next x, y ∈ U) (hx : x ∈ U) (hn : U.card ≤ n) :
    y ∈ (spread next n ⟨[x], [x]⟩).seen ↔ Leads next x y := by
  have hspreading : Spreading [x] next (spread next n ⟨[x], [x]⟩) := spreading_spread
    { todo := fun y hy ↦ ⟨y, hy, .refl⟩
      seen := fun y hy ↦ ⟨y, hy, .refl⟩
      listed := fun _ h ↦ h
      started := fun _ h ↦ h
      looked := fun _ h hno ↦ absurd h hno }
  have hleft : spreadLeft U ⟨[x], [x]⟩ ≤ n := by
    have hmem : x ∈ U \ ∅ := by simp [hx]
    have hcard := Finset.card_erase_add_one hmem
    rw [Finset.sdiff_empty] at hcard
    rw [spreadLeft, List.toFinset_cons, List.toFinset_nil, Finset.sdiff_insert, Finset.sdiff_empty,
      List.length_singleton]
    omega
  have hlisted : ∀ y ∈ [x], y ∈ U := fun y hy ↦ List.mem_singleton.mp hy ▸ hx
  have htodo := todo_spread hU (s := ⟨[x], [x]⟩) hlisted hleft
  constructor
  · intro hy
    obtain ⟨t, ht, hty⟩ := hspreading.seen y hy
    exact List.mem_singleton.mp ht ▸ hty
  · refine mem_of_leads (fun z hz ↦ hspreading.looked z hz ?_)
      (hspreading.started x (List.mem_singleton_self x))
    rw [htodo]
    exact List.not_mem_nil

/-! ### Walking -/

/-- What was seen has had its next ones seen, or listed. -/
structure Walking (start : List α) (next : α → List α) (s : State α) : Prop
    extends Reached next start s where
  started : ∀ t ∈ start, t ∈ s.seen ∨ t ∈ s.todo
  looked : ∀ x ∈ s.seen, ∀ y ∈ next x, y ∈ s.seen ∨ y ∈ s.todo

theorem Walking.step (h : Walking start next s) : Walking start next (walkStep next s) := by
  rw [walkStep]
  split
  · exact h
  · rename_i x todo htodo
    have hleft : ∀ {y}, y ∈ s.todo → y ≠ x → y ∈ todo := fun hy hyx ↦
      (List.mem_cons.mp (htodo ▸ hy)).resolve_left hyx
    have hlisted : ∀ {y}, y ∈ todo → y ∈ s.todo := fun hy ↦ htodo ▸ List.mem_cons_of_mem _ hy
    split
    · rename_i hx
      have hmove : ∀ {y}, y ∈ s.seen ∨ y ∈ s.todo → y ∈ s.seen ∨ y ∈ todo := by
        intro y hy
        by_cases hyx : y = x
        · exact .inl (hyx ▸ hx)
        · exact hy.imp_right (hleft · hyx)
      exact ⟨⟨fun y hy ↦ h.todo y (hlisted hy), h.seen⟩, fun t ht ↦ hmove (h.started t ht),
        fun y hy z hz ↦ hmove (h.looked y hy z hz)⟩
    · have hmove : ∀ {y}, y ∈ s.seen ∨ y ∈ s.todo → y ∈ x :: s.seen ∨
          y ∈ ((next x).filter (· ∉ x :: s.seen)).reverse ++ todo := by
        intro y hy
        by_cases hyx : y = x
        · exact .inl (hyx ▸ List.mem_cons_self)
        · exact hy.imp (List.mem_cons_of_mem _) fun hy ↦ List.mem_append_right _ (hleft hy hyx)
      refine ⟨⟨fun y hy ↦ ?_, fun y hy ↦ ?_⟩, fun t ht ↦ hmove (h.started t ht), fun y hy z hz ↦ ?_⟩
      · rcases List.mem_append.mp hy with hy | hy
        · obtain ⟨t, ht, htx⟩ := h.todo x (htodo ▸ List.mem_cons_self)
          exact ⟨t, ht, htx.tail (List.mem_of_mem_filter (List.mem_reverse.mp hy))⟩
        · exact h.todo y (hlisted hy)
      · rcases List.mem_cons.mp hy with rfl | hy
        · exact h.todo y (htodo ▸ List.mem_cons_self)
        · exact h.seen y hy
      · rcases List.mem_cons.mp hy with rfl | hy
        · by_cases hzs : z ∈ y :: s.seen
          · exact .inl hzs
          · refine .inr (List.mem_append_left _ (List.mem_reverse.mpr ?_))
            exact List.mem_filter.mpr ⟨hz, decide_eq_true hzs⟩
        · exact hmove (h.looked y hy z hz)

theorem walking_walk (h : Walking start next s) : Walking start next (walk next n s) := by
  induction n generalizing s with
  | zero => exact h
  | succ n ih => exact ih h.step

/-- How many steps are left at most. -/
def walkLeft (next : α → List α) (U : Finset α) (s : State α) : ℕ :=
  ∑ x ∈ U \ s.seen.toFinset, (next x).length + s.todo.length

theorem walk_of_nil (h : s.todo = []) (n : ℕ) : walk next n s = s := by
  induction n with
  | zero => rfl
  | succ n ih =>
    have hstep : walkStep next s = s := by rw [walkStep, h]
    rw [walk, hstep, ih]

theorem walkLeft_step (htodo : ∀ x ∈ s.todo, x ∈ U) (hs : s.todo ≠ []) :
    walkLeft next U (walkStep next s) < walkLeft next U s := by
  rw [walkStep]
  split
  · rename_i h
    exact absurd h hs
  · rename_i x todo h
    split
    · rw [walkLeft, walkLeft, h, List.length_cons]
      exact Nat.lt_succ_self _
    · rename_i hx
      have hmem : x ∈ U \ s.seen.toFinset := by simp [htodo x (h ▸ List.mem_cons_self), hx]
      have hsum := Finset.add_sum_erase _ (fun x ↦ (next x).length) hmem
      have hlen := List.length_filter_le (fun y ↦ decide (y ∉ x :: s.seen)) (next x)
      rw [walkLeft, walkLeft, h, List.toFinset_cons, Finset.sdiff_insert, List.length_cons,
        List.length_append, List.length_reverse]
      omega

theorem todo_walk (hU : ∀ x ∈ U, ∀ y ∈ next x, y ∈ U) (htodo : ∀ x ∈ s.todo, x ∈ U)
    (hn : walkLeft next U s ≤ n) : (walk next n s).todo = [] := by
  induction n generalizing s with
  | zero =>
    rw [walkLeft] at hn
    rw [walk]
    exact List.eq_nil_of_length_eq_zero (by omega)
  | succ n ih =>
    by_cases hs : s.todo = []
    · rw [walk_of_nil hs, hs]
    · have hlt : walkLeft next U (walkStep next s) < walkLeft next U s := walkLeft_step htodo hs
      refine ih (fun y hy ↦ ?_) (by omega)
      rw [walkStep] at hy
      split at hy
      · exact htodo y hy
      · rename_i x todo h
        have hx := htodo x (h ▸ List.mem_cons_self)
        split at hy
        · exact htodo y (h ▸ List.mem_cons_of_mem _ hy)
        · rcases List.mem_append.mp hy with hy | hy
          · exact hU x hx y (List.mem_of_mem_filter (List.mem_reverse.mp hy))
          · exact htodo y (h ▸ List.mem_cons_of_mem _ hy)

/-- **A walk sees what the elements it starts with lead to.** -/
theorem mem_walk (hU : ∀ x ∈ U, ∀ y ∈ next x, y ∈ U) (hstart : ∀ t ∈ start, t ∈ U)
    (hn : ∑ x ∈ U, (next x).length + start.length ≤ n) :
    y ∈ (walk next n ⟨start, []⟩).seen ↔ ∃ t ∈ start, Leads next t y := by
  have hwalking : Walking start next (walk next n ⟨start, []⟩) := walking_walk
    { todo := fun y hy ↦ ⟨y, hy, .refl⟩
      seen := fun _ hy ↦ nomatch hy
      started := fun _ ht ↦ .inr ht
      looked := fun _ hx ↦ nomatch hx }
  have htodo : (walk next n ⟨start, []⟩).todo = [] :=
    todo_walk hU hstart (by simpa [walkLeft] using hn)
  refine ⟨hwalking.seen y, fun ⟨t, ht, hty⟩ ↦ mem_of_leads (fun x hx z hz ↦ ?_) ?_ hty⟩
  · refine (hwalking.looked x hx z hz).resolve_right ?_
    rw [htodo]
    exact List.not_mem_nil
  · refine (hwalking.started t ht).resolve_right ?_
    rw [htodo]
    exact List.not_mem_nil

end Worklist
