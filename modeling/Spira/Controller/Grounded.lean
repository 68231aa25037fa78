import Mathlib.Data.List.MinMax
import Mathlib.Data.Prod.Lex
import Mathlib.Data.String.Basic
import Mathlib.Logic.Relation
import Spira.Controller.Stack

/-!
# The grounded rounds

`Stack.of` grounds the rounds that a chain of tested bases and heads leads down from to the landing
ref, and no others (`grounded_iff`); each stands one above the round it was tested on.  Where no two
grounded rounds share a head the stack is the same in every order of the rounds (`of_perm`).
-/

set_option autoImplicit false

namespace Spira.Controller

open Batch
open Relation (TransGen)

/-! ## The top, and the place of the next round -/

inductive Place
  | onBase
  | stackOn (batch : String)
  deriving DecidableEq, Repr

def defaultDepth : ℕ := 2

def Lane.depth (lane : Lane) : ℕ := lane.concurrency.getD defaultDepth

def Stack.grounded (s : Stack) (batch : String) : Bool := (s.height.lookup batch).isSome

/-- The highest grounded round; between equals, the newest batch id. -/
def Stack.top (s : Stack) : Option (String × ℕ) := s.height.argmax fun p ↦ toLex (p.2, p.1)

/-- The round, and every round under it. -/
def Stack.down (s : Stack) : ℕ → String → List String
  | 0, _ => []
  | n + 1, b => b :: match s.below.lookup b with
    | some parent => s.down n parent
    | none => []

/-- The top and every round under it: a stack has no more rounds than heights. -/
def Stack.underTop (s : Stack) : List String :=
  match s.top with
  | some (b, h) => s.down (h + 1) b
  | none => []

/-- Where the next round goes and the base it is tested on. -/
def Stack.place (s : Stack) (lane : Lane) (rounds : List Live) : Option (Place × String) :=
  match s.top with
  | none => some (.onBase, lane.landingRef)
  | some (k, h) =>
    if lane.depth ≤ h then none
    else ((rounds.find? (·.batch = k)).bind (·.round.row.head)).map fun head ↦ (.stackOn k, head)

/-! ## Chains -/

/-- A chain of that many links leads from the round to the landing ref. -/
inductive Chain (lane : Lane) (rounds : List Live) : Live → ℕ → Prop
  | base {r : Live} (hr : r ∈ rounds) (htb : r.round.testedBase = some lane.landingRef) :
      Chain lane rounds r 1
  | link {r parent : Live} {n : ℕ} {tb : String} (hr : r ∈ rounds)
      (htb : r.round.testedBase = some tb) (hne : tb ≠ lane.landingRef)
      (hhead : parent.round.row.head = some tb) (h : Chain lane rounds parent n) :
      Chain lane rounds r (n + 1)

variable {lane : Lane} {rounds : List Live} {s : Stack} {r : Live} {b : String} {n : ℕ}

theorem Chain.mem (h : Chain lane rounds r n) : r ∈ rounds := by
  cases h <;> assumption

/-! ## One pass -/

/-- What the stack says is so. -/
structure Stack.Sound (lane : Lane) (rounds : List Live) (s : Stack) : Prop where
  stands : ∀ b n, s.height.lookup b = some n → ∃ r ∈ rounds, r.batch = b ∧
    ((n = 1 ∧ r.round.testedBase = some lane.landingRef ∧ s.below.lookup b = none) ∨
      ∃ tb parent m, r.round.testedBase = some tb ∧ tb ≠ lane.landingRef ∧ parent ∈ rounds ∧
        parent.round.row.head = some tb ∧ s.below.lookup b = some parent.batch ∧
        s.height.lookup parent.batch = some m ∧ n = m + 1)
  heads : ∀ head b, s.heads.lookup head = some b → s.grounded b ∧
    ∃ r ∈ rounds, r.batch = b ∧ r.round.row.head = some head
  known : ∀ r ∈ rounds, s.grounded r.batch → ∀ head, r.round.row.head = some head →
    (s.heads.lookup head).isSome
  below : ∀ b, s.grounded b = false → s.below.lookup b = none
  keys : (s.height.map Prod.fst).Nodup

theorem grounded_eq_false : s.grounded b = false ↔ s.height.lookup b = none := by
  rw [Stack.grounded]
  cases s.height.lookup b <;> simp

theorem grounded_eq_true : s.grounded b = true ↔ ∃ n, s.height.lookup b = some n :=
  Option.isSome_iff_exists

theorem lookup_concat {α : Type} (l : List (String × α)) (b c : String) (a : α)
    (h : l.lookup c = none) : (l ++ [(c, a)]).lookup b = if b = c then some a else l.lookup b := by
  rw [List.lookup_append]
  by_cases hb : b = c
  · subst hb
    simp [h]
  · simp [List.lookup_cons, hb, beq_eq_false_iff_ne.mpr hb]

/-- What the round stands on, in the stack so far. -/
def Stack.Stands (lane : Lane) (s : Stack) (r : Live) (h : ℕ) (below : Option String) : Prop :=
  ∃ tb, r.round.testedBase = some tb ∧
    ((tb = lane.landingRef ∧ h = 1 ∧ below = none) ∨
      tb ≠ lane.landingRef ∧ ∃ k, s.heads.lookup tb = some k ∧
        h = (s.height.lookup k).getD 0 + 1 ∧ below = some k)

/-- A round that is met is grounded, or stands on nothing yet. -/
theorem meet_cases (lane : Lane) (s : Stack) (r : Live) :
    (s.meet lane r = s ∧ (s.grounded r.batch = true ∨ ∀ h below, ¬ s.Stands lane r h below)) ∨
      s.grounded r.batch = false ∧ ∃ h below, s.Stands lane r h below ∧
        s.meet lane r =
          { height := s.height ++ [(r.batch, h)]
            below := s.below ++ (below.map (r.batch, ·)).toList
            heads := match r.round.row.head with
              | some head => if (s.heads.lookup head).isSome then s.heads
                  else s.heads ++ [(head, r.batch)]
              | none => s.heads } := by
  rw [Stack.meet, Stack.grounded]
  by_cases hg : (s.height.lookup r.batch).isSome
  · rw [if_pos hg]
    exact .inl ⟨rfl, .inl hg⟩
  · rw [if_neg hg]
    cases htb : r.round.testedBase with
    | none =>
      refine .inl ⟨rfl, .inr fun h below ↦ ?_⟩
      rintro ⟨tb, htb', -⟩
      rw [htb] at htb'
      cases htb'
    | some tb =>
      dsimp only
      by_cases hbase : tb = lane.landingRef
      · rw [if_pos hbase]
        exact .inr ⟨Bool.eq_false_of_not_eq_true hg, 1, none, ⟨tb, htb, .inl ⟨hbase, rfl, rfl⟩⟩, rfl⟩
      · rw [if_neg hbase]
        cases hk : s.heads.lookup tb with
        | none =>
          refine .inl ⟨rfl, .inr fun h below ↦ ?_⟩
          rintro ⟨tb', htb', hstands⟩
          obtain rfl := Option.some.inj (htb.symm.trans htb')
          rcases hstands with ⟨hbase', -⟩ | ⟨-, k, hk', -⟩
          · exact hbase hbase'
          · rw [hk] at hk'
            cases hk'
        | some k =>
          exact .inr ⟨Bool.eq_false_of_not_eq_true hg, _, some k, ⟨tb, htb, .inr ⟨hbase, k, hk, rfl, rfl⟩⟩, rfl⟩

theorem Stack.Sound.meet (h : s.Sound lane rounds) (hnodup : (rounds.map (·.batch)).Nodup)
    (hr : r ∈ rounds) : (s.meet lane r).Sound lane rounds := by
  obtain ⟨heq, -⟩ | ⟨hnew, n, below, ⟨tb, htb, hstands⟩, heq⟩ := meet_cases lane s r
  · rw [heq]
    exact h
  · have hnone : s.height.lookup r.batch = none := grounded_eq_false.mp hnew
    have hheight : ∀ b, (s.meet lane r).height.lookup b =
        if b = r.batch then some n else s.height.lookup b := by
      intro b
      rw [heq]
      exact lookup_concat _ _ _ _ hnone
    have hbelow : ∀ b, (s.meet lane r).below.lookup b =
        if b = r.batch then below else s.below.lookup b := by
      intro b
      rw [heq]
      cases below with
      | none =>
        by_cases hb : b = r.batch
        · simp [hb, h.below r.batch hnew]
        · simp [hb]
      | some k => exact lookup_concat _ _ _ _ (h.below r.batch hnew)
    have hheads : ∀ head, (s.meet lane r).heads.lookup head =
        if r.round.row.head = some head ∧ s.heads.lookup head = none then some r.batch
        else s.heads.lookup head := by
      intro head
      rw [heq]
      cases hhead : r.round.row.head with
      | none => simp
      | some own =>
        dsimp only
        cases hown : s.heads.lookup own with
        | some k =>
          have hne : ¬ (some own = some head ∧ s.heads.lookup head = none) := by
            rintro ⟨hsame, hnot⟩
            rw [← Option.some.inj hsame, hown] at hnot
            cases hnot
          rw [if_neg hne]
          rfl
        | none =>
          rw [Option.isSome_none, if_neg Bool.false_ne_true, lookup_concat _ _ _ _ hown]
          by_cases hsame : head = own
          · subst hsame
            simp [hown]
          · rw [if_neg hsame, if_neg fun h ↦ hsame (Option.some.inj h.1).symm]
    have hgrounded : ∀ b, (s.meet lane r).grounded b = (b = r.batch || s.grounded b) := by
      intro b
      rw [Stack.grounded, hheight]
      by_cases hb : b = r.batch
      · simp [hb]
      · simp [hb, Stack.grounded]
    have hone : ∀ {o : Live}, o ∈ rounds → o.batch = r.batch → o = r :=
      fun ho hb ↦ List.inj_on_of_nodup_map hnodup ho hr hb
    refine ⟨fun b m hm ↦ ?_, fun head b hb ↦ ?_, fun o ho hg head hhead ↦ ?_, fun b hg ↦ ?_, ?_⟩
    · rw [hheight] at hm
      split at hm
      · rename_i hb
        obtain rfl := Option.some.inj hm
        refine ⟨r, hr, hb.symm, ?_⟩
        rcases hstands with ⟨rfl, rfl, rfl⟩ | ⟨hne, k, hk, rfl, rfl⟩
        · exact .inl ⟨rfl, htb, by rw [hbelow, if_pos hb]⟩
        · obtain ⟨hg, parent, hparent, rfl, hhead⟩ := h.heads tb k hk
          obtain ⟨m, hm⟩ := grounded_eq_true.mp hg
          have hother : parent.batch ≠ r.batch := by
            intro hsame
            rw [hsame, hnew] at hg
            cases hg
          refine .inr ⟨tb, parent, m, htb, hne, hparent, hhead, ?_, ?_, by rw [hm]; rfl⟩
          · rw [hbelow, if_pos hb]
          · rw [hheight, if_neg hother, hm]
      · rename_i hb
        obtain ⟨o, ho, rfl, hstands⟩ := h.stands b m hm
        refine ⟨o, ho, rfl, ?_⟩
        rw [hbelow, if_neg hb]
        rcases hstands with hbase | ⟨tb', parent, m', htb', hne, hparent, hhead, hbel, hm', heq'⟩
        · exact .inl hbase
        · have hother : parent.batch ≠ r.batch := by
            intro hsame
            rw [hsame, hnone] at hm'
            cases hm'
          exact .inr ⟨tb', parent, m', htb', hne, hparent, hhead, hbel, by
            rw [hheight, if_neg hother, hm'], heq'⟩
    · rw [hheads] at hb
      split at hb
      · rename_i hnew
        obtain rfl := Option.some.inj hb
        exact ⟨by simp [hgrounded], r, hr, rfl, hnew.1⟩
      · obtain ⟨hg, o, ho, hbatch, hhead⟩ := h.heads head b hb
        exact ⟨by simp [hgrounded, hg], o, ho, hbatch, hhead⟩
    · rw [hheads]
      split
      · rfl
      · rename_i hnot
        rw [hgrounded, Bool.or_eq_true, decide_eq_true_eq] at hg
        rcases hg with hb | hg
        · obtain rfl := hone ho hb
          rw [Option.isSome_iff_ne_none]
          exact fun hnone ↦ hnot ⟨hhead, hnone⟩
        · exact h.known o ho hg head hhead
    · rw [hgrounded, Bool.or_eq_false_iff, decide_eq_false_iff_not] at hg
      rw [hbelow, if_neg hg.1]
      exact h.below b hg.2
    · rw [heq, List.map_append, List.nodup_append]
      refine ⟨h.keys, List.nodup_singleton _, ?_⟩
      rintro b hb _ (_ | ⟨_, ⟨⟩⟩) rfl
      obtain ⟨p, hp, hpb⟩ := List.mem_map.mp hb
      have hnot := List.lookup_eq_none_iff.mp hnone p hp
      simp [hpb] at hnot

/-! ## Every pass -/

/-- A round that the stack grounds, or that stands on nothing of it. -/
def Stack.Settled (lane : Lane) (s : Stack) (r : Live) : Prop :=
  s.grounded r.batch = true ∨ ∀ h below, ¬ s.Stands lane r h below

/-- A pass that grounds none leaves the stack as it was, with every round settled. -/
theorem pass_spec (hnodup : (rounds.map (·.batch)).Nodup) (l : List Live) (s : Stack)
    (hl : l ⊆ rounds) (h : s.Sound lane rounds) :
    (l.foldl (Stack.meet lane) s).Sound lane rounds ∧
      (l.foldl (Stack.meet lane) s = s ∧ (∀ r ∈ l, s.Settled lane r) ∨
        s.height.length < (l.foldl (Stack.meet lane) s).height.length) := by
  induction l generalizing s with
  | nil => exact ⟨h, .inl ⟨rfl, fun r hr ↦ absurd hr List.not_mem_nil⟩⟩
  | cons r l ih =>
    have hr : r ∈ rounds := hl List.mem_cons_self
    obtain ⟨hsound, hrest⟩ := ih (s.meet lane r) (List.subset_of_cons_subset hl) (h.meet hnodup hr)
    refine ⟨hsound, ?_⟩
    rw [List.foldl_cons]
    obtain ⟨heq, hsettled⟩ | ⟨-, n, below, -, heq⟩ := meet_cases lane s r
    · rw [heq] at hrest ⊢
      exact hrest.imp_left fun ⟨hsame, hall⟩ ↦ ⟨hsame, List.forall_mem_cons.mpr ⟨hsettled, hall⟩⟩
    · have hlen : (s.meet lane r).height.length = s.height.length + 1 := by
        rw [heq, List.length_append]
        rfl
      rcases hrest with ⟨hsame, -⟩ | hlt
      · rw [hsame]
        exact .inr (by omega)
      · exact .inr (by omega)

theorem Stack.Sound.length_le (h : s.Sound lane rounds) : s.height.length ≤ rounds.length := by
  have hsub : s.height.map Prod.fst ⊆ rounds.map (·.batch) := by
    intro b hb
    have hg : s.grounded b = true := by
      by_contra hnot
      obtain ⟨p, hp, rfl⟩ := List.mem_map.mp hb
      have hnone := grounded_eq_false.mp (Bool.eq_false_of_not_eq_true hnot)
      have hne := List.lookup_eq_none_iff.mp hnone p hp
      simp at hne
    obtain ⟨n, hn⟩ := grounded_eq_true.mp hg
    obtain ⟨r, hr, rfl, -⟩ := h.stands b n hn
    exact List.mem_map_of_mem hr
  have hle := (List.subperm_of_subset h.keys hsub).length_le
  rwa [List.length_map, List.length_map] at hle

theorem sound_empty : Stack.empty.Sound lane rounds :=
  ⟨nofun, nofun, fun _ _ h ↦ absurd h Bool.false_ne_true, fun _ _ ↦ rfl, List.nodup_nil⟩

/-- **The passes end with every round settled.** -/
theorem of_spec (lane : Lane) (hnodup : (rounds.map (·.batch)).Nodup) :
    (Stack.of lane rounds).Sound lane rounds ∧
      ∀ r ∈ rounds, (Stack.of lane rounds).Settled lane r := by
  have hpasses : ∀ n, let s := (fun s ↦ rounds.foldl (Stack.meet lane) s)^[n] .empty
      s.Sound lane rounds ∧ (rounds.foldl (Stack.meet lane) s = s ∧ (∀ r ∈ rounds, s.Settled lane r) ∨
        n ≤ s.height.length) := by
    intro n
    induction n with
    | zero => exact ⟨sound_empty, .inr (Nat.zero_le _)⟩
    | succ n ih =>
      rw [Function.iterate_succ_apply']
      obtain ⟨hsound, hn⟩ := ih
      obtain ⟨hsound', hpass⟩ := pass_spec hnodup rounds _ (List.Subset.refl _) hsound
      refine ⟨hsound', ?_⟩
      rcases hpass with ⟨hsame, hsettled⟩ | hlt
      · rw [hsame]
        exact .inl ⟨hsame, hsettled⟩
      · rcases hn with ⟨hsame, -⟩ | hn
        · rw [hsame] at hlt
          exact absurd hlt (lt_irrefl _)
        · exact .inr (by omega)
  obtain ⟨hsound, ⟨-, hsettled⟩ | hlong⟩ := hpasses (rounds.length + 1)
  · exact ⟨hsound, hsettled⟩
  · have hle := hsound.length_le
    omega

/-! ## What the stack says -/

/-- The round was tested on that one. -/
def Stack.Below (s : Stack) (b c : String) : Prop := s.below.lookup b = some c

theorem chain_of_height (hnodup : (rounds.map (·.batch)).Nodup) (h : s.Sound lane rounds) (n : ℕ) :
    ∀ r ∈ rounds, s.height.lookup r.batch = some n → Chain lane rounds r n := by
  induction n using Nat.strong_induction_on with
  | h n ih =>
    intro r hr hn
    obtain ⟨r', hr', hbatch, hstands⟩ := h.stands r.batch n hn
    obtain rfl := List.inj_on_of_nodup_map hnodup hr' hr hbatch
    rcases hstands with ⟨rfl, htb, -⟩ | ⟨tb, parent, m, htb, hne, hparent, hhead, -, hm, rfl⟩
    · exact .base hr' htb
    · exact .link hr' htb hne hhead (ih m (Nat.lt_succ_self m) parent hparent hm)

theorem grounded_of_chain (h : s.Sound lane rounds) (hsettled : ∀ r ∈ rounds, s.Settled lane r)
    (hc : Chain lane rounds r n) : s.grounded r.batch = true := by
  induction hc with
  | @base r hr htb =>
    exact (hsettled r hr).resolve_right fun hnot ↦ hnot 1 none ⟨_, htb, .inl ⟨rfl, rfl, rfl⟩⟩
  | @link r parent m tb hr htb hne hhead hc ih =>
    obtain ⟨k, hk⟩ := Option.isSome_iff_exists.mp (h.known parent hc.mem ih tb hhead)
    exact (hsettled r hr).resolve_right fun hnot ↦
      hnot _ (some k) ⟨tb, htb, .inr ⟨hne, k, hk, rfl, rfl⟩⟩

/-- Each round stands one above the one it was tested on. -/
theorem Stack.Sound.below_height (h : s.Sound lane rounds) {c : String} (hbelow : s.Below b c) :
    ∃ m, s.height.lookup c = some m ∧ s.height.lookup b = some (m + 1) := by
  obtain ⟨n, hn⟩ : ∃ n, s.height.lookup b = some n := by
    refine grounded_eq_true.mp ?_
    by_contra hnot
    have hnone := h.below b (Bool.eq_false_of_not_eq_true hnot)
    rw [hbelow] at hnone
    cases hnone
  obtain ⟨r, -, -, ⟨-, -, hnone⟩ | ⟨_, parent, m, -, -, -, -, hc, hm, rfl⟩⟩ := h.stands b n hn
  · rw [hbelow] at hnone
    cases hnone
  · obtain rfl := Option.some.inj (hc.symm.trans hbelow)
    exact ⟨m, hm, hn⟩

theorem Stack.Sound.below_eq_none (h : s.Sound lane rounds) (hn : s.height.lookup b = some n) :
    s.below.lookup b = none ↔ n = 1 := by
  obtain ⟨r, -, -, ⟨rfl, -, hnone⟩ | ⟨_, parent, m, -, -, -, -, hc, hm, rfl⟩⟩ := h.stands b n hn
  · exact iff_of_true hnone rfl
  · refine iff_of_false (by rw [hc]; exact Option.some_ne_none _) fun hone ↦ ?_
    obtain rfl : m = 0 := by omega
    obtain ⟨_, -, -, ⟨hzero, -⟩ | ⟨_, _, m, -, -, -, -, -, -, hzero⟩⟩ := h.stands _ 0 hm <;> omega

/-- What is below a round stands lower. -/
theorem Stack.Sound.lower (h : s.Sound lane rounds) {c : String} (hbelow : TransGen s.Below b c) :
    ∃ m n, s.height.lookup c = some m ∧ s.height.lookup b = some n ∧ m < n := by
  induction hbelow with
  | single hb =>
    obtain ⟨m, hm, hn⟩ := h.below_height hb
    exact ⟨m, m + 1, hm, hn, Nat.lt_succ_self m⟩
  | tail _ hb ih =>
    obtain ⟨m, n, hm, hn, hlt⟩ := ih
    obtain ⟨m', hm', hm''⟩ := h.below_height hb
    obtain rfl := Option.some.inj (hm.symm.trans hm'')
    exact ⟨m', n, hm', hn, by omega⟩

/-- **The rounds under a round end at one on the landing ref.** -/
theorem Stack.Sound.down (h : s.Sound lane rounds) : ∀ {n : ℕ} {b : String},
    s.height.lookup b = some n → (∃ pre last, s.down (n + 1) b = pre ++ [last] ∧
      s.height.lookup last = some 1 ∧ s.below.lookup last = none) ∧
        ∀ c, c ∈ s.down (n + 1) b ↔ Relation.ReflTransGen s.Below b c := by
  intro n
  induction n with
  | zero =>
    intro b hn
    obtain ⟨_, -, -, ⟨hzero, -⟩ | ⟨_, _, m, -, -, -, -, -, -, hzero⟩⟩ := h.stands _ 0 hn <;> omega
  | succ n ih =>
    intro b hn
    have hdown : s.down (n + 1 + 1) b = b :: match s.below.lookup b with
      | some parent => s.down (n + 1) parent
      | none => [] := rfl
    rw [hdown]
    cases hc : s.below.lookup b with
    | none =>
      refine ⟨⟨[], b, rfl, ?_, hc⟩, fun c ↦ ?_⟩
      · rw [hn, (h.below_eq_none hn).mp hc]
      · rw [List.mem_singleton]
        refine ⟨fun hcb ↦ hcb ▸ .refl, fun hreach ↦ ?_⟩
        rcases hreach.cases_head with rfl | ⟨d, hd, -⟩
        · rfl
        · rw [Stack.Below, hc] at hd
          cases hd
    | some parent =>
      obtain ⟨m, hm, hm'⟩ := h.below_height hc
      obtain rfl : m = n := by
        have heq := Option.some.inj (hn.symm.trans hm')
        omega
      obtain ⟨⟨pre, last, hsplit, hlast⟩, hmem⟩ := ih hm
      refine ⟨⟨b :: pre, last, congrArg (b :: ·) hsplit, hlast⟩, fun c ↦ ?_⟩
      rw [List.mem_cons, hmem]
      constructor
      · rintro (rfl | hreach)
        · exact .refl
        · exact hreach.head hc
      · intro hreach
        rcases hreach.cases_head with rfl | ⟨d, hd, hreach⟩
        · exact .inl rfl
        · obtain rfl := Option.some.inj (hc.symm.trans hd)
          exact .inr hreach

/-! ## Any order of the rounds -/

/-- No two grounded rounds share a head. -/
def OwnHeads (lane : Lane) (rounds : List Live) : Prop :=
  ∀ r r' n n', Chain lane rounds r n → Chain lane rounds r' n' → r.round.row.head.isSome →
    r.round.row.head = r'.round.row.head → r = r'

theorem chain_unique (hheads : OwnHeads lane rounds) (h : Chain lane rounds r n) :
    ∀ m, Chain lane rounds r m → n = m := by
  induction h with
  | base hr htb =>
    rintro m (_ | ⟨-, htb', hne, -, -⟩)
    · rfl
    · exact absurd (Option.some.inj (htb'.symm.trans htb)) hne
  | @link r parent k tb hr htb hne hhead hc ih =>
    rintro m (⟨-, htb'⟩ | @⟨_, parent', m, tb', -, htb', -, hhead', hc'⟩)
    · exact absurd (Option.some.inj (htb.symm.trans htb')) hne
    · obtain rfl := Option.some.inj (htb.symm.trans htb')
      obtain rfl := hheads parent parent' k m hc hc' (by rw [hhead]; rfl) (hhead.trans hhead'.symm)
      rw [ih m hc']

theorem Stack.Sound.perm {rounds' : List Live} (h : s.Sound lane rounds)
    (hperm : rounds'.Perm rounds) : s.Sound lane rounds' := by
  refine ⟨fun b n hn ↦ ?_, fun head b hb ↦ ?_, fun r hr ↦ h.known r (hperm.mem_iff.mp hr), h.below,
    h.keys⟩
  · simpa only [hperm.mem_iff] using h.stands b n hn
  · simpa only [hperm.mem_iff] using h.heads head b hb

/-- Two stacks of the same rounds say the same. -/
theorem same_stack {s' : Stack} (hnodup : (rounds.map (·.batch)).Nodup)
    (hheads : OwnHeads lane rounds) (h : s.Sound lane rounds) (h' : s'.Sound lane rounds)
    (hsettled' : ∀ r ∈ rounds, s'.Settled lane r) :
    (∀ b n, s.height.lookup b = some n → s'.height.lookup b = some n) ∧
      ∀ b c, s.below.lookup b = some c → s'.below.lookup b = some c := by
  have hheight : ∀ b n, s.height.lookup b = some n → s'.height.lookup b = some n := by
    intro b n hn
    obtain ⟨r, hr, rfl, -⟩ := h.stands b n hn
    have hc := chain_of_height hnodup h n r hr hn
    obtain ⟨m, hm⟩ := grounded_eq_true.mp (grounded_of_chain h' hsettled' hc)
    rwa [chain_unique hheads hc m (chain_of_height hnodup h' m r hr hm)]
  refine ⟨hheight, fun b c hbelow ↦ ?_⟩
  obtain ⟨m, -, hn⟩ := h.below_height hbelow
  obtain ⟨r, hr, rfl, ⟨-, -, hnone⟩ | ⟨tb, parent, k, htb, hne, hparent, hhead, hc, hk, -⟩⟩ :=
    h.stands b _ hn
  · rw [hbelow] at hnone
    cases hnone
  · obtain rfl := Option.some.inj (hc.symm.trans hbelow)
    obtain ⟨r', hr', hbatch, hstands⟩ := h'.stands r.batch _ (hheight _ _ hn)
    obtain rfl := List.inj_on_of_nodup_map hnodup hr' hr hbatch
    rcases hstands with ⟨-, htb', -⟩ | ⟨tb', parent', k', htb', -, hparent', hhead', hc', hk', -⟩
    · exact absurd (Option.some.inj (htb.symm.trans htb')) hne
    · obtain rfl := Option.some.inj (htb.symm.trans htb')
      obtain rfl := hheads parent parent' k k' (chain_of_height hnodup h k parent hparent hk)
        (chain_of_height hnodup h' k' parent' hparent' hk') (by rw [hhead]; rfl)
        (hhead.trans hhead'.symm)
      exact hc'

/-- **The order of the rounds does not matter** where no two grounded ones share a head. -/
theorem of_perm {rounds' : List Live} (hnodup : (rounds.map (·.batch)).Nodup)
    (hheads : OwnHeads lane rounds) (hperm : rounds'.Perm rounds) (b : String) :
    (Stack.of lane rounds').height.lookup b = (Stack.of lane rounds).height.lookup b ∧
      (Stack.of lane rounds').below.lookup b = (Stack.of lane rounds).below.lookup b := by
  have hnodup' : (rounds'.map (·.batch)).Nodup := (hperm.map _).nodup_iff.mpr hnodup
  obtain ⟨h, hsettled⟩ := of_spec lane hnodup
  obtain ⟨h', hsettled'⟩ := of_spec lane hnodup'
  have hsettled'' : ∀ r ∈ rounds, (Stack.of lane rounds').Settled lane r :=
    fun r hr ↦ hsettled' r (hperm.mem_iff.mpr hr)
  have hto := same_stack hnodup hheads (h'.perm hperm.symm) h hsettled
  have hback := same_stack hnodup hheads h (h'.perm hperm.symm) hsettled''
  exact ⟨Option.ext fun n ↦ ⟨hto.1 b n, hback.1 b n⟩, Option.ext fun c ↦ ⟨hto.2 b c, hback.2 b c⟩⟩

/-! ## The stack as a whole -/

/-- The next round goes on the top, at its head, where that is not too high; on the landing ref
where no round is grounded. -/
structure PlacedWell (lane : Lane) (rounds : List Live) (s : Stack) (place : Place) (base : String) :
    Prop where
  onBase : place = .onBase → base = lane.landingRef ∧ ∀ r n, ¬ Chain lane rounds r n
  stackOn : ∀ k, place = .stackOn k → ∃ top ∈ rounds, ∃ h, top.batch = k ∧
    s.height.lookup k = some h ∧ (∀ b n, s.height.lookup b = some n → n ≤ h) ∧
      top.round.row.head = some base ∧ h + 1 ≤ lane.depth

/-- What the stack is right to say. -/
structure Stack.Right (lane : Lane) (rounds : List Live) (s : Stack) : Prop where
  grounded : ∀ r ∈ rounds, s.grounded r.batch = true ↔ ∃ n, Chain lane rounds r n
  height : ∀ r ∈ rounds, ∀ n, s.height.lookup r.batch = some n → Chain lane rounds r n
  below : ∀ b c, s.Below b c → ∃ r ∈ rounds, ∃ parent ∈ rounds, r.batch = b ∧ parent.batch = c ∧
    r.round.testedBase.isSome ∧ r.round.testedBase = parent.round.row.head ∧
      ∃ n, s.height.lookup c = some n ∧ s.height.lookup b = some (n + 1)
  acyclic : ∀ b, ¬ TransGen s.Below b b
  underTop : ∀ b h, s.top = some (b, h) → (∃ pre last, s.underTop = pre ++ [last] ∧
    s.height.lookup last = some 1 ∧ s.below.lookup last = none) ∧
      ∀ c, c ∈ s.underTop ↔ Relation.ReflTransGen s.Below b c
  place : ∀ place base, s.place lane rounds = some (place, base) → PlacedWell lane rounds s place base

theorem lookup_of_mem {α : Type} {l : List (String × α)} (hnodup : (l.map Prod.fst).Nodup)
    {a : α} (h : (b, a) ∈ l) : l.lookup b = some a := by
  obtain ⟨pre, post, rfl⟩ := List.append_of_mem h
  refine List.lookup_eq_some_iff.mpr ⟨pre, post, rfl, fun p hp ↦ ?_⟩
  rw [List.map_append, List.nodup_append] at hnodup
  rw [bne_iff_ne]
  exact (hnodup.2.2 p.1 (List.mem_map_of_mem hp) b List.mem_cons_self).symm

theorem top_spec (h : s.Sound lane rounds) {t : ℕ} (htop : s.top = some (b, t)) :
    s.height.lookup b = some t ∧ ∀ c n, s.height.lookup c = some n → n ≤ t := by
  refine ⟨lookup_of_mem h.keys (List.argmax_mem htop), fun c n hn ↦ ?_⟩
  obtain ⟨pre, post, hsplit, -⟩ := List.lookup_eq_some_iff.mp hn
  have hmem : (c, n) ∈ s.height := hsplit ▸ List.mem_append_right _ List.mem_cons_self
  have hle := List.le_of_mem_argmax hmem htop
  rw [Prod.Lex.toLex_le_toLex] at hle
  rcases hle with hlt | ⟨heq, -⟩
  · exact hlt.le
  · exact heq.le

theorem place_spec (h : s.Sound lane rounds) (hsettled : ∀ r ∈ rounds, s.Settled lane r)
    {place : Place} {base : String} (hplace : s.place lane rounds = some (place, base)) :
    PlacedWell lane rounds s place base := by
  rw [Stack.place] at hplace
  cases htop : s.top with
  | none =>
    rw [htop] at hplace
    obtain ⟨rfl, rfl⟩ := Prod.ext_iff.mp (Option.some.inj hplace)
    refine ⟨fun _ ↦ ⟨rfl, fun r n hc ↦ ?_⟩, nofun⟩
    obtain ⟨m, hm⟩ := grounded_eq_true.mp (grounded_of_chain h hsettled hc)
    rw [List.argmax_eq_none.mp htop] at hm
    cases hm
  | some p =>
    obtain ⟨k, t⟩ := p
    rw [htop] at hplace
    dsimp only at hplace
    split at hplace
    · cases hplace
    · rename_i hdepth
      obtain ⟨head, hhead, heq⟩ := Option.map_eq_some_iff.mp hplace
      obtain ⟨rfl, rfl⟩ := Prod.ext_iff.mp heq
      obtain ⟨top, hfind, hhead⟩ := Option.bind_eq_some_iff.mp hhead
      obtain ⟨hk, hmost⟩ := top_spec h htop
      refine ⟨nofun, ?_⟩
      rintro _ ⟨⟩
      exact ⟨top, List.mem_of_find?_eq_some hfind, t, by simpa using List.find?_some hfind, hk, hmost,
        hhead, not_le.mp hdepth⟩

/-- **The grounded stack**: it says what the chains of the rounds say, whatever their order where no
two grounded rounds share a head. -/
theorem stack_right (lane : Lane) {rounds : List Live} (hnodup : (rounds.map (·.batch)).Nodup) :
    (Stack.of lane rounds).Right lane rounds ∧
      ∀ rounds' : List Live, rounds'.Perm rounds → OwnHeads lane rounds → ∀ b,
        (Stack.of lane rounds').height.lookup b = (Stack.of lane rounds).height.lookup b ∧
          (Stack.of lane rounds').below.lookup b = (Stack.of lane rounds).below.lookup b := by
  obtain ⟨h, hsettled⟩ := of_spec lane hnodup
  refine ⟨⟨fun r hr ↦ ⟨fun hg ↦ ?_, fun ⟨n, hc⟩ ↦ grounded_of_chain h hsettled hc⟩,
    fun r hr n ↦ chain_of_height hnodup h n r hr, fun b c hbelow ↦ ?_, fun b hcycle ↦ ?_,
    fun b t htop ↦ ?_, fun place base ↦ place_spec h hsettled⟩,
    fun rounds' hperm hheads ↦ of_perm hnodup hheads hperm⟩
  · obtain ⟨n, hn⟩ := grounded_eq_true.mp hg
    exact ⟨n, chain_of_height hnodup h n r hr hn⟩
  · obtain ⟨m, hm, hn⟩ := h.below_height hbelow
    obtain ⟨r, hr, rfl, ⟨-, -, hnone⟩ | ⟨tb, parent, k, htb, -, hparent, hhead, hc, -, -⟩⟩ :=
      h.stands b _ hn
    · rw [hbelow] at hnone
      cases hnone
    · obtain rfl := Option.some.inj (hc.symm.trans hbelow)
      exact ⟨r, hr, parent, hparent, rfl, rfl, by rw [htb]; rfl, htb.trans hhead.symm, m, hm, hn⟩
  · obtain ⟨m, n, hm, hn, hlt⟩ := h.lower hcycle
    obtain rfl := Option.some.inj (hm.symm.trans hn)
    exact absurd hlt (lt_irrefl m)
  · rw [Stack.underTop, htop]
    exact h.down (top_spec h htop).1

namespace Sharing

def green (batch testedBase head : String) : Live :=
  ⟨batch, ⟨{ BatchRow.cut batch "r" head "x0" with state := .green }, some testedBase, none, none⟩, true⟩

def deep (depth : ℕ) : Lane := ⟨"x0", "i", "h", "all", some depth⟩

/-- A round on the landing ref, and one on it. -/
def two : List Live := [green "b1" "x0" "x1", green "b2" "x1" "x2"]

/-- Two rounds of one head, one of them on another round, and a round on that head. -/
def shared : List Live :=
  [green "b1" "x0" "x1", green "b2" "x0" "y1", green "b3" "y1" "x1", green "b4" "x1" "x2"]

end Sharing

open Sharing

theorem stack_right_two : (Stack.of (deep 3) two).Right (deep 3) two ∧
    (Stack.of (deep 3) two).place (deep 3) two = some (.stackOn "b2", "x2") :=
  ⟨(stack_right (deep 3) (by decide)).1, by decide⟩

/-- The order of the rounds decides how high one stands on a shared head, and a lane of no depth has
a place on the landing ref. -/
theorem shared_head_differs :
    (Stack.of (deep 2) shared).height.lookup "b4" = some 2 ∧
      (Stack.of (deep 2) (shared.rotate 1)).height.lookup "b4" = some 3 ∧
      (Stack.of (deep 0) []).place (deep 0) [] = some (.onBase, "x0") := by
  decide

end Spira.Controller
