import Mathlib.Logic.Function.Basic
import Spira.Lib.Interleave

/-!
# Programs that own something

A program that takes turns with others may come to own a part of what they share: a lock that it
took, a token that nobody else has.  `Owns R G Q o p s` is its rule then: from `s` on, owning `o`,
whatever the others do within `R o`, every step is within `G`, from what the program owns to what it
owns after the step, and the program ends in `Q`.

What the others are held to depends on what one owns, and `Sharing` says when that goes together: a
step of one program is within what every other relies on, as long as what they own is apart, and
leaves it apart.  Then every program of a pool has its rule at every point of every run
(`Pool.owns_run`).
-/

set_option autoImplicit false

namespace Prog

variable {σ α β O : Type} {R : O → σ → σ → Prop} {G : O → O → σ → σ → Prop}

def Owns (R : O → σ → σ → Prop) (G : O → O → σ → σ → Prop) (Q : α → O → σ → Prop) :
    O → Prog σ α → σ → Prop
  | o, done a, s => ∀ s', R o s s' → Q a o s'
  | o, step ready effect next, s =>
    ∀ s', R o s s' → ready s' →
      ∃ o', G o o' s' (effect s') ∧ (next s').Owns R G Q o' (effect s')

variable {Q Q' : α → O → σ → Prop} {o : O} {p : Prog σ α} {s s' : σ}

/-- The rule holds on when the others have moved. -/
theorem Owns.mono (htrans : ∀ {o a b c}, R o a b → R o b c → R o a c) (h : p.Owns R G Q o s)
    (hs : R o s s') : p.Owns R G Q o s' := by
  cases p with
  | done a => exact fun t ht ↦ h t (htrans hs ht)
  | step ready effect next => exact fun t ht hr ↦ h t (htrans hs ht) hr

theorem Owns.imp (h : p.Owns R G Q o s) (hQ : ∀ a o s, Q a o s → Q' a o s) :
    p.Owns R G Q' o s := by
  induction p generalizing o s with
  | done a => exact fun t ht ↦ hQ a o t (h t ht)
  | step ready effect next ih =>
    intro t ht hr
    obtain ⟨o', hg, hn⟩ := h t ht hr
    exact ⟨o', hg, ih t hn⟩

theorem Owns.bind {f : α → Prog σ β} {Q : β → O → σ → Prop} (hrefl : ∀ o a, R o a a)
    (h : p.Owns R G (fun a o s ↦ (f a).Owns R G Q o s) o s) : (p.bind f).Owns R G Q o s := by
  induction p generalizing o s with
  | done a => exact h s (hrefl o s)
  | step ready effect next ih =>
    intro t ht hr
    obtain ⟨o', hg, hn⟩ := h t ht hr
    exact ⟨o', hg, ih t hn⟩

/-- A program that owns nothing of what the others rely on. -/
theorem Keeps.owns {R' G' : σ → σ → Prop} {Q : α → σ → Prop} (h : p.Keeps R' G' Q s)
    (hR : ∀ {a b}, R o a b → R' a b) (hG : ∀ {a b}, G' a b → G o o a b) :
    p.Owns R G (fun a _ s ↦ Q a s) o s := by
  induction p generalizing s with
  | done a => exact fun t ht ↦ h t (hR ht)
  | step ready effect next ih =>
    intro t ht hr
    obtain ⟨hg, hn⟩ := h t (hR ht) hr
    exact ⟨o, hG hg, ih t hn⟩

end Prog

namespace Verb

variable {σ ε α β O : Type}

/-- From `s` on, owning `o`, every step is within `G`, and the end is an answer in `Q` or an error
in `E`. -/
def Owns (R : O → σ → σ → Prop) (G : O → O → σ → σ → Prop) (Q : α → O → σ → Prop)
    (E : ε → O → σ → Prop) (o : O) (v : Verb σ ε α) (s : σ) : Prop :=
  Prog.Owns R G
    (fun r o s ↦ match r with
      | .ok a => Q a o s
      | .error e => E e o s) o v s

variable {R : O → σ → σ → Prop} {G : O → O → σ → σ → Prop} {Q Q' : α → O → σ → Prop}
  {E E' : ε → O → σ → Prop} {o : O} {s s' : σ}

theorem Owns.mono {v : Verb σ ε α} (htrans : ∀ {o a b c}, R o a b → R o b c → R o a c)
    (h : v.Owns R G Q E o s) (hs : R o s s') : v.Owns R G Q E o s' :=
  Prog.Owns.mono htrans h hs

theorem Owns.imp {v : Verb σ ε α} (h : v.Owns R G Q E o s) (hQ : ∀ a o s, Q a o s → Q' a o s)
    (hE : ∀ e o s, E e o s → E' e o s) : v.Owns R G Q' E' o s :=
  Prog.Owns.imp h fun r o s hr ↦
    match r, hr with
    | .ok a, hr => hQ a o s hr
    | .error e, hr => hE e o s hr

theorem owns_pure {a : α} (h : ∀ s', R o s s' → Q a o s') :
    (pure a : Verb σ ε α).Owns R G Q E o s := h

theorem owns_throw {e : ε} (h : ∀ s', R o s s' → E e o s') :
    (throw e : Verb σ ε α).Owns R G Q E o s := h

theorem owns_bind {x : Verb σ ε α} {f : α → Verb σ ε β} {Q : β → O → σ → Prop}
    (hrefl : ∀ o a, R o a a)
    (h : x.Owns R G (fun a o s ↦ (f a).Owns R G Q E o s) (fun e o s ↦ ∀ s', R o s s' → E e o s') o
      s) : (x >>= f).Owns R G Q E o s :=
  Prog.Owns.bind hrefl (Prog.Owns.imp h fun r _ _ hr ↦
    match r, hr with
    | .ok _, hr => hr
    | .error _, hr => hr)

theorem owns_tried {ε' : Type} {x : Verb σ ε α} {Q : Except ε α → O → σ → Prop}
    {E' : ε' → O → σ → Prop} (hrefl : ∀ o a, R o a a)
    (h : x.Owns R G (fun a o s ↦ ∀ s', R o s s' → Q (.ok a) o s')
      (fun e o s ↦ ∀ s', R o s s' → Q (.error e) o s') o s) :
    (tried x : Verb σ ε' (Except ε α)).Owns R G Q E' o s :=
  Prog.Owns.bind hrefl (Prog.Owns.imp h fun r _ _ hr ↦
    match r, hr with
    | .ok _, hr => hr
    | .error _, hr => hr)

/-- One step: what it owns after it, and its answer, are of the state it finds. -/
theorem owns_atom {ready : σ → Bool} {effect : σ → σ} {answer : σ → Except ε α}
    (h : ∀ s', R o s s' → ready s' → ∃ o', G o o' s' (effect s') ∧ ∀ s'', R o' (effect s') s'' →
      (∀ a, answer s' = .ok a → Q a o' s'') ∧ ∀ e, answer s' = .error e → E e o' s'') :
    (atom ready effect answer).Owns R G Q E o s := by
  intro s' hs hr
  obtain ⟨o', hg, hn⟩ := h s' hs hr
  refine ⟨o', hg, fun s'' hs'' ↦ ?_⟩
  obtain ⟨hok, herr⟩ := hn s'' hs''
  cases ha : answer s' with
  | ok a => exact hok a ha
  | error e => exact herr e ha

theorem owns_look {answer : σ → Except ε α} (hG : ∀ o s, G o o s s)
    (h : ∀ s', R o s s' → ∀ s'', R o s' s'' →
      (∀ a, answer s' = .ok a → Q a o s'') ∧ ∀ e, answer s' = .error e → E e o s'') :
    (look answer).Owns R G Q E o s :=
  owns_atom fun s' hs _ ↦ ⟨o, hG o s', h s' hs⟩

end Verb

/-- What programs own goes together: what each relies on is what the others do. -/
structure Sharing {σ O : Type} (R : O → σ → σ → Prop) (G : O → O → σ → σ → Prop)
    (Apart : O → O → Prop) (Valid : O → σ → Prop) (I : σ → Prop) (nothing : O) : Prop where
  refl : ∀ o a, R o a a
  trans : ∀ {o a b c}, R o a b → R o b c → R o a c
  symm : ∀ {o o'}, Apart o o' → Apart o' o
  apart : ∀ o, Apart nothing o
  valid : ∀ a, Valid nothing a
  /-- What is owned stays so, whatever the others do. -/
  keeps : ∀ {o a b}, Valid o a → R o a b → Valid o b
  inv : ∀ {o a b}, I a → R o a b → I b
  own : ∀ {o o' a b}, I a → Valid o a → G o o' a b → I b ∧ Valid o' b
  others : ∀ {o o' o₂ a b}, I a → Valid o a → Valid o₂ a → Apart o o₂ → G o o' a b →
    R o₂ a b ∧ Apart o' o₂

namespace Pool

variable {σ α C E D O : Type} {env : E → σ → σ} {restart : D → σ → σ} {prog : C → Prog σ α}
  {R : O → σ → σ → Prop} {G : O → O → σ → σ → Prop} {Apart : O → O → Prop} {Valid : O → σ → Prop}
  {I : σ → Prop} {nothing : O} {Q : C → α → O → σ → Prop}

/-- Every program has its rule, with something of its own. -/
structure Owned (R : O → σ → σ → Prop) (G : O → O → σ → σ → Prop) (Apart : O → O → Prop)
    (Valid : O → σ → Prop) (nothing : O) (Q : C → α → O → σ → Prop) (w : Pool σ α C)
    (own : ℕ → O) : Prop where
  rule : ∀ (i : ℕ) (t : C × Prog σ α), w.threads[i]? = some t → t.2.Owns R G (Q t.1) (own i) w.state
  valid : ∀ i, Valid (own i) w.state
  apart : ∀ i j, i ≠ j → Apart (own i) (own j)
  idle : ∀ i, w.threads.length ≤ i → own i = nothing

theorem owned_move (hsh : Sharing R G Apart Valid I nothing)
    (henv : ∀ e a o, I a → Valid o a → R o a (env e a)) (hrestart : ∀ d a, I a → I (restart d a))
    (hprog : ∀ c a, I a → (prog c).Owns R G (Q c) nothing a) {w : Pool σ α C} {own : ℕ → O}
    (hI : I w.state) (h : Owned R G Apart Valid nothing Q w own) (m : Turn E D C) :
    I (move env restart prog w m).state ∧
      ∃ own', Owned R G Apart Valid nothing Q (move env restart prog w m) own' := by
  cases m with
  | env e =>
    have hR (i : ℕ) : R (own i) w.state (env e w.state) := henv e w.state _ hI (h.valid i)
    exact ⟨hsh.inv hI (hR 0), own, fun i t ht ↦ (h.rule i t ht).mono hsh.trans (hR i),
      fun i ↦ hsh.keeps (h.valid i) (hR i), h.apart, h.idle⟩
  | spawn c =>
    refine ⟨hI, own, fun i t ht ↦ ?_, h.valid, h.apart, fun i hi ↦ h.idle i ?_⟩
    · by_cases hi : i < w.threads.length
      · exact h.rule i t ((List.getElem?_append_left hi).symm.trans ht)
      · replace ht : (w.threads ++ [(c, prog c)])[i]? = some t := ht
        rw [List.getElem?_append_right (Nat.le_of_not_lt hi)] at ht
        rw [List.mem_singleton.mp (List.mem_of_getElem? ht), h.idle i (Nat.le_of_not_lt hi)]
        exact hprog c w.state hI
    · replace hi : (w.threads ++ [(c, prog c)]).length ≤ i := hi
      rw [List.length_append] at hi
      exact Nat.le_of_add_right_le hi
  | turn i =>
    obtain hnone | ⟨⟨c, p⟩, hp⟩ := (w.threads[i]?).eq_none_or_eq_some
    · rw [move, hnone]
      exact ⟨hI, own, h⟩
    have hmove : move env restart prog w (.turn i : Turn E D C) =
        ⟨(p.turn w.state).2, w.threads.set i (c, (p.turn w.state).1)⟩ := by
      rw [move, hp]
    rw [hmove]
    have hrule := h.rule i (c, p) hp
    obtain ⟨o', hturn, hsame | hstep⟩ : ∃ o',
        (p.turn w.state).1.Owns R G (Q c) o' (p.turn w.state).2 ∧
          ((p.turn w.state).2 = w.state ∧ o' = own i ∨
            G (own i) o' w.state (p.turn w.state).2) := by
      cases p with
      | done a => exact ⟨own i, hrule, .inl ⟨rfl, rfl⟩⟩
      | step ready effect next =>
        rw [Prog.turn]
        by_cases hr : ready w.state = true
        · rw [if_pos hr]
          obtain ⟨o', hg, hn⟩ := hrule w.state (hsh.refl _ _) hr
          exact ⟨o', hn, .inr hg⟩
        · rw [if_neg hr]
          exact ⟨own i, hrule, .inl ⟨rfl, rfl⟩⟩
    · obtain ⟨hstate, rfl⟩ := hsame
      refine ⟨(congrArg I hstate).mpr hI, own, fun j t ht ↦ ?_,
        fun j ↦ (congrArg (Valid (own j)) hstate).mpr (h.valid j), h.apart,
        fun j hj ↦ h.idle j (by rwa [List.length_set] at hj)⟩
      by_cases hij : i = j
      · subst hij
        replace ht : (w.threads.set i (c, (p.turn w.state).1))[i]? = some t := ht
        rw [List.getElem?_set_self (List.getElem?_eq_some_iff.mp hp).1] at ht
        rw [← Option.some.inj ht]
        exact hturn
      · replace ht : (w.threads.set i (c, (p.turn w.state).1))[j]? = some t := ht
        rw [List.getElem?_set_ne hij] at ht
        show t.2.Owns R G (Q t.1) (own j) (p.turn w.state).2
        rw [hstate]
        exact h.rule j t ht
    · obtain ⟨hI', hvalid⟩ := hsh.own hI (h.valid i) hstep
      have hothers {j : ℕ} (hij : i ≠ j) :
          R (own j) w.state (p.turn w.state).2 ∧ Apart o' (own j) :=
        hsh.others hI (h.valid i) (h.valid j) (h.apart i j hij) hstep
      refine ⟨hI', Function.update own i o', fun j t ht ↦ ?_, fun j ↦ ?_, fun j k hjk ↦ ?_,
        fun j hj ↦ ?_⟩
      · replace ht : (w.threads.set i (c, (p.turn w.state).1))[j]? = some t := ht
        by_cases hij : i = j
        · subst hij
          rw [List.getElem?_set_self (List.getElem?_eq_some_iff.mp hp).1] at ht
          rw [← Option.some.inj ht, Function.update_self]
          exact hturn
        · rw [List.getElem?_set_ne hij] at ht
          rw [Function.update_of_ne (Ne.symm hij)]
          exact (h.rule j t ht).mono hsh.trans (hothers hij).1
      · by_cases hij : i = j
        · rw [← hij, Function.update_self]
          exact hvalid
        · rw [Function.update_of_ne (Ne.symm hij)]
          exact hsh.keeps (h.valid j) (hothers hij).1
      · by_cases hij : i = j
        · rw [← hij, Function.update_self, Function.update_of_ne (hij ▸ hjk.symm)]
          exact (hothers (hij ▸ hjk)).2
        · rw [Function.update_of_ne (Ne.symm hij)]
          by_cases hik : i = k
          · rw [← hik, Function.update_self]
            exact hsh.symm (hothers hij).2
          · rw [Function.update_of_ne (Ne.symm hik)]
            exact h.apart j k hjk
      · replace hj : (w.threads.set i (c, (p.turn w.state).1)).length ≤ j := hj
        rw [List.length_set] at hj
        have hi := (List.getElem?_eq_some_iff.mp hp).1
        rw [Function.update_of_ne (by omega), h.idle j hj]
  | restart d =>
    exact ⟨hrestart d w.state hI, fun _ ↦ nothing, fun i t ht ↦ by simp [move] at ht,
      fun i ↦ hsh.valid _, fun _ _ _ ↦ hsh.apart _, fun _ _ ↦ rfl⟩

/-- **At every point of every run, every program has its rule, with something of its own.** -/
theorem owns_run (hsh : Sharing R G Apart Valid I nothing)
    (henv : ∀ e a o, I a → Valid o a → R o a (env e a)) (hrestart : ∀ d a, I a → I (restart d a))
    (hprog : ∀ c a, I a → (prog c).Owns R G (Q c) nothing a) {s : σ} (hs : I s)
    (turns : List (Turn E D C)) :
    I (run env restart prog s turns).state ∧
      ∃ own, Owned R G Apart Valid nothing Q (run env restart prog s turns) own := by
  induction turns using List.reverseRecOn with
  | nil =>
    exact ⟨hs, fun _ ↦ nothing, fun i t ht ↦ by simp [run] at ht, fun _ ↦ hsh.valid s,
      fun _ _ _ ↦ hsh.apart _, fun _ _ ↦ rfl⟩
  | append_singleton turns m ih =>
    obtain ⟨hI, own, howned⟩ := ih
    rw [run_append, List.foldl_cons, List.foldl_nil]
    exact owned_move hsh henv hrestart hprog hI howned m

end Pool
