import Mathlib.Data.Nat.Notation
import Mathlib.Data.List.Basic

/-!
# Chains of operators

A reader takes what it reads off a list.  A chain of operators is read by a loop that adds one
operand after the other, so the first ones are grouped first (`exists_of_loop`, `loop_cons`).
-/

set_option autoImplicit false

namespace Chain

variable {τ ε α : Type}

/-- What is read, and what is left. -/
abbrev Reader (τ ε α : Type) := List τ → Except ε (α × List τ)

/-- The operands after `a`, as long as an operator stands before them. -/
@[grind =] def loop (op : τ → Option (α → α → α)) (sub : Reader τ ε α) : ℕ → α → Reader τ ε α
  | 0, a, l => .ok (a, l)
  | _ + 1, a, [] => .ok (a, [])
  | n + 1, a, t :: l =>
    match op t with
    | none => .ok (a, t :: l)
    | some f => do
      let (b, l) ← sub l
      loop op sub n (f a b) l

def chain (op : τ → Option (α → α → α)) (sub : Reader τ ε α) : Reader τ ε α := fun l ↦ do
  let (a, l) ← sub l
  loop op sub l.length a l

/-- A reader that takes something off. -/
def Shortens (sub : Reader τ ε α) : Prop := ∀ {l a r}, sub l = .ok (a, r) → r.length < l.length

variable {op : τ → Option (α → α → α)} {sub : Reader τ ε α} {a b : α} {l r : List τ} {t : τ} {n m : ℕ}

theorem bind_eq_ok {β γ : Type} {x : Except ε β} {f : β → Except ε γ} {c : γ} :
    (x >>= f) = .ok c ↔ ∃ b, x = .ok b ∧ f b = .ok c := by
  cases x with
  | error e => exact iff_of_false nofun fun ⟨_, h, _⟩ ↦ nomatch h
  | ok b => exact ⟨fun h ↦ ⟨b, rfl, h⟩, fun ⟨_, h, hf⟩ ↦ by rwa [Except.ok.inj h]⟩

theorem loop_length (hsub : Shortens sub) (h : loop op sub n a l = .ok (b, r)) :
    r.length ≤ l.length := by
  induction n generalizing a l with
  | zero =>
    cases h
    exact Nat.le_refl _
  | succ n ih =>
    cases l with
    | nil =>
      cases h
      exact Nat.le_refl _
    | cons t l =>
      rw [loop] at h
      split at h
      · cases h
        exact Nat.le_refl _
      · obtain ⟨⟨c, l'⟩, hc, h⟩ := bind_eq_ok.mp h
        have hlt := hsub hc
        have hle := ih h
        rw [List.length_cons]
        omega

theorem chain_shortens (hsub : Shortens sub) : Shortens (chain op sub) := by
  intro l a r h
  obtain ⟨⟨c, l'⟩, hc, h⟩ := bind_eq_ok.mp h
  exact Nat.lt_of_le_of_lt (loop_length hsub h) (hsub hc)

/-- Turns past the length of the list change nothing. -/
theorem loop_fuel (hsub : Shortens sub) (hn : l.length ≤ n) (hm : l.length ≤ m) :
    loop op sub n a l = loop op sub m a l := by
  induction n generalizing m a l with
  | zero =>
    obtain rfl := List.length_eq_zero_iff.mp (Nat.le_zero.mp hn)
    cases m <;> rfl
  | succ n ih =>
    cases l with
    | nil => cases m <;> rfl
    | cons t l =>
      obtain ⟨m, rfl⟩ := Nat.exists_eq_succ_of_ne_zero (Nat.ne_of_gt (Nat.lt_of_lt_of_le
        (Nat.succ_pos _) hm))
      rw [loop, loop]
      split
      · rfl
      · rcases hc : sub l with e | ⟨c, l'⟩
        · rfl
        · have hlt := hsub hc
          rw [List.length_cons] at hn hm
          exact ih (by omega) (by omega)

/-- One operand more is read, and the loop goes on with all that was read before as one. -/
theorem loop_cons {f : α → α → α} (hsub : Shortens sub) (hop : op t = some f)
    (hb : sub l = .ok (b, r)) :
    loop op sub (t :: l).length a (t :: l) = loop op sub r.length (f a b) r := by
  rw [List.length_cons, loop, hop]
  dsimp only
  rw [hb]
  exact loop_fuel hsub (Nat.le_of_lt (hsub hb)) (Nat.le_refl _)

/-- The loop ends where no operator stands. -/
theorem loop_stop (h : ∀ t ∈ l.head?, op t = none) : loop op sub n a l = .ok (a, l) := by
  cases n with
  | zero => rfl
  | succ n =>
    cases l with
    | nil => rfl
    | cons t l => rw [loop, h t rfl]

/-- **What a loop reads** is what came before it with one operand after the other. -/
theorem exists_of_loop {P Q : List τ → α → Prop}
    (hstep : ∀ {ts us t f a b}, P ts a → op t = some f → Q us b → P (ts ++ t :: us) (f a b))
    (hsub : ∀ {l b r}, sub l = .ok (b, r) → ∃ us, l = us ++ r ∧ Q us b) {ts : List τ}
    (ha : P ts a) (h : loop op sub n a l = .ok (b, r)) : ∃ us, l = us ++ r ∧ P (ts ++ us) b := by
  induction n generalizing ts a l with
  | zero =>
    cases h
    exact ⟨[], rfl, by rwa [List.append_nil]⟩
  | succ n ih =>
    cases l with
    | nil =>
      cases h
      exact ⟨[], rfl, by rwa [List.append_nil]⟩
    | cons t l =>
      rw [loop] at h
      split at h
      · cases h
        exact ⟨[], rfl, by rwa [List.append_nil]⟩
      · rename_i f hop
        obtain ⟨⟨c, l'⟩, hc, hrest⟩ := bind_eq_ok.mp h
        obtain ⟨us, rfl, hus⟩ := hsub hc
        obtain ⟨vs, rfl, hvs⟩ := ih (hstep ha hop hus) hrest
        refine ⟨t :: us ++ vs, ?_, ?_⟩
        · rw [List.cons_append, List.cons_append, List.append_assoc]
        · rwa [List.append_assoc] at hvs

/-- What a chain reads. -/
theorem exists_of_chain {P Q : List τ → α → Prop}
    (hstep : ∀ {ts us t f a b}, P ts a → op t = some f → Q us b → P (ts ++ t :: us) (f a b))
    (hfirst : ∀ {us b}, Q us b → P us b)
    (hsub : ∀ {l b r}, sub l = .ok (b, r) → ∃ us, l = us ++ r ∧ Q us b)
    (h : chain op sub l = .ok (b, r)) : ∃ us, l = us ++ r ∧ P us b := by
  obtain ⟨⟨c, l'⟩, hc, hrest⟩ := bind_eq_ok.mp h
  obtain ⟨us, rfl, hus⟩ := hsub hc
  obtain ⟨vs, rfl, hvs⟩ := exists_of_loop hstep hsub (hfirst hus) hrest
  exact ⟨us ++ vs, (List.append_assoc _ _ _).symm, hvs⟩

end Chain
