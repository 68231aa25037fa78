import Mathlib.Order.Basic

/-!
# Passes until one changes nothing

`settle` makes pass after pass, and stops at the first that leaves the size as it was.  It keeps
what a pass keeps (`settle_keeps`), and what it stops at is settled where each other pass goes
down by a measure that the passes allowed for are more than (`settle_settled`).
-/

set_option autoImplicit false

namespace Settle

variable {α : Type} {size : α → ℕ} {pass : α → α} {I : α → Prop}

/-- Passes until one leaves the size as it was, at most `n` of them. -/
def settle (size : α → ℕ) (pass : α → α) : ℕ → α → α
  | 0, x => x
  | n + 1, x => if size (pass x) = size x then pass x else settle size pass n (pass x)

theorem settle_keeps (hpass : ∀ x, I x → I (pass x)) :
    ∀ (n : ℕ) {x : α}, I x → I (settle size pass n x)
  | 0, _, h => h
  | n + 1, x, h => by
    rw [settle]
    split
    · exact hpass x h
    · exact settle_keeps hpass n (hpass x h)

/-- What is settled is the last pass, of something whose size it leaves. -/
theorem settle_settled (hpass : ∀ x, I x → I (pass x)) (μ : α → ℕ)
    (hμ : ∀ x, I x → size (pass x) ≠ size x → μ (pass x) < μ x) :
    ∀ {n : ℕ} {x : α}, I x → μ x < n →
      ∃ y, I y ∧ size (pass y) = size y ∧ settle size pass n x = pass y
  | n + 1, x, h, hn => by
    rw [settle]
    split
    · rename_i hsize
      exact ⟨x, h, hsize, rfl⟩
    · rename_i hsize
      have hlt := hμ x h hsize
      exact settle_settled hpass μ hμ (hpass x h) (by omega)

end Settle
