import Mathlib.Data.List.Basic

/-!
# Programs over a state that may stop

A program `StateT σ (Except ε) α` runs over a state and ends with an answer, or stops with an `ε`
and no state at all.  `Ends x s Q` — "if `x` ends from `s`, it ends in `Q`" — is its weakest
liberal precondition, and has a rule for each way such a program is put together; a loop's rule
asks for an invariant of the part it has gone through.  `Stops E x` is of the other way to end:
whatever `x` stops with is in `E`, from any state.
-/

set_option autoImplicit false

namespace Stopping

variable {σ ε α β : Type}

/-- If the program ends from `s`, its answer and its state are in `Q`. -/
def Ends (x : StateT σ (Except ε) α) (s : σ) (Q : α → σ → Prop) : Prop :=
  ∀ a s', x s = .ok (a, s') → Q a s'

variable {s : σ} {Q Q' : α → σ → Prop}

theorem Ends.imp {x : StateT σ (Except ε) α} (h : Ends x s Q) (hQ : ∀ a s', Q a s' → Q' a s') :
    Ends x s Q' :=
  fun a s' hx ↦ hQ a s' (h a s' hx)

theorem Ends.and {x : StateT σ (Except ε) α} (h : Ends x s Q) (h' : Ends x s Q') :
    Ends x s fun a s' ↦ Q a s' ∧ Q' a s' :=
  fun a s' hx ↦ ⟨h a s' hx, h' a s' hx⟩

theorem ends_pure {a : α} (h : Q a s) : Ends (pure a : StateT σ (Except ε) α) s Q := by
  intro b s' hx
  obtain ⟨rfl, rfl⟩ := Prod.mk.inj (Except.ok.inj hx)
  exact h

theorem ends_bind {x : StateT σ (Except ε) α} {f : α → StateT σ (Except ε) β} {Q : β → σ → Prop}
    (h : Ends x s fun a s' ↦ Ends (f a) s' Q) : Ends (x >>= f) s Q := by
  intro b s'' hx
  cases hs : x s with
  | error e =>
    have hstop : (x >>= f) s = .error e := by
      change (x s >>= fun p ↦ f p.1 p.2) = _
      rw [hs]
      rfl
    rw [hstop] at hx
    cases hx
  | ok p =>
    have hgo : (x >>= f) s = f p.1 p.2 := by
      change (x s >>= fun p ↦ f p.1 p.2) = _
      rw [hs]
      rfl
    rw [hgo] at hx
    exact h p.1 p.2 hs b s'' hx

theorem ends_throw {e : ε} : Ends (throw e : StateT σ (Except ε) α) s Q := fun _ _ h ↦ nomatch h

theorem ends_modify {f : σ → σ} {Q : Unit → σ → Prop} (h : Q () (f s)) :
    Ends (modify f : StateT σ (Except ε) Unit) s Q := by
  intro a s' hx
  obtain ⟨rfl, rfl⟩ := Prod.mk.inj (Except.ok.inj hx)
  exact h

theorem ends_ite {c : Prop} [Decidable c] {x y : StateT σ (Except ε) α} (hx : c → Ends x s Q)
    (hy : ¬ c → Ends y s Q) : Ends (if c then x else y) s Q := by
  split
  · exact hx ‹c›
  · exact hy ‹¬ c›

/-- **The rule of a loop**: what holds of the part gone through and of the answer so far. -/
theorem ends_foldlM {f : β → α → StateT σ (Except ε) β} {I : List α → β → σ → Prop} {l : List α}
    {b : β} (hstart : I [] b s)
    (hstep : ∀ done a rest, l = done ++ a :: rest → ∀ b s, I done b s →
      Ends (f b a) s (I (done ++ [a]))) :
    Ends (l.foldlM f b) s (I l) := by
  suffices h : ∀ rest done b s, l = done ++ rest → I done b s → Ends (rest.foldlM f b) s (I l) from
    h l [] b s rfl hstart
  intro rest
  induction rest with
  | nil =>
    intro done b s hl hi
    rw [List.append_nil] at hl
    subst hl
    exact ends_pure hi
  | cons a rest ih =>
    intro done b s hl hi
    rw [List.foldlM_cons]
    refine ends_bind ((hstep done a rest hl b s hi).imp fun b' s' hi' ↦ ?_)
    exact ih (done ++ [a]) b' s' (by simp [hl]) hi'

/-- The rule of a loop that has no answer of its own. -/
theorem ends_forM {f : α → StateT σ (Except ε) PUnit} {I : List α → σ → Prop} {l : List α}
    (hstart : I [] s)
    (hstep : ∀ done a rest, l = done ++ a :: rest → ∀ s, I done s →
      Ends (f a) s fun _ s' ↦ I (done ++ [a]) s') :
    Ends (l.forM f) s fun _ s' ↦ I l s' := by
  suffices h : ∀ rest done s, l = done ++ rest → I done s →
      Ends (rest.forM f) s fun _ s' ↦ I l s' from h l [] s rfl hstart
  intro rest
  induction rest with
  | nil =>
    intro done s hl hi
    rw [List.append_nil] at hl
    subst hl
    exact ends_pure hi
  | cons a rest ih =>
    intro done s hl hi
    rw [List.forM_eq_forM, List.forM_cons]
    exact ends_bind ((hstep done a rest hl s hi).imp fun _ s' hi' ↦
      ih (done ++ [a]) s' (by simp [hl]) hi')

/-! ## What a program stops with -/

/-- If the program stops, it stops with an `ε` of `E`. -/
def Stops (E : ε → Prop) (x : StateT σ (Except ε) α) : Prop := ∀ s e, x s = .error e → E e

variable {E : ε → Prop}

theorem stops_pure {a : α} : Stops E (pure a : StateT σ (Except ε) α) := fun _ _ h ↦ nomatch h

theorem stops_modify {f : σ → σ} : Stops E (modify f : StateT σ (Except ε) PUnit) :=
  fun _ _ h ↦ nomatch h

theorem stops_throw {e : ε} (h : E e) : Stops E (throw e : StateT σ (Except ε) α) := by
  intro s e' hx
  obtain rfl := Except.error.inj hx
  exact h

theorem stops_bind {x : StateT σ (Except ε) α} {f : α → StateT σ (Except ε) β} (hx : Stops E x)
    (hf : ∀ a, Stops E (f a)) : Stops E (x >>= f) := by
  intro s e h
  change (x s >>= fun p ↦ f p.1 p.2) = _ at h
  cases hs : x s with
  | error e' =>
    rw [hs] at h
    obtain rfl := Except.error.inj h
    exact hx s e' hs
  | ok p =>
    rw [hs] at h
    exact hf p.1 p.2 e h

theorem stops_ite {c : Prop} [Decidable c] {x y : StateT σ (Except ε) α} (hx : Stops E x)
    (hy : Stops E y) : Stops E (if c then x else y) := by
  split
  · exact hx
  · exact hy

theorem stops_foldlM {f : β → α → StateT σ (Except ε) β} {l : List α} {b : β}
    (h : ∀ b a, Stops E (f b a)) : Stops E (l.foldlM f b) := by
  induction l generalizing b with
  | nil => exact stops_pure
  | cons a l ih =>
    rw [List.foldlM_cons]
    exact stops_bind (h b a) fun _ ↦ ih

theorem stops_forM {f : α → StateT σ (Except ε) PUnit} {l : List α} (h : ∀ a, Stops E (f a)) :
    Stops E (l.forM f) := by
  induction l with
  | nil => exact stops_pure
  | cons a l ih =>
    rw [List.forM_eq_forM, List.forM_cons]
    exact stops_bind (h a) fun _ ↦ ih

end Stopping
