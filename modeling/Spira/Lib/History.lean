import Mathlib.Data.List.Induction

/-!
# Runs of a deterministic machine, looking back

A machine here is nothing but a function `step : S → E → S`, and a run is the list of the events
it was given.  What a state machine remembers of its past is usually less than what its law is
about, so the laws are stated over the run itself, with two operators of past-time logic:

* `Since start keep s es` — some event of the run satisfied `start`, and every later one `keep`;
* `Always ok s es` — every event of the run satisfied `ok`.

Both take the state each event met, not only the event.  The one thing ever needed of them is how
they change when the run grows by one event at its end: `since_snoc` and `always_snoc`.  The
induction that goes with them is `always_induction`.
-/

set_option autoImplicit false

namespace History

variable {S E : Type*} (step : S → E → S)

/-- The state a run from `s` ends in. -/
def run (s : S) (es : List E) : S := es.foldl step s

@[simp] theorem run_nil (s : S) : run step s [] = s := rfl

@[simp] theorem run_snoc (s : S) (es : List E) (e : E) :
    run step s (es ++ [e]) = step (run step s es) e := by
  simp [run]

theorem run_append (s : S) (es fs : List E) :
    run step s (es ++ fs) = run step (run step s es) fs := by
  simp [run]

/-- Some event of the run satisfied `start` where it was met, and every later event satisfied
`keep`. -/
def Since (start keep : S → E → Prop) (s : S) (es : List E) : Prop :=
  ∃ pre e post, es = pre ++ e :: post ∧ start (run step s pre) e ∧
    ∀ p e' q, post = p ++ e' :: q → keep (run step s (pre ++ e :: p)) e'

/-- Every event of the run satisfied `ok` where it was met. -/
def Always (ok : S → E → Prop) (s : S) (es : List E) : Prop :=
  ∀ pre e post, es = pre ++ e :: post → ok (run step s pre) e

variable {step} {start keep ok : S → E → Prop} {s : S}

@[simp] theorem not_since_nil : ¬ Since step start keep s [] := by
  rintro ⟨pre, e, post, h, -⟩
  simp at h

/-- A start that no later event of the run can undo, wherever it is met. -/
theorem since_of_mem {pre post : List E} {e : E} (h : start (run step s pre) e)
    (hk : ∀ e' ∈ post, ∀ s, keep s e') : Since step start keep s (pre ++ e :: post) :=
  ⟨pre, e, post, rfl, h, fun p e' q hp ↦ hk e' (by simp [hp]) _⟩

theorem since_snoc {es : List E} {e : E} :
    Since step start keep s (es ++ [e]) ↔
      start (run step s es) e ∨ (Since step start keep s es ∧ keep (run step s es) e) := by
  constructor
  · rintro ⟨pre, a, post, h, hs, hk⟩
    rcases post.eq_nil_or_concat with rfl | ⟨post, b, rfl⟩
    · obtain ⟨rfl, rfl⟩ : pre = es ∧ a = e := by simpa using List.append_inj' h.symm rfl
      exact Or.inl hs
    · have h' : es = pre ++ a :: post ∧ e = b := by
        simpa using List.append_inj' (h.trans (by simp : _ = (pre ++ a :: post) ++ [b])) rfl
      obtain ⟨rfl, rfl⟩ := h'
      refine Or.inr ⟨⟨pre, a, post, rfl, hs, fun p c q hp ↦ ?_⟩, ?_⟩
      · exact hk p c (q ++ [e]) (by simp [hp])
      · exact hk post e [] (by simp)
  · rintro (hs | ⟨⟨pre, a, post, rfl, hs, hk⟩, hlast⟩)
    · exact ⟨es, e, [], rfl, hs, by simp⟩
    · refine ⟨pre, a, post ++ [e], by simp, hs, fun p c q hp ↦ ?_⟩
      rcases q.eq_nil_or_concat with rfl | ⟨q, d, rfl⟩
      · obtain ⟨rfl, rfl⟩ : post = p ∧ e = c := by simpa using List.append_inj' hp rfl
        exact hlast
      · have h' : post = p ++ c :: q ∧ e = d := by
          simpa using List.append_inj' (hp.trans (by simp : _ = (p ++ c :: q) ++ [d])) rfl
        exact hk p c q h'.1

theorem Since.exists_mem {es : List E} (h : Since step start keep s es) :
    ∃ e ∈ es, ∃ s, start s e := by
  obtain ⟨pre, e, post, rfl, hs, -⟩ := h
  exact ⟨e, by simp, _, hs⟩

theorem Since.mono {keep' : S → E → Prop} {es : List E} (h : Since step start keep s es)
    (hk : ∀ s e, keep s e → keep' s e) : Since step start keep' s es := by
  obtain ⟨pre, e, post, rfl, hs, hpost⟩ := h
  exact ⟨pre, e, post, rfl, hs, fun p e' q hp ↦ hk _ _ (hpost p e' q hp)⟩

/-- What has not happened while `keep` held may be added to what held since. -/
theorem Since.and_not {bad keep' : S → E → Prop} {es : List E} (h : Since step start keep s es)
    (hb : ¬ Since step bad keep' s es) (hk : ∀ s e, keep s e → keep' s e) :
    Since step start (fun s e ↦ keep s e ∧ ¬ bad s e) s es := by
  induction es using List.reverseRecOn with
  | nil => exact absurd h not_since_nil
  | append_singleton es e ih =>
    rw [since_snoc, not_or, not_and] at hb
    obtain hs | ⟨h, hke⟩ := since_snoc.mp h
    · exact since_snoc.mpr (.inl hs)
    · exact since_snoc.mpr (.inr ⟨ih h fun h' ↦ hb.2 h' (hk _ _ hke), hke, hb.1⟩)

/-- Two events that each end what holds since the other are not both the last of the run. -/
theorem Since.false_of {bad keep' : S → E → Prop} {es : List E} (h : Since step start keep s es)
    (hb : Since step bad keep' s es) (hsb : ∀ s e, start s e → ¬ bad s e ∧ ¬ keep' s e)
    (hbk : ∀ s e, bad s e → ¬ keep s e) : False := by
  induction es using List.reverseRecOn with
  | nil => exact not_since_nil h
  | append_singleton es e ih =>
    obtain hs | ⟨h, hk⟩ := since_snoc.mp h <;> obtain hb | ⟨hb, hk'⟩ := since_snoc.mp hb
    · exact (hsb _ _ hs).1 hb
    · exact (hsb _ _ hs).2 hk'
    · exact hbk _ _ hb hk
    · exact ih h hb

@[simp] theorem always_nil : Always step ok s [] := by
  rintro pre e post h
  simp at h

theorem always_snoc {es : List E} {e : E} :
    Always step ok s (es ++ [e]) ↔ Always step ok s es ∧ ok (run step s es) e := by
  constructor
  · intro h
    exact ⟨fun pre a post hes ↦ h pre a (post ++ [e]) (by simp [hes]), h es e [] rfl⟩
  · rintro ⟨h, hlast⟩ pre a post hes
    rcases post.eq_nil_or_concat with rfl | ⟨post, b, rfl⟩
    · obtain ⟨rfl, rfl⟩ : es = pre ∧ e = a := by simpa using List.append_inj' hes rfl
      exact hlast
    · have h' : es = pre ++ a :: post ∧ e = b := by
        simpa using List.append_inj' (hes.trans (by simp : _ = (pre ++ a :: post) ++ [b])) rfl
      exact h pre a post h'.1

theorem Always.of_append {es fs : List E} (h : Always step ok s (es ++ fs)) :
    Always step ok s es :=
  fun pre a post hes ↦ h pre a (post ++ fs) (by simp [hes])

theorem always_append {es fs : List E} :
    Always step ok s (es ++ fs) ↔ Always step ok s es ∧ Always step ok (run step s es) fs := by
  induction fs using List.reverseRecOn with
  | nil => simp
  | append_singleton fs f ih =>
    rw [← List.append_assoc, always_snoc, always_snoc, ih, run_append, and_assoc]

theorem always_cons {e : E} {es : List E} :
    Always step ok s (e :: es) ↔ ok s e ∧ Always step ok (step s e) es := by
  have hone : Always step ok s [e] ↔ ok s e := by
    have hsnoc : Always step ok s ([] ++ [e]) ↔ _ := always_snoc
    rw [List.nil_append] at hsnoc
    rw [hsnoc, run_nil]
    exact and_iff_right always_nil
  have happend : Always step ok s ([e] ++ es) ↔ _ := always_append
  rw [hone] at happend
  exact happend

theorem Always.mono {ok' : S → E → Prop} {es : List E} (h : Always step ok s es)
    (himp : ∀ s e, ok s e → ok' s e) : Always step ok' s es :=
  fun pre e post hes ↦ himp _ _ (h pre e post hes)

/-- Induction along a run every event of which satisfied `ok`. -/
theorem always_induction {J : List E → Prop} (nil : J [])
    (snoc : ∀ es e, Always step ok s es → J es → ok (run step s es) e → J (es ++ [e])) :
    ∀ es, Always step ok s es → J es := by
  intro es
  induction es using List.reverseRecOn with
  | nil => exact fun _ ↦ nil
  | append_singleton es e ih =>
    intro h
    obtain ⟨h₁, h₂⟩ := always_snoc.mp h
    exact snoc es e h₁ (ih h₁) h₂

/-- An invariant of the state, kept by every event that satisfies `ok`. -/
theorem invariant_of_always {I : S → Prop} (init : I s)
    (kept : ∀ s e, I s → ok s e → I (step s e)) {es : List E} (h : Always step ok s es) :
    I (run step s es) := by
  refine always_induction (J := fun es ↦ I (run step s es)) init (fun es e _ ih hok ↦ ?_) es h
  rw [run_snoc]
  exact kept _ _ ih hok

end History
