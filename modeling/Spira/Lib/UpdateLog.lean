import Mathlib.Data.List.Induction
import Mathlib.Order.Defs.Unbundled

/-!
# Logs of stamped updates

A store with snapshots keeps, for every key, the updates made to it, each stamped with the revision
that made it; some of them are deletions.  Here the updates of all keys are one list, oldest first.

* `newest es k n` is the last update of `k` stamped at most `n`, and `live es k n` is what a read of
  `k` at `n` finds: that update, unless it is a deletion.
* `compact c es` is the log compacted at `c`: of the updates stamped at most `c` it keeps, for each
  key, the newest, and that one only if it is live.

`live_compact` says that compaction changes no read at or above `c`, and `compact_window` that a log
compacted once at `c` can be compacted at a later `d` by looking only at the updates stamped in
`(c, d]`.
-/

set_option autoImplicit false

namespace UpdateLog

variable {E K : Type*} [DecidableEq K] (key : E → K) (stamp : E → ℕ) (dead : E → Bool)

/-- The last update of `k` stamped at most `n`. -/
def newest (es : List E) (k : K) (n : ℕ) : Option E :=
  es.reverse.find? fun e ↦ key e = k ∧ stamp e ≤ n

/-- What a read of `k` at `n` finds. -/
def live (es : List E) (k : K) (n : ℕ) : Option E :=
  (newest key stamp es k n).filter fun e ↦ !dead e

/-- No update of the same key stamped at most `c` is later than `e`. -/
def Latest (c : ℕ) (es : List E) (e : E) : Prop :=
  ∀ e' ∈ es, key e' = key e → stamp e' ≤ c → stamp e' ≤ stamp e

/-- The updates a compaction at `c` keeps. -/
def Survives (c : ℕ) (es : List E) (e : E) : Prop :=
  c < stamp e ∨ (dead e = false ∧ Latest key stamp c es e)

instance (c : ℕ) (es : List E) (e : E) : Decidable (Survives key stamp dead c es e) :=
  inferInstanceAs (Decidable (_ ∨ (_ ∧ ∀ e' ∈ es, _)))

/-- The log compacted at `c`. -/
def compact (c : ℕ) (es : List E) : List E := es.filter (Survives key stamp dead c es)

/-- Stamps never decrease along the log, and two updates of one key have different ones. -/
def Ordered (es : List E) : Prop :=
  es.Pairwise fun a b ↦ stamp a ≤ stamp b ∧ (key a = key b → stamp a < stamp b)

variable {key stamp dead} {es fs : List E} {k : K} {n c d : ℕ} {e : E}

/-! ## Reads -/

@[simp] theorem newest_nil : newest key stamp [] k n = none := rfl

theorem newest_snoc :
    newest key stamp (es ++ [e]) k n =
      if key e = k ∧ stamp e ≤ n then some e else newest key stamp es k n := by
  rw [newest, List.reverse_append, List.reverse_singleton, List.singleton_append,
    List.find?_cons]
  split <;> rename_i h
  · rw [if_pos (by simpa using h)]
  · rw [if_neg (by simpa using h), newest]

/-- Updates stamped above `n` are not read at `n`. -/
theorem newest_append_later (h : ∀ e ∈ fs, n < stamp e) :
    newest key stamp (es ++ fs) k n = newest key stamp es k n := by
  induction fs using List.reverseRecOn with
  | nil => rw [List.append_nil]
  | append_singleton fs e ih =>
    have he : ¬(key e = k ∧ stamp e ≤ n) := fun h' ↦ absurd (h e (by simp)) (by omega)
    rw [← List.append_assoc, newest_snoc, if_neg he, ih fun e' he' ↦ h e' (by simp [he'])]

/-- A read sees nothing between the last stamp and its own. -/
theorem newest_mono (h : ∀ e ∈ es, stamp e ≤ c) (hcn : c ≤ n) :
    newest key stamp es k n = newest key stamp es k c := by
  induction es using List.reverseRecOn with
  | nil => rfl
  | append_singleton es e ih =>
    have he : stamp e ≤ c := h e (by simp)
    rw [newest_snoc, newest_snoc, ih fun e' he' ↦ h e' (by simp [he'])]
    simp [he, Nat.le_trans he hcn]

theorem live_append_later (h : ∀ e ∈ fs, n < stamp e) :
    live key stamp dead (es ++ fs) k n = live key stamp dead es k n := by
  rw [live, newest_append_later h, live]

theorem live_mono (h : ∀ e ∈ es, stamp e ≤ c) (hcn : c ≤ n) :
    live key stamp dead es k n = live key stamp dead es k c := by
  rw [live, newest_mono h hcn, live]

theorem live_snoc :
    live key stamp dead (es ++ [e]) k n =
      if key e = k ∧ stamp e ≤ n then (if dead e then none else some e)
      else live key stamp dead es k n := by
  rw [live, newest_snoc]
  split
  · cases hd : dead e <;> simp [Option.filter, hd]
  · rfl

/-- Reads of a log in another form are the reads of the log, in that form. -/
theorem live_map {F : Type*} {f : F → E} {rows : List F} :
    live key stamp dead (rows.map f) k n =
      (live (key ∘ f) (stamp ∘ f) (dead ∘ f) rows k n).map f := by
  induction rows using List.reverseRecOn with
  | nil => rfl
  | append_singleton rows e ih =>
    rw [List.map_append, List.map_singleton, live_snoc, live_snoc, ih]
    simp only [Function.comp_apply]
    split_ifs <;> rfl

/-- In a log whose stamps never decrease, what is stamped above `n` is what follows the rest. -/
theorem dropWhile_stamp (h : es.Pairwise fun a b ↦ stamp a ≤ stamp b) :
    es.dropWhile (fun e ↦ stamp e ≤ n) = es.filter fun e ↦ n < stamp e := by
  induction es with
  | nil => rfl
  | cons e es ih =>
    obtain ⟨he, hes⟩ := List.pairwise_cons.mp h
    rcases Nat.lt_or_ge n (stamp e) with hn | hn
    · have hall : ∀ e' ∈ e :: es, n < stamp e' := by
        intro e' he'
        obtain rfl | he' := List.mem_cons.mp he'
        · exact hn
        · exact Nat.lt_of_lt_of_le hn (he e' he')
      rw [List.dropWhile_cons_of_neg (by simpa using hn), List.filter_eq_self.mpr]
      exact fun e' he' ↦ by simpa using hall e' he'
    · rw [List.dropWhile_cons_of_pos (by simpa using hn),
        List.filter_cons_of_neg (by simpa using hn), ih hes]

/-! ## Windows -/

/-- What is stamped after `a` and not after `b`. -/
def window {E : Type*} (stamp : E → ℕ) (a b : ℕ) (es : List E) : List E :=
  es.filter fun e ↦ a < stamp e ∧ stamp e ≤ b

@[simp] theorem window_self {a : ℕ} : window stamp a a es = [] := by
  rw [window, List.filter_eq_nil_iff]
  intro e _
  simp

/-- Windows that meet are one. -/
theorem window_append (h : es.Pairwise fun x y ↦ stamp x ≤ stamp y) {a b c : ℕ} (hab : a ≤ b)
    (hbc : b ≤ c) : window stamp a c es = window stamp a b es ++ window stamp b c es := by
  induction es with
  | nil => rfl
  | cons e es ih =>
    obtain ⟨he, hes⟩ := List.pairwise_cons.mp h
    have ih := ih hes
    simp only [window, List.filter_cons, decide_eq_true_eq] at ih ⊢
    rcases Nat.lt_or_ge b (stamp e) with hb | hb
    · -- Nothing from here on is in the first window.
      have hnil : es.filter (fun e ↦ decide (a < stamp e ∧ stamp e ≤ b)) = [] := by
        rw [List.filter_eq_nil_iff]
        intro e' he'
        have hle := he e' he'
        simp only [decide_eq_true_eq]
        omega
      rw [ih, hnil, List.nil_append, if_neg (by omega : ¬(a < stamp e ∧ stamp e ≤ b)),
        List.nil_append]
      split_ifs <;> first | rfl | omega
    · rw [ih, if_neg (by omega : ¬(b < stamp e ∧ stamp e ≤ c))]
      split_ifs <;> first | rfl | omega

theorem window_append_later {a b : ℕ} (h : ∀ e ∈ fs, b < stamp e) :
    window stamp a b (es ++ fs) = window stamp a b es := by
  have hnil : window stamp a b fs = [] := by
    rw [window, List.filter_eq_nil_iff]
    intro e he
    have hb := h e he
    simp only [decide_eq_true_eq]
    omega
  rw [window, List.filter_append, ← window, ← window, hnil, List.append_nil]

/-! ## Ordered logs -/

theorem newest_eq_none : newest key stamp es k n = none ↔ ∀ e ∈ es, key e = k → n < stamp e := by
  simp [newest]

theorem mem_of_newest (h : newest key stamp es k n = some e) :
    e ∈ es ∧ key e = k ∧ stamp e ≤ n := by
  have h₁ := List.mem_of_find?_eq_some h
  have h₂ := List.find?_some h
  simp only [decide_eq_true_eq] at h₂
  exact ⟨by simpa using h₁, h₂⟩

/-- In an ordered log the newest update is the one with the greatest stamp. -/
theorem newest_iff (ho : Ordered key stamp es) :
    newest key stamp es k n = some e ↔
      e ∈ es ∧ key e = k ∧ stamp e ≤ n ∧
        ∀ e' ∈ es, key e' = k → stamp e' ≤ n → stamp e' ≤ stamp e := by
  induction es using List.reverseRecOn with
  | nil => simp
  | append_singleton es a ih =>
    obtain ⟨hes, -, ha⟩ := List.pairwise_append.mp ho
    have ha : ∀ x ∈ es, stamp x ≤ stamp a ∧ (key x = key a → stamp x < stamp a) :=
      fun x hx ↦ ha x hx a (by simp)
    rw [newest_snoc]
    split
    · rename_i hk
      constructor
      · rintro ⟨rfl⟩
        refine ⟨by simp, hk.1, hk.2, fun e' he' _ _ ↦ ?_⟩
        obtain he' | he' := List.mem_append.mp he'
        · exact (ha e' he').1
        · exact Nat.le_of_eq (congrArg stamp (List.mem_singleton.mp he'))
      · rintro ⟨he, hke, -, hmax⟩
        obtain he | he := List.mem_append.mp he
        · have h₁ := (ha e he).2 (hke.trans hk.1.symm)
          have h₂ := hmax a (by simp) hk.1 hk.2
          omega
        · rw [List.mem_singleton.mp he]
    · rename_i hk
      rw [ih hes]
      constructor
      · rintro ⟨he, hke, hn, hmax⟩
        refine ⟨by simp [he], hke, hn, fun e' he' hk' hn' ↦ ?_⟩
        obtain he' | he' := List.mem_append.mp he'
        · exact hmax e' he' hk' hn'
        · rw [List.mem_singleton.mp he'] at hk' hn'
          exact absurd ⟨hk', hn'⟩ hk
      · rintro ⟨he, hke, hn, hmax⟩
        obtain he | he := List.mem_append.mp he
        · exact ⟨he, hke, hn, fun e' he' ↦ hmax e' (by simp [he'])⟩
        · rw [List.mem_singleton.mp he] at hke hn
          exact absurd ⟨hke, hn⟩ hk

theorem live_iff (ho : Ordered key stamp es) :
    live key stamp dead es k n = some e ↔
      e ∈ es ∧ key e = k ∧ stamp e ≤ n ∧ dead e = false ∧ Latest key stamp n es e := by
  rw [live, Option.filter_eq_some_iff, newest_iff ho]
  constructor
  · rintro ⟨⟨he, rfl, hn, hmax⟩, hd⟩
    exact ⟨he, rfl, hn, by simpa using hd, hmax⟩
  · rintro ⟨he, rfl, hn, hd, hmax⟩
    exact ⟨⟨he, rfl, hn, hmax⟩, by simpa using hd⟩

/-! ## Compaction -/

theorem mem_compact : e ∈ compact key stamp dead c es ↔ e ∈ es ∧ Survives key stamp dead c es e := by
  simp [compact]

theorem Ordered.compact (ho : Ordered key stamp es) :
    Ordered key stamp (compact key stamp dead c es) :=
  List.Pairwise.filter _ ho

/-- **Compaction changes no read at or above it.** -/
theorem live_compact (ho : Ordered key stamp es) (hcn : c ≤ n) :
    live key stamp dead (compact key stamp dead c es) k n = live key stamp dead es k n := by
  refine Option.ext fun e ↦ ?_
  rw [live_iff ho.compact, live_iff ho]
  constructor
  · rintro ⟨he, rfl, hn, hd, hmax⟩
    obtain ⟨he, hs⟩ := mem_compact.mp he
    refine ⟨he, rfl, hn, hd, fun e' he' hk' hn' ↦ ?_⟩
    -- A later update of the key is above `c`, where compaction keeps everything, or at most `c`.
    rcases Nat.lt_or_ge c (stamp e') with hc | hc
    · exact hmax e' (mem_compact.mpr ⟨he', .inl hc⟩) hk' hn'
    · rcases hs with hs | ⟨-, hs⟩
      · omega
      · exact hs e' he' hk' hc
  · rintro ⟨he, rfl, hn, hd, hmax⟩
    refine ⟨mem_compact.mpr ⟨he, .inr ⟨hd, fun e' he' hk' hc ↦ ?_⟩⟩, rfl, hn, hd, ?_⟩
    · exact hmax e' he' hk' (Nat.le_trans hc hcn)
    · exact fun e' he' ↦ hmax e' (mem_compact.mp he').1

/-- Compacting again, later, is compacting once. -/
theorem compact_compact (hcd : c ≤ d) :
    compact key stamp dead d (compact key stamp dead c es) = compact key stamp dead d es := by
  rw [compact, compact, List.filter_filter, compact]
  refine List.filter_congr fun e he ↦ ?_
  rw [← compact, Bool.eq_iff_iff, Bool.and_eq_true, decide_eq_true_eq, decide_eq_true_eq,
    decide_eq_true_eq]
  constructor
  · rintro ⟨hd | ⟨hlive, hmax⟩, hs⟩
    · exact .inl hd
    · refine .inr ⟨hlive, fun e' he' hk' hd' ↦ ?_⟩
      rcases Nat.lt_or_ge c (stamp e') with hc' | hc'
      · exact hmax e' (mem_compact.mpr ⟨he', .inl hc'⟩) hk' hd'
      · rcases hs with hs | ⟨-, hs⟩
        · omega
        · exact hs e' he' hk' hc'
  · rintro (hd | ⟨hlive, hmax⟩)
    · exact ⟨.inl hd, .inl (by omega)⟩
    · refine ⟨.inr ⟨hlive, fun e' he' ↦ hmax e' (mem_compact.mp he').1⟩, .inr ⟨hlive, ?_⟩⟩
      exact fun e' he' hk' hc' ↦ hmax e' he' hk' (Nat.le_trans hc' hcd)

theorem survives_compact (h : e ∈ compact key stamp dead c es) :
    Survives key stamp dead c (compact key stamp dead c es) e := by
  rw [← compact_compact (Nat.le_refl c)] at h
  exact (mem_compact.mp h).2

/-- What is stamped above `c` survives a compaction at `c`. -/
theorem compact_append_later (h : ∀ e ∈ fs, c < stamp e) :
    compact key stamp dead c (es ++ fs) = compact key stamp dead c es ++ fs := by
  have hes : ∀ e ∈ es, Survives key stamp dead c (es ++ fs) e ↔ Survives key stamp dead c es e := by
    intro e _
    refine or_congr_right (and_congr_right fun _ ↦ ⟨fun hl e' he' ↦ hl e' (by simp [he']), ?_⟩)
    intro hl e' he' hk' hc
    obtain he' | he' := List.mem_append.mp he'
    · exact hl e' he' hk' hc
    · exact absurd (h e' he') (by omega)
  rw [compact, List.filter_append, compact]
  congr 1
  · exact List.filter_congr fun e he ↦ by simp only [hes e he]
  · exact List.filter_eq_self.mpr fun e he ↦ by simp [Survives, h e he]

/-- Above its point a compaction keeps everything. -/
theorem filter_compact (hcn : c ≤ n) :
    (compact key stamp dead c es).filter (fun e ↦ n < stamp e) = es.filter fun e ↦ n < stamp e := by
  rw [compact, List.filter_filter]
  refine List.filter_congr fun e _ ↦ ?_
  rw [Bool.and_eq_left_iff_imp, decide_eq_true_eq, decide_eq_true_eq]
  exact fun h ↦ .inl (Nat.lt_of_le_of_lt hcn h)

section Window

variable (key stamp dead c d)

/-- `o` is superseded by an update stamped in the window. -/
def SupersededIn (rows : List E) (o : E) : Prop :=
  ∃ n ∈ rows, key n = key o ∧ stamp o < stamp n ∧ c < stamp n ∧ stamp n ≤ d

/-- `o` is a deletion stamped in the window. -/
def DeadIn (o : E) : Prop := c < stamp o ∧ stamp o ≤ d ∧ dead o = true

instance (rows : List E) (o : E) : Decidable (SupersededIn key stamp c d rows o) :=
  inferInstanceAs (Decidable (∃ n ∈ rows, _))

instance (o : E) : Decidable (DeadIn stamp dead c d o) := inferInstanceAs (Decidable (_ ∧ _))

/-- A compaction that looks only at the window `(c, d]`: it drops what an update of the window
supersedes, and then the deletions of the window. -/
def compactWindow (rows : List E) : List E :=
  (rows.filter fun o ↦ ¬ SupersededIn key stamp c d rows o).filter fun o ↦ ¬ DeadIn stamp dead c d o

variable {key stamp dead c d}

/-- **Rows already compacted at `c` are compacted at `d` by looking at the window `(c, d]`
alone.** -/
theorem compact_window {rows : List E}
    (hrows : ∀ e ∈ rows, Survives key stamp dead c rows e) :
    compactWindow key stamp dead c d rows = compact key stamp dead d rows := by
  rw [compactWindow, List.filter_filter, compact]
  refine List.filter_congr fun e he ↦ ?_
  rw [Bool.eq_iff_iff]
  simp only [Bool.and_eq_true, decide_eq_true_eq]
  constructor
  · rintro ⟨hdead, hsup⟩
    rcases Nat.lt_or_ge d (stamp e) with hd | hd
    · exact .inl hd
    refine .inr ⟨?_, fun e' he' hk' hd' ↦ ?_⟩
    · rcases hrows e he with hs | hs
      · by_contra h
        exact hdead ⟨hs, hd, by simpa using h⟩
      · exact hs.1
    · by_contra hlt
      rcases Nat.lt_or_ge c (stamp e') with hc' | hc'
      · exact hsup ⟨e', he', hk', by omega, hc', hd'⟩
      · rcases hrows e he with hs | ⟨-, hs⟩
        · omega
        · exact hlt (hs e' he' hk' hc')
  · rintro (hd | ⟨hlive, hmax⟩)
    · refine ⟨fun h ↦ absurd h.2.1 (by omega), ?_⟩
      rintro ⟨n, -, -, h₁, -, h₂⟩
      omega
    · refine ⟨fun h ↦ absurd (hlive.symm.trans h.2.2) (by simp), ?_⟩
      rintro ⟨n, hn, hk, h₁, -, h₂⟩
      have := hmax n hn hk h₂
      omega

end Window

end UpdateLog
