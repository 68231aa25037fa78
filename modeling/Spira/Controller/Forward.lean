import Spira.Controller.Lander
import Spira.Controller.Lane

/-!
# The lane never moves back

`lane::record` reads the lane before it reads git, so what it writes is no earlier than what it
read. The Lander reads git first, and the compare guards only the lane's revision: a commit
recorded in between is what it reads, compares and writes over.  So the lane moves only forward in
the runs in which no Lander reads a lane that was recorded, since it looked at git, beyond what it
carries.

`Onward` is what every access of every program and of the surroundings leaves of an earlier world,
and `Forward` is what a program's own accesses are besides.
-/

set_option autoImplicit false

namespace Spira.Controller

open Batch Records

variable (git : Ancestry)

/-- The condition on what is told of a run. -/
structure InOrder (told : List Happened) : Prop where
  /-- No Lander reads a lane that was recorded, since it first looked at the landing ref, beyond what
  it is to record. -/
  abreast (token : ℕ) (at_ v : String) (h : git.Behind at_ v) :
    ¬ List.Sublist [.decided token, .lane v, .readLane token at_] told
  /-- A Lander that set out to land a head finds the round naming it. -/
  named (head : String) (found : Option String) (h : .named head found ∈ told) : found = some head

variable {git}

theorem InOrder.of_append {told new : List Happened} (h : InOrder git (told ++ new)) :
    InOrder git told where
  abreast token at_ v hb hs := h.abreast token at_ v hb (hs.trans (List.sublist_append_left _ _))
  named head found hm := h.named head found (List.mem_append_left _ hm)

variable (git)

/-- A world whose lane names a commit under the landing ref, and in which every round recorded
landed had its head there when it was. -/
structure World.Sound (w : World) : Prop where
  dated : w.store.Dated
  under (h : InOrder git w.told) (at_ : String) (ha : w.landingRef = some at_) : git.under at_ w.ref
  recorded (h : InOrder git w.told) (round : Round) (ref : String)
    (hm : .recorded round ref ∈ w.told) : ∃ head, round.row.head = some head ∧ git.under head ref

/-- What is left of an earlier world. -/
structure Onward (a b : World) : Prop where
  /-- What is told is added to, and a lane that changed was told of. -/
  told : ∃ new, b.told = a.told ++ new ∧
    ∀ v, b.landingRef = some v → a.landingRef = some v ∨ .lane v ∈ new
  ref : git.under a.ref b.ref
  store : Later a.store b.store
  sound : a.Sound git → b.Sound git

/-- A step that moves the lane, if at all, not back. -/
structure Forward (a b : World) : Prop extends Onward git a b where
  forward (ha : a.Sound git) (hb : InOrder git b.told) {x y : String}
    (hx : a.landingRef = some x) (hy : b.landingRef = some y) : ¬ git.Behind y x

variable {git} {a b c : World}

namespace Onward

theorem refl (a : World) : Onward git a a :=
  ⟨⟨[], (List.append_nil _).symm, fun _ ↦ .inl⟩, git.refl _, .refl _, id⟩

theorem trans (h : Onward git a b) (h' : Onward git b c) : Onward git a c where
  told := by
    obtain ⟨new, hnew, hlane⟩ := h.told
    obtain ⟨new', hnew', hlane'⟩ := h'.told
    refine ⟨new ++ new', by rw [hnew', hnew, List.append_assoc], fun v hv ↦ ?_⟩
    rcases hlane' v hv with hv | hv
    · exact (hlane v hv).imp_right (List.mem_append_left _)
    · exact .inr (List.mem_append_right _ hv)
  ref := git.trans h.ref h'.ref
  store := h.store.trans h'.store
  sound hs := h'.sound (h.sound hs)

theorem inOrder (h : Onward git a b) (hb : InOrder git b.told) : InOrder git a.told := by
  obtain ⟨new, hnew, -⟩ := h.told
  exact (hnew ▸ hb).of_append

theorem mem_told (h : Onward git a b) {e : Happened} (he : e ∈ a.told) : e ∈ b.told := by
  obtain ⟨new, hnew, -⟩ := h.told
  exact hnew ▸ List.mem_append_left _ he

end Onward

theorem Forward.refl (a : World) : Forward git a a where
  toOnward := .refl a
  forward _ _ _ _ hx hy hb := hb.2 (Option.some.inj (hy.symm.trans hx))

/-- A step that leaves the lane's landing ref alone, and git as it was or further on. -/
theorem forward_of_lane_eq (new : List Happened) (hnew : ∀ round ref, .recorded round ref ∉ new)
    (htold : b.told = a.told ++ new) (hlane : b.landingRef = a.landingRef)
    (href : git.under a.ref b.ref) (hstore : Later a.store b.store)
    (hdated : a.store.Dated → b.store.Dated) : Forward git a b where
  told := ⟨new, htold, fun v hv ↦ .inl (hlane ▸ hv)⟩
  ref := href
  store := hstore
  sound ha :=
    { dated := hdated ha.dated
      under := fun h at_ hat ↦
        git.trans (ha.under (htold ▸ h).of_append at_ (hlane ▸ hat)) href
      recorded := fun h round ref hm ↦ by
        rw [htold] at h hm
        rcases List.mem_append.mp hm with hm | hm
        · exact ha.recorded h.of_append round ref hm
        · exact absurd hm (hnew round ref) }
  forward _ _ _ _ hx hy hb := hb.2 (Option.some.inj (hy.symm.trans (hlane.trans hx)))

theorem forward_of_same (htold : b.told = a.told) (hlane : b.landingRef = a.landingRef)
    (href : git.under a.ref b.ref) (hstore : Later a.store b.store)
    (hdated : a.store.Dated → b.store.Dated) : Forward git a b :=
  forward_of_lane_eq [] (fun _ _ h ↦ nomatch h) (htold.trans (List.append_nil _).symm) hlane
    href hstore hdated

/-! ## Accesses -/

theorem rules : Rules (Onward git) (Forward git) := ⟨.refl, Onward.trans, .refl, (·.toOnward)⟩

/-- An access tells what it tells and answers of the world it meets. -/
theorem keeps_access {ε α : Type} {ready : World → Bool} {told : World → List Happened}
    {answer : World → Except ε α} {Q : α → World → Prop} {s : World}
    (htold : ∀ w round ref, .recorded round ref ∉ told w)
    (h : ∀ s₁, Onward git s s₁ → ready s₁ → ∀ s₂, Onward git s₁ s₂ →
      Onward git (s₁.tell (told s₁)) s₂ → ∀ a, answer s₁ = .ok a → Q a s₂) :
    (access ready told answer).Keeps (Onward git) (Forward git) Q (fun _ ↦ True) s :=
  rules.keeps_access
    (fun s₁ _ _ ↦ forward_of_lane_eq _ (htold s₁) rfl rfl (git.refl _) (.refl _) id) h

/-- A read that tells of what it finds. -/
theorem keeps_get {key : String} {k : Key} {told : World → List Happened}
    {Q : Option (Item k) → World → Prop} {s : World}
    (htold : ∀ w round ref, .recorded round ref ∉ told w)
    (h : ∀ s₁, Onward git s s₁ → ∀ s₂, Onward git s₁ s₂ →
      Onward git (s₁.tell (told s₁)) s₂ → Q (s₁.store.items k) s₂) :
    (reading key (getTelling told k)).Keeps (Onward git) (Forward git) Q (fun _ ↦ True) s := by
  refine Verb.keeps_mapError (keeps_access htold fun s₁ hs₁ _ s₂ hs₂ hs₁₂ a ha ↦ ?_)
  exact (unlessDown_eq_ok.mp ha).2 ▸ h s₁ hs₁ s₂ hs₂ hs₁₂

/-- A transaction that leaves the lane alone. -/
theorem txn_within {t : Txn} (ht : ∀ o ∈ t.ops, o.key ≠ .lane) :
    (txn silent t).Within (Onward git) (Forward git) := by
  refine fun s ↦ Verb.keeps_atom fun s' _ _ ↦ ⟨?_, fun _ _ ↦ ⟨fun _ _ ↦ trivial, fun _ _ ↦ trivial⟩⟩
  split
  · refine forward_of_lane_eq [] (by simp) rfl ?_ (git.refl _) (later_run t _)
      fun hd ↦ hd.run t
    have hlane : (t.run s'.store).items .lane = s'.store.items .lane := by
      rw [Txn.run]
      split
      · exact items_commit_of_notMem fun hm ↦ by
          obtain ⟨o, ho, hk⟩ := List.mem_map.mp hm
          exact ht o ho hk
      · rfl
    exact congrArg (Option.map _) hlane
  · exact .refl _

theorem bears : Bears (Onward git) (Forward git) (· ≠ .lane) where
  refl := .refl
  access _ _ _ := keeps_access (fun _ _ _ h ↦ nomatch h) fun _ _ _ _ _ _ _ _ ↦ trivial
  txn _ ht := txn_within ht

/-! ## The Lander -/

section Lander

variable {repo batch head at_ : String} {token : ℕ} {h : Held}

theorem readRound_within : (readRound repo batch).Within (Onward git) (Forward git) :=
  reading_within (bears.get _)

theorem parentOf_within (parent : Option String) :
    (parentOf repo parent).Within (Onward git) (Forward git) := by
  cases parent with
  | none => exact Verb.within_pure
  | some batch => exact bears.bind readRound_within fun _ ↦ Verb.within_pure

theorem isLeased_within : (isLeased repo batch).Within (Onward git) (Forward git) :=
  bears.bind (reading_within (holderOf_within bears)) fun _ ↦ Verb.within_pure

theorem readStatus_within : (readStatus repo batch).Within (Onward git) (Forward git) :=
  bears.bind (reading_within (bears.get _)) fun _ ↦ Verb.within_pure

theorem hold_within (b : Blocker) : (h.hold b).Within (Onward git) (Forward git) := by
  refine bears.bind (reading_within (txn_within ?_)) fun kept ↦ ?_
  · simp [fencedTxn, Records.Op.key]
  · split
    · exact Verb.within_pure
    · exact Verb.within_throw

theorem supersedeVerb_within : supersedeVerb.Within (Onward git) (Forward git) := bears.access _ _

/-- What follows a program of the Lander's that leaves the lane alone. -/
theorem then_keeps {ε α β : Type} {x : Run ε α} {f : α → Run ε β} {Q : β → World → Prop} {s : World}
    (hx : x.Within (Onward git) (Forward git))
    (hf : ∀ a s', Onward git s s' → (f a).Keeps (Onward git) (Forward git) Q (fun _ ↦ True) s') :
    (x >>= f).Keeps (Onward git) (Forward git) Q (fun _ ↦ True) s :=
  hx.keeps_bind .refl Onward.trans (·.toOnward) hf

/-- The Lander of lease `token` has looked at git, and since then a lane that is beyond `at_` was
recorded so. -/
structure Abreast (git : Ancestry) (token : ℕ) (at_ : String) (w : World) : Prop where
  decided : .decided token ∈ w.told
  since (ho : InOrder git w.told) (v : String) (hv : w.landingRef = some v)
    (hb : git.Behind at_ v) :
    ∃ v', git.Behind at_ v' ∧ List.Sublist [Happened.decided token, .lane v'] w.told

/-- It may record that `head` landed, with the landing ref at `at_`: both are under it. -/
structure Carries (git : Ancestry) (token : ℕ) (head at_ : String) (w : World) : Prop
    extends Abreast git token at_ w where
  head_under (ho : InOrder git w.told) : git.under head w.ref
  under (ho : InOrder git w.told) : git.under at_ w.ref

theorem Abreast.onward (h : Abreast git token at_ a) (hab : Onward git a b) :
    Abreast git token at_ b where
  decided := hab.mem_told h.decided
  since ho v hv hb := by
    obtain ⟨new, hnew, hlane⟩ := hab.told
    rcases hlane v hv with hv | hv
    · obtain ⟨v', hb', hs⟩ := h.since (hab.inOrder ho) v hv hb
      exact ⟨v', hb', hnew ▸ hs.trans (List.sublist_append_left _ _)⟩
    · refine ⟨v, hb, hnew ▸ ?_⟩
      exact sublist_pair h.decided hv

theorem Carries.onward (hc : Carries git token head at_ a) (hab : Onward git a b) :
    Carries git token head at_ b where
  toAbreast := hc.toAbreast.onward hab
  head_under ho := git.trans (hc.head_under (hab.inOrder ho)) hab.ref
  under ho := git.trans (hc.under (hab.inOrder ho)) hab.ref

/-- The lane is not beyond where the landing ref is. -/
theorem abreast_ref {w : World} (hw : w.Sound git) (hd : .decided token ∈ w.told) :
    Abreast git token w.ref w where
  decided := hd
  since ho v hv hb := absurd hb (git.not_behind (hw.under ho v hv))

theorem landedValue_head {round rv : Round} (hrv : landedValue round head = .ok rv) :
    rv.row.head = round.row.head := by
  rw [landedValue] at hrv
  split at hrv
  · exact (Except.ok.inj hrv) ▸ rfl
  · dsimp only at hrv
    split at hrv
    · rename_i hs ho
      obtain rfl := Except.ok.inj hrv
      rcases step_cases round.row ⟨round.row.state, round.row.version, .fastForward head, HOLDER⟩
        with ⟨hno, -⟩ | ⟨-, hmove⟩
      · rw [ho] at hno
        cases hno
      · rw [step] at hmove
        generalize (apply round.row _).row = row at hmove
        cases hmove <;> rfl
    · cases hrv

/-- The transaction that records a landing leaves the lane at what it carried. -/
theorem landingRef_recorded {w : World} {rv : Round} {lane : Lane} {compares : List Compare}
    {kept : Option Blocker}
    (htakes : (fencedTxn h.lease compares ([.put (.round h.batch) rv,
      .put .lane { lane with landingRef := at_ }] ++ h.statusOps kept)).takes w.store) :
    (((fencedTxn h.lease compares ([.put (.round h.batch) rv,
      .put .lane { lane with landingRef := at_ }] ++ h.statusOps kept)).run w.store).items
        .lane).map (·.value.landingRef) = some at_ := by
  rw [Txn.run, if_pos htakes, Store.commit]
  dsimp only [fencedTxn]
  rw [List.foldl_append, items_foldl_of_notMem]
  · rw [List.foldl_cons, List.foldl_cons, List.foldl_nil, Op.apply, Function.update_self]
    rfl
  · cases kept with
    | some b => simp [Held.statusOps, Op.key]
    | none =>
      rw [Held.statusOps]
      split <;> simp [Op.key]

/-- The step that records a landing. -/
theorem recorded_forward {w : World} {round rv : Round} {lane : Item .lane} {compares : List Compare}
    {kept : Option Blocker} (hc : Carries git h.lease.token head at_ w)
    (hround : InOrder git w.told → round.row.head = some head)
    (hlane : w.store.items .lane = some lane)
    (hbehind : InOrder git w.told → ¬ git.Behind at_ lane.value.landingRef)
    (hrv : landedValue round head = .ok rv)
    (htakes : (fencedTxn h.lease compares ([.put (.round h.batch) rv,
      .put .lane { lane.value with landingRef := at_ }] ++ h.statusOps kept)).takes w.store) :
    Forward git w { w with
      store := (fencedTxn h.lease compares ([.put (.round h.batch) rv,
        .put .lane { lane.value with landingRef := at_ }] ++ h.statusOps kept)).run w.store
      told := w.told ++ [.lane at_, .recorded rv w.ref] } where
  told := by
    refine ⟨_, rfl, fun v hv ↦ .inr ?_⟩
    rw [World.landingRef, landingRef_recorded htakes] at hv
    simp [Option.some.inj hv]
  ref := git.refl _
  store := later_run _ _
  sound hw :=
    { dated := hw.dated.run _
      under := fun ho v hv ↦ by
        rw [World.landingRef, landingRef_recorded htakes] at hv
        exact Option.some.inj hv ▸ hc.under ho.of_append
      recorded := fun ho rv' ref hm ↦ by
        rcases List.mem_append.mp hm with hm | hm
        · exact hw.recorded ho.of_append rv' ref hm
        · obtain ⟨rfl, rfl⟩ : rv' = rv ∧ ref = w.ref := by simpa using hm
          exact ⟨head, (landedValue_head hrv).trans (hround ho.of_append),
            hc.head_under ho.of_append⟩ }
  forward _ ho x y hx hy := by
    rw [World.landingRef, landingRef_recorded htakes] at hy
    rw [World.landingRef, hlane] at hx
    rw [← Option.some.inj hy, ← Option.some.inj hx]
    exact hbehind ho.of_append

theorem recordLanded_keeps {kept : Option Blocker} (n : ℕ) {s : World} (hs : s.Sound git)
    (hc : Carries git h.lease.token head at_ s) :
    (h.recordLanded head at_ kept n).Keeps (Onward git) (Forward git) (fun _ _ ↦ True)
      (fun _ ↦ True) s := by
  induction n generalizing s with
  | zero => exact Verb.keeps_throw trivial
  | succ n ih =>
    -- The round, which names the head it was decided on.
    refine Verb.keeps_bind .refl (keeps_get (fun w round ref hm ↦ ?_)
      fun s₁ hs₁ s₂ hs₂ htold ↦ ?_)
    · cases hi : w.store.items (.round h.batch) <;> rw [hi] at hm <;> simp at hm
    cases hround : s₁.store.items (.round h.batch) with
    | none => exact Verb.keeps_throw trivial
    | some round =>
      have hnamed : InOrder git s₂.told → round.value.row.head = some head := fun ho ↦
        ho.named head _ (htold.mem_told (List.mem_append_right _ (by rw [hround]; simp)))
      have hc₂ := hc.onward (hs₁.trans hs₂)
      -- The lane, which is not beyond what is carried.
      refine Verb.keeps_bind .refl (keeps_get (fun w round ref hm ↦ ?_)
        fun s₃ hs₃ s₄ hs₄ htold ↦ ?_)
      · simp at hm
      cases hlane : s₃.store.items .lane with
      | none => exact Verb.keeps_throw trivial
      | some lane =>
        have hbehind : InOrder git s₄.told → ¬ git.Behind at_ lane.value.landingRef := by
          intro ho hb
          obtain ⟨v, hbv, hsub⟩ := (hc₂.onward hs₃).since (hs₄.inOrder ho)
            lane.value.landingRef (by rw [World.landingRef, hlane, Option.map_some]) hb
          refine ho.abreast h.lease.token at_ v hbv ?_
          obtain ⟨post, hpost, -⟩ := htold.told
          rw [hpost]
          exact (hsub.append_right [.readLane h.lease.token at_]).trans (List.sublist_append_left _ _)
        have hc₄ := hc₂.onward (hs₃.trans hs₄)
        have hs₀ := hs₁.trans (hs₂.trans (hs₃.trans hs₄))
        dsimp only
        cases hrv : landedValue round.value head with
        | error e => exact Verb.keeps_throw trivial
        | ok rv =>
          dsimp only
          refine Verb.keeps_bind .refl (rules.keeps_txn (fun s₅ hs₅ htakes ↦ ?_)
            fun rev s₅ hs₅ _ ↦ ?_)
          · -- The lane at the revision it was read at is the lane that was read.
            obtain ⟨lane', hlane', hrev⟩ := holds_modRev.mp
              (holds_of_takes htakes (c := .modRev .lane (some lane.modRev)) (by simp [fencedTxn]))
            obtain rfl := (hs₄.trans hs₅).store.unmoved ((hs₁.trans (hs₂.trans hs₃)).sound hs).dated hlane hlane' hrev
            exact recorded_forward (hc₄.onward hs₅)
              (fun ho ↦ hnamed ((hs₃.trans (hs₄.trans hs₅)).inOrder ho)) hlane'
              (fun ho ↦ hbehind (hs₅.inOrder ho)) hrv htakes
          · split
            · exact Verb.keeps_pure fun _ _ ↦ trivial
            · refine then_keeps (reading_within (holderOf_within bears)) fun holder s₆ hs₆ ↦ ?_
              split
              · exact ih ((hs₀.trans (hs₅.trans hs₆)).sound hs) (hc₄.onward (hs₅.trans hs₆))
              · exact Verb.keeps_throw trivial

theorem landingSha_keeps {s : World} (hs : s.Sound git) (hd : .decided token ∈ s.told)
    (hh : InOrder git s.told → git.under head s.ref) :
    landingSha.Keeps (Onward git) (Forward git) (fun at_ s' ↦ Carries git token head at_ s')
      (fun _ ↦ True) s := by
  refine keeps_access (fun _ _ _ h ↦ nomatch h) fun s₁ hs₁ _ s₂ hs₂ _ sha hsha ↦ ?_
  obtain rfl := (unlessDown_eq_ok.mp hsha).2
  refine Carries.onward (a := s₁) ?_ hs₂
  exact
    { toAbreast := abreast_ref (hs₁.sound hs) (hs₁.mem_told hd)
      head_under := fun ho ↦ git.trans (hh (hs₁.inOrder ho)) hs₁.ref
      under := fun _ ↦ git.refl _ }

theorem refAfter_keeps {s : World} (hs : s.Sound git) (hc : Carries git token head head s) :
    (refAfter git head).Keeps (Onward git) (Forward git)
      (fun at_ s' ↦ Carries git token head at_ s') (fun _ ↦ True) s := by
  refine then_keeps (bears.underLandingRef git head).tried fun under s₁ hs₁ ↦ ?_
  have hc₁ := hc.onward hs₁
  have hsha : (Verb.tried landingSha : Run Refusal _).Keeps (Onward git) (Forward git)
      (fun r s' ↦ ∀ at_, r = .ok at_ → Carries git token head at_ s') (fun _ ↦ True) s₁ :=
    Verb.keeps_tried ((landingSha_keeps (hs₁.sound hs) hc₁.decided hc₁.head_under).imp
      fun at_ s' h at' hat ↦ Except.ok.inj hat ▸ h) fun _ _ _ _ h ↦ nomatch h
  refine Verb.keeps_bind .refl ((Verb.Keeps.since (R := Onward git) (G := Forward git)
    Onward.trans (·.toOnward) hsha).imp fun sha s₂ ⟨hat, hs₂⟩ ↦ ?_)
  split
  · exact Verb.keeps_pure fun s₃ hs₃ ↦ (hat _ rfl).onward hs₃
  · exact Verb.keeps_pure fun s₃ hs₃ ↦ hc₁.onward (hs₂.trans hs₃)

/-- A landing recorded with the landing ref as it is after it. -/
theorem landAfter_keeps {kept : Option Blocker} {l : String → Landing} {s : World} (hs : s.Sound git)
    (hc : Carries git h.lease.token head head s) :
    (do
      let at_ ← refAfter git head
      h.recordLanded head at_ kept tries
      return l at_ : Run Refusal Landing).Keeps (Onward git) (Forward git) (fun _ _ ↦ True)
        (fun _ ↦ True) s := by
  refine Verb.keeps_bind .refl ((Verb.Keeps.since (R := Onward git) (G := Forward git)
    Onward.trans (·.toOnward) (refAfter_keeps hs hc)).imp fun at_ s₁ ⟨hat, hs₁⟩ ↦ ?_)
  exact Verb.keeps_bind .refl ((recordLanded_keeps tries (hs₁.sound hs) hat).imp fun _ _ _ ↦
    Verb.keeps_pure fun _ _ ↦ trivial)

theorem refused_keeps {r : VerbRefusal} {s : World} (hs : s.Sound git)
    (ha : Abreast git h.lease.token head s) :
    (h.refused git head r).Keeps (Onward git) (Forward git) (fun _ _ ↦ True) (fun _ ↦ True) s := by
  rw [Held.refused]
  cases r.code with
  | none => exact Verb.keeps_throw trivial
  | some code =>
    dsimp only
    split
    · -- The release was not activated: the round landed, or it is held.
      have hunder : (reading (gitKey h.repo) (underLandingRef git head)).Keeps (Onward git)
          (Forward git) (fun under s' ↦ Onward git s s' ∧ (under = true → git.under head s'.ref))
          (fun _ ↦ True) s := by
        refine Verb.keeps_mapError (keeps_access (fun _ _ _ h ↦ nomatch h)
          fun s₁ hs₁ _ s₂ hs₂ _ under hunder ↦ ⟨hs₁.trans hs₂, fun hu ↦ ?_⟩)
        obtain rfl := (unlessDown_eq_ok.mp hunder).2
        exact git.trans hu hs₂.ref
      refine Verb.keeps_bind .refl (hunder.imp fun under s₁ ⟨hs₁, hu⟩ ↦ ?_)
      split
      · rename_i hut
        exact landAfter_keeps (hs₁.sound hs)
          { toAbreast := ha.onward hs₁, head_under := fun _ ↦ hu hut, under := fun _ ↦ hu hut }
      · exact hold_within _ s₁
    · split
      · refine then_keeps (parentOf_within _) fun parent s₁ hs₁ ↦ ?_
        cases parent with
        | none => exact then_keeps Verb.within_pure fun leased s₂ _ ↦ hold_within _ s₂
        | some q => exact then_keeps isLeased_within fun leased s₂ _ ↦ hold_within _ s₂
      · refine then_keeps supersedeVerb_within fun answer s₁ hs₁ ↦ ?_
        cases answer with
        | ok _ => exact Verb.keeps_pure fun _ _ ↦ trivial
        | error _ => exact Verb.keeps_throw trivial
      · exact hold_within _ s

theorem landVerb_keeps {s : World} :
    (landVerb git batch head).Keeps (Onward git) (Forward git)
      (fun r s' ↦ Onward git s s' ∧ (r = .ok () → InOrder git s'.told → git.under head s'.ref))
      (fun _ ↦ True) s := by
  refine keeps_access (fun w round ref hm ↦ ?_) fun s₁ hs₁ hready s₂ hs₂ htold r hr ↦
    ⟨hs₁.trans hs₂, fun hok ho ↦ ?_⟩
  · split at hm <;> simp at hm
  · obtain rfl := Except.ok.inj hr
    rw [hok] at hready
    obtain ⟨i, hi, hany⟩ := (Option.any_eq_true _ _).mp hready
    obtain ⟨found, hhead, hfound⟩ := (Option.any_eq_true _ _).mp hany
    have hnamed := ho.named head (some found) (htold.mem_told
      (List.mem_append_right _ (by rw [hok, hi, Option.bind_some, hhead]; simp)))
    obtain rfl := Option.some.inj hnamed
    exact git.trans hfound hs₂.ref

theorem decide_keeps {parent : Option Parent} {s : World} (hs : s.Sound git) :
    (h.decide git head parent).Keeps (Onward git) (Forward git) (fun _ _ ↦ True) (fun _ ↦ True)
      s := by
  rw [Held.decide]
  split
  · exact then_keeps isLeased_within fun leased s₁ _ ↦ hold_within _ s₁
  · -- The first look at git under the lease.
    have hunder : (reading (gitKey h.repo)
        (underTelling git (fun _ ↦ [.decided h.lease.token]) head)).Keeps (Onward git) (Forward git)
        (fun under s' ↦ Onward git s s' ∧ .decided h.lease.token ∈ s'.told ∧
          (under = true → git.under head s'.ref) ∧
          (under = false → Abreast git h.lease.token head s')) (fun _ ↦ True) s := by
      refine Verb.keeps_mapError (keeps_access (fun _ _ _ h ↦ by simp at h)
        fun s₁ hs₁ _ s₂ hs₂ htold under hunder ↦ ?_)
      obtain rfl := (unlessDown_eq_ok.mp hunder).2
      have hd : .decided h.lease.token ∈ (s₁.tell [.decided h.lease.token]).told :=
        List.mem_append_right _ (List.mem_singleton_self _)
      refine ⟨hs₁.trans hs₂, htold.mem_told hd, fun hu ↦ git.trans hu hs₂.ref, fun hu ↦
        Abreast.onward ⟨hd, fun ho v hv hb ↦ ?_⟩ htold⟩
      -- A lane beyond a head that is not under the landing ref is not under it either.
      have hvr := (hs₁.sound hs).under ho.of_append v hv
      rw [git.trans hb.1 hvr] at hu
      cases hu
    refine Verb.keeps_bind .refl (hunder.imp fun under s₁ ⟨hs₁, hd, hu, hnu⟩ ↦ ?_)
    split
    · rename_i hut
      refine Verb.keeps_bind .refl (Verb.keeps_mapError
        ((Verb.Keeps.since (R := Onward git) (G := Forward git) Onward.trans (·.toOnward)
          (landingSha_keeps (hs₁.sound hs) hd fun _ ↦ hu hut)).imp fun at_ s₂ ⟨hat, hs₂⟩ ↦ ?_))
      exact Verb.keeps_bind .refl ((recordLanded_keeps tries ((hs₁.trans hs₂).sound hs) hat).imp
        fun _ _ _ ↦ Verb.keeps_pure fun _ _ ↦ trivial)
    · rename_i hut
      have ha := hnu (Bool.eq_false_iff.mpr hut)
      refine Verb.keeps_bind .refl (landVerb_keeps.imp fun r s₂ ⟨hs₂, hr⟩ ↦ ?_)
      have hs' := (hs₁.trans hs₂).sound hs
      cases r with
      | ok _ =>
        exact landAfter_keeps hs'
          { toAbreast := ha.onward hs₂, head_under := hr rfl, under := hr rfl }
      | error r => exact refused_keeps hs' (ha.onward hs₂)

theorem underLease_keeps {parent : Option Parent} {s : World} (hs : s.Sound git) :
    (underLease git repo batch head parent h).Keeps (Onward git) (Forward git) (fun _ _ ↦ True)
      (fun _ ↦ True) s := by
  refine Verb.keeps_bind .refl ((Verb.keeps_tried (E := fun _ ↦ True) (Q := fun _ _ ↦ True) ?_
    fun _ _ _ ↦ trivial).imp fun landing s₁ _ ↦ ?_)
  · refine then_keeps readRound_within fun view s₁ hs₁ ↦ ?_
    split
    · exact decide_keeps (hs₁.sound hs)
    · exact Verb.keeps_pure fun _ _ ↦ trivial
  · refine then_keeps (release_within bears (by simp)).tried fun _ s₂ _ ↦ ?_
    split
    · exact Verb.keeps_pure fun _ _ ↦ trivial
    · exact Verb.keeps_throw trivial

theorem stillHeld_within {inputs : Inputs} {status : Option Status} :
    (stillHeld git repo head inputs status).Within (Onward git) (Forward git) := by
  rw [stillHeld]
  split
  · exact bears.bind (reading_within (bears.underLandingRef git head)) fun _ ↦ Verb.within_pure
  · exact Verb.within_pure

theorem leaseAndDecide_keeps {parent : Option Parent} {inputs : Inputs} {status : Option Status}
    {s : World} (hs : s.Sound git) :
    (leaseAndDecide git repo batch head parent inputs status).Keeps (Onward git) (Forward git)
      (fun _ _ ↦ True) (fun _ ↦ True) s := by
  refine then_keeps (acquire_within bears (by simp) (by simp) _).tried fun r s₁ hs₁ ↦ ?_
  split
  · exact Verb.keeps_pure fun _ _ ↦ trivial
  · exact Verb.keeps_pure fun _ _ ↦ trivial
  · exact Verb.keeps_throw trivial
  · exact Verb.keeps_throw trivial
  · exact then_keeps bears.nowMs fun now s₂ hs₂ ↦ underLease_keeps ((hs₁.trans hs₂).sound hs)

theorem one_keeps {parent : Option String} {s : World} (hs : s.Sound git) :
    (one git repo batch parent).Keeps (Onward git) (Forward git) (fun _ _ ↦ True) (fun _ ↦ True)
      s := by
  refine then_keeps readRound_within fun view s₁ hs₁ ↦ ?_
  split
  · exact Verb.keeps_pure fun _ _ ↦ trivial
  · refine then_keeps (readLane_within bears) fun lane s₂ hs₂ ↦ ?_
    cases lane with
    | none => exact Verb.keeps_throw trivial
    | some lane =>
      refine then_keeps (parentOf_within parent) fun parent s₃ hs₃ ↦
        then_keeps readStatus_within fun status s₄ hs₄ ↦
          then_keeps stillHeld_within fun unchanged s₅ hs₅ ↦ ?_
      split
      · exact Verb.keeps_pure fun _ _ ↦ trivial
      · exact leaseAndDecide_keeps
          ((hs₁.trans (hs₂.trans (hs₃.trans (hs₄.trans hs₅)))).sound hs)

theorem landEach_keeps {stack : Stack} (rounds : List Live) (out : List (String × Landing))
    (first : Option Refusal) {s : World} (hs : s.Sound git) :
    (landEach git repo stack rounds out first).Keeps (Onward git) (Forward git) (fun _ _ ↦ True)
      (fun _ ↦ True) s := by
  induction rounds generalizing out first s with
  | nil =>
    cases first with
    | none => exact Verb.keeps_pure fun _ _ ↦ trivial
    | some e => exact Verb.keeps_throw trivial
  | cons r rest ih =>
    refine Verb.keeps_bind .refl ((Verb.Keeps.since (R := Onward git) (G := Forward git)
      (Q := fun _ _ ↦ True) Onward.trans (·.toOnward)
      (Verb.keeps_tried (one_keeps hs) fun _ _ _ ↦ trivial)).imp fun l s₁ hs₁ ↦ ?_)
    split
    · exact ih _ _ (hs₁.2.sound hs)
    · exact ih _ _ (hs₁.2.sound hs)

theorem land_keeps {s : World} (hs : s.Sound git) :
    (land git repo).Keeps (Onward git) (Forward git) (fun _ _ ↦ True) (fun _ ↦ True) s := by
  refine then_keeps (readLane_within bears) fun lane s₁ hs₁ ↦ ?_
  cases lane with
  | none => exact Verb.keeps_pure fun _ _ ↦ trivial
  | some lane =>
    exact then_keeps (live_within bears) fun rounds s₂ hs₂ ↦
      landEach_keeps _ _ _ ((hs₁.trans hs₂).sound hs)

end Lander

/-! ## The lane's own writer -/

section Lane

variable {repo image harness : String}

theorem anyLanded_within (rounds : List Live) :
    (anyLanded git repo rounds).Within (Onward git) (Forward git) := by
  induction rounds with
  | nil => exact Verb.within_pure
  | cons r rest ih =>
    rw [anyLanded]
    split
    · exact ih
    · refine bears.bind (reading_within (bears.underLandingRef git _)) fun landed ↦ ?_
      split
      · exact Verb.within_pure
      · exact ih

theorem followsGit_within (was : String) :
    (followsGit git repo was).Within (Onward git) (Forward git) := by
  refine bears.bind (reading_within (bears.underLandingRef git was)) fun forward ↦ ?_
  split
  · exact bears.bind (bears.bind (live_within bears) anyLanded_within) fun _ ↦ Verb.within_pure
  · exact Verb.within_pure

/-- What is recorded is git's landing ref, or what was recorded. -/
theorem landingFrom_keeps {at_ : String} {was : Option String} {s : World} :
    (landingFrom git repo at_ was).Keeps (Onward git) (Forward git)
      (fun landing s' ↦ Onward git s s' ∧ (landing = at_ ∨ was = some landing)) (fun _ ↦ True) s := by
  cases was with
  | none => exact Verb.keeps_pure fun s₁ hs₁ ↦ ⟨hs₁, .inl rfl⟩
  | some was =>
    rw [landingFrom]
    split
    · exact Verb.keeps_pure fun s₁ hs₁ ↦ ⟨hs₁, .inl rfl⟩
    · refine then_keeps (followsGit_within was) fun follows s₁ hs₁ ↦ ?_
      split
      · exact Verb.keeps_pure fun s₂ hs₂ ↦ ⟨hs₁.trans hs₂, .inl rfl⟩
      · exact Verb.keeps_pure fun s₂ hs₂ ↦ ⟨hs₁.trans hs₂, .inr rfl⟩

theorem landingRef_written {w : World} {lane : Lane} {rev : Option ℕ}
    (htakes : (⟨[.modRev .lane rev], [.put .lane lane]⟩ : Txn).takes w.store) :
    (((⟨[.modRev .lane rev], [.put .lane lane]⟩ : Txn).run w.store).items .lane).map
      (·.value.landingRef) = some lane.landingRef := by
  rw [Txn.run, if_pos htakes, Store.commit]
  dsimp only
  rw [List.foldl_cons, List.foldl_nil, Op.apply, Function.update_self]
  rfl

theorem laneOf_landingRef {item : Option (Item .lane)} {landing : String} :
    (laneOf item landing image harness).landingRef = landing := by
  cases item <;> rfl

/-- The step that records the lane: it moves from what was recorded to what that is under. -/
theorem written_forward {w : World} {lane : Lane} {rev : Option ℕ}
    (hunder : InOrder git w.told → git.under lane.landingRef w.ref)
    (hwas : InOrder git w.told → ∀ was, w.landingRef = some was → git.under was lane.landingRef)
    (htakes : (⟨[.modRev .lane rev], [.put .lane lane]⟩ : Txn).takes w.store) :
    Forward git w { w with
      store := (⟨[.modRev .lane rev], [.put .lane lane]⟩ : Txn).run w.store
      told := w.told ++ [.lane lane.landingRef] } where
  told := by
    refine ⟨_, rfl, fun v hv ↦ .inr ?_⟩
    rw [World.landingRef, landingRef_written htakes] at hv
    simp [Option.some.inj hv]
  ref := git.refl _
  store := later_run _ _
  sound hw :=
    { dated := hw.dated.run _
      under := fun ho v hv ↦ by
        rw [World.landingRef, landingRef_written htakes] at hv
        exact Option.some.inj hv ▸ hunder ho.of_append
      recorded := fun ho round ref hm ↦ by
        rcases List.mem_append.mp hm with hm | hm
        · exact hw.recorded ho.of_append round ref hm
        · simp at hm }
  forward _ ho x y hx hy := by
    rw [World.landingRef, landingRef_written htakes] at hy
    exact Option.some.inj hy ▸ git.not_behind (hwas ho.of_append x hx)

theorem recordLane_keeps (n : ℕ) {s : World} (hs : s.Sound git) :
    (recordLane git repo image harness n).Keeps (Onward git) (Forward git) (fun _ _ ↦ True)
      (fun _ ↦ True) s := by
  induction n generalizing s with
  | zero => exact Verb.keeps_throw trivial
  | succ n ih =>
    refine Verb.keeps_bind .refl (keeps_get (fun _ _ _ h ↦ nomatch h) fun s₁ hs₁ s₂ hs₂ _ ↦ ?_)
    have hs₁' := hs₁.sound hs
    -- Git is read after the lane: what it shows is no earlier.
    have hsha : (reading (gitKey repo) landingSha).Keeps (Onward git) (Forward git)
        (fun at_ s₃ ↦ Onward git s₂ s₃ ∧ git.under s₁.ref at_ ∧ git.under at_ s₃.ref)
        (fun _ ↦ True) s₂ := by
      refine Verb.keeps_mapError (keeps_access (fun _ _ _ h ↦ nomatch h)
        fun s₃ hs₃ _ s₄ hs₄ _ sha hsha ↦ ?_)
      obtain rfl := (unlessDown_eq_ok.mp hsha).2
      exact ⟨hs₃.trans hs₄, git.trans hs₂.ref hs₃.ref, hs₄.ref⟩
    refine Verb.keeps_bind .refl (hsha.imp fun at_ s₃ ⟨hs₃, hat, hat'⟩ ↦ ?_)
    refine Verb.keeps_bind .refl (landingFrom_keeps.imp fun landing s₄ ⟨hs₄, hlanding⟩ ↦ ?_)
    have hs₁₄ := hs₂.trans (hs₃.trans hs₄)
    dsimp only
    split
    · exact Verb.keeps_pure fun _ _ ↦ trivial
    · refine Verb.keeps_bind .refl (rules.keeps_txn (fun s₅ hs₅ htakes ↦ ?_)
            fun rev s₅ hs₅ _ ↦ ?_)
      · have hs₁₅ := hs₁₄.trans hs₅
        -- The lane is as it was read.
        have hitem : s₅.store.items .lane = s₁.store.items .lane := by
          have hholds := holds_of_takes htakes (List.mem_singleton_self _)
          cases hi : s₁.store.items .lane with
          | none =>
            rw [hi, Option.map_none] at hholds
            exact holds_modRev_none.mp hholds
          | some item =>
            rw [hi, Option.map_some] at hholds
            obtain ⟨item', hitem', hrev⟩ := holds_modRev.mp hholds
            rw [hitem', hs₁₅.store.unmoved hs₁'.dated hi hitem' hrev]
        have hwas : ∀ was, s₅.landingRef = some was → s₁.landingRef = some was := fun was hw ↦ by
          rw [World.landingRef, hitem] at hw
          exact hw
        let lane := laneOf (s₁.store.items .lane) landing image harness
        have hunder : InOrder git s₅.told → git.under lane.landingRef s₅.ref := by
          intro ho
          rw [laneOf_landingRef]
          rcases hlanding with rfl | hl
          · exact git.trans hat' (hs₄.trans hs₅).ref
          · exact git.trans (hs₁'.under (hs₁₅.inOrder ho) landing hl) hs₁₅.ref
        have hfrom : InOrder git s₅.told → ∀ was, s₅.landingRef = some was →
            git.under was lane.landingRef := by
          intro ho was hw
          rw [laneOf_landingRef]
          rcases hlanding with rfl | hl
          · exact git.trans (hs₁'.under (hs₁₅.inOrder ho) was (hwas was hw)) hat
          · obtain rfl := Option.some.inj ((hwas was hw).symm.trans hl)
            exact git.refl was
        have hstep := written_forward hunder hfrom htakes
        rw [laneOf_landingRef] at hstep
        exact hstep
      · split
        · exact Verb.keeps_pure fun _ _ ↦ trivial
        · exact ih ((hs₁₄.trans hs₅).sound hs₁')

theorem record_keeps {s : World} (hs : s.Sound git) :
    (record git repo).Keeps (Onward git) (Forward git) (fun _ _ ↦ True) (fun _ ↦ True) s := by
  refine then_keeps (bears.access _ _) fun inputs s₁ hs₁ ↦ ?_
  cases inputs with
  | none => exact Verb.keeps_pure fun _ _ ↦ trivial
  | some inputs => exact recordLane_keeps _ (hs₁.sound hs)

end Lane

end Spira.Controller
