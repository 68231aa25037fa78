import Mathlib.Data.List.Nodup
import Mathlib.Logic.Function.Basic
import Spira.Strand.Store

/-!
# What is carried toward closed

A bead progresses when something is carrying it, or when it waits on a bead that something carries.
`progressing` looks for such a bead along the `blocks` edges, and every answer that it finds on its
way is kept for the questions after it.

## What is here

* `Progress` — whether a chain of edges leads to a bead that is carried.
* `progressing_rule` — what one search does, one case for each way that it can end.
* `Walk` — where a search goes that has found nothing yet.
* `Blind` — a bead whose every way to progress goes back into the walk it was met on.
* `progressing_exact` — the answers are the right ones exactly where no walk comes to a blind bead.
-/

set_option autoImplicit false

namespace Spira.Strand.Partition

variable (P : Partition)

/-- Moving, an epic, parked or poisoned: nothing else has to be looked at. -/
def rests (b : Bead) : Bool := P.moving b || b.isEpic || P.parked b || P.poisoned b

/-- The answers that were found so far. -/
abbrev Memo := String → Option Bool

/-- Whether one of the targets that are not closed progresses, where `ask` tells. -/
def anyOf (ask : String → Memo → Option (Bool × Memo)) : List String → Memo → Option (Bool × Memo)
  | [], memo => some (false, memo)
  | t :: ts, memo =>
    if (P.store.get t).any Bead.isClosed then anyOf ask ts memo
    else do
      let (v, memo) ← ask t memo
      if v then some (true, memo) else anyOf ask ts memo

/-- `visiting` has the beads that the search is at.  A bead is taken out of it again when its targets
are through, so it is the same after a search as before. -/
def progressing : ℕ → List String → String → Memo → Option (Bool × Memo)
  | 0, _, _, _ => none
  | n + 1, visiting, id, memo =>
    match memo id with
    | some v => some (v, memo)
    | none =>
      match P.store.get id with
      | none => some (false, memo)
      | some b =>
        if b.isClosed || P.rests b then some (true, Function.update memo id (some true))
        -- a ring is never progress
        else if id ∈ visiting then some (false, memo)
        else do
          let (any, memo) ← P.anyOf (progressing n (id :: visiting)) b.blocksTargets memo
          some (any, Function.update memo id (some any))

/-- Questions one after the other, with one memo and nothing visited. -/
def answers (n : ℕ) : List String → Memo → Option (List Bool)
  | [], _ => some []
  | id :: ids, memo => do
    let (v, memo) ← P.progressing n [] id memo
    let vs ← answers n ids memo
    some (v :: vs)

/-! ## The truth -/

/-- Edges between beads that are not closed lead to one that rests. -/
inductive Chain : String → Prop
  | here {id : String} {b : Bead} : P.store.get id = some b → b.isClosed = false → P.rests b →
      Chain id
  | next {id t : String} {b : Bead} : P.store.get id = some b → b.isClosed = false →
      t ∈ b.blocksTargets → Chain t → Chain id

/-- What `progressing` is to find out. -/
def Progress (id : String) : Prop := (P.store.get id).any Bead.isClosed ∨ P.Chain id

/-- A bead whose targets are looked at. -/
def Waits (id : String) (b : Bead) : Prop :=
  P.store.get id = some b ∧ (b.isClosed || P.rests b) = false

variable {P} {id t : String} {b : Bead} {memo memo' : Memo} {visiting ids : List String}
  {v : Bool} {r : Bool × Memo} {n : ℕ}

theorem Chain.not_closed (h : P.Chain id) : (P.store.get id).any Bead.isClosed = false := by
  cases h with
  | here hget hopen | next hget hopen =>
    rw [hget]
    exact hopen

/-- A target with progress that is not closed has a chain. -/
theorem Progress.chain (h : P.Progress id) (hopen : ¬ (P.store.get id).any Bead.isClosed) :
    P.Chain id :=
  h.resolve_left hopen

theorem Waits.chain_iff (h : P.Waits id b) : P.Chain id ↔ ∃ t ∈ b.blocksTargets, P.Chain t := by
  obtain ⟨hget, hrest⟩ := h
  rw [Bool.or_eq_false_iff] at hrest
  constructor
  · rintro (⟨hget', -, hrests⟩ | ⟨hget', -, ht, hchain⟩)
    · rw [hget, Option.some.injEq] at hget'
      rw [← hget', hrest.2] at hrests
      cases hrests
    · rw [hget, Option.some.injEq] at hget'
      exact ⟨_, hget' ▸ ht, hchain⟩
  · rintro ⟨t, ht, hchain⟩
    exact .next hget hrest.1 ht hchain

theorem Waits.progress_iff (h : P.Waits id b) : P.Progress id ↔ P.Chain id := by
  refine or_iff_right ?_
  rw [h.1, Option.any_some, (Bool.or_eq_false_iff.mp h.2).1]
  decide

/-- A closed bead progresses, and one that rests. -/
theorem progress_of_get (h : P.store.get id = some b) (hb : b.isClosed || P.rests b) :
    P.Progress id := by
  rcases hc : b.isClosed with _ | _
  · rw [hc, Bool.false_or] at hb
    exact .inr (.here h hc hb)
  · left
    rw [h]
    exact hc

theorem not_progress_of_get (h : P.store.get id = none) : ¬ P.Progress id := by
  rintro (hc | hc)
  · rw [h] at hc
    cases hc
  · cases hc with
    | here hget | next hget =>
      rw [h] at hget
      cases hget

/-! ## One search -/

/-- What a loop over targets does, where `R` is what a search for one of them does. -/
inductive Loop (P : Partition) (R : String → Memo → Bool × Memo → Prop) :
    List String → Memo → Bool × Memo → Prop
  | nil {memo : Memo} : Loop P R [] memo (false, memo)
  | closed {t : String} {ts : List String} {memo : Memo} {r : Bool × Memo} :
      (P.store.get t).any Bead.isClosed → Loop P R ts memo r → Loop P R (t :: ts) memo r
  | found {t : String} {ts : List String} {memo memo' : Memo} :
      ¬ (P.store.get t).any Bead.isClosed → R t memo (true, memo') →
      Loop P R (t :: ts) memo (true, memo')
  | pass {t : String} {ts : List String} {memo memo' : Memo} {r : Bool × Memo} :
      ¬ (P.store.get t).any Bead.isClosed → R t memo (false, memo') → Loop P R ts memo' r →
      Loop P R (t :: ts) memo r

theorem loop_of_anyOf {ask : String → Memo → Option (Bool × Memo)} {ts : List String}
    {R : String → Memo → Bool × Memo → Prop}
    (hask : ∀ t memo r, ask t memo = some r → R t memo r) (h : P.anyOf ask ts memo = some r) :
    Loop P R ts memo r := by
  induction ts generalizing memo with
  | nil =>
    cases h
    exact .nil
  | cons t ts ih =>
    rw [anyOf] at h
    split at h
    · rename_i hclosed
      exact .closed hclosed (ih h)
    · rename_i hopen
      obtain ⟨⟨v, memo'⟩, ht, hrest⟩ := Option.bind_eq_some_iff.mp h
      cases v with
      | true =>
        cases hrest
        exact .found hopen (hask t _ _ ht)
      | false => exact .pass hopen (hask t _ _ ht) (ih hrest)

/-- **What a search does.**  A property of searches holds of all of them when it holds for each way
that one can end, given that it holds of the searches for the targets. -/
theorem progressing_rule {R : List String → String → Memo → Bool × Memo → Prop}
    (hmemo : ∀ visiting id memo v, memo id = some v → R visiting id memo (v, memo))
    (habsent : ∀ visiting id memo, P.store.get id = none → R visiting id memo (false, memo))
    (hrests : ∀ visiting id memo b, P.store.get id = some b → b.isClosed || P.rests b →
      memo id = none → R visiting id memo (true, Function.update memo id (some true)))
    (hring : ∀ visiting id memo b, P.Waits id b → memo id = none → id ∈ visiting →
      R visiting id memo (false, memo))
    (hloop : ∀ visiting id memo b v memo', P.Waits id b → memo id = none → id ∉ visiting →
      Loop P (R (id :: visiting)) b.blocksTargets memo (v, memo') →
      R visiting id memo (v, Function.update memo' id (some v)))
    (h : P.progressing n visiting id memo = some r) : R visiting id memo r := by
  induction n generalizing visiting id memo r with
  | zero => cases h
  | succ n ih =>
    rw [progressing] at h
    split at h
    · rename_i v hv
      cases h
      exact hmemo _ _ _ _ hv
    · rename_i hnone
      split at h
      · rename_i hget
        cases h
        exact habsent _ _ _ hget
      · rename_i b hget
        split at h
        · rename_i hb
          cases h
          exact hrests _ _ _ _ hget hb hnone
        · rename_i hb
          have hw : P.Waits id b := ⟨hget, Bool.eq_false_iff.mpr hb⟩
          split at h
          · rename_i hin
            cases h
            exact hring _ _ _ _ hw hnone hin
          · rename_i hout
            obtain ⟨⟨v, memo'⟩, hany, hrest⟩ := Option.bind_eq_some_iff.mp h
            cases hrest
            exact hloop _ _ _ _ _ _ hw hnone hout (loop_of_anyOf (fun _ _ _ ↦ ih) hany)

/-- Searches end: no bead is twice among those that a search is at. -/
theorem progressing_total (hnodup : visiting.Nodup)
    (hget : ∀ u ∈ visiting, ∃ b, P.store.get u = some b)
    (hn : P.store.beads.length < n + visiting.length) :
    ∃ r, P.progressing n visiting id memo = some r := by
  induction n generalizing visiting id memo with
  | zero =>
    have hsub : visiting ⊆ P.store.beads.map Bead.id := fun u hu ↦ by
      obtain ⟨b, hb⟩ := hget u hu
      exact List.mem_map.mpr ⟨b, Store.mem_of_get hb, Store.id_of_get hb⟩
    have hle := (hnodup.subperm hsub).length_le
    rw [List.length_map] at hle
    omega
  | succ n ih =>
    rw [progressing]
    split
    · exact ⟨_, rfl⟩
    · split
      · exact ⟨_, rfl⟩
      · rename_i b hb
        split
        · exact ⟨_, rfl⟩
        · split
          · exact ⟨_, rfl⟩
          · rename_i hout
            have hask (t : String) (memo : Memo) :
                ∃ r, P.progressing n (id :: visiting) t memo = some r := by
              refine ih (List.nodup_cons.mpr ⟨hout, hnodup⟩) ?_ ?_
              · rintro u (_ | ⟨_, hu⟩)
                · exact ⟨b, hb⟩
                · exact hget u hu
              · rw [List.length_cons]
                omega
            have hany (ts : List String) (memo : Memo) :
                ∃ r, P.anyOf (P.progressing n (id :: visiting)) ts memo = some r := by
              induction ts generalizing memo with
              | nil => exact ⟨_, rfl⟩
              | cons t ts iht =>
                rw [anyOf]
                split
                · exact iht memo
                · obtain ⟨⟨v, memo'⟩, ht⟩ := hask t memo
                  rw [ht]
                  cases v
                  · exact iht memo'
                  · exact ⟨_, rfl⟩
            obtain ⟨r, hr⟩ := hany b.blocksTargets memo
            rw [hr]
            exact ⟨_, rfl⟩

theorem answers_total (hn : P.store.beads.length < n) (memo : Memo) :
    ∃ vs, P.answers n ids memo = some vs := by
  induction ids generalizing memo with
  | nil => exact ⟨[], rfl⟩
  | cons id ids ih =>
    have hone : ∃ r, P.progressing n [] id memo = some r :=
      progressing_total List.nodup_nil (fun _ hu ↦ absurd hu List.not_mem_nil) hn
    obtain ⟨⟨v, memo'⟩, hr⟩ := hone
    obtain ⟨vs, hvs⟩ := ih memo'
    refine ⟨v :: vs, ?_⟩
    rw [answers, hr]
    exact congrArg (Option.bind · fun vs ↦ some (v :: vs)) hvs

/-! ## What a memo holds -/

/-- What is kept as progress is progress. -/
def Sound (P : Partition) (memo : Memo) : Prop := ∀ id, memo id = some true → P.Progress id

/-- Every answer that is kept is the right one. -/
def Right (P : Partition) (memo : Memo) : Prop :=
  ∀ id v, memo id = some v → (v = true ↔ P.Progress id)

/-- Nothing but failures is kept. -/
def Blank (memo : Memo) : Prop := ∀ id v, memo id = some v → v = false

/-- What is kept stays. -/
def Grows (memo memo' : Memo) : Prop := ∀ id v, memo id = some v → memo' id = some v

theorem Loop.sound {ts : List String}
    (h : Loop P (fun t memo r ↦ P.Sound memo → (r.1 = true → P.Progress t) ∧ P.Sound r.2) ts memo r)
    (hs : P.Sound memo) : (r.1 = true → ∃ t ∈ ts, P.Chain t) ∧ P.Sound r.2 := by
  induction h with
  | nil => exact ⟨nofun, hs⟩
  | closed _ _ ih =>
    obtain ⟨ht, hs'⟩ := ih hs
    exact ⟨fun hr ↦ (ht hr).imp fun _ ↦ And.imp_left (List.mem_cons_of_mem _), hs'⟩
  | @found t _ _ _ hopen ht =>
    obtain ⟨hp, hs'⟩ := ht hs
    exact ⟨fun _ ↦ ⟨t, List.mem_cons_self, (hp rfl).chain hopen⟩, hs'⟩
  | pass _ ht _ ih =>
    obtain ⟨ht', hs'⟩ := ih (ht hs).2
    exact ⟨fun hr ↦ (ht' hr).imp fun _ ↦ And.imp_left (List.mem_cons_of_mem _), hs'⟩

/-- What is answered with yes progresses, and so does what is kept as such. -/
theorem progressing_sound (h : P.progressing n visiting id memo = some r) (hs : P.Sound memo) :
    (r.1 = true → P.Progress id) ∧ P.Sound r.2 := by
  have hupdate {memo : Memo} {id : String} {v : Bool} (hs : P.Sound memo)
      (hid : v = true → P.Progress id) : P.Sound (Function.update memo id (some v)) := by
    intro y hy
    by_cases hne : y = id
    · rw [hne, Function.update_self, Option.some.injEq] at hy
      exact hne ▸ hid hy
    · rw [Function.update_of_ne hne] at hy
      exact hs y hy
  refine progressing_rule (R := fun _ id memo r ↦ P.Sound memo →
    (r.1 = true → P.Progress id) ∧ P.Sound r.2) ?_ ?_ ?_ ?_ ?_ h hs
  · exact fun _ id memo v hv hs ↦ ⟨fun hr ↦ hs id (hr ▸ hv), hs⟩
  · exact fun _ _ _ _ hs ↦ ⟨nofun, hs⟩
  · intro _ id memo b hget hb _ hs
    have hid := progress_of_get hget hb
    exact ⟨fun _ ↦ hid, hupdate hs fun _ ↦ hid⟩
  · exact fun _ _ _ _ _ _ _ hs ↦ ⟨nofun, hs⟩
  · intro _ id memo b v memo' hw _ _ hloop hs
    obtain ⟨ht, hs'⟩ := hloop.sound hs
    have hid (hv : v = true) : P.Progress id := .inr (hw.chain_iff.mpr (ht hv))
    exact ⟨hid, hupdate hs' hid⟩

theorem Grows.trans {memo'' : Memo} (h : Grows memo memo') (h' : Grows memo' memo'') :
    Grows memo memo'' := fun y w hy ↦ h' y w (h y w hy)

theorem Grows.update (h : Grows memo memo') (hid : memo id = none) :
    Grows memo (Function.update memo' id (some v)) := by
  intro y w hy
  rw [Function.update_of_ne (by rintro rfl; rw [hid] at hy; cases hy)]
  exact h y w hy

theorem Loop.grows {ts : List String} (h : Loop P (fun _ memo r ↦ Grows memo r.2) ts memo r) :
    Grows memo r.2 := by
  induction h with
  | nil => exact fun _ _ hy ↦ hy
  | closed _ _ ih => exact ih
  | found _ ht => exact ht
  | pass _ ht _ ih => exact ht.trans ih

theorem progressing_grows (h : P.progressing n visiting id memo = some r) : Grows memo r.2 := by
  refine progressing_rule (R := fun _ _ memo r ↦ Grows memo r.2) ?_ ?_ ?_ ?_ ?_ h
  · exact fun _ _ _ _ _ _ _ hy ↦ hy
  · exact fun _ _ _ _ _ _ hy ↦ hy
  · exact fun _ id memo b _ _ hnone ↦ Grows.update (fun _ _ hy ↦ hy) hnone
  · exact fun _ _ _ _ _ _ _ _ _ hy ↦ hy
  · intro _ id memo b v memo' _ hnone _ hloop
    exact .update hloop.grows hnone

theorem Loop.spares {x : String} {ts : List String}
    (h : Loop P (fun _ memo r ↦ memo x = none → r.2 x = none) ts memo r) (hx : memo x = none) :
    r.2 x = none := by
  induction h with
  | nil => exact hx
  | closed _ _ ih => exact ih hx
  | found _ ht => exact ht hx
  | pass _ ht _ ih => exact ih (ht hx)

/-- A search keeps no answer for a bead that another one is at. -/
theorem progressing_spares {x : String} {c : Bead} (h : P.progressing n visiting id memo = some r)
    (hc : P.Waits x c) (hin : x ∈ visiting) (hx : memo x = none) : r.2 x = none := by
  refine progressing_rule (R := fun visiting _ memo r ↦ x ∈ visiting → memo x = none →
    r.2 x = none) ?_ ?_ ?_ ?_ ?_ h hin hx
  · exact fun _ _ _ _ _ _ hx ↦ hx
  · exact fun _ _ _ _ _ hx ↦ hx
  · intro _ id memo b hget hb _ _ hx
    have hne : x ≠ id := by
      rintro rfl
      rw [hc.1, Option.some.injEq] at hget
      rw [← hget, hc.2] at hb
      cases hb
    exact (Function.update_of_ne hne _ _).trans hx
  · exact fun _ _ _ _ _ _ _ _ hx ↦ hx
  · intro visiting id memo b v memo' _ _ hout hloop hin hx
    have hne : x ≠ id := fun heq ↦ hout (heq ▸ hin)
    have hin' : x ∈ id :: visiting := List.mem_cons_of_mem _ hin
    simp only [hin', true_imp_iff] at hloop
    exact (Function.update_of_ne hne _ _).trans (hloop.spares hx)

theorem Blank.update (h : Blank memo) (hv : v = false) :
    Blank (Function.update memo id (some v)) := by
  intro y w hy
  by_cases hne : y = id
  · rw [hne, Function.update_self, Option.some.injEq] at hy
    exact hy ▸ hv
  · rw [Function.update_of_ne hne] at hy
    exact h y w hy

theorem Loop.blank {ts : List String}
    (h : Loop P (fun _ memo r ↦ r.1 = false → Blank memo → Blank r.2) ts memo r)
    (hr : r.1 = false) (hb : Blank memo) : Blank r.2 := by
  induction h with
  | nil => exact hb
  | closed _ _ ih => exact ih hr hb
  | found => cases hr
  | pass _ ht _ ih => exact ih hr (ht rfl hb)

/-- A search that finds nothing keeps nothing but failures. -/
theorem progressing_blank (h : P.progressing n visiting id memo = some r) (hr : r.1 = false)
    (hb : Blank memo) : Blank r.2 := by
  refine progressing_rule (R := fun _ _ memo r ↦ r.1 = false → Blank memo → Blank r.2)
    ?_ ?_ ?_ ?_ ?_ h hr hb
  · exact fun _ _ _ _ _ _ hb ↦ hb
  · exact fun _ _ _ _ _ hb ↦ hb
  · exact fun _ _ _ _ _ _ _ hr ↦ nomatch hr
  · exact fun _ _ _ _ _ _ _ _ hb ↦ hb
  · exact fun _ _ _ _ _ _ _ _ _ hloop hr hb ↦ (hloop.blank hr hb).update hr

/-! ## Where a search goes -/

/-- The way of a search from `root` that has found nothing yet, to the bead that it is at: of the
targets that a chain leads on from, it takes the first that is not on its way. -/
inductive Walk (P : Partition) (root : String) : List String → String → Prop
  | start : Walk P root [] root
  | next {stack pre post : List String} {id t : String} {b : Bead} : Walk P root stack id →
      P.Waits id b → b.blocksTargets = pre ++ t :: post →
      (∀ u ∈ pre, P.Chain u → u ∈ id :: stack) → P.Chain t → t ∉ id :: stack →
      Walk P root (id :: stack) t

/-- All that a chain leads on from is on the way already. -/
def Blind (P : Partition) (stack : List String) (id : String) : Prop :=
  ∃ b, P.Waits id b ∧ P.Chain id ∧ ∀ t ∈ b.blocksTargets, P.Chain t → t ∈ id :: stack

/-- No search comes to a bead whose every way on goes back. -/
def NeverBlind (P : Partition) : Prop := ∀ root stack id, P.Walk root stack id → ¬ P.Blind stack id

variable {root : String} {stack : List String}

theorem Walk.waits (h : P.Walk root stack id) : ∀ u ∈ stack, ∃ b, P.Waits u b := by
  induction h with
  | start => exact fun _ hu ↦ absurd hu List.not_mem_nil
  | next _ hw _ _ _ _ ih =>
    rintro u (_ | ⟨_, hu⟩)
    · exact ⟨_, hw⟩
    · exact ih u hu

theorem Walk.notMem (h : P.Walk root stack id) : id ∉ stack := by
  cases h with
  | start => exact List.not_mem_nil
  | next _ _ _ _ _ hout => exact hout

/-! ## Where no search is blind -/

theorem Right.update (h : P.Right memo) (hv : v = true ↔ P.Progress id) :
    P.Right (Function.update memo id (some v)) := by
  intro y w hy
  by_cases hne : y = id
  · rw [hne, Function.update_self, Option.some.injEq] at hy
    rw [hne, ← hy]
    exact hv
  · rw [Function.update_of_ne hne] at hy
    exact h y w hy

/-- A search at `id`: what it keeps is right, and it misses progress of a bead on its way only. -/
def Answers (P : Partition) (root : String) (visiting : List String) (id : String) (memo : Memo)
    (r : Bool × Memo) : Prop :=
  (P.Chain id → id ∉ visiting → P.Walk root visiting id) → P.Right memo →
    P.Right r.2 ∧ (r.1 = true → P.Progress id) ∧ (r.1 = false → P.Progress id → id ∈ visiting)

theorem Loop.answers {pre ts : List String} (hid : P.Waits id b) (hout : id ∉ stack)
    (hwalk : P.Chain id → id ∉ stack → P.Walk root stack id)
    (h : Loop P (P.Answers root (id :: stack)) ts memo r) (hts : b.blocksTargets = pre ++ ts)
    (hpre : ∀ u ∈ pre, P.Chain u → u ∈ id :: stack) (hright : P.Right memo) :
    P.Right r.2 ∧ (r.1 = true → ∃ t ∈ b.blocksTargets, P.Chain t) ∧
      (r.1 = false → ∀ t ∈ b.blocksTargets, P.Chain t → t ∈ id :: stack) := by
  -- a search for a target goes on with the walk
  have hnext {t : String} {pre ts : List String} (hts : b.blocksTargets = pre ++ t :: ts)
      (hpre : ∀ u ∈ pre, P.Chain u → u ∈ id :: stack) :
      P.Chain t → t ∉ id :: stack → P.Walk root (id :: stack) t := by
    intro hchain hnew
    have hmem : t ∈ b.blocksTargets := by
      rw [hts]
      exact List.mem_append_right _ List.mem_cons_self
    exact .next (hwalk (hid.chain_iff.mpr ⟨t, hmem, hchain⟩) hout) hid hts hpre hchain hnew
  induction h generalizing pre with
  | nil =>
    rw [List.append_nil] at hts
    exact ⟨hright, nofun, fun _ ↦ hts ▸ hpre⟩
  | @closed t ts _ _ hclosed _ ih =>
    refine ih (by rw [hts, List.append_assoc]; rfl : b.blocksTargets = (pre ++ [t]) ++ ts) ?_ hright
    intro u hu hchain
    rcases List.mem_append.mp hu with hu | hu
    · exact hpre u hu hchain
    · rw [List.mem_singleton.mp hu] at hchain
      rw [hchain.not_closed] at hclosed
      cases hclosed
  | @found t ts _ _ hopen ht =>
    obtain ⟨hright', hyes, -⟩ := ht (hnext hts hpre) hright
    refine ⟨hright', fun _ ↦ ⟨t, ?_, (hyes rfl).chain hopen⟩, nofun⟩
    rw [hts]
    exact List.mem_append_right _ List.mem_cons_self
  | @pass t ts _ _ _ hopen ht _ ih =>
    obtain ⟨hright', -, hno⟩ := ht (hnext hts hpre) hright
    refine ih (by rw [hts, List.append_assoc]; rfl : b.blocksTargets = (pre ++ [t]) ++ ts) ?_ hright'
    intro u hu hchain
    rcases List.mem_append.mp hu with hu | hu
    · exact hpre u hu hchain
    · rw [List.mem_singleton.mp hu] at hchain ⊢
      exact hno rfl (.inr hchain)

theorem progressing_answers (hnever : P.NeverBlind)
    (h : P.progressing n visiting id memo = some r) : P.Answers root visiting id memo r := by
  refine progressing_rule (R := P.Answers root) ?_ ?_ ?_ ?_ ?_ h
  · intro _ id memo v hv _ hright
    have hid := hright id v hv
    exact ⟨hright, hid.mp, fun hr hp ↦ absurd (hid.mpr hp) (Bool.eq_false_iff.mp hr)⟩
  · exact fun _ id memo hget _ hright ↦
      ⟨hright, nofun, fun _ hp ↦ absurd hp (not_progress_of_get hget)⟩
  · intro _ id memo b hget hb _ _ hright
    have hid := progress_of_get hget hb
    exact ⟨hright.update (iff_of_true rfl hid), fun _ ↦ hid, nofun⟩
  · exact fun _ _ _ _ _ _ hin _ hright ↦ ⟨hright, nofun, fun _ _ ↦ hin⟩
  · intro stack id memo b v memo' hid _ hout hloop hwalk hright
    obtain ⟨hright', hyes, hno⟩ := hloop.answers hid hout hwalk
      (rfl : b.blocksTargets = [] ++ b.blocksTargets) (fun _ hu ↦ absurd hu List.not_mem_nil) hright
    have hiff : v = true ↔ P.Progress id := by
      rw [hid.progress_iff]
      refine ⟨fun hv ↦ hid.chain_iff.mpr (hyes hv), fun hchain ↦ ?_⟩
      by_contra hv
      exact hnever _ _ _ (hwalk hchain hout) ⟨b, hid, hchain, hno (Bool.eq_false_iff.mpr hv)⟩
    exact ⟨hright'.update hiff, hiff.mp, fun hv hp ↦ absurd (hiff.mpr hp) (Bool.eq_false_iff.mp hv)⟩

/-- With nothing visited every bead can be walked to, so the answer is the right one. -/
theorem progressing_right (hnever : P.NeverBlind) (h : P.progressing n [] id memo = some r)
    (hright : P.Right memo) : P.Right r.2 ∧ (r.1 = true ↔ P.Progress id) := by
  obtain ⟨hright', hyes, hno⟩ := progressing_answers hnever h (fun _ _ ↦ .start) hright
  refine ⟨hright', hyes, fun hp ↦ ?_⟩
  by_contra hr
  exact List.not_mem_nil (hno (Bool.eq_false_iff.mpr hr) hp)

/-! ## What a blind bead is answered -/

/-- With nothing but failures kept, all of them right, no bead that a chain leads on from is among
them. -/
theorem Blank.none_of_chain {final : Memo} (hb : Blank memo) (hgrows : Grows memo final)
    (hright : P.Right final) (hchain : P.Chain id) : memo id = none := by
  cases hid : memo id with
  | none => rfl
  | some v =>
    have hv := (hright id v (hgrows id v hid)).mpr (.inr hchain)
    rw [hb id v hid] at hv
    cases hv

/-- A search that is at `id`, with nothing but failures kept so far, in one whose memo ends in
`final`. -/
def Reached (P : Partition) (final : Memo) (stack : List String) (id : String) : Prop :=
  ∃ n memo r, P.progressing n stack id memo = some r ∧ Blank memo ∧ Grows r.2 final

/-- What such a search does with its bead: it asks the targets, and what they leave in the memo stays
but for the bead's own answer. -/
theorem Reached.asks {final : Memo} (h : P.Reached final stack id) (hw : P.Waits id b)
    (hchain : P.Chain id) (hout : id ∉ stack) (hright : P.Right final) :
    ∃ m memo v memo', P.anyOf (P.progressing m (id :: stack)) b.blocksTargets memo = some (v, memo') ∧
      Blank memo ∧ memo id = none ∧ Grows (Function.update memo' id (some v)) final := by
  obtain ⟨n, memo, r, hr, hb, hgrows⟩ := h
  have hnone := hb.none_of_chain ((progressing_grows hr).trans hgrows) hright hchain
  cases n with
  | zero => cases hr
  | succ m =>
    rw [progressing, hnone] at hr
    dsimp only at hr
    rw [hw.1] at hr
    dsimp only at hr
    rw [hw.2, if_neg Bool.false_ne_true, if_neg hout] at hr
    obtain ⟨⟨v, memo'⟩, hany, hrest⟩ := Option.bind_eq_some_iff.mp hr
    cases hrest
    exact ⟨m, memo, v, memo', hany, hb, hnone, hgrows⟩

theorem anyOf_grows {ts : List String}
    (h : P.anyOf (P.progressing n visiting) ts memo = some r) : Grows memo r.2 :=
  (loop_of_anyOf (R := fun _ memo r ↦ Grows memo r.2) (fun _ _ _ ↦ progressing_grows) h).grows

/-- Targets whose every way on is on the way already are passed, and leave nothing but failures. -/
theorem anyOf_passes {final : Memo} {pre ts : List String} (hid : P.Waits id b)
    (hstack : ∀ u ∈ stack, ∃ c, P.Waits u c) (hright : P.Right final)
    (h : P.anyOf (P.progressing n (id :: stack)) (pre ++ ts) memo = some (v, memo'))
    (hpre : ∀ u ∈ pre, P.Chain u → u ∈ id :: stack) (hb : Blank memo) (hnone : memo id = none)
    (hgrows : Grows (Function.update memo' id (some v)) final) :
    ∃ memo₁, Blank memo₁ ∧ memo₁ id = none ∧
      P.anyOf (P.progressing n (id :: stack)) ts memo₁ = some (v, memo') := by
  induction pre generalizing memo with
  | nil => exact ⟨memo, hb, hnone, h⟩
  | cons u pre ih =>
    have hpre' : ∀ u ∈ pre, P.Chain u → u ∈ id :: stack :=
      fun u hu ↦ hpre u (List.mem_cons_of_mem _ hu)
    have hkept : Grows memo (Function.update memo' id (some v)) := (anyOf_grows h).update hnone
    rw [List.cons_append, anyOf] at h
    split at h
    · exact ih h hpre' hb hnone
    · rename_i hopen
      obtain ⟨⟨w, memo₂⟩, hu, hrest⟩ := Option.bind_eq_some_iff.mp h
      cases w with
      | false =>
        have hnone₂ : memo₂ id = none := progressing_spares hu hid List.mem_cons_self hnone
        exact ih hrest hpre' (progressing_blank hu rfl hb) hnone₂
      | true =>
        -- it progresses, so it is on the way, and a search for it answers no
        exfalso
        have hsound : P.Sound memo := fun y hy ↦ absurd (hb y true hy) (by decide)
        have hchain := ((progressing_sound hu hsound).1 rfl).chain hopen
        have hin := hpre u List.mem_cons_self hchain
        have hnone_u := hb.none_of_chain (hkept.trans hgrows) hright hchain
        obtain ⟨c, hc⟩ : ∃ c, P.Waits u c := by
          rcases List.mem_cons.mp hin with rfl | hin
          · exact ⟨b, hid⟩
          · exact hstack u hin
        cases n with
        | zero => cases hu
        | succ n =>
          rw [progressing, hnone_u] at hu
          dsimp only at hu
          rw [hc.1] at hu
          dsimp only at hu
          rw [hc.2, if_neg Bool.false_ne_true, if_pos hin] at hu
          cases hu

theorem Walk.reached {final : Memo} (h : P.Walk root stack id) (hroot : P.Reached final [] root)
    (hright : P.Right final) (hchain : P.Chain id) : P.Reached final stack id := by
  induction h with
  | start => exact hroot
  | @next stack pre post id t b hwalk hid hts hpre ht hnew ih =>
    have hmem : t ∈ b.blocksTargets := by
      rw [hts]
      exact List.mem_append_right _ List.mem_cons_self
    have hchain' : P.Chain id := hid.chain_iff.mpr ⟨t, hmem, ht⟩
    obtain ⟨m, memo, v, memo', hany, hb, hnone, hgrows⟩ :=
      (ih hchain').asks hid hchain' hwalk.notMem hright
    rw [hts] at hany
    obtain ⟨memo₁, hb₁, hnone₁, hrest⟩ :=
      anyOf_passes hid hwalk.waits hright hany hpre hb hnone hgrows
    rw [anyOf, ht.not_closed, if_neg Bool.false_ne_true] at hrest
    obtain ⟨⟨w, memo₂⟩, hask, hafter⟩ := Option.bind_eq_some_iff.mp hrest
    have hkept : Grows memo₂ memo' := by
      cases w with
      | true =>
        cases hafter
        exact fun _ _ hy ↦ hy
      | false => exact anyOf_grows hafter
    have hnone₂ : memo₂ id = none := progressing_spares hask hid List.mem_cons_self hnone₁
    exact ⟨m, memo₁, (w, memo₂), hask, hb₁, (hkept.update hnone₂).trans hgrows⟩

/-- A search that comes to a blind bead keeps that it does not progress, which it does. -/
theorem Blind.not_right {final : Memo} (h : P.Blind stack id) (hwalk : P.Walk root stack id)
    (hroot : P.Reached final [] root) : ¬ P.Right final := by
  intro hright
  obtain ⟨b, hid, hchain, hback⟩ := h
  obtain ⟨m, memo, v, memo', hany, hb, hnone, hgrows⟩ :=
    (hwalk.reached hroot hright hchain).asks hid hchain hwalk.notMem hright
  rw [← List.append_nil b.blocksTargets] at hany
  obtain ⟨_, -, -, hrest⟩ := anyOf_passes hid hwalk.waits hright hany hback hb hnone hgrows
  cases hrest
  have hkept := hgrows id false (Function.update_self ..)
  exact absurd ((hright id false hkept).mpr (.inr hchain)) (by decide)

/-! ## The answers -/

theorem answers_right (hnever : P.NeverBlind) {vs : List Bool} (hright : P.Right memo)
    (h : P.answers n ids memo = some vs) :
    List.Forall₂ (fun id v ↦ v = true ↔ P.Progress id) ids vs := by
  induction ids generalizing memo vs with
  | nil =>
    cases h
    exact .nil
  | cons id ids ih =>
    obtain ⟨⟨v, memo'⟩, hr, hrest⟩ := Option.bind_eq_some_iff.mp h
    obtain ⟨us, hus, hcons⟩ := Option.bind_eq_some_iff.mp hrest
    cases hcons
    obtain ⟨hright', hid⟩ := progressing_right hnever hr hright
    exact .cons hid (ih hright' hus)

/-- Where all answers are right, so is what a search leaves in the memo: the next question reads
it. -/
theorem right_of_answers (hn : P.store.beads.length < n)
    (h : ∀ ids vs, P.answers n ids (fun _ ↦ none) = some vs →
      List.Forall₂ (fun id v ↦ v = true ↔ P.Progress id) ids vs)
    (hr : P.progressing n [] root (fun _ ↦ none) = some r) : P.Right r.2 := by
  intro id v hv
  obtain ⟨n, rfl⟩ := Nat.exists_eq_succ_of_ne_zero (Nat.ne_of_gt (Nat.zero_lt_of_lt hn))
  have hread : P.progressing (n + 1) [] id r.2 = some (v, r.2) := by rw [progressing, hv]
  have hvs : P.answers (n + 1) [root, id] (fun _ ↦ none) = some [r.1, v] := by
    rw [answers, hr]
    dsimp only [Option.bind_eq_bind, Option.bind_some]
    rw [answers, hread]
    rfl
  cases h _ _ hvs with
  | cons _ hrest =>
    cases hrest with
    | cons hid => exact hid

/-- **When progress is told exactly.**  Every question ends, and with one memo for all of them the
answers are the right ones exactly where no search comes to a bead that is blind: one that a chain
leads on from, but only back to beads that the search is at. -/
theorem progressing_exact (P : Partition) (n : ℕ) (hn : P.store.beads.length < n) :
    (∀ ids, ∃ vs, P.answers n ids (fun _ ↦ none) = some vs) ∧
    ((∀ ids vs, P.answers n ids (fun _ ↦ none) = some vs →
        List.Forall₂ (fun id v ↦ v = true ↔ P.Progress id) ids vs) ↔ P.NeverBlind) := by
  refine ⟨fun _ ↦ answers_total hn _, fun h root stack id hwalk hblind ↦ ?_, fun hnever ids vs h ↦ ?_⟩
  · obtain ⟨r, hr⟩ : ∃ r, P.progressing n [] root (fun _ ↦ none) = some r :=
      progressing_total List.nodup_nil (fun _ hu ↦ absurd hu List.not_mem_nil) hn
    exact hblind.not_right hwalk ⟨n, _, r, hr, nofun, fun _ _ hy ↦ hy⟩ (right_of_answers hn h hr)
  · exact answers_right hnever (by intro _ _ hv; cases hv) h

/-! ## A ring with a way out -/

/-- An open bead that is blocked by others. -/
def blocked (id : String) (targets : List String) : Bead :=
  ⟨id, .opened, none, [], targets.map fun t ↦ ⟨some t, some "blocks", none⟩⟩

/-- `a` waits on `b` and on `c`, `b` on `a`, and a builder holds `c`. -/
def ring : Partition where
  store := ⟨[blocked "a" ["b", "c"], blocked "b" ["a"], blocked "c" []]⟩
  labels := []
  ready := ∅
  working := {"c"}
  heldAsk := ∅
  heldPoison := ∅
  vocab := ⟨"", ""⟩

theorem progressing_exact_ring :
    (∀ ids, ∃ vs, ring.answers 4 ids (fun _ ↦ none) = some vs) ∧
    ((∀ ids vs, ring.answers 4 ids (fun _ ↦ none) = some vs →
        List.Forall₂ (fun id v ↦ v = true ↔ ring.Progress id) ids vs) ↔ ring.NeverBlind) :=
  progressing_exact ring 4 (by decide)

/-- Asked after `a`, `b` is answered no, and it waits on `a`, which waits on what is held. -/
theorem ring_forgotten :
    ¬ ∀ (P : Partition) (n : ℕ), P.store.beads.length < n → ∀ ids vs,
      P.answers n ids (fun _ ↦ none) = some vs →
        List.Forall₂ (fun id v ↦ v = true ↔ P.Progress id) ids vs := by
  intro h
  have hvs : ring.answers 4 ["a", "b"] (fun _ ↦ none) = some [true, false] := by decide
  have hb : ring.Progress "b" := by
    have hc : ring.Chain "c" := .here (b := blocked "c" []) (by decide) (by decide) (by decide)
    have ha : ring.Chain "a" :=
      .next (b := blocked "a" ["b", "c"]) (by decide) (by decide) (by decide) hc
    exact .inr (.next (b := blocked "b" ["a"]) (by decide) (by decide) (by decide) ha)
  cases h ring 4 (by decide) _ _ hvs with
  | cons _ hrest =>
    cases hrest with
    | cons hid => exact absurd (hid.mpr hb) (by decide)

end Spira.Strand.Partition
