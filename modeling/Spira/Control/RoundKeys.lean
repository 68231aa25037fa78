import Spira.Control.Admission

/-!
# What each command does to the rounds

A command leaves every round and every index as it was, or has a round born with its index, or steps
one round that it has looked up (`command_rounds`).
-/

set_option autoImplicit false

namespace Spira.Control

open Spira.Bead Spira.Batch Spira.Delivery Store Store.Contract Stopping
open KeyPrefix (starts)

/-- The key is of a round or of an index. -/
def OfRounds (key : String) : Prop := starts Keys.batchesPrefix key ∨ starts Keys.batchIdsPrefix key

section Keys

variable {id repo key pre : String}

theorem ofRounds_batch : OfRounds (Keys.batch repo id) := .inl (Keys.starts_batch repo id)

theorem ofRounds_batchIndex : OfRounds (Keys.batchIndex id) := .inr (Keys.starts_batchIndex id)

theorem not_ofRounds (h : starts pre key)
    (hpre : (starts pre Keys.batchesPrefix = false ∧ starts Keys.batchesPrefix pre = false) ∧
      starts pre Keys.batchIdsPrefix = false ∧ starts Keys.batchIdsPrefix pre = false) :
    ¬ OfRounds key := by
  rintro (hb | hb)
  · rw [KeyPrefix.not_starts h hpre.1.1 hpre.1.2] at hb
    cases hb
  · rw [KeyPrefix.not_starts h hpre.2.1 hpre.2.2] at hb
    cases hb

theorem not_ofRounds_lifecycle : ¬ OfRounds (Keys.lifecycle id) :=
  not_ofRounds (Keys.starts_lifecycle id) (by decide)

theorem not_ofRounds_gate : ¬ OfRounds (Keys.gate id) := not_ofRounds (Keys.starts_gate id) (by decide)

theorem not_ofRounds_delivery : ¬ OfRounds (Keys.delivery id) :=
  not_ofRounds (Keys.starts_delivery id) (by decide)

theorem not_ofRounds_mending : ¬ OfRounds (Keys.mending id) :=
  not_ofRounds (Keys.starts_mending id) (by decide)

theorem not_ofRounds_memberKeys : ∀ k ∈ memberKeys id, ¬ OfRounds k := by
  simp [memberKeys, not_ofRounds_lifecycle, not_ofRounds_gate, not_ofRounds_delivery]

theorem OfRounds.apart (h : OfRounds key) : Apart key := by
  obtain h | h := h
  · exact apart_batches h
  · exact apart_of_starts h (by decide)

theorem batch_ne_batchIndex {id' : String} : Keys.batch repo id ≠ Keys.batchIndex id' :=
  Keys.ne_of_starts (Keys.starts_batch repo id) (Keys.starts_batchIndex id') (by decide) (by decide)

end Keys

/-! ## Beside the rounds -/

namespace Cascade

variable {view : View} {keys : List String} {c c' c'' : Cascade}

/-- From `c` to `c'` no round and no index is planned anew. -/
structure Beside (view : View) (c c' : Cascade) : Prop where
  sound : Sound view c'
  planned : ∀ key, OfRounds key → c'.planned view key = c.planned view key
  writes : ∀ key, OfRounds key → (c'.Writes key ↔ c.Writes key)

theorem Beside.refl (h : Sound view c) : Beside view c c := ⟨h, fun _ _ ↦ rfl, fun _ _ ↦ .rfl⟩

theorem Beside.trans (h : Beside view c c') (h' : Beside view c' c'') : Beside view c c'' where
  sound := h'.sound
  planned key hkey := (h'.planned key hkey).trans (h.planned key hkey)
  writes key hkey := (h'.writes key hkey).trans (h.writes key hkey)

theorem Frame.beside (h : Frame view keys c c') (hk : ∀ k ∈ keys, ¬ OfRounds k) :
    Beside view c c' where
  sound := h.sound
  planned key hkey := h.planned key fun hmem ↦ hk key hmem hkey
  writes key hkey := ⟨h.writes key fun hmem ↦ hk key hmem hkey, h.kept key⟩

theorem Looks.beside (h : Looks view c c') : Beside view c c' := by
  have hf : Frame view [] c c' := h.frame
  exact hf.beside (by simp)

theorem beside_forM {α : Type} {l : List α} {f : α → Plan Unit} (h : Sound view c)
    (hstep : ∀ a c, Sound view c → Ends (f a) c fun _ c' ↦ Beside view c c') :
    Ends (l.forM f) c fun _ c' ↦ Beside view c c' :=
  ends_forM (I := fun _ c' ↦ Beside view c c') (.refl h) fun _ a _ _ c₁ hb ↦
    (hstep a c₁ hb.sound).imp fun _ _ hb' ↦ hb.trans hb'

/-- What a put plans: the record, under the metadata the key had, or under `owners`. -/
def Sets {T : Type} [Stored T] (view : View) (c : Cascade) (key : String) (m : Meta) (v : T) : Prop :=
  ∃ o, c.planned view key = some o ∧ o.metadata = m ∧ decode o = some v

theorem Put.sets {T : Type} [Stored T] {key : String} {v : T} {owners : List String}
    (h : Put view c c' key v owners) : Sets view c' key
      (((c.planned view key).map (·.metadata)).getD { ownerReferences := owners }) v := by
  refine ⟨_, h.planned, ?_, decode_object _ v owners⟩
  cases c.planned view key <;> rfl

theorem Beside.sets {T : Type} [Stored T] {key : String} {m : Meta} {v : T} (h : Beside view c c')
    (hkey : OfRounds key) (hs : Sets view c key m v) : Sets view c' key m v := by
  rwa [Sets, h.planned key hkey]

end Cascade

open Cascade

/-! ## What a cascade does to the rounds -/

/-- The rounds as a cascade leaves them. -/
inductive RoundsOf (r : Reads) (c : Cascade) : Prop
  | same (sound : Sound r.view c) (writes : ∀ key, OfRounds key → ¬ c.Writes key)
  /-- A round is born with its index, neither of which was there. -/
  | born {repo id : String} {rec : BatchRecord} (sound : Sound r.view c)
      (ids : rec.row.repo = repo ∧ rec.row.batchId = id)
      (absent : r.view (Keys.batch repo id) = none ∧ r.view (Keys.batchIndex id) = none)
      (writes : ∀ key, OfRounds key →
        (c.Writes key ↔ key = Keys.batch repo id ∨ key = Keys.batchIndex id))
      (round : Sets r.view c (Keys.batch repo id) {} rec)
      (index : Sets r.view c (Keys.batchIndex id) { ownerReferences := [Keys.batch repo id] }
        (BatchIndex.mk repo))
  /-- A round that was looked up steps. -/
  | stepped {id key : String} {rec₀ rec : BatchRecord} (sound : Sound r.view c)
      (looked : Looked r id key rec₀)
      (writes : ∀ k, OfRounds k → (c.Writes k ↔ k = key))
      (round : Sets r.view c key (((r.view key).map (·.value.metadata)).getD {}) rec)
      (ids : rec.row.repo = ((recordOf BatchRecord r.view key).getD rec₀).row.repo ∧
        rec.row.batchId = ((recordOf BatchRecord r.view key).getD rec₀).row.batchId)

theorem RoundsOf.sound {r : Reads} {c : Cascade} (h : RoundsOf r c) : Sound r.view c := by
  cases h <;> assumption

/-- The queue's fields leave a round the round it is. -/
theorem RoundsOf.fielded {r : Reads} {c c' : Cascade} (h : RoundsOf r c)
    (hf : Fielded r.view c c') : RoundsOf r c' := by
  have hround {key : String} {m : Meta} {rec : BatchRecord} (hs : Sets r.view c key m rec) :
      ∃ rec' : BatchRecord, rec'.row = rec.row ∧ Sets r.view c' key m rec' := by
    obtain ⟨o, ho, hm, hd⟩ := hs
    obtain heq | ⟨m', rec', fields, -, hp, hp'⟩ := hf.planned key
    · exact ⟨rec, rfl, o, heq.trans ho, hm, hd⟩
    · rw [ho] at hp
      obtain rfl := Option.some.inj hp
      obtain rfl : rec' = rec := Option.some.inj hd
      exact ⟨{ rec' with round := fields }, rfl, _, hp', hm, rfl⟩
  cases h with
  | same sound writes =>
    exact .same hf.sound (by rwa [hf.writes])
  | born sound ids absent writes round index =>
    obtain ⟨rec', hrow, hs⟩ := hround round
    refine .born hf.sound (by rwa [hrow]) absent (by rwa [hf.writes]) hs ?_
    obtain ⟨o, ho, hm, hd⟩ := index
    obtain heq | ⟨m', rec', fields, hkey, -⟩ := hf.planned (Keys.batchIndex _)
    · exact ⟨o, heq.trans ho, hm, hd⟩
    · exact absurd hkey.symm batch_ne_batchIndex
  | stepped sound looked writes round ids =>
    obtain ⟨rec', hrow, hs⟩ := hround round
    exact .stepped hf.sound looked (by rwa [hf.writes]) hs (by rwa [hrow])

section Plans

variable {r : Reads} {c c' : Cascade} {id key actor : String} {at_ : Int} {rec rec₀ : BatchRecord}
  {ev : BatchEvent}

theorem RoundsOf.beside (h : RoundsOf r c) (hb : Beside r.view c c') : RoundsOf r c' := by
  cases h with
  | same sound writes => exact .same hb.sound fun key hkey hw ↦ writes key hkey ((hb.writes key hkey).mp hw)
  | born sound ids absent writes round index =>
    exact .born hb.sound ids absent (fun key hkey ↦ (hb.writes key hkey).trans (writes key hkey))
      (hb.sets ofRounds_batch round) (hb.sets ofRounds_batchIndex index)
  | stepped sound looked writes round ids =>
    obtain ⟨-, -, ix, -, rfl⟩ := looked.index
    exact .stepped hb.sound looked (fun key hkey ↦ (hb.writes key hkey).trans (writes key hkey))
      (hb.sets ofRounds_batch round) ids

theorem exit_beside {kind : DeliveryEventKind} (h : Sound r.view c) :
    Ends (exit r id kind actor at_) c fun _ c' ↦ Beside r.view c c' :=
  (exit_ends h).imp fun _ _ hx ↦ hx.frame.beside not_ofRounds_memberKeys

theorem withdraw_beside {withdrawn : List (String × String)} (h : Sound r.view c) :
    Ends (withdraw r withdrawn actor at_) c fun _ c' ↦ Beside r.view c c' :=
  beside_forM h fun p c hs ↦ ends_bind ((exit_beside hs).imp fun _ c' hb ↦
    (namePrerequisite_frame hb.sound).imp fun _ _ hf ↦ hb.trans (hf.beside (by simp)))

theorem round_looks : Ends (round r id) {} fun a c ↦ Looks r.view {} c ∧
    ∀ key rec, a = some (key, rec) → Found r id key rec ∧ ∃ rec₀, Looked r id key rec₀ := by
  rw [round]
  refine ends_bind (batch_ends.imp fun a c₀ hbatch ↦ ?_)
  obtain ⟨hc, hl⟩ := hbatch
  subst hc
  obtain _ | ⟨key, rec₀⟩ := a
  · exact ends_pure ⟨.refl (sound_empty _), by simp⟩
  refine ends_bind ((get_looks (sound_empty r.view)).imp fun b c₁ hget ↦ ?_)
  obtain ⟨hlooks, hb, -⟩ := hget
  refine ends_pure ⟨hlooks, ?_⟩
  rintro key' rec hk
  obtain ⟨rec', hrec, hk⟩ := Option.map_eq_some_iff.mp hk
  obtain ⟨rfl, rfl⟩ := Prod.mk.inj hk
  refine ⟨⟨(hl key rec₀ rfl).index, ?_⟩, rec₀, hl key rec₀ rfl⟩
  rw [← rowOf_values, ← hrec, hb]
  rfl

/-- **A round's step is of the round that was looked up.** -/
theorem batchStep_rounds {stored : BatchRecord} (hl : Looked r id key rec₀)
    (hlooks : Looks r.view {} c)
    (hstored : (recordOf BatchRecord r.view key).getD stored = (recordOf BatchRecord r.view key).getD rec₀) :
    Ends (batchStep r key stored ev at_) c fun next c' ↦
      Put r.view c c' key next [] ∧ RoundsOf r c' ∧
        next.row.batchId = ((recordOf BatchRecord r.view key).getD rec₀).row.batchId ∧
        next.row.repo = ((recordOf BatchRecord r.view key).getD rec₀).row.repo := by
  refine (batchStep_ends hlooks.sound).imp fun next c' ⟨cur, hcur, happlied, hnext, hput⟩ ↦ ?_
  obtain ⟨hid, hrepo⟩ := batch_identity happlied
  have hrow : rowOf BatchRecord (c.planned r.view) key = recordOf BatchRecord r.view key := by
    rw [hlooks.planned]
    exact rowOf_values r.view key
  rw [hrow, hstored] at hcur
  subst hcur
  have hnextRow : next.row =
      (Batch.apply ((recordOf BatchRecord r.view key).getD rec₀).row ev).row := by rw [hnext]
  rw [← hnextRow] at hid hrepo
  have hsets := hput.sets
  rw [hlooks.planned, planned_empty, Option.map_map] at hsets
  refine ⟨hput, .stepped hput.frame.sound hl (fun k hk ↦ ⟨fun hw ↦ ?_, ?_⟩) hsets ⟨hrepo, hid⟩, hid, hrepo⟩
  · by_contra hne
    have hold := hput.frame.writes k (by simpa using hne) hw
    rw [hlooks.writes] at hold
    exact not_writes_empty hold
  · rintro rfl
    exact hput.writes

/-! ## The commands -/

/-- The members are admitted into the round. -/
def Admits (r : Reads) (c : Cascade) (round : String) (members : List (String × String)) : Prop :=
  ∀ m ∈ members, Admitted r.view c round m

theorem Admits.frame {keys : List String} {members : List (String × String)}
    (h : Admits r c id members) (hf : Frame r.view keys c c')
    (hk : ∀ b, Keys.delivery b ∉ keys ∧ Keys.lifecycle b ∉ keys) : Admits r c' id members := by
  intro m hm
  obtain ⟨hd, hl⟩ := hk m.1
  obtain ⟨⟨hwl, hrec⟩, hwd, hdel⟩ := h m hm
  refine ⟨⟨hf.kept _ hwl, ?_⟩, hf.kept _ hwd, ?_⟩
  · rw [rowOf, hf.planned _ hl]
    exact hrec
  · rw [rowOf, hf.planned _ hd]
    exact hdel

theorem not_mem_roundKeys {keys : List String} (hk : ∀ k ∈ keys, OfRounds k) (b : String) :
    Keys.delivery b ∉ keys ∧ Keys.lifecycle b ∉ keys :=
  ⟨fun h ↦ not_ofRounds_delivery (hk _ h), fun h ↦ not_ofRounds_lifecycle (hk _ h)⟩

theorem Admitting.beside {round row : BatchRow} {done : List (String × String)}
    (h : Admitting r.view round c done row c') : Beside r.view c c' := by
  refine h.frame.beside fun k hk ↦ ?_
  obtain ⟨m, -, hk⟩ := List.mem_flatMap.mp hk
  exact not_ofRounds_memberKeys k hk

theorem newRound_ends {repo : String} (h : Sound r.view c) :
    Ends (newRound r repo id) c fun a c' ↦ Looks r.view c c' ∧ ∀ key, a = some key →
      key = Keys.batch repo id ∧ c.planned r.view (Keys.batch repo id) = none ∧
        c.planned r.view (Keys.batchIndex id) = none := by
  refine ends_bind ((get_looks h).imp fun ix c₁ ⟨hl₁, _, hix⟩ ↦
    ends_bind ((get_looks hl₁.sound).imp fun st c₂ ⟨hl₂, _, hst⟩ ↦
      ends_pure ⟨hl₁.trans hl₂, fun key hkey ↦ ?_⟩))
  split_ifs at hkey with hnone
  simp only [Bool.and_eq_true, Bool.not_eq_true', Option.isSome_eq_false_iff,
    Option.isNone_iff_eq_none] at hnone
  have hround := hst hnone.2
  rw [hl₁.planned] at hround
  exact ⟨(Option.some.inj hkey).symm, hround, hix hnone.1⟩

/-- **A round is born.** -/
theorem putRound_ends {repo : String} (rec : BatchRecord)
    (hrec : rec.row.repo = repo ∧ rec.row.batchId = id)
    (hb : Beside r.view {} c)
    (habsent : Cascade.planned r.view {} (Keys.batch repo id) = none ∧
      Cascade.planned r.view {} (Keys.batchIndex id) = none) :
    Ends (putRound r (Keys.batch repo id) rec) c fun _ c' ↦
      RoundsOf r c' ∧ Frame r.view [Keys.batch repo id, Keys.batchIndex id] c c' := by
  obtain ⟨rfl, rfl⟩ := hrec
  have hview {key : String} (h : Cascade.planned r.view {} key = none) : r.view key = none := by
    rwa [planned_empty, Option.map_eq_none_iff] at h
  refine ends_bind ((put_put hb.sound).imp fun _ c₁ hp₁ ↦ (put_put hp₁.frame.sound).imp
    fun _ c₂ hp₂ ↦ ⟨?_, (hp₁.frame.mono (by simp)).trans (hp₂.frame.mono (by simp))⟩)
  have hround := hp₁.sets
  rw [hb.planned _ ofRounds_batch, habsent.1] at hround
  have hindex := hp₂.sets
  rw [hp₁.frame.planned _ (by simpa using batch_ne_batchIndex.symm), hb.planned _ ofRounds_batchIndex,
    habsent.2] at hindex
  refine .born hp₂.frame.sound ⟨rfl, rfl⟩ ⟨hview habsent.1, hview habsent.2⟩ (fun key hkey ↦ ⟨fun hw ↦ ?_, ?_⟩) ?_ hindex
  · by_contra hne
    rw [not_or] at hne
    have hw₁ := hp₁.frame.writes key (by simpa using hne.1) (hp₂.frame.writes key (by simpa using hne.2) hw)
    exact not_writes_empty ((hb.writes key hkey).mp hw₁)
  · rintro (rfl | rfl)
    · exact hp₂.frame.kept _ hp₁.writes
    · exact hp₂.writes
  · rw [Sets, hp₂.frame.planned _ (by simpa using batch_ne_batchIndex)]
    exact hround

theorem planCut_rounds {cut : Cut} :
    Ends (planCut r cut) {} fun _ c ↦ RoundsOf r c ∧ Admits r c cut.batchId cut.members := by
  refine ends_bind ((overCap_looks (sound_empty r.view)).imp fun _ c₁ hl₁ ↦
    ends_bind ((newRound_ends hl₁.sound).imp fun a c₂ ⟨hl₂, hnew⟩ ↦ ?_))
  cases a with
  | none => exact ends_throw
  | some key =>
    obtain ⟨rfl, habsent⟩ := hnew key rfl
    rw [hl₁.planned] at habsent
    refine ends_bind ((admitted_ends hl₂.sound).imp fun ds c₃ ⟨hl₃, hnodup, htips, hlen⟩ ↦ ?_)
    have hl := (hl₁.trans hl₂).trans hl₃
    have htips' : ∀ m ∈ cut.members, AtTip r.view c₃ m := fun m hm ↦ by
      rw [AtTip, hl₃.planned]
      exact htips m hm
    refine ends_bind ((planMembers_ends hl.sound hnodup htips' hlen).imp fun row c₄ ha ↦ ?_)
    refine (putRound_ends _ ⟨ha.row.2, ha.row.1⟩ (hl.beside.trans ha.beside) habsent).imp
      fun _ c₅ ⟨hr, hf⟩ ↦ ⟨hr, ?_⟩
    exact Admits.frame ha.members hf (not_mem_roundKeys (by simp [ofRounds_batch, ofRounds_batchIndex]))

theorem planStage_rounds {cut : Cut} : Ends (planStage r cut) {} fun _ c ↦ RoundsOf r c := by
  refine ends_bind ((overCap_looks (sound_empty r.view)).imp fun _ c₁ hl₁ ↦
    ends_bind ((newRound_ends hl₁.sound).imp fun a c₂ ⟨hl₂, hnew⟩ ↦ ?_))
  cases a with
  | none => exact ends_throw
  | some key =>
    obtain ⟨rfl, habsent⟩ := hnew key rfl
    rw [hl₁.planned] at habsent
    refine ends_bind ((admitRecords_ends hl₂.sound).imp fun _ c₃ ⟨hl₃, _, _⟩ ↦ ?_)
    have hput := putRound_ends ⟨.staged cut.batchId cut.repo cut.head cut.base (cut.parent.getD ""),
      membersOf cut.members, cut.at_, ∅⟩ ⟨rfl, rfl⟩ ((hl₁.trans hl₂).trans hl₃).beside habsent
    exact hput.imp fun _ _ h ↦ h.1

/-- What is put at a round that is there steps it. -/
theorem put_rounds (hl : Looked r id key rec₀) (hfound : recordOf BatchRecord r.view key = some rec)
    (hb : Beside r.view {} c) {next : BatchRecord}
    (hids : next.row.batchId = rec.row.batchId ∧ next.row.repo = rec.row.repo) :
    Ends (Cascade.put r.view key next []) c fun _ c' ↦ RoundsOf r c' ∧ Frame r.view [key] c c' := by
  obtain ⟨-, -, ix, -, rfl⟩ := hl.index
  refine (put_put hb.sound).imp fun _ c' hp ↦ ?_
  have hsets := hp.sets
  rw [hb.planned _ ofRounds_batch, planned_empty, Option.map_map] at hsets
  refine ⟨.stepped hp.frame.sound hl (fun k hk ↦ ⟨fun hw ↦ ?_, ?_⟩) hsets ?_, hp.frame⟩
  · by_contra hne
    exact not_writes_empty ((hb.writes k hk).mp (hp.frame.writes k (by simpa using hne) hw))
  · rintro rfl
    exact hp.writes
  · rw [hfound]
    exact hids.symm

theorem planStack_rounds {members : List (String × String)} :
    Ends (planStack r id members actor at_) {} fun _ c ↦ RoundsOf r c ∧
      ∃ key rec, Found r id key rec ∧ Admits r c rec.row.batchId members := by
  refine ends_bind (round_looks.imp fun a c₁ ⟨hl₁, hfound⟩ ↦ ?_)
  obtain _ | ⟨key, rec⟩ := a
  · exact ends_throw
  obtain ⟨hf, rec₀, hlooked⟩ := hfound key rec rfl
  refine ends_ite (fun _ ↦ ends_throw) fun _ ↦ ?_
  split
  · exact ends_throw
  refine ends_bind ((overCap_looks hl₁.sound).imp fun _ c₂ hl₂ ↦
    ends_bind ((admitted_ends hl₂.sound).imp fun ds c₃ ⟨hl₃, hnodup, htips, hlen⟩ ↦ ?_))
  have hl := (hl₁.trans hl₂).trans hl₃
  have htips' : ∀ m ∈ members, AtTip r.view c₃ m := fun m hm ↦ by
    rw [AtTip, hl₃.planned]
    exact htips m hm
  refine ends_bind ((planMembers_ends hl.sound hnodup htips' hlen).imp fun row c₄ ha ↦ ?_)
  refine (put_rounds hlooked hf.round (hl.beside.trans ha.beside) ha.row).imp fun _ c₅ ⟨hr, hframe⟩ ↦
    ⟨hr, key, rec, hf, ?_⟩
  obtain ⟨-, -, ix, -, rfl⟩ := hf.index
  exact Admits.frame ha.members hframe (not_mem_roundKeys (by simp [ofRounds_batch]))

theorem planPromote_rounds {head base : String} :
    Ends (planPromote r id head base actor at_) {} fun _ c ↦ RoundsOf r c ∧
      ∃ key rec, Found r id key rec ∧ Admits r c rec.row.batchId (pairs rec.members) := by
  refine ends_bind (round_looks.imp fun a c₁ ⟨hl₁, hfound⟩ ↦ ?_)
  obtain _ | ⟨key, rec⟩ := a
  · exact ends_throw
  obtain ⟨hf, rec₀, hlooked⟩ := hfound key rec rfl
  refine ends_ite (fun _ ↦ ends_throw) fun _ ↦ ?_
  refine ends_bind ((admitted_ends hl₁.sound).imp fun ds c₂ ⟨hl₂, hnodup, htips, hlen⟩ ↦ ?_)
  have hread : ∀ rec', (recordOf BatchRecord r.view key).getD rec' = rec := fun _ ↦ by rw [hf.round]; rfl
  refine ends_bind ((batchStep_rounds hlooked (hl₁.trans hl₂) (by rw [hread, hread])).imp
    fun next c₃ ⟨hput, _, hid, hrepo⟩ ↦ ?_)
  rw [hread] at hid hrepo
  obtain ⟨-, -, ix, -, rfl⟩ := hf.index
  have hnot (b : String) : Keys.delivery b ∉ [Keys.batch ix.repo id] ∧
      Keys.lifecycle b ∉ [Keys.batch ix.repo id] := not_mem_roundKeys (by simp [ofRounds_batch]) b
  have htips' : ∀ m ∈ pairs rec.members, AtTip r.view c₃ m := fun m hm ↦ by
    rw [AtTip, rowOf, hput.frame.planned _ (hnot m.1).2, hl₂.planned, ← rowOf]
    exact htips m hm
  refine ends_bind ((planMembers_ends hput.frame.sound hnodup htips' hlen).imp fun row c₄ ha ↦ ?_)
  refine (put_put ha.frame.sound).imp fun _ c₅ hp ↦ ⟨?_, _, rec, hf, ?_⟩
  · -- The round is written once more, under the metadata it was read with.
    obtain ⟨o, ho, hm, -⟩ := hput.sets
    have hsets := hp.sets
    rw [ha.beside.planned _ ofRounds_batch, ho, Option.map_some, Option.getD_some, hm,
      (hl₁.trans hl₂).planned, planned_empty, Option.map_map] at hsets
    refine .stepped hp.frame.sound hlooked (fun k hk ↦ ⟨fun hw ↦ ?_, ?_⟩) hsets ?_
    · by_contra hne
      have hw₄ := (ha.beside.writes k hk).mp (hp.frame.writes k (by simpa using hne) hw)
      have hw₂ := hput.frame.writes k (by simpa using hne) hw₄
      rw [(hl₁.trans hl₂).writes] at hw₂
      exact not_writes_empty hw₂
    · rintro rfl
      exact hp.writes
    · rw [hread]
      exact ⟨ha.row.2.trans hrepo, ha.row.1.trans hid⟩
  · rw [← hid]
    exact Admits.frame ha.members hp.frame hnot

/-- What comes after the step of a round is of its members. -/
theorem batchStep_then {α : Type} {next : BatchRecord → Plan α} (hl : Looked r id key rec₀)
    (hlooks : Looks r.view {} c) {stored : BatchRecord}
    (hstored : (recordOf BatchRecord r.view key).getD stored = (recordOf BatchRecord r.view key).getD rec₀)
    (hnext : ∀ rec' c', Sound r.view c' → Ends (next rec') c' fun _ c'' ↦ Beside r.view c' c'') :
    Ends (batchStep r key stored ev at_ >>= next) c fun _ c' ↦ RoundsOf r c' :=
  ends_bind ((batchStep_rounds hl hlooks hstored).imp fun rec' c' ⟨hput, hr, _, _⟩ ↦
    (hnext rec' c' hput.frame.sound).imp fun _ _ hb ↦ hr.beside hb)

theorem planSettle_rounds {ejected requeued : List String} :
    Ends (planSettle r id ev ejected requeued at_) {} fun _ c ↦ RoundsOf r c := by
  refine ends_bind (round_looks.imp fun a c₁ ⟨hl₁, hfound⟩ ↦ ?_)
  obtain _ | ⟨key, rec⟩ := a
  · exact ends_throw
  obtain ⟨hf, rec₀, hlooked⟩ := hfound key rec rfl
  refine batchStep_then hlooked hl₁ (by rw [hf.round]; rfl) fun _ c₂ hs₂ ↦ ?_
  refine ends_bind ((stackedDependents_ends hs₂).imp fun deps c₃ ⟨hl₃, _⟩ ↦ ?_)
  refine ends_bind ((beside_forM hl₃.sound fun e c h ↦ exit_beside h).imp fun _ c₄ hb₄ ↦
    ends_bind ((withdraw_beside hb₄.sound).imp fun _ c₅ hb₅ ↦ ?_))
  refine (beside_forM hb₅.sound fun m c h ↦ ?_).imp fun _ c₆ hb₆ ↦
    ((hl₃.beside.trans hb₄).trans hb₅).trans hb₆
  cases rec.members.find? (·.beadId = m) with
  | none => exact ends_pure (.refl h)
  | some member => exact exit_beside h

theorem planAbandon_rounds : Ends (planAbandon r id ev at_) {} fun _ c ↦ RoundsOf r c := by
  refine ends_bind (round_looks.imp fun a c₁ ⟨hl₁, hfound⟩ ↦ ?_)
  obtain _ | ⟨key, rec⟩ := a
  · exact ends_throw
  obtain ⟨hf, rec₀, hlooked⟩ := hfound key rec rfl
  exact batchStep_then hlooked hl₁ (by rw [hf.round]; rfl) fun _ c₂ hs₂ ↦
    beside_forM hs₂ fun m c h ↦ exit_beside h

theorem planEject_rounds {bead : String} :
    Ends (planEject r id bead ev at_) {} fun _ c ↦ RoundsOf r c := by
  refine ends_bind (round_looks.imp fun a c₁ ⟨hl₁, hfound⟩ ↦ ?_)
  obtain _ | ⟨key, rec⟩ := a
  · exact ends_throw
  obtain ⟨hf, rec₀, hlooked⟩ := hfound key rec rfl
  dsimp only
  split
  · exact ends_throw
  refine batchStep_then hlooked hl₁ (by rw [hf.round]; rfl) fun _ c₂ hs₂ ↦ ?_
  exact ends_bind ((stackedDependents_ends hs₂).imp fun deps c₃ ⟨hl₃, _⟩ ↦
    ends_bind ((exit_beside hl₃.sound).imp fun _ c₄ hb₄ ↦
      (withdraw_beside hb₄.sound).imp fun _ c₅ hb₅ ↦ (hl₃.beside.trans hb₄).trans hb₅))

theorem landMember_beside {m : Member} {sha : String} (h : Sound r.view c) :
    Ends (landMember r id sha actor at_ m) c fun _ c' ↦ Beside r.view c c' := by
  refine ends_bind ((get_looks h).imp fun a c₁ ⟨hl₁, _, _⟩ ↦ ?_)
  cases a with
  | none => exact ends_pure hl₁.beside
  | some d =>
    refine ends_ite (fun _ ↦ ends_pure hl₁.beside) fun _ ↦
      ends_bind ((deliveryStep_ends hl₁.sound).imp fun _ c₂ hdelivery ↦ ?_)
    have hb₂ : Beside r.view c₁ c₂ := by
      obtain ⟨-, -, rfl⟩ | ⟨-, -, hput⟩ := hdelivery
      · exact .refl hl₁.sound
      · exact hput.frame.beside (by simp [not_ofRounds_delivery])
    refine ends_bind ((beadStep_ends hb₂.sound).imp fun _ c₃ hbead ↦ ends_pure ?_)
    obtain ⟨-, hf, -⟩ | ⟨-, _, -, -, hf, -⟩ := hbead
    · exact (hl₁.beside.trans hb₂).trans (hf.beside (by simp))
    · exact (hl₁.beside.trans hb₂).trans
        (hf.beside (by simp [not_ofRounds_lifecycle, not_ofRounds_gate]))

theorem planLand_rounds : Ends (planLand r id ev at_) {} fun _ c ↦ RoundsOf r c := by
  rw [planLand]
  split
  · refine ends_bind (batch_ends.imp fun a c₀ hbatch ↦ ?_)
    obtain ⟨hc, hl⟩ := hbatch
    subst hc
    obtain _ | ⟨key, rec⟩ := a
    · exact ends_throw
    exact batchStep_then (hl key rec rfl) (.refl (sound_empty _)) rfl fun _ c₂ hs₂ ↦
      beside_forM hs₂ fun m c h ↦ landMember_beside h
  · exact ends_throw

theorem planBatchEvent_rounds : Ends (planBatchEvent r id ev at_) {} fun _ c ↦ RoundsOf r c := by
  refine ends_bind (batch_ends.imp fun a c₀ ⟨hc, hl⟩ ↦ ?_)
  subst hc
  obtain _ | ⟨key, rec⟩ := a
  · exact ends_throw
  refine batchStep_then (hl key rec rfl) (.refl (sound_empty _)) rfl fun _ c₂ hs₂ ↦ ?_
  split
  · exact (put_put hs₂).imp fun _ c₃ hp ↦ hp.frame.beside (by simp [not_ofRounds_mending])
  · exact ends_pure (.refl hs₂)

theorem planDeliveryEvent_rounds {ev : DeliveryEvent} :
    Ends (planDeliveryEvent r id ev at_) {} fun _ c ↦ RoundsOf r c := by
  refine ends_bind ((get_looks (sound_empty r.view)).imp fun a c₁ ⟨hl₁, _, _⟩ ↦ ?_)
  cases a with
  | none => exact ends_throw
  | some cur =>
    refine ends_ite (fun _ ↦ ends_throw) fun _ ↦ ?_
    refine ends_bind ((step_frame hl₁.sound).imp fun _ c₂ hf₂ ↦
      (put_put hf₂.sound).imp fun _ c₃ hp ↦ .same hp.frame.sound fun key hkey hw ↦ ?_)
    have hne : key ≠ Keys.delivery id := by
      rintro rfl
      exact not_ofRounds_delivery hkey
    have hw₂ := hp.frame.writes key (by simpa using hne) hw
    have hw₁ := hf₂.writes key (by simp) hw₂
    rw [hl₁.writes] at hw₁
    exact not_writes_empty hw₁

/-- **What a command does to the rounds.** -/
theorem command_rounds (command : Command) :
    Ends (command.plan r) {} fun _ c ↦ RoundsOf r c := by
  cases command with
  | cut cut => exact planCut_rounds.imp fun _ _ h ↦ h.1
  | stage cut => exact planStage_rounds
  | stack => exact planStack_rounds.imp fun _ _ h ↦ h.1
  | promote => exact planPromote_rounds.imp fun _ _ h ↦ h.1
  | settle => exact planSettle_rounds
  | abandon => exact planAbandon_rounds
  | eject => exact planEject_rounds
  | land => exact planLand_rounds
  | batchEvent => exact planBatchEvent_rounds
  | deliveryEvent => exact planDeliveryEvent_rounds

end Plans

end Spira.Control
