import Spira.Control.RoundKeys

/-!
# Single delivery

Every round has an index of its own that names its repo, and neither is ever lost: a round is born
with its index where neither was there, only a step of it is written after, and no collector takes
either (`orderly_run`).  A delivery names one round by its id, so a bead is BATCHED in at most
one.  What a cut, a stack or a promotion admits it has written, so it holds of the revision it is
committed at; and a transaction whose compares do not hold writes its audit alone.
-/

set_option autoImplicit false

namespace Spira.Control

open Spira.Bead Spira.Batch Spira.Delivery Store Store.Contract Stopping Cascade
open KeyPrefix (starts)

/-! ## Rounds and their indices -/

/-- Every round is under its key and has its index, and every index has its round. -/
structure Orderly (snap : View) : Prop where
  rounds : ∀ key i, starts Keys.batchesPrefix key → snap key = some i →
    ∃ rec : BatchRecord, decode i.value = some rec ∧ i.value.metadata = {} ∧
      key = Keys.batch rec.row.repo rec.row.batchId ∧
      recordOf BatchIndex snap (Keys.batchIndex rec.row.batchId) = some ⟨rec.row.repo⟩
  indices : ∀ key j, starts Keys.batchIdsPrefix key → snap key = some j →
    ∃ id, ∃ ix : BatchIndex, key = Keys.batchIndex id ∧ decode j.value = some ix ∧
      j.value.metadata = { ownerReferences := [Keys.batch ix.repo id] } ∧
      ∃ rec, recordOf BatchRecord snap (Keys.batch ix.repo id) = some rec ∧
        rec.row.repo = ix.repo ∧ rec.row.batchId = id

/-- A round that is there is there after, under the same id and of the same repo. -/
def Lasting (snap after : View) : Prop :=
  ∀ key rec, starts Keys.batchesPrefix key → recordOf BatchRecord snap key = some rec →
    ∃ rec', recordOf BatchRecord after key = some rec' ∧ rec'.row.repo = rec.row.repo ∧
      rec'.row.batchId = rec.row.batchId

section Orderly

variable {r : Reads} {c : Cascade} {snap after : View} {id key : String}

theorem Lasting.trans {snap' : View} (h : Lasting snap after) (h' : Lasting after snap') :
    Lasting snap snap' := by
  intro key rec hkey hrec
  obtain ⟨rec₁, h₁, hrepo, hid⟩ := h key rec hkey hrec
  obtain ⟨rec₂, h₂, hrepo', hid'⟩ := h' key rec₁ hkey h₁
  exact ⟨rec₂, h₂, hrepo'.trans hrepo, hid'.trans hid⟩

theorem Lasting.refl (snap : View) : Lasting snap snap := fun _ rec _ hrec ↦ ⟨rec, hrec, rfl, rfl⟩

/-- Where no key of the rounds is changed, all is as it was. -/
theorem Orderly.same (h : Orderly snap) (hs : ∀ key, OfRounds key → after key = snap key) :
    Orderly after ∧ Lasting snap after := by
  have hrec {T : Type} [Stored T] {key : String} (hkey : OfRounds key) :
      recordOf T after key = recordOf T snap key := by rw [recordOf, hs key hkey, recordOf]
  refine ⟨⟨fun key i hkey hi ↦ ?_, fun key j hkey hj ↦ ?_⟩, fun key rec hkey h ↦ ?_⟩
  · rw [hs key (.inl hkey)] at hi
    obtain ⟨rec, hdec, hm, hat, hix⟩ := h.rounds key i hkey hi
    exact ⟨rec, hdec, hm, hat, (hrec ofRounds_batchIndex).trans hix⟩
  · rw [hs key (.inr hkey)] at hj
    obtain ⟨id, ix, hat, hdec, hm, rec, hround, hids⟩ := h.indices key j hkey hj
    exact ⟨id, ix, hat, hdec, hm, rec, (hrec ofRounds_batch).trans hround, hids⟩
  · exact ⟨rec, (hrec (.inl hkey)).trans h, rfl, rfl⟩

/-- What a cascade sets is there after, as the key was not marked. -/
theorem Cascade.Taken.sets {view : View} {T : Type} [Stored T] {m : Meta} {v : T}
    (ht : Taken view snap after c) (hs : Sets view c key m v) (hkey : OfRounds key)
    (hw : c.Writes key) (hmark : (snap key).bind Item.mark = none) :
    ∃ i, after key = some i ∧ i.value.metadata = m ∧ decode i.value = some v := by
  obtain ⟨o, ho, hm, hv⟩ := hs
  obtain ⟨o', i, ho', hi, hmeta, hdec⟩ := ht.written key hkey.apart hw
  rw [ho] at ho'
  obtain rfl := Option.some.inj ho'
  rw [hmark] at hmeta
  exact ⟨i, hi, hmeta.trans hm, (hdec T).trans hv⟩

/-- **A cascade keeps the rounds in order**, where what it has looked up is there still. -/
theorem Orderly.taken (h : Orderly snap) (hr : RoundsOf r c) (ht : Taken r.view snap after c)
    (hlooked : ∀ id key rec₀, Looked r id key rec₀ → ∃ rec, recordOf BatchRecord snap key = some rec) :
    Orderly after ∧ Lasting snap after := by
  cases hr with
  | same _ writes =>
    exact h.same fun key hkey ↦ ht.unwritten key hkey.apart (writes key hkey)
  | @born repo id rec _ ids absent writes round index =>
    have hwr : c.Writes (Keys.batch repo id) := (writes _ ofRounds_batch).mpr (.inl rfl)
    have hwi : c.Writes (Keys.batchIndex id) := (writes _ ofRounds_batchIndex).mpr (.inr rfl)
    have hnor : snap (Keys.batch repo id) = none := (ht.compared _ hwr).trans absent.1
    have hnoi : snap (Keys.batchIndex id) = none := (ht.compared _ hwi).trans absent.2
    obtain ⟨i, hi, hmi, hdi⟩ := ht.sets round ofRounds_batch hwr (by rw [hnor]; rfl)
    obtain ⟨j, hj, hmj, hdj⟩ := ht.sets index ofRounds_batchIndex hwi (by rw [hnoi]; rfl)
    have hold {key : String} (hkey : OfRounds key) (hr : key ≠ Keys.batch repo id)
        (hx : key ≠ Keys.batchIndex id) : after key = snap key :=
      ht.unwritten key hkey.apart fun hw ↦ ((writes key hkey).mp hw).elim hr hx
    -- Nothing that was there is one of the two.
    have hthere {T : Type} [Stored T] {key : String} {t : T} (hkey : OfRounds key)
        (ht : recordOf T snap key = some t) : recordOf T after key = some t := by
      obtain ⟨x, hx, hd⟩ := recordOf_some.mp ht
      refine recordOf_some.mpr ⟨x, (hold hkey ?_ ?_).trans hx, hd⟩
      · rintro rfl
        rw [hnor] at hx
        cases hx
      · rintro rfl
        rw [hnoi] at hx
        cases hx
    refine ⟨⟨fun key x hkey hx ↦ ?_, fun key x hkey hx ↦ ?_⟩, fun key rec' hkey hrec ↦
      ⟨rec', hthere (.inl hkey) hrec, rfl, rfl⟩⟩
    · by_cases hk : key = Keys.batch repo id
      · subst hk
        rw [hi] at hx
        obtain rfl := Option.some.inj hx
        refine ⟨rec, hdi, hmi, by rw [ids.1, ids.2], recordOf_some.mpr ⟨j, ?_, ?_⟩⟩
        · rw [ids.2, hj]
        · rw [ids.1, hdj]
      · have hne : key ≠ Keys.batchIndex id :=
          Keys.ne_of_starts hkey (Keys.starts_batchIndex id) (by decide) (by decide)
        rw [hold (.inl hkey) hk hne] at hx
        obtain ⟨rec', hdec, hm, hat, hix⟩ := h.rounds key x hkey hx
        exact ⟨rec', hdec, hm, hat, hthere ofRounds_batchIndex hix⟩
    · by_cases hk : key = Keys.batchIndex id
      · subst hk
        rw [hj] at hx
        obtain rfl := Option.some.inj hx
        exact ⟨id, ⟨repo⟩, rfl, hdj, hmj, rec, recordOf_some.mpr ⟨i, hi, hdi⟩, ids⟩
      · have hne : key ≠ Keys.batch repo id :=
          Keys.ne_of_starts hkey (Keys.starts_batch repo id) (by decide) (by decide)
        rw [hold (.inr hkey) hne hk] at hx
        obtain ⟨id', ix, hat, hdec, hm, rec', hround, hids⟩ := h.indices key x hkey hx
        exact ⟨id', ix, hat, hdec, hm, rec', hthere ofRounds_batch hround, hids⟩
  | @stepped id key rec₀ rec _ looked writes round ids =>
    obtain ⟨-, -, ix₀, -, hkeyEq⟩ := looked.index
    have hkey : OfRounds key := hkeyEq ▸ ofRounds_batch
    have hbatches : starts Keys.batchesPrefix key := hkeyEq ▸ Keys.starts_batch _ _
    have hw : c.Writes key := (writes key hkey).mpr rfl
    -- The round is there as it was read, and in its order.
    obtain ⟨old, hold⟩ := hlooked id key rec₀ looked
    obtain ⟨i, hi, hdi⟩ := recordOf_some.mp hold
    obtain ⟨old', hdo, hmi, hat, hix⟩ := h.rounds key i hbatches hi
    rw [hdi] at hdo
    obtain rfl := Option.some.inj hdo
    have hview : r.view key = some i := (ht.compared key hw).symm.trans hi
    have hread : recordOf BatchRecord r.view key = some old := recordOf_some.mpr ⟨i, hview, hdi⟩
    rw [hread, Option.getD_some] at ids
    rw [hview, Option.map_some, Option.getD_some, hmi] at round
    have hmark : (snap key).bind Item.mark = none := by
      rw [hi, Option.bind_some, Item.mark, hmi]
    obtain ⟨i', hi', hmi', hdi'⟩ := ht.sets round hkey hw hmark
    have hsame {k : String} (hk : OfRounds k) (hne : k ≠ key) : after k = snap k :=
      ht.unwritten k hk.apart fun hw ↦ hne ((writes k hk).mp hw)
    have hindex {id : String} : after (Keys.batchIndex id) = snap (Keys.batchIndex id) :=
      hsame ofRounds_batchIndex (Keys.ne_of_starts (Keys.starts_batchIndex id) hbatches
        (by decide) (by decide))
    have hlasts : Lasting snap after := by
      intro k rec' hk hrec'
      by_cases hkk : k = key
      · subst hkk
        rw [hold] at hrec'
        obtain rfl := Option.some.inj hrec'
        exact ⟨rec, recordOf_some.mpr ⟨i', hi', hdi'⟩, ids⟩
      · exact ⟨rec', by rwa [recordOf, hsame (.inl hk) hkk, ← recordOf], rfl, rfl⟩
    refine ⟨⟨fun k x hk hx ↦ ?_, fun k x hk hx ↦ ?_⟩, hlasts⟩
    · by_cases hkk : k = key
      · subst hkk
        rw [hi'] at hx
        obtain rfl := Option.some.inj hx
        refine ⟨rec, hdi', hmi', by rw [ids.1, ids.2]; exact hat, ?_⟩
        rw [recordOf, hindex, ids.2, ids.1]
        exact hix
      · rw [hsame (.inl hk) hkk] at hx
        obtain ⟨rec', hdec, hm, hat, hix⟩ := h.rounds k x hk hx
        refine ⟨rec', hdec, hm, hat, ?_⟩
        rw [recordOf, hindex]
        exact hix
    · have hne : k ≠ key := Keys.ne_of_starts hk hbatches (by decide) (by decide)
      rw [hsame (.inr hk) hne] at hx
      obtain ⟨id', ix, hat, hdec, hm, rec', hround, hrepo, hid⟩ := h.indices k x hk hx
      obtain ⟨rec'', hround', hrepo', hid'⟩ := hlasts _ rec' (Keys.starts_batch _ _) hround
      exact ⟨id', ix, hat, hdec, hm, rec'', hround', hrepo'.trans hrepo, hid'.trans hid⟩

/-! ## What takes no round away -/

/-- No collector takes a round or an index: a round has no owners, and an index has its round. -/
theorem Orderly.not_collectable (h : Orderly snap) (hkey : OfRounds key) {i : Item Value}
    (hi : snap key = some i) (kind : CollectKind) : ¬ Collectable snap i kind := by
  obtain hkey | hkey := hkey
  · obtain ⟨rec, -, hm, -⟩ := h.rounds key i hkey hi
    cases kind <;> simp [Collectable, Item.mark, hm]
  · obtain ⟨id, ix, -, -, hm, rec, hround, -⟩ := h.indices key i hkey hi
    obtain ⟨x, hx, -⟩ := recordOf_some.mp hround
    cases kind <;> simp [Collectable, Item.mark, hm, hx]

theorem ttlMs_ofRounds (hkey : OfRounds key) (v : Object Value) : ttlMs key v = none :=
  hkey.elim (ttlMs_of_starts · (by decide) v) (ttlMs_of_starts · (by decide) v)

/-- Deletes of what is not of the rounds leave the rounds. -/
theorem Effect.spares {main : ℕ} {keys : List String} (he : Effect snap after main (keys.map .delete))
    (hno : ∀ k ∈ keys, OfRounds k → snap k = none) (hkey : OfRounds key) : after key = snap key := by
  by_cases hmem : key ∈ keys
  · obtain ⟨s, sub, ⟨p, hp, -⟩, -⟩ | ⟨-, hs, ha⟩ :=
      he.resolved (.delete key) (List.mem_map_of_mem hmem) hkey.apart.1
    · rw [hno key hmem hkey] at hp
      cases hp
    · change after key = none at ha
      change snap key = none at hs
      rw [ha, hs]
  · refine he.untouched key hkey.apart.1 fun o ho hk ↦ hmem ?_
    obtain ⟨k, hk', rfl⟩ := List.mem_map.mp ho
    exact hk ▸ hk'

theorem OnBead.spares_rounds {call : Call Value} (h : OnBead id call)
    (hkey : key ∈ Call.writes call) : ¬ OfRounds key := by
  obtain hb | hh := h key hkey
  · simp only [beadKeys, List.mem_cons, List.not_mem_nil, or_false] at hb
    obtain rfl | rfl | rfl | rfl := hb
    · exact not_ofRounds_lifecycle
    · exact not_ofRounds_gate
    · exact not_ofRounds (Keys.starts_readiness id) (by decide)
    · exact not_ofRounds (Keys.starts_claimLock id) (by decide)
  · exact not_ofRounds hh (by decide)

theorem not_ofRounds_of_kept (h : kept key = false) : ¬ OfRounds key := by
  simp only [kept, List.any_eq_false, List.mem_cons, List.not_mem_nil, or_false] at h
  rintro (hb | hb)
  · exact h Keys.batchesPrefix (by simp) hb
  · exact h Keys.batchIdsPrefix (by simp) hb

end Orderly

/-! ## In a run -/

section Run

variable {floor : ℕ} {cfg : Config Value} {fuel : ℕ} {turns : List (Turn Env ℕ (Call Value))}
  {k : Committed Value}

/-- **Every commit keeps the rounds in order.** -/
theorem ControlRun.orderly_commit (h : ControlRun floor cfg fuel turns)
    (hk : .committed k ∈ (worldAt cfg fuel turns).trace)
    (hpast : ∀ m ≤ k.head, Orderly ((worldAt cfg fuel turns).itemAt m) ∧
      Lasting ((worldAt cfg fuel turns).itemAt m) ((worldAt cfg fuel turns).itemAt k.head)) :
    Orderly ((worldAt cfg fuel turns).itemAt (k.head + 1)) ∧
      Lasting ((worldAt cfg fuel turns).itemAt k.head) ((worldAt cfg fuel turns).itemAt (k.head + 1)) := by
  have ho := (hpast k.head le_rfl).1
  obtain ⟨pre, ops, -, hacts, he⟩ := runs_effect turns hk
  -- A call that may write none of the rounds leaves them.
  have hspare {call : Call Value} {J : String → Bool → Prop}
      (hc : Chosen ((worldAt cfg fuel turns).itemAt k.head) J k.ok ops call)
      (hno : ∀ key ∈ Call.writes call, ¬ OfRounds key) :
      Orderly ((worldAt cfg fuel turns).itemAt (k.head + 1)) ∧
        Lasting ((worldAt cfg fuel turns).itemAt k.head) ((worldAt cfg fuel turns).itemAt (k.head + 1)) := by
    refine ho.same fun key hkey ↦ he.untouched key hkey.apart.1 fun o hmem hk ↦ ?_
    exact hno _ (Chosen.writes hc o hmem) (hk ▸ hkey)
  cases ha : k.author with
  | expire =>
    rw [ha] at hacts
    obtain ⟨keys, rfl, hkeys⟩ := hacts
    refine ho.same fun key hkey ↦ Effect.spares he (fun x hx hof ↦ ?_) hkey
    by_contra hsome
    obtain ⟨i, hi⟩ := Option.ne_none_iff_exists'.mp hsome
    have hexpires := hkeys x hx i hi
    rw [ttlMs_ofRounds hof] at hexpires
    cases hexpires
  | collect kind =>
    rw [ha] at hacts
    obtain ⟨keys, rfl, hkeys⟩ := hacts
    refine ho.same fun key hkey ↦ Effect.spares he (fun x hx hof ↦ ?_) hkey
    obtain ⟨i, hi, hcollectable⟩ := hkeys x hx
    exact absurd hcollectable (ho.not_collectable hof hi kind)
  | call call =>
    rw [ha] at hacts
    obtain ⟨w, hg, hle, hissued⟩ := h.issued hk ha
    obtain ⟨i, hreads, hcall⟩ | ⟨id, hon⟩ | hother := hissued.onBead
    · rw [Issue.call] at hcall
      split at hcall
      · rename_i c hc
        obtain rfl := Option.some.inj hcall
        obtain ⟨c₀, hr₀, hfields⟩ := Issue.cascade_ends hc (command_rounds i.command)
          fun _ hr ↦ hr.sound
        have hr : RoundsOf i.reads c := by
          obtain rfl | hf := hfields
          · exact hr₀
          · exact hr₀.fielded hf
        cases hok : k.ok with
        | false =>
          rw [hok] at hacts
          exact ho.same fun key hkey ↦ untaken_of_effect hacts he hkey.apart
        | true =>
          rw [hok] at hacts
          have ht : Taken i.reads.view ((worldAt cfg fuel turns).itemAt k.head)
              ((worldAt cfg fuel turns).itemAt (k.head + 1)) c := by
            refine taken_of_effect hr.sound (fun key hrev ↦ ?_) hacts he
            obtain ⟨at_, -, hat⟩ := View.Of.upTo hreads.view hg hle key
            rw [hat] at hrev ⊢
            exact itemAt_eq_of_modRev hrev
          refine ho.taken hr ht fun id key rec₀ hlooked ↦ ?_
          -- What was looked up was there at some revision before, so it is there still.
          obtain ⟨-, -, ix, -, hkey⟩ := hlooked.index
          obtain ⟨x, hx, hd⟩ := hlooked.round
          obtain ⟨at_, hle', hat⟩ := View.Of.upTo hreads.before hg hle key
          obtain ⟨rec, hrec, -⟩ := (hpast at_ hle').2 key rec₀ (hkey ▸ Keys.starts_batch _ _)
            (recordOf_some.mpr ⟨x, hat.symm.trans hx, hd⟩)
          exact ⟨rec, hrec⟩
      · rename_i audit _
        obtain rfl := Option.some.inj hcall
        have hon : OnBead "" (auditedTxn {} [audit] [] i.req "refuse" i.plannedAt) :=
          auditedTxn_onBead (by simp)
        have hchosen : Chosen ((worldAt cfg fuel turns).itemAt k.head) _ k.ok ops
            (auditedTxn {} [audit] [] i.req "refuse" i.plannedAt) := hacts
        exact hspare hchosen fun key hkey ↦ hon.spares_rounds hkey
      · cases hcall
    · exact hspare hacts fun key hkey ↦ hon.spares_rounds hkey
    · exact hspare hacts fun key hkey ↦ not_ofRounds_of_kept (hother key hkey)

/-- **At every revision the rounds are in order**, and every earlier round is there. -/
theorem orderly_run (h : ControlRun floor cfg fuel turns) (n : ℕ) :
    ∀ m ≤ n, Orderly ((worldAt cfg fuel turns).itemAt m) ∧
      Lasting ((worldAt cfg fuel turns).itemAt m) ((worldAt cfg fuel turns).itemAt n) := by
  have hreachable : Reachable (worldAt cfg fuel turns) := (runs_keep turns).1
  induction n with
  | zero =>
    intro m hm
    obtain rfl := Nat.le_zero.mp hm
    have hnone (key : String) : (worldAt cfg fuel turns).itemAt 0 key = none := itemAt_zero
    refine ⟨⟨fun key i _ hi ↦ ?_, fun key j _ hj ↦ ?_⟩, .refl _⟩
    · rw [hnone] at hi
      cases hi
    · rw [hnone] at hj
      cases hj
  | succ n ih =>
    have hstep : Orderly ((worldAt cfg fuel turns).itemAt (n + 1)) ∧
        Lasting ((worldAt cfg fuel turns).itemAt n) ((worldAt cfg fuel turns).itemAt (n + 1)) := by
      by_cases hn : ∃ c, .committed c ∈ (worldAt cfg fuel turns).trace ∧ c.head = n
      · obtain ⟨k, hk, rfl⟩ := hn
        exact h.orderly_commit hk ih
      · rw [hreachable.itemAt_unused fun c hc hh ↦ hn ⟨c, hc, hh⟩]
        exact ⟨(ih n le_rfl).1, .refl _⟩
    intro m hm
    obtain hm | rfl := Nat.le_succ_iff.mp hm
    · exact ⟨(ih m hm).1, (ih m hm).2.trans hstep.2⟩
    · exact ⟨hstep.1, .refl _⟩

/-! ## The law -/

/-- The command brings the member `m` into `round`. -/
inductive Brings (r : Reads) : Command → String → String × String → Prop
  | cut {cut : Cut} {m : String × String} (hm : m ∈ cut.members) : Brings r (.cut cut) cut.batchId m
  | stack {id actor : String} {members : List (String × String)} {at_ : Int} {m : String × String}
      (hm : m ∈ members) : Brings r (.stack id members actor at_) id m
  | promote {id head base actor key : String} {at_ : Int} {rec : BatchRecord} {m : String × String}
      (hf : Found r id key rec) (hm : m ∈ pairs rec.members) :
      Brings r (.promote id head base actor at_) id m

/-- The bead is IN_DELIVERY at the tip, and its delivery BATCHED in the round. -/
def InRound (snap : View) (round : String) (m : String × String) : Prop :=
  (∃ rec, recordOf LifecycleRecord snap (Keys.lifecycle m.1) = some rec ∧
    rec.row.state = .inDelivery ∧ rec.row.tip = some m.2) ∧ StillIn snap round m.1

variable (cfg fuel turns) in
structure SingleDelivery : Prop where
  /-- At every revision a bead is BATCHED in at most one round. -/
  once : ∀ n id key key' rec rec', starts Keys.batchesPrefix key → starts Keys.batchesPrefix key' →
    recordOf BatchRecord ((worldAt cfg fuel turns).itemAt n) key = some rec →
    recordOf BatchRecord ((worldAt cfg fuel turns).itemAt n) key' = some rec' →
    StillIn ((worldAt cfg fuel turns).itemAt n) rec.row.batchId id →
    StillIn ((worldAt cfg fuel turns).itemAt n) rec'.row.batchId id → key = key'
  /-- What a commit brings in is in the round from its revision on. -/
  admitted : ∀ i c k round m, Commits cfg fuel turns i c k → Brings i.reads i.command round m →
    InRound ((worldAt cfg fuel turns).itemAt (k.head + 1)) round m
  /-- A command whose compares do not hold, as a key that it writes is not as it was read, leaves every
  record. -/
  lost : ∀ (i : Issue) call k, i.reads.Of (worldAt cfg fuel turns) → i.call = some call →
    k.author = .call call → .committed k ∈ (worldAt cfg fuel turns).trace →
    (k.ok = false ∨ ∃ c key, i.cascade = .ok c ∧ c.Writes key ∧
      (worldAt cfg fuel turns).itemAt k.head key ≠ i.reads.view key) →
    ∀ key, Apart key →
      (worldAt cfg fuel turns).itemAt (k.head + 1) key = (worldAt cfg fuel turns).itemAt k.head key

theorem Orderly.once {snap : View} (h : Orderly snap) {id key key' : String} {rec rec' : BatchRecord}
    (hkey : starts Keys.batchesPrefix key) (hkey' : starts Keys.batchesPrefix key')
    (hrec : recordOf BatchRecord snap key = some rec)
    (hrec' : recordOf BatchRecord snap key' = some rec') (hin : StillIn snap rec.row.batchId id)
    (hin' : StillIn snap rec'.row.batchId id) : key = key' := by
  -- The delivery names one round, whose index names one repo.
  obtain ⟨d, hd, hstill⟩ := hin
  obtain ⟨d', hd', hstill'⟩ := hin'
  rw [hd] at hd'
  obtain rfl := Option.some.inj hd'
  have hid : rec.row.batchId = rec'.row.batchId :=
    Option.some.inj ((stillInBatch_iff.mp hstill).2.symm.trans (stillInBatch_iff.mp hstill').2)
  obtain ⟨i, hi, hdec⟩ := recordOf_some.mp hrec
  obtain ⟨i', hi', hdec'⟩ := recordOf_some.mp hrec'
  obtain ⟨r, hr, -, hat, hix⟩ := h.rounds key i hkey hi
  obtain ⟨r', hr', -, hat', hix'⟩ := h.rounds key' i' hkey' hi'
  rw [hdec] at hr
  rw [hdec'] at hr'
  obtain rfl := Option.some.inj hr
  obtain rfl := Option.some.inj hr'
  rw [hid, hix'] at hix
  rw [hat, hat', hid, BatchIndex.mk.inj (Option.some.inj hix)]

/-- **A round that is found is the one of the id it was looked for by.** -/
theorem ControlRun.found_id (h : ControlRun floor cfg fuel turns) {r : Reads} {id key : String}
    {rec : BatchRecord} (hr : r.Of (worldAt cfg fuel turns)) (hf : Found r id key rec) :
    rec.row.batchId = id := by
  obtain ⟨⟨x, hx, ix, hdix, rfl⟩, hround⟩ := hf
  obtain ⟨m, hm⟩ := hr.before (Keys.batchIndex id)
  obtain ⟨n, hn⟩ := hr.view (Keys.batch ix.repo id)
  -- The index names a round of the id at its revision, and the round read at another is the same one.
  obtain ⟨id', ix', hat, hdix', -, rec₁, hrec₁, hrepo₁, hid₁⟩ := (orderly_run h m m le_rfl).1.indices
    (Keys.batchIndex id) x (Keys.starts_batchIndex id) (hm.symm.trans hx)
  obtain rfl := Keys.batchIndex_inj.mp hat
  rw [hdix] at hdix'
  obtain rfl := Option.some.inj hdix'
  have hround' : recordOf BatchRecord ((worldAt cfg fuel turns).itemAt n) (Keys.batch ix.repo id) =
      some rec := by rwa [recordOf, ← hn]
  obtain ⟨rec₂, hrec₂, -, hid₂⟩ := (orderly_run h (max m n) m (le_max_left m n)).2 _ rec₁
    (Keys.starts_batch _ _) hrec₁
  obtain ⟨rec₃, hrec₃, -, hid₃⟩ := (orderly_run h (max m n) n (le_max_right m n)).2 _ rec
    (Keys.starts_batch _ _) hround'
  rw [hrec₂] at hrec₃
  obtain rfl := Option.some.inj hrec₃
  exact hid₃.symm.trans (hid₂.trans hid₁)

/-- The queue's fields leave the members admitted. -/
theorem Admits.fielded {r : Reads} {c c' : Cascade} {round : String}
    {members : List (String × String)} (h : Admits r c round members) (hf : Fielded r.view c c') :
    Admits r c' round members := by
  intro m hm
  obtain ⟨⟨hwl, hrec⟩, hwd, hdel⟩ := h m hm
  refine ⟨⟨by rwa [hf.writes], ?_⟩, by rwa [hf.writes], ?_⟩
  · rwa [hf.row (KeyPrefix.not_starts (Keys.starts_lifecycle m.1) (by decide) (by decide))]
  · rwa [hf.row (KeyPrefix.not_starts (Keys.starts_delivery m.1) (by decide) (by decide))]

/-- **What is admitted is in the round**, once its cascade is committed. -/
theorem Admits.inRound {r : Reads} {c : Cascade} {snap after : View} {round : String}
    {members : List (String × String)} {m : String × String} (h : Admits r c round members)
    (ht : Taken r.view snap after c) (hm : m ∈ members) : InRound after round m := by
  obtain ⟨⟨hwl, hrec⟩, hwd, hdel⟩ := h m hm
  refine ⟨?_, ?_⟩
  · rwa [ht.recordOf apart_lifecycle hwl]
  · rwa [StillIn, ht.recordOf apart_delivery hwd]

/-- What a command that brings members in plans of them. -/
theorem brings_ends (h : ControlRun floor cfg fuel turns) {r : Reads} {command : Command}
    {round : String} {m : String × String} (hr : r.Of (worldAt cfg fuel turns))
    (hb : Brings r command round m) :
    Ends (command.plan r) {} fun _ c ↦ RoundsOf r c ∧ Admits r c round [m] := by
  have hone {c : Cascade} {members : List (String × String)} (hm : m ∈ members)
      (ha : Admits r c round members) : Admits r c round [m] := fun m' hm' ↦ by
    rw [List.mem_singleton.mp hm']
    exact ha m hm
  cases hb with
  | cut hm => exact planCut_rounds.imp fun _ c ⟨hr, ha⟩ ↦ ⟨hr, hone hm ha⟩
  | stack hm =>
    refine planStack_rounds.imp fun _ c ⟨hrounds, key, rec, hf, ha⟩ ↦ ⟨hrounds, ?_⟩
    rw [h.found_id hr hf] at ha
    exact hone hm ha
  | promote hf hm =>
    refine planPromote_rounds.imp fun _ c ⟨hrounds, key, rec, hf', ha⟩ ↦ ⟨hrounds, ?_⟩
    obtain ⟨rfl, rfl⟩ := hf.unique hf'
    rw [h.found_id hr hf] at ha
    exact hone hm ha

/-- **Single delivery.**  At every revision a bead is BATCHED in at most one round; what a cut, a
stack or a promotion brings in is in the round, at its tip, from its commit on; and a command
whose compares do not hold changes no record. -/
theorem single_delivery (h : ControlRun floor cfg fuel turns) : SingleDelivery cfg fuel turns where
  once n id key key' rec rec' hkey hkey' hrec hrec' hin hin' :=
    (orderly_run h n n le_rfl).1.once hkey hkey' hrec hrec' hin hin'
  admitted i c k round m hc hb := by
    obtain ⟨c₀, ⟨hr₀, ha₀⟩, hfields⟩ := Issue.cascade_ends hc.cascade
      (brings_ends h hc.reads hb) fun _ hq ↦ hq.1.sound
    have hsound : RoundsOf i.reads c ∧ Admits i.reads c round [m] := by
      obtain rfl | hf := hfields
      · exact ⟨hr₀, ha₀⟩
      · exact ⟨hr₀.fielded hf, ha₀.fielded hf⟩
    exact hsound.2.inRound (hc.taken hsound.1.sound) (List.mem_singleton.mpr rfl)
  lost i call k hreads hcall ha hk hno key hkey := by
    obtain ⟨pre, ops, -, hacts, he⟩ := runs_effect turns hk
    rw [ha] at hacts
    rw [Issue.call] at hcall
    split at hcall
    · rename_i c hc
      obtain rfl := Option.some.inj hcall
      cases hok : k.ok with
      | false =>
        rw [hok] at hacts
        exact untaken_of_effect hacts he hkey
      | true =>
        -- All the compares hold, so all that is written is as it was read.
        obtain hok' | ⟨c', key', hc', hw, hne⟩ := hno
        · rw [hok] at hok'
          cases hok'
        · rw [hc] at hc'
          obtain rfl := Except.ok.inj hc'
          have hsound : Sound i.reads.view c := by
            obtain ⟨c₀, hr₀, rfl | hf⟩ := Issue.cascade_ends hc (command_rounds i.command)
              fun _ hr ↦ hr.sound
            · exact hr₀.sound
            · exact hf.sound
          exact absurd ((Commits.taken ⟨hreads, hc, ha, hk, hok⟩ hsound).compared key' hw) hne
    · rename_i audit _
      obtain rfl := Option.some.inj hcall
      have hchosen : Chosen ((worldAt cfg fuel turns).itemAt k.head) _ k.ok ops
          (auditedTxn {} [audit] [] i.req "refuse" i.plannedAt) := hacts
      refine he.untouched key hkey.1 fun o ho hk ↦ ?_
      rw [hchosen.1] at ho
      split_ifs at ho
      · have hmem := Cascade.mem_auditedOps ho (by rw [hk]; exact hkey.2)
        cases hmem
      · have hmem := Cascade.mem_auditedOps ho (by rw [hk]; exact hkey.2)
        cases hmem
    · cases hcall

/-- In the run that re-cuts a bead into another round, it is in one round at every revision. -/
theorem single_delivery_recut : SingleDelivery stillConfig 1 Recut.turns :=
  single_delivery Recut.controlRun

end Run

end Spira.Control
