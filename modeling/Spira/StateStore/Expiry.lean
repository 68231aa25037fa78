import Spira.StateStore.Atomic

/-!
# What is removed, and when

What each commit of a run may take away, read off the snapshots just before and just after its
revision: an expiry removes a key only past its TTL, no commit removes a key with finalizers or
moves a mark, and a collector removes a key only as finalized or as an orphan (`Lawful`).
-/

set_option autoImplicit false

namespace Spira.Store

namespace Contract

variable {P : Type}

/-- The commit removes the item. -/
def Removes (w : World P) (c : Committed P) (key : String) (i : Item P) : Prop :=
  w.itemAt c.head key = some i ∧ w.itemAt (c.head + 1) key = none

/-- What `w` says of a commit made after `before`. -/
structure Lawful (w : World P) (c : Committed P) (before : List (Happened P)) : Prop where
  /-- An expired key is past its TTL since it was last written or the store opened, or a write of it
  has failed since. -/
  expired : c.author = .expire → ∀ key i, Removes w c key i → ∃ ttl, ttlMs key i.value = some ttl ∧
    (touched key before + ttl ≤ c.now ∨ spoiled key before)
  finalizers : ∀ key i, Removes w c key i → i.value.metadata.finalizers = []
  /-- A mark is neither cleared nor moved. -/
  marked : ∀ key i j m, w.itemAt c.head key = some i → w.itemAt (c.head + 1) key = some j →
    i.mark = some m → j.mark = some m
  /-- A delete of a key with finalizers marks it. -/
  deleted : ∀ key expect req i, c.author = .call (.delete key expect req) →
    w.itemAt c.head key = some i → i.value.metadata.finalizers ≠ [] →
    ∃ j, w.itemAt (c.head + 1) key = some j ∧ j.mark ≠ none
  collected : ∀ kind, c.author = .collect kind → ∀ key i, Removes w c key i →
    Collectable (w.itemAt c.head) i kind

/-- What is removed was deleted by a write of the commit. -/
theorem exists_delete {w₀ : World P} {author : Author P} {ok : Bool} {staged : List (Staged P)}
    {key : String} {i : Item P} (hi : w₀.cur key = some i)
    (hnone : (w₀.taken author ok staged).cur key = none) :
    ∃ s ∈ staged, s.key = key ∧ s.value = none := by
  rw [cur_taken] at hnone
  cases hl : lastOf staged key with
  | none =>
    rw [hl] at hnone
    rw [hi] at hnone
    cases hnone
  | some p =>
    obtain ⟨-, hmem, hkey⟩ := lastOf_some hl
    rw [hl] at hnone
    exact ⟨p.1, hmem, hkey, Option.map_eq_none_iff.mp hnone⟩

/-- The batch of a delete leaves the mark of a key with finalizers. -/
theorem exists_mark {w₀ : World P} {author : Author P} {ok : Bool} {staged : List (Staged P)}
    {key : String} {i : Item P} {req : Request P} {r : Record} (hp : Planned w₀ author ok staged)
    (hi : w₀.cur key = some i) (hfin : i.value.metadata.finalizers ≠ [])
    (hb : Built w₀.cur w₀.store.head req r ok [.delete key] staged) :
    ∃ j, (w₀.taken author ok staged).cur key = some j ∧ j.mark ≠ none := by
  have hmem : ∃ s ∈ staged, s.key = key := by
    obtain ⟨resolved, hres, rfl⟩ := hb
    cases hres with
    | cons hs _ => exact ⟨_, by simp, hs.key_prev.1⟩
    | dropped hnone _ =>
      rw [hi] at hnone
      cases hnone
  cases hl : lastOf staged key with
  | none =>
    obtain ⟨s, hs, hkey⟩ := hmem
    exact absurd hkey (lastOf_none.mp hl s hs)
  | some p =>
    obtain ⟨-, hs, hkey⟩ := lastOf_some hl
    have hprev : p.1.prev = some i := by rw [hp.prev p.1 hs, hkey, hi]
    -- The records have no earlier item, so the last write is the delete's.
    obtain ⟨o, ho, hres⟩ | ⟨-, hreq⟩ | ⟨subs, hev⟩ := hb.mem hs
    · rw [List.mem_singleton.mp ho] at hres
      obtain ⟨q, hq, ⟨hnil, -⟩ | ⟨-, m, -, hstaged⟩⟩ := hres
      · rw [hi] at hq
        rw [← Option.some.inj hq] at hnil
        exact absurd hnil hfin
      · have hitem : Staged.item (w₀.store.head + 1) p = some ⟨p.1.key, keepMark (some m) q.value,
            ⟨w₀.store.head + 1, p.2⟩, (p.1.prev.map (·.createRev)).getD
              ⟨w₀.store.head + 1, p.2⟩⟩ := by
          rw [Staged.item, hstaged]
          rfl
        rw [cur_taken, hl]
        exact ⟨_, hitem, by simp [Item.mark, mark_keepMark]⟩
    · rw [hreq] at hprev
      cases hprev
    · rw [hev] at hprev
      cases hprev

/-- **A commit of a reachable world is lawful** where it was decided by its head. -/
theorem lawful_of_decided [DecidableEq P] {w w₁ : World P} (h : Reachable w) {c : Committed P}
    {before : List (Happened P)} (hc : .committed c :: before <:+ w.trace) (hd : Decided w₁ c)
    (h₁ : ∀ key, w.itemAt c.head key = w₁.cur key) : Lawful w c before := by
  obtain ⟨w₀, h₀, hg⟩ := h.planned hc
  have hp := h₀.planned
  have hhead : (w₀.taken c.author c.ok c.staged).store.head = c.head + 1 := by rw [← h₀.head]; rfl
  have hnew (key : String) :
      w.itemAt (c.head + 1) key = (w₀.taken c.author c.ok c.staged).cur key := by
    rw [hg.itemAt_eq _ hhead.ge, World.cur, hhead]
  have hold (key : String) : w.itemAt c.head key = w₀.cur key := by
    rw [hg.itemAt_eq _ (by rw [hhead]; exact Nat.le_succ _), ← h₀.head]
    exact (grows_taken w₀ _ _ _).itemAt_eq _ (le_refl _) key
  have hsnap : w.itemAt c.head = w₀.cur := funext hold
  have hremoved {key : String} {i : Item P} (hr : Removes w c key i) :
      w₀.cur key = some i ∧ ∃ s ∈ c.staged, s.key = key ∧ s.value = none := by
    obtain ⟨hi, hnone⟩ := hr
    rw [hold] at hi
    rw [hnew] at hnone
    exact ⟨hi, exists_delete hi hnone⟩
  refine ⟨fun ha key i hr ↦ ?_, fun key i hr ↦ ?_, fun key i j m hi hj hm ↦ ?_,
    fun key expect req i ha hi hfin ↦ ?_, fun kind ha key i hr ↦ ?_⟩
  · obtain ⟨hi, s, hs, rfl, hv⟩ := hremoved hr
    have hguarded := hp.guarded
    rw [ha] at hguarded
    obtain ⟨ttl, httl, hor⟩ := hguarded s hs hv i hi
    rw [h₀.trace, h₀.now] at hor
    exact ⟨ttl, httl, hor⟩
  · obtain ⟨hi, s, hs, rfl, hv⟩ := hremoved hr
    obtain ⟨p, hprev, hfin⟩ := hp.removed s hs hv
    rw [hp.prev s hs, hi] at hprev
    rwa [Option.some.inj hprev]
  · rw [hold] at hi
    rw [hnew] at hj
    obtain ⟨p, v, -, -, hmem, rfl, hv, rfl⟩ | ⟨-, hj⟩ := cur_taken_cases hj
    · exact hp.kept p.1 hmem v i m hv ((hp.prev p.1 hmem).trans hi) hm
    · rw [hi] at hj
      rwa [← Option.some.inj hj]
  · have hw₁ : w₁.cur = w₀.cur := (funext h₁).symm.trans hsnap
    rw [Decided, ha] at hd
    obtain ⟨req', ops, -, ⟨-, rfl, -⟩, hb⟩ := hd
    rw [hold] at hi
    rw [hw₁, ← h₀.head] at hb
    obtain ⟨j, hj, hm⟩ := exists_mark hp hi hfin hb
    exact ⟨j, by rw [hnew, hj], hm⟩
  · obtain ⟨hi, s, hs, rfl, hv⟩ := hremoved hr
    have hguarded := hp.guarded
    rw [ha] at hguarded
    obtain ⟨i', hi', hcollect⟩ := hguarded s hs hv
    rw [hi] at hi'
    rw [hsnap, Option.some.inj hi']
    exact hcollect

/-- A run whose last commit expires a key. -/
def expiring : List (Turn Env ℕ (Call ℕ)) :=
  .spawn (.txn { ops := [.put "telemetry/x" { metadata := { ttlSecs := some 1 }, data := .payload 1 }] }
    ⟨"1", "a", "k", none⟩) :: List.replicate 30 (.turn 0) ++ .env (.advance 2000) ::
      .spawn (.tick 0) :: List.replicate 30 (.turn 1)

/-- The key that `expiring` expires. -/
def expired : Item ℕ :=
  ⟨"telemetry/x", { metadata := { ttlSecs := some 1 }, data := .payload 1 }, ⟨1, 0⟩, ⟨1, 0⟩⟩

end Contract

end Spira.Store
