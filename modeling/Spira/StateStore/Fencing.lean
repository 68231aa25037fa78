import Spira.StateStore.Verbs

/-!
# Fencing tokens

A lock's token is the `createRev` of its key, so a new token is made exactly where a commit writes
the key while it is absent (`Committed.acquired`).  `tokens` reads them off the trace.  `Ledger` is
the invariant: they grow, and a lock that is held is held under the newest.  From it, whatever runs
under a fence runs under the newest token there is (`fencing`).
-/

set_option autoImplicit false

namespace Spira.Store

open KeyPrefix (starts)

variable {P : Type} {w : World P} {key : String}

/-- The token under which the commit takes the lock at `key`, if it does. -/
def Committed.acquired (key : String) (c : Committed P) : Option Rev :=
  (lastOf c.staged key).bind fun p ↦
    if p.1.value.isSome && p.1.prev.isNone then some ⟨c.head + 1, p.2⟩ else none

def Happened.acquired (key : String) : Happened P → Option Rev
  | .committed c => c.acquired key
  | _ => none

/-- The tokens of the lock at `key`, newest first. -/
def tokens (key : String) (trace : List (Happened P)) : List Rev :=
  trace.filterMap (Happened.acquired key)

theorem acquired_main {c : Committed P} {t : Rev} (h : c.acquired key = some t) :
    t.main = c.head + 1 := by
  obtain ⟨p, -, hp⟩ := Option.bind_eq_some_iff.mp h
  split at hp
  · obtain rfl := Option.some.inj hp
    rfl
  · cases hp

theorem tokens_committed (c : Committed P) (rest : List (Happened P)) :
    tokens key (.committed c :: rest) = (c.acquired key).toList ++ tokens key rest := by
  rw [tokens, List.filterMap_cons, Happened.acquired]
  cases c.acquired key <;> rfl

/-- The tokens of a lock grow, and the newest is that of the lock while it is held. -/
structure Ledger (key : String) (w : World P) : Prop where
  main_le : ∀ t ∈ tokens key w.trace, t.main ≤ w.store.head
  sorted : (tokens key w.trace).Pairwise fun a b ↦ b < a
  newest : ∀ i, w.cur key = some i → (tokens key w.trace).head? = some i.createRev

theorem ledger_init : Ledger key (World.init P) where
  main_le t ht := by simp [World.init, tokens, Happened.acquired] at ht
  sorted := List.Pairwise.nil
  newest i hi := by simp [World.init, World.cur, World.itemAt, snapshot, Mvcc.empty] at hi

/-- A token is newer than every token of an earlier revision. -/
theorem Ledger.lt_new (h : Ledger key w) {t : Rev} (ht : t.main = w.store.head + 1) :
    ∀ t' ∈ tokens key w.trace, t' < t := fun t' ht' ↦ by
  have hle := h.main_le t' ht'
  rw [Rev.lt_def]
  omega

/-- What the commit makes of the key is under the token it takes, or under the one the key had. -/
theorem createRev_taken {author : Author P} {ok : Bool} {staged : List (Staged P)} {i : Item P}
    (hp : Planned w author ok staged) (hi : (w.taken author ok staged).cur key = some i) :
    match Committed.acquired key ⟨author, ok, w.store.head, staged, w.mono⟩ with
    | some t => i.createRev = t
    | none => ∃ i', w.cur key = some i' ∧ i'.createRev = i.createRev := by
  obtain ⟨p, v, hl, -, hmem, rfl, hv, rfl⟩ | ⟨hnone, hi⟩ := cur_taken_cases hi
  · rw [Committed.acquired, hl, Option.bind_some, hv]
    cases hprev : p.1.prev with
    | none => rfl
    | some q => exact ⟨q, by rw [← hp.prev p.1 hmem, hprev], rfl⟩
  · rw [Committed.acquired, lastOf_none.mpr hnone]
    exact ⟨i, hi, rfl⟩

theorem Ledger.take {author : Author P} {ok : Bool} {staged : List (Staged P)}
    (h : Ledger key w) (hp : Planned w author ok staged) :
    Ledger key (w.taken author ok staged) := by
  have hcur (i : Item P) (hi : (w.taken author ok staged).cur key = some i) :=
    createRev_taken hp hi
  have htokens : tokens key (w.taken author ok staged).trace =
      (Committed.acquired key ⟨author, ok, w.store.head, staged, w.mono⟩).toList ++
        tokens key w.trace := tokens_committed _ _
  have hhead : (w.taken author ok staged).store.head = w.store.head + 1 := rfl
  have hle (t : Rev) (ht : t ∈ tokens key w.trace) : t.main ≤ w.store.head + 1 :=
    (h.main_le t ht).trans (Nat.le_succ _)
  cases ha : Committed.acquired key ⟨author, ok, w.store.head, staged, w.mono⟩ with
  | none =>
    rw [ha, Option.toList_none, List.nil_append] at htokens
    refine ⟨by rwa [htokens, hhead], by rw [htokens]; exact h.sorted, fun i hi ↦ ?_⟩
    have hold := hcur i hi
    rw [ha] at hold
    obtain ⟨i', hi', heq⟩ := hold
    rw [htokens, h.newest i' hi', heq]
  | some t =>
    rw [ha, Option.toList_some, List.singleton_append] at htokens
    have hmain : t.main = w.store.head + 1 := acquired_main ha
    refine ⟨?_, ?_, fun i hi ↦ ?_⟩
    · rw [htokens, hhead]
      rintro t' ht'
      obtain rfl | ht' := List.mem_cons.mp ht'
      · exact hmain.le
      · exact hle t' ht'
    · rw [htokens]
      exact List.pairwise_cons.mpr ⟨h.lt_new hmain, h.sorted⟩
    · have hnew := hcur i hi
      rw [ha] at hnew
      rw [htokens, hnew, List.head?_cons]

/-- **Every reachable world keeps the ledger.** -/
theorem Reachable.ledger (h : Reachable w) : Ledger key w := by
  induction h with
  | init => exact ledger_init
  | @next w w' _ hn ih =>
    cases hn with
    | idle => exact ih
    | take _ hp => exact ih.take hp
    | fail _ => exact ⟨ih.main_le, ih.sorted, ih.newest⟩
    | stamp =>
      refine ⟨?_, ?_, fun i hi ↦ ?_⟩
      · rw [stamp_trace, stamp_store]
        exact ih.main_le
      · rw [stamp_trace]
        exact ih.sorted
      · rw [cur_stamp] at hi
        rw [stamp_trace]
        exact ih.newest i hi
    | drop _ _ _ => exact ⟨ih.main_le, ih.sorted, ih.newest⟩
    | env e =>
      refine ⟨fun t ht ↦ ?_, ?_, fun i hi ↦ ?_⟩
      · rw [env_trace] at ht
        exact (ih.main_le t ht).trans (grows_env e w).head_le
      · rw [env_trace]
        exact ih.sorted
      · rw [cur_env] at hi
        rw [env_trace]
        exact ih.newest i hi
  | reopen _ now ih => exact ⟨ih.main_le, ih.sorted, ih.newest⟩

/-! ## What runs under a fence -/

namespace Contract

section Fencing

variable {cfg : Config P} {fuel : ℕ}

/-- A lock check of a head passes under the token its key has there. -/
theorem lockCheck_safe [DecidableEq P] {head : ℕ} {token : Rev} (hhead : head ≤ w.store.head) :
    Safe (fun b _ ↦ b = true → (w.itemAt head key).map (·.createRev) = some token)
      (compareHolds head (.lockCheck key token)) w := by
  have hread : Safe (fun i w' ↦ i = w.itemAt head key ∧ Later w w') (read key head) w := by
    refine safe_look fun w' hw' w'' hw'' i hi ↦ ⟨?_, hw'.trans hw''⟩
    rw [← (Later.grows hw').itemAt_eq head hhead]
    exact read_eq hi
  refine safe_bind hread fun i w₁ ⟨hi, _⟩ ↦ ?_
  cases i with
  | none => exact safe_pure fun _ _ h ↦ (nomatch h)
  | some i =>
    have hlive : Safe (fun _ w' ↦ Later w₁ w') (live key) w₁ :=
      safe_bind nowMs_safe fun _ _ ⟨_, h₁, _, h₂⟩ ↦ safe_bind deadline_safe fun _ _ h₃ ↦
        safe_pure fun _ h₄ ↦ h₁.trans (h₂.trans (h₃.trans h₄))
    refine safe_bind hlive fun b w₂ _ ↦ ?_
    cases b with
    | false => exact safe_pure fun _ _ h ↦ (nomatch h)
    | true =>
      refine safe_pure fun _ _ h ↦ ?_
      rw [← hi, Option.map_some, eq_of_beq h]

/-- The locks of a world are fenced. -/
structure Fenced [DecidableEq P] (key : String) (w : World P) : Prop where
  /-- The tokens of successive acquisitions strictly increase. -/
  increasing : (tokens key w.trace).Pairwise fun later earlier ↦ earlier < later
  /-- A call that takes the lock makes a token. -/
  taken : ∀ c, .committed c ∈ w.trace →
    ((∃ resource ttl req, c.author = .call (.lock resource ttl req) ∧ key = lockKey resource) ∨
      ∃ t req, c.author = .call (.txn t req) ∧ c.ok ∧ key ∈ t.lockKeys) →
    (c.acquired key).isSome
  /-- At every head, one token at most passes a lock check. -/
  unique : ∀ head ≤ w.store.head, ∃ held : Option Rev, ∀ token,
    Safe (fun b _ ↦ b = true → held = some token) (compareHolds head (.lockCheck key token)) w
  /-- A then-branch guarded by a lock check commits under the newest token there is. -/
  guarded : ∀ c before t req token, .committed c :: before <:+ w.trace →
    c.author = .call (.txn t req) → c.ok → .lockCheck key token ∈ t.compares →
    (tokens key before).head? = some token
  /-- So does a holder's write, and it is to its own lock. -/
  holder : ∀ c before call f, .committed c :: before <:+ w.trace → c.author = .call call →
    call.fence? = some f → (∃ s ∈ c.staged, starts locksPrefix key ∧ s.key = key) →
    f.key = key ∧ (tokens key before).head? = some f.token

/-- A holder's batch was planned under the token of its lock. -/
theorem guarded_holder {c : Call P} {f : Fence} {ok : Bool} {staged : List (Staged P)}
    (h : Guarded w (.call c) ok staged) (hf : c.fence? = some f) :
    (∃ i, w.cur f.key = some i ∧ i.createRev = f.token) ∧
      ∀ s ∈ staged, starts locksPrefix s.key → s.key = f.key := by
  cases c with
  | renew _ _ | renewFor _ _ _ | release _ _ =>
    obtain rfl := Option.some.inj hf
    exact h
  | _ => cases hf

/-- A batch that writes an absent key takes it. -/
theorem acquired_of_absent {c : Committed P} {before : List (Happened P)} (h : MadeIn w c before)
    (hcur : w.cur key = none) (hs : ∃ s ∈ c.staged, s.key = key) : (c.acquired key).isSome := by
  obtain ⟨s, hs, rfl⟩ := hs
  cases hl : lastOf c.staged s.key with
  | none => exact absurd rfl (lastOf_none.mp hl s hs)
  | some p =>
    obtain ⟨-, hmem, hkey⟩ := lastOf_some hl
    have hprev : p.1.prev = none := by rw [h.planned.prev p.1 hmem, hkey, hcur]
    rw [Committed.acquired, hl, Option.bind_some, hprev]
    cases hv : p.1.value with
    | some v => rfl
    | none =>
      -- Only what is there is removed.
      obtain ⟨q, hq, -⟩ := h.planned.removed p.1 hmem hv
      rw [hprev] at hq
      cases hq

theorem fenced_of_reachable [DecidableEq P] (h : Reachable w) : Fenced key w where
  increasing := h.ledger.sorted
  taken c hc hcall := by
    obtain ⟨before, hsuffix⟩ := exists_suffix_of_mem hc
    obtain ⟨w₀, h₀, -⟩ := h.planned hsuffix
    have hg := h₀.planned.guarded
    obtain ⟨resource, ttl, req, ha, rfl⟩ | ⟨t, req, ha, hok, hkey⟩ := hcall
    · rw [ha] at hg
      exact acquired_of_absent h₀ hg.1 hg.2
    · rw [ha] at hg
      obtain ⟨hcur, hs⟩ := (hg hok).2.1 key hkey
      exact acquired_of_absent h₀ hcur hs
  unique head hhead := ⟨_, fun token ↦ lockCheck_safe hhead⟩
  guarded c before t req token hc ha hok ht := by
    obtain ⟨w₀, h₀, -⟩ := h.planned hc
    have hg := h₀.planned.guarded
    rw [ha] at hg
    obtain ⟨i, hi, rfl⟩ := (hg hok).1 key token ht
    rw [← h₀.trace]
    exact h₀.reachable.ledger.newest i hi
  holder c before call f hc ha hf := by
    rintro ⟨s, hs, hk, rfl⟩
    obtain ⟨w₀, h₀, -⟩ := h.planned hc
    have hg := h₀.planned.guarded
    rw [ha] at hg
    obtain ⟨⟨i, hi, hrev⟩, hown⟩ := guarded_holder hg hf
    rw [hown s hs hk]
    refine ⟨rfl, ?_⟩
    rw [← h₀.trace, h₀.reachable.ledger.newest i hi, hrev]

/-- **In every run, locks are fenced.** -/
theorem runs_fenced [DecidableEq P] (turns : List (Turn Env ℕ (Call P))) (resource : String) :
    Fenced (lockKey resource) (runs cfg fuel turns).state :=
  fenced_of_reachable (runs_reachable turns).1

end Fencing

end Contract

end Spira.Store
