import Spira.StateStore.Steps

/-!
# The deadlines beside the store

The map of deadlines is not part of the store: it is set after every commit, rebuilt at every
opening and thinned by the expiry itself.  `Timing` is what it keeps to.  A key that exists has a
deadline no earlier than its TTL after it was last written, or has lost one that had passed; the
exceptions are a key whose commit still holds the lock, and one for which a write has failed since,
whose deadline is that of the write that never landed.
-/

set_option autoImplicit false

namespace Spira.Store

open KeyPrefix (starts past)

variable {P : Type}

/-! ## The map -/

section Map

variable {d : KeyMap String ℕ} {now : ℕ} {key : String}

/-- Only a key that may expire has a TTL. -/
theorem expires_of_ttlMs {v : Object P} {ttl : ℕ} (h : ttlMs key v = some ttl) : expires key := by
  rw [ttlMs] at h
  rw [expires, Bool.or_eq_true]
  split_ifs at h with hl ha
  · exact .inl hl
  · exact .inr (by simpa using ha)

theorem not_expires_events (h : starts eventsPrefix key) : expires key = false := by
  have hlocks : starts locksPrefix key = false := KeyPrefix.not_starts h (by decide) (by decide)
  have hrequests : starts requestsPrefix key = false :=
    KeyPrefix.not_starts h (by decide) (by decide)
  have htelemetry : starts telemetryPrefix key = false :=
    KeyPrefix.not_starts h (by decide) (by decide)
  have hintents : starts intentsPrefix key = false :=
    KeyPrefix.not_starts h (by decide) (by decide)
  simp [expires, ttlAllowed, ttlPrefixes, hlocks, hrequests, htelemetry, hintents]

/-- The TTL a staged write carries. -/
def Staged.ttl? (s : Staged P) : Option ℕ := s.value.bind (ttlMs s.key)

theorem getElem?_stampOne {ok : Bool} {s : Staged P} :
    (stampOne now ok d s)[key]? =
      if s.key = key then s.ttl?.elim (if ok then none else d[key]?) (some <| now + ·)
      else d[key]? := by
  rw [stampOne, Staged.ttl?]
  cases s.value.bind (ttlMs s.key) with
  | some ttl => simp only [Std.ExtTreeMap.getElem?_insert, compare_eq_iff_eq, Option.elim_some]
  | none =>
    cases ok with
    | true =>
      simp only [if_true, Std.ExtTreeMap.getElem?_erase, compare_eq_iff_eq, Option.elim_none]
    | false => simp

theorem lastOf_snoc {staged : List (Staged P)} {s : Staged P} :
    lastOf (staged ++ [s]) key =
      if s.key = key then some (s, staged.length) else lastOf staged key := by
  rw [lastOf, List.zipIdx_append, List.reverse_append, List.zipIdx_singleton,
    List.reverse_singleton, List.singleton_append, List.find?_cons, lastOf]
  by_cases hk : s.key = key <;> simp [hk]

/-- A key the batch does not write keeps its deadline. -/
theorem stamp_of_lastOf_none {ok : Bool} {staged : List (Staged P)}
    (h : lastOf staged key = none) : (staged.foldl (stampOne now ok) d)[key]? = d[key]? := by
  induction staged using List.reverseRecOn with
  | nil => rfl
  | append_singleton staged s ih =>
    rw [lastOf_snoc] at h
    split at h
    · cases h
    · rename_i hk
      rw [List.foldl_append, List.foldl_cons, List.foldl_nil, getElem?_stampOne, if_neg hk, ih h]

/-- A key a committed batch writes has the deadline of its last write there. -/
theorem stamp_of_lastOf_some {staged : List (Staged P)} {p : Staged P × ℕ}
    (h : lastOf staged key = some p) :
    (staged.foldl (stampOne now true) d)[key]? = p.1.ttl?.map (now + ·) := by
  induction staged using List.reverseRecOn with
  | nil => simp [lastOf] at h
  | append_singleton staged s ih =>
    rw [List.foldl_append, List.foldl_cons, List.foldl_nil, getElem?_stampOne]
    rw [lastOf_snoc] at h
    split at h <;> rename_i hk
    · cases h
      rw [if_pos hk]
      cases s.ttl? <;> rfl
    · rw [if_neg hk, ih h]

theorem expires_of_stamp {ok : Bool} {staged : List (Staged P)}
    (hd : ∀ k x, d[k]? = some x → expires k) {x : ℕ}
    (h : (staged.foldl (stampOne now ok) d)[key]? = some x) : expires key := by
  induction staged using List.reverseRecOn generalizing x with
  | nil => exact hd key x h
  | append_singleton staged s ih =>
    rw [List.foldl_append, List.foldl_cons, List.foldl_nil, getElem?_stampOne] at h
    split at h
    · rename_i hk
      subst hk
      cases ht : s.ttl? with
      | some ttl =>
        obtain ⟨v, -, hv⟩ := Option.bind_eq_some_iff.mp ht
        exact expires_of_ttlMs hv
      | none =>
        rw [ht] at h
        cases ok
        · exact ih h
        · simp at h
    · exact ih h

theorem getElem?_dropDue (now : ℕ) (d : KeyMap String ℕ) (keys : List String) (key : String) :
    (dropDue now d keys)[key]? = d[key]? ∨
      (∃ x ≤ now, d[key]? = some x) ∧ (dropDue now d keys)[key]? = none := by
  induction keys using List.reverseRecOn with
  | nil => exact .inl rfl
  | append_singleton keys k ih =>
    rw [dropDue, List.foldl_append, List.foldl_cons, List.foldl_nil, ← dropDue]
    split <;> rename_i hdue
    · by_cases hk : k = key
      · subst hk
        refine .inr ⟨?_, by simp⟩
        obtain heq | ⟨hx, -⟩ := ih
        · rw [← heq]
          obtain ⟨x, hx, hle⟩ := (Option.any_eq_true _ _).mp hdue
          exact ⟨x, by simpa using hle, hx⟩
        · exact hx
      · rwa [Std.ExtTreeMap.getElem?_erase, if_neg (by rwa [compare_eq_iff_eq])]
    · exact ih

end Map

/-! ## Opening -/

section Restart

variable {m : Snapshot String (Object P)} {d : KeyMap String ℕ} {now : ℕ} {key : String}

/-- The keys an opening visits. -/
def visited (m : Snapshot String (Object P)) (after : Option String) :
    List (String × Version (Object P)) :=
  (m.toList.filter fun e ↦ !starts eventsPrefix e.1).filter fun e ↦ past after e.1

theorem gcRange_eq (after : Option String) (n : ℕ) :
    m.gcRange eventsPrefix after n = (visited m after).take n := by
  rw [Snapshot.gcRange, visited, List.filter_filter]
  refine congrArg (List.take n) (List.filter_congr fun e _ ↦ ?_)
  rw [Bool.and_comm]

/-- **The pages together are every key**, with fuel for each. -/
theorem restartPages_eq {fuel : ℕ} {after : Option String} (h : (visited m after).length < fuel) :
    restartPages m now fuel after d = (visited m after).foldl (restart now) d := by
  induction fuel generalizing after d with
  | zero => omega
  | succ fuel ih =>
    rw [restartPages, gcRange_eq, List.length_take]
    split <;> rename_i hlen
    · rw [List.take_of_length_le (by omega)]
    · -- The page is full, so it has a last key, and what is past that is what follows the page.
      have hpage : 0 < page := by decide
      have hne : (visited m after).take page ≠ [] := by
        rw [← List.length_pos_iff, List.length_take]
        omega
      have hlast := List.getLast?_eq_some_getLast hne
      have hrest : visited m (some (((visited m after).take page).getLast hne).1) =
          (visited m after).drop page :=
        Paging.rowsPast_getLast ((KeyMap.pairwise_toList m).filter _) hlast
      rw [hlast, Option.map_some, ih (by rw [hrest, List.length_drop]; omega), hrest,
        ← List.foldl_append, List.take_append_drop]

theorem getElem?_foldl_restart {l : List (String × Version (Object P))}
    (hl : l.Pairwise (·.1 < ·.1)) :
    (l.foldl (restart now) d)[key]? =
      ((l.find? (·.1 = key)).bind fun e ↦ ttlMs key e.2.value).elim d[key]? (some <| now + ·) := by
  induction l generalizing d with
  | nil => rfl
  | cons e l ih =>
    obtain ⟨he, hl⟩ := List.pairwise_cons.mp hl
    rw [List.foldl_cons, ih hl, List.find?_cons]
    have hrestart : (restart now d e)[key]? =
        if e.1 = key then (ttlMs key e.2.value).elim d[key]? (some <| now + ·) else d[key]? := by
      rw [restart]
      by_cases hk : e.1 = key
      · subst hk
        cases ttlMs e.1 e.2.value <;> simp
      · rw [if_neg hk]
        split
        · rw [Std.ExtTreeMap.getElem?_insert, if_neg (by rwa [compare_eq_iff_eq])]
        · rfl
    by_cases hk : e.1 = key
    · have hnone : l.find? (·.1 = key) = none := by
        rw [List.find?_eq_none]
        intro e' he'
        have := he e' he'
        simpa [hk] using (hk ▸ this).ne'
      rw [hnone, hrestart, if_pos hk]
      simp [hk]
    · rw [hrestart, if_neg hk]
      simp [hk]

/-- **An opening gives every key its TTL anew**, and no other key a deadline. -/
theorem getElem?_reopen (w : World P) (now : ℕ) (key : String) :
    (w.reopen now).deadlines[key]? = (w.cur key).bind fun i ↦ (ttlMs key i.value).map (now + ·) := by
  set m := snapshot w.store.history w.store.head with hm
  have hsorted : (visited m none).Pairwise (·.1 < ·.1) :=
    ((KeyMap.pairwise_toList m).filter _).filter _
  have hlen : (visited m none).length < m.toList.length + 1 :=
    Nat.lt_succ_of_le ((List.length_filter_le _ _).trans (List.length_filter_le _ _))
  have hfold : (w.reopen now).deadlines = (visited m none).foldl (restart now) ∅ :=
    restartPages_eq hlen
  rw [hfold, getElem?_foldl_restart hsorted, World.cur, World.itemAt, ← hm]
  cases hfind : (visited m none).find? (·.1 = key) with
  | some e =>
    have hmem := List.mem_of_find?_eq_some hfind
    obtain rfl : e.1 = key := by simpa using List.find?_some hfind
    have he : m[e.1]? = some e.2 :=
      KeyMap.mem_toList.mp (List.mem_filter.mp (List.mem_filter.mp hmem).1).1
    rw [he]
    cases ht : ttlMs e.1 e.2.value <;> simp [Item.ofVersion, ht]
  | none =>
    cases he : m[key]? with
    | none => simp
    | some v =>
      -- A key the pages leave out is an audit record, which has no TTL.
      have hevent : starts eventsPrefix key := by
        by_contra hk
        have hin : (key, v) ∈ visited m none := by
          simp only [visited, List.mem_filter, KeyPrefix.past_none, and_true]
          exact ⟨KeyMap.mem_toList.mpr he, by simpa using hk⟩
        have := List.find?_eq_none.mp hfind (key, v) hin
        simp at this
      have hnone : ttlMs key v.value = none := by
        by_contra ht
        obtain ⟨ttl, ht⟩ := Option.ne_none_iff_exists'.mp ht
        exact absurd (expires_of_ttlMs ht) (by rw [not_expires_events hevent]; simp)
      simp [Item.ofVersion, hnone]

end Restart

/-! ## What the deadlines keep to -/

/-- The key's deadline, or its loss, is no earlier than its TTL after it was last written. -/
def World.Timely (w : World P) (key : String) : Prop :=
  ∀ i ttl, w.cur key = some i → ttlMs key i.value = some ttl → spoiled key w.trace ∨
    ((∀ d, w.deadlines[key]? = some d → touched key w.trace + ttl ≤ d) ∧
      (w.deadlines[key]? = none → touched key w.trace + ttl ≤ w.mono))

structure Timing (w : World P) : Prop where
  touched_le : ∀ key, touched key w.trace ≤ w.mono
  keys : ∀ key d, w.deadlines[key]? = some d → expires key
  /-- While a committed batch holds the lock, the head has what it wrote. -/
  taken : ∀ staged, w.pending = some (staged, true) → ∀ key p, lastOf staged key = some p →
    (w.cur key).map (·.value) = p.1.value
  failed : ∀ staged, w.pending = some (staged, false) → ∀ s ∈ staged, spoiled s.key w.trace
  timely : ∀ key, (∃ staged p, w.pending = some (staged, true) ∧ lastOf staged key = some p) ∨
    w.Timely key

section Timing

variable {w : World P} {key : String}

theorem writes_eq_false {c : Committed P} (h : lastOf c.staged key = none) :
    c.writes key = false := by
  simpa [Committed.writes] using lastOf_none.mp h

theorem timing_init : Timing (World.init P) where
  touched_le key := le_refl _
  keys key d hd := by simp [World.init] at hd
  taken staged h := by simp [World.init] at h
  failed staged h := by simp [World.init] at h
  timely key := .inr fun i ttl hi ↦ by
    simp [World.init, World.cur, World.itemAt, snapshot, Mvcc.empty] at hi

/-- Where the lock is free, every key is timely. -/
theorem Timing.free (h : Timing w) (hfree : w.pending = none) : w.Timely key := by
  obtain ⟨staged, p, hp, -⟩ | ht := h.timely key
  · rw [hfree] at hp
    cases hp
  · exact ht

theorem Timing.take {author : Author P} {ok : Bool} {staged : List (Staged P)} (h : Timing w)
    (hfree : w.pending = none) : Timing (w.taken author ok staged) where
  touched_le key := by
    rw [World.taken, touched]
    split
    · exact le_refl _
    · exact h.touched_le key
  keys := h.keys
  taken staged' hs key p hp := by
    obtain ⟨rfl, -⟩ := Prod.mk.inj (Option.some.inj hs)
    rw [cur_taken, hp]
    simp only [Staged.item, Option.map_map]
    cases p.1.value <;> rfl
  failed staged' hs := by simp [World.taken] at hs
  timely key := by
    cases hl : lastOf staged key with
    | some p => exact .inl ⟨staged, p, rfl, hl⟩
    | none =>
      refine .inr fun i ttl hi ht ↦ ?_
      rw [cur_taken, hl] at hi
      have hw : (⟨author, ok, w.store.head, staged, w.mono⟩ : Committed P).writes key = false :=
        writes_eq_false hl
      simp only [World.taken, touched, spoiled, hw, Bool.not_false, Bool.true_and, Bool.false_eq_true,
        if_false]
      exact h.free hfree i ttl hi ht

theorem Timing.fail {staged : List (Staged P)} (h : Timing w) (hfree : w.pending = none) :
    Timing (w.failed staged) where
  touched_le := h.touched_le
  keys := h.keys
  taken staged' hs := by simp [World.failed] at hs
  failed staged' hs s hmem := by
    obtain ⟨rfl, -⟩ := Prod.mk.inj (Option.some.inj hs)
    rw [World.failed, spoiled, Bool.or_eq_true]
    exact .inl (List.any_eq_true.mpr ⟨s, hmem, by simp⟩)
  timely key := .inr fun i ttl hi ht ↦ by
    rw [World.failed, touched, spoiled, Bool.or_eq_true]
    exact (h.free hfree i ttl hi ht).imp_left .inr

theorem Timing.stamp (h : Timing w) : Timing w.stamp := by
  cases hp : w.pending with
  | none =>
    have : w.stamp = w := by rw [World.stamp, hp]
    rwa [this]
  | some q =>
    obtain ⟨staged, ok⟩ := q
    have heq : w.stamp = { w with
        pending := none, deadlines := staged.foldl (stampOne w.mono ok) w.deadlines } := by
      rw [World.stamp, hp]
    rw [heq]
    refine ⟨h.touched_le, fun key d hd ↦ expires_of_stamp h.keys hd, by simp, by simp,
      fun key ↦ .inr fun i ttl hi ht ↦ ?_⟩
    cases hl : lastOf staged key with
    | none =>
      rw [stamp_of_lastOf_none hl]
      obtain ⟨staged', p, hs, hlast⟩ | htimely := h.timely key
      · obtain ⟨rfl, -⟩ := Prod.mk.inj (Option.some.inj (hp.symm.trans hs))
        rw [hl] at hlast
        cases hlast
      · exact htimely i ttl hi ht
    | some p =>
      obtain ⟨-, hmem, rfl⟩ := lastOf_some hl
      cases ok with
      | false => exact .inl (h.failed staged hp p.1 hmem)
      | true =>
        -- The last write's TTL is that of the item the head has.
        have hval := h.taken staged hp _ p hl
        have httl : p.1.ttl? = some ttl := by
          have hcur : w.cur p.1.key = some i := hi
          rw [hcur, Option.map_some] at hval
          rw [Staged.ttl?, ← hval, Option.bind_some, ht]
        rw [stamp_of_lastOf_some hl, httl]
        refine .inr ⟨fun d hd ↦ ?_, by simp⟩
        obtain rfl := Option.some.inj hd
        exact Nat.add_le_add_right (h.touched_le _) _

theorem Timing.drop {now : ℕ} (h : Timing w) (keys : List String) (hfree : w.pending = none)
    (hnow : now ≤ w.mono) : Timing { w with deadlines := dropDue now w.deadlines keys } where
  touched_le := h.touched_le
  keys key d hd := by
    obtain heq | ⟨-, hnone⟩ := getElem?_dropDue now w.deadlines keys key
    · exact h.keys key d (heq ▸ hd)
    · rw [show (dropDue now w.deadlines keys)[key]? = some d from hd] at hnone
      cases hnone
  taken staged hs := by simp [hfree] at hs
  failed staged hs := by simp [hfree] at hs
  timely key := .inr fun i ttl hi ht ↦ by
    obtain hs | ⟨hsome, hnone⟩ := h.free hfree i ttl hi ht
    · exact .inl hs
    refine .inr ?_
    obtain heq | ⟨⟨x, hx, hd⟩, hdrop⟩ := getElem?_dropDue now w.deadlines keys key
    · dsimp only
      rw [heq]
      exact ⟨hsome, hnone⟩
    · dsimp only
      rw [hdrop]
      exact ⟨by simp, fun _ ↦ (hsome x hd).trans (hx.trans hnow)⟩

theorem Timing.env (h : Timing w) (e : Env) : Timing (w.env e) := by
  cases e with
  | advance d =>
    refine ⟨fun key ↦ (h.touched_le key).trans (Nat.le_add_right _ _), h.keys, h.taken, h.failed,
      fun key ↦ (h.timely key).imp_right fun ht i ttl hi hv ↦ (ht i ttl hi hv).imp_right ?_⟩
    exact fun ⟨hsome, hnone⟩ ↦ ⟨hsome, fun hk ↦ (hnone hk).trans (Nat.le_add_right _ _)⟩
  | jump through =>
    have hcur (k : String) : (w.env (.jump through)).cur k = w.cur k := cur_env _
    rw [World.env] at hcur ⊢
    split at hcur <;> rename_i hlt
    · rw [dif_pos hlt]
      refine ⟨h.touched_le, h.keys, fun staged hs key p hp ↦ ?_, h.failed, fun key ↦
        (h.timely key).imp_right fun ht i ttl hi hv ↦ ht i ttl ((hcur key).symm.trans hi) hv⟩
      rw [hcur key]
      exact h.taken staged hs key p hp
    · rwa [dif_neg hlt]
  | _ => exact ⟨h.touched_le, h.keys, h.taken, h.failed, h.timely⟩

theorem timing_reopen (w : World P) (now : ℕ) : Timing (w.reopen now) where
  touched_le key := le_refl _
  keys key d hd := by
    rw [getElem?_reopen] at hd
    obtain ⟨i, hi, hd⟩ := Option.bind_eq_some_iff.mp hd
    obtain ⟨ttl, ht, -⟩ := Option.map_eq_some_iff.mp hd
    exact expires_of_ttlMs ht
  taken staged hs := by simp [World.reopen] at hs
  failed staged hs := by simp [World.reopen] at hs
  timely key := .inr fun i ttl hi ht ↦ by
    have hd : (w.reopen now).deadlines[key]? = some (now + ttl) := by
      rw [getElem?_reopen, show w.cur key = some i from hi, Option.bind_some, ht, Option.map_some]
    rw [hd]
    refine .inr ⟨fun d hd ↦ ?_, by simp⟩
    obtain rfl := Option.some.inj hd
    exact le_refl _

/-- **The deadlines keep to `Timing` in every reachable world.** -/
theorem Reachable.timing (h : Reachable w) : Timing w := by
  induction h with
  | init => exact timing_init
  | next _ hn ih =>
    cases hn with
    | idle => exact ih
    | take hfree _ => exact ih.take hfree
    | fail hfree => exact ih.fail hfree
    | stamp => exact ih.stamp
    | drop keys hfree hnow => exact ih.drop keys hfree hnow
    | env e => exact ih.env e
  | reopen _ now _ => exact timing_reopen _ now

/-- **A key that is due has been as it is for its TTL.** -/
theorem Reachable.elapsed {now : ℕ} (h : Reachable w) (hfree : w.pending = none) (hnow : now ≤ w.mono)
    (hkey : expires key) (hdue : w.deadlines[key]?.all (· ≤ now)) : w.Elapsed key := by
  intro i hi
  obtain ⟨ttl, ht⟩ := Option.isSome_iff_exists.mp (h.ttl hi hkey)
  refine ⟨ttl, ht, ?_⟩
  obtain hs | ⟨hsome, hnone⟩ := h.timing.free hfree i ttl hi ht
  · exact .inr hs
  · refine .inl ?_
    cases hd : w.deadlines[key]? with
    | none => exact hnone hd
    | some d =>
      have hle : d ≤ now := by simpa [hd] using hdue
      exact (hsome d hd).trans (hle.trans hnow)

end Timing

end Spira.Store
