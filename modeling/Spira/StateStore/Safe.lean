import Spira.StateStore.Decided

/-!
# The engine keeps to `Exact`

Whatever the others do, every step of an engine is one `Exact` allows; in particular every batch it
commits was planned at the head it is committed at, and decided there.  The argument
(`engine_safe`): what a plan found is the snapshot at the head it read, and the batch is taken only
while that is still the head.

A program is followed by what it has `Seen`: the snapshot at a head, which nothing changes.
-/

set_option autoImplicit false

namespace Spira.Store

open KeyPrefix (starts)

namespace Contract

variable {P : Type}

/-! ### What a program has seen -/

/-- `snap` is the snapshot at `head`, which was the head of a reachable world once. -/
structure Seen (head : ℕ) (snap : String → Option (Item P)) (w : World P) : Prop where
  reachable : Reachable w
  once : ∃ w₀, Reachable w₀ ∧ w₀.store.head = head ∧ w₀.cur = snap ∧ Grows w₀ w

section Seen

variable {head : ℕ} {snap : String → Option (Item P)} {w w' : World P} {key : String}

theorem Seen.later (h : Seen head snap w) (hl : Later w w') : Seen head snap w' where
  reachable := h.reachable.later hl
  once :=
    let ⟨w₀, hw₀, hh, hc, hg⟩ := h.once
    ⟨w₀, hw₀, hh, hc, hg.trans hl.grows⟩

theorem Seen.now (hw : Reachable w) : Seen w.store.head w.cur w :=
  ⟨hw, w, hw, rfl, rfl, .refl w⟩

theorem Seen.le (h : Seen head snap w) : head ≤ w.store.head := by
  obtain ⟨w₀, -, rfl, -, hg⟩ := h.once
  exact hg.head_le

theorem Seen.eq (h : Seen head snap w) (key : String) : w.itemAt head key = snap key := by
  obtain ⟨w₀, -, rfl, rfl, hg⟩ := h.once
  exact hg.itemAt_eq _ (le_refl _) key

theorem Seen.cur (h : Seen head snap w) (hh : w.store.head = head) : w.cur = snap := by
  funext key
  rw [World.cur, hh, h.eq]

theorem Seen.ttl (h : Seen head snap w) {i : Item P} (hi : snap key = some i) (hk : expires key) :
    (ttlMs key i.value).isSome := by
  obtain ⟨w₀, hw₀, -, rfl, -⟩ := h.once
  exact hw₀.ttl hi hk

/-- The record of a request has no finalizers. -/
theorem Seen.request (h : Seen head snap w) {i : Item P} (hi : snap key = some i)
    (hk : starts requestsPrefix key) : i.value.metadata.finalizers = [] := by
  obtain ⟨w₀, hw₀, -, rfl, -⟩ := h.once
  obtain ⟨c, _, _, -, -, -, -, -, hval⟩ := hw₀.request hi hk
  rw [← Option.some.inj hval]

theorem read_eq {i : Option (Item P)} (hi : (match w.store.get key head with
    | .ok v => .ok (v.map (Item.ofVersion key))
    | .error e => .error (.backend e) : Except (Error P) (Option (Item P))) = .ok i) :
    i = w.itemAt head key := by
  rw [Mvcc.get] at hi
  cases hr : w.store.readable head with
  | error e => simp [hr, bind, Except.bind] at hi
  | ok u =>
    rw [hr] at hi
    exact (Except.ok.inj hi).symm

/-- A read at a revision compacted since. -/
def Error.tooOld (e : Error P) : Prop := ∃ compacted, e = .backend (.tooOld compacted)

theorem read_error {e : Error P} (hle : head ≤ w.store.head)
    (he : (match w.store.get key head with
      | .ok v => .ok (v.map (Item.ofVersion key))
      | .error e => .error (.backend e) : Except (Error P) (Option (Item P))) = .error e) :
    Error.tooOld e := by
  rw [Mvcc.get, Mvcc.readable, if_neg (Nat.not_lt.mpr hle)] at he
  split_ifs at he with hc
  · cases he
    exact ⟨w.store.compacted, rfl⟩
  · cases he

/-- While `head` is the head, the key's TTL has passed. -/
def Ripe (head : ℕ) (key : String) (w : World P) : Prop :=
  head ≤ w.store.head ∧ (w.store.head = head → w.Elapsed key)

/-- It stays so: a deadline is moved only by a commit, which moves the head. -/
theorem Ripe.next (h : Ripe head key w) (hn : Next w w') : Ripe head key w' := by
  refine ⟨h.1.trans hn.grows.head_le, fun hh ↦ ?_⟩
  have hhead : w.store.head = head := le_antisymm (hh ▸ hn.grows.head_le) h.1
  have he := h.2 hhead
  cases hn with
  | idle => exact he
  | take hfree hp =>
    rw [World.taken, Mvcc.append_head, hhead] at hh
    omega
  | fail hfree =>
    intro i hi
    obtain ⟨ttl, ht, hor⟩ := he i hi
    refine ⟨ttl, ht, hor.imp id fun hs ↦ ?_⟩
    rw [World.failed, spoiled, hs, Bool.or_true]
  | stamp =>
    intro i hi
    rw [cur_stamp] at hi
    rw [stamp_trace, stamp_mono]
    exact he i hi
  | drop keys hfree hnow => exact he
  | env e =>
    intro i hi
    rw [cur_env] at hi
    obtain ⟨ttl, ht, hor⟩ := he i hi
    rw [env_trace]
    exact ⟨ttl, ht, hor.imp (le_trans · (Next.env e w).mono_le) id⟩

theorem Ripe.later (h : Ripe head key w) (hl : Later w w') : Ripe head key w' := by
  induction hl with
  | refl => exact h
  | tail _ hn ih => exact ih.next hn

/-- What a commit that was taken leaves in the trace. -/
def Left (author : Author P) (ok : Bool) (head : ℕ) (w : World P) : Prop :=
  ∃ c, .committed c ∈ w.trace ∧ c.author = author ∧ c.ok = ok ∧ c.head = head

theorem Left.later {w' : World P} {author : Author P} {ok : Bool} (h : Left author ok head w)
    (hl : Later w w') : Left author ok head w' := by
  obtain ⟨c, hc, rest⟩ := h
  exact ⟨c, (Later.grows hl).trace.mem hc, rest⟩

/-- The record of the request, as some snapshot has it. -/
def Recorded (req : Request P) (rev : ℕ) (ok : Bool) (w : World P) : Prop :=
  ∃ head snap i, Seen head snap w ∧ snap (requestKey req.id) = some i ∧
    Data.original i.value.data = (rev, ok)

theorem Recorded.later {req : Request P} {rev : ℕ} {ok : Bool}
    (h : Recorded req rev ok w) (hl : Later w w') : Recorded req rev ok w' := by
  obtain ⟨head, snap, i, hs, hi, ho⟩ := h
  exact ⟨head, snap, i, hs.later hl, hi, ho⟩

end Seen

/-! ### From ops to a planned batch -/

/-- What a plan may ask for, given what it found. -/
def Askable (snap : String → Option (Item P)) : Op P → Prop
  | .put key v => starts eventsPrefix key = false ∧ starts requestsPrefix key = false ∧
      (expires key → (ttlMs key v).isSome)
  | .lockAcquire key _ => starts locksPrefix key ∧ snap key = none
  | .delete key => starts eventsPrefix key = false

/-- Whose record a commit keeps: that of its own request, or none. -/
def Record.Of (author : Author P) (req : Request P) (r : Record) : Prop :=
  (∀ c req', author = .call c → c.req? = some req' → r.idempotent ∧ req' = req) ∧
    (r.idempotent → ∃ c, author = .call c ∧ c.req? = some req)

section Plan

variable {head : ℕ} {snap : String → Option (Item P)} {w : World P} {author : Author P}
  {req : Request P} {r : Record} {ok : Bool} {ops : List (Op P)} {staged : List (Staged P)}
  {s : Staged P} {o : Op P} {key : String}

@[simp] theorem ttlMs_keepMark (m : Option ℕ) (v : Object P) :
    ttlMs key (keepMark m v) = ttlMs key v := by
  cases m <;> rfl

theorem mark_keepMark (m : ℕ) (v : Object P) :
    (keepMark (some m) v).metadata.deletionTimestamp = some m := rfl

/-- A key that may expire is not under `events/`. -/
theorem not_events_of_expires (h : expires key) : starts eventsPrefix key = false := by
  by_contra hk
  rw [not_expires_events (by simpa using hk)] at h
  cases h

theorem expires_lock (h : starts locksPrefix key) : expires key := by
  rw [expires, h, Bool.true_or]

/-- What one op is resolved to keeps to what is asked of a batch. -/
theorem ResolvesTo.kept (h : ResolvesTo snap s o) (ho : Askable snap o) {v : Object P} {p : Item P}
    {m : ℕ} (hv : s.value = some v) (hp : s.prev = some p) (hm : p.mark = some m) :
    v.metadata.deletionTimestamp = some m := by
  cases o with
  | put key v' =>
    obtain rfl := h
    cases hv
    dsimp only at hp
    rw [hp, Option.bind_some, hm, mark_keepMark]
  | lockAcquire key ttlMs =>
    obtain rfl := h
    rw [ho.2] at hp
    cases hp
  | delete key =>
    obtain ⟨p', -, ⟨-, rfl⟩ | ⟨-, m', hm', rfl⟩⟩ := h
    · cases hv
    · cases hv
      cases hp
      rw [hm' m hm, mark_keepMark]

theorem ResolvesTo.removed (h : ResolvesTo snap s o) (hv : s.value = none) :
    ∃ p, s.prev = some p ∧ p.value.metadata.finalizers = [] := by
  cases o with
  | put key v =>
    obtain rfl := h
    cases hv
  | lockAcquire key ttlMs =>
    obtain rfl := h
    cases hv
  | delete key =>
    obtain ⟨p, -, ⟨hf, rfl⟩ | ⟨-, m, -, rfl⟩⟩ := h
    · exact ⟨p, rfl, hf⟩
    · cases hv

theorem ResolvesTo.ttl (h : ResolvesTo snap s o) (ho : Askable snap o)
    (hsnap : ∀ key i, snap key = some i → expires key → (ttlMs key i.value).isSome) {v : Object P}
    (hv : s.value = some v) (hk : expires s.key) : (ttlMs s.key v).isSome := by
  cases o with
  | put key v' =>
    obtain rfl := h
    cases hv
    rw [ttlMs_keepMark]
    exact ho.2.2 hk
  | lockAcquire key t =>
    obtain rfl := h
    cases hv
    rw [ttlMs, if_pos ho.1]
    rfl
  | delete key =>
    obtain ⟨p, hp, ⟨-, rfl⟩ | ⟨-, m, -, rfl⟩⟩ := h
    · cases hv
    · cases hv
      rw [ttlMs_keepMark]
      exact hsnap key p hp hk

theorem ResolvesTo.not_events (h : ResolvesTo snap s o) (ho : Askable snap o) :
    starts eventsPrefix s.key = false := by
  rw [h.key_prev.1]
  cases o with
  | put key v => exact ho.1
  | lockAcquire key ttlMs => exact not_events_of_expires (expires_lock ho.1)
  | delete key => exact ho

/-- The record of a request has no finalizers, so it is never only marked. -/
theorem ResolvesTo.requests (h : ResolvesTo snap s o) (ho : Askable snap o)
    (hsnap : ∀ key i, snap key = some i → starts requestsPrefix key →
      i.value.metadata.finalizers = [])
    (hk : starts requestsPrefix s.key) : s.value = none := by
  cases o with
  | put key v =>
    obtain rfl := h
    rw [ho.2.1] at hk
    cases hk
  | lockAcquire key ttlMs =>
    obtain rfl := h
    rw [KeyPrefix.not_starts ho.1 (by decide) (by decide)] at hk
    cases hk
  | delete key =>
    obtain ⟨p, hp, ⟨-, rfl⟩ | ⟨hf, m, -, rfl⟩⟩ := h
    · rfl
    · exact absurd (hsnap key p hp hk) hf

/-- The audit record is the one write under `events/`. -/
theorem Built.event (h : Built snap head req r ok ops staged) (hops : ∀ o ∈ ops, Askable snap o) :
    ∃ e, ∀ s ∈ staged, starts eventsPrefix s.key → s = e := by
  obtain ⟨resolved, hres, rfl⟩ := h
  refine ⟨eventWrite req (head + 1) ok (subsOf resolved), fun s hs hk ↦ ?_⟩
  simp only [List.mem_append] at hs
  obtain (hs | hs) | hs := hs
  · obtain ⟨o, ho, hr⟩ := hres.of_mem hs
    rw [hr.not_events (hops o ho)] at hk
    cases hk
  · split at hs
    · rw [List.mem_singleton.mp hs, requestWrite,
        KeyPrefix.not_starts (starts_requestKey _) (by decide) (by decide)] at hk
      cases hk
    · cases hs
  · split at hs
    · exact List.mem_singleton.mp hs
    · cases hs

theorem Built.mem (h : Built snap head req r ok ops staged) (hs : s ∈ staged) :
    (∃ o ∈ ops, ResolvesTo snap s o) ∨
      (r.idempotent ∧ s = requestWrite req.id (head + 1) ok) ∨
      ∃ subs, s = eventWrite req (head + 1) ok subs := by
  obtain ⟨resolved, hres, rfl⟩ := h
  simp only [List.mem_append] at hs
  obtain (hs | hs) | hs := hs
  · exact .inl (hres.of_mem hs)
  · split at hs <;> rename_i hi
    · exact .inr (.inl ⟨hi, List.mem_singleton.mp hs⟩)
    · cases hs
  · split at hs
    · exact .inr (.inr ⟨_, List.mem_singleton.mp hs⟩)
    · cases hs

/-- **A batch built at the head, for ops that may be asked for, is planned.** -/
theorem Built.planned (h : Built snap head req r ok ops staged) (hseen : Seen head snap w)
    (hh : w.store.head = head) (hops : ∀ o ∈ ops, Askable snap o) (hr : r.Of author req)
    (hfresh : r.idempotent → snap (requestKey req.id) = none)
    (hg : Guarded w author ok staged) : Planned w author ok staged := by
  have hcur := congrFun (hseen.cur hh)
  have hevent : w.cur (eventsKey (head + 1)) = none := by
    cases hi : w.cur (eventsKey (head + 1)) with
    | none => rfl
    | some i =>
      obtain ⟨main, hm, heq⟩ := hseen.reachable.events hi (starts_eventsKey _)
      rw [eventsKey_inj.mp heq.symm, hh] at hm
      omega
  subst hh
  refine ⟨fun s hs ↦ ?_, fun s hs hv ↦ ?_, fun s hs v p m hv hp hm ↦ ?_, fun s hs v hv hk ↦ ?_,
    fun s hs hk ↦ ?_, fun s hs s' hs' hk hk' ↦ ?_, fun s hs hk ↦ ?_, fun c req' hc hreq ↦ ?_, hg⟩
  · obtain ⟨o, ho, hres⟩ | ⟨hi, rfl⟩ | ⟨subs, rfl⟩ := h.mem hs
    · rw [hres.key_prev.2, hcur]
    · exact ((hcur _).trans (hfresh hi)).symm
    · exact hevent.symm
  · obtain ⟨o, ho, hres⟩ | ⟨hi, rfl⟩ | ⟨subs, rfl⟩ := h.mem hs
    · exact hres.removed hv
    · cases hv
    · cases hv
  · obtain ⟨o, ho, hres⟩ | ⟨hi, rfl⟩ | ⟨subs, rfl⟩ := h.mem hs
    · exact hres.kept (hops o ho) hv hp hm
    · cases hp
    · cases hp
  · obtain ⟨o, ho, hres⟩ | ⟨hi, rfl⟩ | ⟨subs, rfl⟩ := h.mem hs
    · exact hres.ttl (hops o ho) (fun _ _ ↦ hseen.ttl) hv hk
    · cases hv
      have hl : starts locksPrefix (requestKey req.id) = false :=
        KeyPrefix.not_starts (starts_requestKey _) (by decide) (by decide)
      rw [requestWrite, ttlMs, if_neg (by simp [hl]), ttlAllowed, starts_requestKey]
      rfl
    · rw [eventWrite, not_expires_events (starts_eventsKey _)] at hk
      cases hk
  · obtain ⟨o, ho, hres⟩ | ⟨hi, rfl⟩ | ⟨subs, rfl⟩ := h.mem hs
    · rw [hres.not_events (hops o ho)] at hk
      cases hk
    · rw [requestWrite, KeyPrefix.not_starts (starts_requestKey _) (by decide) (by decide)] at hk
      cases hk
    · rfl
  · obtain ⟨e, he⟩ := h.event hops
    rw [he s hs hk, he s' hs' hk']
  · obtain ⟨o, ho, hres⟩ | ⟨hi, rfl⟩ | ⟨subs, rfl⟩ := h.mem hs
    · exact .inl (hres.requests (hops o ho) (fun _ _ ↦ hseen.request) hk)
    · obtain ⟨c, hc, hreq⟩ := hr.2 hi
      exact .inr ⟨c, req, hc, hreq, rfl⟩
    · rw [eventWrite, KeyPrefix.not_starts (starts_eventsKey _) (by decide) (by decide)] at hk
      cases hk
  · obtain ⟨hi, rfl⟩ := hr.1 c req' hc hreq
    obtain ⟨resolved, -, rfl⟩ := h
    rw [if_pos hi]
    simp

end Plan

/-! ### The steps -/

/-- Every step is within `G`, and an answer is in `Q`, whatever the others do. -/
abbrev Within {α : Type} (G : World P → World P → Prop) (Q : α → World P → Prop) (v : Run P α)
    (w : World P) : Prop :=
  v.Keeps Later G Q (fun _ ↦ True) w

/-- Every step is one `Exact` allows, and an answer is in `Q`, whatever the others do. -/
abbrev Safe [DecidableEq P] {α : Type} (Q : α → World P → Prop) (v : Run P α) (w : World P) :
    Prop :=
  Within Exact Q v w

/-- `G` allows every step that commits nothing. -/
class Calm (G : World P → World P → Prop) : Prop where
  idle : ∀ w, G w w
  fail : ∀ {w : World P} {staged}, w.pending = none → G w (w.failed staged)
  stamp : ∀ w : World P, G w w.stamp
  drop : ∀ {w : World P} {now : ℕ} (keys : List String), w.pending = none → now ≤ w.mono →
    G w { w with deadlines := dropDue now w.deadlines keys }

instance [DecidableEq P] : Calm (P := P) Exact where
  idle := .idle
  fail := .fail
  stamp := .stamp
  drop := .drop

variable {G : World P → World P → Prop}

section Rules

variable {α β : Type} {head now : ℕ} {snap : String → Option (Item P)} {w w' : World P}
  {key : String}

theorem safe_bind {x : Run P α} {f : α → Run P β} {Q : α → World P → Prop}
    {Q' : β → World P → Prop} (hx : Within G Q x w) (hf : ∀ a w', Q a w' → Within G Q' (f a) w') :
    Within G Q' (x >>= f) w :=
  Verb.keeps_bind (fun _ ↦ .refl) (hx.imp hf)

theorem safe_pure {a : α} {Q : α → World P → Prop} (h : ∀ w', Later w w' → Q a w') :
    Within G Q (pure a) w :=
  Verb.keeps_pure h

theorem safe_throw {e : Error P} {Q : α → World P → Prop} : Within G Q (throw e) w :=
  Verb.keeps_throw trivial

theorem safe_stuck {Q : α → World P → Prop} : Within G Q Verb.stuck w := Verb.keeps_stuck

theorem safe_guarded {effect : World P → World P} {answer : World P → α}
    {Q : α → World P → Prop}
    (h : ∀ w', Later w w' → w'.pending = none → G w' (effect w') ∧
      ∀ w'', Later (effect w') w'' → Q (answer w') w'') :
    Within G Q (guarded effect answer) w := by
  refine Verb.keeps_atom fun w' hw' hfree ↦ ?_
  obtain ⟨hn, hq⟩ := h w' hw' (by simpa using hfree)
  refine ⟨hn, fun w'' hw'' ↦ ⟨fun a ha ↦ ?_, fun _ _ ↦ trivial⟩⟩
  cases ha
  exact hq w'' hw''

theorem pureCheck_safe {r : Except (Error P) α} :
    Within G (fun a w' ↦ r = .ok a ∧ Later w w') (pureCheck r) w := by
  cases r with
  | ok a => exact safe_pure fun w' hl ↦ ⟨rfl, hl⟩
  | error e => exact safe_throw

variable [Calm G]

theorem safe_look {answer : World P → Except (Error P) α} {Q : α → World P → Prop}
    (h : ∀ w', Later w w' → ∀ w'', Later w' w'' → ∀ a, answer w' = .ok a → Q a w'') :
    Within G Q (Verb.look answer) w :=
  Verb.keeps_look Calm.idle fun w' hw' w'' hw'' ↦ ⟨h w' hw' w'' hw'', fun _ _ ↦ trivial⟩

theorem head_keeps {E : Error P → Prop} (hw : Reachable w) :
    (Contract.head).Keeps Later G (fun head w' ↦ ∃ snap, Seen head snap w' ∧
      (∃ w₁, Later w w₁ ∧ w₁.cur = snap) ∧ Later w w') E w := by
  refine Verb.keeps_look Calm.idle fun w' hw' w'' hw'' ↦ ⟨fun head hh ↦ ?_, fun _ he ↦ (nomatch he)⟩
  cases hh
  have hw₁ := hw.later hw'
  exact ⟨w'.cur, Seen.later ⟨hw₁, w', hw₁, rfl, rfl, .refl w'⟩ hw'', ⟨w', hw', rfl⟩,
    hw'.trans hw''⟩

theorem head_safe (hw : Reachable w) :
    Within G (fun head w' ↦ ∃ snap, Seen head snap w' ∧ (∃ w₁, Later w w₁ ∧ w₁.cur = snap) ∧
      Later w w') Contract.head w :=
  head_keeps hw

/-- A read at a head that was seen fails only where that has been compacted. -/
theorem read_keeps (h : Seen head snap w) :
    (read key head).Keeps Later G (fun i w' ↦ i = snap key ∧ Seen head snap w' ∧ Later w w')
      Error.tooOld w := by
  refine Verb.keeps_look Calm.idle fun w' hw' w'' hw'' ↦ ⟨fun i hi ↦
    ⟨?_, h.later (hw'.trans hw''), hw'.trans hw''⟩, fun e he ↦ ?_⟩
  · rw [← (h.later hw').eq key]
    exact read_eq hi
  · exact read_error (h.later hw').le he

theorem read_safe (h : Seen head snap w) :
    Within G (fun i w' ↦ i = snap key ∧ Seen head snap w' ∧ Later w w') (read key head) w :=
  (read_keeps h).errors fun _ _ ↦ trivial

theorem nowMs_safe : Within G (fun now w' ↦ ∃ w₁, Later w w₁ ∧ w₁.mono = now ∧ Later w₁ w')
    (nowMs (P := P)) w := by
  refine safe_look fun w' hw' w'' hw'' now hn ↦ ?_
  cases hn
  exact ⟨w', hw', rfl, hw''⟩

theorem deadline_safe : Within G (fun _ w' ↦ Later w w') (deadline key) w :=
  safe_guarded fun w' hw' _ ↦ ⟨Calm.idle w', fun _ hw'' ↦ hw'.trans hw''⟩

theorem due_safe (hw : Reachable w) :
    Within G (fun keys w' ↦ (∀ key ∈ keys, expires key) ∧ Later w w') (due now) w := by
  refine safe_guarded fun w' hw' _ ↦ ⟨Calm.idle w', fun w'' hw'' ↦ ⟨fun key hkey ↦ ?_, hw'.trans hw''⟩⟩
  obtain ⟨e, he, rfl⟩ := List.mem_map.mp hkey
  exact (hw.later hw').timing.keys _ _ (KeyMap.mem_toList.mp (List.mem_filter.mp he).1)

theorem dropDeadlines_safe {keys : List String} (hnow : now ≤ w.mono) :
    Within G (fun _ w' ↦ Later w w') (dropDeadlines now keys) w :=
  safe_guarded fun _ hw' hfree ↦
    ⟨Calm.drop keys hfree (hnow.trans (Later.mono_le hw')),
      fun _ hw'' ↦ (hw'.tail (.drop keys hfree (hnow.trans (Later.mono_le hw')))).trans hw''⟩

/-- A lock is judged by the deadline it has, at a clock read before. -/
theorem live_safe (hs : Seen head snap w) :
    Within G (fun b w' ↦ w'.Judged head key b ∧ Later w w') (live key) w := by
  refine safe_bind nowMs_safe fun now w' ⟨w₁, h₁, hnow, h'⟩ ↦ ?_
  have hd : Within G (fun d w'' ↦ w''.Judged head key (d.any (now < ·)) ∧ Later w w'')
      (deadline key) w' := by
    refine safe_guarded fun w₂ h₂ hfree ↦ ⟨Calm.idle w₂, fun w₃ h₃ ↦ ⟨?_, ?_⟩⟩
    · have hs₁ := hs.later h₁
      exact ⟨w₁, w₂, hs₁.reachable, hs₁.le, h'.trans h₂, hfree, by rw [hnow], h₃⟩
    · exact h₁.trans (h'.trans (h₂.trans h₃))
  exact safe_bind hd fun d w₂ ⟨hj, h₂⟩ ↦ safe_pure fun w₃ h₃ ↦ ⟨hj.later h₃, h₂.trans h₃⟩

/-- A read at the head fails only where that has been compacted since. -/
theorem get_keeps (hw : Reachable w) :
    (get key).Keeps Later G (fun i w' ↦ (∃ w₁, Later w w₁ ∧ i = w₁.cur key) ∧ Later w w')
      Error.tooOld w :=
  Verb.keeps_bind (fun _ ↦ .refl) ((head_keeps hw).imp fun _ _ ⟨_, hs, ⟨w₁, h₁, hc⟩, hl⟩ ↦
    (read_keeps hs).imp fun _ _ h ↦ ⟨⟨w₁, h₁, by rw [h.1, hc]⟩, hl.trans h.2.2⟩)

theorem get_safe (hw : Reachable w) :
    Within G (fun i w' ↦ (∃ w₁, Later w w₁ ∧ i = w₁.cur key) ∧ Later w w') (get key) w :=
  (get_keeps hw).errors fun _ _ ↦ trivial

theorem isDue_safe (hs : Seen head snap w) (hnow : now ≤ w.mono) (hkey : expires key) :
    Within G (fun b w' ↦ (b = true → Ripe head key w') ∧ Later w w') (isDue key now) w := by
  -- The lock is free when the deadline is read, so the deadline is one of the head or a later one.
  have hd : Within G (fun d w' ↦ (d.all (· ≤ now) = true → Ripe head key w') ∧ Later w w')
      (deadline key) w := by
    refine safe_guarded fun w' hw' hfree ↦ ⟨Calm.idle w', fun w'' hw'' ↦ ⟨fun hdue ↦ ?_, hw'.trans hw''⟩⟩
    have hs' := hs.later hw'
    have hripe : Ripe head key w' := ⟨hs'.le, fun _ ↦ hs'.reachable.elapsed hfree
      (hnow.trans (Later.mono_le hw')) hkey hdue⟩
    exact hripe.later hw''
  refine safe_bind hd fun d w' ⟨hd, hl⟩ ↦ safe_pure fun w'' hl' ↦ ⟨fun h ↦ ?_, hl.trans hl'⟩
  exact (hd h).later hl'

end Rules

/-! ### Staging -/

section Stage

variable [Calm G] {head : ℕ} {snap : String → Option (Item P)} {w : World P}

/-- What an op is staged as: a delete of an absent key is not. -/
def StagesTo (snap : String → Option (Item P)) (o : Op P) : Option (Staged P) → Prop
  | some s => ResolvesTo snap s o
  | none => ∃ key, o = .delete key ∧ snap key = none

theorem stageOne_safe (hs : Seen head snap w) (o : Op P) :
    Within G (fun s w' ↦ StagesTo snap o s ∧ Later w w') (stageOne head o) w := by
  refine safe_bind (read_safe hs) fun prev w' ⟨hprev, _, hl⟩ ↦ ?_
  subst hprev
  cases o with
  | put key v => exact safe_pure fun w'' hl' ↦ ⟨rfl, hl.trans hl'⟩
  | lockAcquire key ttlMs => exact safe_pure fun w'' hl' ↦ ⟨rfl, hl.trans hl'⟩
  | delete key =>
    dsimp only [Op.key]
    cases hp : snap key with
    | none => exact safe_pure fun w'' hl' ↦ ⟨⟨key, rfl, hp⟩, hl.trans hl'⟩
    | some p =>
      dsimp only [Option.bind_some]
      split <;> rename_i hfin
      · exact safe_pure fun w'' hl' ↦ ⟨⟨p, hp, .inl ⟨hfin, rfl⟩⟩, hl.trans hl'⟩
      · cases hm : p.value.metadata.deletionTimestamp with
        | some m =>
          refine safe_pure fun w'' hl' ↦ ⟨⟨p, hp, .inr ⟨hfin, m, fun m' hm' ↦ ?_, rfl⟩⟩,
            hl.trans hl'⟩
          exact Option.some.inj (hm.symm.trans hm')
        | none =>
          have hwall : Within G (fun _ w'' ↦ Later w' w'') (wallMs (P := P)) w' :=
            safe_look fun _ h₁ _ h₂ _ _ ↦ h₁.trans h₂
          refine safe_bind hwall fun now w₂ h₂ ↦ safe_pure fun w₃ h₃ ↦
            ⟨⟨p, hp, .inr ⟨hfin, now, fun m' hm' ↦ ?_, rfl⟩⟩, hl.trans (h₂.trans h₃)⟩
          rw [Item.mark, hm] at hm'
          cases hm'

theorem stage_safe (hs : Seen head snap w) (ops : List (Op P)) :
    Within G (fun staged w' ↦ Resolved snap ops staged ∧ Later w w') (stage head ops) w := by
  induction ops generalizing w with
  | nil => exact safe_pure fun w' hl ↦ ⟨.nil, hl⟩
  | cons o ops ih =>
    refine safe_bind (stageOne_safe hs o) fun s w₁ ⟨hstages, h₁⟩ ↦
      safe_bind (ih (hs.later h₁)) fun rest w₂ ⟨hrest, h₂⟩ ↦
        safe_pure fun w₃ h₃ ↦ ⟨?_, h₁.trans (h₂.trans h₃)⟩
    cases s with
    | some s => exact .cons hstages hrest
    | none =>
      obtain ⟨key, rfl, hkey⟩ := hstages
      exact .dropped hkey hrest

theorem build_safe (hs : Seen head snap w) (req : Request P) (r : Record) (ok : Bool)
    (ops : List (Op P)) :
    Within G (fun staged w' ↦ Built snap head req r ok ops staged ∧ Later w w')
      (build req r ok ops head) w :=
  safe_bind (stage_safe hs ops) fun resolved _ ⟨hres, hl⟩ ↦
    safe_pure fun _ hl' ↦ ⟨⟨resolved, hres, rfl⟩, hl.trans hl'⟩

/-- **A batch is taken at the head it was planned at, or not at all.** -/
theorem commit_spares {H : World P → World P → Prop} [Calm H] {author : Author P} {ok : Bool}
    {staged : List (Staged P)} {E : Error P → Prop}
    (hp : ∀ w', Later w w' → w'.pending = none → w'.store.head = head →
      Next w' (w'.taken author ok staged) ∧ G w' (w'.taken author ok staged)) :
    (commit author ok head staged).Spares Later H G
      (fun r w' ↦ r = .ok (head + 1) ∧ Left author ok head w' ∧ Later w w')
      (fun r w' ↦ (∀ rev, r ≠ .ok rev) ∧ Later w w') E w := by
  have hcommit : (backendCommit author ok head staged).Spares Later H G
      (fun r w' ↦ r = .ok (head + 1) ∧ Left author ok head w' ∧ Later w w')
      (fun r w' ↦ (∀ rev, r ≠ .ok rev) ∧ Later w w') E w := by
    refine Verb.spares_atom fun w₁ h₁ hfree ↦ ?_
    have hfree : w₁.pending = none := by simpa using hfree
    by_cases hh : w₁.store.head = head
    · simp only [hh, ne_eq, not_true_eq_false, if_false]
      by_cases hf : w₁.failing
      · simp only [if_pos hf]
        refine .inl ⟨Calm.fail hfree, fun w₂ h₂ r hr ↦ ?_⟩
        cases hr
        exact ⟨by simp, (h₁.tail (.fail hfree)).trans h₂⟩
      · simp only [if_neg hf]
        obtain ⟨hn, hg⟩ := hp w₁ h₁ hfree hh
        have hleft : Left author ok head (w₁.taken author ok staged) :=
          ⟨⟨author, ok, w₁.store.head, staged, w₁.mono⟩, List.mem_cons_self, rfl, rfl, hh⟩
        refine .inr ⟨hg, fun w₂ h₂ ↦ ⟨fun r hr ↦ ?_, fun _ he ↦ (nomatch he)⟩⟩
        cases hr
        exact ⟨rfl, hleft.later h₂, (h₁.tail hn).trans h₂⟩
    · simp only [ne_eq, hh, not_false_eq_true, if_true]
      refine .inl ⟨Calm.idle w₁, fun w₂ h₂ r hr ↦ ?_⟩
      cases hr
      exact ⟨by simp, h₁.trans h₂⟩
  have hstamp {F : World P → World P → Prop} [Calm F] {E : Error P → Prop} (w₁ : World P) :
      (stampDeadlines (P := P)).Keeps Later F (fun _ w₂ ↦ Later w₁ w₂) E w₁ :=
    Verb.keeps_atom fun w₂ h₂ _ ↦ ⟨Calm.stamp w₂, fun w₃ h₃ ↦
      ⟨fun _ _ ↦ (h₂.tail (.stamp w₂)).trans h₃, fun _ he ↦ (nomatch he)⟩⟩
  refine Verb.spares_bind (fun _ ↦ .refl) (hcommit.imp (fun r w₁ ⟨hr, hleft, h₁⟩ ↦ ?_)
    fun r w₁ ⟨hr, h₁⟩ ↦ ?_)
  · subst hr
    exact Verb.keeps_bind (fun _ ↦ .refl) ((hstamp w₁).imp fun _ w₂ h₂ ↦
      Verb.keeps_pure fun w₃ h₃ ↦
        ⟨rfl, hleft.later (h₂.trans h₃), h₁.trans (h₂.trans h₃)⟩)
  · split
    · exact (safe_pure (G := H) fun w₂ h₂ ↦ ⟨by simp, h₁.trans h₂⟩).spares fun _ _ ↦ id
    · exact (safe_bind (G := H) (hstamp w₁) fun _ w₂ h₂ ↦
        safe_pure fun w₃ h₃ ↦ ⟨hr, h₁.trans (h₂.trans h₃)⟩).spares fun _ _ ↦ id

end Stage

/-! ### The engine -/

/-- What a plan found (`A`, which stays so) lets its ops be asked for and its batch be committed. -/
structure Sound (author : Author P) (req : Request P) (r : Record)
    (A : ℕ → (String → Option (Item P)) → Bool → List (Op P) → World P → Prop) : Prop where
  later : ∀ {head snap ok ops w w'}, A head snap ok ops w → Later w w' → A head snap ok ops w'
  ask : ∀ {head snap ok ops w}, Seen head snap w → A head snap ok ops w → ∀ o ∈ ops, Askable snap o
  guarded : ∀ {head snap ok ops w staged}, Seen head snap w → w.store.head = head →
    A head snap ok ops w → Built snap head req r ok ops staged → Guarded w author ok staged

/-- What an engine ends with; it stores nothing where its plan asks for nothing. -/
def Ended {T : Type} (author : Author P) (req : Request P) (r : Record)
    (A : ℕ → (String → Option (Item P)) → Bool → List (Op P) → World P → Prop) (D : T → Prop)
    (out : Outcome T) (w : World P) : Prop :=
  match out with
  | .done t => D t
  | .nothing head => ∃ snap ok, A head snap ok [] w ∧ (r.idempotent → ok = false)
  | .applied rev ok => ∃ head, rev = head + 1 ∧ Left author ok head w
  | .already rev ok => Recorded req rev ok w

section Engine

variable [Calm G] {head : ℕ} {snap : String → Option (Item P)} {w : World P} {author : Author P}
  {req : Request P} {r : Record} {cfg : Config P}

theorem already_safe (hs : Seen head snap w) :
    Within G (fun a w' ↦ (∀ rev ok, a = some (rev, ok) → Recorded req rev ok w') ∧
      (a = none → r.idempotent → snap (requestKey req.id) = none) ∧ Later w w')
      (already req r head) w := by
  rw [already]
  split <;> rename_i hi
  · refine safe_bind (read_safe hs) fun i w₁ ⟨hi, hs₁, h₁⟩ ↦ safe_pure fun w₂ h₂ ↦
      ⟨fun rev ok ha ↦ ?_, fun ha _ ↦ ?_, h₁.trans h₂⟩
    · obtain ⟨x, rfl, hx⟩ := Option.map_eq_some_iff.mp ha
      exact ⟨head, snap, x, hs₁.later h₂, hi.symm, hx⟩
    · rw [← hi]
      exact Option.map_eq_none_iff.mp ha
  · exact safe_pure fun w₁ h₁ ↦ ⟨fun rev ok ha ↦ (nomatch ha), fun _ h ↦ absurd h hi, h₁⟩

/-- **An engine whose plan is sound takes only batches planned at the head they are taken at**, and
ends with the one it takes. -/
theorem engine_spares {H : World P → World P → Prop} [Calm H] {T X : Type}
    {plan : ℕ → Run P (Step P T × X)}
    {A : ℕ → (String → Option (Item P)) → Bool → List (Op P) → World P → Prop} {D : T → Prop}
    {fuel : ℕ} {E : Error P → Prop} (hA : Sound author req r A) (hr : r.Of author req)
    (hplan : ∀ {w' : World P} {head snap}, Later w w' → Seen head snap w' →
      Within H (fun x w'' ↦ (∀ t, x.1 = .done t → D t) ∧
        (∀ ok ops, x.1 = .apply ok ops → A head snap ok ops w'') ∧ Later w' w'') (plan head) w')
    (htake : ∀ {w' : World P} {ok ops staged}, w'.pending = none → Planned w' author ok staged →
      A w'.store.head w'.cur ok ops w' → Built w'.cur w'.store.head req r ok ops staged →
      G w' (w'.taken author ok staged))
    (hw : Reachable w) :
    (engine cfg author req r plan fuel).Spares Later H G
      (fun out w' ↦ (∃ head ok, out.1 = .applied (head + 1) ok ∧ Left author ok head w') ∧
        Later w w')
      (fun out w' ↦ Ended author req r A D out.1 w' ∧ Later w w') E w := by
  have hrefl : ∀ w : World P, Later w w := fun _ ↦ .refl
  induction fuel generalizing w with
  | zero => exact Verb.spares_stuck
  | succ fuel ih =>
    refine (head_safe hw).spares_bind hrefl fun head w₁ ⟨snap, hs₁, _, h₁⟩ ↦
      (already_safe hs₁).spares_bind hrefl fun a w₂ ⟨hrec, hfresh, h₂⟩ ↦ ?_
    -- What ends here has taken nothing.
    have hend (x : Outcome T × Option X) {w₃ : World P} (h₃ : Later w w₃)
        (hx : ∀ w₄, Later w₃ w₄ → Ended author req r A D x.1 w₄) :
        (pure x : Run P _).Spares Later H G
          (fun out w' ↦ (∃ head ok, out.1 = .applied (head + 1) ok ∧ Left author ok head w') ∧
            Later w w')
          (fun out w' ↦ Ended author req r A D out.1 w' ∧ Later w w') E w₃ :=
      (safe_pure (G := H) fun w₄ h₄ ↦ ⟨hx w₄ h₄, h₃.trans h₄⟩).spares fun _ _ ↦ id
    cases a with
    | some main =>
      exact hend _ (h₁.trans h₂) fun w₃ h₃ ↦ (hrec main.1 main.2 rfl).later h₃
    | none =>
      refine (hplan (h₁.trans h₂) (hs₁.later h₂)).spares_bind hrefl
        fun x w₃ ⟨hdone, hx, h₃⟩ ↦ ?_
      have hs₃ := (hs₁.later h₂).later h₃
      have hw₃ : Later w w₃ := h₁.trans (h₂.trans h₃)
      obtain ⟨t | ⟨ok, ops⟩, x⟩ := x
      · exact hend _ hw₃ fun _ _ ↦ hdone t rfl
      have ha := hx ok ops rfl
      dsimp only
      split <;> rename_i hempty
      · simp only [Bool.and_eq_true, List.isEmpty_iff, Bool.or_eq_true, Bool.not_eq_eq_eq_not,
          Bool.not_true] at hempty
        obtain ⟨rfl, hnone⟩ := hempty
        exact hend _ hw₃ fun w₄ h₄ ↦ ⟨snap, ok, hA.later ha h₄, fun hi ↦
          (hnone.resolve_left (by simp [hi])).1⟩
      refine (build_safe hs₃ req r ok ops).spares_bind hrefl fun staged w₄ ⟨hb, h₄⟩ ↦
        pureCheck_safe.spares_bind hrefl fun _ w₅ ⟨_, h₅⟩ ↦ ?_
      have hs₅ := hs₃.later (h₄.trans h₅)
      have ha₅ := hA.later ha (h₄.trans h₅)
      have hw₅ : Later w w₅ := hw₃.trans (h₄.trans h₅)
      -- The head moves on or stays; while it stays, what was found still holds.
      have hp (w' : World P) (h' : Later w₅ w') (hfree : w'.pending = none)
          (hh : w'.store.head = head) :
          Next w' (w'.taken author ok staged) ∧ G w' (w'.taken author ok staged) := by
        have hs' := hs₅.later h'
        have ha' := hA.later ha₅ h'
        have hplanned : Planned w' author ok staged :=
          hb.planned hs' hh (hA.ask hs₅ ha₅) hr (hfresh rfl) (hA.guarded hs' hh ha' hb)
        refine ⟨.take hfree hplanned, @htake w' ok ops staged hfree hplanned ?_ ?_⟩
        · rwa [hs'.cur hh, hh]
        · rwa [hs'.cur hh, hh]
      refine Verb.spares_bind hrefl ((commit_spares hp).imp (fun res w₆ ⟨hres, hleft, h₆⟩ ↦ ?_)
        fun res w₆ ⟨hres, h₆⟩ ↦ ?_)
      · subst hres
        exact Verb.keeps_pure fun w₇ h₇ ↦
          ⟨⟨head, ok, rfl, hleft.later h₇⟩, hw₅.trans (h₆.trans h₇)⟩
      · cases res with
        | ok rev => exact absurd rfl (hres rev)
        | error e =>
          cases e with
          | stale expected head =>
            have hw₆ := hw₅.trans h₆
            exact (ih (fun h ↦ hplan (hw₆.trans h)) (hs₅.later h₆).reachable).imp
              (fun _ _ h ↦ ⟨h.1, hw₆.trans h.2⟩) fun _ _ h ↦ ⟨h.1, hw₆.trans h.2⟩
          | _ => exact Verb.spares_throw

theorem engine_safe {T X : Type} {plan : ℕ → Run P (Step P T × X)}
    {A : ℕ → (String → Option (Item P)) → Bool → List (Op P) → World P → Prop} {D : T → Prop}
    {fuel : ℕ} (hA : Sound author req r A) (hr : r.Of author req)
    (hplan : ∀ {w' : World P} {head snap}, Later w w' → Seen head snap w' →
      Within G (fun x w'' ↦ (∀ t, x.1 = .done t → D t) ∧
        (∀ ok ops, x.1 = .apply ok ops → A head snap ok ops w'') ∧ Later w' w'') (plan head) w')
    (htake : ∀ {w' : World P} {ok ops staged}, w'.pending = none → Planned w' author ok staged →
      A w'.store.head w'.cur ok ops w' → Built w'.cur w'.store.head req r ok ops staged →
      G w' (w'.taken author ok staged))
    (hw : Reachable w) :
    Within G (fun out w' ↦ Ended author req r A D out.1 w' ∧ Later w w')
      (engine cfg author req r plan fuel) w :=
  Verb.Spares.keeps <| (engine_spares hA hr hplan htake hw).imp
    (fun (out, _) _ ⟨⟨head, ok, ho, hleft⟩, hl⟩ ↦ ⟨by
      cases ho
      exact ⟨head, rfl, hleft⟩, hl⟩) fun _ _ ↦ id

end Engine

end Contract

end Spira.Store
