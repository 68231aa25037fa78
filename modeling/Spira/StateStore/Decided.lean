import Spira.StateStore.Deadlines

/-!
# What a commit was decided on

A verb decides at a snapshot: it evaluates its compares, picks its branch and resolves its ops.
`Chosen` says which branch a call takes at a snapshot and `Resolved` what the ops of a branch come
to there; neither looks at anything else, but for the locks, whose TTL runs on a clock (`Judged`).
A commit is `Decided` by a world when all of it is what these say of that world's head.

`Exact` is one step that commits only what was decided by the very world it is committed in.
-/

set_option autoImplicit false

namespace Spira.Store

open KeyPrefix (starts)

variable {P : Type}

/-! ## Locks and clocks -/

/-- The head was `head` at least when a look at the clock, and then at the deadline of `key`, found
the lock live or not. -/
def World.Judged (head : ℕ) (w : World P) (key : String) (live : Bool) : Prop :=
  ∃ w₁ w₂, Reachable w₁ ∧ head ≤ w₁.store.head ∧ Later w₁ w₂ ∧ w₂.pending = none ∧
    w₂.deadlines[key]?.any (w₁.mono < ·) = live ∧ Later w₂ w

theorem World.Judged.later {head : ℕ} {w w' : World P} {key : String} {live : Bool}
    (h : w.Judged head key live) (hl : Later w w') : w'.Judged head key live := by
  obtain ⟨w₁, w₂, hr, hh, h₁, hp, hlive, h₂⟩ := h
  exact ⟨w₁, w₂, hr, hh, h₁, hp, hlive, h₂.trans hl⟩

namespace Contract

/-! ## Compares -/

section Compares

variable [DecidableEq P]

/-- A compare at a snapshot, where the lock it asks for is live or not. -/
def Compare.holdsIn (snap : String → Option (Item P)) (live : Bool) : Compare P → Bool
  | .modRev key want => (snap key).map (·.modRev) == want
  | .createRev key want =>
    ((snap key).filter fun _ ↦ !starts locksPrefix key || live).map (·.createRev) == want
  | .value key want => (snap key).map (·.value) == want
  | .lockCheck key token => ((snap key).filter fun _ ↦ live).map (·.createRev) == some token

/-- The compare comes to `b` at a snapshot, whether or not its lock is live, or as that was
judged. -/
def Compare.Gives (snap : String → Option (Item P)) (J : String → Bool → Prop) (b : Bool)
    (c : Compare P) : Prop :=
  (∀ live, Compare.holdsIn snap live c = b) ∨ ∃ live, J c.key live ∧ Compare.holdsIn snap live c = b

/-- The branch a transaction takes at a snapshot: the then-branch where every compare holds and
every lock it takes is free. -/
def Takes (snap : String → Option (Item P)) (J : String → Bool → Prop) (t : TxnOps P) (ok : Bool) :
    Prop :=
  if ok then
    (∀ c ∈ t.compares, Compare.Gives snap J true c) ∧ ∀ k ∈ t.lockKeys, snap k = none
  else
    (∃ c ∈ t.compares, Compare.Gives snap J false c) ∨
      (∀ c ∈ t.compares, Compare.Gives snap J true c) ∧ ∃ k ∈ t.lockKeys, snap k ≠ none

variable {snap : String → Option (Item P)} {J J' : String → Bool → Prop}

theorem Compare.Gives.mono {b : Bool} {c : Compare P} (hJ : ∀ {k l}, J k l → J' k l)
    (h : Compare.Gives snap J b c) : Compare.Gives snap J' b c := by
  rcases h with h | ⟨live, hj, h⟩
  · exact .inl h
  · exact .inr ⟨live, hJ hj, h⟩

theorem Takes.mono {t : TxnOps P} {ok : Bool} (hJ : ∀ {k l}, J k l → J' k l)
    (h : Takes snap J t ok) : Takes snap J' t ok := by
  cases ok with
  | true => exact ⟨fun c hc ↦ (h.1 c hc).mono hJ, h.2⟩
  | false =>
    rcases h with ⟨c, hc, h⟩ | ⟨h, hk⟩
    · exact .inl ⟨c, hc, h.mono hJ⟩
    · exact .inr ⟨fun c hc ↦ (h c hc).mono hJ, hk⟩

/-- A lock check holds of the token its key has, and of no other. -/
theorem Compare.Gives.token {key : String} {token : Rev}
    (h : Compare.Gives snap J true (.lockCheck key token)) :
    ∃ i, snap key = some i ∧ i.createRev = token := by
  have hin : ∃ live, Compare.holdsIn snap live (.lockCheck key token) = true := by
    rcases h with h | ⟨live, -, h⟩
    · exact ⟨true, h true⟩
    · exact ⟨live, h⟩
  obtain ⟨live, h⟩ := hin
  rw [Compare.holdsIn] at h
  cases hi : snap key with
  | none => simp [hi] at h
  | some i =>
    cases live with
    | false => simp [hi] at h
    | true => exact ⟨i, rfl, by simpa [hi] using h⟩

end Compares

/-! ## The branch of a call -/

section Chosen

variable [DecidableEq P]

/-- The fence is that of the lock at its key. -/
def Holds (snap : String → Option (Item P)) (f : Fence) (i : Item P) : Prop :=
  snap f.key = some i ∧ i.createRev = f.token

/-- The branch a call takes at a snapshot, where its locks were judged as `J` says. -/
def Chosen (snap : String → Option (Item P)) (J : String → Bool → Prop) (ok : Bool)
    (ops : List (Op P)) : Call P → Prop
  | .create key value _ => ok = true ∧ ops = [.put key value] ∧ snap key = none
  | .txn t _ => ops = (if ok then t.ops else t.elseOps) ∧ Takes snap J t ok
  | .delete key expect _ =>
    ok = true ∧ ops = [.delete key] ∧ ∃ i, snap key = some i ∧ ∀ e, expect = some e → e = i.modRev
  | .lock resource ttlMs _ =>
    ok = true ∧ ops = [.put (lockKey resource) (lockValue ttlMs)] ∧ snap (lockKey resource) = none
  | .renew f _ => ok = true ∧ J f.key true ∧ ∃ i, Holds snap f i ∧ ops = [.put f.key i.value]
  | .renewFor f ttlMs _ =>
    ok = true ∧ J f.key true ∧ ops = [.put f.key (lockValue ttlMs)] ∧ ∃ i, Holds snap f i
  | .release f _ => ok = true ∧ ops = [.delete f.key] ∧ ∃ i, Holds snap f i
  | .tick _ => False

/-- A call's transaction is audited unless it writes telemetry only. -/
def Call.audited : Call P → Bool
  | .create key _ _ | .delete key _ _ => Spira.Store.audited [key]
  | .txn t _ => Spira.Store.audited ((t.ops ++ t.elseOps).map Op.key)
  | _ => true

theorem Chosen.mono {snap : String → Option (Item P)} {J J' : String → Bool → Prop} {ok : Bool}
    {ops : List (Op P)} {c : Call P} (hJ : ∀ {k l}, J k l → J' k l)
    (h : Chosen snap J ok ops c) : Chosen snap J' ok ops c := by
  cases c with
  | txn t req => exact ⟨h.1, h.2.mono hJ⟩
  | renew f req | renewFor f ttlMs req => exact ⟨h.1, hJ h.2.1, h.2.2⟩
  | _ => exact h

/-- Only a transaction's branch may be empty. -/
theorem Chosen.ne_nil {snap : String → Option (Item P)} {J : String → Bool → Prop} {ok : Bool}
    {c : Call P} (h : Chosen snap J ok [] c) : ∃ t req, c = .txn t req := by
  cases c with
  | txn t req => exact ⟨t, req, rfl⟩
  | renew f req =>
    obtain ⟨-, -, i, -, hops⟩ := h
    cases hops
  | renewFor f ttlMs req =>
    obtain ⟨-, -, hops, -⟩ := h
    cases hops
  | tick lag => exact h.elim
  | _ =>
    obtain ⟨-, hops, -⟩ := h
    cases hops

end Chosen

/-! ## Resolved ops -/

/-- What an op is resolved to against a snapshot. -/
def ResolvesTo (snap : String → Option (Item P)) (s : Staged P) : Op P → Prop
  | .put key v => s = ⟨key, some (keepMark ((snap key).bind Item.mark) v), snap key, .put⟩
  | .lockAcquire key ttlMs => s = ⟨key, some (lockValue ttlMs), snap key, .put⟩
  | .delete key => ∃ p, snap key = some p ∧
      (p.value.metadata.finalizers = [] ∧ s = ⟨key, none, some p, .delete⟩ ∨
        p.value.metadata.finalizers ≠ [] ∧ ∃ m, (∀ m', p.mark = some m' → m = m') ∧
          s = ⟨key, some (keepMark (some m) p.value), some p, .markDeleted⟩)

/-- What the ops of a branch are resolved to, one after the other. -/
inductive Resolved (snap : String → Option (Item P)) : List (Op P) → List (Staged P) → Prop
  | nil : Resolved snap [] []
  | cons {o : Op P} {s : Staged P} {ops : List (Op P)} {staged : List (Staged P)}
      (h : ResolvesTo snap s o) (rest : Resolved snap ops staged) :
      Resolved snap (o :: ops) (s :: staged)
  /-- A delete of an absent key is dropped. -/
  | dropped {key : String} {ops : List (Op P)} {staged : List (Staged P)} (h : snap key = none)
      (rest : Resolved snap ops staged) : Resolved snap (.delete key :: ops) staged

section Resolved

variable {snap : String → Option (Item P)} {ops : List (Op P)} {staged : List (Staged P)}

/-- What an op is resolved to is of its key. -/
theorem ResolvesTo.key_prev {s : Staged P} {o : Op P} (h : ResolvesTo snap s o) :
    s.key = o.key ∧ s.prev = snap s.key := by
  cases o with
  | put key v =>
    obtain rfl := h
    exact ⟨rfl, rfl⟩
  | lockAcquire key ttlMs =>
    obtain rfl := h
    exact ⟨rfl, rfl⟩
  | delete key =>
    obtain ⟨p, hp, ⟨-, rfl⟩ | ⟨-, m, -, rfl⟩⟩ := h
    · exact ⟨rfl, hp.symm⟩
    · exact ⟨rfl, hp.symm⟩

theorem Resolved.of_mem (h : Resolved snap ops staged) {s : Staged P} (hs : s ∈ staged) :
    ∃ o ∈ ops, ResolvesTo snap s o := by
  induction h with
  | nil => cases hs
  | @cons o s' ops staged hres _ ih =>
    rcases List.mem_cons.mp hs with rfl | hs
    · exact ⟨o, List.mem_cons_self, hres⟩
    · obtain ⟨o', ho', hr⟩ := ih hs
      exact ⟨o', List.mem_cons_of_mem _ ho', hr⟩
  | dropped _ _ ih =>
    obtain ⟨o', ho', hr⟩ := ih hs
    exact ⟨o', List.mem_cons_of_mem _ ho', hr⟩

/-- Only a delete may come to nothing. -/
theorem Resolved.put (h : Resolved snap ops staged) {o : Op P} (ho : o ∈ ops)
    (hne : ∀ key, o ≠ .delete key) : ∃ s ∈ staged, s.key = o.key := by
  induction h with
  | nil => cases ho
  | @cons o' s ops staged hres _ ih =>
    rcases List.mem_cons.mp ho with rfl | ho
    · exact ⟨s, List.mem_cons_self, hres.key_prev.1⟩
    · obtain ⟨x, hx, hk⟩ := ih ho
      exact ⟨x, List.mem_cons_of_mem _ hx, hk⟩
  | @dropped key _ _ _ _ ih =>
    rcases List.mem_cons.mp ho with rfl | ho
    · exact absurd rfl (hne key)
    · exact ih ho

/-- The batch a verb commits: what its ops resolve to, then its records. -/
def Built (snap : String → Option (Item P)) (head : ℕ) (req : Request P) (r : Record) (ok : Bool)
    (ops : List (Op P)) (staged : List (Staged P)) : Prop :=
  ∃ resolved, Resolved snap ops resolved ∧
    staged = resolved ++ (if r.idempotent then [requestWrite req.id (head + 1) ok] else []) ++
      (if r.audited then [eventWrite req (head + 1) ok (subsOf resolved)] else [])

end Resolved

/-! ## Decided commits -/

variable [DecidableEq P]

/-- All of a commit is what is said of the head of `w`. -/
def Decided (w : World P) (c : Committed P) : Prop :=
  match c.author with
  | .call call => ∃ req ops, call.req? = some req ∧
      Chosen w.cur (w.Judged c.head) c.ok ops call ∧
      Built w.cur c.head req ⟨Call.audited call, true, 0⟩ c.ok ops c.staged
  | .expire => ∃ keys : List String, (∀ k ∈ keys, w.Elapsed k) ∧
      Resolved w.cur (keys.map .delete) c.staged
  | .collect kind => ∃ (keys : List String) (audited : Bool),
      (∀ k ∈ keys, ∃ i, w.cur k = some i ∧ Collectable w.cur i kind) ∧
      Built w.cur c.head (gcRequest kind.text) ⟨audited, false, 0⟩ true (keys.map .delete) c.staged

/-- One step, and what it commits was decided by the world it is committed in. -/
structure Exact (w w' : World P) : Prop where
  next : Next w w'
  decided : ∀ c, w'.trace = .committed c :: w.trace → Decided w c

section Exact

variable {w : World P}

theorem Exact.of_trace {w' : World P} (h : Next w w') (ht : w'.trace = w.trace) : Exact w w' where
  next := h
  decided _ hc := absurd (ht ▸ hc) List.ne_cons_self

theorem Exact.idle (w : World P) : Exact w w := .of_trace (.idle w) rfl

theorem Exact.fail {staged : List (Staged P)} (hfree : w.pending = none) :
    Exact w (w.failed staged) where
  next := .fail hfree
  decided c hc := by cases hc

theorem Exact.stamp (w : World P) : Exact w w.stamp := .of_trace (.stamp w) (stamp_trace w)

theorem Exact.drop {now : ℕ} (keys : List String) (hfree : w.pending = none) (hnow : now ≤ w.mono) :
    Exact w { w with deadlines := dropDue now w.deadlines keys } :=
  .of_trace (.drop keys hfree hnow) rfl

theorem Exact.take {author : Author P} {ok : Bool} {staged : List (Staged P)}
    (hfree : w.pending = none) (hp : Planned w author ok staged)
    (hd : Decided w ⟨author, ok, w.store.head, staged, w.mono⟩) :
    Exact w (w.taken author ok staged) where
  next := .take hfree hp
  decided c hc := by
    obtain ⟨hc, -⟩ := List.cons.inj hc
    obtain rfl := Happened.committed.inj hc
    exact hd

end Exact

end Contract

end Spira.Store
