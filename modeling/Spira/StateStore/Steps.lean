import Mathlib.Logic.Relation
import Spira.StateStore.Contract

/-!
# What one step of anyone can do to a world

`Next` lists the changes a step makes: a batch is taken, as planned at the very head it is committed
at (`Planned`), or failed; the pending deadlines are set; deadlines that have passed are dropped; or
the surroundings move.  The programs are shown to keep to it in a file of their own.  Here is what
follows from `Next` alone: what is never lost (`Later`), and that every commit of a reachable world
was planned in the world it was made in (`Reachable.planned`).
-/

set_option autoImplicit false

namespace Spira.Store

open KeyPrefix (starts)
open Contract (eventWrite requestWrite)

variable {P : Type}

/-! ## Items -/

/-- The key at the head. -/
abbrev World.cur (w : World P) (key : String) : Option (Item P) := w.itemAt w.store.head key

def Item.mark (i : Item P) : Option ℕ := i.value.metadata.deletionTimestamp

/-- The last write of a key in a batch, with its place. -/
def lastOf (staged : List (Staged P)) (key : String) : Option (Staged P × ℕ) :=
  staged.zipIdx.reverse.find? (·.1.key = key)

/-- What a write of transaction `main` leaves of its key. -/
def Staged.item (main : ℕ) (p : Staged P × ℕ) : Option (Item P) :=
  p.1.value.map fun v ↦ ⟨p.1.key, v, ⟨main, p.2⟩, (p.1.prev.map (·.createRev)).getD ⟨main, p.2⟩⟩

theorem lastOf_some {staged : List (Staged P)} {key : String} {p : Staged P × ℕ}
    (h : lastOf staged key = some p) : p ∈ staged.zipIdx ∧ p.1 ∈ staged ∧ p.1.key = key := by
  have hmem : p ∈ staged.zipIdx := List.mem_reverse.mp (List.mem_of_find?_eq_some h)
  refine ⟨hmem, ?_, by simpa using List.find?_some h⟩
  rw [← List.zipIdx_map_fst 0 staged]
  exact List.mem_map_of_mem hmem

theorem lastOf_none {staged : List (Staged P)} {key : String} :
    lastOf staged key = none ↔ ∀ s ∈ staged, s.key ≠ key := by
  rw [lastOf, List.find?_eq_none]
  constructor
  · intro h s hs
    obtain ⟨i, hi, rfl⟩ := List.getElem_of_mem hs
    have := h (staged[i], i) (List.mem_reverse.mpr (List.mk_mem_zipIdx_iff_getElem?.mpr (by simp)))
    simpa using this
  · intro h p hp
    have := h p.1 (by
      rw [← List.zipIdx_map_fst 0 staged]
      exact List.mem_map_of_mem (List.mem_reverse.mp hp))
    simpa using this

theorem zipIdx_writesOf (main : ℕ) (staged : List (Staged P)) :
    (writesOf main staged).zipIdx = staged.zipIdx.map fun p ↦ (writeOf main p, p.2) := by
  refine List.ext_getElem (by simp [writesOf]) fun i h₁ h₂ ↦ ?_
  simp [writesOf]

@[simp] theorem writeOf_key (main : ℕ) (p : Staged P × ℕ) : (writeOf main p).key = p.1.key := by
  rw [writeOf]
  cases p.1.value <;> rfl

theorem itemAt_le {w : World P} {at_ : ℕ} {batch : List (Write String (Object P))} {key : String}
    (h : at_ ≤ w.store.head) :
    (snapshot (w.store.append batch).history at_)[key]?.map (Item.ofVersion key) =
      w.itemAt at_ key := by
  rw [Mvcc.snapshot_append h, World.itemAt]

/-- **At the new head, a key is what the batch last wrote of it, and otherwise what it was.** -/
theorem cur_taken {w : World P} {author : Author P} {ok : Bool} {staged : List (Staged P)}
    {key : String} :
    (w.taken author ok staged).cur key =
      match lastOf staged key with
      | some p => Staged.item (w.store.head + 1) p
      | none => w.cur key := by
  have hfind : ((writesOf (w.store.head + 1) staged).zipIdx.reverse.find? (·.1.key = key)) =
      (lastOf staged key).map fun p ↦ (writeOf (w.store.head + 1) p, p.2) := by
    rw [zipIdx_writesOf, ← List.map_reverse, List.find?_map, lastOf]
    congr 2
    funext p
    simp
  have hsnap : (w.taken author ok staged).cur key =
      (applyTxn (snapshot w.store.history w.store.head)
        ⟨w.store.head + 1, writesOf (w.store.head + 1) staged⟩)[key]?.map (Item.ofVersion key) := by
    rw [World.cur, World.itemAt, ← Mvcc.snapshot_append_head]
    rfl
  rw [hsnap, applyTxn, getElem?_foldl_applyWrite, hfind]
  cases h : lastOf staged key with
  | none => rfl
  | some p =>
    obtain ⟨-, -, rfl⟩ := lastOf_some h
    simp only [Option.map_some, Staged.item, writeOf]
    cases p.1.value <;> rfl

/-! ## Since when a key has been as it is -/

def Committed.writes (c : Committed P) (key : String) : Bool := c.staged.any (·.key = key)

/-- When the key was last written, or the store opened, whichever is later. -/
def touched (key : String) : List (Happened P) → ℕ
  | [] => 0
  | .opened now :: _ => now
  | .committed c :: rest => if c.writes key then c.now else touched key rest
  | .failed _ :: rest => touched key rest

/-- Whether a write of the key has failed since. -/
def spoiled (key : String) : List (Happened P) → Bool
  | [] => false
  | .opened _ :: _ => false
  | .committed c :: rest => !c.writes key && spoiled key rest
  | .failed staged :: rest => staged.any (·.key = key) || spoiled key rest

/-- The keys that may expire. -/
def expires (key : String) : Bool := starts locksPrefix key || ttlAllowed key

/-- The key's TTL has passed since it was last written, or a write of it has failed since. -/
def World.Elapsed (w : World P) (key : String) : Prop :=
  ∀ i, w.cur key = some i → ∃ ttl, ttlMs key i.value = some ttl ∧
    (touched key w.trace + ttl ≤ w.mono ∨ spoiled key w.trace)

/-! ## What a commit was planned on -/

/-- The request a call is made under. -/
def Call.req? : Call P → Option (Request P)
  | .create _ _ req | .txn _ req | .delete _ _ req | .lock _ _ req | .renew _ req
  | .renewFor _ _ req | .release _ req => some req
  | .tick _ => none

/-- The fence a call is made under. -/
def Call.fence? : Call P → Option Fence
  | .renew f _ | .renewFor f _ _ | .release f _ => some f
  | _ => none

/-- What a collector takes an item for, at a snapshot. -/
def Collectable (snap : String → Option (Item P)) (i : Item P) : CollectKind → Prop
  | .finalize => i.mark ≠ none ∧ i.value.metadata.finalizers = []
  | .orphan => i.value.metadata.ownerReferences ≠ [] ∧ i.mark = none ∧
      ∀ o ∈ i.value.metadata.ownerReferences, snap o = none

/-- What the author of a commit found at its head.  A then-branch runs under the fences it checks
and takes free locks, and its audit record has a place for each; a holder writes to its own lock,
under the token that lock has. -/
def Guarded (w : World P) (author : Author P) (ok : Bool) (staged : List (Staged P)) : Prop :=
  match author with
  | .call (.txn t req) => ok →
    (∀ key token, .lockCheck key token ∈ t.compares →
      ∃ i, w.cur key = some i ∧ i.createRev = token) ∧
    (∀ key ∈ t.lockKeys, w.cur key = none ∧ ∃ s ∈ staged, s.key = key) ∧
    (t.lockKeys ≠ [] → ∃ subs : List Sub, eventWrite req (w.store.head + 1) ok subs ∈ staged ∧
      ∀ key ∈ t.lockKeys, ∃ s ∈ subs, s.key = key)
  | .call (.lock resource _ _) =>
    w.cur (lockKey resource) = none ∧ ∃ s ∈ staged, s.key = lockKey resource
  | .call (.renew f _) | .call (.renewFor f _ _) | .call (.release f _) =>
    (∃ i, w.cur f.key = some i ∧ i.createRev = f.token) ∧
    ∀ s ∈ staged, starts locksPrefix s.key → s.key = f.key
  | .expire => ∀ s ∈ staged, s.value = none → w.Elapsed s.key
  | .collect kind => ∀ s ∈ staged, s.value = none →
    ∃ i, w.cur s.key = some i ∧ Collectable w.cur i kind
  | _ => True

/-- The batch was planned at the head of `w`. -/
structure Planned (w : World P) (author : Author P) (ok : Bool) (staged : List (Staged P)) :
    Prop where
  prev : ∀ s ∈ staged, s.prev = w.cur s.key
  /-- What is removed has no finalizers. -/
  removed : ∀ s ∈ staged, s.value = none →
    ∃ p, s.prev = some p ∧ p.value.metadata.finalizers = []
  /-- A mark stays as it is. -/
  kept : ∀ s ∈ staged, ∀ v p m, s.value = some v → s.prev = some p → p.mark = some m →
    v.metadata.deletionTimestamp = some m
  ttl : ∀ s ∈ staged, ∀ v, s.value = some v → expires s.key → (ttlMs s.key v).isSome
  events : ∀ s ∈ staged, starts eventsPrefix s.key → s.key = eventsKey (w.store.head + 1)
  /-- At most one write is an audit record. -/
  audit : ∀ s ∈ staged, ∀ s' ∈ staged, starts eventsPrefix s.key → starts eventsPrefix s'.key → s = s'
  /-- The record of a request is removed, or it is that of the call itself. -/
  requests : ∀ s ∈ staged, starts requestsPrefix s.key → s.value = none ∨
    ∃ c req, author = .call c ∧ c.req? = some req ∧
      s = requestWrite req.id (w.store.head + 1) ok
  recorded : ∀ c req, author = .call c → c.req? = some req →
    requestWrite req.id (w.store.head + 1) ok ∈ staged
  guarded : Guarded w author ok staged

/-! ## One step -/

/-- What one step of anyone does. -/
inductive Next : World P → World P → Prop
  | idle (w : World P) : Next w w
  | take {w : World P} {author : Author P} {ok : Bool} {staged : List (Staged P)}
      (hfree : w.pending = none) (hp : Planned w author ok staged) :
      Next w (w.taken author ok staged)
  | fail {w : World P} {staged : List (Staged P)} (hfree : w.pending = none) :
      Next w (w.failed staged)
  | stamp (w : World P) : Next w w.stamp
  | drop {w : World P} {now : ℕ} (keys : List String) (hfree : w.pending = none)
      (hnow : now ≤ w.mono) : Next w { w with deadlines := dropDue now w.deadlines keys }
  | env (e : Env) (w : World P) : Next w (w.env e)

/-- Any number of steps. -/
abbrev Later : World P → World P → Prop := Relation.ReflTransGen Next

/-- The worlds steps lead to from the first, with any number of openings. -/
inductive Reachable : World P → Prop
  | init : Reachable (World.init P)
  | next {w w' : World P} (h : Reachable w) (hn : Next w w') : Reachable w'
  | reopen {w : World P} (h : Reachable w) (now : ℕ) : Reachable (w.reopen now)

theorem Reachable.later {w w' : World P} (h : Reachable w) (hl : Later w w') : Reachable w' := by
  induction hl with
  | refl => exact h
  | tail _ hn ih => exact ih.next hn

/-! ## What is never lost -/

/-- `w'` has what `w` has: its head, its snapshots and its trace. -/
structure Grows (w w' : World P) : Prop where
  head_le : w.store.head ≤ w'.store.head
  itemAt_eq : ∀ at_ ≤ w.store.head, ∀ key, w'.itemAt at_ key = w.itemAt at_ key
  trace : w.trace <:+ w'.trace

theorem Grows.refl (w : World P) : Grows w w := ⟨le_refl _, fun _ _ _ ↦ rfl, List.suffix_refl _⟩

theorem Grows.trans {a b c : World P} (h : Grows a b) (h' : Grows b c) : Grows a c where
  head_le := h.head_le.trans h'.head_le
  itemAt_eq at_ hat key :=
    (h'.itemAt_eq at_ (hat.trans h.head_le) key).trans (h.itemAt_eq at_ hat key)
  trace := h.trace.trans h'.trace

@[simp] theorem stamp_store (w : World P) : w.stamp.store = w.store := by
  rw [World.stamp]
  split <;> rfl

@[simp] theorem stamp_trace (w : World P) : w.stamp.trace = w.trace := by
  rw [World.stamp]
  split <;> rfl

@[simp] theorem stamp_mono (w : World P) : w.stamp.mono = w.mono := by
  rw [World.stamp]
  split <;> rfl

@[simp] theorem env_trace (e : Env) (w : World P) : (w.env e).trace = w.trace := by
  cases e with
  | jump through =>
    rw [World.env]
    split <;> rfl
  | _ => rfl

theorem grows_taken (w : World P) (author : Author P) (ok : Bool) (staged : List (Staged P)) :
    Grows w (w.taken author ok staged) where
  head_le := Nat.le_succ _
  itemAt_eq _ hat _ := itemAt_le hat
  trace := List.suffix_cons _ _

theorem grows_env (e : Env) (w : World P) : Grows w (w.env e) := by
  cases e with
  | jump through =>
    rw [World.env]
    split <;> rename_i h
    · exact ⟨h.le, fun _ _ _ ↦ rfl, List.suffix_refl _⟩
    · exact .refl w
  | _ => exact ⟨le_refl _, fun _ _ _ ↦ rfl, List.suffix_refl _⟩

theorem Next.grows {w w' : World P} (h : Next w w') : Grows w w' := by
  cases h with
  | idle => exact .refl w
  | take hfree hp => exact grows_taken w _ _ _
  | fail hfree => exact ⟨le_refl _, fun _ _ _ ↦ rfl, List.suffix_cons _ _⟩
  | stamp =>
    refine ⟨by rw [stamp_store], fun at_ _ key ↦ ?_, (stamp_trace w).symm ▸ List.suffix_refl _⟩
    rw [World.itemAt, stamp_store, World.itemAt]
  | drop keys hfree hnow => exact ⟨le_refl _, fun _ _ _ ↦ rfl, List.suffix_refl _⟩
  | env e => exact grows_env e w

theorem Later.grows {w w' : World P} (h : Later w w') : Grows w w' := by
  induction h with
  | refl => exact .refl w
  | tail _ hn ih => exact ih.trans hn.grows

theorem Next.mono_le {w w' : World P} (h : Next w w') : w.mono ≤ w'.mono := by
  cases h with
  | idle => exact le_refl _
  | take hfree hp => exact le_refl _
  | fail hfree => exact le_refl _
  | stamp => rw [stamp_mono]
  | drop keys hfree hnow => exact le_refl _
  | env e =>
    cases e with
    | advance d => exact Nat.le_add_right _ _
    | jump through =>
      rw [World.env]
      split <;> exact le_refl _
    | _ => exact le_refl _

theorem Later.mono_le {w w' : World P} (h : Later w w') : w.mono ≤ w'.mono := by
  induction h with
  | refl => exact le_refl _
  | tail _ hn ih => exact ih.trans hn.mono_le

theorem Next.compacted_le {w w' : World P} (h : Next w w') : w.store.compacted ≤ w'.store.compacted := by
  cases h with
  | stamp => rw [stamp_store]
  | env e =>
    cases e with
    | compact rev => exact le_max_left _ _
    | jump through =>
      rw [World.env]
      split <;> exact le_refl _
    | _ => exact le_refl _
  | _ => exact le_refl _

theorem Later.compacted_le {w w' : World P} (h : Later w w') : w.store.compacted ≤ w'.store.compacted := by
  induction h with
  | refl => exact le_refl _
  | tail _ hn ih => exact ih.trans hn.compacted_le

theorem grows_reopen (now : ℕ) (w : World P) : Grows w (w.reopen now) :=
  ⟨le_refl _, fun _ _ _ ↦ rfl, List.suffix_cons _ _⟩

/-- `w₀` is the world `c` was committed in, and `post` what had happened before. -/
structure MadeIn (w₀ : World P) (c : Committed P) (post : List (Happened P)) : Prop where
  reachable : Reachable w₀
  free : w₀.pending = none
  planned : Planned w₀ c.author c.ok c.staged
  head : w₀.store.head = c.head
  now : w₀.mono = c.now
  trace : w₀.trace = post

/-- A step adds at most one event to the trace, and a commit only where it takes the batch. -/
theorem Next.trace {w w' : World P} (h : Next w w') {c : Committed P} {post : List (Happened P)}
    (hc : .committed c :: post <:+ w'.trace) :
    .committed c :: post <:+ w.trace ∨
      (w.pending = none ∧ Planned w c.author c.ok c.staged ∧ w.store.head = c.head ∧
        w.mono = c.now ∧ w.trace = post ∧ w' = w.taken c.author c.ok c.staged) := by
  cases h with
  | idle => exact .inl hc
  | take hfree hp =>
    obtain heq | hc := List.suffix_cons_iff.mp hc
    · obtain ⟨hc', rfl⟩ := List.cons.inj heq
      obtain rfl := Happened.committed.inj hc'
      exact .inr ⟨hfree, hp, rfl, rfl, rfl, rfl⟩
    · exact .inl hc
  | fail hfree =>
    obtain heq | hc := List.suffix_cons_iff.mp hc
    · simp at heq
    · exact .inl hc
  | stamp => exact .inl (by rwa [stamp_trace] at hc)
  | drop keys hfree hnow => exact .inl hc
  | env e => exact .inl (by rwa [env_trace] at hc)

theorem exists_suffix_of_mem {α : Type} {l : List α} {a : α} (h : a ∈ l) :
    ∃ post, a :: post <:+ l := by
  obtain ⟨pre, post, rfl⟩ := List.append_of_mem h
  exact ⟨post, List.suffix_append _ _⟩

/-- **Every commit of a reachable world was planned in the reachable world it was made in**, and
this one has grown from what it left. -/
theorem Reachable.planned {w : World P} (h : Reachable w) {c : Committed P}
    {post : List (Happened P)} (hc : .committed c :: post <:+ w.trace) :
    ∃ w₀, MadeIn w₀ c post ∧ Grows (w₀.taken c.author c.ok c.staged) w := by
  induction h with
  | init =>
    obtain heq | hc := List.suffix_cons_iff.mp hc
    · simp at heq
    · simp at hc
  | @next w w' hw hn ih =>
    obtain hc | ⟨hf, hp, hh, hm, ht, rfl⟩ := hn.trace hc
    · obtain ⟨w₀, h₀, hg⟩ := ih hc
      exact ⟨w₀, h₀, hg.trans hn.grows⟩
    · exact ⟨w, ⟨hw, hf, hp, hh, hm, ht⟩, .refl _⟩
  | @reopen w hw now ih =>
    obtain heq | hc := List.suffix_cons_iff.mp hc
    · simp at heq
    · obtain ⟨w₀, h₀, hg⟩ := ih hc
      exact ⟨w₀, h₀, hg.trans (grows_reopen now w)⟩

/-- A commit of the trace is below the head. -/
theorem Reachable.head_lt {w : World P} (h : Reachable w) {c : Committed P}
    (hc : .committed c ∈ w.trace) : c.head < w.store.head := by
  obtain ⟨post, hpost⟩ := exists_suffix_of_mem hc
  obtain ⟨w₀, h₀, hg⟩ := h.planned hpost
  have hle := hg.head_le
  rw [World.taken, Mvcc.append_head, h₀.head] at hle
  exact hle

/-! ## What the head has -/

section Cur

variable {w w' : World P} {key : String} {i : Item P}

@[simp] theorem cur_stamp : w.stamp.cur key = w.cur key := by
  simp only [World.cur, World.itemAt, stamp_store]

@[simp] theorem cur_failed {staged : List (Staged P)} : (w.failed staged).cur key = w.cur key := rfl

@[simp] theorem cur_reopen {now : ℕ} : (w.reopen now).cur key = w.cur key := rfl

/-- A head that moves over unused revisions sees what it saw. -/
@[simp] theorem cur_env (e : Env) : (w.env e).cur key = w.cur key := by
  cases e with
  | jump through =>
    rw [World.env]
    split <;> rename_i h
    · simp only [World.cur, World.itemAt, Mvcc.jump_history, Mvcc.jump_head]
      rw [Mvcc.snapshot_of_head_le h.le, Mvcc.snapshot_of_head_le (le_refl _)]
    · rfl
  | _ => rfl

/-- An item of the new head is one the batch wrote, or one of the old head. -/
theorem cur_taken_cases {author : Author P} {ok : Bool} {staged : List (Staged P)}
    (h : (w.taken author ok staged).cur key = some i) :
    (∃ p v, lastOf staged key = some p ∧ p ∈ staged.zipIdx ∧ p.1 ∈ staged ∧ p.1.key = key ∧
      p.1.value = some v ∧
      i = ⟨key, v, ⟨w.store.head + 1, p.2⟩,
        (p.1.prev.map (·.createRev)).getD ⟨w.store.head + 1, p.2⟩⟩) ∨
    ((∀ s ∈ staged, s.key ≠ key) ∧ w.cur key = some i) := by
  rw [cur_taken] at h
  cases hl : lastOf staged key with
  | none =>
    rw [hl] at h
    exact .inr ⟨lastOf_none.mp hl, h⟩
  | some p =>
    obtain ⟨hp, hmem, hkey⟩ := lastOf_some hl
    rw [hl] at h
    obtain ⟨v, hv, hi⟩ := Option.map_eq_some_iff.mp h
    subst hkey
    exact .inl ⟨p, v, rfl, hp, hmem, rfl, hv, hi.symm⟩

/-- **A property of the items of the head holds in every reachable world** if every batch taken
there gives it to what it writes and keeps it of what it leaves. -/
theorem Reachable.forall_cur {Q : World P → String → Item P → Prop}
    (hgrow : ∀ {w w' : World P} {k i}, Grows w w' → Q w k i → Q w' k i)
    (hwrite : ∀ {w : World P} {author ok staged} {p : Staged P × ℕ} {v}, Reachable w →
      (∀ k i, w.cur k = some i → Q w k i) → Planned w author ok staged → p ∈ staged.zipIdx →
      p.1 ∈ staged → p.1.value = some v →
      Q (w.taken author ok staged) p.1.key ⟨p.1.key, v, ⟨w.store.head + 1, p.2⟩,
        (p.1.prev.map (·.createRev)).getD ⟨w.store.head + 1, p.2⟩⟩)
    (h : Reachable w) (hi : w.cur key = some i) : Q w key i := by
  induction h generalizing key i with
  | init => simp [World.init, World.cur, World.itemAt, snapshot, Mvcc.empty] at hi
  | @next w w' hw hn ih =>
    cases hn with
    | idle => exact ih hi
    | take hfree hp =>
      obtain ⟨p, v, -, hz, hmem, rfl, hv, rfl⟩ | ⟨-, hi⟩ := cur_taken_cases hi
      · exact hwrite hw (fun k i hk ↦ ih hk) hp hz hmem hv
      · exact hgrow (grows_taken w _ _ _) (ih hi)
    | fail hfree => exact hgrow (Next.fail hfree).grows (ih hi)
    | stamp =>
      rw [cur_stamp] at hi
      exact hgrow (Next.stamp w).grows (ih hi)
    | drop keys hfree hnow => exact hgrow (Next.drop keys hfree hnow).grows (ih hi)
    | env e =>
      rw [cur_env] at hi
      exact hgrow (grows_env e w) (ih hi)
  | @reopen w hw now ih => exact hgrow (grows_reopen now w) (ih hi)

/-- A key under `events/` is the audit record of a transaction committed. -/
theorem Reachable.events (h : Reachable w) (hi : w.cur key = some i)
    (hk : starts eventsPrefix key) : ∃ main ≤ w.store.head, key = eventsKey main := by
  refine h.forall_cur (Q := fun w k _ ↦ starts eventsPrefix k →
    ∃ main ≤ w.store.head, k = eventsKey main) (fun hg hq hk ↦ ?_) ?_ hi hk
  · obtain ⟨main, hm, rfl⟩ := hq hk
    exact ⟨main, hm.trans hg.head_le, rfl⟩
  · intro w author ok staged p v _ _ hp _ hmem _ hk
    exact ⟨w.store.head + 1, le_refl _, hp.events p.1 hmem hk⟩

theorem Planned.event_value {author : Author P} {ok : Bool} {staged : List (Staged P)}
    {s : Staged P} (hp : Planned w author ok staged) (hw : Reachable w) (hs : s ∈ staged)
    (hk : starts eventsPrefix s.key) : ∃ v, s.value = some v := by
  by_contra hv
  obtain ⟨p, hprev, -⟩ := hp.removed s hs (Option.not_isSome_iff_eq_none.mp fun h ↦
    hv (Option.isSome_iff_exists.mp h))
  rw [hp.prev s hs] at hprev
  obtain ⟨main, hm, heq⟩ := hw.events hprev hk
  rw [hp.events s hs hk, eventsKey_inj] at heq
  omega

/-- **An audit record stays as it was committed.** -/
theorem Reachable.audit (h : Reachable w) {c : Committed P} (hc : .committed c ∈ w.trace)
    {s : Staged P} (hs : s ∈ c.staged) (hk : starts eventsPrefix s.key) :
    ∃ i, w.cur s.key = some i ∧ s.value = some i.value := by
  induction h with
  | init => simp [World.init] at hc
  | @next w w' hw hn ih =>
    cases hn with
    | idle => exact ih hc
    | @take _ author ok staged hfree hp =>
      obtain hc | hc := List.mem_cons.mp hc
      · obtain rfl := Happened.committed.inj hc
        obtain ⟨v, hv⟩ := hp.event_value hw hs hk
        -- It is the one write of its key, so the last.
        cases hl : lastOf staged s.key with
        | none => exact absurd rfl (lastOf_none.mp hl s hs)
        | some p =>
          obtain ⟨-, hmem, hkey⟩ := lastOf_some hl
          have hps : p.1 = s := hp.audit _ hmem s hs (by rwa [hkey]) hk
          rw [cur_taken, hl]
          simp [Staged.item, hps, hv]
      · obtain ⟨i, hi, hv⟩ := ih hc
        refine ⟨i, ?_, hv⟩
        have hl : lastOf staged s.key = none := by
          refine lastOf_none.mpr fun s' hs' heq ↦ ?_
          obtain ⟨main, hm, hmain⟩ := hw.events hi hk
          rw [← heq] at hk hmain
          rw [hp.events s' hs' hk, eventsKey_inj] at hmain
          omega
        rw [cur_taken, hl]
        exact hi
    | fail hfree => exact ih (List.mem_of_ne_of_mem (by simp) hc)
    | stamp =>
      rw [stamp_trace] at hc
      rw [cur_stamp]
      exact ih hc
    | drop keys hfree hnow => exact ih hc
    | env e =>
      rw [cur_env]
      exact ih (by rwa [env_trace] at hc)
  | @reopen w hw now ih => exact ih (List.mem_of_ne_of_mem (by simp) hc)

/-- Every key that may expire has a TTL. -/
theorem Reachable.ttl (h : Reachable w) (hi : w.cur key = some i) (hk : expires key) :
    (ttlMs key i.value).isSome := by
  refine h.forall_cur (Q := fun _ k i ↦ expires k → (ttlMs k i.value).isSome)
    (fun _ hq ↦ hq) ?_ hi hk
  intro w author ok staged p v _ _ hp _ hmem hv hk
  exact hp.ttl p.1 hmem v hv hk

/-- The record of a request was written by a call made under it, at the revision it names. -/
theorem Reachable.request (h : Reachable w) (hi : w.cur key = some i)
    (hk : starts requestsPrefix key) :
    ∃ c call req, .committed c ∈ w.trace ∧ c.author = .call call ∧ call.req? = some req ∧
      key = requestKey req.id ∧ i.modRev.main = c.head + 1 ∧
      (requestWrite req.id (c.head + 1) c.ok).value = some i.value := by
  refine h.forall_cur (Q := fun w k i ↦ starts requestsPrefix k →
    ∃ c call req, .committed c ∈ w.trace ∧ c.author = .call call ∧ call.req? = some req ∧
      k = requestKey req.id ∧ i.modRev.main = c.head + 1 ∧
      (requestWrite req.id (c.head + 1) c.ok).value = some i.value) (fun hg hq hk ↦ ?_) ?_ hi hk
  · obtain ⟨c, call, req, hc, rest⟩ := hq hk
    exact ⟨c, call, req, hg.trace.mem hc, rest⟩
  · intro w author ok staged p v _ _ hp _ hmem hv hk
    obtain hnone | ⟨call, req, rfl, hreq, hs⟩ := hp.requests p.1 hmem hk
    · rw [hnone] at hv
      cases hv
    · refine ⟨_, call, req, List.mem_cons_self, rfl, hreq, ?_, rfl, ?_⟩
      · rw [hs]
        rfl
      · rw [← hv, hs]

end Cur

end Spira.Store
