import Spira.StateStore.Effect

/-!
# Who touches a lock

The contract keeps its locks to itself: a transaction takes one where it is free and writes it in no
other way, so what may be done to a lock is said once (`LockOp`).  A lock is then always one the
contract wrote (`lock_values`), and once it is there a commit leaves it as it is, unless the lock is
past its TTL or the call is its holder's (`lock_touched`).
-/

set_option autoImplicit false

namespace Spira.Store

open KeyPrefix (starts)

namespace Contract

variable {P : Type}

/-- The call is one that is made with the fence. -/
def Call.heldBy (f : Fence) : Call P → Prop
  | .renew g _ | .renewFor g _ _ | .release g _ => g = f
  | _ => False

/-- What a commit of `author` may do to a lock at `snap`. -/
inductive LockOp (snap : String → Option (Item P)) (author : Author P) : Op P → Prop
  | acquire {key : String} {ttlMs : ℕ} (free : snap key = none) :
      LockOp snap author (.lockAcquire key ttlMs)
  | lock {key : String} {ttlMs : ℕ} (free : snap key = none) :
      LockOp snap author (.put key (lockValue ttlMs))
  | renew {f : Fence} {i : Item P} {c : Call P} {v : Object P} (ha : author = .call c)
      (hc : Call.heldBy f c) (hi : Holds snap f i) (hv : v = i.value ∨ ∃ ttlMs, v = lockValue ttlMs) :
      LockOp snap author (.put f.key v)
  | release {f : Fence} {i : Item P} {c : Call P} (ha : author = .call c) (hc : Call.heldBy f c)
      (hi : Holds snap f i) : LockOp snap author (.delete f.key)
  | expire {key : String} (ha : author = .expire) : LockOp snap author (.delete key)
  | collect {key : String} {kind : CollectKind} {i : Item P} (hi : snap key = some i)
      (hc : Collectable snap i kind) : LockOp snap author (.delete key)

section LockOp

variable {snap after : String → Option (Item P)} {J : String → Bool → Prop} {ok mayLock : Bool}
  {ops : List (Op P)} {o : Op P} {author : Author P} {cfg : Config P} {main : ℕ} {key : String}
  {i : Item P}

/-- The only op on a lock that a transaction is let do is to take it. -/
theorem lockAcquire_of_validateOp (h : validateOp mayLock o = .ok ())
    (hkey : starts locksPrefix o.key) : ∃ key ttlMs, o = .lockAcquire key ttlMs := by
  have hreserved {key : String} (hkey : starts locksPrefix key) : isReserved key = true := by
    rw [isReserved]
    simp [hkey]
  cases o with
  | put key v =>
    rw [Op.key] at hkey
    rw [validateOp_put, if_pos (hreserved hkey)] at h
    cases h
  | delete key =>
    rw [Op.key] at hkey
    rw [validateOp_delete, if_pos (hreserved hkey)] at h
    cases h
  | lockAcquire key ttlMs => exact ⟨key, ttlMs, rfl⟩

/-- An `else`-branch does nothing to a lock. -/
theorem no_lock_of_validate (h : validate ops false = .ok ()) (ho : o ∈ ops) :
    starts locksPrefix o.key = false := by
  by_contra hkey
  obtain ⟨key, ttlMs, rfl⟩ := lockAcquire_of_validateOp (validateOp_of_validate h ho)
    (by simpa using hkey)
  exact not_lockAcquire h ho

/-- **What is done to a lock** is one of these. -/
theorem Acts.lockOp [DecidableEq P] (h : Acts snap J ok ops author) (hp : ∀ c, author = .call c → Passes cfg c)
    (ho : o ∈ ops) (hkey : starts locksPrefix o.key) : LockOp snap author o := by
  cases author with
  | expire =>
    obtain ⟨keys, rfl, -⟩ := h
    obtain ⟨k, -, rfl⟩ := List.mem_map.mp ho
    exact .expire rfl
  | collect kind =>
    obtain ⟨keys, rfl, hkeys⟩ := h
    obtain ⟨k, hk, rfl⟩ := List.mem_map.mp ho
    obtain ⟨i, hi, hc⟩ := hkeys k hk
    exact .collect hi hc
  | call c =>
    have hp := hp c rfl
    have h : Chosen snap J ok ops c := h
    have hno {ops : List (Op P)} (hv : validate ops false = .ok ()) (ho : o ∈ ops) :
        LockOp snap (.call c) o := by
      have hfalse := no_lock_of_validate hv ho
      rw [hkey] at hfalse
      cases hfalse
    cases c with
    | create key value req =>
      obtain ⟨-, rfl, -⟩ := h
      exact hno hp.1 ho
    | delete key expect req =>
      obtain ⟨-, rfl, -⟩ := h
      exact hno hp.1 ho
    | txn t req =>
      obtain ⟨rfl, ht⟩ := h
      by_cases hok : ok = true
      · subst hok
        obtain ⟨key, ttlMs, rfl⟩ := lockAcquire_of_validateOp (validateOp_of_validate hp.1 ho) hkey
        exact .acquire (ht.2 key (mem_lockKeys.mpr ⟨ttlMs, ho⟩))
      · rw [if_neg hok] at ho
        exact hno hp.2.1 ho
    | lock resource ttlMs req =>
      obtain ⟨-, rfl, hfree⟩ := h
      obtain rfl := List.mem_singleton.mp ho
      exact .lock hfree
    | renew f req =>
      obtain ⟨-, -, i, hi, rfl⟩ := h
      obtain rfl := List.mem_singleton.mp ho
      exact .renew rfl rfl hi (.inl rfl)
    | renewFor f ttlMs req =>
      obtain ⟨-, -, rfl, i, hi⟩ := h
      obtain rfl := List.mem_singleton.mp ho
      exact .renew rfl rfl hi (.inr ⟨ttlMs, rfl⟩)
    | release f req =>
      obtain ⟨-, rfl, i, hi⟩ := h
      obtain rfl := List.mem_singleton.mp ho
      exact .release rfl rfl hi
    | tick lag => exact h.elim

theorem plain_of_lock (h : starts locksPrefix key) : Plain key :=
  ⟨KeyPrefix.not_starts h (by decide) (by decide), KeyPrefix.not_starts h (by decide) (by decide)⟩

/-- Every lock is one the contract wrote: it has a TTL, and nothing else. -/
def LocksWritten (snap : String → Option (Item P)) : Prop :=
  ∀ key i, starts locksPrefix key → snap key = some i → ∃ ttlMs, i.value = lockValue ttlMs

/-- A commit leaves the locks as the contract writes them. -/
theorem LocksWritten.commit (h : LocksWritten snap) (he : Effect snap after main ops)
    (hops : ∀ o ∈ ops, starts locksPrefix o.key → LockOp snap author o) : LocksWritten after := by
  intro key i hkey hi
  by_cases hex : ∃ o ∈ ops, o.key = key
  · obtain ⟨o, ho, rfl⟩ := hex
    have hwritten (v : Object P) (hv : ∃ ttlMs, v = lockValue ttlMs)
        (hput : (after o.key).map (·.value) = some v) : ∃ ttlMs, i.value = lockValue ttlMs := by
      rw [hi] at hput
      obtain rfl : i.value = v := Option.some.inj hput
      exact hv
    -- What is deleted has no finalizers, as no lock has.
    have hdeleted (hdel : .delete o.key ∈ ops) : ∃ ttlMs, i.value = lockValue ttlMs := by
      have hgone := he.delete hdel (plain_of_lock hkey) fun j hj ↦ by
        obtain ⟨ttlMs, hv⟩ := h _ j hkey hj
        rw [hv]
        rfl
      rw [hgone] at hi
      cases hi
    cases hops o ho hkey with
    | @acquire key ttlMs free =>
      obtain ⟨s, sub, hres, ha⟩ | ⟨hdel, -⟩ := he.resolved _ ho (plain_of_lock hkey)
      · obtain rfl : s = ⟨key, some (lockValue ttlMs), snap key, .put⟩ := hres
        exact hwritten _ ⟨ttlMs, rfl⟩ (by rw [ha]; rfl)
      · cases hdel
    | @lock key ttlMs free =>
      refine hwritten _ ⟨ttlMs, ?_⟩ (he.put ho (plain_of_lock hkey))
      rw [Op.key, free]
      rfl
    | @renew f j c v ha hc hj hv =>
      obtain ⟨ttlMs, hvalue⟩ := h _ j hkey hj.1
      refine hwritten _ ?_ (he.put ho (plain_of_lock hkey))
      have hmark : Item.mark j = none := by
        rw [Item.mark, hvalue]
        rfl
      rw [Op.key, hj.1, Option.bind_some, hmark]
      rcases hv with rfl | hv
      · exact ⟨ttlMs, hvalue⟩
      · exact hv
    | release => exact hdeleted ho
    | expire => exact hdeleted ho
    | collect => exact hdeleted ho
  · rw [he.untouched key (plain_of_lock hkey) fun o ho hk ↦ hex ⟨o, ho, hk⟩] at hi
    exact h key i hkey hi

/-- A lock is left as it is, or it is past its TTL, or its holder's call is made. -/
theorem LocksWritten.touched (h : LocksWritten snap) (he : Effect snap after main ops)
    (hops : ∀ o ∈ ops, starts locksPrefix o.key → LockOp snap author o)
    (hkey : starts locksPrefix key) (hi : snap key = some i) :
    after key = some i ∨ author = .expire ∨
      ∃ f c, author = .call c ∧ Call.heldBy f c ∧ f.key = key ∧ f.token = i.createRev := by
  by_cases hex : ∃ o ∈ ops, o.key = key
  · obtain ⟨o, ho, rfl⟩ := hex
    cases hops o ho hkey with
    | acquire free =>
      rw [Op.key, free] at hi
      cases hi
    | lock free =>
      rw [Op.key, free] at hi
      cases hi
    | @renew f j c v ha hc hj hv =>
      rw [Op.key, hj.1] at hi
      obtain rfl := Option.some.inj hi
      exact .inr (.inr ⟨f, c, ha, hc, rfl, hj.2.symm⟩)
    | @release f j c ha hc hj =>
      rw [Op.key, hj.1] at hi
      obtain rfl := Option.some.inj hi
      exact .inr (.inr ⟨f, c, ha, hc, rfl, hj.2.symm⟩)
    | expire ha => exact .inr (.inl ha)
    | @collect key kind j hj hc =>
      -- A lock is never marked and has no owner.
      obtain ⟨ttlMs, hvalue⟩ := h _ j hkey hj
      cases kind <;> simp [Collectable, Item.mark, hvalue, lockValue] at hc
  · left
    rw [he.untouched key (plain_of_lock hkey) fun o ho hk ↦ hex ⟨o, ho, hk⟩]
    exact hi

end LockOp

/-! ## In a run -/

section Run

variable [DecidableEq P] {cfg : Config P} {fuel : ℕ}

/-- **Every lock of a run is one the contract wrote.** -/
theorem lock_values (turns : List (Turn Env ℕ (Call P))) (n : ℕ) :
    LocksWritten ((worldAt cfg fuel turns).itemAt n) := by
  have hreachable : Reachable (worldAt cfg fuel turns) := (runs_keep turns).1
  refine hreachable.snapshots (fun _ _ _ hi ↦ ?_) (fun k hk h ↦ ?_) n
  · cases hi
  · obtain ⟨pre, ops, -, hacts, he⟩ := runs_effect turns hk
    exact h.commit he fun o ho hkey ↦ hacts.lockOp (fun c ha ↦ runs_passed turns hk ha) ho hkey

/-- **Once taken, a lock is its holder's**: a commit leaves it as it is, unless it expires or the
commit is for a call made with its token. -/
theorem lock_touched (turns : List (Turn Env ℕ (Call P))) {k : Committed P} {key : String}
    {i : Item P} (hk : .committed k ∈ (worldAt cfg fuel turns).trace)
    (hkey : starts locksPrefix key) (hi : (worldAt cfg fuel turns).itemAt k.head key = some i) :
    (worldAt cfg fuel turns).itemAt (k.head + 1) key = some i ∨ k.author = .expire ∨
      ∃ f c, k.author = .call c ∧ Call.heldBy f c ∧ f.key = key ∧ f.token = i.createRev := by
  obtain ⟨pre, ops, -, hacts, he⟩ := runs_effect turns hk
  exact (lock_values turns k.head).touched he
    (fun o ho hkey ↦ hacts.lockOp (fun c ha ↦ runs_passed turns hk ha) ho hkey) hkey hi

end Run

end Contract

end Spira.Store
