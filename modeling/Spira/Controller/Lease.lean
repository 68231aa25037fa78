import Spira.Controller.World

/-!
# Leases on rounds

A lease is a lock and its token, the revision the lock was created at.  Every write a holder makes
is a transaction that compares the token, so a holder whose lease lapsed writes nothing.
-/

set_option autoImplicit false

namespace Spira.Controller

structure Lease where
  batch : String
  token : ℕ
  deriving DecidableEq

inductive LeaseError
  /-- Another holder's live lease.  There is no holder when no record names it. -/
  | held (holder : Option String) (token : ℕ)
  /-- The lease lapsed or was taken under another token. -/
  | lost
  /-- A terminal round is never leased. -/
  | terminal
  | store (why : String)
  deriving DecidableEq

/-- The live lease on a round, if any: the holder its record names with this token, and the token.
-/
def holderOf (batch : String) : Run String (Option (Option String × ℕ)) := do
  match ← get (.roundLock batch) with
  | none => return none
  | some lock =>
    let holder ← match ← Verb.tried (get (.round batch)) with
      | .ok (some item) =>
        if item.value.lastLeaseToken = some lock.createRev then pure item.value.leaseHolder
        else pure none
      | _ => pure none
    return some (holder, lock.createRev)

/-- Every write a holder of the lease makes. -/
def fencedTxn (lease : Lease) (compares : List Compare) (ops : List Op) : Txn :=
  ⟨compares ++ [.createRev (.roundLock lease.batch) (some lease.token)], ops⟩

def readRecord (repo batch : String) : Run LeaseError (Item (.round batch)) := do
  match ← (get (.round batch)).mapError .store with
  | none => throw (.store s!"{Key.text repo (.round batch)} does not exist")
  | some item => if item.value.row.state.isTerminal then throw .terminal else return item

def recordToken (repo : String) (lease : Lease) : ℕ → Run LeaseError Unit
  | 0 => throw (.store
      s!"{Key.text repo (.round lease.batch)} moved under {tries} tries to record the lease")
  | n + 1 => do
    let item ← readRecord repo lease.batch
    let written ← (txn silent (fencedTxn lease [.modRev (.round lease.batch) (some item.modRev)]
      [.put (.round lease.batch) { item.value with lastLeaseToken := some lease.token }])).mapError
        .store
    if written.isSome then return
    match ← (holderOf lease.batch).mapError .store with
    | some (_, token) => if token = lease.token then recordToken repo lease n else throw .lost
    | none => throw .lost

def Lease.release (lease : Lease) : Run LeaseError Unit := do
  let released ← (txn silent (fencedTxn lease [] [.delete (.roundLock lease.batch)])).mapError .store
  if released.isNone then throw .lost

/-- Takes the round for a holder, and tells of the lease as it is taken.  The lock is taken in one
transaction with the holder's name, and then the token is written, fenced: a transaction cannot name
the token it is minting. -/
def acquireTelling (told : Round → World → List Happened) (repo batch holder : String) :
    ℕ → Run LeaseError Lease
  | 0 => throw (.store s!"{Key.text repo (.round batch)} moved under {tries} tries to take the lease")
  | n + 1 => do
    let item ← readRecord repo batch
    let taken ← (txn (told item.value)
      ⟨[.modRev (.round batch) (some item.modRev), .createRev (.roundLock batch) none],
        [.put (.round batch) { item.value with leaseHolder := some holder },
          .put (.roundLock batch) ()]⟩).mapError .store
    match taken with
    | some token =>
      let lease : Lease := ⟨batch, token⟩
      match ← Verb.tried (recordToken repo lease tries) with
      | .ok () => return lease
      | .error e =>
        let _ ← (Verb.tried lease.release : Run LeaseError _)
        throw e
    | none =>
      match ← (holderOf batch).mapError .store with
      | some (holder, token) => throw (.held holder token)
      | none => acquireTelling told repo batch holder n

def acquire (repo batch holder : String) (n : ℕ) : Run LeaseError Lease :=
  acquireTelling (fun _ ↦ silent) repo batch holder n

/-! ## What a lease's programs write -/

section Within

variable {R G : World → World → Prop} {keys : Key → Prop} {repo batch holder : String}

theorem holderOf_within (h : Bears R G keys) : (holderOf batch).Within R G := by
  refine h.bind (h.get _) fun lock ↦ ?_
  cases lock with
  | none => exact Verb.within_pure
  | some lock =>
    refine h.bind (h.get _).tried fun r ↦ ?_
    split
    · split <;> exact h.bind Verb.within_pure fun _ ↦ Verb.within_pure
    · exact h.bind Verb.within_pure fun _ ↦ Verb.within_pure

theorem readRecord_within (h : Bears R G keys) : (readRecord repo batch).Within R G := by
  refine h.bind (h.get _).mapError fun item ↦ ?_
  cases item with
  | none => exact Verb.within_throw
  | some item =>
    dsimp only
    split
    · exact Verb.within_throw
    · exact Verb.within_pure

theorem recordToken_within (h : Bears R G keys) {lease : Lease} (hround : keys (.round lease.batch))
    (n : ℕ) : (recordToken repo lease n).Within R G := by
  induction n with
  | zero => exact Verb.within_throw
  | succ n ih =>
    refine h.bind (readRecord_within h) fun item ↦ h.bind (h.txn _ ?_).mapError fun written ↦ ?_
    · simpa [fencedTxn, Records.Op.key] using hround
    · split
      · exact Verb.within_pure
      · refine h.bind (holderOf_within h).mapError fun held ↦ ?_
        split
        · split
          · exact ih
          · exact Verb.within_throw
        · exact Verb.within_throw

theorem release_within (h : Bears R G keys) {lease : Lease} (hlock : keys (.roundLock lease.batch)) :
    lease.release.Within R G := by
  refine h.bind (h.txn _ ?_).mapError fun released ↦ ?_
  · simpa [fencedTxn, Records.Op.key] using hlock
  · split
    · exact Verb.within_throw
    · exact Verb.within_pure

theorem acquire_within (h : Bears R G keys) (hround : keys (.round batch))
    (hlock : keys (.roundLock batch)) (n : ℕ) : (acquire repo batch holder n).Within R G := by
  induction n with
  | zero => exact Verb.within_throw
  | succ n ih =>
    refine h.bind (readRecord_within h) fun item ↦ h.bind (h.txn _ ?_).mapError fun taken ↦ ?_
    · simpa [Records.Op.key] using ⟨hround, hlock⟩
    · cases taken with
      | some token =>
        refine h.bind (recordToken_within h hround _).tried fun r ↦ ?_
        cases r with
        | ok _ => exact Verb.within_pure
        | error e =>
          exact h.bind (release_within h hlock).tried fun _ ↦ Verb.within_throw
      | none =>
        refine h.bind (holderOf_within h).mapError fun held ↦ ?_
        split
        · exact Verb.within_throw
        · exact ih

end Within

end Spira.Controller
