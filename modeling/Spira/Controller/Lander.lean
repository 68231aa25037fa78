import Spira.Lib.Text
import Spira.Controller.Lease
import Spira.Controller.Stack

/-!
# The Lander

Each green round, lowest in its stack first, is landed under a lease of its own, or held green with
a blocker, or superseded.  A landing moves the lane's landing ref in the transaction that records
it.
-/

set_option autoImplicit false

namespace Spira.Controller

open Batch

/-- The name the controller's own leases are held under. -/
def HOLDER : String := "round-controller"

/-- The landing stands and the release was not activated. -/
def DEPLOY_FAULT_EXIT : ℤ := 3

inductive Landing
  | landed (at_ : String)
  /-- The landing ref already held the head: nothing was pushed. -/
  | fastForward (at_ : String)
  | held (blocker : Blocker)
  /-- Held, and no input to its refusal has changed. -/
  | unchanged
  | superseded
  /-- Another holder's lease is live on the round. -/
  | leased
  | notGreen
  deriving DecidableEq

structure Parent where
  batch : String
  state : Option BatchState
  head : Option String

def readRound (repo batch : String) : Run Refusal (Option (Item (.round batch))) :=
  reading (Key.text repo (.round batch)) (get (.round batch))

def parentOf (repo : String) : Option String → Run Refusal (Option Parent)
  | none => return none
  | some batch => do
    let view ← readRound repo batch
    return some ⟨batch, view.map (·.value.row.state), view.bind (·.value.row.head)⟩

def isLeased (repo batch : String) : Run Refusal Bool := do
  return (← reading (Key.text repo (.roundLock batch)) (holderOf batch)).isSome

def readStatus (repo batch : String) : Run Refusal (Option Status) := do
  return (← reading (Key.text repo (.status batch)) (get (.status batch))).map (·.value)

/-- The round as landed by a fast-forward to `head`; one already landed stays so. -/
def landedValue (round : Round) (head : String) : Except String Round :=
  if round.row.state = .landed then .ok round
  else
    let o := apply round.row ⟨round.row.state, round.row.version, .fastForward head, HOLDER⟩
    if o.applied then .ok { round with row := o.row } else .error "FastForward refused"

/-- A round the Lander holds the lease of. -/
structure Held where
  repo : String
  batch : String
  lease : Lease
  inputs : Inputs
  greenSeenMs : ℕ
  statusExisted : Bool

section Held

variable (git : Ancestry) (h : Held)

def Held.status (b : Blocker) : Status := ⟨b, h.inputs, h.greenSeenMs⟩

/-- The round stays green; its blocker and the inputs it was refused against are kept. -/
def Held.hold (b : Blocker) : Run Refusal Landing := do
  let skey := Key.text h.repo (.status h.batch)
  let kept ← reading skey (txn silent (fencedTxn h.lease [] [.put (.status h.batch) (h.status b)]))
  if kept.isSome then return .held b
  else throw (.unreadable skey "the Lander's lease lapsed")

/-- What becomes of the round's status: the landing's own blocker, or nothing. -/
def Held.statusOps : Option Blocker → List Op
  | some b => [.put (.status h.batch) (h.status b)]
  | none => if h.statusExisted then [.delete (.status h.batch)] else []

/-- One transaction: the round landed, the lane's landing ref moved to `at_`, and the status
cleared, or kept when the landing carries a blocker of its own.  Both records are compared, and
read again when another writer won. -/
def Held.recordLanded (head at_ : String) (kept : Option Blocker) : ℕ → Run Refusal Unit
  | 0 => throw (.unreadable (Key.text h.repo (.round h.batch))
      s!"the round or its lane moved under {tries} tries to record the landing")
  | n + 1 => do
    let rkey := Key.text h.repo (.round h.batch)
    let lkey := Key.text h.repo .lane
    let round? ← reading rkey (getTelling (fun w ↦ (w.store.items (.round h.batch)).elim []
      fun i ↦ [.named head i.value.row.head]) (.round h.batch))
    match round? with
    | none => throw (.unreadable rkey "the round is gone")
    | some round =>
      match ← reading lkey (getTelling (fun _ ↦ [.readLane h.lease.token at_]) .lane) with
      | none => throw (.laneUnknown lkey)
      | some lane =>
        match landedValue round.value head with
        | .error e => throw (.unreadable rkey e)
        | .ok rv =>
          let recorded ← reading rkey (txn (fun w ↦ [.lane at_, .recorded rv w.ref])
            (fencedTxn h.lease
              [.modRev (.round h.batch) (some round.modRev), .modRev .lane (some lane.modRev)]
              ([.put (.round h.batch) rv, .put .lane { lane.value with landingRef := at_ }] ++
                h.statusOps kept)))
          if recorded.isSome then return
          let holder ← reading rkey (holderOf h.batch)
          if holder.any (·.2 = h.lease.token) then Held.recordLanded head at_ kept n
          else throw (.unreadable rkey "the Lander's lease lapsed before the landing was recorded")

/-- The landing ref after a landing of `head`: git's, when git already shows `head` under it, else
`head`. -/
def refAfter (head : String) : Run Refusal String := do
  let under ← Verb.tried (underLandingRef git head)
  let sha ← Verb.tried landingSha
  match under, sha with
  | .ok true, .ok sha => return sha
  | _, _ => return head

/-- `queue round land`: it is answered as the queue answers, which is that the round landed only
once the head the round then names is under the landing ref. -/
def landVerb (git : Ancestry) (batch head : String) : Run Refusal (Except VerbRefusal Unit) :=
  access
    (fun w ↦ match w.lands with
      | .error _ => true
      | .ok _ => (w.store.items (.round batch)).any fun i ↦
          i.value.row.head.any fun found ↦ git.under found w.ref)
    (fun w ↦ match w.lands with
      | .error _ => []
      | .ok _ => [.named head ((w.store.items (.round batch)).bind (·.value.row.head))])
    fun w ↦ .ok w.lands

def supersedeVerb : Run Refusal (Except VerbRefusal Unit) :=
  access (fun _ ↦ true) silent fun w ↦ .ok w.supersedes

/-- The first word of a verb's words, without the colons it ends in. -/
def firstWord (text : String) : String :=
  let word := (text.toList.dropWhile Text.isWhite).takeWhile (!Text.isWhite ·)
  String.ofList (word.reverse.dropWhile (· = ':')).reverse

/-- A refusal is classified by its exit and its first word only. -/
def Held.refused (head : String) (r : VerbRefusal) : Run Refusal Landing := do
  match r.code with
  | none => throw (.verb (some h.batch) r)
  | some code =>
    if code = DEPLOY_FAULT_EXIT then
      let why : Blocker := .deployFault (Text.trim r.text)
      if ← reading (gitKey h.repo) (underLandingRef git head) then
        let at_ ← refAfter git head
        h.recordLanded head at_ (some why) tries
        return .landed at_
      else h.hold why
    else
      match firstWord r.text with
      | "stacked" =>
        let parent ← parentOf h.repo h.inputs.parent
        let parentLeased ← match parent with
          | some q => isLeased h.repo q.batch
          | none => pure false
        h.hold (.stackedOnUnlanded (h.inputs.parent.getD "")
          (parent.bind fun q ↦ q.state.map (·.asStr)) parentLeased)
      | "base-moved" =>
        match ← supersedeVerb with
        | .ok _ => return .superseded
        | .error refusal => throw (.verb (some h.batch) refusal)
      | _ => h.hold (.refused (Text.trim r.text))

def Held.decide (head : String) (parent : Option Parent) : Run Refusal Landing := do
  match parent.filter fun q ↦ q.state.any (!·.isTerminal) with
  | some q =>
    let parentLeased ← isLeased h.repo q.batch
    h.hold (.stackedOnUnlanded q.batch (q.state.map (·.asStr)) parentLeased)
  | none =>
    let under ← reading (gitKey h.repo) (underTelling git (fun _ ↦ [.decided h.lease.token]) head)
    if under then
      let at_ ← reading (gitKey h.repo) landingSha
      h.recordLanded head at_ none tries
      return .fastForward at_
    else
      match ← landVerb git h.batch head with
      | .ok _ =>
        let at_ ← refAfter git head
        h.recordLanded head at_ none tries
        return .landed at_
      | .error r => h.refused git head r

end Held

variable (git : Ancestry) (repo : String)

/-- A round whose lease was taken: decided on where it is still green, and given back. -/
def underLease (batch head : String) (parent : Option Parent) (h : Held) : Run Refusal Landing := do
  let landing ← (Verb.tried (do
    let view ← readRound repo batch
    if view.any (·.value.row.state = .green) then h.decide git head parent
    else return .notGreen) : Run Refusal _)
  let _ ← (Verb.tried h.lease.release : Run Refusal _)
  match landing with
  | .ok landing => return landing
  | .error e => throw e

/-- Whether the round is held, and no input to its refusal has changed.  A head that landed outside
the Lander is an input too. -/
def stillHeld (head : String) (inputs : Inputs) (status : Option Status) : Run Refusal Bool :=
  if status.any (·.inputs = inputs) then do
    return !(← reading (gitKey repo) (underLandingRef git head))
  else return false

/-- A round that is not held as it was: decided on, under a lease that is taken for it. -/
def leaseAndDecide (batch head : String) (parent : Option Parent) (inputs : Inputs)
    (status : Option Status) : Run Refusal Landing := do
  match ← Verb.tried (acquire repo batch HOLDER tries) with
  | .error (.held _ _) => return .leased
  | .error .terminal => return .notGreen
  | .error .lost => throw (.unreadable (Key.text repo (.roundLock batch)) "Lost")
  | .error (.store why) => throw (.unreadable (Key.text repo (.roundLock batch)) why)
  | .ok lease =>
    let now ← nowMs
    underLease git repo batch head parent
      ⟨repo, batch, lease, inputs, status.elim now (·.greenSeenMs), status.isSome⟩

/-- One green round: landed, held or superseded, or left as it stands when nothing it was held on
has changed. -/
def one (batch : String) (parent : Option String) : Run Refusal Landing := do
  let view ← readRound repo batch
  match view.bind fun i ↦ i.value.row.head.filter fun _ ↦ i.value.row.state = .green with
  | none => return .notGreen
  | some head =>
    match ← readLane repo with
    | none => throw (.laneUnknown (Key.text repo .lane))
    | some lane =>
      let parent ← parentOf repo parent
      let inputs : Inputs := ⟨head, lane.landingRef, parent.map (·.batch),
        parent.bind fun q ↦ q.state.map (·.asStr), parent.bind (·.head)⟩
      let status ← readStatus repo batch
      if ← stillHeld git repo head inputs status then return .unchanged
      else leaseAndDecide git repo batch head parent inputs status

/-- The green rounds with where they stand, lowest first. -/
def greenOf (stack : Stack) (rounds : List Live) : List Live :=
  ((rounds.filter (·.round.row.state = .green)).filterMap fun r ↦
    match r.round.testedBase with
    | none => some (1, r)
    | some _ => (stack.height.lookup r.batch).map (·, r)).insertionSort
      (fun a b ↦ a.1 < b.1 ∨ a.1 = b.1 ∧ a.2.batch ≤ b.2.batch) |>.map (·.2)

/-- Each green round in its turn; the first refusal is answered after every round has had its own.
-/
def landEach (stack : Stack) :
    List Live → List (String × Landing) → Option Refusal → Run Refusal (List (String × Landing))
  | [], out, none => return out
  | [], _, some e => throw e
  | r :: rest, out, first => do
    match ← Verb.tried (one git repo r.batch
      ((stack.below.lookup r.batch).or r.round.row.parent)) with
    | .ok l => landEach stack rest (out ++ [(r.batch, l)]) first
    | .error e => landEach stack rest out (first.or (some e))

/-- Every green round of the repository. -/
def land : Run Refusal (List (String × Landing)) := do
  match ← readLane repo with
  | none => return []
  | some lane =>
    let rounds ← live repo
    let stack := Stack.of lane rounds
    landEach git repo stack (greenOf stack rounds) [] none

end Spira.Controller
