import Spira.Batcher.Order
import Spira.Controller.Grounded
import Spira.Controller.Select

/-!
# The planner's cut

What a cut would open for a repository: the round selected from its pool, on the landing ref or on
the top of its live rounds.  The ledger may refuse a member of the selected round, which is then
dropped and the round selected again; a refusal of the whole is the planner's own.

`CutReads` is what one plan reads, all of it at once; `plan_ends` says that the planner makes a plan
of it or refuses, and `plan_right` what a plan keeps to.
-/

set_option autoImplicit false

namespace Spira.Controller.Planner

open Batcher (InRound Unlooped selectRound topoOrder topoOrder_after topoOrder_perm unlooped_congr)
open Relation (ReflTransGen TransGen)

/-! ## The ledger -/

structure PassIdentity where
  repo : String
  /-- Sorted by id, each id once. -/
  members : List (String × String)
  base : String
  imageDigest : String
  harnessVersion : String
  selection : String
  deriving DecidableEq

inductive Class
  | green
  | red (step : String)
  | fault
  | flaky
  deriving DecidableEq

inductive Backoff
  | standing
  | until (t : ℕ)
  deriving DecidableEq

/-- What the attempts at an identity came to. -/
structure Summary where
  class_ : Class
  backoffUntil : Option Backoff
  deriving DecidableEq

/-- A member proven red, on this base, image and harness. -/
structure ProvenRed where
  hash : String
  base : String
  imageDigest : String
  harnessVersion : String
  deriving DecidableEq

inductive LedgerRefusal
  | redIdentity (hash step : String)
  | redMember (id tip hash : String)
  | laneFault (key cause : String)
  | backingOff (hash : String) (until_ : Option ℕ)
  deriving DecidableEq

structure Ledger where
  /-- The fault that stands on a base and an image digest. -/
  fault : String → String → Option String
  /-- By the hash of the identity. -/
  summary : String → Option Summary
  byMember : String × String → Option ProvenRed
  hash : PassIdentity → String
  nowMs : ℕ

def faultKey (repo base imageDigest : String) : String :=
  "faults/" ++ repo ++ "/" ++ base ++ "/" ++ imageDigest

def summaryKey (ledger : Ledger) (id : PassIdentity) : String :=
  "verdicts/" ++ id.repo ++ "/" ++ ledger.hash id

def byMemberKey (repo : String) (m : String × String) : String :=
  "verdicts/" ++ repo ++ "/by-member/" ++ m.1 ++ "/" ++ m.2

/-- A lifecycle record, as far as the planner reads it. -/
structure LifecycleRecord where
  repo : Option String
  state : Option String
  tip : Option String
  /-- `some none` where the record states it, but as no text. -/
  ejectedRedTip : Option (Option String)
  holds : ℕ
  priority : Option ℕ
  express : Bool
  since : ℕ
  stack : List (String × String)
  blockedBy : List String

/-- The lifecycle withdrew the red at this tip. -/
def absolved (records : List (String × LifecycleRecord)) (m : String × String) : Bool :=
  (records.lookup m.1).any fun r ↦ r.ejectedRedTip.any (· ≠ some m.2)

/-- The verdict on the identity itself, where it is one that refuses it. -/
def verdictOf (ledger : Ledger) (id : PassIdentity) : Option LedgerRefusal :=
  match ledger.summary (ledger.hash id) with
  | none => none
  | some s => match s.class_, s.backoffUntil with
    | .red step, _ => some (.redIdentity (ledger.hash id) step)
    | .fault, some .standing => some (.backingOff (ledger.hash id) none)
    | .fault, some (.until t) =>
      if ledger.nowMs < t then some (.backingOff (ledger.hash id) (some t)) else none
    | _, _ => none

/-- The member is proven red on the identity's base, image and harness, and not absolved. -/
def redOn (ledger : Ledger) (records : List (String × LifecycleRecord)) (id : PassIdentity)
    (m : String × String) : Option LedgerRefusal :=
  (ledger.byMember m).bind fun r ↦
    if (r.base, r.imageDigest, r.harnessVersion) = (id.base, id.imageDigest, id.harnessVersion) ∧
        ¬ absolved records m then
      some (.redMember m.1 m.2 r.hash)
    else none

/-- Why the planner may not open the identity. -/
def refuses (ledger : Ledger) (records : List (String × LifecycleRecord)) (id : PassIdentity) :
    Option LedgerRefusal :=
  match ledger.fault id.base id.imageDigest with
  | some cause => some (.laneFault (faultKey id.repo id.base id.imageDigest) cause)
  | none =>
    match verdictOf ledger id with
    | some refusal => some refusal
    | none => id.members.findSome? (redOn ledger records id)

/-! ## The pool -/

def eqIgnoreAsciiCase (s t : String) : Bool := s.toList.map Char.toLower == t.toList.map Char.toLower

def LifecycleRecord.stateIs (r : LifecycleRecord) (words : List String) : Bool :=
  r.state.any fun s ↦ words.any (eqIgnoreAsciiCase s)

/-- The record as a member, where it may be cut. -/
def pooled (repo id : String) (r : LifecycleRecord) : Option Batcher.Member :=
  if r.repo ≠ some repo ∨ ¬ r.stateIs ["SUBMITTED", "CERTIFIED"] then none
  else
    match r.tip.filter (· ≠ "") with
    | none => none
    | some tip =>
      if r.ejectedRedTip = some (some tip) ∨ r.holds ≠ 0 then none
      else some
        { id := id
          tip := tip
          priority := r.priority
          express := r.express
          baseFix := false
          certifiedAt := r.since
          stack := r.stack
          blockedBy := r.blockedBy }

theorem pooled_eq_some {repo id : String} {r : LifecycleRecord} {m : Batcher.Member}
    (h : pooled repo id r = some m) : m.id = id ∧ m.stack = r.stack ∧ m.blockedBy = r.blockedBy ∧
      r.repo = some repo ∧ r.stateIs ["SUBMITTED", "CERTIFIED"] ∧ r.tip = some m.tip ∧
        r.ejectedRedTip ≠ some (some m.tip) ∧ r.holds = 0 := by
  rw [pooled] at h
  split at h
  · cases h
  · rename_i hstate
    split at h
    · cases h
    · rename_i tip htip
      split at h
      · cases h
      · rename_i hfree
        obtain rfl := Option.some.inj h
        rw [not_or, not_not, not_not] at hstate
        rw [not_or, not_not] at hfree
        exact ⟨rfl, rfl, rfl, hstate.1, hstate.2, (Option.filter_eq_some_iff.mp htip).1, hfree⟩

/-- What a plan reads. -/
structure CutReads where
  repo : String
  lane : Option Lane
  /-- The depth that the concurrency knob holds. -/
  concurrency : Option ℕ
  rounds : List Live
  /-- The members of a live round. -/
  roundMembers : String → List (String × String)
  records : List (String × LifecycleRecord)
  nodup : (records.map Prod.fst).Nodup
  held : List (String × String)
  ledger : Ledger

namespace CutReads

variable (reads : CutReads)

def finished : List String :=
  (reads.records.filter (·.2.stateIs ["LANDED", "SUPERSEDED", "DROPPED"])).map Prod.fst

def inRounds : List String := reads.rounds.flatMap fun r ↦ (reads.roundMembers r.batch).map Prod.fst

/-- The member without what is finished. -/
def unfinished (m : Batcher.Member) : Batcher.Member :=
  { m with
    blockedBy := m.blockedBy.filter (· ∉ reads.finished)
    stack := m.stack.filter (·.1 ∉ reads.finished) }

/-- The records that may be cut, of no live round and under no hold. -/
def poolMembers : List Batcher.Member :=
  (((reads.records.filterMap fun p ↦ pooled reads.repo p.1 p.2).filter
    (·.id ∉ reads.inRounds)).map reads.unfinished).filter fun m ↦ (m.id, m.tip) ∉ reads.held

/-- A member of the pool is a record that may be cut, less what is finished. -/
theorem mem_poolMembers {o : Batcher.Member} : o ∈ reads.poolMembers ↔ ∃ p ∈ reads.records, ∃ m,
    pooled reads.repo p.1 p.2 = some m ∧ m.id ∉ reads.inRounds ∧ (m.id, m.tip) ∉ reads.held ∧
      reads.unfinished m = o := by
  simp only [poolMembers, List.mem_filter, List.mem_map, List.mem_filterMap, decide_eq_true_eq]
  constructor
  · rintro ⟨⟨m, ⟨⟨p, hp, hm⟩, hfree⟩, rfl⟩, hheld⟩
    exact ⟨p, hp, m, hm, hfree, hheld, rfl⟩
  · rintro ⟨p, hp, m, hm, hfree, hheld, rfl⟩
    exact ⟨⟨m, ⟨⟨p, hp, hm⟩, hfree⟩, rfl⟩, hheld⟩

theorem nodup_pool : (reads.poolMembers.map (·.id)).Nodup := by
  have hids : (reads.records.filterMap fun p ↦ pooled reads.repo p.1 p.2).map (·.id) =
      (reads.records.filter fun p ↦ (pooled reads.repo p.1 p.2).isSome).map Prod.fst := by
    induction reads.records with
    | nil => rfl
    | cons p records ih =>
      rw [List.filterMap_cons, List.filter_cons]
      cases hp : pooled reads.repo p.1 p.2 with
      | none => exact ih
      | some m =>
        rw [List.map_cons, ih, (pooled_eq_some hp).1]
        rfl
  have hrecords : ((reads.records.filterMap fun p ↦ pooled reads.repo p.1 p.2).map (·.id)).Nodup := by
    rw [hids]
    exact reads.nodup.sublist (List.filter_sublist.map Prod.fst)
  refine List.Nodup.sublist (List.filter_sublist.map _) ?_
  rw [List.map_map]
  exact hrecords.sublist (List.filter_sublist.map _)

def pool : Pool := ⟨reads.poolMembers, reads.nodup_pool⟩

/-- What rides the stack: the members of the leased rounds under the top; of an id in two of them
the later stands. -/
def riding (stack : Stack) : List (String × String) :=
  ((reads.rounds.filter fun r ↦ r.leased && stack.underTop.contains r.batch).flatMap
    fun r ↦ reads.roundMembers r.batch).reverse

/-- A leased round under the top holds the member at that tip. -/
def Rides (stack : Stack) (p : String × String) : Prop :=
  ∃ r ∈ reads.rounds, r.leased = true ∧ r.batch ∈ stack.underTop ∧ p ∈ reads.roundMembers r.batch

theorem mem_riding {stack : Stack} {p : String × String} :
    p ∈ reads.riding stack ↔ reads.Rides stack p := by
  simp only [riding, Rides, List.mem_reverse, List.mem_flatMap, List.mem_filter, Bool.and_eq_true,
    List.contains_iff_mem, and_assoc]

end CutReads

/-! ## The plan -/

inductive CutRefusal
  | laneUnknown (key : String)
  | laneFault (key : String)
  | redIdentity (key : String)
  | backingOff (key : String)
  | cutOfJudgedRed (key : String)
  | badMembers (key : String)
  deriving DecidableEq

structure Plan where
  members : List (String × String)
  place : Place
  deriving DecidableEq

/-- The identity of a round of those members. -/
def identity (repo : String) (members : List (String × String)) (base : String) (lane : Lane) :
    Except CutRefusal PassIdentity :=
  let sorted := members.insertionSort fun a b ↦ toLex a ≤ toLex b
  if members = [] then .error (.badMembers "no-members")
  else if maxMembers < members.length then
    .error (.badMembers ("too-many-members/" ++ toString members.length ++ "/" ++ toString maxMembers))
  else
    match (sorted.zip sorted.tail).find? fun p ↦ p.1.1 = p.2.1 with
    | some p => .error (.badMembers ("duplicate-member/" ++ p.1.1))
    | none => .ok ⟨repo, sorted, base, lane.imageDigest, lane.harnessVersion, lane.selection⟩

/-- A ledger refusal that refuses the whole identity. -/
def whole (ledger : Ledger) (id : PassIdentity) : LedgerRefusal → CutRefusal
  | .laneFault key _ => .laneFault key
  | .redIdentity _ _ => .redIdentity (summaryKey ledger id)
  | .backingOff _ _ => .backingOff (summaryKey ledger id)
  | .redMember m tip _ => .cutOfJudgedRed (byMemberKey id.repo (m, tip))

/-- A fault that stands on the landing ref, or on the base of the cut. -/
def laneFault (reads : CutReads) (lane : Lane) (base : String) : Option CutRefusal :=
  ([lane.landingRef, base].find? fun b ↦ (reads.ledger.fault b lane.imageDigest).isSome).map fun b ↦
    .laneFault (faultKey reads.repo b lane.imageDigest)

/-- Rounds selected until the ledger has no member to refuse; `none` is a planner still at it. -/
def planFrom (reads : CutReads) (lane : Lane) (place : Place) (base : String)
    (riding : List (String × String)) :
    ℕ → List String → Option (Except CutRefusal (Option Plan))
  | 0, _ => none
  | n + 1, dropped =>
    let members := select reads.pool dropped riding
    if members = [] then some (.ok none)
    else
      match identity reads.repo members base lane with
      | .error e => some (.error e)
      | .ok id =>
        match refuses reads.ledger reads.records id with
        | none => some (.ok (some ⟨members, place⟩))
        | some (.redMember m _ _) => planFrom reads lane place base riding n (m :: dropped)
        | some other => some (.error (whole reads.ledger id other))

/-- The lane, at the depth the knob holds once it is set. -/
def atDepth (reads : CutReads) (lane : Lane) : Lane :=
  { lane with concurrency := reads.concurrency.or lane.concurrency }

/-- The plan of the reads, with a selection for each member of the pool and one more. -/
def plan (reads : CutReads) : Option (Except CutRefusal (Option Plan)) :=
  match reads.lane with
  | none => some (.error (.laneUnknown ("lanes/" ++ reads.repo)))
  | some lane =>
    let lane := atDepth reads lane
    let stack := Stack.of lane reads.rounds
    match stack.place lane reads.rounds with
    | none => some (.ok none)
    | some (place, base) =>
      match laneFault reads lane base with
      | some refusal => some (.error refusal)
      | none =>
        planFrom reads lane place base (reads.riding stack) (reads.pool.members.length + 1) []

/-! ## What is selected -/

section Selected

variable {pool : Pool} {dropped : List String} {riding : List (String × String)}

/-- The admitted members in their order. -/
def ordered (pool : Pool) (dropped : List String) (riding : List (String × String)) :
    List Batcher.Member :=
  topoOrder (admitted (candidates pool dropped riding))

theorem mem_ordered {m : Batcher.Member} :
    m ∈ ordered pool dropped riding ↔ m ∈ Admissible (candidates pool dropped riding) :=
  topoOrder_perm.mem_iff.trans (mem_admitted nodup_candidates)

theorem nodup_ordered : ((ordered pool dropped riding).map (·.id)).Nodup :=
  (topoOrder_perm.map _).nodup_iff.mpr (nodup_candidates.sublist (admitted_sublist.map _))

theorem select_eq (pool : Pool) (dropped : List String) (riding : List (String × String)) :
    ∃ n, select pool dropped riding =
      ((selectRound (ordered pool dropped riding)).1.take n).map fun m ↦ (m.id, m.tip) := by
  rw [select]
  split
  · exact ⟨0, rfl⟩
  · exact ⟨maxMembers, rfl⟩

theorem selectRound_eq (l : List Batcher.Member) : ∃ keep : Batcher.Member → Bool,
    (selectRound l).1 = l.filter keep := by
  rw [selectRound]
  split
  · exact ⟨fun _ ↦ true, (List.filter_true l).symm⟩
  · exact ⟨_, rfl⟩

/-- With a member goes what it is stacked on. -/
theorem inRound_of_stack {l : List Batcher.Member} {m q : Batcher.Member}
    (hm : InRound {m | m ∈ l} m) (hq : q ∈ l) (hstack : q.id ∈ m.prereqs) :
    InRound {m | m ∈ l} q := by
  refine ⟨hq, fun root hroot ↦ ?_⟩
  obtain ⟨m₀, hm₀, hseed, hlinked⟩ := hm.2 root hroot
  exact ⟨m₀, hm₀, hseed, hlinked.tail ⟨m, hm.1, q, hq, rfl, rfl, .inl hstack⟩⟩

/-- What a member of the round is: an admissible one, after all that it is stacked on. -/
theorem select_split {pre post : List (String × String)} {x : String × String}
    (h : select pool dropped riding = pre ++ x :: post) :
    ∃ m ∈ Admissible (candidates pool dropped riding), x = (m.id, m.tip) ∧
      (Unlooped (ordered pool dropped riding) m.id → ∀ p ∈ m.stack, p ∈ pre) := by
  obtain ⟨n, hn⟩ := select_eq pool dropped riding
  rw [hn] at h
  obtain ⟨pre', rest, htake, rfl, hrest⟩ := List.map_eq_append_iff.mp h
  obtain ⟨m, post', rfl, rfl, -⟩ := List.map_eq_cons_iff.mp hrest
  obtain ⟨keep, hkeep⟩ := selectRound_eq (ordered pool dropped riding)
  have hround : (ordered pool dropped riding).filter keep =
      pre' ++ m :: (post' ++ (selectRound (ordered pool dropped riding)).1.drop n) := by
    rw [← hkeep, ← List.cons_append, ← List.append_assoc, ← htake, List.take_append_drop]
  have hnodup : (ordered pool dropped riding).Nodup := List.Nodup.of_map _ nodup_ordered
  have hin : m ∈ (selectRound (ordered pool dropped riding)).1 := by
    rw [hkeep, hround]
    exact List.mem_append_right _ List.mem_cons_self
  have hadmissible : m ∈ Admissible (candidates pool dropped riding) :=
    mem_ordered.mp ((Batcher.mem_selectRound hnodup).mp hin).1
  refine ⟨m, hadmissible, rfl, fun hunlooped p hp ↦ ?_⟩
  obtain ⟨members, hsupported, hm⟩ := hadmissible
  obtain ⟨q, hq, hid, htip⟩ := (hsupported m hm).2.2 p hp
  have hqo : q ∈ ordered pool dropped riding := mem_ordered.mpr ⟨members, hsupported, hq⟩
  have hprereq : q.id ∈ m.prereqs :=
    List.mem_append_left _ (List.mem_map.mpr ⟨p, hp, hid.symm⟩)
  have hqr : q ∈ (ordered pool dropped riding).filter keep := by
    rw [← hkeep, Batcher.mem_selectRound hnodup]
    exact inRound_of_stack ((Batcher.mem_selectRound hnodup).mp hin) hqo hprereq
  obtain ⟨a, b, hab, ha, hb⟩ := List.filter_eq_append_iff.mp hround
  obtain ⟨skipped, after, rfl, hskipped, -, -⟩ := List.filter_eq_cons_iff.mp hb
  have hsplit : topoOrder (admitted (candidates pool dropped riding)) = (a ++ skipped) ++ m :: after := by
    rw [List.append_assoc]
    exact hab
  have hqid : q.id ∈ (a ++ skipped).map (·.id) :=
    topoOrder_after ((unlooped_congr topoOrder_perm _).mp hunlooped) hsplit q.id hprereq
      (List.mem_map_of_mem (topoOrder_perm.mem_iff.mp hqo))
  obtain ⟨q', hq', hsame⟩ := List.mem_map.mp hqid
  have hq'o : q' ∈ ordered pool dropped riding := by
    rw [hab, ← List.append_assoc]
    exact List.mem_append_left _ hq'
  obtain rfl := List.inj_on_of_nodup_map nodup_ordered hq'o hqo hsame
  have hqpre : q' ∈ pre' := by
    rw [← ha]
    refine List.mem_filter.mpr ⟨?_, (List.mem_filter.mp hqr).2⟩
    exact (List.mem_append.mp hq').resolve_right fun hs ↦ hskipped q' hs (List.mem_filter.mp hqr).2
  exact List.mem_map.mpr ⟨q', hqpre, Prod.ext hid htip⟩

/-- A candidate is a member of the pool that was not dropped, less what rides. -/
theorem mem_candidates {m : Batcher.Member} : m ∈ candidates pool dropped riding ↔
    m ∈ candidates pool [] riding ∧ m.id ∉ dropped := by
  simp only [candidates, List.mem_map, List.mem_filter, decide_eq_true_eq, List.not_mem_nil,
    not_false_eq_true, decide_true, and_true]
  constructor
  · rintro ⟨o, ⟨ho, hdropped⟩, rfl⟩
    exact ⟨⟨o, ho, rfl⟩, hdropped⟩
  · rintro ⟨⟨o, ho, rfl⟩, hdropped⟩
    exact ⟨o, ⟨ho, hdropped⟩, rfl⟩

/-- A candidate of that id is stacked on `p`. -/
def Upon (cands : List Batcher.Member) (p id : String) : Prop :=
  ∃ m ∈ cands, m.id = id ∧ p ∈ m.stack.map Prod.fst

/-- **With a dropped member goes what is stacked on it, and nothing else.** -/
theorem admissible_dropped {m : Batcher.Member} : m ∈ Admissible (candidates pool dropped riding) ↔
    m ∈ Admissible (candidates pool [] riding) ∧
      ¬ ∃ d ∈ dropped, ReflTransGen (Upon (candidates pool [] riding)) d m.id := by
  constructor
  · rintro ⟨members, hsupported, hm⟩
    refine ⟨⟨members, fun o ho ↦ ?_, hm⟩, ?_⟩
    · obtain ⟨hcand, hrest⟩ := hsupported o ho
      exact ⟨(mem_candidates.mp hcand).1, hrest⟩
    · rintro ⟨d, hd, hreach⟩
      have hnone : ∀ id, ReflTransGen (Upon (candidates pool [] riding)) d id →
          ∀ o ∈ members, o.id ≠ id := by
        intro id hreach
        induction hreach with
        | refl =>
          rintro o ho rfl
          exact (mem_candidates.mp (hsupported o ho).1).2 hd
        | tail _ hupon ih =>
          rintro o ho rfl
          obtain ⟨o', ho', hsame, hp⟩ := hupon
          obtain ⟨hcand, -, hstack⟩ := hsupported o ho
          obtain rfl := List.inj_on_of_nodup_map nodup_candidates ho' (mem_candidates.mp hcand).1 hsame
          obtain ⟨e, he, rfl⟩ := List.mem_map.mp hp
          obtain ⟨q, hq, hid, -⟩ := hstack e he
          exact ih q hq hid
      exact hnone m.id hreach m hm rfl
  · rintro ⟨⟨members, hsupported, hm⟩, hfree⟩
    refine ⟨{o ∈ members | ¬ ∃ d ∈ dropped, ReflTransGen (Upon (candidates pool [] riding)) d o.id},
      ?_, hm, hfree⟩
    rintro o ⟨ho, hfree⟩
    obtain ⟨hcand, hblocked, hstack⟩ := hsupported o ho
    refine ⟨mem_candidates.mpr ⟨hcand, fun hd ↦ hfree ⟨o.id, hd, .refl⟩⟩, hblocked, fun p hp ↦ ?_⟩
    obtain ⟨q, hq, hid, htip⟩ := hstack p hp
    refine ⟨q, ⟨hq, ?_⟩, hid, htip⟩
    rintro ⟨d, hd, hreach⟩
    refine hfree ⟨d, hd, hreach.tail ⟨o, hcand, rfl, ?_⟩⟩
    exact hid ▸ List.mem_map_of_mem hp

/-- No stack of the pool leads from the member, or from what it is stacked on, back to where it
began. -/
def Unwound (pool : Pool) (id : String) : Prop :=
  ∀ p, ReflTransGen (Upon pool.members) p id → ¬ TransGen (Upon pool.members) p p

theorem Unwound.ordered {id : String} (h : Unwound pool id) :
    Unlooped (ordered pool dropped riding) id := by
  have hupon : ∀ p q, Batcher.Requires (Planner.ordered pool dropped riding) p q →
      Upon pool.members p q := by
    rintro p q ⟨-, m, hm, rfl, hreq⟩
    obtain ⟨members, hsupported, hin⟩ := mem_ordered.mp hm
    obtain ⟨hcand, hfree, -⟩ := hsupported m hin
    rw [Batcher.Member.prereqs, hfree, List.append_nil] at hreq
    obtain ⟨o, ho, rfl⟩ := List.mem_map.mp hcand
    exact ⟨o, (List.mem_filter.mp ho).1, rfl, (List.filter_sublist.map _).subset hreq⟩
  exact fun p hreach hloop ↦ h p (ReflTransGen.mono hupon _ _ hreach) (TransGen.mono hupon _ _ hloop)

end Selected

/-! ## The refusals -/

/-- The member is proven red at its tip on this base and the lane's image and harness, and the
lifecycle has not withdrawn it. -/
def RedHere (reads : CutReads) (lane : Lane) (base : String) (m : String × String) : Prop :=
  (∃ r, reads.ledger.byMember m = some r ∧ r.base = base ∧ r.imageDigest = lane.imageDigest ∧
    r.harnessVersion = lane.harnessVersion) ∧ absolved reads.records m = false

theorem identity_ok {repo base : String} {members : List (String × String)} {lane : Lane}
    {id : PassIdentity} (h : identity repo members base lane = .ok id) :
    id.members.Perm members ∧ id.base = base ∧ id.imageDigest = lane.imageDigest ∧
      id.harnessVersion = lane.harnessVersion := by
  rw [identity] at h
  split at h
  · cases h
  · split at h
    · cases h
    · split at h
      · cases h
      · obtain rfl := Except.ok.inj h
        exact ⟨List.perm_insertionSort _ _, rfl, rfl, rfl⟩

theorem verdictOf_ne_red (ledger : Ledger) (id : PassIdentity) (m tip hash : String) :
    verdictOf ledger id ≠ some (.redMember m tip hash) := by
  rw [verdictOf]
  split
  · exact nofun
  · split
    · exact nofun
    · exact nofun
    · split <;> exact nofun
    · exact nofun

theorem redOn_eq_some {ledger : Ledger} {records : List (String × LifecycleRecord)}
    {id : PassIdentity} {x : String × String} {refusal : LedgerRefusal}
    (h : redOn ledger records id x = some refusal) : ∃ r, ledger.byMember x = some r ∧
      r.base = id.base ∧ r.imageDigest = id.imageDigest ∧ r.harnessVersion = id.harnessVersion ∧
        absolved records x = false ∧ refusal = .redMember x.1 x.2 r.hash := by
  obtain ⟨r, hr, h⟩ := Option.bind_eq_some_iff.mp h
  split at h
  · rename_i hsame
    obtain ⟨hsame, habsolved⟩ := hsame
    simp only [Prod.mk.injEq] at hsame
    exact ⟨r, hr, hsame.1, hsame.2.1, hsame.2.2, by simpa using habsolved, (Option.some.inj h).symm⟩
  · cases h

/-- The ledger refuses a member that is in the identity, and proven red. -/
theorem refuses_redMember {reads : CutReads} {lane : Lane} {base m tip hash : String}
    {members : List (String × String)} {id : PassIdentity}
    (hid : identity reads.repo members base lane = .ok id)
    (h : refuses reads.ledger reads.records id = some (.redMember m tip hash)) :
    (m, tip) ∈ members ∧ RedHere reads lane base (m, tip) := by
  obtain ⟨hperm, hbase, hdigest, hharness⟩ := identity_ok hid
  rw [refuses] at h
  split at h
  · cases h
  · split at h
    · rename_i hverdict
      obtain rfl := Option.some.inj h
      exact absurd hverdict (verdictOf_ne_red _ _ m tip hash)
    · obtain ⟨x, hx, hred⟩ := List.exists_of_findSome?_eq_some h
      obtain ⟨r, hr, hb, hd, hh, habsolved, heq⟩ := redOn_eq_some hred
      obtain ⟨rfl, rfl, -⟩ := LedgerRefusal.redMember.inj heq
      exact ⟨hperm.mem_iff.mp hx, ⟨r, hr, hb.trans hbase, hd.trans hdigest, hh.trans hharness⟩,
        habsolved⟩

theorem mem_pool_of_select {pool : Pool} {dropped : List String} {riding : List (String × String)}
    {x : String × String} (h : x ∈ select pool dropped riding) :
    (∃ m ∈ pool.members, (m.id, m.tip) = x) ∧ x.1 ∉ dropped := by
  obtain ⟨pre, post, hsplit⟩ := List.append_of_mem h
  obtain ⟨m, ⟨members, hsupported, hm⟩, rfl, -⟩ := select_split hsplit
  obtain ⟨hcand, hfree⟩ := mem_candidates.mp (hsupported m hm).1
  obtain ⟨o, ho, rfl⟩ := List.mem_map.mp hcand
  exact ⟨⟨o, (List.mem_filter.mp ho).1, rfl⟩, hfree⟩

section Plan

variable {reads : CutReads} {lane : Lane} {place : Place} {base : String}
  {riding : List (String × String)}

/-- The planner ends: each member that the ledger refuses is of the pool, and was not dropped. -/
theorem planFrom_ends : ∀ (n : ℕ) (dropped : List String),
    (reads.pool.members.filter (·.id ∉ dropped)).length < n →
      (planFrom reads lane place base riding n dropped).isSome
  | n + 1, dropped, hn => by
    rw [planFrom]
    split
    · rfl
    · cases hid : identity reads.repo (select reads.pool dropped riding) base lane with
      | error e => rfl
      | ok id =>
        dsimp only
        split
        · rfl
        · rename_i m tip hash hrefuses
          obtain ⟨hmem, -⟩ := refuses_redMember hid hrefuses
          obtain ⟨⟨o, ho, hsame⟩, hfree⟩ := mem_pool_of_select hmem
          obtain ⟨rfl, -⟩ := Prod.mk.inj hsame
          refine planFrom_ends n (o.id :: dropped) (Nat.lt_of_lt_of_le ?_ (Nat.le_of_lt_succ hn))
          have hfilter : reads.pool.members.filter (·.id ∉ o.id :: dropped) =
              (reads.pool.members.filter (·.id ∉ dropped)).filter (·.id ≠ o.id) := by
            rw [List.filter_filter]
            exact List.filter_congr fun m _ ↦ by simp [not_or]
          rw [hfilter]
          refine List.length_filter_lt_length_iff_exists.mpr
            ⟨o, List.mem_filter.mpr ⟨ho, decide_eq_true hfree⟩, by simp⟩
        · rfl

theorem plan_ends (reads : CutReads) : (plan reads).isSome := by
  rw [plan]
  split
  · rfl
  · dsimp only
    split
    · rfl
    · split
      · rfl
      · exact planFrom_ends _ _ (Nat.lt_succ_of_le (List.length_filter_le _ _))

/-- What the planner opens is a selection that the ledger does not refuse, of the pool less members
proven red. -/
theorem planFrom_right {p : Plan} : ∀ (n : ℕ) (dropped : List String),
    planFrom reads lane place base riding n dropped = some (.ok (some p)) →
      p.place = place ∧
      (∃ id, identity reads.repo p.members base lane = .ok id ∧
        refuses reads.ledger reads.records id = none) ∧
      ∃ dropped', p.members = select reads.pool dropped' riding ∧ ∀ d ∈ dropped', d ∈ dropped ∨
        ∃ m ∈ reads.poolMembers, m.id = d ∧ RedHere reads lane base (m.id, m.tip)
  | n + 1, dropped, h => by
    rw [planFrom] at h
    split at h
    · cases h
    · cases hid : identity reads.repo (select reads.pool dropped riding) base lane with
      | error e =>
        rw [hid] at h
        cases h
      | ok id =>
        rw [hid] at h
        dsimp only at h
        split at h
        · rename_i hrefuses
          cases h
          exact ⟨rfl, ⟨id, hid, hrefuses⟩, dropped, rfl, fun d hd ↦ .inl hd⟩
        · rename_i m tip hash hrefuses
          obtain ⟨hmem, hred⟩ := refuses_redMember hid hrefuses
          obtain ⟨⟨o, ho, hsame⟩, -⟩ := mem_pool_of_select hmem
          obtain ⟨rfl, rfl⟩ := Prod.mk.inj hsame
          obtain ⟨hplace, hledger, dropped', hmembers, hdropped⟩ := planFrom_right n _ h
          refine ⟨hplace, hledger, dropped', hmembers, fun d hd ↦ ?_⟩
          rcases hdropped d hd with hd | hd
          · rcases List.mem_cons.mp hd with rfl | hd
            · exact .inr ⟨o, ho, rfl, hred⟩
            · exact .inl hd
          · exact .inr hd
        · cases h

end Plan

/-! ## What a plan keeps to -/

/-- The record may be cut at that tip. -/
structure Cuttable (reads : CutReads) (x : String × String) (r : LifecycleRecord) : Prop where
  record : (x.1, r) ∈ reads.records
  repo : r.repo = some reads.repo
  state : r.stateIs ["SUBMITTED", "CERTIFIED"]
  tip : r.tip = some x.2
  ejected : r.ejectedRedTip ≠ some (some x.2)
  unheld : r.holds = 0
  free : ∀ live ∈ reads.rounds, x.1 ∉ (reads.roundMembers live.batch).map Prod.fst
  knob : x ∉ reads.held

/-- All that the record needs and that is not finished rides the stack, or goes before it. -/
structure Supplied (reads : CutReads) (stack : Stack) (pre : List (String × String)) (id : String)
    (r : LifecycleRecord) : Prop where
  stacked : ∀ p ∈ r.stack, p.1 ∉ reads.finished →
    reads.Rides stack p ∨ (∃ m ∈ reads.poolMembers, (m.id, m.tip) = p) ∧
      (Unwound reads.pool id → p ∈ pre)
  blocked : ∀ b ∈ r.blockedBy, b ∉ reads.finished → ∃ tip, reads.Rides stack (b, tip)

/-- What a plan of the reads keeps to, on that lane and base. -/
structure Planned (reads : CutReads) (lane : Lane) (base : String) (p : Plan) : Prop where
  place : (Stack.of lane reads.rounds).place lane reads.rounds = some (p.place, base)
  members : ∀ pre x post, p.members = pre ++ x :: post →
    ∃ r, Cuttable reads x r ∧ Supplied reads (Stack.of lane reads.rounds) pre x.1 r
  ledger : ∃ id, identity reads.repo p.members base lane = .ok id ∧
    refuses reads.ledger reads.records id = none
  clear : ∀ x ∈ p.members, ¬ RedHere reads lane base x
  /-- The plan is the selection of the pool less members proven red; with each of those goes what is
  stacked on it, and no other member that could go. -/
  dropped : ∃ dropped,
    (∀ d ∈ dropped, ∃ m ∈ reads.poolMembers, m.id = d ∧ RedHere reads lane base (m.id, m.tip)) ∧
      p.members = select reads.pool dropped (reads.riding (Stack.of lane reads.rounds)) ∧
      ∀ m, m ∈ Admissible
          (candidates reads.pool dropped (reads.riding (Stack.of lane reads.rounds))) ↔
        m ∈ Admissible (candidates reads.pool [] (reads.riding (Stack.of lane reads.rounds))) ∧
          ¬ ∃ d ∈ dropped, ReflTransGen
            (Upon (candidates reads.pool [] (reads.riding (Stack.of lane reads.rounds)))) d m.id

section Right

variable {reads : CutReads} {lane : Lane} {stack : Stack} {dropped : List String}
  {pre post : List (String × String)} {x : String × String}

/-- What rides at another tip than the one the member was built on does not satisfy it. -/
theorem cuttable_of_select (h : select reads.pool dropped (reads.riding stack) = pre ++ x :: post) :
    ∃ r, Cuttable reads x r ∧ Supplied reads stack pre x.1 r := by
  obtain ⟨m, ⟨members, hsupported, hm⟩, rfl, hstacked⟩ := select_split h
  obtain ⟨hcand, hunblocked, hstack⟩ := hsupported m hm
  obtain ⟨o, ho, rfl⟩ := List.mem_map.mp hcand
  obtain ⟨p, hp, m, hpooled, hfree, hheld, rfl⟩ :=
    reads.mem_poolMembers.mp (List.mem_filter.mp ho).1
  obtain ⟨hid, hrecordStack, hrecordBlocked, hrepo, hstate, htip, hejected, hholds⟩ :=
    pooled_eq_some hpooled
  have hinRounds : ∀ live ∈ reads.rounds,
      m.id ∉ (reads.roundMembers live.batch).map Prod.fst :=
    fun live hlive hin ↦ hfree (List.mem_flatMap.mpr ⟨live, hlive, hin⟩)
  refine ⟨p.2, ⟨hid ▸ hp, hrepo, hstate, htip, hejected, hholds, hinRounds, hheld⟩, ?_, ?_⟩
  · intro q hq hunfinished
    rw [← hrecordStack] at hq
    have hkept : q ∈ (reads.unfinished m).stack :=
      List.mem_filter.mpr ⟨hq, decide_eq_true hunfinished⟩
    by_cases hrides : (reads.riding stack).lookup q.1 = some q.2
    · obtain ⟨before, after, hsplit, -⟩ := List.lookup_eq_some_iff.mp hrides
      exact .inl (reads.mem_riding.mp (hsplit ▸ List.mem_append_right _ List.mem_cons_self))
    · have hwaits : q ∈ (reads.unfinished m).stack.filter fun p ↦
          (reads.riding stack).lookup p.1 ≠ some p.2 :=
        List.mem_filter.mpr ⟨hkept, decide_eq_true hrides⟩
      obtain ⟨o', ho', hid', htip'⟩ := hstack q hwaits
      obtain ⟨o'', ho'', rfl⟩ := List.mem_map.mp (hsupported o' ho').1
      exact .inr ⟨⟨o'', (List.mem_filter.mp ho'').1, Prod.ext hid' htip'⟩,
        fun hunwound ↦ hstacked hunwound.ordered q hwaits⟩
  · intro b hb hunfinished
    rw [← hrecordBlocked] at hb
    have hkept : b ∈ (reads.unfinished m).blockedBy :=
      List.mem_filter.mpr ⟨hb, decide_eq_true hunfinished⟩
    have hrides : b ∈ (reads.riding stack).map Prod.fst := by
      by_contra hnot
      have hblocks : b ∈ (reads.unfinished m).blockedBy.filter fun b ↦
          b ∉ (reads.riding stack).map Prod.fst :=
        List.mem_filter.mpr ⟨hkept, decide_eq_true hnot⟩
      exact List.eq_nil_iff_forall_not_mem.mp hunblocked b hblocks
    obtain ⟨q, hq, rfl⟩ := List.mem_map.mp hrides
    exact ⟨q.2, reads.mem_riding.mp hq⟩

/-- Where nothing is refused no member is proven red. -/
theorem clear_of_refuses {base : String} {members : List (String × String)} {id : PassIdentity}
    (hid : identity reads.repo members base lane = .ok id)
    (h : refuses reads.ledger reads.records id = none) (hx : x ∈ members) :
    ¬ RedHere reads lane base x := by
  rintro ⟨⟨r, hr, hbase, hdigest, hharness⟩, habsolved⟩
  obtain ⟨hperm, hbase', hdigest', hharness'⟩ := identity_ok hid
  rw [refuses] at h
  split at h
  · cases h
  · split at h
    · cases h
    · have hnone := List.findSome?_eq_none_iff.mp h x (hperm.mem_iff.mpr hx)
      rw [redOn, hr, Option.bind_some, if_pos] at hnone
      · cases hnone
      · rw [hbase, hdigest, hharness, hbase', hdigest', hharness', habsolved]
        exact ⟨rfl, Bool.false_ne_true⟩

end Right

/-- **The planner ends, and keeps to what it reads**: what it opens is cut of records that may be
cut, supplied with all they need, on a place that stands and with no refusal of the ledger. -/
theorem plan_right (reads : CutReads) : (plan reads).isSome ∧
    ∀ p, plan reads = some (.ok (some p)) →
      ∃ lane base, reads.lane = some lane ∧ Planned reads (atDepth reads lane) base p := by
  refine ⟨plan_ends reads, fun p h ↦ ?_⟩
  rw [plan] at h
  split at h
  · cases h
  · rename_i lane hlane
    dsimp only at h
    split at h
    · cases h
    · rename_i place base hplace
      split at h
      · cases h
      · obtain ⟨rfl, ⟨id, hid, hrefuses⟩, dropped, hmembers, hdropped⟩ := planFrom_right _ _ h
        refine ⟨lane, base, hlane, hplace, fun pre x post hsplit ↦ ?_, ⟨id, hid, hrefuses⟩,
          fun x hx ↦ clear_of_refuses hid hrefuses hx, dropped, fun d hd ↦ ?_, hmembers,
          fun m ↦ admissible_dropped⟩
        · exact cuttable_of_select (hmembers.symm.trans hsplit)
        · exact (hdropped d hd).resolve_left List.not_mem_nil

/-! ## A loop, a superseded blocker and two features -/

namespace Sample

def submitted (stack : List (String × String)) (blockedBy : List String) : LifecycleRecord :=
  ⟨some "r", some "SUBMITTED", some "t", none, 0, none, false, 1, stack, blockedBy⟩

/-- Two members that are each stacked on the other. -/
def loop : List (String × LifecycleRecord) :=
  [("a", submitted [("b", "t")] []), ("b", submitted [("a", "t")] [])]

/-- A member blocked by one that was superseded. -/
def superseded : List (String × LifecycleRecord) :=
  [("a", submitted [] ["b"]), ("b", { submitted [] [] with state := some "SUPERSEDED" })]

/-- A member stacked on `f.1`, and one that stands alone beside them. -/
def features : List (String × LifecycleRecord) :=
  [("e.1", submitted [] []), ("e.2", submitted [] []), ("f.1", submitted [] []),
    ("f.2", submitted [("f.1", "t")] []), ("f.3", submitted [] [])]

/-- The reads of those records, with no live round and no member proven red but the one. -/
def reads (records : List (String × LifecycleRecord)) (h : (records.map Prod.fst).Nodup)
    (red : Option String) : CutReads where
  repo := "r"
  lane := some ⟨"x0", "image", "harness", "selection", none⟩
  concurrency := none
  rounds := []
  roundMembers := fun _ ↦ []
  records := records
  nodup := h
  held := []
  ledger :=
    { fault := fun _ _ ↦ none
      summary := fun _ ↦ none
      byMember := fun m ↦ if some m.1 = red then some ⟨"verdict", "x0", "image", "harness"⟩ else none
      hash := fun id ↦ id.base
      nowMs := 0 }

end Sample

open Sample in
/-- In a loop a member goes before what it is stacked on; a blocker that is superseded, and so never
landed, holds nothing back; and with `f.1` proven red not only `f.2`, stacked on it, is left out but
`f.3` as well, as the round is then cut of the other feature. -/
theorem plan_loops :
    plan (reads loop (by decide) none) = some (.ok (some ⟨[("a", "t"), ("b", "t")], .onBase⟩)) ∧
    plan (reads superseded (by decide) none) = some (.ok (some ⟨[("a", "t")], .onBase⟩)) ∧
    plan (reads features (by decide) none) =
      some (.ok (some ⟨[("f.1", "t"), ("f.2", "t"), ("f.3", "t")], .onBase⟩)) ∧
    plan (reads features (by decide) (some "f.1")) =
      some (.ok (some ⟨[("e.1", "t"), ("e.2", "t")], .onBase⟩)) := by
  decide

end Spira.Controller.Planner
