import Mathlib.Data.List.Perm.Basic
import Mathlib.Data.List.Sort
import Mathlib.Data.String.Basic
import Mathlib.Logic.Function.Basic
import Spira.Lib.Digits
import Spira.Lib.History
import Spira.Lib.Json
import Spira.Lib.Text

/-!
# Scoped stops

A stop is recorded for some lanes of a repository, with an owner, a reason and the condition that
releases it.  A later pause merges its lanes into the record and puts its own condition in the place
of the earlier one, but the record keeps the time of the first.

A sweep therefore takes an entry into the state for the release that came before the condition was
set (`stale_entry_lifts`).  Stops lift only on their own condition exactly where no sweep finds such
an entry with none after it (`lifts_iff`).
-/

set_option autoImplicit false

namespace Spira.ScopedStop

def lanes : List String := ["claims", "rounds", "publish"]

structure RepoStop where
  repo : String
  lanes : List String
  owner : String
  reason : String
  /-- The release condition. -/
  untilText : String
  since : ℕ
  deriving DecidableEq

def validName (s : String) : Bool :=
  s ≠ "" && s.toList.all (fun c ↦ c.isAlphanum || c = '-' || c = '_' || c = '.') &&
    !Text.startsWith s "."

/-- The bead and state of a `bead:ID=STATE` release condition; `none` for free text. -/
def beadCondition (untilText : String) : Option (Except String (String × String)) :=
  if Text.startsWith (Text.trim untilText) "bead:" then
    let rest := (Text.trim untilText).toList.drop "bead:".length
    let parsed := (Text.splitOnce '=' rest).filter fun (b, st) ↦
      validName (String.ofList b) && st ≠ [] && st.all fun c ↦ c.isUpper || c = '_'
    some <| match parsed with
      | some (b, st) => .ok (String.ofList b, String.ofList st)
      | none => .error
          s!"release condition {Text.quoted untilText} is not bead:<id>=<STATE> (STATE in capitals)"
  else none

/-- An unsigned number of 64 bits, as a text has it. -/
def parseU64 (s : String) : Option ℕ :=
  let digits := if s.toList.head? = some '+' then s.toList.tail else s.toList
  if digits ≠ [] ∧ digits.all Char.isDigit ∧ Digits.value digits < 2 ^ 64 then
    some (Digits.value digits)
  else none

def num (v : Option Json) : Option ℕ :=
  v.bind fun x ↦ x.asU64 <|> x.asStr.bind parseU64

/-- When the row of a lifecycle history has an applied entry into the state. -/
def entryAt (state : String) (r : Json) : Option ℕ :=
  if (r.get "to_state").bind Json.asStr = some state ∧ (num (r.get "applied")).getD 0 = 1 then
    num (r.get "at")
  else none

/-- Whether the rows show the bead entering `state` at or after `since`. -/
def enteredState (history : List Json) (state : String) (since : ℕ) : Bool :=
  history.any fun r ↦ (entryAt state r).any (since ≤ ·)

/-! ## The records -/

/-- The files of the directory by their names. -/
abbrev Dir := List (String × RepoStop)

namespace Dir

def write (d : Dir) (path : String) (stop : RepoStop) : Dir :=
  (path, stop) :: d.filter fun f ↦ f.1 ≠ path

def remove (d : Dir) (path : String) : Dir := d.filter fun f ↦ f.1 ≠ path

end Dir

def repoPath (repo : String) : String := "repo-" ++ repo ++ ".json"

def repoStops (d : Dir) : List RepoStop :=
  (d.insertionSort fun f g ↦ f.1 ≤ g.1).map Prod.snd

def needs : List (String × String) → Option String
  | [] => none
  | (what, v) :: rest => if Text.trim v = "" then some s!"a stop needs a {what}" else needs rest

/-- The lanes that are stopped already, with those of `more` that are not. -/
def merge (all more : List String) : List String :=
  more.foldl (fun all l ↦ if l ∈ all then all else all ++ [l]) all

/-- The place of a lane in the list of them; one that is not there comes first. -/
def rank (lane : String) : ℕ := ((lanes.findIdx? (· = lane)).map (· + 1)).getD 0

def pauseRepo (d : Dir) (repo : String) (more : List String) (owner reason untilText : String)
    (now : ℕ) : Except String (Dir × RepoStop) :=
  if !validName repo then .error s!"bad repo name {Text.quoted repo}"
  else match needs [("owner", owner), ("reason", reason),
      ("release condition (--until)", untilText)] with
    | some e => .error e
    | none =>
      match beadCondition untilText with
      | some (.error e) => .error e
      | _ =>
        let prev := d.lookup (repoPath repo)
        let all := merge ((prev.map RepoStop.lanes).getD []) more
        let stop : RepoStop :=
          { repo, owner, reason, untilText
            lanes := all.insertionSort fun a b ↦ rank a ≤ rank b
            since := (prev.map RepoStop.since).getD now }
        .ok (d.write (repoPath repo) stop, stop)

/-- The lanes that are still stopped when the named are lifted, all when none is named. -/
def RepoStop.left (s : RepoStop) (named : List String) : List String :=
  if named ≠ [] then s.lanes.filter (· ∉ named) else []

/-- Lifts the lanes, and tells those that are still stopped. -/
def unpauseRepo (d : Dir) (repo : String) (named : List String) :
    Except String (Dir × Option (List String)) :=
  if !validName repo then .error s!"bad repo name {Text.quoted repo}"
  else match d.lookup (repoPath repo) with
    | none => .ok (d, none)
    | some stop =>
      if stop.left named = [] then .ok (d.remove (repoPath repo), some [])
      else .ok (d.write (repoPath repo) { stop with lanes := stop.left named },
        some (stop.left named))

/-- One stop of a sweep, with the repositories lifted so far and the conditions that could not be
read. -/
def sweepOne (reached : String → String → ℕ → Except String Bool)
    (acc : Dir × List String × List String) (s : RepoStop) : Dir × List String × List String :=
  let (d, lifted, unread) := acc
  match beadCondition s.untilText with
  | some (.ok (bead, state)) =>
    match reached bead state s.since with
    | .ok true =>
      match unpauseRepo d s.repo [] with
      | .ok (d, _) => (d, lifted ++ [s.repo], unread)
      | .error _ => (d, lifted, unread)
    | .ok false => (d, lifted, unread)
    | .error e => (d, lifted, unread ++ [s!"{s.repo}: {e}"])
  | _ => (d, lifted, unread)

/-- Lifts every stop whose condition is met. -/
def sweep (reached : String → String → ℕ → Except String Bool) (d : Dir) :
    Dir × List String × List String :=
  (repoStops d).foldl (sweepOne reached) (d, [], [])

/-! ## Runs -/

inductive Event
  | pause (repo : String) (named : List String) (owner reason untilText : String)
  | unpause (repo : String) (named : List String)
  /-- `fails` tells of a bead whose history cannot be read. -/
  | sweep (fails : String → Option String)
  /-- A row is added to the history of a bead. -/
  | entry (bead : String) (row : Json)

structure World where
  dir : Dir := []
  history : String → List Json := fun _ ↦ []
  /-- When the condition of a stop was set. -/
  set : String → ℕ := fun _ ↦ 0

namespace World

def stopOf (w : World) (repo : String) : Option RepoStop := w.dir.lookup (repoPath repo)

def reached (w : World) (fails : String → Option String) (bead state : String) (since : ℕ) :
    Except String Bool :=
  match fails bead with
  | some e => .error e
  | none => .ok (enteredState (w.history bead) state since)

/-- An event at a time. -/
def step (w : World) : ℕ × Event → World
  | (now, .pause repo named owner reason untilText) =>
    match pauseRepo w.dir repo named owner reason untilText now with
    | .ok (d, _) => { w with dir := d, set := Function.update w.set repo now }
    | .error _ => w
  | (_, .unpause repo named) =>
    match unpauseRepo w.dir repo named with
    | .ok (d, _) => { w with dir := d }
    | .error _ => w
  | (_, .sweep fails) => { w with dir := (ScopedStop.sweep (w.reached fails) w.dir).1 }
  | (_, .entry bead row) =>
    { w with history := Function.update w.history bead (w.history bead ++ [row]) }

end World

/-- The stop of the repository is gone after the event. -/
def Lifts (w : World) (e : ℕ × Event) (repo : String) : Prop :=
  (w.stopOf repo).isSome = true ∧ (w.step e).stopOf repo = none

/-- An applied entry of the bead into the state at or after the time. -/
def Entered (w : World) (bead state : String) (since : ℕ) : Prop :=
  ∃ row ∈ w.history bead, ∃ a, entryAt state row = some a ∧ since ≤ a

/-- A stop that the event lifts is one that it may lift: an unpause names all of its lanes or none,
and a sweep has read that the bead came into the state since the condition was set. -/
def OnCondition (w : World) (e : ℕ × Event) : Prop :=
  ∀ repo s, w.stopOf repo = some s → Lifts w e repo → match e.2 with
    | .unpause r named => r = repo ∧ (named = [] ∨ ∀ l ∈ s.lanes, l ∈ named)
    | .sweep fails => ∃ bead state, beadCondition s.untilText = some (.ok (bead, state)) ∧
        fails bead = none ∧ Entered w bead state (w.set repo)
    | _ => False

/-- No sweep finds an entry from before the condition was set, but after the record, with none
after it. -/
def Timely (w : World) (e : ℕ × Event) : Prop :=
  match e.2 with
  | .sweep fails => ∀ repo s bead state, w.stopOf repo = some s →
      beadCondition s.untilText = some (.ok (bead, state)) → fails bead = none →
      ∀ row ∈ w.history bead, ∀ a, entryAt state row = some a → s.since ≤ a → a < w.set repo →
        Entered w bead state (w.set repo)
  | _ => True

/-- The lane is stopped. -/
def Stopped (w : World) (repo lane : String) : Prop := ∃ s, w.stopOf repo = some s ∧ lane ∈ s.lanes

/-- The event is a pause of the lane that is not refused. -/
def Pauses (repo lane : String) (w : World) (e : ℕ × Event) : Prop :=
  match e.2 with
  | .pause r named owner reason untilText => r = repo ∧ lane ∈ named ∧
      ∃ res, pauseRepo w.dir r named owner reason untilText e.1 = .ok res
  | _ => False

/-- The event neither names the lane to be lifted nor lifts the stop. -/
def Keeps (repo lane : String) (w : World) (e : ℕ × Event) : Prop :=
  (∀ named, e.2 = .unpause repo named → lane ∉ named) ∧ ¬ Lifts w e repo

/-! ## What the operations do -/

section Dir

variable {d : Dir} {p q : String} {s : RepoStop}

theorem lookup_remove : (d.remove p).lookup q = if q = p then none else d.lookup q := by
  induction d with
  | nil => exact (ite_self none).symm
  | cons f d ih =>
    obtain ⟨k, t⟩ := f
    have hcons : Dir.remove ((k, t) :: d) p = if k = p then Dir.remove d p
        else (k, t) :: Dir.remove d p := by
      rw [Dir.remove, List.filter_cons]
      by_cases hk : k = p
      · rw [if_pos hk, if_neg (by simpa using hk)]
        rfl
      · rw [if_neg hk, if_pos (by simpa using hk)]
        rfl
    rw [hcons]
    by_cases hk : k = p
    · rw [if_pos hk, ih]
      by_cases hq : q = p
      · rw [if_pos hq, if_pos hq]
      · rw [if_neg hq, if_neg hq, List.lookup_cons, beq_eq_false_iff_ne.mpr fun h ↦ hq (h.trans hk)]
    · rw [if_neg hk, List.lookup_cons, List.lookup_cons, ih]
      by_cases hq : q = k
      · have hqp : q ≠ p := fun h ↦ hk (hq.symm.trans h)
        rw [if_neg hqp, if_neg hqp, beq_iff_eq.mpr hq]
      · rw [beq_eq_false_iff_ne.mpr hq]

theorem lookup_write : (d.write p s).lookup q = if q = p then some s else d.lookup q := by
  rw [Dir.write, List.lookup_cons]
  by_cases hq : q = p
  · rw [beq_iff_eq.mpr hq, if_pos hq]
  · rw [beq_eq_false_iff_ne.mpr hq, if_neg hq]
    exact lookup_remove.trans (if_neg hq)

theorem mem_of_lookup {α β : Type} [DecidableEq α] {l : List (α × β)} {a : α} {b : β}
    (h : l.lookup a = some b) : (a, b) ∈ l := by
  obtain ⟨l₁, l₂, rfl, -⟩ := List.lookup_eq_some_iff.mp h
  exact List.mem_append_right l₁ List.mem_cons_self

/-- Every file has the stop of the repository that it is named for. -/
structure Coherent (d : Dir) : Prop where
  path {f : String × RepoStop} : f ∈ d → f.1 = repoPath f.2.repo
  valid {f : String × RepoStop} : f ∈ d → validName f.2.repo = true
  nodup : (d.map Prod.fst).Nodup

theorem coherent_nil : Coherent [] where
  path h := by cases h
  valid h := by cases h
  nodup := List.nodup_nil

theorem Coherent.remove (h : Coherent d) : Coherent (d.remove p) where
  path hf := h.path (List.mem_of_mem_filter hf)
  valid hf := h.valid (List.mem_of_mem_filter hf)
  nodup := h.nodup.sublist (List.filter_sublist.map Prod.fst)

theorem Coherent.write (h : Coherent d) (hs : validName s.repo = true) :
    Coherent (d.write (repoPath s.repo) s) where
  path hf := by
    obtain rfl | hf := List.mem_cons.mp hf
    · rfl
    · exact h.remove.path hf
  valid hf := by
    obtain rfl | hf := List.mem_cons.mp hf
    · exact hs
    · exact h.remove.valid hf
  nodup := by
    refine List.nodup_cons.mpr ⟨?_, h.remove.nodup⟩
    rw [List.mem_map]
    rintro ⟨f, hf, hpath⟩
    exact of_decide_eq_true (List.mem_filter.mp hf).2 hpath

theorem Coherent.repo (h : Coherent d) (hs : d.lookup p = some s) :
    repoPath s.repo = p ∧ validName s.repo = true :=
  ⟨(h.path (mem_of_lookup hs)).symm, h.valid (mem_of_lookup hs)⟩

theorem Coherent.mem_repoStops (h : Coherent d) :
    s ∈ repoStops d ↔ d.lookup (repoPath s.repo) = some s := by
  rw [repoStops, List.mem_map]
  constructor
  · rintro ⟨f, hf, rfl⟩
    rw [List.mem_insertionSort] at hf
    rw [← h.path hf]
    obtain ⟨l₁, l₂, hd⟩ := List.append_of_mem hf
    refine List.lookup_eq_some_iff.mpr ⟨l₁, l₂, hd, fun g hg ↦ ?_⟩
    have hnodup := h.nodup
    rw [hd, List.map_append, List.map_cons] at hnodup
    rw [bne_iff_ne]
    intro heq
    exact List.disjoint_of_nodup_append hnodup (List.mem_map_of_mem hg)
      (heq ▸ List.mem_cons_self)
  · intro hs
    exact ⟨_, (List.mem_insertionSort _).mpr (mem_of_lookup hs), rfl⟩

theorem repoPath_inj {r r' : String} : repoPath r = repoPath r' ↔ r = r' := by
  constructor
  · intro h
    have hlist := congrArg String.toList h
    rw [repoPath, repoPath, String.toList_append, String.toList_append, String.toList_append,
      String.toList_append, List.append_cancel_right_eq, List.append_cancel_left_eq] at hlist
    exact String.toList_injective hlist
  · rintro rfl
    rfl

end Dir

section Operations

variable {d d' : Dir} {repo lane : String} {named : List String} {owner reason untilText : String}
  {now : ℕ} {s stop : RepoStop}

theorem mem_merge {all more : List String} : lane ∈ merge all more ↔ lane ∈ all ∨ lane ∈ more := by
  induction more generalizing all with
  | nil => exact (or_iff_left List.not_mem_nil).symm
  | cons l more ih =>
    rw [merge, List.foldl_cons]
    refine ih.trans ?_
    rw [List.mem_cons]
    by_cases hl : l ∈ all
    · rw [if_pos hl]
      constructor
      · rintro (h | h)
        · exact .inl h
        · exact .inr (.inr h)
      · rintro (h | rfl | h)
        · exact .inl h
        · exact .inl hl
        · exact .inr h
    · rw [if_neg hl, List.mem_append, List.mem_singleton, or_assoc]

/-- What a pause that is not refused does. -/
theorem pauseRepo_ok (h : pauseRepo d repo named owner reason untilText now = .ok (d', stop)) :
    validName repo = true ∧ stop.repo = repo ∧ stop.untilText = untilText ∧
      d' = d.write (repoPath repo) stop ∧ ∀ lane, lane ∈ stop.lanes ↔
        (∃ s, d.lookup (repoPath repo) = some s ∧ lane ∈ s.lanes) ∨ lane ∈ named := by
  rw [pauseRepo] at h
  by_cases hv : validName repo = true
  · rw [hv, Bool.not_true, if_neg Bool.false_ne_true] at h
    split at h
    · cases h
    · split at h
      · cases h
      · cases h
        refine ⟨hv, rfl, rfl, rfl, fun lane ↦ ?_⟩
        rw [List.mem_insertionSort, mem_merge]
        refine or_congr_left ?_
        cases d.lookup (repoPath repo) with
        | none =>
          refine iff_of_false List.not_mem_nil ?_
          rintro ⟨s, hs, -⟩
          cases hs
        | some s =>
          constructor
          · intro hl
            exact ⟨s, rfl, hl⟩
          · rintro ⟨_, ⟨⟩, hl⟩
            exact hl
  · rw [Bool.not_eq_true] at hv
    rw [hv] at h
    cases h

theorem mem_left {l : String} : l ∈ s.left named ↔ named ≠ [] ∧ l ∈ s.lanes ∧ l ∉ named := by
  rw [RepoStop.left]
  by_cases hnamed : named ≠ []
  · rw [if_pos hnamed, List.mem_filter, decide_eq_true_eq]
    exact (and_iff_right hnamed).symm
  · rw [if_neg hnamed]
    exact iff_of_false List.not_mem_nil fun h ↦ hnamed h.1

/-- The stop with the lanes that are left, if there is one left. -/
def RepoStop.lift (s : RepoStop) (named : List String) : Option RepoStop :=
  if s.left named = [] then none else some { s with lanes := s.left named }

theorem lift_nil : s.lift [] = none := rfl

/-- What an unpause does, for a name that is not refused. -/
theorem unpauseRepo_ok (named : List String) (h : Coherent d) (hv : validName repo = true) :
    ∃ d' left, unpauseRepo d repo named = .ok (d', left) ∧ Coherent d' ∧ ∀ q, d'.lookup q =
      if q = repoPath repo then (d.lookup q).bind (RepoStop.lift · named) else d.lookup q := by
  rw [unpauseRepo, hv, Bool.not_true, if_neg Bool.false_ne_true]
  cases hs : d.lookup (repoPath repo) with
  | none =>
    refine ⟨d, none, rfl, h, fun q ↦ ?_⟩
    by_cases hq : q = repoPath repo
    · rw [if_pos hq, hq, hs]
      rfl
    · rw [if_neg hq]
  | some s =>
    dsimp only
    by_cases hleft : s.left named = []
    · rw [if_pos hleft]
      refine ⟨_, _, rfl, h.remove, fun q ↦ ?_⟩
      rw [lookup_remove]
      by_cases hq : q = repoPath repo
      · rw [if_pos hq, if_pos hq, hq, hs, Option.bind_some, RepoStop.lift, if_pos hleft]
      · rw [if_neg hq, if_neg hq]
    · rw [if_neg hleft]
      obtain ⟨hpath, hvalid⟩ := h.repo hs
      have hwrite : Coherent (d.write (repoPath s.repo) { s with lanes := s.left named }) :=
        h.write (s := { s with lanes := s.left named }) hvalid
      refine ⟨_, _, rfl, hpath ▸ hwrite, fun q ↦ ?_⟩
      rw [lookup_write]
      by_cases hq : q = repoPath repo
      · rw [if_pos hq, if_pos hq, hq, hs, Option.bind_some, RepoStop.lift, if_neg hleft]
      · rw [if_neg hq, if_neg hq]

variable (reached : String → String → ℕ → Except String Bool)

/-- The condition of the stop is met. -/
def met (s : RepoStop) : Prop :=
  ∃ bead state, beadCondition s.untilText = some (.ok (bead, state)) ∧
    reached bead state s.since = .ok true

open Classical in
/-- A sweep lifts a stop just where its condition is met. -/
theorem sweepOne_lookup {acc : Dir × List String × List String} (h : Coherent acc.1)
    (hv : validName s.repo = true) : Coherent (sweepOne reached acc s).1 ∧
      ∀ q, (sweepOne reached acc s).1.lookup q =
        if met reached s ∧ q = repoPath s.repo then none else acc.1.lookup q := by
  obtain ⟨d, lifted, unread⟩ := acc
  have hstays (hmet : ¬ met reached s) (hsame : (sweepOne reached (d, lifted, unread) s).1 = d) :
      Coherent (sweepOne reached (d, lifted, unread) s).1 ∧
        ∀ q, (sweepOne reached (d, lifted, unread) s).1.lookup q =
          if met reached s ∧ q = repoPath s.repo then none else d.lookup q := by
    rw [hsame]
    exact ⟨h, fun q ↦ (if_neg fun hq ↦ hmet hq.1).symm⟩
  rcases hc : beadCondition s.untilText with _ | e | ⟨bead, state⟩
  · refine hstays ?_ (by rw [sweepOne, hc])
    rintro ⟨bead, state, hcond, -⟩
    rw [hc] at hcond
    cases hcond
  · refine hstays ?_ (by rw [sweepOne, hc])
    rintro ⟨bead, state, hcond, -⟩
    rw [hc] at hcond
    cases hcond
  · have hmet : met reached s ↔ reached bead state s.since = .ok true := by
      constructor
      · rintro ⟨bead', state', hcond, hr⟩
        rw [hc] at hcond
        cases hcond
        exact hr
      · intro hr
        exact ⟨bead, state, hc, hr⟩
    rcases hr : reached bead state s.since with e | hit
    · refine hstays ?_ (by rw [sweepOne, hc]; dsimp only; rw [hr])
      rw [hmet, hr]
      intro he
      cases he
    · cases hit with
      | false =>
        refine hstays ?_ (by rw [sweepOne, hc]; dsimp only; rw [hr])
        rw [hmet, hr]
        intro he
        cases he
      | true =>
        obtain ⟨d', left, hunpause, hcoh, hlookup⟩ := unpauseRepo_ok [] h hv
        have hone : (sweepOne reached (d, lifted, unread) s).1 = d' := by
          rw [sweepOne, hc]
          dsimp only
          rw [hr]
          dsimp only
          rw [hunpause]
        rw [hone]
        refine ⟨hcoh, fun q ↦ (hlookup q).trans ?_⟩
        by_cases hq : q = repoPath s.repo
        · rw [if_pos hq, if_pos ⟨hmet.mpr hr, hq⟩]
          cases d.lookup q <;> rfl
        · rw [if_neg hq, if_neg fun h ↦ hq h.2]

open Classical in
theorem sweep_fold {l : List RepoStop} (acc : Dir × List String × List String)
    (h : Coherent acc.1) (hv : ∀ s ∈ l, validName s.repo = true) :
    Coherent (l.foldl (sweepOne reached) acc).1 ∧
      ∀ q, (l.foldl (sweepOne reached) acc).1.lookup q =
        if ∃ s ∈ l, met reached s ∧ q = repoPath s.repo then none else acc.1.lookup q := by
  induction l generalizing acc with
  | nil =>
    refine ⟨h, fun q ↦ (if_neg ?_).symm⟩
    rintro ⟨s, hs, -⟩
    cases hs
  | cons s l ih =>
    obtain ⟨hone, hlookup⟩ := sweepOne_lookup reached h (hv s List.mem_cons_self)
    obtain ⟨hfold, hrest⟩ :=
      ih (sweepOne reached acc s) hone fun t ht ↦ hv t (List.mem_cons_of_mem s ht)
    rw [List.foldl_cons]
    refine ⟨hfold, fun q ↦ (hrest q).trans ?_⟩
    rw [hlookup, ← ite_or]
    refine if_congr ?_ rfl rfl
    rw [List.exists_mem_cons_iff]
    exact or_comm

open Classical in
/-- **A sweep lifts the stops whose conditions are met**, and leaves the others as they are. -/
theorem sweep_lookup (h : Coherent d) : Coherent (sweep reached d).1 ∧
    ∀ repo, (sweep reached d).1.lookup (repoPath repo) =
      (d.lookup (repoPath repo)).filter fun s ↦ ¬ met reached s := by
  have hv (s : RepoStop) (hs : s ∈ repoStops d) : validName s.repo = true :=
    (h.repo (h.mem_repoStops.mp hs)).2
  obtain ⟨hcoh, hlookup⟩ := sweep_fold reached (d, [], []) h hv
  refine ⟨hcoh, fun repo ↦ (hlookup (repoPath repo)).trans ?_⟩
  dsimp only
  cases hs : d.lookup (repoPath repo) with
  | none => exact ite_self none
  | some s =>
    obtain ⟨hpath, -⟩ := h.repo hs
    have hiff : (∃ t ∈ repoStops d, met reached t ∧ repoPath repo = repoPath t.repo) ↔
        met reached s := by
      constructor
      · rintro ⟨t, ht, hmet, heq⟩
        rw [h.mem_repoStops, ← heq, hs, Option.some.injEq] at ht
        exact ht ▸ hmet
      · intro hmet
        exact ⟨s, h.mem_repoStops.mpr (hpath ▸ hs), hmet, hpath.symm⟩
    rw [Option.filter_some]
    by_cases hmet : met reached s
    · rw [if_pos (hiff.mpr hmet), if_neg (by simpa using hmet)]
    · rw [if_neg fun h ↦ hmet (hiff.mp h), if_pos (by simpa using hmet)]

end Operations

section Steps

variable {w : World} {e : ℕ × Event} {now : ℕ} {repo r lane : String} {named : List String}
  {owner reason untilText : String} {fails : String → Option String} {s : RepoStop}

/-- What an event does to the stops. -/
inductive Turns (w : World) : ℕ × Event → (String → Option RepoStop) → Prop
  | pause {now : ℕ} {repo : String} {named : List String} {owner reason untilText : String}
      {d : Dir} {stop : RepoStop} :
      pauseRepo w.dir repo named owner reason untilText now = .ok (d, stop) →
      Turns w (now, .pause repo named owner reason untilText)
        (Function.update w.stopOf repo (some stop))
  | refused {now : ℕ} {repo : String} {named : List String} {owner reason untilText : String} :
      (∀ res, pauseRepo w.dir repo named owner reason untilText now ≠ .ok res) →
      Turns w (now, .pause repo named owner reason untilText) w.stopOf
  | unpause {now : ℕ} {repo : String} {named : List String} :
      Turns w (now, .unpause repo named)
        (Function.update w.stopOf repo ((w.stopOf repo).bind (RepoStop.lift · named)))
  | sweep {now : ℕ} {fails : String → Option String} {stops : String → Option RepoStop} :
      (∀ repo, w.stopOf repo = none → stops repo = none) →
      (∀ repo s, w.stopOf repo = some s → met (w.reached fails) s → stops repo = none) →
      (∀ repo s, w.stopOf repo = some s → ¬ met (w.reached fails) s → stops repo = some s) →
      Turns w (now, .sweep fails) stops
  | entry {now : ℕ} {bead : String} {row : Json} : Turns w (now, .entry bead row) w.stopOf

theorem step_turns (h : Coherent w.dir) (e : ℕ × Event) :
    Coherent (w.step e).dir ∧ Turns w e (w.step e).stopOf := by
  obtain ⟨now, e⟩ := e
  cases e with
  | pause repo named owner reason untilText =>
    cases hres : pauseRepo w.dir repo named owner reason untilText now with
    | error e =>
      have hstep : w.step (now, .pause repo named owner reason untilText) = w := by
        rw [World.step, hres]
      rw [hstep]
      refine ⟨h, .refused fun res hok ↦ ?_⟩
      rw [hres] at hok
      cases hok
    | ok res =>
      obtain ⟨d, stop⟩ := res
      obtain ⟨hv, hrepo, -, hd, -⟩ := pauseRepo_ok hres
      have hdir : (w.step (now, .pause repo named owner reason untilText)).dir = d := by
        rw [World.step, hres]
      have hstops : (w.step (now, .pause repo named owner reason untilText)).stopOf =
          Function.update w.stopOf repo (some stop) := by
        funext r
        rw [World.stopOf, hdir, hd, lookup_write, Function.update_apply]
        exact if_congr repoPath_inj rfl rfl
      rw [hdir, hstops]
      refine ⟨?_, .pause hres⟩
      rw [hd, ← hrepo]
      exact h.write (hrepo ▸ hv)
  | unpause repo named =>
    by_cases hv : validName repo = true
    · obtain ⟨d, left, hres, hcoh, hlookup⟩ := unpauseRepo_ok named h hv
      have hdir : (w.step (now, .unpause repo named)).dir = d := by
        rw [World.step, hres]
      have hstops : (w.step (now, .unpause repo named)).stopOf =
          Function.update w.stopOf repo ((w.stopOf repo).bind (RepoStop.lift · named)) := by
        funext r
        rw [World.stopOf, hdir, hlookup, Function.update_apply]
        by_cases hr : r = repo
        · rw [if_pos (repoPath_inj.mpr hr), if_pos hr, hr]
          rfl
        · rw [if_neg fun h ↦ hr (repoPath_inj.mp h), if_neg hr]
          rfl
      rw [hdir, hstops]
      exact ⟨hcoh, .unpause⟩
    · have hnone : w.stopOf repo = none := by
        cases hs : w.stopOf repo with
        | none => rfl
        | some s =>
          obtain ⟨hpath, hvalid⟩ := h.repo hs
          exact absurd (repoPath_inj.mp hpath ▸ hvalid) hv
      have hstep : w.step (now, .unpause repo named) = w := by
        rw [World.step, unpauseRepo, Bool.eq_false_of_not_eq_true hv]
        rfl
      have hsame : Function.update w.stopOf repo ((w.stopOf repo).bind (RepoStop.lift · named)) =
          w.stopOf := by
        rw [hnone]
        exact Function.update_eq_self_iff.mpr hnone.symm
      rw [hstep]
      refine ⟨h, ?_⟩
      have hunpause : Turns w (now, .unpause repo named) _ := .unpause
      rwa [hsame] at hunpause
  | sweep fails =>
    obtain ⟨hcoh, hlookup⟩ := sweep_lookup (w.reached fails) h
    refine ⟨hcoh, .sweep (fun r hr ↦ ?_) (fun r s hr hmet ↦ ?_) fun r s hr hmet ↦ ?_⟩
    · refine (hlookup r).trans ?_
      rw [show w.dir.lookup (repoPath r) = none from hr]
      rfl
    · refine (hlookup r).trans ?_
      rw [show w.dir.lookup (repoPath r) = some s from hr, Option.filter_some]
      exact if_neg (by simpa using hmet)
    · refine (hlookup r).trans ?_
      rw [show w.dir.lookup (repoPath r) = some s from hr, Option.filter_some]
      exact if_pos (by simpa using hmet)
  | entry bead row => exact ⟨h, .entry⟩

/-- The lanes that are stopped after an event: those it pauses, and those stopped before that it
keeps. -/
theorem stopped_step (h : Coherent w.dir) : Stopped (w.step e) repo lane ↔
    Pauses repo lane w e ∨ Stopped w repo lane ∧ Keeps repo lane w e := by
  obtain ⟨-, hturns⟩ := step_turns h e
  have hlifts : Lifts w e repo ↔
      (w.stopOf repo).isSome = true ∧ (w.step e).stopOf repo = none := Iff.rfl
  rw [Stopped, Keeps, hlifts]
  generalize (w.step e).stopOf = stops at hturns
  have hsame (hstop : stops repo = w.stopOf repo) :
      ¬ ((w.stopOf repo).isSome = true ∧ stops repo = none) := by
    rintro ⟨hs, hn⟩
    rw [← hstop, hn] at hs
    cases hs
  -- where the repository's stop is as it was, and no lane of it is named
  have hkept (hstop : stops repo = w.stopOf repo) (hp : ¬ Pauses repo lane w e)
      (hu : ∀ named, e.2 = .unpause repo named → lane ∉ named) :
      (∃ s, stops repo = some s ∧ lane ∈ s.lanes) ↔ Pauses repo lane w e ∨
        Stopped w repo lane ∧ (∀ named, e.2 = .unpause repo named → lane ∉ named) ∧
          ¬ ((w.stopOf repo).isSome = true ∧ stops repo = none) := by
    rw [or_iff_right hp, and_iff_left ⟨hu, hsame hstop⟩, hstop, Stopped]
  cases hturns with
  | @pause now r named owner reason untilText d stop hres =>
    by_cases hr : r = repo
    · subst hr
      obtain ⟨-, -, -, -, hlanes⟩ := pauseRepo_ok hres
      have hstop : Function.update w.stopOf r (some stop) r = some stop := Function.update_self ..
      have hpauses : Pauses r lane w (now, .pause r named owner reason untilText) ↔
          lane ∈ named := by
        constructor
        · rintro ⟨-, hmem, -⟩
          exact hmem
        · intro hmem
          exact ⟨rfl, hmem, _, hres⟩
      rw [hstop, hpauses]
      constructor
      · rintro ⟨_, ⟨⟩, hmem⟩
        obtain ⟨s, hs, hl⟩ | hl := (hlanes lane).mp hmem
        · refine .inr ⟨⟨s, hs, hl⟩, ?_, ?_⟩
          · intro named hu
            cases hu
          · rintro ⟨-, hn⟩
            cases hn
        · exact .inl hl
      · rintro (hl | ⟨⟨s, hs, hl⟩, -⟩)
        · exact ⟨stop, rfl, (hlanes lane).mpr (.inr hl)⟩
        · exact ⟨stop, rfl, (hlanes lane).mpr (.inl ⟨s, hs, hl⟩)⟩
    · refine hkept (Function.update_of_ne (Ne.symm hr) ..) ?_ fun named hu ↦ by cases hu
      rintro ⟨hr', -⟩
      exact hr hr'
  | refused hnone =>
    refine hkept rfl ?_ fun named hu ↦ by cases hu
    rintro ⟨-, -, res, hres⟩
    exact hnone res hres
  | @unpause now r named =>
    by_cases hr : r = repo
    · subst hr
      rw [Function.update_self]
      have hno : ¬ Pauses r lane w (now, .unpause r named) := fun h ↦ h
      rw [or_iff_right hno, Stopped]
      cases hs : w.stopOf r with
      | none =>
        refine iff_of_false ?_ ?_
        · rintro ⟨s, hs, -⟩
          cases hs
        · rintro ⟨⟨s, hs, -⟩, -⟩
          cases hs
      | some s =>
        rw [Option.bind_some, RepoStop.lift]
        by_cases hleft : s.left named = []
        · rw [if_pos hleft]
          refine iff_of_false ?_ fun h ↦ h.2.2 ⟨rfl, rfl⟩
          rintro ⟨s, hs, -⟩
          cases hs
        · rw [if_neg hleft]
          have hnamed : named ≠ [] := fun heq ↦ hleft (if_neg (not_not.mpr heq))
          constructor
          · rintro ⟨_, ⟨⟩, hl⟩
            obtain ⟨-, hl, hnot⟩ := mem_left.mp hl
            refine ⟨⟨s, rfl, hl⟩, ?_, fun h ↦ by cases h.2⟩
            rintro _ ⟨⟩
            exact hnot
          · rintro ⟨⟨_, ⟨⟩, hl⟩, hnot, -⟩
            exact ⟨_, rfl, mem_left.mpr ⟨hnamed, hl, hnot named rfl⟩⟩
    · refine hkept (Function.update_of_ne (Ne.symm hr) ..) (fun h ↦ h) ?_
      rintro _ ⟨⟩
      exact absurd rfl hr
  | @sweep now fails _ hn hmet hnot =>
    have hno : ¬ Pauses repo lane w (now, .sweep fails) := fun h ↦ h
    obtain hs | ⟨s, hs⟩ := (w.stopOf repo).eq_none_or_eq_some
    · exact hkept ((hn repo hs).trans hs.symm) hno fun named hu ↦ by cases hu
    · by_cases hm : met (w.reached fails) s
      · rw [hmet repo s hs hm]
        refine iff_of_false ?_ ?_
        · rintro ⟨s, hs, -⟩
          cases hs
        · rintro (h | ⟨-, -, h⟩)
          · exact h
          · exact h ⟨hs ▸ rfl, rfl⟩
      · exact hkept ((hnot repo s hs hm).trans hs.symm) hno fun named hu ↦ by cases hu
  | entry => exact hkept rfl (fun h ↦ h) fun named hu ↦ by cases hu

theorem met_iff : met (w.reached fails) s ↔ ∃ bead state,
    beadCondition s.untilText = some (.ok (bead, state)) ∧ fails bead = none ∧
      Entered w bead state s.since := by
  have hreached (bead state : String) : w.reached fails bead state s.since = .ok true ↔
      fails bead = none ∧ Entered w bead state s.since := by
    rw [World.reached]
    cases fails bead with
    | some e =>
      refine iff_of_false (fun h ↦ ?_) (fun h ↦ ?_)
      · cases h
      · cases h.1
    | none =>
      rw [Except.ok.injEq, enteredState, List.any_eq_true, and_iff_right rfl]
      refine exists_congr fun row ↦ and_congr_right' ?_
      rw [Option.any_eq_true]
      simp only [decide_eq_true_eq]
  rw [met]
  simp only [hreached]

/-- An event lifts on condition just where it is timely. -/
theorem onCondition_iff (h : Coherent w.dir) : OnCondition w e ↔ Timely w e := by
  obtain ⟨-, hturns⟩ := step_turns h e
  have hlifts (repo : String) : Lifts w e repo ↔
      (w.stopOf repo).isSome = true ∧ (w.step e).stopOf repo = none := Iff.rfl
  rw [OnCondition]
  simp only [hlifts]
  generalize (w.step e).stopOf = stops at hturns
  cases hturns with
  | @pause now r named owner reason untilText d stop hres =>
    refine iff_of_true ?_ trivial
    rintro repo s hs ⟨-, hnone⟩
    by_cases hr : repo = r
    · rw [hr, Function.update_self] at hnone
      cases hnone
    · rw [Function.update_of_ne hr, hs] at hnone
      cases hnone
  | refused =>
    refine iff_of_true ?_ trivial
    rintro repo s hs ⟨-, hnone⟩
    rw [hs] at hnone
    cases hnone
  | @unpause now r named =>
    refine iff_of_true ?_ trivial
    rintro repo s hs ⟨-, hnone⟩
    by_cases hr : repo = r
    · subst hr
      rw [Function.update_self, hs, Option.bind_some, RepoStop.lift] at hnone
      refine ⟨rfl, ?_⟩
      by_cases hnamed : named = []
      · exact .inl hnamed
      · refine .inr fun l hl ↦ by_contra fun hnot ↦ ?_
        have hleft : s.left named ≠ [] :=
          List.ne_nil_of_mem (mem_left.mpr ⟨hnamed, hl, hnot⟩)
        rw [if_neg hleft] at hnone
        cases hnone
    · rw [Function.update_of_ne hr, hs] at hnone
      cases hnone
  | @sweep now fails _ hn hmet hnot =>
    constructor
    · intro hall repo s bead state hs hcond hread row hrow a ha hsince hset
      have hm : met (w.reached fails) s :=
        met_iff.mpr ⟨bead, state, hcond, hread, row, hrow, a, ha, hsince⟩
      obtain ⟨bead', state', hcond', -, hentered⟩ :=
        hall repo s hs ⟨hs ▸ rfl, hmet repo s hs hm⟩
      rw [hcond] at hcond'
      cases hcond'
      exact hentered
    · rintro htimely repo s hs ⟨-, hnone⟩
      have hm : met (w.reached fails) s := by
        by_contra hm
        rw [hnot repo s hs hm] at hnone
        cases hnone
      obtain ⟨bead, state, hcond, hread, row, hrow, a, ha, hsince⟩ := met_iff.mp hm
      refine ⟨bead, state, hcond, hread, ?_⟩
      by_cases hset : w.set repo ≤ a
      · exact ⟨row, hrow, a, ha, hset⟩
      · exact htimely repo s bead state hs hcond hread row hrow a ha hsince (Nat.lt_of_not_le hset)
  | entry =>
    refine iff_of_true ?_ trivial
    rintro repo s hs ⟨-, hnone⟩
    rw [hs] at hnone
    cases hnone

end Steps

open History

/-- A stop is only lifted on its own condition, and at every point the lanes that are stopped are
those paused since the last full lift, and not lifted since. -/
def Sound (es : List (ℕ × Event)) : Prop :=
  Always World.step OnCondition {} es ∧ ∀ pre post, es = pre ++ post → ∀ repo lane,
    Stopped (run World.step {} pre) repo lane ↔
      Since World.step (Pauses repo lane) (Keeps repo lane) {} pre

theorem coherent_run (es : List (ℕ × Event)) : Coherent (run World.step {} es).dir := by
  induction es using List.reverseRecOn with
  | nil => exact coherent_nil
  | append_singleton es e ih =>
    rw [run_snoc]
    exact (step_turns ih e).1

theorem stopped_run (es : List (ℕ × Event)) (repo lane : String) :
    Stopped (run World.step {} es) repo lane ↔
      Since World.step (Pauses repo lane) (Keeps repo lane) {} es := by
  induction es using List.reverseRecOn with
  | nil =>
    refine iff_of_false ?_ not_since_nil
    rintro ⟨s, hs, -⟩
    cases hs
  | append_singleton es e ih =>
    rw [run_snoc, since_snoc, stopped_step (coherent_run es), ih]

/-- **Stops lift on their own condition** exactly in the runs where no sweep finds an entry from
before the condition was set, but after the record, with none after it. -/
theorem lifts_iff (es : List (ℕ × Event)) : Sound es ↔ Always World.step Timely {} es := by
  have hlanes (pre post : List (ℕ × Event)) (_ : es = pre ++ post) (repo lane : String) :
      Stopped (run World.step {} pre) repo lane ↔
        Since World.step (Pauses repo lane) (Keeps repo lane) {} pre :=
    stopped_run pre repo lane
  rw [Sound, and_iff_left hlanes]
  constructor
  · intro h pre e post hes
    exact (onCondition_iff (coherent_run pre)).mp (h pre e post hes)
  · intro h pre e post hes
    exact (onCondition_iff (coherent_run pre)).mpr (h pre e post hes)

def early : Json := .obj [("to_state", .str "REWORK"), ("applied", .int 1), ("at", .int 50)]

/-- `b` came into `REWORK` before the pause that waits for it, but after the record. -/
def stale : List (ℕ × Event) :=
  [(10, .pause "r" ["rounds"] "o" "why" "fix lands"),
    (50, .entry "b" early),
    (99, .pause "r" ["claims"] "o" "why" "bead:b=REWORK")]

/-- The sweep lifts the stop, and `b` has not come into `REWORK` since the pause. -/
theorem stale_entry_lifts :
    ¬ ∀ es : List (ℕ × Event), (es.map Prod.fst).Pairwise (· ≤ ·) → Sound es := by
  intro h
  have hsound : Sound (stale ++ [(100, .sweep fun _ ↦ none)]) := h _ (by decide)
  have htimely : Timely (run World.step {} stale) (100, .sweep fun _ ↦ none) :=
    (onCondition_iff (coherent_run stale)).mp (hsound.1 stale _ [] rfl)
  have hstop : (run World.step {} stale).stopOf "r" =
      some ⟨"r", ["claims", "rounds"], "o", "why", "bead:b=REWORK", 10⟩ := by decide
  have hcond : beadCondition "bead:b=REWORK" = some (.ok ("b", "REWORK")) := by decide
  have hset : (run World.step {} stale).set "r" = 99 := by decide
  have hhistory : (run World.step {} stale).history "b" = [early] := by decide
  have hentry : entryAt "REWORK" early = some 50 := by decide
  obtain ⟨row, hrow, a, ha, hle⟩ : Entered (run World.step {} stale) "b" "REWORK" _ :=
    htimely "r" _ "b" "REWORK" hstop hcond rfl early (hhistory ▸ List.mem_cons_self) 50 hentry
      (by decide) (by rw [hset]; decide)
  rw [hhistory, List.mem_singleton] at hrow
  rw [hrow, hentry] at ha
  rw [hset, ← Option.some.inj ha] at hle
  exact absurd hle (by decide)

end Spira.ScopedStop
