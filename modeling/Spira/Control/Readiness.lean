import Spira.Control.Beads

/-!
# What is published of a bead

The readiness of a bead is one record with several publishers: a readiness pass, a verdict pass,
the sweep that escalates, and the writes of single edges.  Each publishes by an update, which
changes the fields it is for and leaves the others.  A readiness pass is for the whole list of
blockers, and so for every edge; a write of an edge is for that edge.

So where updates are made one after the other, each field is as the last update for it left it
(`left_of_spared`).
-/

set_option autoImplicit false

namespace Spira.Control.Publishers

/-! ## Updates -/

/-- One record as the dispatcher judged it. -/
structure Judged where
  id : String
  claimable : Bool
  blockedBy : List String
  gates : Std.ExtTreeMap String (Option Gate)
  verdict : Option String
  blocker : Option String
  runes : List String
  deriving DecidableEq

/-- What a whole pass was judged at. -/
structure Pass where
  judgedAt : String
  planningWatermark : Option String
  /-- The revision the records were read at; the head when the producer has none. -/
  judgedAtRev : Option ℕ
  deriving DecidableEq

structure Verdict where
  id : String
  verdict : String
  blocker : Option String
  runes : List String
  deriving DecidableEq

/-- What one publisher merges into a readiness. -/
inductive Update
  /-- A readiness pass's judgement; one without a verdict leaves the verdict pass's. -/
  | judged (pass : Pass) (j : Judged)
  | verdict (judgedAt : String) (v : Verdict)
  | escalated
  | edge (dep : String) (edge : Edge)
  deriving DecidableEq

/-- The record with the update merged in, by a publisher that read it at `head`. -/
def Update.apply (head : ℕ) (u : Update) (r : Readiness) : Readiness :=
  match u with
  | .judged pass j =>
    let r := { r with
      claimable := j.claimable
      blockedBy := j.blockedBy
      gates := j.gates
      judgedForClaim := true }
    let r :=
      match j.verdict with
      | some word => { r with verdict := some word, blocker := j.blocker, runes := j.runes }
      | none => r
    { r with
      judgedAt := some pass.judgedAt
      judgedAtPlanningWatermark := pass.planningWatermark
      judgedAtRev := pass.judgedAtRev.getD head }
  | .verdict judgedAt v =>
    let r := { r with
      verdict := some v.verdict, blocker := v.blocker, runes := v.runes, judgedAt := some judgedAt }
    if !r.judgedForClaim then { r with judgedAtRev := head } else r
  | .escalated => { r with openEscalated := true }
  | .edge dep e =>
    let kept := r.blockedBy.filter (· ≠ dep)
    match e with
    | .blocks => { r with blockedBy := (kept ++ [dep]).insertionSort (· ≤ ·) }
    | .unblocks => { r with blockedBy := kept }

/-- The record after one update and another, each merged by a publisher that had read some head. -/
def made (r : Readiness) (us : List (ℕ × Update)) : Readiness :=
  us.foldl (fun r u ↦ u.2.apply u.1 r) r

@[simp] theorem made_nil (r : Readiness) : made r [] = r := rfl

@[simp] theorem made_cons (r : Readiness) (u : ℕ × Update) (us : List (ℕ × Update)) :
    made r (u :: us) = made (u.2.apply u.1 r) us := rfl

theorem made_append (r : Readiness) (us vs : List (ℕ × Update)) :
    made r (us ++ vs) = made (made r us) vs := List.foldl_append ..

/-! ## Fields -/

/-- The fields of a readiness; of the blockers, each edge is one. -/
inductive Field
  | claimable
  | gates
  | judgedForClaim
  | verdict
  | blocker
  | runes
  | judgedAt
  | planningWatermark
  | judgedAtRev
  | openEscalated
  | edge (dep : String)
  deriving DecidableEq

/-- Two records are the same in the field. -/
def Field.Same (r r' : Readiness) : Field → Prop
  | claimable => r.claimable = r'.claimable
  | gates => r.gates = r'.gates
  | judgedForClaim => r.judgedForClaim = r'.judgedForClaim
  | verdict => r.verdict = r'.verdict
  | blocker => r.blocker = r'.blocker
  | runes => r.runes = r'.runes
  | judgedAt => r.judgedAt = r'.judgedAt
  | planningWatermark => r.judgedAtPlanningWatermark = r'.judgedAtPlanningWatermark
  | judgedAtRev => r.judgedAtRev = r'.judgedAtRev
  | openEscalated => r.openEscalated = r'.openEscalated
  | edge dep => dep ∈ r.blockedBy ↔ dep ∈ r'.blockedBy

/-- The update of `r` is for the field. -/
def Update.writes (r : Readiness) : Update → Field → Bool
  | .judged _ j, .verdict | .judged _ j, .blocker | .judged _ j, .runes => j.verdict.isSome
  | .judged .., .openEscalated => false
  | .judged .., _ => true
  | .verdict .., .verdict | .verdict .., .blocker | .verdict .., .runes | .verdict .., .judgedAt => true
  | .verdict .., .judgedAtRev => !r.judgedForClaim
  | .escalated, .openEscalated => true
  | .edge dep _, .edge dep' => dep = dep'
  | _, _ => false

/-- The record has in the field what the update puts there, merged at `head`. -/
def Update.Left (head : ℕ) (r : Readiness) : Update → Field → Prop
  | .judged _ j, .claimable => r.claimable = j.claimable
  | .judged _ j, .gates => r.gates = j.gates
  | .judged .., .judgedForClaim => r.judgedForClaim = true
  | .judged _ j, .verdict => r.verdict = j.verdict
  | .judged _ j, .blocker => r.blocker = j.blocker
  | .judged _ j, .runes => r.runes = j.runes
  | .judged pass _, .judgedAt => r.judgedAt = some pass.judgedAt
  | .judged pass _, .planningWatermark => r.judgedAtPlanningWatermark = pass.planningWatermark
  | .judged pass _, .judgedAtRev => r.judgedAtRev = pass.judgedAtRev.getD head
  | .judged _ j, .edge dep => dep ∈ r.blockedBy ↔ dep ∈ j.blockedBy
  | .verdict _ v, .verdict => r.verdict = some v.verdict
  | .verdict _ v, .blocker => r.blocker = v.blocker
  | .verdict _ v, .runes => r.runes = v.runes
  | .verdict judgedAt _, .judgedAt => r.judgedAt = some judgedAt
  | .verdict .., .judgedAtRev => r.judgedAtRev = head
  | .escalated, .openEscalated => r.openEscalated = true
  | .edge _ e, .edge dep => dep ∈ r.blockedBy ↔ e = .blocks
  | _, _ => True

section Fields

variable {head : ℕ} {u : Update} {f : Field} {r r' r'' : Readiness}

theorem Field.Same.refl (r : Readiness) (f : Field) : f.Same r r := by
  cases f <;> rfl

theorem Field.Same.trans (h : f.Same r r') (h' : f.Same r' r'') : f.Same r r'' := by
  cases f with
  | edge dep => exact Iff.trans h h'
  | _ => exact Eq.trans h h'

theorem mem_edge {dep dep' : String} {e : Edge} :
    dep' ∈ ((Update.edge dep e).apply head r).blockedBy ↔
      if dep' = dep then e = .blocks else dep' ∈ r.blockedBy := by
  have hkept : dep' ∈ r.blockedBy.filter (· ≠ dep) ↔ dep' ∈ r.blockedBy ∧ dep' ≠ dep := by
    simp [List.mem_filter]
  cases e with
  | blocks =>
    show dep' ∈ ((r.blockedBy.filter (· ≠ dep)) ++ [dep]).insertionSort (· ≤ ·) ↔ _
    rw [(List.perm_insertionSort _ _).mem_iff, List.mem_append, hkept, List.mem_singleton]
    by_cases h : dep' = dep <;> simp [h]
  | unblocks =>
    show dep' ∈ r.blockedBy.filter (· ≠ dep) ↔ _
    rw [hkept]
    by_cases h : dep' = dep <;> simp [h]

/-- A write of one edge changes nothing but the blockers. -/
theorem same_edge {dep : String} {e : Edge} (hf : ∀ dep, f ≠ .edge dep) :
    f.Same ((Update.edge dep e).apply head r) r := by
  cases f with
  | edge dep => exact absurd rfl (hf dep)
  | _ => cases e <;> rfl

/-- **What an update is not for, it leaves.** -/
theorem same_of_spared (h : u.writes r f = false) : f.Same (u.apply head r) r := by
  cases u with
  | judged pass j =>
    obtain ⟨_, _, _, _, word, _, _⟩ := j
    cases word <;> cases f <;> first | rfl | exact nomatch h
  | verdict judgedAt v =>
    obtain ⟨_, _, _, _, _, _, _, _, _, judged, _⟩ := r
    cases judged <;> cases f <;> first | rfl | exact nomatch h
  | escalated =>
    cases f with
    | openEscalated => cases h
    | edge dep => exact Iff.rfl
    | _ => rfl
  | edge dep e =>
    cases f with
    | edge dep' =>
      have hne : dep' ≠ dep := fun heq ↦ by simp [Update.writes, heq] at h
      exact mem_edge.trans (by rw [if_neg hne])
    | _ => exact same_edge (by rintro _ ⟨⟩)

/-- **What an update is for, it leaves as it puts it.** -/
theorem left_apply (h : u.writes r f = true) : u.Left head (u.apply head r) f := by
  cases u with
  | judged pass j =>
    obtain ⟨_, _, _, _, word, _, _⟩ := j
    cases word <;> cases f <;> first | rfl | exact nomatch h
  | verdict judgedAt v =>
    obtain ⟨_, _, _, _, _, _, _, _, _, judged, _⟩ := r
    cases judged <;> cases f <;> first | rfl | exact nomatch h
  | escalated => cases f <;> first | rfl | exact nomatch h
  | edge dep e =>
    cases f with
    | edge dep' =>
      obtain rfl : dep = dep' := by simpa [Update.writes] using h
      exact mem_edge.trans (by rw [if_pos rfl])
    | _ => cases h

/-- What is left in a field is a matter of the field. -/
theorem left_congr (h : f.Same r r') : u.Left head r' f → u.Left head r f := by
  cases u <;> cases f <;> first | exact Eq.trans h | exact Iff.trans h | exact fun _ ↦ trivial

end Fields

/-! ## The last update for a field -/

/-- None of the updates, made one after the other to `r`, is for the field. -/
def Spared (f : Field) : Readiness → List (ℕ × Update) → Prop
  | _, [] => True
  | r, u :: us => u.2.writes r f = false ∧ Spared f (u.2.apply u.1 r) us

theorem same_made {f : Field} : ∀ {us : List (ℕ × Update)} {r : Readiness}, Spared f r us →
    f.Same (made r us) r
  | [], r, _ => .refl r f
  | _ :: _, _, h => (same_made h.2).trans (same_of_spared h.1)

/-- **Each field is as the last update for it left it.** -/
theorem left_of_spared {r : Readiness} {before after : List (ℕ × Update)} {head : ℕ} {u : Update}
    {f : Field} (hw : u.writes (made r before) f = true)
    (hs : Spared f (u.apply head (made r before)) after) :
    u.Left head (made r (before ++ (head, u) :: after)) f := by
  rw [made_append, made_cons]
  exact left_congr (same_made hs) (left_apply hw)

end Spira.Control.Publishers
