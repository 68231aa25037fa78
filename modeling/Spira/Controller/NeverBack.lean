import Spira.Controller.Forward

/-!
# The lane's law over runs

Any number of Lander passes and of records of the lane, in any order of accesses, with landings in
git, lapses of leases and other writers between them.  `lane_never_back` is the law, under the
condition that the source's compares do not ensure; `lane_moved_back` is a run without it.
-/

set_option autoImplicit false

namespace Spira.Controller

open Batch Records

variable {git : Ancestry}

/-! ## Runs -/

/-- What is started: a Lander's pass, or a record of the lane. -/
inductive Task
  | land
  | record
  deriving DecidableEq

inductive Answer
  | landings (landings : List (String × Landing))
  | recorded (recorded : Recorded)

def Task.program (git : Ancestry) (repo : String) : Task → Prog World (Except Refusal Answer)
  | land => (do return .landings (← Controller.land git repo) : Run Refusal Answer)
  | record => (do return .recorded (← Controller.record git repo) : Run Refusal Answer)

/-- What the surroundings do between two accesses. -/
inductive Env
  /-- A landing in git, by whatever hand. -/
  | landing (commit : String)
  /-- Another writer's transaction: of rounds, their statuses and their leases, not of the lane. -/
  | others (t : Txn)
  /-- Another writer of the lane, of fields other than its landing ref. -/
  | tune (selection : String) (concurrency : Option ℕ)
  /-- A lease lapses. -/
  | lapse (batch : String)
  | storeDown (why : Option String)
  | gitDown (why : Option String)
  | queue (lands supersedes : Except VerbRefusal Unit)
  | install (installed : Except String (Option (String × String)))
  | clock (now : ℕ)

def World.env (git : Ancestry) (e : Env) (w : World) : World :=
  match e with
  | .landing commit => if git.under w.ref commit then { w with ref := commit } else w
  | .others t => if t.ops.all (·.key ≠ .lane) then { w with store := t.run w.store } else w
  | .tune selection concurrency =>
    match w.store.items .lane with
    | some lane =>
      let lane := { lane.value with selection := selection, concurrency := concurrency }
      { w with store := w.store.commit [.put .lane lane] }
    | none => w
  | .lapse batch => { w with store := w.store.commit [.delete (.roundLock batch)] }
  | .storeDown why => { w with storeDown := why }
  | .gitDown why => { w with gitDown := why }
  | .queue lands supersedes => { w with lands := lands, supersedes := supersedes }
  | .install installed => { w with installed := installed }
  | .clock now => { w with now := now }

/-- The world and the programs after some turns; when the host restarts, every program is gone. -/
abbrev runs (git : Ancestry) (repo : String) (w : World) (turns : List (Turn Env Unit Task)) :
    Pool World (Except Refusal Answer) Task :=
  Pool.run (World.env git) (fun _ w ↦ w) (Task.program git repo) w turns

/-- A world in which nothing was told yet, and the lane, if any, names a commit under the landing
ref. -/
structure World.Fresh (git : Ancestry) (w : World) : Prop where
  told : w.told = []
  dated : w.store.Dated
  lane (at_ : String) (h : w.landingRef = some at_) : git.under at_ w.ref

theorem World.Fresh.sound {w : World} (h : w.Fresh git) : w.Sound git where
  dated := h.dated
  under _ := h.lane
  recorded _ round ref hm := by
    rw [h.told] at hm
    cases hm

theorem landingRef_commit {s : Store} {ops : List Op} (h : ∀ o ∈ ops, o.key ≠ .lane) :
    (s.commit ops).items .lane = s.items .lane :=
  items_commit_of_notMem fun hm ↦ by
    obtain ⟨o, ho, hk⟩ := List.mem_map.mp hm
    exact h o ho hk

theorem env_forward (e : Env) (w : World) : Forward git w (World.env git e w) := by
  cases e with
  | landing commit =>
    rw [World.env]
    split
    · rename_i hunder
      exact forward_of_same rfl rfl hunder (.refl _) id
    · exact .refl _
  | others t =>
    rw [World.env]
    split
    · rename_i ht
      refine forward_of_same rfl ?_ (git.refl _) (later_run _ _) (·.run _)
      rw [World.landingRef, World.landingRef, Txn.run]
      split
      · dsimp only
        rw [landingRef_commit fun o ho ↦ by simpa using List.all_eq_true.mp ht o ho]
      · rfl
    · exact .refl _
  | tune selection concurrency =>
    rw [World.env]
    split
    · rename_i lane hlane
      refine forward_of_same rfl ?_ (git.refl _) (later_commit _ _) (·.commit _)
      rw [World.landingRef, World.landingRef, hlane]
      dsimp only
      rw [items_commit_put]
      rfl
    · exact .refl _
  | lapse batch =>
    refine forward_of_same rfl ?_ (git.refl _) (later_commit w.store [.delete (.roundLock batch)])
      fun h ↦ h.commit _
    rw [World.landingRef, World.landingRef, World.env]
    dsimp only
    rw [landingRef_commit (by simp [Op.key])]
  | _ => exact forward_of_same rfl rfl (git.refl _) (.refl _) id

theorem program_keeps {repo : String} (t : Task) {w : World} (hw : w.Sound git) :
    (t.program git repo).Keeps (Onward git) (Forward git) (fun _ _ ↦ True) w := by
  have hkeeps : Verb.Keeps (Onward git) (Forward git) (fun _ _ ↦ True) (fun _ ↦ True)
      (t.program git repo) w := by
    cases t with
    | land => exact Verb.keeps_bind .refl ((land_keeps hw).imp fun _ _ _ ↦
        Verb.keeps_pure fun _ _ ↦ trivial)
    | record => exact Verb.keeps_bind .refl ((record_keeps hw).imp fun _ _ _ ↦
        Verb.keeps_pure fun _ _ ↦ trivial)
  exact Prog.Keeps.imp hkeeps id id fun _ _ _ ↦ trivial

variable {repo : String} {w : World}

theorem runs_sound (hw : w.Sound git) (turns : List (Turn Env Unit Task)) :
    (runs git repo w turns).state.Sound git ∧ ∀ t ∈ (runs git repo w turns).threads,
      t.2.Keeps (Onward git) (Forward git) (fun _ _ ↦ True) (runs git repo w turns).state :=
  Pool.keeps_run (I := World.Sound git) (R := Onward git) (G := Forward git)
    (Q := fun _ _ _ ↦ True) .refl Onward.trans .refl
    (·.toOnward) (fun h hR ↦ hR.sound h) (fun e a _ ↦ (env_forward e a).toOnward)
    (fun _ _ h ↦ h) (fun t _ h ↦ program_keeps t h) hw turns

/-- Every turn of a run moves the lane, if at all, not back. -/
theorem turn_forward (hw : w.Sound git) (pre : List (Turn Env Unit Task)) (t : Turn Env Unit Task) :
    Forward git (runs git repo w pre).state (runs git repo w (pre ++ [t])).state := by
  rw [runs, runs, Pool.run_append, List.foldl_cons, List.foldl_nil]
  cases t with
  | env e => exact env_forward e _
  | spawn t => exact .refl _
  | turn i =>
    exact Pool.keeps_turn (R := Onward git) (G := Forward git) (Q := fun _ _ _ ↦ True) .refl .refl (runs_sound hw pre).2 i
  | restart d => exact .refl _

theorem runs_onward (hw : w.Sound git) (pre post : List (Turn Env Unit Task)) :
    Onward git (runs git repo w pre).state (runs git repo w (pre ++ post)).state := by
  induction post using List.reverseRecOn with
  | nil => exact (List.append_nil pre).symm ▸ .refl _
  | append_singleton post t ih =>
    rw [← List.append_assoc]
    exact ih.trans (turn_forward hw (pre ++ post) t).toOnward

/-- The law: no turn of the run moves the lane's landing ref to a strict ancestor of what it was,
and every round that was recorded landed had its head under the landing ref when it was. -/
structure NeverBack (git : Ancestry) (repo : String) (w : World)
    (turns : List (Turn Env Unit Task)) : Prop where
  lane {pre post : List (Turn Env Unit Task)} {t : Turn Env Unit Task}
    (ht : turns = pre ++ t :: post) {x y : String}
    (hx : (runs git repo w pre).state.landingRef = some x)
    (hy : (runs git repo w (pre ++ [t])).state.landingRef = some y) : ¬ git.Behind y x
  recorded {round : Round} {ref : String}
    (hm : .recorded round ref ∈ (runs git repo w turns).state.told) :
    ∃ head, round.row.head = some head ∧ git.under head ref

/-- **The lane never moves back**, in every run in which no Lander reads a lane that was recorded,
since it looked at git, beyond what it carries. -/
theorem lane_never_back (git : Ancestry) (repo : String) (w : World) (hw : w.Fresh git)
    (turns : List (Turn Env Unit Task))
    (ho : InOrder git (runs git repo w turns).state.told) : NeverBack git repo w turns where
  lane {pre post t} ht x y hx hy := by
    subst ht
    have hpost : Onward git (runs git repo w (pre ++ [t])).state
        (runs git repo w (pre ++ [t] ++ post)).state := runs_onward hw.sound (pre ++ [t]) post
    rw [List.append_assoc, List.singleton_append] at hpost
    exact (turn_forward hw.sound pre t).forward (runs_sound hw.sound pre).1 (hpost.inOrder ho) hx hy
  recorded hm := (runs_sound hw.sound turns).1.recorded ho _ _ hm

/-! ## A lane moved back -/

section Line

variable (place : String → Option ℕ)

/-- The same commit, or one with a lower place. -/
def onLine (a b : String) : Bool :=
  a == b || match place a, place b with
    | some i, some j => decide (i < j)
    | _, _ => false

theorem onLine_refl (a : String) : onLine place a a := by simp [onLine]

theorem onLine_trans {a b c : String} (hab : onLine place a b) (hbc : onLine place b c) :
    onLine place a c := by
  rw [onLine, Bool.or_eq_true, beq_iff_eq] at *
  rcases hab with rfl | hab
  · exact hbc
  · rcases hbc with rfl | hbc
    · exact .inr hab
    · cases ha : place a <;> cases hb : place b <;> cases hc : place c <;> simp_all
      omega

theorem onLine_antisymm {a b : String} (hab : onLine place a b) (hba : onLine place b a) :
    a = b := by
  rw [onLine, Bool.or_eq_true, beq_iff_eq] at *
  rcases hab with rfl | hab
  · rfl
  · rcases hba with rfl | hba
    · rfl
    · cases ha : place a <;> cases hb : place b <;> simp_all
      omega

/-- A history that is one line of commits, each with its place on it. -/
def Ancestry.line : Ancestry where
  under := onLine place
  refl := onLine_refl place
  trans := onLine_trans place
  antisymm := onLine_antisymm place

end Line

/-- A line of three commits. -/
def threeCommits : Ancestry := .line fun
  | "x0" => some 0
  | "x1" => some 1
  | "x2" => some 2
  | _ => none

/-- A green round on the first of them. -/
def greenRound (batch head : String) : Round :=
  ⟨{ BatchRow.cut batch "r" head "x0" with state := .green }, some "x0", none, none⟩

/-- Two green rounds on a lane at the first commit, with the landing ref at the second, which is the
head of the first round. -/
def twoGreen : World where
  store := ⟨3, fun
    | .lane => some ⟨⟨"x0", "i", "h", "all", none⟩, 1, 1⟩
    | .round "k1" => some ⟨greenRound "k1" "x1", 2, 2⟩
    | .round "k2" => some ⟨greenRound "k2" "x2", 3, 3⟩
    | _ => none, [.lane, .round "k1", .round "k2"]⟩
  storeDown := none
  ref := "x1"
  gitDown := none
  lands := .error ⟨"land", none, ""⟩
  supersedes := .ok ()
  installed := .ok none
  alive := []
  units _ := .stopped "inactive"
  vms _ := .noVm
  now := 0
  told := []

theorem twoGreen_fresh : twoGreen.Fresh threeCommits where
  told := rfl
  dated k i hi := by
    simp only [twoGreen] at hi
    split at hi <;> cases hi <;> decide
  lane at_ h := by
    obtain rfl : "x0" = at_ := by simpa [twoGreen, World.landingRef] using h
    decide

/-- The first round's Lander reads the landing ref at its head; the ref moves to the second's head,
which another pass records; and the first reads the lane. -/
def overtaken : List (Turn Env Unit Task) :=
  .spawn .land :: List.replicate 15 (.turn 0) ++ .env (.landing "x2") :: .spawn .land ::
    List.replicate 40 (.turn 1) ++ List.replicate 2 (.turn 0)

/-- A run of two Lander passes and a landing in git that moves the lane back. -/
theorem lane_moved_back : ∃ (git : Ancestry) (repo : String) (w : World)
    (turns : List (Turn Env Unit Task)), w.Fresh git ∧ ¬ NeverBack git repo w turns := by
  refine ⟨threeCommits, "r", twoGreen, overtaken ++ [.turn 0], twoGreen_fresh, fun h ↦ ?_⟩
  have hx : (runs threeCommits "r" twoGreen overtaken).state.landingRef = some "x2" := by
    decide +kernel
  have hy : (runs threeCommits "r" twoGreen (overtaken ++ [.turn 0])).state.landingRef =
      some "x1" := by decide +kernel
  have hlast : overtaken ++ [.turn 0] = overtaken ++ .turn 0 :: [] := rfl
  exact h.lane hlast hx hy (by decide)

/-- The first round's Lander alone. -/
def aloneTurns : List (Turn Env Unit Task) := .spawn .land :: List.replicate 18 (.turn 0)

theorem told_alone : (runs threeCommits "r" twoGreen aloneTurns).state.told =
    [.decided 4, .named "x1" (some "x1"), .readLane 4 "x1", .lane "x1",
      .recorded ⟨{ (greenRound "k1" "x1").row with
        state := .landed, reason := some "x1", version := 1 }, some "x0", some 4, some HOLDER⟩
        "x1"] := by
  decide

theorem inOrder_alone : InOrder threeCommits (runs threeCommits "r" twoGreen aloneTurns).state.told
    where
  abreast token at_ v _ h := by
    rw [told_alone] at h
    simp [List.sublist_cons_iff] at h
  named head found h := by
    rw [told_alone] at h
    simp only [List.mem_cons, Happened.named.injEq, List.not_mem_nil, reduceCtorEq, or_false,
      false_or] at h
    rw [h.1, h.2]

theorem lane_never_back_alone : NeverBack threeCommits "r" twoGreen aloneTurns ∧
    (runs threeCommits "r" twoGreen aloneTurns).state.landingRef = some "x1" :=
  ⟨lane_never_back threeCommits "r" twoGreen twoGreen_fresh aloneTurns inOrder_alone,
    by decide⟩

end Spira.Controller
