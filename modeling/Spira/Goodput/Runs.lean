import Spira.Goodput.Passes

/-!
# Runs of passes and owners

Every call keeps the world, with a lock of its own or with none (`program_owns`), so the world is
kept at every point of every run (`kept_run`): no two live intents have one target (`single_run`), a
knob is moved only from the value that it has and by no intent twice (`lawful_run`), and a judgement
is made after the horizon, of an intent that its owner took (`judged_run`).
-/

set_option autoImplicit false

namespace Spira.Goodput

/-- There are no intents and no knobs yet. -/
structure Fresh (w : World) : Prop where
  empty : ∀ k, w.store.items k = none
  told : w.told = []

section Run

variable {kinds : Kinds} {rank : Assembled → List RankedGap} {start w : World}

theorem does_told {α β : Type} {own : Option ℕ} {v : Program α} (f : α → β)
    (h : Does own (fun _ _ ↦ True) (fun _ ↦ True) v w) :
    Does own (fun _ _ ↦ True) (fun _ ↦ True) (v >>= fun a ↦ pure (f a)) w :=
  does_bind (h.imp (fun _ _ _ ↦ does_pure fun _ _ ↦ trivial) fun _ h ↦ h)

theorem program_owns (c : Call) (hw : Kept w) : Prog.Owns Rely Guar
    (fun (_ : Except VerbError Answer) _ _ ↦ True) none (c.program kinds rank) w := by
  have hrule : (c.program kinds rank).Owns Rely Guar (fun _ _ _ ↦ True) (fun _ _ _ ↦ True) none
      w := by
    cases c with
    | pass cfg =>
      exact Verb.owns_bind Rely.refl (Verb.Owns.imp (pass_owns hw)
        (fun _ _ _ _ ↦ Verb.owns_pure fun _ _ ↦ trivial) fun _ _ _ _ _ _ ↦ trivial)
    | ack actor key result => exact (does_told _ (intentAck_does hw)).owns
    | apply actor key knob => exact (does_told _ (intentApply_does hw)).owns
    | init actor knob value => exact (does_told _ knobInit_does).owns
  exact Prog.Owns.imp hrule fun _ _ _ _ ↦ trivial

theorem Fresh.kept (hs : Fresh start) : Kept start := by
  have hgone {k : Key} {i : Records.Item k.Val} (hi : start.store.items k = some i) : False := by
    rw [hs.empty k] at hi
    cases hi
  refine ⟨fun k i hi ↦ (hgone hi).elim, fun k hk ↦ ?_, fun key i hi ↦ (hgone hi).elim,
    fun key i j hi ↦ (hgone hi).elim, fun key i key' i' hi ↦ (hgone hi).elim, ?_, fun k ↦ ?_,
    fun _ _ _ _ _ hmem ↦ ?_⟩
  · rw [hs.empty k] at hk
    cases hk
  · rw [hs.told]
    exact .nil
  · rw [hs.empty, hs.told]
    rfl
  · rw [hs.told] at hmem
    cases hmem

/-- Every call keeps the world, in every run. -/
theorem kept_run (hs : Fresh start) (turns : Turns) : Kept (run kinds rank start turns).state :=
  (Pool.owns_run (Q := fun _ _ _ _ ↦ True) sharing (fun e w _ _ _ ↦ env_rely e w) (fun d ↦ d.elim)
    (fun c _ hw ↦ program_owns c hw) hs.kept turns).1

/-- **In every run no two live intents have one target**, however passes and owners take turns, and
wherever the lock lapses. -/
theorem single_run (hs : Fresh start) (turns : Turns) :
    ∀ key i key' i', (run kinds rank start turns).state.store.items (.intent key) = some i →
      (run kinds rank start turns).state.store.items (.intent key') = some i' →
      i.value.target = i'.value.target →
      Live ((run kinds rank start turns).state.nowMs / 1000) i.value →
      Live ((run kinds rank start turns).state.nowMs / 1000) i'.value → key = key' :=
  (kept_run hs turns).single

/-- **In every run a knob has the value that was last told of it**, is set where there is none and
moved from the value that it has, by no intent twice, and as an intent says that is acknowledged
with it. -/
theorem lawful_run (hs : Fresh start) (turns : Turns) :
    Lawful (run kinds rank start turns).state.told ∧
    (∀ k, ((run kinds rank start turns).state.store.items (.knob k)).map (·.value) =
      settingOf (run kinds rank start turns).state.told k) ∧
    ∀ knob key rev from_ to_,
      .moved knob key rev from_ to_ ∈ (run kinds rank start turns).state.told →
        ∀ i, (run kinds rank start turns).state.store.items (.intent key) = some i →
          i.createRev = rev → Moved i.value knob from_ to_ := by
  have hkept : Kept (run kinds rank start turns).state := kept_run hs turns
  exact ⟨hkept.lawful, hkept.knobs, fun knob key rev from_ to_ hmem ↦
    (hkept.movers knob key rev from_ to_ hmem).2⟩

/-- **In every run a judged intent was taken by its owner, and judged after its horizon**, from what
was observed. -/
theorem judged_run (hs : Fresh start) (turns : Turns) :
    ∀ key i j, (run kinds rank start turns).state.store.items (.intent key) = some i →
      i.value.judgement = some j → Judges i.value j :=
  (kept_run hs turns).judged

end Run

/-! ## A run -/

namespace Sample

def kinds : Kinds where
  owner kind := if kind = "Rig" then some "rigd" else none
  isNumeric _ field := field = "depth"
  declares _ condition := condition = "Slow"

def start : World where
  store := ⟨5, fun _ ↦ none, []⟩
  nowMs := 1700000000000
  up := true
  heard := true
  sections := [rig]
  told := []

theorem fresh : Fresh start := ⟨fun _ ↦ rfl, rfl⟩

def key : String := "intents/Rig/a/p1-r7-widen"

/-- The knob gets a value, and two passes see the gap. -/
def stepped : Turns :=
  .spawn (.init "rigd" knob (.number (.posInt 3))) :: List.replicate 3 (.turn 0) ++
    .spawn (.pass ⟨"one", 60, [], false⟩) :: List.replicate 20 (.turn 1) ++
    .spawn (.pass ⟨"two", 60, [], false⟩) :: List.replicate 20 (.turn 2)

/-- The owner takes the step, and a pass after the horizon judges it. -/
def judged : Turns :=
  stepped ++ .spawn (.apply "rigd" key knob) :: List.replicate 6 (.turn 3) ++
    .env (.tick 700000) :: .spawn (.pass ⟨"three", 60, [], false⟩) :: List.replicate 20 (.turn 4)

/-- The intent that a run leaves at the key. -/
def left (turns : Turns) : Option (Records.Item Intent) :=
  (run kinds rank start turns).state.store.items (.intent key)

theorem stepped_left : ∃ i, left stepped = some i ∧ i.value.target = knob ∧
    Live ((run kinds rank start stepped).state.nowMs / 1000) i.value := by
  have hsome : (left stepped).any (fun i ↦ i.value.target = knob ∧ i.value.judgement = none ∧
      i.value.ack = none ∧ within ((run kinds rank start stepped).state.nowMs / 1000) i.value) =
        true := by decide +kernel
  obtain ⟨i, hi, hlive⟩ := Option.any_eq_true _ _ |>.mp hsome
  obtain ⟨htarget, hjudgement, hack, hwithin⟩ := of_decide_eq_true hlive
  refine ⟨i, hi, htarget, hjudgement, fun ack hack' ↦ ?_, hwithin⟩
  rw [hack] at hack'
  cases hack'

theorem judged_left : ∃ i j, left judged = some i ∧ i.value.judgement = some j ∧
    j.result = .failed := by
  have hsome : ((left judged).bind (·.value.judgement)).any
      (fun j ↦ j.result = .failed) = true := by decide +kernel
  obtain ⟨j, hj, hresult⟩ := Option.any_eq_true _ _ |>.mp hsome
  obtain ⟨i, hi, hji⟩ := Option.bind_eq_some_iff.mp hj
  exact ⟨i, j, hi, hji, of_decide_eq_true hresult⟩

theorem judged_told : (run kinds rank start judged).state.told =
    [.set knob (.number (.posInt 3)),
      .moved knob key 8 (.number (.posInt 3)) (.number (.posInt 4))] := by decide +kernel

end Sample

open Sample

theorem single_run_stepped : ∃ i, left stepped = some i ∧ i.value.target = knob ∧
    Live ((run kinds rank start stepped).state.nowMs / 1000) i.value ∧
      ∀ key' i', (run kinds rank start stepped).state.store.items (.intent key') = some i' →
        i'.value.target = knob →
          Live ((run kinds rank start stepped).state.nowMs / 1000) i'.value → key' = key := by
  obtain ⟨i, hi, htarget, hlive⟩ := stepped_left
  refine ⟨i, hi, htarget, hlive, fun key' i' hi' htarget' hlive' ↦ ?_⟩
  exact single_run fresh stepped key' i' key i hi' hi (htarget'.trans htarget.symm) hlive' hlive

theorem lawful_run_judged : ((run kinds rank start judged).state.store.items (.knob knob)).map
      (·.value) = some (.number (.posInt 4)) ∧
    ∀ i, left judged = some i → i.createRev = 8 →
      Moved i.value knob (.number (.posInt 3)) (.number (.posInt 4)) := by
  obtain ⟨-, hknobs, hmoved⟩ := lawful_run fresh judged
  refine ⟨(hknobs knob).trans ?_, hmoved knob key 8 _ _ ?_⟩
  · rw [judged_told]
    rfl
  · rw [judged_told]
    exact List.mem_cons_of_mem _ List.mem_cons_self

theorem judged_run_judged : ∃ i j, left judged = some i ∧ i.value.judgement = some j ∧
    j.result = .failed ∧ Judges i.value j := by
  obtain ⟨i, j, hi, hj, hresult⟩ := judged_left
  exact ⟨i, j, hi, hj, hresult, judged_run fresh judged key i j hi hj⟩

end Spira.Goodput
