import Mathlib.Algebra.Order.Group.Multiset
import Mathlib.Data.Multiset.UnionInter
import Spira.Batcher.Shape

/-!
# The attribution of one suite

Suites share the slots and the queues and nothing else.  A `Ladder` is what the attributor has of
one suite: its state, and its jobs out of the queues and of those running, in no order.  Each part
of the attributor's step does to the ladder of its suite what the part of the same name here does,
and leaves every other ladder (`Moves`), so all that is said of a suite's attribution is said of
its ladder.
-/

set_option autoImplicit false

namespace Spira.Batcher

/-- What the attributor has of one suite. -/
structure Ladder where
  st : SuiteState
  queued : Multiset Job
  running : Multiset Job
  launched : Multiset Job

namespace Ladder

variable (l : Ladder)

/-- The suite's jobs that are queued or running. -/
def live : Multiset Job := l.queued + l.running

/-- A new job is queued. -/
def add (job : Job) : Ladder :=
  { l with
    st := { l.st with outstanding := insert job.id l.st.outstanding }
    queued := job ::ₘ l.queued }

def cancel : Ladder :=
  { l with
    st := { l.st with outstanding := l.st.outstanding \ (l.queued.map (·.id)).toFinset }
    queued := 0 }

def settle (outcome : Outcome) (now : ℕ) : Ladder :=
  { l with
    st := if l.st.settled.isNone then { l.st with settled := some (outcome, now) } else l.st }.cancel

def exhaust (now : ℕ) : Ladder :=
  if l.st.settled.isNone ∧ l.st.outstanding = ∅ ∧ l.st.plainRed then l.settle .unattributed now else l

def addOwner (x : Id) (removal : List Id) (now : ℕ) : Ladder :=
  if l.st.settled.all (·.1.isOwner) then
    if l.st.owners.any fun o ↦ within o.2 removal then l
    else
      let owners := (l.st.owners.filter fun o ↦ !within removal o.2) ++ [(x, removal)]
      let at_ := (l.st.settled.map (·.2)).getD now
      let st := { l.st with owners := owners, settled := some (.owner (owners.map (·.1)), at_) }
      { l with st := st }.cancel
  else l

/-- A job is launched that was queued. -/
def launch (job : Job) : Ladder :=
  { st := { l.st with reruns := l.st.reruns + 1 }
    queued := l.queued.erase job
    running := job ::ₘ l.running
    launched := job ::ₘ l.launched }

/-- A job that has reported is no more outstanding. -/
def takeOff (job : Job) : Ladder :=
  { l with
    st := { l.st with outstanding := l.st.outstanding.erase job.id }
    running := l.running.filter (·.id ≠ job.id) }

/-- The attribution runs of a suite, with what each is for. -/
def attribution (shape : Shape) (suspects : List Id) : List (Purpose × List Id) :=
  let withouts := shape.withouts (suspects ++ shape.members)
  (if withouts.any (·.2 = shape.members) then [] else [(.base, shape.members)]) ++
    withouts.map fun w ↦ (.without w.1, w.2)

/-- New jobs of a suite, under ids from `n` on. -/
def jobs (suite : String) : ℕ → List (Purpose × List Id) → List Job
  | _, [] => []
  | n, w :: ws => ⟨n, suite, w.2, w.1⟩ :: jobs suite (n + 1) ws

def addAll (l : Ladder) (js : List Job) : Ladder := js.foldl add l

/-- A job's result, where `n` is the next id. -/
def report (n : ℕ) (shape : Shape) (job : Job) (result : JobResult) (now : ℕ) : Ladder :=
  let l := l.takeOff job
  match result, job.purpose with
  | .fault, purpose =>
    let faults := l.st.faults purpose + 1
    let l := { l with st := { l.st with faults := Function.update l.st.faults purpose faults } }
    let l :=
      if faults < 2 ∧ l.st.settled.isNone then l.add ⟨n, job.suite, job.removal, purpose⟩
      else if purpose = .plain then l.settle .unattributed now
      else l
    l.exhaust now
  | .green, .plain => l.settle .flaky now
  | .red, .plain =>
    { l with st := { l.st with plainRed := true } }.addAll
      (jobs job.suite n (attribution shape l.st.suspects))
  | .green, .base => { l with st := { l.st with baseGreen := true } }.exhaust now
  | .red, .base => l.settle .base now
  | .green, .without x => l.addOwner x job.removal now
  | .red, .without _ =>
    if job.removal.length = shape.members.length then l.settle .base now else l.exhaust now

end Ladder

namespace Attributor

variable {a a' a'' : Attributor} {suite s : String} {f g : Ladder → Ladder}

/-- The queued jobs, in no order. -/
def queued (a : Attributor) : Multiset Job := ↑(a.plainQ ++ a.attrQ)

/-- The jobs queued or running. -/
def live (a : Attributor) : Multiset Job := a.queued + ↑a.running

def ladder (a : Attributor) (suite : String) : Option Ladder :=
  a.suites[suite]?.map fun st ↦
    { st := st
      queued := a.queued.filter (·.suite = suite)
      running := (a.running : Multiset Job).filter (·.suite = suite)
      launched := (a.launched : Multiset Job).filter (·.suite = suite) }

/-- From `a` to `a'` the ladder of `suite` moves as `f` does, and no other; beyond suites and jobs
nothing changes, only jobs of `suite` are launched, and what jobs are new have ids from `a.nextId`
on. -/
structure Moves (a a' : Attributor) (suite : String) (f : Ladder → Ladder) : Prop where
  here : a'.ladder suite = (a.ladder suite).map f
  others : ∀ s ≠ suite, a'.ladder s = a.ladder s
  same : a' = { a with
    suites := a'.suites
    plainQ := a'.plainQ
    attrQ := a'.attrQ
    running := a'.running
    launched := a'.launched
    nextId := a'.nextId }
  launched : ∀ j ∈ a'.launched, j ∈ a.launched ∨ j.suite = suite
  nextId_le : a.nextId ≤ a'.nextId
  fresh : ∃ new : Multiset Job, a'.live ≤ a.live + new ∧ (new.map (·.id)).Nodup ∧
    ∀ j ∈ new, j.suite = suite ∧ a.nextId ≤ j.id ∧ j.id < a'.nextId

theorem Moves.refl : Moves a a suite id where
  here := by simp
  others _ _ := rfl
  same := rfl
  launched _ hj := .inl hj
  nextId_le := Nat.le_refl _
  fresh := ⟨0, by simp, by simp, by simp⟩

theorem Moves.trans (h : Moves a a' suite f) (h' : Moves a' a'' suite g) :
    Moves a a'' suite (g ∘ f) where
  here := by rw [h'.here, h.here, Option.map_map]
  others s hs := (h'.others s hs).trans (h.others s hs)
  same := h'.same.trans (by rw [h.same])
  launched j hj := by
    rcases h'.launched j hj with hj | hj
    · exact h.launched j hj
    · exact .inr hj
  nextId_le := h.nextId_le.trans h'.nextId_le
  fresh := by
    obtain ⟨new, hle, hnodup, hnew⟩ := h.fresh
    obtain ⟨new', hle', hnodup', hnew'⟩ := h'.fresh
    refine ⟨new + new', ?_, ?_, fun j hj ↦ ?_⟩
    · rw [← add_assoc]
      exact hle'.trans (Multiset.add_le_add_right hle)
    · rw [Multiset.map_add, Multiset.nodup_add]
      refine ⟨hnodup, hnodup', Multiset.disjoint_left.mpr fun {n} hn hn' ↦ ?_⟩
      obtain ⟨j, hj, rfl⟩ := Multiset.mem_map.mp hn
      obtain ⟨j', hj', hid⟩ := Multiset.mem_map.mp hn'
      have hlt := (hnew j hj).2.2
      have hge := (hnew' j' hj').2.1
      omega
    · have hle := h.nextId_le
      have hle' := h'.nextId_le
      rcases Multiset.mem_add.mp hj with hj | hj
      · have hnew := hnew j hj
        exact ⟨hnew.1, hnew.2.1, hnew.2.2.trans_le hle'⟩
      · have hnew := hnew' j hj
        exact ⟨hnew.1, hle.trans hnew.2.1, hnew.2.2⟩

/-- A suite that is not known has no ladder to move. -/
theorem Moves.unknown (h : a.suites[suite]? = none) : Moves a a suite f :=
  { Moves.refl with
    here := by
      rw [ladder, h]
      rfl }

/-- What depends on the ladder moves as it does there. -/
theorem Moves.congr {l : Ladder} (hl : a.ladder suite = some l) (h : Moves a a' suite f)
    (hfg : f l = g l) : Moves a a' suite g :=
  { h with here := by rw [h.here, hl, Option.map_some, Option.map_some, hfg] }

theorem getElem?_onSuite (f : SuiteState → SuiteState) :
    (a.onSuite suite f).suites[s]? = if s = suite then a.suites[suite]?.map f else a.suites[s]? := by
  rw [onSuite, Std.ExtTreeMap.getElem?_modify]
  by_cases hs : s = suite
  · subst hs
    simp
  · rw [if_neg (by simpa using Ne.symm hs), if_neg hs]

theorem onSuite_moves (f : SuiteState → SuiteState) :
    Moves a (a.onSuite suite f) suite fun l ↦ { l with st := f l.st } where
  here := by
    rw [ladder, ladder, getElem?_onSuite, if_pos rfl]
    cases a.suites[suite]? <;> rfl
  others s hs := by
    rw [ladder, ladder, getElem?_onSuite, if_neg hs]
    rfl
  same := rfl
  launched _ hj := .inl hj
  nextId_le := Nat.le_refl _
  fresh := ⟨0, by rw [add_zero]; exact le_rfl, by simp, by simp⟩

theorem enqueue_queued (removal : List Id) (purpose : Purpose) (front : Bool) :
    (a.enqueue suite removal purpose front).queued = ⟨a.nextId, suite, removal, purpose⟩ ::ₘ a.queued := by
  have hpush (q : List Job) (job : Job) :
      ((if front then job :: q else q ++ [job] : List Job) : Multiset Job) = job ::ₘ (q : Multiset Job) := by
    cases front
    · exact Multiset.coe_eq_coe.mpr List.perm_append_comm
    · rfl
  rw [enqueue, queued, queued, ← Multiset.coe_add, ← Multiset.coe_add]
  split
  · show ((if front then _ :: a.plainQ else a.plainQ ++ [_] : List Job) : Multiset Job) + ↑a.attrQ = _
    rw [hpush, Multiset.cons_add]
  · show (a.plainQ : Multiset Job) + ((if front then _ :: a.attrQ else a.attrQ ++ [_] : List Job) :) = _
    rw [hpush, Multiset.add_cons]

/-! ## Its parts -/

@[simp] theorem enqueue_nextId (removal : List Id) (purpose : Purpose) (front : Bool) :
    (a.enqueue suite removal purpose front).nextId = a.nextId + 1 := by
  rw [enqueue]
  split <;> rfl

theorem enqueue_moves (suite : String) (removal : List Id) (purpose : Purpose) (front : Bool) :
    Moves a (a.enqueue suite removal purpose front) suite
      (Ladder.add · ⟨a.nextId, suite, removal, purpose⟩) := by
  have hsuites (s : String) : (a.enqueue suite removal purpose front).suites[s]? =
      if s = suite then a.suites[suite]?.map fun st ↦
        { st with outstanding := insert a.nextId st.outstanding } else a.suites[s]? := by
    rw [← getElem?_onSuite, enqueue]
    split <;> rfl
  have hrunning : (a.enqueue suite removal purpose front).running = a.running := by
    rw [enqueue]
    split <;> rfl
  have hlaunched : (a.enqueue suite removal purpose front).launched = a.launched := by
    rw [enqueue]
    split <;> rfl
  refine ⟨?_, fun s hs ↦ ?_, ?_, fun j hj ↦ .inl (hlaunched ▸ hj),
    (enqueue_nextId ..).symm ▸ Nat.le_succ _, ?_⟩
  · have hin : (⟨a.nextId, suite, removal, purpose⟩ ::ₘ a.queued).filter (·.suite = suite) =
        ⟨a.nextId, suite, removal, purpose⟩ ::ₘ a.queued.filter (·.suite = suite) :=
      Multiset.filter_cons_of_pos _ rfl
    rw [ladder, ladder, hsuites, if_pos rfl, hrunning, hlaunched, enqueue_queued, hin]
    cases a.suites[suite]? <;> rfl
  · have hout : (⟨a.nextId, suite, removal, purpose⟩ ::ₘ a.queued).filter (·.suite = s) =
        a.queued.filter (·.suite = s) :=
      Multiset.filter_cons_of_neg _ (Ne.symm hs)
    rw [ladder, ladder, hsuites, if_neg hs, hrunning, hlaunched, enqueue_queued, hout]
  · rw [enqueue]
    split <;> rfl
  · refine ⟨{⟨a.nextId, suite, removal, purpose⟩}, ?_, by simp, fun j hj ↦ ?_⟩
    · rw [live, live, enqueue_queued, hrunning, add_comm _ {_}, Multiset.singleton_add,
        Multiset.cons_add]
    · rw [Multiset.mem_singleton.mp hj, enqueue_nextId]
      exact ⟨rfl, Nat.le_refl _, Nat.lt_succ_self _⟩

theorem cancelQueued_queued : (a.cancelQueued suite).queued = a.queued.filter (·.suite ≠ suite) := by
  show ((a.plainQ.filter (·.suite ≠ suite) ++ a.attrQ.filter (·.suite ≠ suite) : List Job) : Multiset Job) =
    Multiset.filter (·.suite ≠ suite) ↑(a.plainQ ++ a.attrQ)
  rw [Multiset.filter_coe, List.filter_append]

theorem cancelQueued_moves : Moves a (a.cancelQueued suite) suite Ladder.cancel := by
  have hsuites (s : String) : (a.cancelQueued suite).suites[s]? =
      if s = suite then a.suites[suite]?.map fun st ↦
        { st with outstanding := st.outstanding \
          ((a.queued.filter (·.suite = suite)).map (·.id)).toFinset } else a.suites[s]? := by
    have hdropped : (((a.attrQ ++ a.plainQ).filter (·.suite = suite)).map (·.id)).toFinset =
        ((a.queued.filter (·.suite = suite)).map (·.id)).toFinset := by
      have hperm : ((a.attrQ ++ a.plainQ : List Job) : Multiset Job) = a.queued :=
        Multiset.coe_eq_coe.mpr List.perm_append_comm
      rw [← hperm, Multiset.filter_coe, Multiset.map_coe]
      rfl
    rw [← hdropped, ← getElem?_onSuite]
    rfl
  refine ⟨?_, fun s hs ↦ ?_, rfl, fun _ hj ↦ .inl hj, Nat.le_refl _, 0, ?_, by simp, by simp⟩
  · rw [ladder, ladder, hsuites, if_pos rfl, cancelQueued_queued, Multiset.filter_filter]
    have hnone : a.queued.filter (fun j ↦ j.suite = suite ∧ j.suite ≠ suite) = 0 :=
      Multiset.filter_eq_nil.mpr fun j _ h ↦ h.2 h.1
    rw [hnone]
    cases a.suites[suite]? <;> rfl
  · rw [ladder, ladder, hsuites, if_neg hs, cancelQueued_queued, Multiset.filter_filter]
    have hsame : a.queued.filter (fun j ↦ j.suite = s ∧ j.suite ≠ suite) =
        a.queued.filter (·.suite = s) :=
      Multiset.filter_congr fun j _ ↦ ⟨fun h ↦ h.1, fun h ↦ ⟨h, h ▸ hs⟩⟩
    rw [hsame]
    rfl
  · rw [add_zero, live, cancelQueued_queued]
    exact Multiset.add_le_add_right (Multiset.filter_le _ _)

theorem settle_moves (outcome : Outcome) (now : ℕ) :
    Moves a (a.settle suite outcome now) suite (Ladder.settle · outcome now) :=
  (onSuite_moves _).trans cancelQueued_moves

theorem ladder_of {st : SuiteState} (h : a.suites[suite]? = some st) :
    ∃ l, a.ladder suite = some l ∧ l.st = st := by
  rw [ladder, h]
  exact ⟨_, rfl, rfl⟩

theorem maybeExhausted_moves (now : ℕ) :
    Moves a (a.maybeExhausted suite now) suite (Ladder.exhaust · now) := by
  rw [maybeExhausted]
  cases hst : a.suites[suite]? with
  | none => exact .unknown hst
  | some st =>
    obtain ⟨l, hl, rfl⟩ := ladder_of hst
    dsimp only
    split <;> rename_i h
    · exact (settle_moves .unattributed now).congr hl (if_pos h).symm
    · exact Moves.refl.congr hl (if_neg h).symm

theorem addOwner_moves (x : Id) (removal : List Id) (now : ℕ) :
    Moves a (a.addOwner suite x removal now) suite (Ladder.addOwner · x removal now) := by
  rw [addOwner]
  cases hst : a.suites[suite]? with
  | none => exact .unknown hst
  | some st =>
    obtain ⟨l, hl, rfl⟩ := ladder_of hst
    dsimp only
    split <;> rename_i hs
    · split <;> rename_i hw
      · refine Moves.refl.congr hl ?_
        rw [Ladder.addOwner, if_pos hs, if_pos hw]
        rfl
      · refine ((onSuite_moves _).trans cancelQueued_moves).congr hl ?_
        rw [Ladder.addOwner, if_pos hs, if_neg hw]
        rfl
    · refine Moves.refl.congr hl ?_
      rw [Ladder.addOwner, if_neg hs]
      rfl

/-- The jobs of a list are queued one after another. -/
theorem foldl_enqueue_moves (ws : List (Purpose × List Id)) :
    Moves a (ws.foldl (fun a w ↦ a.enqueue suite w.2 w.1 false) a) suite
      (Ladder.addAll · (Ladder.jobs suite a.nextId ws)) := by
  induction ws generalizing a with
  | nil => exact .refl
  | cons w ws ih =>
    have hrest := ih (a := a.enqueue suite w.2 w.1 false)
    rw [enqueue_nextId] at hrest
    exact (enqueue_moves suite w.2 w.1 false).trans hrest

theorem queueAttribution_eq (suspects : List Id) :
    a.queueAttribution suite suspects a.shape.members =
      (Ladder.attribution a.shape suspects).foldl (fun a w ↦ a.enqueue suite w.2 w.1 false) a := by
  rw [queueAttribution, Ladder.attribution]
  split
  · rw [List.nil_append, List.foldl_map]
  · rw [List.foldl_append, List.foldl_map]
    rfl

theorem takeOff_moves {job : Job} (hids : ∀ j ∈ a.running, j.id = job.id → j = job) :
    Moves a ({ a with running := a.running.filter (·.id ≠ job.id) }.onSuite job.suite fun st ↦
      { st with outstanding := st.outstanding.erase job.id }) job.suite (Ladder.takeOff · job) := by
  have hrunning (s : String) :
      ((a.running.filter (·.id ≠ job.id) : List Job) : Multiset Job).filter (·.suite = s) =
        ((a.running : Multiset Job).filter (·.suite = s)).filter (·.id ≠ job.id) := by
    rw [← Multiset.filter_coe, Multiset.filter_comm]
  refine ⟨?_, fun s hs ↦ ?_, rfl, fun _ hj ↦ .inl hj, Nat.le_refl _, 0, ?_, by simp, by simp⟩
  · rw [ladder, ladder, getElem?_onSuite, if_pos rfl]
    show Option.map _ (Option.map _ a.suites[job.suite]?) = _
    cases a.suites[job.suite]? with
    | none => rfl
    | some st =>
      show some (Ladder.mk _ _ _ _) = some (Ladder.mk _ _ _ _)
      rw [← hrunning]
      rfl
  · have hsame : ((a.running : Multiset Job).filter (·.suite = s)).filter (·.id ≠ job.id) =
        (a.running : Multiset Job).filter (·.suite = s) := by
      refine Multiset.filter_eq_self.mpr fun j hj hid ↦ ?_
      rw [Multiset.mem_filter, Multiset.mem_coe] at hj
      exact hs (hj.2 ▸ congrArg Job.suite (hids j hj.1 hid))
    rw [ladder, ladder, getElem?_onSuite, if_neg hs]
    show Option.map _ a.suites[s]? = Option.map _ a.suites[s]?
    rw [← hsame, ← hrunning]
    rfl
  · rw [add_zero]
    exact Multiset.add_le_add_left (Multiset.coe_le.mpr List.filter_sublist.subperm)

/-- **A job's report does to the ladder of its suite what it reports.** -/
theorem onJobResult_moves {id : ℕ} {job : Job} {st : SuiteState} (result : JobResult) (now : ℕ)
    (hids : ∀ j ∈ a.running, j.id = job.id → j = job) (hfind : a.running.find? (·.id = id) = some job)
    (hst : a.suites[job.suite]? = some st) :
    Moves a (a.onJobResult id result now) job.suite
      (Ladder.report · a.nextId a.shape job result now) := by
  have hid : job.id = id := by simpa using List.find?_some hfind
  subst hid
  obtain ⟨l, hl, rfl⟩ := ladder_of hst
  have hoff := takeOff_moves hids
  rw [onJobResult, hfind]
  dsimp only
  rw [hst]
  dsimp only
  cases result with
  | fault =>
    have hfault := hoff.trans (onSuite_moves fun st ↦
      { st with faults := Function.update st.faults job.purpose (l.st.faults job.purpose + 1) })
    dsimp only
    split <;> rename_i hagain
    · refine ((hfault.trans (enqueue_moves job.suite job.removal job.purpose true)).trans
        (maybeExhausted_moves now)).congr hl ?_
      rw [Ladder.report]
      exact congrArg (Ladder.exhaust · now) (if_pos hagain).symm
    · split <;> rename_i hplain
      · refine ((hfault.trans (settle_moves .unattributed now)).trans
          (maybeExhausted_moves now)).congr hl ?_
        rw [Ladder.report]
        exact congrArg (Ladder.exhaust · now) ((if_neg hagain).trans (if_pos hplain)).symm
      · refine (hfault.trans (maybeExhausted_moves now)).congr hl ?_
        rw [Ladder.report]
        exact congrArg (Ladder.exhaust · now) ((if_neg hagain).trans (if_neg hplain)).symm
  | green =>
    cases hpurpose : job.purpose with
    | plain =>
      refine (hoff.trans (settle_moves .flaky now)).congr hl ?_
      simp only [Function.comp_apply, Ladder.report, hpurpose]
    | base =>
      refine ((hoff.trans (onSuite_moves _)).trans (maybeExhausted_moves now)).congr hl ?_
      simp only [Function.comp_apply, Ladder.report, hpurpose]
    | without x =>
      refine (hoff.trans (addOwner_moves x job.removal now)).congr hl ?_
      simp only [Function.comp_apply, Ladder.report, hpurpose]
  | red =>
    cases hpurpose : job.purpose with
    | plain =>
      have hred := hoff.trans (onSuite_moves fun st ↦ { st with plainRed := true })
      have hqueue := hred.trans (foldl_enqueue_moves (Ladder.attribution a.shape l.st.suspects))
      refine (queueAttribution_eq (a := Attributor.onSuite _ job.suite _) l.st.suspects ▸ hqueue).congr
        hl ?_
      simp only [Function.comp_apply, Ladder.report, hpurpose]
      rfl
    | base =>
      refine (hoff.trans (settle_moves .base now)).congr hl ?_
      simp only [Function.comp_apply, Ladder.report, hpurpose]
    | without x =>
      have hshape : Ladder.report l a.nextId a.shape job .red now =
          if job.removal.length = a.shape.members.length then (l.takeOff job).settle .base now
          else (l.takeOff job).exhaust now := by
        simp only [Ladder.report, hpurpose]
      dsimp only
      split <;> rename_i hall
      · exact (hoff.trans (settle_moves .base now)).congr hl (hshape.trans (if_pos hall)).symm
      · exact (hoff.trans (maybeExhausted_moves now)).congr hl (hshape.trans (if_neg hall)).symm

theorem pop_queued {job : Job} (h : a.pop = some (job, a')) : a.queued = job ::ₘ a'.queued ∧
    a' = { a with plainQ := a'.plainQ, attrQ := a'.attrQ } := by
  rw [pop] at h
  split at h
  next q _ hq =>
    cases h
    rw [queued, queued, hq]
    exact ⟨rfl, rfl⟩
  next q hp hq =>
    cases h
    rw [queued, queued, hp, hq]
    exact ⟨rfl, rfl⟩
  next => cases h

theorem launch_moves {job : Job} (h : a.pop = some (job, a')) :
    Moves a (a'.launch job) job.suite (Ladder.launch · job) := by
  obtain ⟨hqueued, hsame⟩ := pop_queued h
  have hsuites (s : String) : (a'.launch job).suites[s]? = if s = job.suite then
      a.suites[job.suite]?.map fun st ↦ { st with reruns := st.reruns + 1 } else a.suites[s]? := by
    rw [← getElem?_onSuite, hsame]
    rfl
  have hrunning : (a'.launch job).running = job :: a.running := by
    rw [hsame]
    rfl
  have hlaunched : ((a'.launch job).launched : Multiset Job) = job ::ₘ a.launched := by
    rw [hsame]
    exact Multiset.coe_eq_coe.mpr List.perm_append_comm
  have hin (q : Multiset Job) :
      (job ::ₘ q).filter (·.suite = job.suite) = job ::ₘ q.filter (·.suite = job.suite) :=
    Multiset.filter_cons_of_pos _ rfl
  have hout {s : String} (hs : s ≠ job.suite) (q : Multiset Job) :
      (job ::ₘ q).filter (·.suite = s) = q.filter (·.suite = s) :=
    Multiset.filter_cons_of_neg _ (Ne.symm hs)
  refine ⟨?_, fun s hs ↦ ?_, ?_, fun j hj ↦ ?_, ?_, 0, ?_, by simp, by simp⟩
  · rw [ladder, ladder, hsuites, if_pos rfl, hrunning, ← Multiset.cons_coe, hlaunched, hqueued, hin, hin,
      hin]
    cases a.suites[job.suite]? with
    | none => rfl
    | some st =>
      simp only [Option.map_some, Ladder.launch, Multiset.erase_cons_head]
      rfl
  · rw [ladder, ladder, hsuites, if_neg hs, hrunning, ← Multiset.cons_coe, hlaunched, hqueued, hout hs,
      hout hs, hout hs]
    rfl
  · rw [hsame]
    rfl
  · have hmem : j ∈ ((a'.launch job).launched : Multiset Job) := hj
    rw [hlaunched] at hmem
    rcases Multiset.mem_cons.mp hmem with rfl | hmem
    · exact .inr rfl
    · exact .inl hmem
  · rw [hsame]
    exact Nat.le_refl _
  · rw [add_zero, live, live, hrunning, ← Multiset.cons_coe, hqueued, Multiset.add_cons,
      Multiset.cons_add]
    exact le_rfl

/-- What one launch keeps is kept by handing jobs out. -/
theorem launches_induction {P : Attributor → Prop} (n : ℕ) (ha : P a)
    (hstep : ∀ b job b', P b → b.spare ≠ 0 → b.pop = some (job, b') → P (b'.launch job)) :
    P (launches n a).2 := by
  induction n generalizing a with
  | zero => exact ha
  | succ n ih =>
    rw [launches]
    split <;> rename_i hspare
    · exact ha
    · split
      next => exact ha
      next job b' hpop => exact ih (hstep a job b' ha hspare hpop)

end Attributor

end Spira.Batcher
