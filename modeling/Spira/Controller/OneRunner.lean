import Spira.Controller.Holders

/-!
# The slots' law over runs

Any number of holders, by the controller or by hand, in any order of accesses, with deaths of
runners, lapses of locks and other writers between them; a holder that crashed is one that takes
no turn again. `one_runner_per_slot` is the law, of holders that keep to what `SlotGrant.release`
and `SlotGrant.recordHolder` ask of them; `granted_beside_runner` has runs of ones that do not.
-/

set_option autoImplicit false

namespace Spira.Controller.Slots

open Records

variable {cfg : Settings} {w : World}

/-! ## Runs -/

/-- What the surroundings do between two accesses. -/
inductive Env
  /-- Another writer's transaction: not of the slots. -/
  | others (t : Txn)
  /-- A runner is gone: neither its unit runs nor its VM does. -/
  | dies (r : Runner)
  /-- A slot's lock expires. -/
  | lapse (slot : Slot)
  | storeDown (why : Option String)
  /-- What systemd and round-vm answer from now on. -/
  | answers (units : String → UnitState) (vms : String → VmFact)
  | clock (now : ℕ)

def World.env (e : Env) (w : World) : World :=
  match e with
  | .others t => if ∀ o ∈ t.ops, Other o.key then { w with store := t.run w.store } else w
  | .dies r => { w with alive := w.alive.filter (· ≠ r) }
  | .lapse slot => { w with store := w.store.commit [.delete (.slotLock slot)] }
  | .storeDown why => { w with storeDown := why }
  | .answers units vms => { w with units := units, vms := vms }
  | .clock now => { w with now := now }

/-- The world and the holders after some turns; when the host restarts, every holder is gone. -/
abbrev runs (cfg : Settings) (w : World) (turns : List (Turn Env Unit Holder)) :
    Pool World (Except NoSlot Unit) Holder :=
  Pool.run World.env (fun _ w ↦ w) (Holder.program cfg) w turns

/-- A world in which nothing was told and no runner launched yet. -/
structure Fresh (w : World) : Prop where
  told : w.told = []
  alive : w.alive = []
  dated : w.store.Dated

theorem Fresh.sound (h : Fresh w) : Sound w where
  dated := h.dated
  numbered :=
    { head := fun {_ _} hm ↦ by
        rw [h.told] at hm
        cases hm
      once := fun _ _ ↦ by
        rw [h.told]
        exact Nat.zero_le 1 }
  recorded hr := by
    rw [h.alive] at hr
    cases hr
  named _ _ hr := by
    rcases hr with hr | ⟨hr, -⟩
    · rw [h.alive] at hr
      cases hr
    · rw [h.told] at hr
      cases hr

theorem env_granting (e : Env) (w : World) : Granting w (World.env e w) := by
  cases e with
  | others t =>
    rw [World.env]
    split
    · rename_i ht
      rw [Txn.run]
      split
      · exact granting_of_commit ht
      · exact .refl w
    · exact .refl w
  | dies r =>
    exact granting_of_quiet [] (List.append_nil _).symm (fun _ h ↦ absurd h List.not_mem_nil)
      (fun _ _ h ↦ absurd h List.not_mem_nil) (fun _ h ↦ List.mem_of_mem_filter h) (.refl _) id (fun _ ↦ rfl)
      fun _ _ h ↦ h
  | lapse slot => exact granting_of_lock (.inr rfl)
  | _ =>
    exact granting_of_quiet [] (List.append_nil _).symm (fun _ h ↦ absurd h List.not_mem_nil)
      (fun _ _ h ↦ absurd h List.not_mem_nil) (fun _ h ↦ h) (.refl _) id (fun _ ↦ rfl) fun _ _ h ↦ h

theorem runs_sound (hw : Sound w) (turns : List (Turn Env Unit Holder)) :
    Sound (runs cfg w turns).state ∧ ∀ t ∈ (runs cfg w turns).threads,
      t.2.Keeps Onward Granting (fun _ _ ↦ True) (runs cfg w turns).state :=
  Pool.keeps_run (I := Sound) (R := Onward) (G := Granting) (Q := fun _ _ _ ↦ True) .refl
    Onward.trans .refl (·.toOnward) (fun h hR ↦ hR.sound h)
    (fun e a _ ↦ (env_granting e a).toOnward) (fun _ _ h ↦ h) (fun h _ hs ↦ program_keeps h hs) hw
    turns

/-- Every turn of a run grants a slot, if at all, with no runner of it alive. -/
theorem turn_granting (hw : Sound w) (pre : List (Turn Env Unit Holder))
    (t : Turn Env Unit Holder) :
    Granting (runs cfg w pre).state (runs cfg w (pre ++ [t])).state := by
  rw [runs, runs, Pool.run_append, List.foldl_cons, List.foldl_nil]
  cases t with
  | env e => exact env_granting e _
  | spawn h => exact .refl _
  | turn i =>
    exact Pool.keeps_turn (R := Onward) (G := Granting) (Q := fun _ _ _ ↦ True) .refl .refl
      (runs_sound hw pre).2 i
  | restart d => exact .refl _

theorem runs_onward (hw : Sound w) (pre post : List (Turn Env Unit Holder)) :
    Onward (runs cfg w pre).state (runs cfg w (pre ++ post)).state := by
  induction post using List.reverseRecOn with
  | nil => exact (List.append_nil pre).symm ▸ .refl _
  | append_singleton post t ih =>
    rw [← List.append_assoc]
    exact ih.trans (turn_granting hw (pre ++ post) t).toOnward

/-! ## Live grants -/

/-- Whether the grant that was told of is live. -/
def World.live (w : World) (slot : Slot) : Happened → Bool
  | .granted slot' token => slot' = slot ∧ World.liveToken w slot = some token
  | _ => false

theorem live_le_one (hw : Numbered w) (slot : Slot) : w.told.countP (World.live w slot) ≤ 1 := by
  cases hl : World.liveToken w slot with
  | none =>
    refine le_of_eq_of_le (List.countP_eq_zero.mpr fun e _ ↦ ?_) (Nat.zero_le 1)
    cases e <;> simp [World.live, hl]
  | some token =>
    refine le_trans (List.countP_mono_left fun e _ he ↦ ?_) (hw.once slot token)
    cases e with
    | granted slot' token' =>
      rw [World.live, hl] at he
      obtain ⟨rfl, ht⟩ := of_decide_eq_true he
      rw [Option.some.inj ht]
      exact beq_self_eq_true _
    | _ => cases he

/-! ## A lapsed holder -/

/-- What anyone does to the store. -/
def LaterStore (a b : World) : Prop := Later a.store b.store

theorem laterStore_refl (a : World) : LaterStore a a := Later.refl _

/-- Whatever the others write, it changes nothing and does not succeed. -/
def Spent {α : Type} (v : Run LeaseError α) (s : World) : Prop :=
  v.Keeps LaterStore (fun a b ↦ b = a) (fun _ _ ↦ False) (fun _ ↦ True) s

/-- A transaction whose compares do not hold. -/
theorem refused_keeps {told : World → List Happened} {t : Txn} {s : World}
    (hno : ∀ s', LaterStore s s' → t.takes s'.store = false) :
    ((txn told t).mapError LeaseError.store).Keeps LaterStore (fun a b ↦ b = a)
      (fun rev _ ↦ rev = none) (fun _ ↦ True) s := by
  refine Verb.keeps_mapError (Verb.keeps_atom fun s₁ hs₁ _ ↦ ⟨?_, fun s₂ _ ↦
    ⟨fun rev hrev ↦ ?_, fun _ _ ↦ trivial⟩⟩)
  · simp [hno s₁ hs₁]
  · rw [hno s₁ hs₁] at hrev
    exact (unlessDown_eq_ok.mp hrev).2.symm

section Spent

variable {g : SlotGrant} {s : World} (hhead : g.token ≤ s.store.head)
  (hlapsed : World.liveToken s g.slot ≠ some g.token)

include hhead hlapsed

/-- The token of a lapsed grant is not the slot's again. -/
theorem not_takes_of_lapsed {t : Txn}
    (hc : .createRev (.slotLock g.slot) (some g.token) ∈ t.compares) (s' : World)
    (hs' : LaterStore s s') : t.takes s'.store = false := by
  by_contra h
  obtain ⟨lock, hlock, hrev⟩ := holds_createRev.mp (holds_of_takes (Bool.eq_true_of_not_eq_false h) hc)
  obtain ⟨lock', hlock', hrev'⟩ := hs'.held hlock (hrev ▸ hhead)
  refine hlapsed ?_
  rw [World.liveToken, hlock', Option.map_some, hrev', hrev]

theorem write_spent {told : World → List Happened} {record : SlotRecord} :
    Spent (g.write told record) s :=
  Verb.keeps_bind laterStore_refl ((refused_keeps (not_takes_of_lapsed hhead hlapsed
    (List.mem_singleton_self _))).imp fun _ _ hrev ↦ hrev ▸ Verb.keeps_throw trivial)

theorem recordHolder_spent {unit : String} {vm : Option String} :
    Spent (g.recordHolder unit vm) s :=
  Verb.keeps_bind laterStore_refl ((write_spent hhead hlapsed).imp fun _ _ h ↦ h.elim)

theorem renew_spent : Spent g.renew s :=
  Verb.keeps_bind laterStore_refl ((refused_keeps (not_takes_of_lapsed hhead hlapsed
    (List.mem_singleton_self _))).imp fun _ _ hrev ↦ hrev ▸ Verb.keeps_throw trivial)

theorem unlock_spent : Spent g.unlock s :=
  Verb.keeps_bind laterStore_refl ((refused_keeps (not_takes_of_lapsed hhead hlapsed
    (List.mem_singleton_self _))).imp fun _ _ hrev ↦ hrev ▸ Verb.keeps_throw trivial)

theorem release_spent : Spent g.release s :=
  Verb.keeps_bind laterStore_refl ((write_spent hhead hlapsed).imp fun _ _ h ↦ h.elim)

end Spent

/-! ## A lost race -/

/-- The slot is taken, where nobody holds it, and its record is the winner's. -/
def Wins (slot : Slot) (holder : String) (a b : World) : Prop :=
  b.store = a.store ∨ World.liveToken a slot = none ∧
    b.store = a.store.commit [.put (.slotLock slot) (), .put (.slot slot) (.of holder)]

/-- Whatever the others write: it leaves the store as it is and fails, or takes the slot in one
step, and succeeds. -/
def Races (slot : Slot) (holder : String) (v : Run Taken SlotGrant) (s : World) : Prop :=
  v.Spares LaterStore (fun a b ↦ b.store = a.store) (Wins slot holder)
    (fun g _ ↦ g.slot = slot ∧ g.record = .of holder) (fun _ _ ↦ False) (fun _ ↦ False) s

/-- An access leaves the store as it is. -/
theorem access_leaves {ε α : Type} {ready : World → Bool} {told : World → List Happened}
    {answer : World → Except ε α} : (access ready told answer).Within LaterStore
      fun a b ↦ b.store = a.store :=
  fun _ ↦ Verb.keeps_atom fun _ _ _ ↦ ⟨rfl, fun _ _ ↦ ⟨fun _ _ ↦ trivial, fun _ _ ↦ trivial⟩⟩

theorem proveRunnerDead_leaves {ε : Type} {unit : String} :
    (proveRunnerDead cfg unit : Run ε Proof).Within LaterStore fun a b ↦ b.store = a.store := by
  refine Verb.Within.bind laterStore_refl access_leaves fun said ↦ ?_
  cases said with
  | stopped word => exact access_leaves
  | _ => exact Verb.within_pure

theorem lastGone_leaves {last : Option SlotRecord} :
    (lastGone cfg last).Within LaterStore fun a b ↦ b.store = a.store := by
  cases last with
  | none => exact Verb.within_pure
  | some r =>
    rw [lastGone]
    split
    · exact Verb.within_pure
    · split
      · exact Verb.within_pure
      · refine Verb.Within.bind laterStore_refl proveRunnerDead_leaves fun proof ↦ ?_
        cases proof with
        | dead evidence => exact Verb.within_pure
        | unknown why => exact Verb.within_throw

theorem take_races (slot : Slot) (holder : String) (s : World) :
    Races slot holder (take cfg slot holder) s := by
  refine Verb.Keeps.spares_bind laterStore_refl (access_leaves.mapError s) fun item s₁ _ ↦
    Verb.Keeps.spares_bind laterStore_refl (access_leaves.mapError s₁) fun lock s₂ _ ↦ ?_
  split
  · exact Verb.spares_throw
  · refine Verb.Keeps.spares_bind laterStore_refl (lastGone_leaves s₂) fun evidence s₃ _ ↦ ?_
    refine Verb.spares_bind laterStore_refl (Verb.spares_mapError
      (Verb.spares_atom fun s₄ _ _ ↦ ?_))
    by_cases htakes : (s₄.storeDown.isNone && Txn.takes
        ⟨[.modRev (.slot slot) (item.map (·.modRev)), .createRev (.slotLock slot) none],
          [.put (.slotLock slot) (), .put (.slot slot) (.of holder)]⟩ s₄.store) = true
    · obtain ⟨hdown, ht⟩ := Bool.and_eq_true_iff.mp htakes
      have hlock := holds_createRev_none.mp
        (holds_of_takes ht (List.mem_cons_of_mem _ List.mem_cons_self))
      rw [if_pos htakes, Option.isNone_iff_eq_none.mp hdown, if_pos ht, Txn.run, if_pos ht]
      refine .inr ⟨.inr ⟨by rw [World.liveToken, hlock]; rfl, rfl⟩, fun s₅ _ ↦
        ⟨fun taken htaken ↦ ?_, fun _ h ↦ by cases h⟩⟩
      rw [← Except.ok.inj htaken]
      exact Verb.keeps_pure fun _ _ ↦ ⟨rfl, rfl⟩
    · refine .inl ⟨by rw [if_neg htakes], fun s₅ _ taken htaken ↦ ?_⟩
      obtain ⟨hdown, rfl⟩ := unlessDown_eq_ok.mp htaken
      rw [hdown, Option.isNone_none, Bool.true_and] at htakes
      rw [if_neg htakes]
      refine Verb.Keeps.spares_bind laterStore_refl (access_leaves.tried s₅) fun r s₆ _ ↦ ?_
      split <;> exact Verb.spares_throw

/-! ## The law -/

/-- The law, of a run: at most one grant of a slot is live; a slot is granted where nobody holds
it and no runner launched on it is alive; what a holder does after it lapsed fails and changes
nothing, whatever the others write; and so does a grant that lost its race. -/
structure OneRunner (cfg : Settings) (w : World) (turns : List (Turn Env Unit Holder)) : Prop where
  later {pre post : List (Turn Env Unit Holder)} (h : turns = pre ++ post) :
    LaterStore (runs cfg w pre).state (runs cfg w turns).state
  one {pre post : List (Turn Env Unit Holder)} (h : turns = pre ++ post) (slot : Slot) :
    (runs cfg w pre).state.told.countP (World.live (runs cfg w pre).state slot) ≤ 1
  granted {pre post : List (Turn Env Unit Holder)} {t : Turn Env Unit Holder}
    (h : turns = pre ++ t :: post) {slot : Slot} {token : ℕ}
    (hbefore : .granted slot token ∉ (runs cfg w pre).state.told)
    (hafter : .granted slot token ∈ (runs cfg w (pre ++ [t])).state.told) :
    World.liveToken (runs cfg w pre).state slot = none ∧
      World.liveToken (runs cfg w (pre ++ [t])).state slot = some token ∧
        ∀ r ∈ (runs cfg w (pre ++ [t])).state.alive, r.slot ≠ slot
  lapsed {pre post : List (Turn Env Unit Holder)} (h : turns = pre ++ post) {g : SlotGrant}
    (hgranted : .granted g.slot g.token ∈ (runs cfg w pre).state.told)
    (hlapsed : World.liveToken (runs cfg w pre).state g.slot ≠ some g.token) :
    (∀ unit vm, Spent (g.recordHolder unit vm) (runs cfg w pre).state) ∧
      Spent g.renew (runs cfg w pre).state ∧ Spent g.release (runs cfg w pre).state ∧
        Spent g.unlock (runs cfg w pre).state
  lost {pre post : List (Turn Env Unit Holder)} (h : turns = pre ++ post) (slot : Slot)
    (holder : String) : Races slot holder (take cfg slot holder) (runs cfg w pre).state

/-- **One runner per slot**, in every run in which each grant records one unit, and no holder
gives its slot back before its runners are gone, or launches one after. -/
theorem one_runner_per_slot (cfg : Settings) (w : World) (hw : Fresh w)
    (turns : List (Turn Env Unit Holder)) (hm : Minded (runs cfg w turns).state.told) :
    OneRunner cfg w turns where
  later {pre post} h := by
    subst h
    exact (runs_onward hw.sound pre post).store
  one {pre _} _ slot := live_le_one (runs_sound hw.sound pre).1.numbered slot
  granted {pre post t} h slot token hbefore hafter := by
    subst h
    have hstep : Granting (runs cfg w pre).state (runs cfg w (pre ++ [t])).state :=
      turn_granting hw.sound pre t
    have hrest : Onward (runs cfg w (pre ++ [t])).state (runs cfg w (pre ++ [t] ++ post)).state :=
      runs_onward hw.sound (pre ++ [t]) post
    rw [List.append_assoc, List.singleton_append] at hrest
    obtain ⟨new, hnew, -⟩ := hstep.told
    have hmem : .granted slot token ∈ new :=
      (List.mem_append.mp (hnew ▸ hafter)).resolve_left hbefore
    obtain ⟨hnone, hlive⟩ := hstep.taken hnew hmem
    exact ⟨hnone, hlive, fun r hr ↦
      hstep.granted hnew hmem (runs_sound hw.sound pre).1 (hrest.minded hm) hr⟩
  lapsed {pre _} _ g hgranted hlapsed := by
    have hsound : Sound (runs cfg w pre).state := (runs_sound hw.sound pre).1
    have hhead := hsound.numbered.head hgranted
    exact ⟨fun _ _ ↦ recordHolder_spent hhead hlapsed, renew_spent hhead hlapsed,
      release_spent hhead hlapsed, unlock_spent hhead hlapsed⟩
  lost _ slot holder := take_races slot holder _

/-! ## A slot granted again -/

/-- A deployment with the one local slot. -/
def oneSlot : Settings := ⟨0, false, 60, 3, 1000⟩

/-- A world in which nothing was kept yet. -/
def nothing : World where
  store := ⟨0, fun _ ↦ none, []⟩
  storeDown := none
  ref := "x0"
  gitDown := none
  lands := .error ⟨"land", none, ""⟩
  supersedes := .ok ()
  installed := .ok none
  alive := []
  units _ := .stopped "inactive"
  vms _ := .noVm
  now := 0
  told := []

theorem nothing_fresh : Fresh nothing where
  told := rfl
  alive := rfl
  dated _ _ hi := nomatch hi

/-- The slot is taken, and its runner launched. -/
def driver : Holder := ⟨[.proxmox], "k1", [.recordHolder "u1" none, .launch "u1"]⟩

/-- The local slot. -/
def local0 : Slot := ⟨.proxmox, 0⟩

/-- A holder does this with the slot in `n` turns, its lock expires, and another is about to take
the slot after `m` turns. -/
def takenAfter (acts : List Act) (n m : ℕ) : List (Turn Env Unit Holder) :=
  .spawn ⟨[.proxmox], "k1", acts⟩ :: List.replicate n (.turn 0) ++ .env (.lapse local0) ::
    .spawn driver :: List.replicate m (.turn 1)

/-- A runner is alive at the end of the run, whose last turn grants its slot. -/
theorem not_oneRunner {turns : List (Turn Env Unit Holder)} {t : Turn Env Unit Holder}
    (token : ℕ) (r : Runner)
    (hbefore : .granted r.slot token ∉ (runs cfg w turns).state.told)
    (hafter : .granted r.slot token ∈ (runs cfg w (turns ++ [t])).state.told)
    (hr : r ∈ (runs cfg w (turns ++ [t])).state.alive) : ¬ OneRunner cfg w (turns ++ [t]) := by
  intro h
  have hlast : turns ++ [t] = turns ++ t :: [] := rfl
  exact (h.granted hlast hbefore hafter).2.2 r hr rfl

/-- A slot is granted beside a runner of it where its holder gives it back with the runner alive,
where it launches the runner once it gave the slot back, and where it records another unit. -/
theorem granted_beside_runner : Fresh nothing ∧
    ¬ OneRunner oneSlot nothing
      (takenAfter [.recordHolder "u1" none, .launch "u1", .release] 7 2 ++ [.turn 1]) ∧
    ¬ OneRunner oneSlot nothing
      (takenAfter [.recordHolder "u1" none, .release, .launch "u1"] 7 2 ++ [.turn 1]) ∧
    ¬ OneRunner oneSlot nothing
      (takenAfter [.recordHolder "u1" none, .launch "u1", .recordHolder "u2" none] 6 4 ++ [.turn 1]) := by
  refine ⟨nothing_fresh, ?_, ?_, ?_⟩
  · exact not_oneRunner 6 ⟨local0, 1, "u1"⟩ (by decide)
      (by decide) (by decide)
  · exact not_oneRunner 6 ⟨local0, 1, "u1"⟩ (by decide)
      (by decide) (by decide)
  · exact not_oneRunner 5 ⟨local0, 1, "u1"⟩ (by decide)
      (by decide) (by decide)

/-- A driver's runner dies, its lock expires, and the slot is taken again. -/
def againTurns : List (Turn Env Unit Holder) :=
  .spawn driver :: List.replicate 5 (.turn 0) ++ .env (.dies ⟨local0, 1, "u1"⟩) ::
    .env (.lapse local0) :: .spawn driver :: List.replicate 5 (.turn 1)

theorem told_again : (runs oneSlot nothing againTurns).state.told =
    [.granted local0 1, .unitRecorded ⟨local0, 1, "u1"⟩, .launched ⟨local0, 1, "u1"⟩, .dead "u1",
      .granted local0 4] := by
  decide

theorem minded_again : Minded (runs oneSlot nothing againTurns).state.told where
  oneUnit {r r'} h h' _ _ := by
    rw [told_again] at h h'
    obtain rfl : r = ⟨local0, 1, "u1"⟩ := by simpa using h
    obtain rfl : r' = ⟨local0, 1, "u1"⟩ := by simpa using h'
    rfl
  gone h := by
    rw [told_again] at h
    simp at h
  last h := by
    rw [told_again] at h
    simpa using h.subset List.mem_cons_self

theorem one_runner_again : OneRunner oneSlot nothing againTurns :=
  one_runner_per_slot oneSlot nothing nothing_fresh againTurns minded_again

end Spira.Controller.Slots
