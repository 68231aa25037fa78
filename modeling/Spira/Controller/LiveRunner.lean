import Spira.Controller.Launches

/-!
# The rounds' law over runs

Any number of passes, schedule steps, hand drivers and other holders of leases, in any order of
accesses, with deaths of runners, lapses of leases and slots and other writers between them; a program
that crashed is one that takes no turn again.  `one_live_runner` is the law, of the runs in which
leases are taken over runners that were shown dead, and launches come in time; `launched_beside` has
runs of the other kinds.
-/

set_option autoImplicit false

namespace Spira.Controller.Launches

open Batch Records

variable {cfg : Settings} {repo : String} {w : World}

/-! ## Runs -/

/-- What is started. -/
inductive Task
  | pass (said : World → Said)
  | schedule (said : World → Said) (c : Cutting)
  | drive (said : World → Said) (batch : String)
  | lease (batch holder : String)

/-- A program whose answer is left to its caller. -/
def unanswered {ε α : Type} (v : Run ε α) : Run Unit Unit := do
  let _ ← v.mapError fun _ ↦ ()
  return

def Task.program (cfg : Settings) (repo : String) : Task → Prog World (Except Unit Unit)
  | pass said => unanswered (orphansStep cfg repo said)
  | schedule said c => unanswered (Controller.schedule cfg repo said c)
  | drive said batch => unanswered (Controller.drive cfg repo said batch)
  | lease batch holder => unanswered (leaseFor repo batch holder)

/-- What the surroundings do between two accesses. -/
inductive Env
  /-- Another writer's transaction. -/
  | others (t : Txn)
  /-- A runner is gone: neither its unit runs nor its VM does. -/
  | dies (r : Runner)
  /-- A round's lease lapses, or is given back by whoever was handed it. -/
  | lapse (batch : String)
  | lapseSlot (slot : Slot)
  | storeDown (why : Option String)
  /-- What systemd and round-vm answer from now on. -/
  | answers (units : String → UnitState) (vms : String → VmFact)
  | clock (now : ℕ)

/-- Other writers keep a round's last token, and take no lease on one. -/
def keepsTokens (s : Store) : Op → Bool
  | .put (.round batch) round =>
    round.lastLeaseToken = (s.items (.round batch)).bind (·.value.lastLeaseToken)
  | .delete (.round batch) => (s.items (.round batch)).bind (·.value.lastLeaseToken) = none
  | .put (.roundLock _) _ => false
  | _ => true

def World.env (e : Env) (w : World) : World :=
  match e with
  | .others t => if t.ops.all (keepsTokens w.store) then { w with store := t.run w.store } else w
  | .dies r => { w with alive := w.alive.filter (· ≠ r) }
  | .lapse batch => { w with store := w.store.commit [.delete (.roundLock batch)] }
  | .lapseSlot slot => { w with store := w.store.commit [.delete (.slotLock slot)] }
  | .storeDown why => { w with storeDown := why }
  | .answers units vms => { w with units := units, vms := vms }
  | .clock now => { w with now := now }

/-- The world and the programs after some turns; when the host restarts, every program is gone. -/
abbrev runs (cfg : Settings) (repo : String) (w : World) (turns : List (Turn Env Unit Task)) :
    Pool World (Except Unit Unit) Task :=
  Pool.run World.env (fun _ w ↦ w) (Task.program cfg repo) w turns

/-- A world in which nothing was told yet, and no round is leased. -/
structure Fresh (w : World) : Prop where
  told : w.told = []
  dated : w.store.Dated
  head {batch : String} {token : ℕ} (h : lastToken w batch = some token) : token ≤ w.store.head
  free (batch : String) : liveToken w batch = none

theorem Fresh.sound (h : Fresh w) : Sound w where
  dated := h.dated
  head := h.head
  leased hl := by
    rw [h.free] at hl
    cases hl
  ordered hl := by
    rw [h.free] at hl
    cases hl
  named _ _ _ _ hd := by
    rw [h.told] at hd
    cases hd
  law _ pre post _ _ _ heq := by
    rw [h.told] at heq
    simp at heq

/-- What is written under keys that other writers keep to. -/
theorem keepsTokens_foldl {s : Store} {ops : List Op} {main : ℕ}
    {items : (k : Key) → Option (Item k)} (hops : ∀ o ∈ ops, keepsTokens s o = true)
    (batch : String)
    (hlast : (items (.round batch)).bind (·.value.lastLeaseToken) =
      (s.items (.round batch)).bind (·.value.lastLeaseToken)) :
    ((ops.foldl (Op.apply main) items) (.round batch)).bind (·.value.lastLeaseToken) =
      (s.items (.round batch)).bind (·.value.lastLeaseToken) := by
  induction ops generalizing items with
  | nil => exact hlast
  | cons o ops ih =>
    refine ih (fun o' ho' ↦ hops o' (List.mem_cons_of_mem _ ho')) ?_
    have ho := hops o List.mem_cons_self
    by_cases hk : o.key = .round batch
    · cases o with
      | put k v =>
        obtain rfl : k = .round batch := hk
        rw [Op.apply, Function.update_self]
        exact of_decide_eq_true ho
      | delete k =>
        obtain rfl : k = .round batch := hk
        rw [Op.apply, Function.update_self]
        exact (of_decide_eq_true ho).symm
    · rw [apply_of_ne (Ne.symm hk)]
      exact hlast

/-- And a lock is as it was, or gone. -/
theorem keepsLocks_foldl {s : Store} {ops : List Op} {main : ℕ}
    {items : (k : Key) → Option (Item k)} (hops : ∀ o ∈ ops, keepsTokens s o = true)
    (batch : String) {lock : Item (.roundLock batch)}
    (h : (ops.foldl (Op.apply main) items) (.roundLock batch) = some lock) :
    items (.roundLock batch) = some lock := by
  induction ops generalizing items with
  | nil => exact h
  | cons o ops ih =>
    have ho := hops o List.mem_cons_self
    have hrest := ih (fun o' ho' ↦ hops o' (List.mem_cons_of_mem _ ho')) h
    by_cases hk : o.key = .roundLock batch
    · cases o with
      | put k v =>
        obtain rfl : k = .roundLock batch := hk
        cases ho
      | delete k =>
        obtain rfl : k = .roundLock batch := hk
        rw [Op.apply, Function.update_self] at hrest
        cases hrest
    · rwa [apply_of_ne (Ne.symm hk)] at hrest

theorem env_onward (e : Env) (w : World) : Onward w (World.env e w) := by
  cases e with
  | others t =>
    rw [World.env]
    split
    · rename_i hops
      have hops' : ∀ o ∈ t.ops, keepsTokens w.store o = true := List.all_eq_true.mp hops
      refine onward_of_quiet [] (List.append_nil _).symm (fun _ h ↦ nomatch h) (later_run _ _)
        (·.run _) (fun batch ↦ ?_) fun batch token h ↦ ?_
      · rw [lastToken, lastToken, Txn.run]
        split
        · exact keepsTokens_foldl hops' batch rfl
        · rfl
      · rw [liveToken, Txn.run] at h
        split at h
        · obtain ⟨lock, hlock, rfl⟩ := Option.map_eq_some_iff.mp h
          rw [liveToken, keepsLocks_foldl hops' batch hlock]
          rfl
        · exact h
    · exact .refl w
  | lapse batch => exact onward_of_unlock batch rfl (List.append_nil _).symm fun _ h ↦ nomatch h
  | lapseSlot slot =>
    refine onward_of_quiet [] (List.append_nil _).symm (fun _ h ↦ nomatch h) (later_commit _ _)
      (·.commit _) (fun batch ↦ ?_) fun batch token h ↦ ?_
    · rw [lastToken, lastToken, World.env, items_commit_of_notMem (by simp [Op.key])]
    · rwa [liveToken, World.env, items_commit_of_notMem (by simp [Op.key])] at h
  | _ =>
    exact onward_of_quiet [] (List.append_nil _).symm (fun _ h ↦ nomatch h) (.refl _) id
      (fun _ ↦ rfl) fun _ _ h ↦ h

theorem unanswered_kept {ε α : Type} {v : Run ε α} (h : Kept v) : Kept (unanswered v) :=
  h.mapError.bind fun _ ↦ kept_pure

theorem program_keeps (t : Task) (hw : Sound w) :
    (t.program cfg repo).Keeps Onward Onward (fun _ _ ↦ True) w := by
  have hkept : Verb.Keeps Onward Onward (fun _ _ ↦ True) (fun _ ↦ True) (t.program cfg repo) w := by
    cases t with
    | pass said => exact unanswered_kept orphansStep_kept w hw
    | schedule said c => exact unanswered_kept (schedule_kept c) w hw
    | drive said batch => exact unanswered_kept drive_kept w hw
    | lease batch holder => exact unanswered_kept leaseFor_kept w hw
  exact Prog.Keeps.imp hkept id id fun _ _ _ ↦ trivial

/-! ## The law -/

/-- **One live runner per round**, in every run in which each lease is taken when the runners launched
under the token that its round then names were shown dead since, and no runner is launched once a
newer lease was taken. -/
theorem one_live_runner (cfg : Settings) (repo : String) (w : World) (hw : Fresh w)
    (turns : List (Turn Env Unit Task)) (hm : Minded (runs cfg repo w turns).state.told) :
    OneLive (runs cfg repo w turns).state.told :=
  (Pool.keeps_run (I := Sound) (R := Onward) (G := Onward) (Q := fun _ _ _ ↦ True) .refl Onward.trans
    .refl id (fun h hR ↦ hR.sound h) (fun e a _ ↦ env_onward e a) (fun _ _ h ↦ h)
    (fun t _ hs ↦ program_keeps t hs) hw.sound turns).1.law hm

/-! ## A runner launched beside another -/

/-- A deployment with the local slot and one on EC2. -/
def twoSlots : Settings := ⟨1, true, 60, 3, 1000⟩

/-- A round that a runner drives, whose lease, of token 1, lapsed. -/
def lostItem : Records.Item Round :=
  ⟨⟨{ BatchRow.cut "b1" "r" "x1" "x0" with state := .ciRunning }, none, some 1, none⟩, 2, 2⟩

def lostRound : World where
  store := ⟨2, fun
    | .round batch => if batch = "b1" then some lostItem else none
    | _ => none, [.round "b1"]⟩
  storeDown := none
  ref := "x0"
  gitDown := none
  lands := .error ⟨"land", none, ""⟩
  supersedes := .ok ()
  installed := .ok none
  alive := []
  units _ := .stopped "inactive"
  vms _ := .noVm
  now := 0
  told := []

theorem lostRound_item {k : Key} {i : Item k} (h : lostRound.store.items k = some i) :
    i.modRev = 2 ∧ i.createRev = 2 := by
  cases k with
  | round batch =>
    obtain ⟨-, rfl⟩ : batch = "b1" ∧ lostItem = i := by simpa [lostRound] using h
    exact ⟨rfl, rfl⟩
  | _ => cases h

theorem lostRound_fresh : Fresh lostRound where
  told := rfl
  dated k i hi := by
    obtain ⟨hm, hc⟩ := lostRound_item hi
    exact ⟨hm.le, hc.le⟩
  head {batch token} h := by
    obtain ⟨i, hi, ht⟩ := Option.bind_eq_some_iff.mp h
    obtain ⟨-, rfl⟩ : batch = "b1" ∧ lostItem = i := by simpa [lostRound] using hi
    obtain rfl : 1 = token := Option.some.inj ht
    decide
  free _ := rfl

/-- A pass whose launches all start. -/
def passes : Task := .pass fun _ ↦ .started

/-- The unit of the round's runner under a token. -/
def unitOf (token : ℕ) : String := (unitName "b1" token).toOption.getD ""

/-- A pass finds the orphan; another re-drives it, and its lease lapses; and the first goes on. -/
def staleTurns : List (Turn Env Unit Task) :=
  .spawn passes :: List.replicate 8 (.turn 0) ++ .spawn passes :: List.replicate 20 (.turn 1) ++
    .env (.lapse "b1") :: List.replicate 16 (.turn 0)

/-- A pass is about to launch when its lease lapses; another finds the orphan it leaves, with nothing
launched, and re-drives it; and the first launches. -/
def lateTurns : List (Turn Env Unit Task) :=
  .spawn passes :: List.replicate 16 (.turn 0) ++ .env (.lapse "b1") :: .spawn passes ::
    List.replicate 22 (.turn 1) ++ List.replicate 3 (.turn 0)

theorem not_oneLive {told pre : List Happened} {batch unit : String} {token : ℕ} (unit' : String)
    (token' : ℕ) (h : told = pre ++ [.drives batch token unit]) (hd : .drives batch token' unit' ∈ pre)
    (hne : token' ≠ token) (hdead : ¬ List.Sublist [.drives batch token' unit', .dead unit'] pre) :
    ¬ OneLive told := fun hlive ↦ hdead (hlive h hd hne)

/-- A runner is launched beside one that was launched before it and is alive: where the orphan was
found before another pass re-drove it, and where the launch comes after another lease was taken. -/
theorem launched_beside : Fresh lostRound ∧
    (¬ OneLive (runs twoSlots "r" lostRound staleTurns).state.told ∧
      (runs twoSlots "r" lostRound staleTurns).state.alive.map (·.unit) = [unitOf 10, unitOf 4]) ∧
    ¬ OneLive (runs twoSlots "r" lostRound lateTurns).state.told ∧
      (runs twoSlots "r" lostRound lateTurns).state.alive.map (·.unit) = [unitOf 4, unitOf 8] := by
  refine ⟨lostRound_fresh, ⟨?_, by decide⟩, ?_, by decide⟩
  · have htold : (runs twoSlots "r" lostRound staleTurns).state.told =
        [.dead (unitOf 1), .granted ⟨.proxmox, 0⟩ 3, .leased "b1" 4 (some 1),
          .unitRecorded ⟨⟨.proxmox, 0⟩, 3, unitOf 4⟩, .drives "b1" 4 (unitOf 4), .dead (unitOf 1),
          .granted ⟨.ec2, 0⟩ 9, .leased "b1" 10 (some 4), .unitRecorded ⟨⟨.ec2, 0⟩, 9, unitOf 10⟩] ++
            [.drives "b1" 10 (unitOf 10)] := by decide
    exact not_oneLive (unitOf 4) 4 htold (by decide) (by decide)
      (by decide)
  · have htold : (runs twoSlots "r" lostRound lateTurns).state.told =
        [.dead (unitOf 1), .granted ⟨.proxmox, 0⟩ 3, .leased "b1" 4 (some 1), .dead (unitOf 4),
          .granted ⟨.ec2, 0⟩ 7, .leased "b1" 8 (some 4), .unitRecorded ⟨⟨.ec2, 0⟩, 7, unitOf 8⟩,
          .drives "b1" 8 (unitOf 8), .unitRecorded ⟨⟨.proxmox, 0⟩, 3, unitOf 4⟩] ++
            [.drives "b1" 4 (unitOf 4)] := by decide
    exact not_oneLive (unitOf 8) 8 htold (by decide) (by decide)
      (by decide)

/-! ## A runner that died -/

/-- A pass re-drives the round; its runner dies, and its lease lapses; and another pass re-drives it. -/
def againTurns : List (Turn Env Unit Task) :=
  .spawn passes :: List.replicate 20 (.turn 0) ++ .env (.dies ⟨⟨.proxmox, 0⟩, 3, unitOf 4⟩) ::
    .env (.lapse "b1") :: .spawn passes :: List.replicate 22 (.turn 1)

theorem told_again : (runs twoSlots "r" lostRound againTurns).state.told =
    [.dead (unitOf 1), .granted ⟨.proxmox, 0⟩ 3, .leased "b1" 4 (some 1),
      .unitRecorded ⟨⟨.proxmox, 0⟩, 3, unitOf 4⟩, .drives "b1" 4 (unitOf 4), .dead (unitOf 4),
      .granted ⟨.ec2, 0⟩ 9, .leased "b1" 10 (some 4), .unitRecorded ⟨⟨.ec2, 0⟩, 9, unitOf 10⟩,
      .drives "b1" 10 (unitOf 10)] := by
  decide

theorem minded_again : Minded (runs twoSlots "r" lostRound againTurns).state.told where
  proven {pre post batch unit token expired} h hd := by
    rw [told_again] at h
    simp only [List.cons_eq_append_iff] at h
    simp at h
    obtain ⟨rest, rfl, ⟨rfl, ⟨rfl, rfl, rfl⟩, -⟩ | ⟨rfl, ⟨rfl, rfl, rfl⟩, -⟩⟩ := h
    · simp at hd
    · obtain rfl : unit = unitOf 4 := by simpa using hd
      decide
  prompt batch unit {token token'} last hlt hs := by
    rw [told_again] at hs
    have hl : batch = "b1" ∧ token' = 4 ∧ last = some 1 ∨ batch = "b1" ∧ token' = 10 ∧ last = some 4 := by
      simpa using hs.subset List.mem_cons_self
    have hd : batch = "b1" ∧ token = 4 ∧ unit = unitOf 4 ∨
        batch = "b1" ∧ token = 10 ∧ unit = unitOf 10 := by
      simpa using hs.subset (List.mem_cons_of_mem _ List.mem_cons_self)
    rcases hl with ⟨rfl, rfl, rfl⟩ | ⟨rfl, rfl, rfl⟩
    · omega
    · rcases hd with ⟨-, rfl, rfl⟩ | ⟨-, rfl, rfl⟩
      · exact absurd hs (by decide)
      · omega

theorem one_live_runner_again : OneLive (runs twoSlots "r" lostRound againTurns).state.told :=
  one_live_runner twoSlots "r" lostRound lostRound_fresh againTurns minded_again

end Spira.Controller.Launches
