import Mathlib.Data.List.Perm.Subperm
import Spira.Admission.Pool

/-!
# First come, first served

What a run of the pool keeps: a process holds one lease at most and does not wait while it holds
it (`World.Tidy`), and the `wait.<pid>` files are the processes whose wait was recorded and who
were neither admitted nor gave up since (`waiting_iff`).  A fresh admission then passes no older
waiter (`pool_sound`).

Three things a run has to be spared for it (`Orderly`): `takeNow` by a process that waits, which
leaves its waiter file; a scan or `unwait` for a process that is gone while another that has its
pid waits, whose file it takes for its own; and units that no longer fit 64 bits.
-/

set_option autoImplicit false

namespace Spira.Admission

open History (Since Always run)

variable {d : Dir} {procs : Procs} {me : Holder} {w : World} {e : Event}

/-- A process: its pid and start time. -/
abbrev Proc := ℕ × ℕ

def Holder.proc (h : Holder) : Proc := (h.pid, h.start)

def Lease.proc (l : Lease) : Proc := (l.pid, l.start)

def Waiter.proc (v : Waiter) : Proc := (v.pid, v.start)

def World.Alive (w : World) (p : Proc) : Prop := w.procs.startOf p.1 = some p.2

instance (w : World) (p : Proc) : Decidable (w.Alive p) :=
  inferInstanceAs (Decidable (w.procs.startOf p.1 = some p.2))

@[simp] theorem Lease.is_iff {l : Lease} : l.is me = true ↔ l.proc = me.proc := by
  simp [Lease.is, Lease.proc, Holder.proc]

/-! ## Scans -/

@[simp] theorem mem_live {l : Lease} : l ∈ d.live ↔ l ∈ d.leases := List.mem_mergeSort

theorem mem_reap_leases {l : Lease} :
    l ∈ (reap d procs).leases ↔ l ∈ d.leases ∧ procs.startOf l.pid = some l.start := by
  simp [reap, Procs.alive]

theorem mem_reap_waits {v : Waiter} :
    v ∈ (reap d procs).waits ↔ v ∈ d.waits ∧ procs.startOf v.pid = some v.start := by
  simp [reap, Procs.alive]

/-- The first waiter is no younger than any other. -/
theorem waiters_head {v v' : Waiter} (h : d.waiters.head? = some v) (hv' : v' ∈ d.waits) :
    v ∈ d.waits ∧ v.since ≤ v'.since := by
  have hsorted : d.waiters.Pairwise fun w w' ↦
      decide (w.since < w'.since ∨ w.since = w'.since ∧ w.pid ≤ w'.pid) = true := by
    refine List.pairwise_mergeSort (fun a b c hab hbc ↦ ?_) (fun a b ↦ ?_) _
    · rw [decide_eq_true_eq] at *
      omega
    · rw [Bool.or_eq_true, decide_eq_true_eq, decide_eq_true_eq]
      omega
  have hmem {u : Waiter} : u ∈ d.waiters ↔ u ∈ d.waits := List.mem_mergeSort
  cases hlist : d.waiters with
  | nil =>
    rw [hlist] at h
    cases h
  | cons u us =>
    rw [hlist] at h
    cases h
    refine ⟨hmem.mp (hlist ▸ List.mem_cons_self), ?_⟩
    have hin := hmem.mpr hv'
    rw [hlist] at hin hsorted
    rcases List.mem_cons.mp hin with rfl | hin
    · exact le_rfl
    · have hle := of_decide_eq_true ((List.pairwise_cons.mp hsorted).1 v' hin)
      omega

/-- The slot a fresh lease is written at is free. -/
theorem freeSlot_free (leases : List Lease) : ∀ l ∈ leases, l.slot ≠ freeSlot leases := by
  intro l hl hslot
  rw [freeSlot] at hslot
  cases hfind : (List.range' 1 (leases.length + 1)).find? fun n ↦ !leases.any (·.slot = n) with
  | some n =>
    rw [hfind] at hslot
    have hfree := List.find?_some hfind
    rw [Bool.not_eq_true', List.any_eq_false] at hfree
    exact hfree l hl (decide_eq_true hslot)
  | none =>
    have hsub : List.range' 1 (leases.length + 1) ⊆ leases.map (·.slot) := by
      intro n hn
      have htaken := List.find?_eq_none.mp hfind n hn
      rw [Bool.not_eq_true, Bool.not_eq_false', List.any_eq_true] at htaken
      obtain ⟨l', hl', heq⟩ := htaken
      exact List.mem_map.mpr ⟨l', hl', of_decide_eq_true heq⟩
    have hle := (List.subperm_of_subset List.nodup_range' hsub).length_le
    rw [List.length_range', List.length_map] at hle
    omega

/-- What a scan does. -/
inductive Scanned (d : Dir) (size : ℕ) (me : Holder) (waited now : ℕ) (procs : Procs) : Take → Dir → Prop
  | mine (l : Lease) (hl : l ∈ (reap d procs).leases) (his : l.proc = me.proc) (d' : Dir)
      (hd : d' = reap d procs ∨ d' = (reap d procs).putLease { l with last := now }) :
      Scanned d size me waited now procs (.admitted l.slot false) d'
  | inherited (l : Lease) (hl : l ∈ (reap d procs).leases)
      (hno : ∀ l ∈ (reap d procs).leases, l.proc ≠ me.proc) :
      Scanned d size me waited now procs (.inherited l.slot l.pid) (reap d procs)
  | fresh (hno : ∀ l ∈ (reap d procs).leases, l.proc ≠ me.proc)
      (hfirst : ∀ v, (reap d procs).waiters.head? = some v → v.pid = me.pid)
      (hfits : units (reap d procs).live = 0 ∨
        (units (reap d procs).live + max me.weight 1) % 2 ^ 64 ≤ max size 1) :
      Scanned d size me waited now procs (.admitted (freeSlot (reap d procs).live) true)
        (((reap d procs).putLease ⟨freeSlot (reap d procs).live, me.pid, me.start, me.who, now, waited, now,
          max me.weight 1⟩).removeWait me.pid)
  | queued (hno : ∀ l ∈ (reap d procs).leases, l.proc ≠ me.proc)
      (hin : ∃ v ∈ (reap d procs).waits, v.proc = me.proc) :
      Scanned d size me waited now procs (.busy (reap d procs).live) (reap d procs)
  | recorded (hno : ∀ l ∈ (reap d procs).leases, l.proc ≠ me.proc)
      (hout : ∀ v ∈ (reap d procs).waits, v.proc ≠ me.proc) :
      Scanned d size me waited now procs (.busy (reap d procs).live)
        ((reap d procs).putWait ⟨me.pid, me.start, me.who, now, max me.weight 1⟩)

theorem tryTake_scanned (d : Dir) (size : ℕ) (me : Holder) (waited now : ℕ) (procs : Procs) :
    Scanned d size me waited now procs (tryTake d size me waited now procs).1
      (tryTake d size me waited now procs).2 := by
  have hno (hfind : (reap d procs).live.find? (·.is me) = none) :
      ∀ l ∈ (reap d procs).leases, l.proc ≠ me.proc := by
    intro l hl heq
    exact List.find?_eq_none.mp hfind l (mem_live.mpr hl) (Lease.is_iff.mpr heq)
  rw [tryTake]
  dsimp only
  cases hmine : (reap d procs).live.find? (·.is me) with
  | some l =>
    have hl := mem_live.mp (List.mem_of_find?_eq_some hmine)
    have his := Lease.is_iff.mp (List.find?_some (p := fun l : Lease ↦ l.is me) hmine)
    dsimp only
    split
    · exact .mine l hl his _ (.inr rfl)
    · exact .mine l hl his _ (.inl rfl)
  | none =>
    dsimp only
    cases hanc : (reap d procs).live.find? fun l ↦ l.pid ∈ ancestors procs 64 me.pid with
    | some l => exact .inherited l (mem_live.mp (List.mem_of_find?_eq_some hanc)) (hno hmine)
    | none =>
      dsimp only
      split <;> rename_i hfit
      · refine .fresh (hno hmine) (fun v hv ↦ ?_) hfit.2
        have hfirst := hfit.1
        rw [hv] at hfirst
        simpa using hfirst
      · split <;> rename_i hq
        · refine .queued (hno hmine) ?_
          obtain ⟨v, hv, heq⟩ := List.any_eq_true.mp hq
          exact ⟨v, hv, by simpa [Waiter.proc, Holder.proc] using heq⟩
        · refine .recorded (hno hmine) fun v hv heq ↦ hq ?_
          exact List.any_eq_true.mpr ⟨v, hv, by simpa [Waiter.proc, Holder.proc] using heq⟩

/-- What `takeNow` does. -/
inductive Taken (d : Dir) (me : Holder) (now : ℕ) (procs : Procs) : Now → Dir → Prop
  | mine (l : Lease) (before : ℕ) (hl : l ∈ (reap d procs).leases) (his : l.proc = me.proc) :
      Taken d me now procs (.took l.slot before false) (reap d procs)
  | inherited (l : Lease) (hl : l ∈ (reap d procs).leases) (hanc : l.pid ∈ ancestors procs 64 me.pid) :
      Taken d me now procs (.inherited l.slot) (reap d procs)
  | fresh (before : ℕ) (hno : ∀ l ∈ (reap d procs).leases, l.proc ≠ me.proc)
      (hanc : ∀ l ∈ (reap d procs).leases, l.pid ∉ ancestors procs 64 me.pid) :
      Taken d me now procs (.took (freeSlot (reap d procs).live) before true)
        ((reap d procs).putLease
          ⟨freeSlot (reap d procs).live, me.pid, me.start, me.who, now, 0, now, max me.weight 1⟩)

theorem takeNow_taken (d : Dir) (me : Holder) (now : ℕ) (procs : Procs) :
    Taken d me now procs (takeNow d me now procs).1 (takeNow d me now procs).2 := by
  rw [takeNow]
  dsimp only
  cases hmine : (reap d procs).live.find? (·.is me) with
  | some l =>
    exact .mine l _ (mem_live.mp (List.mem_of_find?_eq_some hmine))
      (Lease.is_iff.mp (List.find?_some (p := fun l : Lease ↦ l.is me) hmine))
  | none =>
    dsimp only
    cases hanc : (reap d procs).live.find? fun l ↦ l.pid ∈ ancestors procs 64 me.pid with
    | some l =>
      exact .inherited l (mem_live.mp (List.mem_of_find?_eq_some hanc)) (by simpa using List.find?_some hanc)
    | none =>
      refine .fresh _ (fun l hl heq ↦ ?_) fun l hl hin ↦ ?_
      · exact List.find?_eq_none.mp hmine l (mem_live.mpr hl) (Lease.is_iff.mpr heq)
      · exact List.find?_eq_none.mp hanc l (mem_live.mpr hl) (decide_eq_true hin)

/-! ## What a run is spared -/

/-- The waiter file of a live process at the pid of `me` is that of `me`. -/
def Unclaimed (w : World) (me : Holder) : Prop :=
  ∀ v ∈ w.dir.waits, v.pid = me.pid → w.Alive v.proc → v.proc = me.proc

/-- The event is none of the three a run has to be spared. -/
def Orderly (w : World) : Event → Prop
  | .tryTake _ me _ => Unclaimed w me ∧
      ((reap w.dir w.procs).leases.map fun l ↦ max l.weight 1).sum + max me.weight 1 < 2 ^ 64
  | .unwait me => Unclaimed w me
  | .takeNow me => (∃ v ∈ w.dir.waits, v.proc = me.proc) →
      ∃ l ∈ (reap w.dir w.procs).leases, l.pid ∈ ancestors w.procs 64 me.pid
  | _ => True

instance (w : World) (me : Holder) : Decidable (Unclaimed w me) :=
  inferInstanceAs (Decidable (∀ v ∈ w.dir.waits, v.pid = me.pid → w.Alive v.proc → v.proc = me.proc))

instance (w : World) : (e : Event) → Decidable (Orderly w e)
  | .tryTake _ me _ => inferInstanceAs (Decidable (Unclaimed w me ∧
      ((reap w.dir w.procs).leases.map fun l ↦ max l.weight 1).sum + max me.weight 1 < 2 ^ 64))
  | .unwait me => inferInstanceAs (Decidable (Unclaimed w me))
  | .takeNow me => inferInstanceAs (Decidable ((∃ v ∈ w.dir.waits, v.proc = me.proc) →
      ∃ l ∈ (reap w.dir w.procs).leases, l.pid ∈ ancestors w.procs 64 me.pid))
  | .release _ _ | .tick _ | .spawn _ _ _ | .exit _ => isTrue trivial

/-! ## One lease each -/

/-- Files name processes there have been; no two leases have one slot or one holder, no two
waiters one pid; and no process waits that holds a lease. -/
structure World.Tidy (w : World) : Prop where
  born : ∀ p, w.Alive p → p ∈ w.born
  leases : ∀ l ∈ w.dir.leases, l.proc ∈ w.born
  waits : ∀ v ∈ w.dir.waits, v.proc ∈ w.born
  slots : (w.dir.leases.map (·.slot)).Nodup
  holders : (w.dir.leases.map Lease.proc).Nodup
  pids : (w.dir.waits.map (·.pid)).Nodup
  apart : ∀ l ∈ w.dir.leases, ∀ v ∈ w.dir.waits, v.proc ≠ l.proc

theorem World.Tidy.start : World.start.Tidy where
  born _ hp := nomatch hp
  leases _ hl := nomatch hl
  waits _ hv := nomatch hv
  slots := List.nodup_nil
  holders := List.nodup_nil
  pids := List.nodup_nil
  apart _ hl := nomatch hl

/-- Less files are as tidy. -/
theorem World.Tidy.sublist (h : w.Tidy) {d' : Dir} (hl : d'.leases.Sublist w.dir.leases)
    (hv : d'.waits.Sublist w.dir.waits) : World.Tidy { w with dir := d' } where
  born := h.born
  leases l hin := h.leases l (hl.subset hin)
  waits v hin := h.waits v (hv.subset hin)
  slots := h.slots.sublist (hl.map _)
  holders := h.holders.sublist (hl.map _)
  pids := h.pids.sublist (hv.map _)
  apart l hin v hin' := h.apart l (hl.subset hin) v (hv.subset hin')

theorem World.Tidy.reap (h : w.Tidy) : World.Tidy { w with dir := reap w.dir w.procs } :=
  h.sublist List.filter_sublist List.filter_sublist

theorem World.Tidy.removeWait (h : w.Tidy) (pid : ℕ) : World.Tidy { w with dir := w.dir.removeWait pid } :=
  h.sublist (List.Sublist.refl _) List.filter_sublist

/-- A lease at a free slot, or in place of its holder's own. -/
theorem World.Tidy.putLease (h : w.Tidy) {l : Lease} (hborn : l.proc ∈ w.born)
    (hown : ∀ l' ∈ w.dir.leases, l'.proc = l.proc → l'.slot = l.slot)
    (hwait : ∀ v ∈ w.dir.waits, v.proc ≠ l.proc) : World.Tidy { w with dir := w.dir.putLease l } where
  born := h.born
  leases l' hin := by
    rcases List.mem_cons.mp hin with rfl | hin
    · exact hborn
    · exact h.leases l' (List.mem_of_mem_filter hin)
  waits := h.waits
  slots := by
    show ((l :: w.dir.leases.filter (·.slot ≠ l.slot)).map (·.slot)).Nodup
    rw [List.map_cons, List.nodup_cons]
    refine ⟨fun hin ↦ ?_, h.slots.sublist (List.filter_sublist.map _)⟩
    obtain ⟨l', hl', heq⟩ := List.mem_map.mp hin
    exact of_decide_eq_true (List.mem_filter.mp hl').2 heq
  holders := by
    show ((l :: w.dir.leases.filter (·.slot ≠ l.slot)).map Lease.proc).Nodup
    rw [List.map_cons, List.nodup_cons]
    refine ⟨fun hin ↦ ?_, h.holders.sublist (List.filter_sublist.map _)⟩
    obtain ⟨l', hl', heq⟩ := List.mem_map.mp hin
    obtain ⟨hin', hne⟩ := List.mem_filter.mp hl'
    exact of_decide_eq_true hne (hown l' hin' heq)
  pids := h.pids
  apart l' hin v hv := by
    rcases List.mem_cons.mp hin with rfl | hin
    · exact hwait v hv
    · exact h.apart l' (List.mem_of_mem_filter hin) v hv

/-- A waiter file of a process that holds no lease. -/
theorem World.Tidy.putWait (h : w.Tidy) {v : Waiter} (hborn : v.proc ∈ w.born)
    (hno : ∀ l ∈ w.dir.leases, l.proc ≠ v.proc) : World.Tidy { w with dir := w.dir.putWait v } where
  born := h.born
  leases := h.leases
  waits v' hin := by
    rcases List.mem_cons.mp hin with rfl | hin
    · exact hborn
    · exact h.waits v' (List.mem_of_mem_filter hin)
  slots := h.slots
  holders := h.holders
  pids := by
    show ((v :: w.dir.waits.filter (·.pid ≠ v.pid)).map (·.pid)).Nodup
    rw [List.map_cons, List.nodup_cons]
    refine ⟨fun hin ↦ ?_, h.pids.sublist (List.filter_sublist.map _)⟩
    obtain ⟨v', hv', heq⟩ := List.mem_map.mp hin
    exact of_decide_eq_true (List.mem_filter.mp hv').2 heq
  apart l hl v' hin := by
    rcases List.mem_cons.mp hin with rfl | hin
    · exact fun heq ↦ hno l hl heq.symm
    · exact h.apart l hl v' (List.mem_of_mem_filter hin)

theorem World.Tidy.same_lease (h : w.Tidy) {l l' : Lease} (hl : l ∈ w.dir.leases) (hl' : l' ∈ w.dir.leases)
    (heq : l.proc = l'.proc) : l = l' :=
  List.inj_on_of_nodup_map h.holders hl hl' heq

theorem release_sublist (d : Dir) (slot : ℕ) (me : Holder) :
    (release d slot me).leases.Sublist d.leases ∧ (release d slot me).waits = d.waits := by
  rw [release]
  split
  · split
    · exact ⟨List.filter_sublist, rfl⟩
    · exact ⟨List.Sublist.refl _, rfl⟩
  · exact ⟨List.Sublist.refl _, rfl⟩

/-- **A step that is orderly keeps a tidy pool tidy.** -/
theorem World.Tidy.step (h : w.Tidy) (hreal : Real w e) (hord : Orderly w e) : (w.step e).Tidy := by
  have hr := h.reap
  cases e with
  | tryTake size me waited =>
    have hscan := tryTake_scanned w.dir size me waited w.now w.procs
    show World.Tidy { w with dir := (Admission.tryTake w.dir size me waited w.now w.procs).2 }
    generalize Admission.tryTake w.dir size me waited w.now w.procs = r at hscan
    obtain ⟨t, d'⟩ := r
    cases hscan with
    | mine l hl his d' hd =>
      rcases hd with rfl | rfl
      · exact hr
      · refine hr.putLease (hr.leases l hl) (fun l' hl' heq ↦ ?_) (hr.apart l hl)
        have hsame : l' = l := hr.same_lease hl' hl heq
        rw [hsame]
    | inherited l hl hno => exact hr
    | fresh hno hfirst hfits =>
      refine (hr.removeWait me.pid).putLease hreal (fun l' hl' heq ↦ absurd heq (hno l' hl')) fun v hv heq ↦ ?_
      exact of_decide_eq_true (List.mem_filter.mp hv).2 (congrArg Prod.fst heq)
    | queued hno hin => exact hr
    | recorded hno hout => exact hr.putWait hreal hno
  | takeNow me =>
    have htaken := takeNow_taken w.dir me w.now w.procs
    show World.Tidy { w with dir := (Admission.takeNow w.dir me w.now w.procs).2 }
    generalize Admission.takeNow w.dir me w.now w.procs = r at htaken
    obtain ⟨t, d'⟩ := r
    cases htaken with
    | mine l before hl his => exact hr
    | inherited l hl hanc => exact hr
    | fresh before hno hanc =>
      refine hr.putLease hreal (fun l' hl' heq ↦ absurd heq (hno l' hl')) fun v hv heq ↦ ?_
      obtain ⟨l, hl, hin⟩ := hord ⟨v, (mem_reap_waits.mp hv).1, heq⟩
      exact hanc l hl hin
  | release slot me =>
    obtain ⟨hl, hv⟩ := release_sublist w.dir slot me
    exact h.sublist hl (hv ▸ List.Sublist.refl _)
  | unwait me => exact h.removeWait me.pid
  | tick seconds => exact ⟨h.born, h.leases, h.waits, h.slots, h.holders, h.pids, h.apart⟩
  | spawn pid start ppid =>
    refine ⟨fun p hp ↦ ?_, fun l hl ↦ Finset.mem_insert_of_mem (h.leases l hl),
      fun v hv ↦ Finset.mem_insert_of_mem (h.waits v hv), h.slots, h.holders, h.pids, h.apart⟩
    have hp : Function.update w.procs.startOf pid (some start) p.1 = some p.2 := hp
    show p ∈ insert (pid, start) w.born
    by_cases hpid : p.1 = pid
    · rw [hpid, Function.update_self, Option.some_inj] at hp
      exact Finset.mem_insert.mpr (.inl (Prod.ext hpid hp.symm))
    · rw [Function.update_of_ne hpid] at hp
      exact Finset.mem_insert_of_mem (h.born p hp)
  | exit pid =>
    refine ⟨fun p hp ↦ ?_, h.leases, h.waits, h.slots, h.holders, h.pids, h.apart⟩
    have hp : Function.update w.procs.startOf pid none p.1 = some p.2 := hp
    by_cases hpid : p.1 = pid
    · rw [hpid, Function.update_self] at hp
      cases hp
    · rw [Function.update_of_ne hpid] at hp
      exact h.born p hp

/-! ## Who waits -/

/-- A scan records that `p` waits, in second `r`. -/
def Recorded (p : Proc) (r : ℕ) (w : World) : Event → Prop
  | .tryTake size me waited => me.proc = p ∧
      (∃ holders, (tryTake w.dir size me waited w.now w.procs).1 = .busy holders) ∧
      (∀ v ∈ (reap w.dir w.procs).waits, v.proc ≠ p) ∧ r = w.now
  | _ => False

/-- `p` is admitted, at a slot it holds or at a new one. -/
def Admits (p : Proc) (w : World) : Event → Prop
  | .tryTake size me waited => me.proc = p ∧
      ∃ slot fresh, (tryTake w.dir size me waited w.now w.procs).1 = .admitted slot fresh
  | .takeNow me => me.proc = p ∧
      ∃ slot before fresh, (takeNow w.dir me w.now w.procs).1 = .took slot before fresh
  | _ => False

/-- The acquire loop of `p` returns what it inherited, or gives up. -/
def Leaves (p : Proc) : Event → Prop
  | .unwait me => me.proc = p
  | _ => False

/-- The wait of `p` was recorded in second `r`, and it was neither admitted nor did it give up
since. -/
def Waiting (p : Proc) (r : ℕ) (es : List Event) : Prop :=
  Since World.step (Recorded p r) (fun w e ↦ ¬Admits p w e ∧ ¬Leaves p e) .start es

/-- There is a waiter file of `p` from second `r`. -/
def World.Filed (w : World) (p : Proc) (r : ℕ) : Prop := ∃ v ∈ w.dir.waits, v.proc = p ∧ v.since = r

variable {p : Proc} {r : ℕ}

theorem filed_reap (halive : w.Alive p) :
    World.Filed { w with dir := reap w.dir w.procs } p r ↔ w.Filed p r := by
  constructor
  · rintro ⟨v, hv, hp, hr⟩
    exact ⟨v, (mem_reap_waits.mp hv).1, hp, hr⟩
  · rintro ⟨v, hv, rfl, hr⟩
    exact ⟨v, mem_reap_waits.mpr ⟨hv, halive⟩, rfl, hr⟩

/-- The waiter file at the pid of `me` goes, and that is the file of `me` or of a process that is
gone. -/
theorem filed_removeWait (hun : Unclaimed w me) (halive : w.Alive p) {d : Dir}
    (hsub : ∀ v ∈ d.waits, v ∈ w.dir.waits) :
    World.Filed { w with dir := d.removeWait me.pid } p r ↔
      World.Filed { w with dir := d } p r ∧ me.proc ≠ p := by
  constructor
  · rintro ⟨v, hv, rfl, hr⟩
    obtain ⟨hin, hne⟩ := List.mem_filter.mp hv
    exact ⟨⟨v, hin, rfl, hr⟩, fun heq ↦ of_decide_eq_true hne (congrArg Prod.fst heq).symm⟩
  · rintro ⟨⟨v, hv, rfl, hr⟩, hne⟩
    refine ⟨v, List.mem_filter.mpr ⟨hv, decide_eq_true fun hpid ↦ hne ?_⟩, rfl, hr⟩
    exact (hun v (hsub v hv) hpid halive).symm

/-- **What a step does to the waiter file of a live process.** -/
theorem filed_step (h : w.Tidy) (hord : Orderly w e) (halive : w.Alive p) :
    (w.step e).Filed p r ↔ Recorded p r w e ∨ w.Filed p r ∧ ¬Admits p w e ∧ ¬Leaves p e := by
  have hreap := filed_reap (r := r) halive
  have hsub (v : Waiter) (hv : v ∈ (reap w.dir w.procs).waits) : v ∈ w.dir.waits := (mem_reap_waits.mp hv).1
  cases e with
  | tryTake size me waited =>
    have hscan := tryTake_scanned w.dir size me waited w.now w.procs
    show World.Filed { w with dir := (Admission.tryTake w.dir size me waited w.now w.procs).2 } p r ↔
      (me.proc = p ∧ (∃ holders, (tryTake w.dir size me waited w.now w.procs).1 = .busy holders) ∧
        (∀ v ∈ (reap w.dir w.procs).waits, v.proc ≠ p) ∧ r = w.now) ∨
      w.Filed p r ∧ ¬(me.proc = p ∧
        ∃ slot fresh, (tryTake w.dir size me waited w.now w.procs).1 = .admitted slot fresh) ∧ ¬False
    generalize Admission.tryTake w.dir size me waited w.now w.procs = res at hscan
    obtain ⟨t, d'⟩ := res
    cases hscan with
    | mine l hl his d' hd =>
      have hwaits : d'.waits = (reap w.dir w.procs).waits := by
        rcases hd with rfl | rfl <;> rfl
      have hsame : World.Filed { w with dir := d' } p r ↔ w.Filed p r := by
        rw [← hreap, World.Filed, World.Filed, hwaits]
      have hno : w.Filed p r → me.proc ≠ p := by
        rintro ⟨v, hv, hp, -⟩ heq
        exact h.apart l (mem_reap_leases.mp hl).1 v hv (hp.trans (heq.symm.trans his.symm))
      rw [hsame]
      constructor
      · exact fun hf ↦ .inr ⟨hf, fun hmine ↦ hno hf hmine.1, not_false⟩
      · rintro (⟨-, ⟨holders, hbusy⟩, -⟩ | hf)
        · cases hbusy
        · exact hf.1
    | inherited l hl hno =>
      refine hreap.trans ?_
      constructor
      · refine fun hf ↦ .inr ⟨hf, ?_, not_false⟩
        rintro ⟨-, slot, fresh, hadm⟩
        cases hadm
      · rintro (⟨-, ⟨holders, hbusy⟩, -⟩ | hf)
        · cases hbusy
        · exact hf.1
    | fresh hno hfirst hfits =>
      have hsame := (filed_removeWait (r := r) hord.1 halive hsub).trans (and_congr_left' hreap)
      constructor
      · intro hf
        obtain ⟨hf, hne⟩ := hsame.mp hf
        exact .inr ⟨hf, fun hmine ↦ hne hmine.1, not_false⟩
      · rintro (⟨-, ⟨holders, hbusy⟩, -⟩ | ⟨hf, hnot, -⟩)
        · cases hbusy
        · exact hsame.mpr ⟨hf, fun heq ↦ hnot ⟨heq, _, _, rfl⟩⟩
    | queued hno hin =>
      refine hreap.trans ?_
      constructor
      · refine fun hf ↦ .inr ⟨hf, ?_, not_false⟩
        rintro ⟨-, slot, fresh, hadm⟩
        cases hadm
      · rintro (⟨rfl, -, hout, -⟩ | hf)
        · obtain ⟨v, hv, heq⟩ := hin
          exact absurd heq (hout v hv)
        · exact hf.1
    | recorded hno hout =>
      have hsame := (filed_removeWait (r := r) hord.1 halive hsub).trans (and_congr_left' hreap)
      constructor
      · rintro ⟨v, hv, hp, hr⟩
        rcases List.mem_cons.mp hv with rfl | hv
        · exact .inl ⟨hp, ⟨_, rfl⟩, fun v hv ↦ hp ▸ hout v hv, hr.symm⟩
        · refine .inr ⟨(hsame.mp ⟨v, hv, hp, hr⟩).1, ?_, not_false⟩
          rintro ⟨-, slot, fresh, hadm⟩
          cases hadm
      · rintro (⟨hp, -, -, hr⟩ | ⟨hf, -⟩)
        · exact ⟨_, List.mem_cons_self, hp, hr.symm⟩
        · by_cases hp : me.proc = p
          · obtain ⟨v, hv, heq, -⟩ := hreap.mpr hf
            exact absurd (heq.trans hp.symm) (hout v hv)
          · obtain ⟨v, hv, heq, hr⟩ := hsame.mpr ⟨hf, hp⟩
            exact ⟨v, List.mem_cons_of_mem _ hv, heq, hr⟩
  | takeNow me =>
    have htaken := takeNow_taken w.dir me w.now w.procs
    show World.Filed { w with dir := (Admission.takeNow w.dir me w.now w.procs).2 } p r ↔
      False ∨ w.Filed p r ∧ ¬(me.proc = p ∧ ∃ slot before fresh,
        (takeNow w.dir me w.now w.procs).1 = .took slot before fresh) ∧ ¬False
    generalize Admission.takeNow w.dir me w.now w.procs = res at htaken
    obtain ⟨t, d'⟩ := res
    have hnot (hmine : w.Filed p r → me.proc ≠ p ∨ ∀ slot before fresh, t ≠ .took slot before fresh)
        (hd : World.Filed { w with dir := d' } p r ↔ w.Filed p r) :
        World.Filed { w with dir := d' } p r ↔ False ∨ w.Filed p r ∧ ¬(me.proc = p ∧
          ∃ slot before fresh, t = .took slot before fresh) ∧ ¬False := by
      rw [hd, false_or, not_false_iff, and_true]
      refine ⟨fun hf ↦ ⟨hf, ?_⟩, fun hf ↦ hf.1⟩
      rintro ⟨hp, slot, before, fresh, ht⟩
      rcases hmine hf with hne | hne
      · exact hne hp
      · exact hne slot before fresh ht
    cases htaken with
    | mine l before hl his =>
      refine hnot ?_ hreap
      rintro ⟨v, hv, hp, -⟩
      refine .inl fun heq ↦ ?_
      exact h.apart l (mem_reap_leases.mp hl).1 v hv (hp.trans (heq.symm.trans his.symm))
    | inherited l hl hanc => exact hnot (fun _ ↦ .inr fun _ _ _ ↦ Now.noConfusion) hreap
    | fresh before hno hanc =>
      refine hnot ?_ hreap
      rintro ⟨v, hv, hp, -⟩
      refine .inl fun heq ↦ ?_
      obtain ⟨l, hl, hin⟩ := hord ⟨v, hv, hp.trans heq.symm⟩
      exact hanc l hl hin
  | release slot me =>
    have hwaits := (release_sublist w.dir slot me).2
    show World.Filed { w with dir := release w.dir slot me } p r ↔ False ∨ w.Filed p r ∧ ¬False ∧ ¬False
    rw [World.Filed, hwaits]
    simp [World.Filed]
  | unwait me =>
    refine (filed_removeWait (r := r) hord halive fun _ hv ↦ hv).trans ?_
    show w.Filed p r ∧ me.proc ≠ p ↔ False ∨ w.Filed p r ∧ ¬False ∧ ¬me.proc = p
    simp
  | tick seconds =>
    show w.Filed p r ↔ False ∨ w.Filed p r ∧ ¬False ∧ ¬False
    simp
  | spawn pid start ppid =>
    show w.Filed p r ↔ False ∨ w.Filed p r ∧ ¬False ∧ ¬False
    simp
  | exit pid =>
    show w.Filed p r ↔ False ∨ w.Filed p r ∧ ¬False ∧ ¬False
    simp

variable {es : List Event}

/-- The pool after a run. -/
abbrev after (es : List Event) : World := run World.step .start es

/-- A process that is alive was so before, or starts. -/
theorem alive_step (h : (w.step e).Alive p) : w.Alive p ∨ ∃ ppid, e = .spawn p.1 p.2 ppid := by
  cases e with
  | spawn pid start ppid =>
    have h : Function.update w.procs.startOf pid (some start) p.1 = some p.2 := h
    by_cases hpid : p.1 = pid
    · rw [hpid, Function.update_self, Option.some_inj] at h
      exact .inr ⟨ppid, by rw [hpid, h]⟩
    · rw [Function.update_of_ne hpid] at h
      exact .inl h
  | exit pid =>
    have h : Function.update w.procs.startOf pid none p.1 = some p.2 := h
    by_cases hpid : p.1 = pid
    · rw [hpid, Function.update_self] at h
      cases h
    · rw [Function.update_of_ne hpid] at h
      exact .inl h
  | _ => exact .inl h

theorem born_step (w : World) (e : Event) : w.born ⊆ (w.step e).born := by
  cases e with
  | spawn pid start ppid => exact Finset.subset_insert _ _
  | _ => exact Finset.Subset.refl _

/-- What an orderly run has made: a tidy pool, whose waiter files of live processes are those that
wait. -/
structure Queued (es : List Event) : Prop where
  tidy : (after es).Tidy
  born : ∀ p r, Waiting p r es → p ∈ (after es).born
  filed : ∀ p r, (after es).Alive p → ((after es).Filed p r ↔ Waiting p r es)

theorem Queued.start : Queued [] where
  tidy := World.Tidy.start
  born _ _ hw := absurd hw History.not_since_nil
  filed _ _ hp := nomatch hp

theorem Queued.snoc (h : Queued es) (hreal : Real (after es) e) (hord : Orderly (after es) e) :
    Queued (es ++ [e]) := by
  have hafter : after (es ++ [e]) = (after es).step e := History.run_snoc ..
  have hsnoc (p : Proc) (r : ℕ) : Waiting p r (es ++ [e]) ↔
      Recorded p r (after es) e ∨ Waiting p r es ∧ ¬Admits p (after es) e ∧ ¬Leaves p e :=
    History.since_snoc
  refine ⟨?_, fun p r hw ↦ ?_, fun p r halive ↦ ?_⟩
  · rw [hafter]
    exact h.tidy.step hreal hord
  · rw [hafter]
    refine born_step _ e ?_
    rcases (hsnoc p r).mp hw with hrec | ⟨hw, -⟩
    · cases e with
      | tryTake size me waited =>
        obtain ⟨rfl, -⟩ := hrec
        exact hreal
      | _ => exact absurd hrec id
    · exact h.born p r hw
  · rw [hafter] at halive ⊢
    rw [hsnoc]
    by_cases hp : (after es).Alive p
    · rw [filed_step h.tidy hord hp, h.filed p r hp]
    · obtain ⟨ppid, rfl⟩ := (alive_step halive).resolve_left hp
      refine iff_of_false ?_ ?_
      · rintro ⟨v, hv, heq, -⟩
        exact hreal.2 (heq ▸ h.tidy.waits v hv)
      · rintro (hrec | ⟨hw, -⟩)
        · exact hrec
        · exact hreal.2 (h.born p r hw)

theorem queued_of_always (h : Always World.step (fun w e ↦ Real w e ∧ Orderly w e) .start es) : Queued es :=
  History.always_induction (J := Queued) .start (fun _ _ _ ih he ↦ ih.snoc he.1 he.2) es h

/-! ## What a run keeps -/

/-- No two live leases have one slot or one holder, and no holder of one counts as a waiter. -/
structure Held (w : World) : Prop where
  one : ∀ l ∈ w.dir.leases, ∀ l' ∈ w.dir.leases, w.Alive l.proc → w.Alive l'.proc →
    l.slot = l'.slot ∨ l.proc = l'.proc → l = l'
  apart : ∀ l ∈ w.dir.leases, w.Alive l.proc → ∀ v ∈ (reap w.dir w.procs).waits, v.proc ≠ l.proc

/-- An acquire loop of `p` returns: admitted, or with what it inherited. -/
def Returns (p : Proc) (w : World) (e : Event) : Prop := Admits p w e ∨ Leaves p e

/-- A scan for `p`. -/
def Scans (p : Proc) : Event → Prop
  | .tryTake _ me _ => me.proc = p
  | _ => False

/-- A scan admits `me` at a new lease. -/
def Fresh (w : World) (size : ℕ) (me : Holder) (waited : ℕ) : Prop :=
  ∃ slot, (tryTake w.dir size me waited w.now w.procs).1 = .admitted slot true

/-- What holds of a step after a run. -/
structure Served (es : List Event) (e : Event) : Prop where
  /-- A fresh lease fits what the others leave, or is alone. -/
  fits : ∀ size me waited, e = .tryTake size me waited → Fresh (after es) size me waited →
    (reap (after es).dir (after es).procs).leases = [] ∨
      ((reap (after es).dir (after es).procs).leases.map fun l ↦ max l.weight 1).sum + max me.weight 1 ≤ size
  /-- A fresh lease passes no live process that waits since an earlier second. -/
  queue : ∀ size me waited, e = .tryTake size me waited → Fresh (after es) size me waited →
    ∀ p r, (after es).Alive p → Waiting p r es → ∃ r' ≤ r, Waiting me.proc r' es
  /-- Whose acquire returned is not counted as a waiter until it is scanned for again. -/
  returned : ∀ p, Since World.step (Returns p) (fun _ e ↦ ¬Scans p e) .start es →
    ∀ v ∈ (reap (after es).dir (after es).procs).waits, v.proc ≠ p
  /-- A lease goes with its holder's release or once its process is gone. -/
  lasts : ∀ l ∈ (after es).dir.leases,
    (∃ l' ∈ ((after es).step e).dir.leases, l' = { l with last := l'.last }) ∨
      (∃ me, e = .release l.slot me ∧ me.proc = l.proc) ∨ ¬(after es).Alive l.proc

/-- The pool is held and served as it should be, all along a run. -/
def PoolSound (es : List Event) : Prop :=
  (∀ pre post, es = pre ++ post → Held (after pre)) ∧ ∀ pre e post, es = pre ++ e :: post → Served pre e

theorem World.Tidy.held (h : w.Tidy) : Held w where
  one l hl l' hl' _ _ hsame := by
    rcases hsame with hslot | hproc
    · exact List.inj_on_of_nodup_map h.slots hl hl' hslot
    · exact h.same_lease hl hl' hproc
  apart l hl _ v hv := h.apart l hl v (mem_reap_waits.mp hv).1

/-- A lease of a live process stays where it is. -/
theorem lease_step (h : w.Tidy) {l : Lease} (hl : l ∈ w.dir.leases) (halive : w.Alive l.proc) :
    (∃ l' ∈ (w.step e).dir.leases, l' = { l with last := l'.last }) ∨
      ∃ me, e = .release l.slot me ∧ me.proc = l.proc := by
  have hr : l ∈ (reap w.dir w.procs).leases := mem_reap_leases.mpr ⟨hl, halive⟩
  have hput (l' : Lease) (hslot : l'.slot = freeSlot (reap w.dir w.procs).live) :
      l ∈ ((reap w.dir w.procs).putLease l').leases := by
    refine List.mem_cons_of_mem _ (List.mem_filter.mpr ⟨hr, decide_eq_true fun heq ↦ ?_⟩)
    exact freeSlot_free _ l (mem_live.mpr hr) (heq.trans hslot)
  cases e with
  | tryTake size me waited =>
    have hscan := tryTake_scanned w.dir size me waited w.now w.procs
    refine .inl ?_
    show ∃ l' ∈ (Admission.tryTake w.dir size me waited w.now w.procs).2.leases, _
    generalize Admission.tryTake w.dir size me waited w.now w.procs = res at hscan
    obtain ⟨t, d'⟩ := res
    cases hscan with
    | mine l' hl' his d' hd =>
      rcases hd with rfl | rfl
      · exact ⟨l, hr, rfl⟩
      · by_cases hsame : l = l'
        · subst hsame
          exact ⟨_, List.mem_cons_self, rfl⟩
        · refine ⟨l, List.mem_cons_of_mem _ (List.mem_filter.mpr ⟨hr, decide_eq_true fun heq ↦ hsame ?_⟩), rfl⟩
          exact List.inj_on_of_nodup_map h.reap.slots hr hl' heq
    | inherited l' hl' hno => exact ⟨l, hr, rfl⟩
    | fresh hno hfirst hfits => exact ⟨l, hput _ rfl, rfl⟩
    | queued hno hin => exact ⟨l, hr, rfl⟩
    | recorded hno hout => exact ⟨l, hr, rfl⟩
  | takeNow me =>
    have htaken := takeNow_taken w.dir me w.now w.procs
    refine .inl ?_
    show ∃ l' ∈ (Admission.takeNow w.dir me w.now w.procs).2.leases, _
    generalize Admission.takeNow w.dir me w.now w.procs = res at htaken
    obtain ⟨t, d'⟩ := res
    cases htaken with
    | mine l' before hl' his => exact ⟨l, hr, rfl⟩
    | inherited l' hl' hanc => exact ⟨l, hr, rfl⟩
    | fresh before hno hanc => exact ⟨l, hput _ rfl, rfl⟩
  | release slot me =>
    by_cases hrel : slot = l.slot ∧ me.proc = l.proc
    · exact .inr ⟨me, by rw [hrel.1], hrel.2⟩
    · refine .inl ⟨l, ?_, rfl⟩
      show l ∈ (release w.dir slot me).leases
      rw [release]
      split
      next l' hfind =>
        split <;> rename_i his
        · refine List.mem_filter.mpr ⟨hl, decide_eq_true fun heq ↦ hrel ⟨heq.symm, ?_⟩⟩
          have hl' := List.mem_of_find?_eq_some hfind
          have hslot : l'.slot = slot := by simpa using List.find?_some hfind
          have hsame := List.inj_on_of_nodup_map h.slots hl' hl (hslot.trans heq.symm)
          rw [← hsame]
          exact (Lease.is_iff.mp his).symm
        · exact hl
      next => exact hl
  | unwait me => exact .inl ⟨l, hl, rfl⟩
  | tick seconds => exact .inl ⟨l, hl, rfl⟩
  | spawn pid start ppid => exact .inl ⟨l, hl, rfl⟩
  | exit pid => exact .inl ⟨l, hl, rfl⟩

theorem fresh_scanned {size waited : ℕ} (h : Fresh w size me waited) :
    (∀ v, (reap w.dir w.procs).waiters.head? = some v → v.pid = me.pid) ∧
      (units (reap w.dir w.procs).live = 0 ∨
        (units (reap w.dir w.procs).live + max me.weight 1) % 2 ^ 64 ≤ max size 1) := by
  obtain ⟨slot, h⟩ := h
  have hscan := tryTake_scanned w.dir size me waited w.now w.procs
  rw [h] at hscan
  generalize (Admission.tryTake w.dir size me waited w.now w.procs).2 = d' at hscan
  cases hscan with
  | fresh hno hfirst hfits => exact ⟨hfirst, hfits⟩

/-- Units that fit 64 bits are what they are. -/
theorem units_live (d : Dir) (h : (d.leases.map fun l ↦ max l.weight 1).sum < 2 ^ 64) :
    units d.live = (d.leases.map fun l ↦ max l.weight 1).sum := by
  have hperm : d.live.Perm d.leases := List.mergeSort_perm _ _
  rw [units, (hperm.map _).sum_eq, Nat.mod_eq_of_lt h]

theorem Queued.served (h : Queued es) (hord : Orderly (after es) e) : Served es e where
  fits size me waited he hfresh := by
    subst he
    obtain ⟨-, hfits⟩ := fresh_scanned hfresh
    have hsum := hord.2
    rw [units_live _ (by omega)] at hfits
    generalize hleases : (reap (after es).dir (after es).procs).leases = leases at hfits hsum ⊢
    cases leases with
    | nil => exact .inl rfl
    | cons l ls =>
      refine .inr ?_
      rw [List.map_cons, List.sum_cons] at hfits hsum ⊢
      have hl : 1 ≤ max l.weight 1 := le_max_right _ _
      have hme : 1 ≤ max me.weight 1 := le_max_right _ _
      rcases hfits with hfits | hfits
      · omega
      · rw [Nat.mod_eq_of_lt hsum] at hfits
        omega
  queue size me waited he hfresh p r halive hw := by
    subst he
    obtain ⟨hfirst, -⟩ := fresh_scanned hfresh
    obtain ⟨v, hv, hp, hr⟩ := (filed_reap halive).mpr ((h.filed p r halive).mpr hw)
    have hv : v ∈ (reap (after es).dir (after es).procs).waits := hv
    cases hhead : (reap (after es).dir (after es).procs).waiters.head? with
    | none =>
      have hnil := List.head?_eq_none_iff.mp hhead
      have hin : v ∈ (reap (after es).dir (after es).procs).waiters := List.mem_mergeSort.mpr hv
      rw [hnil] at hin
      cases hin
    | some u =>
      obtain ⟨hu, hle⟩ := waiters_head hhead hv
      obtain ⟨hin, hualive⟩ := mem_reap_waits.mp hu
      have hproc := hord.1 u hin (hfirst u hhead) hualive
      refine ⟨u.since, hr ▸ hle, ?_⟩
      rw [← hproc]
      exact (h.filed u.proc u.since hualive).mp ⟨u, hin, rfl, rfl⟩
  returned p hret v hv heq := by
    obtain ⟨hin, halive⟩ := mem_reap_waits.mp hv
    have hw := (h.filed v.proc v.since halive).mp ⟨v, hin, rfl, rfl⟩
    rw [heq] at hw
    refine hw.false_of hret (fun w e hrec ↦ ?_) (fun w e hleft hkeep ↦ ?_)
    · cases e with
      | tryTake size me waited =>
        obtain ⟨hp, ⟨holders, hbusy⟩, -⟩ := hrec
        refine ⟨?_, fun hno ↦ hno hp⟩
        rintro (⟨-, slot, fresh, hadm⟩ | hleft)
        · rw [hbusy] at hadm
          cases hadm
        · exact hleft
      | _ => exact absurd hrec id
    · exact hleft.elim hkeep.1 hkeep.2
  lasts l hl := by
    by_cases halive : (after es).Alive l.proc
    · exact (lease_step h.tidy hl halive).imp_right .inl
    · exact .inr (.inr halive)

/-- An acquire loop that returns a slot, its own or inherited, ends in the event that is its
return. -/
theorem acquireTurn_returns {size t0 slot : ℕ} {stopped : Bool}
    (h : (acquireTurn w me size t0 stopped).1 = .held slot ∨
      (acquireTurn w me size t0 stopped).1 = .inherited slot) :
    ∃ pre e, (acquireTurn w me size t0 stopped).2 = pre ++ [e] ∧
      Returns me.proc (run World.step w pre) e := by
  rw [acquireTurn] at h ⊢
  split at h
  · rcases h with h | h <;> cases h
  · rename_i hgo
    rw [if_neg hgo]
    cases htake : (tryTake w.dir size me (w.now - t0) w.now w.procs).1 with
    | admitted slot' fresh => exact ⟨[], _, rfl, .inl ⟨rfl, slot', fresh, htake⟩⟩
    | inherited slot' pid => exact ⟨[.tryTake size me (w.now - t0)], _, rfl, .inr rfl⟩
    | busy holders =>
      dsimp only at h
      rw [htake] at h
      rcases h with h | h <;> cases h

/-- **Orderly runs of the pool are sound.** -/
theorem pool_sound (es : List Event)
    (h : Always World.step (fun w e ↦ Real w e ∧ Orderly w e) .start es) : PoolSound es := by
  refine ⟨fun pre post heq ↦ ?_, fun pre e post heq ↦ ?_⟩
  · exact (queued_of_always (heq ▸ h).of_append).tidy.held
  · exact (queued_of_always (heq ▸ h).of_append).served (h pre e post heq).2

/-! ## Two processes at a pool of one slot -/

def first : Holder := ⟨10, 1, "a", 1⟩

def second : Holder := ⟨20, 2, "b", 1⟩

/-- `first` is admitted, `second` waits. -/
def contended (last : List Event) : List Event :=
  .spawn 10 1 1 :: .spawn 20 2 1 :: .tryTake 1 first 0 :: .tryTake 1 second 0 :: last

/-- A process that waits takes a lease at once, and is still counted as a waiter. -/
theorem taken_while_waiting :
    Always World.step Real .start (contended [.takeNow second]) ∧ ¬PoolSound (contended [.takeNow second]) := by
  refine ⟨?_, fun h ↦ ?_⟩
  · refine History.always_cons.mpr ⟨by decide, ?_⟩
    refine History.always_cons.mpr ⟨by decide, ?_⟩
    refine History.always_cons.mpr ⟨by decide, ?_⟩
    refine History.always_cons.mpr ⟨by decide, ?_⟩
    exact History.always_cons.mpr ⟨by decide, History.always_nil⟩
  · have hheld := h.1 _ [] (List.append_nil _).symm
    exact hheld.apart ⟨2, 20, 2, "b", 0, 0, 0, 1⟩ (by decide +kernel) (by decide +kernel)
      ⟨20, 2, "b", 0, 1⟩ (by decide +kernel) (by decide)

/-- `first` releases its slot and `second`, which waited for it, has it. -/
theorem pool_sound_handed_on : PoolSound (contended [.release 1 first, .tick 1, .tryTake 1 second 1]) := by
  refine pool_sound _ ?_
  refine History.always_cons.mpr ⟨by decide, ?_⟩
  refine History.always_cons.mpr ⟨by decide, ?_⟩
  refine History.always_cons.mpr ⟨by decide, ?_⟩
  refine History.always_cons.mpr ⟨by decide +kernel, ?_⟩
  refine History.always_cons.mpr ⟨by decide, ?_⟩
  refine History.always_cons.mpr ⟨by decide, ?_⟩
  exact History.always_cons.mpr ⟨by decide +kernel, History.always_nil⟩

end Spira.Admission
