import Mathlib.Data.List.Chain
import Mathlib.Data.Nat.Log
import Spira.Batcher.Shape

/-!
# Attribution of an install fault

Who a pre-suite install fault belongs to: a bisection over the round order finds the last member
that the tree must be without, and one more probe, without what is stacked on it too, decides.

`probe` may answer by what it was asked before; a run is kept with its probes, in order.  The
theorems are about probes that fault at times but answer otherwise as the tree decides.
-/

set_option autoImplicit false

namespace Spira.Batcher

open Std (ExtTreeMap)

inductive InstallFault
  | owner (x : Id)
  /-- Install fails with every member removed. -/
  | base
  /-- No single member's removal restores install, or a probe kept faulting. -/
  | unattributed
  deriving DecidableEq, Repr

/-- The probes so far: each removal set with its answer. -/
abbrev Asked := List (List Id × JobResult)

/-- A probe answers for a removal set, whatever it makes of those before. -/
abbrev Probe := Asked → List Id → JobResult

variable (probe : Probe)

/-- A probe that faults is asked once more. -/
def ask (asked : Asked) (removal : List Id) : JobResult × Asked :=
  match probe asked removal with
  | .fault =>
    let asked := asked ++ [(removal, .fault)]
    let r := probe asked removal
    (r, asked ++ [(removal, r)])
  | r => (r, asked ++ [(removal, r)])

/-- The first `lo` members install, the first `hi` do not. -/
def bisect (all : List Id) (lo hi : ℕ) (asked : Asked) : Option ℕ × Asked :=
  if 1 < hi - lo then
    let mid := lo + (hi - lo) / 2
    match ask probe asked (all.drop mid) with
    | (.green, asked) => bisect all mid hi asked
    | (.red, asked) => bisect all lo mid asked
    | (.fault, asked) => (none, asked)
  else (some hi, asked)
termination_by hi - lo

/-- Who the fault belongs to, with the probes made. -/
def attributeInstallFault (shape : Shape) : InstallFault × Asked :=
  let all := shape.members
  match ask probe [] all with
  | (.red, asked) => (.base, asked)
  | (.fault, asked) => (.unattributed, asked)
  | (.green, asked) =>
    match bisect probe all 0 all.length asked with
    | (none, asked) => (.unattributed, asked)
    | (some hi, asked) =>
      match if hi = 0 then none else all[hi - 1]? with
      | none => (.unattributed, asked)
      | some culprit =>
        match ask probe asked (shape.removalOf culprit) with
        | (.green, asked) => (.owner culprit, asked)
        | (_, asked) => (.unattributed, asked)

/-! ## One question -/

/-- A probe faulted twice in a row on one set. -/
def FaultedTwice (asked : Asked) : Prop := ∃ removal, [(removal, .fault), (removal, .fault)] <:+: asked

/-- No probe has faulted twice, and the last one did not fault. -/
structure Answered (asked : Asked) : Prop where
  once : ¬ FaultedTwice asked
  last : ∀ a ∈ asked.getLast?, a.2 ≠ .fault

/-- The tree decides what the probe answers, where it answers. -/
def Judges (installs : List Id → Prop) : Prop :=
  ∀ asked removal, (probe asked removal = .green → installs removal) ∧
    (probe asked removal = .red → ¬ installs removal)

/-- The different sets that were asked. -/
def setsOf (asked : Asked) : Finset (List Id) := (asked.map Prod.fst).toFinset

variable {probe} {asked : Asked} {removal : List Id}

theorem faultedTwice_iff : ¬ FaultedTwice asked ↔
    asked.IsChain fun a b ↦ ¬ (a.2 = .fault ∧ b = a) := by
  rw [List.isChain_iff_forall_rel_of_append_cons_cons]
  constructor
  · rintro h ⟨r, a⟩ b pre post heq ⟨rfl, rfl⟩
    exact h ⟨r, pre, post, by rw [heq, List.append_assoc]; rfl⟩
  · rintro h ⟨r, pre, post, heq⟩
    rw [List.append_assoc] at heq
    exact h heq.symm ⟨rfl, rfl⟩

theorem Answered.append (h : Answered asked) (more : Asked) {a : List Id × JobResult}
    (hmore : ¬ FaultedTwice (more ++ [a])) (ha : a.2 ≠ .fault) :
    Answered (asked ++ (more ++ [a])) := by
  refine ⟨faultedTwice_iff.mpr (List.isChain_append.mpr
    ⟨faultedTwice_iff.mp h.once, faultedTwice_iff.mp hmore, fun x hx _ _ hfault ↦ ?_⟩), ?_⟩
  · exact h.last x hx hfault.1
  · rw [← List.append_assoc, List.getLast?_concat]
    rintro _ ⟨⟩
    exact ha

/-- **A question is answered, or its probe faulted twice.** -/
theorem ask_spec (h : Answered asked) {r : JobResult} {asked' : Asked}
    (hask : ask probe asked removal = (r, asked')) :
    (if r = .fault then FaultedTwice asked' else Answered asked') ∧
      (∃ earlier, probe earlier removal = r) ∧ setsOf asked' = insert removal (setsOf asked) := by
  rw [ask] at hask
  split at hask
  · obtain ⟨rfl, rfl⟩ := Prod.ext_iff.mp hask
    refine ⟨?_, ⟨_, rfl⟩, ?_⟩
    · dsimp only
      split <;> rename_i hr
      · rw [hr]
        exact ⟨removal, asked, [], by simp⟩
      · rw [List.append_assoc]
        refine h.append [_] (faultedTwice_iff.mpr ?_) hr
        simp [Prod.ext_iff, hr]
    · ext x
      simp [setsOf]
  · rename_i hr
    obtain ⟨rfl, rfl⟩ := Prod.ext_iff.mp hask
    refine ⟨?_, ⟨_, rfl⟩, ?_⟩
    · rw [if_neg hr]
      exact h.append [] (faultedTwice_iff.mpr (List.isChain_singleton _)) hr
    · ext x
      simp [setsOf]

/-! ## The bisection -/

theorem clog_half {d n : ℕ} (hd : 1 < d) (hn : n ≤ (d + 1) / 2) :
    Nat.clog 2 n + 1 ≤ Nat.clog 2 d := by
  rw [Nat.clog_of_two_le Nat.one_lt_two hd]
  exact Nat.add_le_add_right (Nat.clog_mono_right 2 hn) 1

theorem card_setsOf_ask (h : Answered asked) {r : JobResult} {asked' : Asked}
    (hask : ask probe asked removal = (r, asked')) :
    (setsOf asked').card ≤ (setsOf asked).card + 1 := by
  rw [(ask_spec h hask).2.2]
  exact Finset.card_insert_le _ _

/-- **The bisection asks about one set for each halving**, and faults only with its probe. -/
theorem bisect_spec (all : List Id) (lo hi : ℕ) (h : Answered asked) :
    (if (bisect probe all lo hi asked).1 = none then FaultedTwice (bisect probe all lo hi asked).2
      else Answered (bisect probe all lo hi asked).2) ∧
      (setsOf (bisect probe all lo hi asked).2).card ≤
        (setsOf asked).card + Nat.clog 2 (hi - lo) := by
  fun_induction bisect probe all lo hi asked with
  | case1 lo hi asked hlt mid asked' hask ih =>
    obtain ⟨hresult, hcard⟩ := ih (ask_spec h hask).1
    have hone := card_setsOf_ask h hask
    have hlog := clog_half (n := hi - mid) hlt (by omega)
    exact ⟨hresult, by omega⟩
  | case2 lo hi asked hlt mid asked' hask ih =>
    obtain ⟨hresult, hcard⟩ := ih (ask_spec h hask).1
    have hone := card_setsOf_ask h hask
    have hlog := clog_half (n := mid - lo) hlt (by omega)
    exact ⟨hresult, by omega⟩
  | case3 lo hi asked hlt mid asked' hask =>
    have hone := card_setsOf_ask h hask
    have hlog := clog_half (n := 0) hlt (Nat.zero_le _)
    refine ⟨(ask_spec h hask).1, ?_⟩
    show (setsOf asked').card ≤ _
    omega
  | case4 lo hi asked hlt => exact ⟨h, Nat.le_add_right _ _⟩

/-- **The bisection finds the member that alone breaks the install**: it is among the first `hi`,
and not among the first `lo`. -/
theorem bisect_finds {all : List Id} {c : Id} (hprobe : Judges probe (c ∈ ·)) {lo hi : ℕ}
    (h : Answered asked) (hlo : c ∈ all.drop lo) (hhi : c ∉ all.drop hi) :
    ∀ k, (bisect probe all lo hi asked).1 = some k → k ≠ 0 ∧ all[k - 1]? = some c := by
  fun_induction bisect probe all lo hi asked with
  | case1 lo hi asked hlt mid asked' hask ih =>
    obtain ⟨hanswered, ⟨earlier, hgreen⟩, -⟩ := ask_spec h hask
    exact ih hanswered ((hprobe earlier _).1 hgreen) hhi
  | case2 lo hi asked hlt mid asked' hask ih =>
    obtain ⟨hanswered, ⟨earlier, hred⟩, -⟩ := ask_spec h hask
    exact ih hanswered hlo ((hprobe earlier _).2 hred)
  | case3 lo hi asked hlt mid asked' hask => exact nofun
  | case4 lo hi asked hlt =>
    rintro k ⟨⟩
    have hle : lo < hi := by
      by_contra hle
      exact hhi (List.drop_subset_drop_left all (not_lt.mp hle) hlo)
    obtain rfl : hi = lo + 1 := by omega
    have hlen : lo < all.length := by
      by_contra hlen
      rw [List.drop_eq_nil_of_le (not_lt.mp hlen)] at hlo
      exact absurd hlo List.not_mem_nil
    rw [List.drop_eq_getElem_cons hlen] at hlo
    rw [Nat.add_sub_cancel, List.getElem?_eq_getElem hlen]
    exact ⟨Nat.succ_ne_zero lo, congrArg some ((List.mem_cons.mp hlo).resolve_right hhi).symm⟩

/-! ## The attribution -/

theorem not_faultedTwice_nil : ¬ FaultedTwice [] := by
  rintro ⟨r, pre, post, heq⟩
  simp at heq

/-- What an attribution is right to say. -/
structure Attributed (installs : List Id → Prop) (shape : Shape) (fault : InstallFault)
    (asked : Asked) : Prop where
  /-- It asks about a set for each halving of the round, and two more. -/
  asks : (setsOf asked).card ≤ Nat.clog 2 shape.members.length + 2
  unattributed : FaultedTwice asked → fault = .unattributed
  base : ¬ FaultedTwice asked → (fault = .base ↔ ¬ installs shape.members)
  owner : ∀ x, fault = .owner x → x ∈ shape.members ∧ installs (shape.removalOf x)
  /-- One member that alone breaks the install is found. -/
  culprit : ∀ c ∈ shape.members, (∀ removal, installs removal ↔ c ∈ removal) →
    ¬ FaultedTwice asked → fault = .owner c

/-- **An attribution is right**, by any probe that answers as the tree decides where it answers. -/
theorem attribute_install_fault {installs : List Id → Prop} (hprobe : Judges probe installs)
    (members : List Id) (prereqs : ExtTreeMap Id (List Id)) :
    let shape := Shape.new members prereqs
    Attributed installs shape (attributeInstallFault probe shape).1
      (attributeInstallFault probe shape).2 := by
  intro shape
  have hempty : Answered [] := ⟨not_faultedTwice_nil, nofun⟩
  have hmembers : shape.members = members := rfl
  have hlog : Nat.clog 2 shape.members.length = Nat.clog 2 members.length := rfl
  rw [attributeInstallFault, hmembers]
  rcases hall : ask probe [] members with ⟨r, asked₀⟩
  obtain ⟨hresult, ⟨earlier, hr⟩, -⟩ := ask_spec hempty hall
  have hcard₀ : (setsOf asked₀).card ≤ 1 := card_setsOf_ask hempty hall
  cases r with
  | fault =>
    -- The tree without members was not judged.
    exact ⟨hcard₀.trans (by omega), fun _ ↦ rfl, fun hnot ↦ absurd hresult hnot, nofun,
      fun c _ _ hnot ↦ absurd hresult hnot⟩
  | red =>
    have hbase : ¬ installs members := (hprobe earlier members).2 hr
    have hanswered₀ : Answered asked₀ := hresult
    exact ⟨hcard₀.trans (by omega), fun hfaulted ↦ absurd hfaulted hanswered₀.once,
      fun _ ↦ iff_of_true rfl hbase, nofun,
      fun c hc hinstalls _ ↦ absurd ((hinstalls members).mpr hc) hbase⟩
  | green =>
    have hbase : installs members := (hprobe earlier members).1 hr
    have hanswered₀ : Answered asked₀ := hresult
    rcases hbisect : bisect probe members 0 members.length asked₀ with ⟨k, asked₁⟩
    have hspec := @bisect_spec probe asked₀ members 0 members.length hanswered₀
    rw [hbisect, Nat.sub_zero] at hspec
    obtain ⟨hresult₁, hcard₁⟩ := hspec
    dsimp only at hresult₁ hcard₁ ⊢
    rw [hbisect]
    cases k with
    | none =>
      exact ⟨hcard₁.trans (by omega), fun _ ↦ rfl, fun hnot ↦ absurd hresult₁ hnot, nofun,
        fun c _ _ hnot ↦ absurd hresult₁ hnot⟩
    | some k =>
      have hanswered₁ : Answered asked₁ := hresult₁
      have hfinds : ∀ c ∈ members, (∀ removal, installs removal ↔ c ∈ removal) →
          (if k = 0 then none else members[k - 1]?) = some c := by
        intro c hc hinstalls
        have hjudges : Judges probe (c ∈ ·) := by
          intro asked removal
          have hanswer := hprobe asked removal
          rwa [hinstalls] at hanswer
        obtain ⟨hk, hget⟩ := bisect_finds hjudges hanswered₀ (show c ∈ members.drop 0 from hc)
          (by rw [List.drop_length]; exact List.not_mem_nil) k (congrArg Prod.fst hbisect)
        rw [if_neg hk, hget]
      dsimp only
      split <;> rename_i hculprit
      · refine ⟨hcard₁.trans (by omega), fun hfaulted ↦ absurd hfaulted hanswered₁.once,
          fun _ ↦ iff_of_false nofun (not_not.mpr hbase), nofun, fun c hc hinstalls _ ↦ ?_⟩
        rw [hfinds c hc hinstalls] at hculprit
        exact absurd hculprit (Option.some_ne_none c)
      · rename_i culprit
        have hmem : culprit ∈ members := by
          split at hculprit
          · cases hculprit
          · exact List.mem_of_getElem? hculprit
        rcases hlast : ask probe asked₁ (shape.removalOf culprit) with ⟨r, asked₂⟩
        obtain ⟨hresult₂, ⟨earlier', hr'⟩, -⟩ := ask_spec hanswered₁ hlast
        have hcard₂ := card_setsOf_ask hanswered₁ hlast
        have hself : culprit ∈ shape.removalOf culprit := mem_removalOf_self hmem
        cases r with
        | green =>
          have hanswered₂ : Answered asked₂ := hresult₂
          refine ⟨hcard₂.trans (by omega), fun hfaulted ↦ absurd hfaulted hanswered₂.once,
            fun _ ↦ iff_of_false nofun (not_not.mpr hbase), ?_, fun c hc hinstalls _ ↦ ?_⟩
          · rintro x ⟨⟩
            exact ⟨hmem, (hprobe earlier' _).1 hr'⟩
          · rw [hfinds c hc hinstalls] at hculprit
            exact congrArg InstallFault.owner (Option.some.inj hculprit).symm
        | red =>
          have hanswered₂ : Answered asked₂ := hresult₂
          refine ⟨hcard₂.trans (by omega), fun _ ↦ rfl,
            fun _ ↦ iff_of_false nofun (not_not.mpr hbase), nofun, fun c hc hinstalls _ ↦ ?_⟩
          rw [hfinds c hc hinstalls] at hculprit
          obtain rfl := Option.some.inj hculprit
          exact absurd ((hinstalls _).mpr hself) ((hprobe earlier' _).2 hr')
        | fault =>
          exact ⟨hcard₂.trans (by omega), fun _ ↦ rfl, fun hnot ↦ absurd hresult₂ hnot, nofun,
            fun c _ _ hnot ↦ absurd hresult₂ hnot⟩

/-- A probe that never faults, of a tree that only `b` breaks. -/
def withoutB : Probe := fun _ removal ↦ if "b" ∈ removal then .green else .red

/-- The second of three members breaks the install, and nothing is stacked. -/
theorem install_fault_of_b :
    (attributeInstallFault withoutB (Shape.new ["a", "b", "c"] ∅)).1 = .owner "b" := by
  have hjudges : Judges withoutB ("b" ∈ ·) := by
    intro asked removal
    by_cases hb : "b" ∈ removal <;> simp [withoutB, hb]
  have hmembers : (Shape.new ["a", "b", "c"] ∅).members = ["a", "b", "c"] := rfl
  have hself : "b" ∈ (Shape.new ["a", "b", "c"] ∅).removalOf "b" :=
    mem_removalOf_self (List.mem_cons_of_mem _ List.mem_cons_self)
  refine (attribute_install_fault hjudges ["a", "b", "c"] ∅).culprit "b"
    (List.mem_cons_of_mem _ List.mem_cons_self) (fun _ ↦ Iff.rfl) (faultedTwice_iff.mpr ?_)
  simp [attributeInstallFault, bisect, ask, withoutB, hmembers, hself]

end Spira.Batcher
