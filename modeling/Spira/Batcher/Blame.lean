import Spira.Batcher.Settling

/-!
# Who is blamed

A suite whose reds have one culprit, red on a tree exactly where the culprit is in it.  A run
without a member the culprit is stacked on drops the culprit too and is green as well, and the
first green cancels what is still queued: where that is the culprit's own run, the member is
blamed for it (`Missed`). Where the culprit's own run is out by then, its green replaces every
owner named before it, and the culprit alone is blamed (`culprit_blamed_iff`).
-/

set_option autoImplicit false

namespace Spira.Batcher

variable {members : List Id} {prereqs : Std.ExtTreeMap Id (List Id)} {c x : Id} {l : Ladder} {job : Job}
  {n : ℕ}

/-- The result of a tree that is red exactly where `c` is in it. -/
def verdict (c : Id) (job : Job) : JobResult := if c ∈ job.removal then .green else .red

namespace Ladder

/-- The culprit may still be blamed: it is not looked for yet, its own run is to come, or it is. -/
inductive OnTrack (members : List Id) (prereqs : Std.ExtTreeMap Id (List Id)) (c : Id) (l : Ladder) : Prop
  | whole (hred : l.st.plainRed = false) (hs : l.st.settled = none)
  | sought (hred : l.st.plainRed = true) (hs : l.st.settled = none) (own : Job) (hown : own ∈ l.live)
      (hpurpose : own.purpose = .without c)
  | replaced (xs : List Id) (t : ℕ) (hs : l.st.settled = some (.owner xs, t))
      (howners : ∀ o ∈ l.st.owners, o.1 ≠ c ∧ c ∈ (Shape.new members prereqs).removalOf o.1) (own : Job)
      (hown : own ∈ l.running) (hpurpose : own.purpose = .without c)
  | blamed (t : ℕ) (hs : l.st.settled = some (.owner [c], t))
      (howners : l.st.owners = [(c, (Shape.new members prereqs).removalOf c)])

/-- Others are owners, and the culprit's own run does not come any more. -/
structure Missed (c : Id) (l : Ladder) : Prop where
  settled : ∃ xs t, l.st.settled = some (.owner xs, t)
  owners : ∀ o ∈ l.st.owners, o.1 ≠ c
  gone : ∀ j ∈ l.live, j.purpose ≠ .without c

/-- The run of a member the culprit is stacked on reports while the culprit's own is still queued.
-/
def Overtakes (members : List Id) (prereqs : Std.ExtTreeMap Id (List Id)) (c : Id) (queued : Multiset Job)
    (job : Job) : Prop :=
  (∃ x ≠ c, job.purpose = .without x ∧ c ∈ (Shape.new members prereqs).removalOf x) ∧
    ∃ own ∈ queued, own.purpose = .without c

theorem Sound.mem_takeOff {shape : Shape} (h : l.Sound shape) (hjob : job ∈ l.running) {j : Job}
    (hj : j ∈ l.live) (hne : j ≠ job) : j ∈ (l.takeOff job).live := by
  rw [h.live_takeOff hjob] at hj
  exact (Multiset.mem_cons.mp hj).resolve_left hne

theorem Sound.mem_running_takeOff {shape : Shape} (h : l.Sound shape) (hjob : job ∈ l.running) {j : Job}
    (hj : j ∈ l.running) (hne : j ≠ job) : j ∈ (l.takeOff job).running := by
  show j ∈ l.running.filter (·.id ≠ job.id)
  rw [h.running_filter hjob]
  exact (Multiset.mem_erase_of_ne hne).mpr hj

theorem exhaust_of_settled (hs : l.st.settled ≠ none) (now : ℕ) : l.exhaust now = l :=
  if_neg fun hex ↦ hs (Option.isNone_iff_eq_none.mp hex.1)

theorem Sound.exhaust_of_mem {shape : Shape} (h : l.Sound shape) {j : Job} (hj : j ∈ l.live) (now : ℕ) :
    l.exhaust now = l := by
  refine if_neg fun hex ↦ ?_
  have hin : j.id ∈ l.st.outstanding := by
    rw [h.outstanding, Multiset.mem_toFinset]
    exact Multiset.mem_map_of_mem _ hj
  rw [hex.2.1] at hin
  cases hin

/-- The first owner of a red. -/
theorem Sound.addOwner_first {shape : Shape} (h : l.Sound shape) (hs : l.st.settled = none) (x : Id)
    (removal : List Id) (now : ℕ) : l.addOwner x removal now =
      { l with st := { l.st with
        owners := [(x, removal)]
        settled := some (.owner [x], now) } }.cancel := by
  rw [Ladder.addOwner, hs, h.unowned hs]
  rfl

/-- Of two live jobs for one purpose there is but one. -/
theorem Sound.own_eq {shape : Shape} (h : l.Sound shape) {j j' : Job} (hj : j ∈ l.live) (hj' : j' ∈ l.live)
    (heq : j.purpose = j'.purpose) : j = j' := by
  have hkeys := (Multiset.nodup_add.mp h.distinct).1
  refine Multiset.inj_on_of_nodup_map hkeys j hj j' hj' ?_
  rw [(h.kinds j hj).key_eq, (h.kinds j' hj').key_eq, heq]

/-- No job runs for an owner. -/
theorem Sound.own_not_owner {shape : Shape} (h : l.Sound shape) {j : Job} (hj : j ∈ l.live)
    (hpurpose : j.purpose = .without x) : ∀ o ∈ l.st.owners, o.1 ≠ x := by
  rintro o ho rfl
  refine Multiset.disjoint_left.mp (Multiset.nodup_add.mp h.distinct).2.2 (Multiset.mem_map_of_mem _ hj)
    (List.mem_map.mpr ⟨o, ho, ?_⟩)
  rw [(h.kinds j hj).key_eq, hpurpose, (h.owned o ho).2]
  rfl

/-! ## Owners -/

theorem within_iff {o r : List Id} : within o r = true ↔ o.length < r.length ∧ o ⊆ r := by
  rw [within, Bool.and_eq_true, decide_eq_true_eq, List.all_eq_true]
  exact and_congr_right fun _ ↦ ⟨fun h m hm ↦ of_decide_eq_true (h m hm), fun h m hm ↦ decide_eq_true (h hm)⟩

/-- The culprit's removal set is within that of what it is stacked on. -/
theorem within_of_mem (h : Ordered members prereqs) (hx : x ∈ members) (hne : x ≠ c)
    (hin : c ∈ (Shape.new members prereqs).removalOf x) :
    within ((Shape.new members prereqs).removalOf c) ((Shape.new members prereqs).removalOf x) = true := by
  have hc : c ∈ members := by
    rw [removalOf_new hx] at hin
    exact List.mem_of_mem_filter hin
  obtain ⟨hsub, hout⟩ := h.strict hx hne.symm hin
  refine within_iff.mpr ⟨removalOf_length hc hx hsub fun heq ↦ hout ?_, hsub⟩
  rw [heq]
  exact mem_removalOf_self hx

/-- The culprit's own green leaves it the only owner. -/
theorem Sound.addOwner_blames (h : l.Sound (.new members prereqs)) (hord : Ordered members prereqs) {xs : List Id}
    {t : ℕ} (hs : l.st.settled = some (.owner xs, t))
    (howners : ∀ o ∈ l.st.owners, o.1 ≠ c ∧ c ∈ (Shape.new members prereqs).removalOf o.1) (now : ℕ) :
    (l.addOwner c ((Shape.new members prereqs).removalOf c) now).OnTrack members prereqs c := by
  have hwithin {o : Id × List Id} (ho : o ∈ l.st.owners) :
      within ((Shape.new members prereqs).removalOf c) o.2 = true := by
    obtain ⟨hin, heq⟩ := h.owned o ho
    rw [heq]
    exact within_of_mem hord hin (howners o ho).1 (howners o ho).2
  have hany : (l.st.owners.any fun o ↦ within o.2 ((Shape.new members prereqs).removalOf c)) = false := by
    rw [List.any_eq_false]
    intro o ho hback
    have hlt := (within_iff.mp (hwithin ho)).1
    have hlt' := (within_iff.mp hback).1
    omega
  have hfilter : (l.st.owners.filter fun o ↦ !within ((Shape.new members prereqs).removalOf c) o.2) = [] := by
    refine List.filter_eq_nil_iff.mpr fun o ho hno ↦ ?_
    rw [hwithin ho] at hno
    cases hno
  rw [Ladder.addOwner, hs, hany, hfilter]
  exact .blamed t rfl rfl

/-- Another green names another owner, or none. -/
theorem addOwner_others {xs : List Id} {t : ℕ} (hs : l.st.settled = some (.owner xs, t)) {P : Id → Prop}
    (howners : ∀ o ∈ l.st.owners, P o.1) (hx : P x) (removal : List Id) (now : ℕ) :
    (∃ ys, (l.addOwner x removal now).st.settled = some (.owner ys, t)) ∧
      (∀ o ∈ (l.addOwner x removal now).st.owners, P o.1) ∧
      (l.addOwner x removal now).running = l.running ∧ (l.addOwner x removal now).live ≤ l.live := by
  rw [Ladder.addOwner]
  split
  case isFalse hno =>
    rw [hs] at hno
    exact absurd rfl hno
  split
  · exact ⟨⟨xs, hs⟩, howners, rfl, le_rfl⟩
  · refine ⟨⟨((l.st.owners.filter fun o ↦ !within removal o.2) ++ [(x, removal)]).map (·.1), ?_⟩,
      fun o ho ↦ ?_, rfl, ?_⟩
    · show some (Outcome.owner _, (l.st.settled.map (·.2)).getD now) = some (.owner _, t)
      rw [hs]
      rfl
    · rcases List.mem_append.mp ho with ho | ho
      · exact howners o (List.mem_of_mem_filter ho)
      · rw [List.mem_singleton.mp ho]
        exact hx
    · rw [live_cancel]
      exact Multiset.le_add_left _ _

/-! ## Reports -/

theorem verdict_green (h : c ∈ job.removal) : verdict c job = .green := if_pos h

theorem verdict_red (h : c ∉ job.removal) : verdict c job = .red := if_neg h

/-- A tree the culprit is in does not lack every member. -/
theorem not_all (hc : c ∈ members) (hx : x ∈ members)
    (hout : c ∉ (Shape.new members prereqs).removalOf x) :
    ((Shape.new members prereqs).removalOf x).length ≠ (Shape.new members prereqs).members.length := by
  intro hall
  rw [removalOf_all hx hall] at hout
  exact hout hc

theorem addAll_plainRed (js : List Job) : (l.addAll js).st.plainRed = l.st.plainRed := by
  induction js generalizing l with
  | nil => rfl
  | cons j js ih => exact ih (l := l.add j)

/-- No job is queued and running. -/
theorem Sound.not_both {shape : Shape} (h : l.Sound shape) {j : Job} (hj : j ∈ l.queued) :
    j ∉ l.running := by
  have hids := h.ids
  rw [live, Multiset.map_add, Multiset.nodup_add] at hids
  exact fun hj' ↦ Multiset.disjoint_left.mp hids.2.2 (Multiset.mem_map_of_mem _ hj)
    (Multiset.mem_map_of_mem _ hj')

/-- What has been missed stays so. -/
theorem Missed.report (hm : l.Missed c) (h : l.Sound (.new members prereqs)) (hc : c ∈ members)
    (hjob : job ∈ l.running) (now : ℕ) :
    (l.report n (.new members prereqs) job (verdict c job) now).Missed c := by
  obtain ⟨⟨xs, t, hs⟩, howners, hgone⟩ := hm
  have hin : job ∈ l.live := Multiset.mem_add.mpr (.inr hjob)
  have hkind := h.kinds job hin
  have hoff : (l.takeOff job).Missed c := by
    refine ⟨⟨xs, t, hs⟩, howners, fun j hj ↦ hgone j ?_⟩
    rw [h.live_takeOff hjob]
    exact Multiset.mem_cons_of_mem hj
  cases hpurpose : job.purpose <;> rw [Job.Kind, hpurpose] at hkind
  case plain =>
    rw [(h.plain job hin hpurpose).2] at hs
    cases hs
  case base =>
    rw [verdict_green (hkind ▸ hc)]
    simp only [Ladder.report, hpurpose]
    rw [exhaust_of_settled (by rw [show (l.takeOff job).st.settled = _ from hs]; exact Option.some_ne_none _)]
    exact ⟨⟨xs, t, hs⟩, howners, hoff.gone⟩
  case without x =>
    have hne : x ≠ c := by
      rintro rfl
      exact hgone job hin hpurpose
    by_cases hcx : c ∈ job.removal
    · rw [verdict_green hcx]
      simp only [Ladder.report, hpurpose]
      obtain ⟨⟨ys, hys⟩, hothers, -, hlive⟩ := addOwner_others (l := l.takeOff job) (x := x) hs
        (P := (· ≠ c)) howners hne job.removal now
      exact ⟨⟨ys, t, hys⟩, hothers, fun j hj ↦ hoff.gone j (Multiset.mem_of_le hlive hj)⟩
    · rw [verdict_red hcx]
      rw [hkind.2] at hcx
      simp only [Ladder.report, hpurpose]
      rw [hkind.2, if_neg (not_all hc hkind.1 hcx),
        exhaust_of_settled (by rw [show (l.takeOff job).st.settled = _ from hs]; exact Option.some_ne_none _)]
      exact hoff

/-- **A report keeps the culprit on track, but where it overtakes the culprit's own run.** -/
theorem OnTrack.report (hon : l.OnTrack members prereqs c) (h : l.Sound (.new members prereqs))
    (hord : Ordered members prereqs) (hc : c ∈ members) (hjob : job ∈ l.running) (now : ℕ) :
    (¬Overtakes members prereqs c l.queued job →
      (l.report n (.new members prereqs) job (verdict c job) now).OnTrack members prereqs c) ∧
    (Overtakes members prereqs c l.queued job →
      (l.report n (.new members prereqs) job (verdict c job) now).Missed c) := by
  have hin : job ∈ l.live := Multiset.mem_add.mpr (.inr hjob)
  have hkind := h.kinds job hin
  have hclear := h.clear hjob
  obtain ⟨hoff, -, -⟩ := h.takeOff hjob
  cases hpurpose : job.purpose <;> rw [Job.Kind, hpurpose] at hkind
  case plain =>
    refine ⟨fun _ ↦ ?_, fun hover ↦ ?_⟩
    · have hred : c ∉ job.removal := by
        rw [hkind]
        exact List.not_mem_nil
      obtain ⟨y, hy⟩ := (attribution_spec hoff.suspects).2.2.1 c hc
      have hyeq : y = c := by
        have hk := ((attribution_spec hoff.suspects).2.1 _ hy).2 0 ""
        exact hord.removalOf_inj hk.1 hc hk.2.symm
      obtain ⟨-, -, hmap⟩ := jobs_spec job.suite n
        (attribution (.new members prereqs) (l.takeOff job).st.suspects)
      rw [← hmap, List.mem_map] at hy
      obtain ⟨own, hown, heq⟩ := hy
      rw [verdict_red hred]
      simp only [Ladder.report, hpurpose]
      refine .sought ?_ ?_ own ?_ (hyeq ▸ congrArg Prod.fst heq)
      · exact addAll_plainRed _
      · exact (addAll_settled _).trans (h.plain job hin hpurpose).2
      · rw [live_addAll]
        exact Multiset.mem_add.mpr (.inl hown)
    · obtain ⟨⟨x, -, hx, -⟩, -⟩ := hover
      rw [hpurpose] at hx
      cases hx
  case base =>
    refine ⟨fun _ ↦ ?_, fun hover ↦ ?_⟩
    · rw [verdict_green (hkind ▸ hc)]
      simp only [Ladder.report, hpurpose]
      have hgreen : ({ l.takeOff job with st := { (l.takeOff job).st with baseGreen := true } } :
          Ladder).Sound (.new members prereqs) := { hoff with }
      cases hon with
      | whole hred =>
        have hplain := h.early hred job (.inl hin)
        rw [hpurpose] at hplain
        cases hplain
      | sought hred hs own hown hp =>
        have hin' : own ∈ (l.takeOff job).live := h.mem_takeOff hjob hown fun heq ↦ by
          rw [heq, hpurpose] at hp
          cases hp
        rw [hgreen.exhaust_of_mem hin' now]
        exact .sought hred hs own hin' hp
      | replaced xs t hs howners own hown hp =>
        have hin' : own ∈ (l.takeOff job).running := h.mem_running_takeOff hjob hown fun heq ↦ by
          rw [heq, hpurpose] at hp
          cases hp
        rw [exhaust_of_settled (hs ▸ Option.some_ne_none _)]
        exact .replaced xs t hs howners own hin' hp
      | blamed t hs howners =>
        rw [exhaust_of_settled (hs ▸ Option.some_ne_none _)]
        exact .blamed t hs howners
    · obtain ⟨⟨x, -, hx, -⟩, -⟩ := hover
      rw [hpurpose] at hx
      cases hx
  case without x =>
    obtain ⟨hx, hremoval⟩ := hkind
    have hred : l.st.plainRed = true := hclear.1 (by rw [hpurpose]; exact Purpose.noConfusion)
    have hother {own : Job} (hp : own.purpose = .without c) (hne : x ≠ c) : own ≠ job := by
      rintro rfl
      rw [hpurpose] at hp
      cases hp
      exact hne rfl
    have hqueued {own own' : Job} (hq : own ∈ l.queued) (hp : own.purpose = .without c)
        (hr : own' ∈ l.running) : own'.purpose ≠ .without c := by
      intro hp'
      have heq := h.own_eq (Multiset.mem_add.mpr (.inl hq)) (Multiset.mem_add.mpr (.inr hr))
        (hp.trans hp'.symm)
      exact h.not_both hq (heq ▸ hr)
    by_cases hcx : c ∈ (Shape.new members prereqs).removalOf x
    · rw [verdict_green (hremoval ▸ hcx)]
      simp only [Ladder.report, hpurpose]
      rw [hremoval]
      by_cases hxc : x = c
      · subst hxc
        refine ⟨fun _ ↦ ?_, fun hover ↦ ?_⟩
        · cases hon with
          | whole hno =>
            rw [hred] at hno
            cases hno
          | sought _ hs own hown hp =>
            rw [hoff.addOwner_first hs]
            exact .blamed now rfl rfl
          | replaced xs t hs howners own hown hp => exact hoff.addOwner_blames hord hs howners now
          | blamed t hs howners =>
            exact absurd rfl (h.own_not_owner hin hpurpose _ (howners ▸ List.mem_singleton_self _))
        · obtain ⟨⟨y, hy, hpy, -⟩, -⟩ := hover
          rw [hpurpose] at hpy
          cases hpy
          exact absurd rfl hy
      · cases hon with
        | whole hno =>
          rw [hred] at hno
          cases hno
        | sought _ hs own hown hp =>
          rw [hoff.addOwner_first hs]
          refine ⟨fun hno ↦ ?_, fun hover ↦ ?_⟩
          · rcases Multiset.mem_add.mp hown with hq | hr
            · exact absurd ⟨⟨x, hxc, hpurpose, hcx⟩, own, hq, hp⟩ hno
            · refine .replaced [x] now rfl (fun o ho ↦ ?_) own (h.mem_running_takeOff hjob hr (hother hp hxc))
                hp
              rw [List.mem_singleton.mp ho]
              exact ⟨hxc, hcx⟩
          · obtain ⟨-, own', hq, hp'⟩ := hover
            refine ⟨⟨[x], now, rfl⟩, fun o ho ↦ ?_, fun j hj ↦ ?_⟩
            · rw [List.mem_singleton.mp ho]
              exact hxc
            · rw [live_cancel] at hj
              exact hqueued hq hp' (Multiset.mem_of_mem_filter hj)
        | replaced xs t hs howners own hown hp =>
          refine ⟨fun _ ↦ ?_, fun hover ↦ ?_⟩
          · obtain ⟨⟨ys, hys⟩, hothers, hrunning, -⟩ := addOwner_others (l := l.takeOff job) (x := x) hs
              (P := fun y ↦ y ≠ c ∧ c ∈ (Shape.new members prereqs).removalOf y) howners ⟨hxc, hcx⟩
              ((Shape.new members prereqs).removalOf x) now
            refine .replaced ys t hys hothers own ?_ hp
            rw [hrunning]
            exact h.mem_running_takeOff hjob hown (hother hp hxc)
          · obtain ⟨-, own', hq, hp'⟩ := hover
            exact absurd hp (hqueued hq hp' hown)
        | blamed t hs howners =>
          refine ⟨fun _ ↦ ?_, fun hover ↦ ?_⟩
          · have hsame : (l.takeOff job).addOwner x ((Shape.new members prereqs).removalOf x) now =
                l.takeOff job := by
              have hsettled : (l.takeOff job).st.settled = some (.owner [c], t) := hs
              have howner : (l.takeOff job).st.owners = [(c, (Shape.new members prereqs).removalOf c)] :=
                howners
              rw [Ladder.addOwner, hsettled, howner, List.any_cons, within_of_mem hord hx hxc hcx]
              rfl
            rw [hsame]
            exact .blamed t hs howners
          · obtain ⟨-, own', hq, hp'⟩ := hover
            exact absurd rfl (h.own_not_owner (Multiset.mem_add.mpr (.inl hq)) hp' _
              (howners ▸ List.mem_singleton_self _))
    · rw [verdict_red (hremoval ▸ hcx)]
      simp only [Ladder.report, hpurpose]
      rw [hremoval, if_neg (not_all hc hx hcx)]
      have hne : x ≠ c := by
        rintro rfl
        exact hcx (mem_removalOf_self hx)
      refine ⟨fun _ ↦ ?_, fun hover ↦ ?_⟩
      · cases hon with
        | whole hno =>
          rw [hred] at hno
          cases hno
        | sought _ hs own hown hp =>
          have hin' := h.mem_takeOff hjob hown (hother hp hne)
          rw [hoff.exhaust_of_mem hin' now]
          exact .sought hred hs own hin' hp
        | replaced xs t hs howners own hown hp =>
          have hs' : (l.takeOff job).st.settled = some (.owner xs, t) := hs
          rw [exhaust_of_settled (hs' ▸ Option.some_ne_none _)]
          exact .replaced xs t hs howners own (h.mem_running_takeOff hjob hown (hother hp hne)) hp
        | blamed t hs howners =>
          have hs' : (l.takeOff job).st.settled = some (.owner [c], t) := hs
          rw [exhaust_of_settled (hs' ▸ Option.some_ne_none _)]
          exact .blamed t hs howners
      · obtain ⟨⟨y, -, hpy, hcy⟩, -⟩ := hover
        rw [hpurpose] at hpy
        cases hpy
        exact absurd hcy hcx

end Ladder

namespace Ladder

theorem OnTrack.launches {l l' : Ladder} (hon : l.OnTrack members prereqs c) (h : l.Launches l') :
    l'.OnTrack members prereqs c := by
  induction h with
  | refl => exact hon
  | @launch l' job _ hjob ih =>
    cases ih with
    | whole hred hs => exact .whole hred hs
    | sought hred hs own hown hp => exact .sought hred hs own (live_launch hjob ▸ hown) hp
    | replaced xs t hs howners own hown hp =>
      exact .replaced xs t hs howners own (Multiset.mem_cons_of_mem hown) hp
    | blamed t hs howners => exact .blamed t hs howners

theorem Missed.launches {l l' : Ladder} (hm : l.Missed c) (h : l.Launches l') : l'.Missed c := by
  induction h with
  | refl => exact hm
  | launch _ hjob ih => exact ⟨ih.settled, ih.owners, live_launch hjob ▸ ih.gone⟩

end Ladder

namespace Attributor

variable {a : Attributor} {s : String} {es : List Event}

/-- Of suite `s` every report is the culprit's: green exactly where the culprit is dropped. -/
def Judged (c : Id) (s : String) (a : Attributor) (e : Event) : Prop :=
  ∀ result now job, a.Reports e s result now job → result = verdict c job

/-- The run of a member that `c` is stacked on reports while the run without `c` alone is still
queued. -/
def Overtaken (members : List Id) (prereqs : Std.ExtTreeMap Id (List Id)) (c : Id) (s : String)
    (a : Attributor) (e : Event) : Prop :=
  ∃ result now job, a.Reports e s result now job ∧
    (∃ x ≠ c, job.purpose = .without x ∧ c ∈ (Shape.new members prereqs).removalOf x) ∧
    ∃ own ∈ a.plainQ ++ a.attrQ, own.suite = s ∧ own.purpose = .without c

/-- A suite is on track until its culprit's run is overtaken, and has missed it from then on. -/
def Tracked (members : List Id) (prereqs : Std.ExtTreeMap Id (List Id)) (c : Id) (on : Prop) (l : Ladder) :
    Prop :=
  (on → l.OnTrack members prereqs c) ∧ (¬on → l.Missed c)

theorem Good.tracked_step (ha : Good members prereqs a) (hord : Ordered members prereqs) (hc : c ∈ members)
    {e : Event} (hjudged : a.Judged c s e) {on : Prop} {l : Ladder} (hl : a.ladder s = some l)
    (ht : Tracked members prereqs c on l) : ∃ l', (a.step e).ladder s = some l' ∧
      Tracked members prereqs c (on ∧ ¬a.Overtaken members prereqs c s e) l' := by
  obtain ⟨l', hl', hcases⟩ := step_ladder ha.sane e hl
  refine ⟨l', hl', ?_⟩
  have hrunning {job : Job} (hjob : job ∈ l.running) : job ∈ a.running ∧ job.suite = s :=
    (mem_ladder hl job).2.1.mp hjob
  rcases hcases with ⟨rfl, hno⟩ | ⟨rfl, hlaunches⟩ | ⟨job, result, now, hjob, rfl, rfl⟩
  · have hcalm : ¬a.Overtaken members prereqs c s e := by
      rintro ⟨result, now, job, ⟨hin, hsuite, he⟩, -⟩
      exact hno job ((mem_ladder hl job).2.1.mpr ⟨hin, hsuite⟩) result now he
    rw [Tracked, and_iff_left hcalm]
    exact ht
  · have hcalm : ¬a.Overtaken members prereqs c s .nextJobs := by
      rintro ⟨result, now, job, ⟨-, -, he⟩, -⟩
      cases he
    rw [Tracked, and_iff_left hcalm]
    exact ⟨fun hon ↦ (ht.1 hon).launches hlaunches, fun hoff ↦ (ht.2 hoff).launches hlaunches⟩
  · have hrep : a.Reports (.jobResult job.id result now) s result now job :=
      ⟨(hrunning hjob).1, (hrunning hjob).2, rfl⟩
    have hover : a.Overtaken members prereqs c s (.jobResult job.id result now) ↔
        Ladder.Overtakes members prereqs c l.queued job := by
      constructor
      · rintro ⟨result', now', job', ⟨hin, -, he⟩, hx, own, hown, hsuite, hp⟩
        have hid : job.id = job'.id := by injection he
        have heq := ha.sane.running_eq (hrunning hjob).1 hin hid
        rw [heq]
        exact ⟨hx, own, (mem_ladder hl own).1.mpr ⟨hown, hsuite⟩, hp⟩
      · rintro ⟨hx, own, hown, hp⟩
        obtain ⟨hin, hsuite⟩ := (mem_ladder hl own).1.mp hown
        exact ⟨result, now, job, hrep, hx, own, hin, hsuite, hp⟩
    have hsound := (ha.sound s l hl).1
    rw [Tracked, hover, ha.shape, hjudged result now job hrep]
    by_cases hon : on
    · obtain ⟨hkeep, hmiss⟩ := (ht.1 hon).report (n := a.nextId) hsound hord hc hjob now
      exact ⟨fun h ↦ hkeep h.2, fun h ↦ hmiss (by_contra fun hno ↦ h ⟨hon, hno⟩)⟩
    · exact ⟨fun h ↦ absurd h.1 hon, fun _ ↦ (ht.2 hon).report hsound hc hjob now⟩

/-- What a run has made of a suite. -/
theorem run_tracked (hord : Ordered members prereqs) (hc : c ∈ members) (budget : Budget) (mainTotal : ℕ)
    (h : History.Always step (fun a e ↦ Named members e ∧ a.Judged c s e)
      (.new budget (.new members prereqs) mainTotal) es) :
    let start := Attributor.new budget (.new members prereqs) mainTotal
    let on := History.Always step (fun a e ↦ ¬a.Overtaken members prereqs c s e) start es
    match (History.run step start es).ladder s with
    | none => on
    | some l => Tracked members prereqs c on l := by
  refine History.always_induction (J := fun es ↦
    match (History.run step (.new budget (.new members prereqs) mainTotal) es).ladder s with
    | none => History.Always step (fun a e ↦ ¬a.Overtaken members prereqs c s e)
        (.new budget (.new members prereqs) mainTotal) es
    | some l => Tracked members prereqs c (History.Always step
        (fun a e ↦ ¬a.Overtaken members prereqs c s e) (.new budget (.new members prereqs) mainTotal) es) l)
    ?_ (fun es e hall ih he ↦ ?_) es h
  · exact History.always_nil
  · have hgood : Good members prereqs
        (History.run step (.new budget (.new members prereqs) mainTotal) es) :=
      run_good budget mainTotal (hall.mono fun _ _ h ↦ h.1)
    rw [History.run_snoc, History.always_snoc]
    cases hl : (History.run step (.new budget (.new members prereqs) mainTotal) es).ladder s with
    | none =>
      rw [hl] at ih
      have hcalm : ¬(History.run step (.new budget (.new members prereqs) mainTotal) es).Overtaken members
          prereqs c s e := by
        rintro ⟨result, now, job, ⟨hin, rfl, -⟩, -⟩
        have hknown := hgood.sane.known job (.inl (Multiset.mem_add.mpr (.inr hin)))
        rw [hl] at hknown
        cases hknown
      rw [and_iff_left hcalm]
      cases hl' : ((History.run step (.new budget (.new members prereqs) mainTotal) es).step e).ladder s with
      | none => exact ih
      | some l' =>
        obtain ⟨suspects, now, -, rfl⟩ := step_red hgood.sane e hl hl'
        exact ⟨fun _ ↦ .whole rfl rfl, fun hno ↦ absurd ih hno⟩
    | some l =>
      rw [hl] at ih
      obtain ⟨l', hl', htracked⟩ := hgood.tracked_step hord hc he.2 hl ih
      rw [hl']
      exact htracked

/-- **The culprit alone is blamed exactly where its own run is not overtaken**, once no run of the
suite is queued or running. -/
theorem culprit_blamed_iff (members : List Id) (prereqs : Std.ExtTreeMap Id (List Id))
    (hord : Ordered members prereqs) (budget : Budget) (mainTotal : ℕ) (c : Id) (hc : c ∈ members) (s : String)
    (es : List Event)
    (hall : History.Always step (fun a e ↦ Named members e ∧ a.Judged c s e)
      (.new budget (.new members prereqs) mainTotal) es)
    (hred : s ∈ (History.run step (.new budget (.new members prereqs) mainTotal) es).suites)
    (hdone : ∀ job ∈ (History.run step (.new budget (.new members prereqs) mainTotal) es).live,
      job.suite ≠ s) :
    (∃ t, (History.run step (.new budget (.new members prereqs) mainTotal) es).outcome s =
        some (.owner [c], t)) ↔
      History.Always step (fun a e ↦ ¬a.Overtaken members prereqs c s e)
        (.new budget (.new members prereqs) mainTotal) es := by
  have hgood : Good members prereqs
      (History.run step (.new budget (.new members prereqs) mainTotal) es) :=
    run_good budget mainTotal (hall.mono fun _ _ h ↦ h.1)
  have htracked := run_tracked (s := s) hord hc budget mainTotal hall
  rw [Std.ExtTreeMap.mem_iff_isSome_getElem?, suites_ladder, Option.isSome_map] at hred
  obtain ⟨l, hl⟩ := Option.isSome_iff_exists.mp hred
  dsimp only at htracked
  rw [hl] at htracked
  obtain ⟨hsound, hwaits⟩ := hgood.sound s l hl
  have hlive : l.live = 0 := by
    rw [live_ladder hl]
    exact Multiset.filter_eq_nil.mpr hdone
  rw [outcome_ladder hl]
  constructor
  · rintro ⟨t, hs⟩
    by_contra hno
    have hmissed := htracked.2 hno
    have hnamed := hsound.named [c] t hs
    have hin : c ∈ l.st.owners.map (·.1) := hnamed ▸ List.mem_singleton_self c
    obtain ⟨o, ho, heq⟩ := List.mem_map.mp hin
    exact hmissed.owners o ho heq
  · intro hon
    cases htracked.1 hon with
    | whole _ hs => exact absurd hlive (hwaits hs)
    | sought _ hs => exact absurd hlive (hwaits hs)
    | replaced xs t _ _ own hown =>
      have hin : own ∈ l.live := Multiset.mem_add.mpr (.inr hown)
      rw [hlive] at hin
      exact absurd hin (Multiset.notMem_zero own)
    | blamed t hs => exact ⟨t, hs⟩

/-! ## Two members, one stacked on the other -/

/-- `dep` is stacked on `pre`. -/
def stacked : Std.ExtTreeMap Id (List Id) := (∅ : Std.ExtTreeMap Id (List Id)).insert "dep" ["pre"]

theorem ordered_stacked : Ordered ["pre", "dep"] stacked where
  nodup := by decide
  before p m hp hs := by
    obtain ⟨hm, ps, hps, hin⟩ := hs
    simp only [List.mem_cons, List.not_mem_nil, or_false] at hm
    rcases hm with rfl | rfl
    · rw [stacked, Std.ExtTreeMap.getElem?_insert] at hps
      simp at hps
    · rw [stacked, Std.ExtTreeMap.getElem?_insert_self] at hps
      cases hps
      rw [List.mem_singleton.mp hin]
      decide

theorem judged_jobResult {r : JobResult} {now : ℕ}
    (hjobs : ∀ job ∈ a.running, job.suite = s → job.id = n → r = verdict c job) :
    a.Judged c s (.jobResult n r now) := by
  rintro result now' job ⟨hin, hsuite, he⟩
  cases he
  exact hjobs job hin hsuite rfl

theorem judged_other {e : Event} (he : ∀ id result now, e ≠ .jobResult id result now) : a.Judged c s e :=
  fun result now job hrep ↦ absurd hrep.2.2 (he job.id result now)

/-- The main run is red, the plain rerun too, and then come the reports of two runs. -/
def reruns (last : List Event) : List Event :=
  .mainResult "s" false ["pre", "dep"] 0 :: .mainDone 0 :: .nextJobs :: .jobResult 1 .red 1 :: .nextJobs ::
    .jobResult 2 .green 2 :: last

/-- With one slot the first green is that of the run without `pre`, and the run without `dep`
alone is cancelled. -/
theorem prerequisite_blamed :
    Ordered ["pre", "dep"] stacked ∧
      History.Always step (fun a e ↦ Named ["pre", "dep"] e ∧ a.Judged "dep" "s" e)
        (.new ⟨1, 1⟩ (.new ["pre", "dep"] stacked) 1) (reruns []) ∧
      (History.run step (.new ⟨1, 1⟩ (.new ["pre", "dep"] stacked) 1) (reruns [])).live = 0 ∧
      (History.run step (.new ⟨1, 1⟩ (.new ["pre", "dep"] stacked) 1) (reruns [])).outcome "s" =
        some (.owner ["pre"], 2) := by
  refine ⟨ordered_stacked, ?_, by decide, by decide⟩
  have hother {a : Attributor} {e : Event} (he : ∀ id result now, e ≠ .jobResult id result now) :
      a.Judged "dep" "s" e := judged_other he
  refine History.always_cons.mpr ⟨⟨fun _ x hx ↦ hx, hother fun _ _ _ ↦ Event.noConfusion⟩, ?_⟩
  refine History.always_cons.mpr ⟨⟨trivial, hother fun _ _ _ ↦ Event.noConfusion⟩, ?_⟩
  refine History.always_cons.mpr ⟨⟨trivial, hother fun _ _ _ ↦ Event.noConfusion⟩, ?_⟩
  refine History.always_cons.mpr ⟨⟨trivial, judged_jobResult (by decide)⟩, ?_⟩
  refine History.always_cons.mpr ⟨⟨trivial, hother fun _ _ _ ↦ Event.noConfusion⟩, ?_⟩
  refine History.always_cons.mpr ⟨⟨trivial, judged_jobResult (by decide)⟩, History.always_nil⟩

theorem calm_other {prereqs : Std.ExtTreeMap Id (List Id)} {e : Event}
    (he : ∀ id result now, e ≠ .jobResult id result now) : ¬a.Overtaken members prereqs c s e := by
  rintro ⟨result, now, job, ⟨-, -, h⟩, -⟩
  exact he job.id result now h

theorem calm_drained {e : Event} (h : a.plainQ ++ a.attrQ = []) : ¬a.Overtaken members prereqs c s e := by
  rintro ⟨-, -, -, -, -, own, hown, -⟩
  rw [h] at hown
  cases hown

/-- With three slots both runs are out when the first is green. -/
theorem dependent_blamed : ∃ t,
    (History.run step (.new ⟨3, 1⟩ (.new ["pre", "dep"] stacked) 1) (reruns [.jobResult 3 .green 3])).outcome
      "s" = some (.owner ["dep"], t) := by
  have hother {a : Attributor} {e : Event} (he : ∀ id result now, e ≠ .jobResult id result now) :
      a.Judged "dep" "s" e := judged_other he
  refine (culprit_blamed_iff ["pre", "dep"] stacked ordered_stacked ⟨3, 1⟩ 1 "dep" (by decide) "s"
    (reruns [.jobResult 3 .green 3]) ?_ (by decide) (by decide)).mpr ?_
  · refine History.always_cons.mpr ⟨⟨fun _ x hx ↦ hx, hother fun _ _ _ ↦ Event.noConfusion⟩, ?_⟩
    refine History.always_cons.mpr ⟨⟨trivial, hother fun _ _ _ ↦ Event.noConfusion⟩, ?_⟩
    refine History.always_cons.mpr ⟨⟨trivial, hother fun _ _ _ ↦ Event.noConfusion⟩, ?_⟩
    refine History.always_cons.mpr ⟨⟨trivial, judged_jobResult (by decide)⟩, ?_⟩
    refine History.always_cons.mpr ⟨⟨trivial, hother fun _ _ _ ↦ Event.noConfusion⟩, ?_⟩
    refine History.always_cons.mpr ⟨⟨trivial, judged_jobResult (by decide)⟩, ?_⟩
    refine History.always_cons.mpr ⟨⟨trivial, judged_jobResult (by decide)⟩, History.always_nil⟩
  · refine History.always_cons.mpr ⟨calm_other fun _ _ _ ↦ Event.noConfusion, ?_⟩
    refine History.always_cons.mpr ⟨calm_other fun _ _ _ ↦ Event.noConfusion, ?_⟩
    refine History.always_cons.mpr ⟨calm_other fun _ _ _ ↦ Event.noConfusion, ?_⟩
    refine History.always_cons.mpr ⟨calm_drained (by decide), ?_⟩
    refine History.always_cons.mpr ⟨calm_other fun _ _ _ ↦ Event.noConfusion, ?_⟩
    refine History.always_cons.mpr ⟨calm_drained (by decide), ?_⟩
    refine History.always_cons.mpr ⟨calm_drained (by decide), History.always_nil⟩

end Attributor

end Spira.Batcher
