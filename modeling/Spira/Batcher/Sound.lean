import Spira.Batcher.Steps

/-!
# A ladder's invariant

What holds of every ladder (`Ladder.Sound`), over all it does: its jobs are of the kinds a red
asks for, each on a tree no other of them and no owner stands for; while the plain rerun is out
nothing else is; and no purpose comes more than twice, the second time only after a fault.  Beside
it stands what makes a red end (`Ladder.Waits`): while it is unsettled there is a job of it.
-/

set_option autoImplicit false

namespace Spira.Batcher

variable {shape : Shape} {l : Ladder} {job : Job} {n : ℕ}

/-- The removal set a purpose asks for, `none` for the whole tree. -/
def Purpose.key (shape : Shape) : Purpose → Option (List Id)
  | plain => none
  | base => some shape.members
  | without x => some (shape.removalOf x)

/-- The removal set of a job, `none` for a plain rerun. -/
def Job.key (job : Job) : Option (List Id) := if job.purpose = .plain then none else some job.removal

/-- The job drops what its purpose says. -/
def Job.Kind (shape : Shape) (job : Job) : Prop :=
  match job.purpose with
  | .plain => job.removal = []
  | .base => job.removal = shape.members
  | .without x => x ∈ shape.members ∧ job.removal = shape.removalOf x

theorem Job.Kind.key_eq (h : job.Kind shape) : job.key = job.purpose.key shape := by
  rw [Job.Kind] at h
  rw [Job.key]
  split at h <;> rename_i hpurpose <;> rw [hpurpose]
  · rfl
  · rw [h]
    rfl
  · rw [h.2]
    rfl

namespace Ladder

/-- The removal sets of a suite's jobs and owners. -/
def keys (l : Ladder) : Multiset (Option (List Id)) :=
  l.live.map Job.key + (l.st.owners.map fun o ↦ some o.2 : List (Option (List Id)))

def count (p : Purpose) (js : Multiset Job) : ℕ := js.countP (·.purpose = p)

structure Sound (shape : Shape) (l : Ladder) : Prop where
  ids : (l.live.map (·.id)).Nodup
  outstanding : l.st.outstanding = (l.live.map (·.id)).toFinset
  kinds : ∀ j ∈ l.live, j.Kind shape
  owned : ∀ o ∈ l.st.owners, o.1 ∈ shape.members ∧ o.2 = shape.removalOf o.1
  distinct : l.keys.Nodup
  /-- Before the plain rerun was red there is nothing but it. -/
  early : l.st.plainRed = false → ∀ j, j ∈ l.live ∨ j ∈ l.launched → j.purpose = .plain
  plain : ∀ j ∈ l.live, j.purpose = .plain → l.st.plainRed = false ∧ l.st.settled = none
  unowned : l.st.settled = none → l.st.owners = []
  named : ∀ xs t, l.st.settled = some (.owner xs, t) → xs = l.st.owners.map (·.1)
  launches : ∀ p, count p l.launched + count p l.queued ≤ 1 + min 1 (l.st.faults p)
  apart : l.st.owners.Pairwise fun o o' ↦ ¬o.2 ⊆ o'.2 ∧ ¬o'.2 ⊆ o.2
  suspects : ∀ x ∈ l.st.suspects, x ∈ shape.members

/-- An unsettled red has a job queued or running. -/
def Waits (l : Ladder) : Prop := l.st.settled = none → l.live ≠ 0

/-! ## Parts of a step -/

theorem Sound.red (suite : String) (n : ℕ) {suspects : List Id} (now : ℕ)
    (h : ∀ x ∈ suspects, x ∈ shape.members) : (Ladder.red suite n suspects now).Sound shape := by
  have hlive : (Ladder.red suite n suspects now).live = {⟨n, suite, [], .plain⟩} := rfl
  have hjob {j : Job} (hj : j ∈ (Ladder.red suite n suspects now).live) : j = ⟨n, suite, [], .plain⟩ :=
    Multiset.mem_singleton.mp hj
  exact
    { ids := Multiset.nodup_singleton n
      outstanding := rfl
      kinds := fun j hj ↦ by rw [hjob hj]; rfl
      owned := fun o ho ↦ absurd ho List.not_mem_nil
      distinct := Multiset.nodup_singleton none
      early := fun _ j hj ↦ by
        rcases hj with hj | hj
        · rw [hjob hj]
        · exact absurd hj (Multiset.notMem_zero j)
      plain := fun _ _ _ ↦ ⟨rfl, rfl⟩
      unowned := fun _ ↦ rfl
      named := fun _ _ hs ↦ nomatch hs
      launches := fun p ↦ by
        have hle : count p {(⟨n, suite, [], .plain⟩ : Job)} ≤ 1 := Multiset.countP_le_card ..
        show 0 + count p {(⟨n, suite, [], .plain⟩ : Job)} ≤ 1 + min 1 0
        omega
      apart := .nil
      suspects := h }

/-- A job that is launched was live, and what is live stays. -/
theorem live_launch (hjob : job ∈ l.queued) : (l.launch job).live = l.live := by
  show l.queued.erase job + job ::ₘ l.running = l.queued + l.running
  rw [Multiset.add_cons, ← Multiset.cons_add, Multiset.cons_erase hjob]

theorem Sound.launch (h : l.Sound shape) (hjob : job ∈ l.queued) : (l.launch job).Sound shape := by
  have hlive := live_launch hjob
  have hin : job ∈ l.live := Multiset.mem_add.mpr (.inl hjob)
  refine
    { ids := hlive ▸ h.ids
      outstanding := hlive ▸ h.outstanding
      kinds := hlive ▸ h.kinds
      owned := h.owned
      distinct := ?_
      early := fun hred j hj ↦ ?_
      plain := hlive ▸ h.plain
      unowned := h.unowned
      named := h.named
      launches := fun p ↦ ?_
      apart := h.apart
      suspects := h.suspects }
  · rw [keys, hlive]
    exact h.distinct
  · rw [hlive] at hj
    rcases hj with hj | hj
    · exact h.early hred j (.inl hj)
    · rcases Multiset.mem_cons.mp hj with rfl | hj
      · exact h.early hred j (.inl hin)
      · exact h.early hred j (.inr hj)
  · have hle := h.launches p
    have hqueued : count p l.queued = count p (l.queued.erase job) + if job.purpose = p then 1 else 0 := by
      conv_lhs => rw [← Multiset.cons_erase hjob]
      exact Multiset.countP_cons ..
    have hlaunched : count p (job ::ₘ l.launched) = count p l.launched + if job.purpose = p then 1 else 0 :=
      Multiset.countP_cons ..
    show count p (job ::ₘ l.launched) + count p (l.queued.erase job) ≤ 1 + min 1 (l.st.faults p)
    omega

/-- Of a running job's taking off. -/
theorem Sound.running_filter (h : l.Sound shape) (hjob : job ∈ l.running) :
    l.running.filter (·.id ≠ job.id) = l.running.erase job := by
  have hids : (l.running.map (·.id)).Nodup :=
    Multiset.nodup_of_le (Multiset.map_le_map (Multiset.le_add_left _ _)) h.ids
  have hself : (l.running.erase job).filter (·.id ≠ job.id) = l.running.erase job := by
    refine Multiset.filter_eq_self.mpr fun j hj hid ↦ ?_
    rw [← Multiset.cons_erase hjob, Multiset.map_cons, Multiset.nodup_cons] at hids
    exact hids.1 (hid ▸ Multiset.mem_map_of_mem _ hj)
  have hout : (job ::ₘ l.running.erase job).filter (·.id ≠ job.id) =
      (l.running.erase job).filter (·.id ≠ job.id) :=
    Multiset.filter_cons_of_neg _ fun hne ↦ hne rfl
  conv_lhs => rw [← Multiset.cons_erase hjob]
  rw [hout, hself]

theorem Sound.live_takeOff (h : l.Sound shape) (hjob : job ∈ l.running) :
    l.live = job ::ₘ (l.takeOff job).live := by
  show l.queued + l.running = job ::ₘ (l.queued + l.running.filter (·.id ≠ job.id))
  rw [h.running_filter hjob, ← Multiset.add_cons, Multiset.cons_erase hjob]

theorem Sound.takeOff (h : l.Sound shape) (hjob : job ∈ l.running) :
    (l.takeOff job).Sound shape ∧ (job.key ::ₘ (l.takeOff job).keys).Nodup ∧
      ∀ j ∈ (l.takeOff job).live, j.id ≠ job.id := by
  have hlive := h.live_takeOff hjob
  have hids := h.ids
  rw [hlive, Multiset.map_cons, Multiset.nodup_cons] at hids
  have hkeys : l.keys = job.key ::ₘ (l.takeOff job).keys := by
    rw [keys, hlive, Multiset.map_cons, Multiset.cons_add]
    rfl
  have hmem {j : Job} (hj : j ∈ (l.takeOff job).live) : j ∈ l.live := hlive ▸ Multiset.mem_cons_of_mem hj
  have hdistinct := h.distinct
  rw [hkeys] at hdistinct
  refine ⟨
    { ids := hids.2
      outstanding := ?_
      kinds := fun j hj ↦ h.kinds j (hmem hj)
      owned := h.owned
      distinct := (Multiset.nodup_cons.mp hdistinct).2
      early := fun hred j hj ↦ h.early hred j (hj.imp_left hmem)
      plain := fun j hj ↦ h.plain j (hmem hj)
      unowned := h.unowned
      named := h.named
      launches := h.launches
      apart := h.apart
      suspects := h.suspects }, hdistinct, fun j hj hid ↦ ?_⟩
  · show l.st.outstanding.erase job.id = _
    rw [h.outstanding, hlive, Multiset.map_cons, Multiset.toFinset_cons, Finset.erase_insert]
    rw [Multiset.mem_toFinset]
    exact hids.1
  · exact hids.1 (hid ▸ Multiset.mem_map_of_mem _ hj)

theorem Sound.faults (h : l.Sound shape) (p : Purpose) : ({ l with st := { l.st with
    faults := Function.update l.st.faults p (l.st.faults p + 1) } } : Ladder).Sound shape :=
  { h with
    launches := fun q ↦ by
      have hle := h.launches q
      show count q l.launched + count q l.queued ≤
        1 + min 1 (Function.update l.st.faults p (l.st.faults p + 1) q)
      by_cases hq : q = p
      · subst hq
        rw [Function.update_self]
        omega
      · rw [Function.update_of_ne hq]
        exact hle }

/-- A new job on a tree that none yet stands for. -/
theorem Sound.add (h : l.Sound shape) (hid : ∀ j ∈ l.live, j.id ≠ job.id) (hkind : job.Kind shape)
    (hkey : job.key ∉ l.keys)
    (hcount : count job.purpose l.launched + count job.purpose l.queued ≤
      min 1 (l.st.faults job.purpose))
    (hplain : job.purpose = .plain → l.st.plainRed = false ∧ l.st.settled = none)
    (hred : job.purpose ≠ .plain → l.st.plainRed = true) : (l.add job).Sound shape := by
  have hlive : (l.add job).live = job ::ₘ l.live := Multiset.cons_add ..
  have hids : ((l.add job).live.map (·.id)) = job.id ::ₘ l.live.map (·.id) := by
    rw [hlive, Multiset.map_cons]
  have hkeys : (l.add job).keys = job.key ::ₘ l.keys := by
    rw [keys, hlive, Multiset.map_cons, Multiset.cons_add]
    rfl
  have hmem {P : Job → Prop} (hjob : P job) (hl : ∀ j ∈ l.live, P j) : ∀ j ∈ (l.add job).live, P j := by
    intro j hj
    rw [hlive] at hj
    rcases Multiset.mem_cons.mp hj with rfl | hj
    · exact hjob
    · exact hl j hj
  refine
    { ids := ?_
      outstanding := ?_
      kinds := hmem hkind h.kinds
      owned := h.owned
      distinct := hkeys ▸ Multiset.nodup_cons.mpr ⟨hkey, h.distinct⟩
      early := fun hno j hj ↦ ?_
      plain := hmem hplain h.plain
      unowned := h.unowned
      named := h.named
      launches := fun p ↦ ?_
      apart := h.apart
      suspects := h.suspects }
  · rw [hids, Multiset.nodup_cons]
    refine ⟨fun hin ↦ ?_, h.ids⟩
    obtain ⟨j, hj, hsame⟩ := Multiset.mem_map.mp hin
    exact hid j hj hsame
  · rw [hids, Multiset.toFinset_cons, ← h.outstanding]
    rfl
  · rcases hj with hj | hj
    · refine hmem (P := fun j ↦ j.purpose = .plain) ?_ (fun j hj ↦ h.early hno j (.inl hj)) j hj
      by_contra hne
      rw [show l.st.plainRed = false from hno] at hred
      cases hred hne
    · exact h.early hno j (.inr hj)
  · have hle := h.launches p
    have hqueued : count p (job ::ₘ l.queued) = count p l.queued + if job.purpose = p then 1 else 0 :=
      Multiset.countP_cons ..
    show count p l.launched + count p (job ::ₘ l.queued) ≤ 1 + min 1 (l.st.faults p)
    rw [hqueued]
    by_cases hp : job.purpose = p
    · subst hp
      rw [if_pos rfl]
      omega
    · rw [if_neg hp]
      exact hle

theorem live_cancel : l.cancel.live = l.running := Multiset.zero_add _

theorem Sound.cancel (h : l.Sound shape) : l.cancel.Sound shape := by
  have hle : l.running ≤ l.live := Multiset.le_add_left _ _
  have hmem {j : Job} (hj : j ∈ l.cancel.live) : j ∈ l.live := Multiset.mem_of_le hle (live_cancel ▸ hj)
  have hids := h.ids
  rw [live, Multiset.map_add, Multiset.nodup_add] at hids
  have hkeys : l.cancel.keys ≤ l.keys := by
    rw [keys, live_cancel]
    exact Multiset.add_le_add_right (Multiset.map_le_map hle)
  refine
    { ids := live_cancel ▸ hids.2.1
      outstanding := ?_
      kinds := fun j hj ↦ h.kinds j (hmem hj)
      owned := h.owned
      distinct := Multiset.nodup_of_le hkeys h.distinct
      early := fun hno j hj ↦ h.early hno j (hj.imp_left hmem)
      plain := fun j hj ↦ h.plain j (hmem hj)
      unowned := h.unowned
      named := h.named
      launches := fun p ↦ ?_
      apart := h.apart
      suspects := h.suspects }
  · show l.st.outstanding \ (l.queued.map (·.id)).toFinset = _
    rw [live_cancel, h.outstanding, live, Multiset.map_add, Multiset.toFinset_add]
    refine Finset.union_sdiff_cancel_left (Finset.disjoint_left.mpr fun id hid hid' ↦ ?_)
    rw [Multiset.mem_toFinset] at hid hid'
    exact Multiset.disjoint_left.mp hids.2.2 hid hid'
  · have hle := h.launches p
    show count p l.launched + 0 ≤ 1 + min 1 (l.st.faults p)
    omega

theorem Sound.settle (h : l.Sound shape) {outcome : Outcome} (now : ℕ) (hno : outcome.isOwner = false)
    (hplain : ∀ j ∈ l.live, j.purpose ≠ .plain) : (l.settle outcome now).Sound shape := by
  refine Sound.cancel ?_
  split <;> rename_i hs
  · exact { h with
      plain := fun j hj hp ↦ absurd hp (hplain j hj)
      unowned := fun hs ↦ nomatch hs
      named := fun xs t hs ↦ by
        cases hs
        cases hno }
  · exact h

theorem Sound.exhaust (h : l.Sound shape) (now : ℕ) : (l.exhaust now).Sound shape := by
  rw [Ladder.exhaust]
  split <;> rename_i hs
  · refine h.settle now rfl fun j hj ↦ ?_
    have hin : j.id ∈ l.st.outstanding := by
      rw [h.outstanding, Multiset.mem_toFinset]
      exact Multiset.mem_map_of_mem _ hj
    rw [hs.2.1] at hin
    cases hin
  · exact h

/-- A green run without `x` makes an owner of it, if no owner is a better one. -/
theorem Sound.addOwner {members : List Id} {prereqs : Std.ExtTreeMap Id (List Id)} {x : Id}
    (h : l.Sound (.new members prereqs)) (hx : x ∈ members) (now : ℕ)
    (hkey : some ((Shape.new members prereqs).removalOf x) ∉ l.keys) (hred : l.st.plainRed = true) :
    (l.addOwner x ((Shape.new members prereqs).removalOf x) now).Sound (.new members prereqs) := by
  rw [Ladder.addOwner]
  split
  case isFalse => exact h
  split <;> rename_i hany
  · exact h
  have hnew {o : Id × List Id} (ho : o ∈ l.st.owners) :
      ¬o.2 ⊆ (Shape.new members prereqs).removalOf x := by
    intro hsub
    obtain ⟨ho1, ho2⟩ := h.owned o ho
    have hne : o.2 ≠ (Shape.new members prereqs).removalOf x := by
      intro heq
      refine hkey (Multiset.mem_add.mpr (.inr (List.mem_map.mpr ⟨o, ho, ?_⟩)))
      rw [heq]
    rw [ho2] at hsub hne
    refine hany (List.any_eq_true.mpr ⟨o, ho, ?_⟩)
    rw [within, ho2, Bool.and_eq_true, decide_eq_true_eq, List.all_eq_true]
    exact ⟨removalOf_length ho1 hx hsub hne, fun m hm ↦ decide_eq_true (hsub hm)⟩
  have hout {o : Id × List Id} (ho : o ∈ l.st.owners)
      (hin : !within ((Shape.new members prereqs).removalOf x) o.2) :
      ¬(Shape.new members prereqs).removalOf x ⊆ o.2 := by
    intro hsub
    obtain ⟨ho1, ho2⟩ := h.owned o ho
    rw [Bool.not_eq_true', within, Bool.and_eq_false_iff] at hin
    rcases hin with hin | hin
    · have hne : (Shape.new members prereqs).removalOf x ≠ o.2 := fun heq ↦ hnew ho (heq ▸ List.Subset.refl _)
      rw [ho2] at hsub hne hin
      exact absurd (removalOf_length hx ho1 hsub hne) (of_decide_eq_false hin)
    · rw [List.all_eq_false] at hin
      obtain ⟨m, hm, hno⟩ := hin
      exact hno (decide_eq_true (hsub hm))
  refine Sound.cancel
    { h with
      owned := fun o ho ↦ ?_
      distinct := ?_
      early := fun hno ↦ ?_
      plain := fun j hj hp ↦ ?_
      unowned := fun hs ↦ by cases hs
      named := fun xs t hs ↦ ?_
      apart := ?_ }
  · rcases List.mem_append.mp ho with ho | ho
    · exact h.owned o (List.mem_of_mem_filter ho)
    · rw [List.mem_singleton.mp ho]
      exact ⟨hx, rfl⟩
  · refine Multiset.nodup_of_le ?_ (Multiset.nodup_cons.mpr ⟨hkey, h.distinct⟩)
    rw [keys, keys, ← Multiset.add_cons]
    refine Multiset.add_le_add_left ?_
    rw [List.map_append, Multiset.cons_coe, Multiset.coe_le]
    refine (List.perm_append_comm.subperm).trans ?_
    exact ((List.filter_sublist.map _).cons_cons _).subperm
  · rw [show l.st.plainRed = false from hno] at hred
    cases hred
  · rw [(h.plain j hj hp).1] at hred
    cases hred
  · cases hs
    rfl
  · refine List.pairwise_append.mpr ⟨h.apart.filter _, List.pairwise_singleton _ _, fun o ho o' ho' ↦ ?_⟩
    rw [List.mem_singleton.mp ho']
    obtain ⟨ho, hin⟩ := List.mem_filter.mp ho
    exact ⟨hnew ho, hout ho hin⟩

/-! ## The attribution runs -/

theorem withouts_spec (shape : Shape) (xs : List Id) :
    ((shape.withouts xs).map (·.2)).Nodup ∧
      (∀ w ∈ shape.withouts xs, w.1 ∈ xs ∧ w.2 = shape.removalOf w.1) ∧
      ∀ x ∈ xs, ∃ w ∈ shape.withouts xs, w.2 = shape.removalOf x := by
  induction xs using List.reverseRecOn with
  | nil => exact ⟨List.nodup_nil, fun w hw ↦ absurd hw List.not_mem_nil, fun x hx ↦ absurd hx List.not_mem_nil⟩
  | append_singleton xs x ih =>
    obtain ⟨hnodup, hof, hall⟩ := ih
    have hstep : shape.withouts (xs ++ [x]) =
        if (shape.withouts xs).any (·.2 = shape.removalOf x) then shape.withouts xs
        else shape.withouts xs ++ [(x, shape.removalOf x)] := by
      rw [Shape.withouts, List.foldl_append]
      rfl
    rw [hstep]
    split <;> rename_i hany
    · refine ⟨hnodup, fun w hw ↦ ⟨List.mem_append_left _ (hof w hw).1, (hof w hw).2⟩, fun y hy ↦ ?_⟩
      rcases List.mem_append.mp hy with hy | hy
      · exact hall y hy
      · obtain ⟨w, hw, heq⟩ := List.any_eq_true.mp hany
        rw [List.mem_singleton.mp hy]
        exact ⟨w, hw, of_decide_eq_true heq⟩
    · refine ⟨?_, fun w hw ↦ ?_, fun y hy ↦ ?_⟩
      · rw [List.map_append, List.nodup_append]
        refine ⟨hnodup, List.nodup_singleton _, fun r hr r' hr' heq ↦ hany ?_⟩
        obtain ⟨w, hw, rfl⟩ := List.mem_map.mp hr
        rw [List.mem_singleton.mp hr'] at heq
        exact List.any_eq_true.mpr ⟨w, hw, decide_eq_true heq⟩
      · rcases List.mem_append.mp hw with hw | hw
        · exact ⟨List.mem_append_left _ (hof w hw).1, (hof w hw).2⟩
        · rw [List.mem_singleton.mp hw]
          exact ⟨List.mem_append_right _ (List.mem_singleton_self x), rfl⟩
      · rcases List.mem_append.mp hy with hy | hy
        · obtain ⟨w, hw, heq⟩ := hall y hy
          exact ⟨w, List.mem_append_left _ hw, heq⟩
        · rw [List.mem_singleton.mp hy]
          exact ⟨_, List.mem_append_right _ (List.mem_singleton_self _), rfl⟩

theorem attribution_spec {suspects : List Id} (h : ∀ x ∈ suspects, x ∈ shape.members) :
    ((attribution shape suspects).map (·.2)).Nodup ∧
      (∀ w ∈ attribution shape suspects, w.1 ≠ .plain ∧ ∀ n suite, (⟨n, suite, w.2, w.1⟩ : Job).Kind shape) ∧
      (∀ x ∈ shape.members, ∃ y, (.without y, shape.removalOf x) ∈ attribution shape suspects) ∧
      attribution shape suspects ≠ [] := by
  obtain ⟨hnodup, hof, hall⟩ := withouts_spec shape (suspects ++ shape.members)
  have hkind {w : Id × List Id} (hw : w ∈ shape.withouts (suspects ++ shape.members)) :
      w.1 ∈ shape.members ∧ w.2 = shape.removalOf w.1 := by
    obtain ⟨hin, hw2⟩ := hof w hw
    exact ⟨(List.mem_append.mp hin).elim (h w.1) id, hw2⟩
  have hmap : ((shape.withouts (suspects ++ shape.members)).map fun w ↦
      ((.without w.1, w.2) : Purpose × List Id)).map (·.2) =
        (shape.withouts (suspects ++ shape.members)).map (·.2) := by
    rw [List.map_map]
    rfl
  rw [attribution]
  split <;> rename_i hany
  · refine ⟨?_, fun w hw ↦ ?_, fun x hx ↦ ?_, fun hnil ↦ ?_⟩
    · rw [List.nil_append, hmap]
      exact hnodup
    · obtain ⟨o, ho, rfl⟩ := List.mem_map.mp hw
      exact ⟨Purpose.noConfusion, fun _ _ ↦ hkind ho⟩
    · obtain ⟨w, hw, heq⟩ := hall x (List.mem_append_right _ hx)
      exact ⟨w.1, heq ▸ List.mem_map_of_mem hw⟩
    · obtain ⟨w, hw, -⟩ := List.any_eq_true.mp hany
      rw [List.nil_append, List.map_eq_nil_iff] at hnil
      rw [hnil] at hw
      cases hw
  · refine ⟨?_, fun w hw ↦ ?_, fun x hx ↦ ?_, fun hnil ↦ by cases hnil⟩
    · rw [List.map_append, hmap, List.map_singleton, List.singleton_append, List.nodup_cons]
      refine ⟨fun hin ↦ hany ?_, hnodup⟩
      obtain ⟨w, hw, heq⟩ := List.mem_map.mp hin
      exact List.any_eq_true.mpr ⟨w, hw, decide_eq_true heq⟩
    · rcases List.mem_append.mp hw with hw | hw
      · rw [List.mem_singleton.mp hw]
        exact ⟨Purpose.noConfusion, fun _ _ ↦ rfl⟩
      · obtain ⟨o, ho, rfl⟩ := List.mem_map.mp hw
        exact ⟨Purpose.noConfusion, fun _ _ ↦ hkind ho⟩
    · obtain ⟨w, hw, heq⟩ := hall x (List.mem_append_right _ hx)
      exact ⟨w.1, List.mem_append_right _ (heq ▸ List.mem_map_of_mem hw)⟩

theorem jobs_spec (suite : String) (n : ℕ) (ws : List (Purpose × List Id)) :
    ((jobs suite n ws).map (·.id)).Nodup ∧
      (∀ j ∈ jobs suite n ws, n ≤ j.id ∧ ∃ w ∈ ws, j = ⟨j.id, suite, w.2, w.1⟩) ∧
      (jobs suite n ws).map (fun j ↦ (j.purpose, j.removal)) = ws := by
  induction ws generalizing n with
  | nil => exact ⟨List.nodup_nil, fun j hj ↦ (nomatch hj), rfl⟩
  | cons w ws ih =>
    obtain ⟨hnodup, hof, hmap⟩ := ih (n + 1)
    rw [jobs]
    refine ⟨?_, fun j hj ↦ ?_, ?_⟩
    · rw [List.map_cons, List.nodup_cons]
      refine ⟨fun hin ↦ ?_, hnodup⟩
      obtain ⟨j, hj, hid⟩ := List.mem_map.mp hin
      have hge := (hof j hj).1
      rw [hid] at hge
      exact Nat.not_succ_le_self n hge
    · rcases List.mem_cons.mp hj with rfl | hj
      · exact ⟨Nat.le_refl _, w, List.mem_cons_self, rfl⟩
      · obtain ⟨hge, w', hw', heq⟩ := hof j hj
        exact ⟨by omega, w', List.mem_cons_of_mem _ hw', heq⟩
    · rw [List.map_cons, hmap]

theorem live_addAll (js : List Job) : (l.addAll js).live = ↑js + l.live := by
  induction js generalizing l with
  | nil => exact (Multiset.zero_add _).symm
  | cons j js ih =>
    have hlive : (l.add j).live = j ::ₘ l.live := Multiset.cons_add ..
    show ((l.add j).addAll js).live = _
    rw [ih, hlive, ← Multiset.cons_coe, Multiset.add_cons, Multiset.cons_add]

/-- New jobs, each on a tree that nothing before it stands for. -/
theorem Sound.addAll (h : l.Sound shape) (hred : l.st.plainRed = true) (js : List Job)
    (hids : ((js : Multiset Job).map (·.id) + l.live.map (·.id)).Nodup)
    (hkinds : ∀ j ∈ js, j.purpose ≠ .plain ∧ j.Kind shape)
    (hkeys : ((js : Multiset Job).map Job.key + l.keys).Nodup)
    (hcount : ∀ j ∈ js, count j.purpose l.launched + count j.purpose l.queued = 0) :
    (l.addAll js).Sound shape := by
  induction js generalizing l with
  | nil => exact h
  | cons j js ih =>
    rw [← Multiset.cons_coe, Multiset.map_cons, Multiset.cons_add] at hids hkeys
    rw [Multiset.nodup_cons] at hids hkeys
    obtain ⟨hplain, hkind⟩ := hkinds j List.mem_cons_self
    have hadd : (l.add j).Sound shape := by
      refine h.add (fun j' hj' hid ↦ ?_) hkind (fun hin ↦ ?_) ?_ (fun hp ↦ absurd hp hplain) fun _ ↦ hred
      · exact hids.1 (Multiset.mem_add.mpr (.inr (hid ▸ Multiset.mem_map_of_mem _ hj')))
      · exact hkeys.1 (Multiset.mem_add.mpr (.inr hin))
      · rw [hcount j List.mem_cons_self]
        exact Nat.zero_le _
    have hlive : (l.add j).live = j ::ₘ l.live := Multiset.cons_add ..
    refine ih hadd hred ?_ (fun j' hj' ↦ hkinds j' (List.mem_cons_of_mem _ hj')) ?_ fun j' hj' ↦ ?_
    · rw [hlive, Multiset.map_cons, Multiset.add_cons, Multiset.nodup_cons]
      exact hids
    · have hnew : (l.add j).keys = j.key ::ₘ l.keys := by
        rw [keys, hlive, Multiset.map_cons, Multiset.cons_add]
        rfl
      rw [hnew, Multiset.add_cons, Multiset.nodup_cons]
      exact hkeys
    · have hne : j.purpose ≠ j'.purpose := by
        intro heq
        have hkey' := (hkinds j' (List.mem_cons_of_mem _ hj')).2.key_eq
        rw [← heq, ← hkind.key_eq] at hkey'
        exact hkeys.1 (Multiset.mem_add.mpr (.inl (hkey' ▸ Multiset.mem_map_of_mem _ hj')))
      have hqueued : count j'.purpose (j ::ₘ l.queued) = count j'.purpose l.queued :=
        Multiset.countP_cons_of_neg _ hne
      show count j'.purpose l.launched + count j'.purpose (j ::ₘ l.queued) = 0
      rw [hqueued]
      exact hcount j' (List.mem_cons_of_mem _ hj')

/-! ## A report -/

/-- Nothing else of the suite is out while its plain rerun is. -/
theorem Sound.alone (h : l.Sound shape) (hjob : job ∈ l.running) (hplain : job.purpose = .plain) :
    (l.takeOff job).live = 0 ∧ (l.takeOff job).keys = 0 := by
  obtain ⟨hno, hsettled⟩ := h.plain job (Multiset.mem_add.mpr (.inr hjob)) hplain
  obtain ⟨-, hdistinct, -⟩ := h.takeOff hjob
  have hlive := h.live_takeOff hjob
  have hnone : (l.takeOff job).live = 0 := by
    refine Multiset.eq_zero_of_forall_notMem fun j hj ↦ (Multiset.nodup_cons.mp hdistinct).1 ?_
    have hp := h.early hno j (.inl (hlive ▸ Multiset.mem_cons_of_mem hj))
    have hkey : job.key = j.key := by rw [Job.key, Job.key, if_pos hplain, if_pos hp]
    rw [hkey]
    exact Multiset.mem_add.mpr (.inl (Multiset.mem_map_of_mem _ hj))
  have howners : (l.takeOff job).st.owners = [] := h.unowned hsettled
  refine ⟨hnone, ?_⟩
  rw [keys, hnone, howners]
  rfl

theorem Sound.clear (h : l.Sound shape) (hjob : job ∈ l.running) :
    (job.purpose ≠ .plain → l.st.plainRed = true) ∧ ∀ j ∈ (l.takeOff job).live, j.purpose ≠ .plain := by
  have hin : job ∈ l.live := Multiset.mem_add.mpr (.inr hjob)
  have hred (hp : job.purpose ≠ .plain) : l.st.plainRed = true := by
    by_contra hno
    exact hp (h.early (by simpa using hno) job (.inl hin))
  refine ⟨hred, fun j hj hplain ↦ ?_⟩
  by_cases hp : job.purpose = .plain
  · have hkeys := (h.alone hjob hp).2
    have hmem : j.key ∈ (l.takeOff job).keys := Multiset.mem_add.mpr (.inl (Multiset.mem_map_of_mem _ hj))
    rw [hkeys] at hmem
    exact absurd hmem (Multiset.notMem_zero _)
  · have hno := (h.plain j (h.live_takeOff hjob ▸ Multiset.mem_cons_of_mem hj) hplain).1
    rw [hred hp] at hno
    cases hno

theorem Sound.fault (h : l.Sound shape) (hn : ∀ j ∈ l.live, j.id < n) (hjob : job ∈ l.running) (now : ℕ) :
    (l.report n shape job .fault now).Sound shape := by
  obtain ⟨hoff, hkey, -⟩ := h.takeOff hjob
  obtain ⟨hred, hclear⟩ := h.clear hjob
  have hlive := h.live_takeOff hjob
  have hin : job ∈ l.live := Multiset.mem_add.mpr (.inr hjob)
  have hfaults := hoff.faults job.purpose
  rw [report]
  refine Sound.exhaust ?_ now
  split <;> rename_i hagain
  · refine hfaults.add (fun j hj hid ↦ ?_) (h.kinds job hin) (Multiset.nodup_cons.mp hkey).1 ?_
      (h.plain job hin) hred
    · have hlt := hn j (hlive ▸ Multiset.mem_cons_of_mem hj)
      rw [hid] at hlt
      exact Nat.lt_irrefl n hlt
    · have hle := h.launches job.purpose
      have hlt : l.st.faults job.purpose + 1 < 2 := hagain.1
      show count job.purpose l.launched + count job.purpose l.queued ≤
        min 1 (Function.update l.st.faults job.purpose (l.st.faults job.purpose + 1) job.purpose)
      rw [Function.update_self]
      omega
  · split
    · exact hfaults.settle now rfl hclear
    · exact hfaults

theorem Sound.plainRed (h : l.Sound shape) (hjob : job ∈ l.running)
    (hplain : job.purpose = .plain) (now : ℕ) : (l.report n shape job .red now).Sound shape := by
  obtain ⟨hoff, -, -⟩ := h.takeOff hjob
  obtain ⟨-, hclear⟩ := h.clear hjob
  obtain ⟨hlive, hkeys⟩ := h.alone hjob hplain
  have hin : job ∈ l.live := Multiset.mem_add.mpr (.inr hjob)
  have hno := (h.plain job hin hplain).1
  have hred : ({ l.takeOff job with st := { (l.takeOff job).st with plainRed := true } } : Ladder).Sound
      shape :=
    { hoff with
      early := fun hred ↦ nomatch hred
      plain := fun j hj hp ↦ absurd hp (hclear j hj) }
  obtain ⟨hnodup, hkinds, -, -⟩ := attribution_spec hoff.suspects
  obtain ⟨hids, hof, hmap⟩ := jobs_spec job.suite n (attribution shape (l.takeOff job).st.suspects)
  have hkinds' (j : Job) (hj : j ∈ jobs job.suite n (attribution shape (l.takeOff job).st.suspects)) :
      j.purpose ≠ .plain ∧ j.Kind shape := by
    obtain ⟨-, w, hw, heq⟩ := hof j hj
    rw [heq]
    exact ⟨(hkinds w hw).1, (hkinds w hw).2 _ _⟩
  simp only [report, hplain]
  refine hred.addAll rfl _ ?_ hkinds' ?_ fun j hj ↦ ?_
  · show (_ + (l.takeOff job).live.map _).Nodup
    rw [hlive, Multiset.map_zero, Multiset.add_zero, Multiset.map_coe]
    exact hids
  · show (_ + (l.takeOff job).keys).Nodup
    have hmapkey : (jobs job.suite n (attribution shape (l.takeOff job).st.suspects)).map Job.key =
        ((attribution shape (l.takeOff job).st.suspects).map (·.2)).map some := by
      conv_rhs => rw [← hmap, List.map_map, List.map_map]
      refine List.map_congr_left fun j hj ↦ ?_
      rw [Job.key, if_neg (hkinds' j hj).1]
      rfl
    rw [hkeys, Multiset.add_zero, Multiset.map_coe, hmapkey]
    exact hnodup.map (Option.some_injective _)
  · have hlaunched : count j.purpose l.launched = 0 :=
      Multiset.countP_eq_zero.mpr fun j' hj' heq ↦
        (hkinds' j hj).1 (heq ▸ h.early hno j' (.inr hj'))
    have hqueued : l.queued = 0 := by
      refine Multiset.eq_zero_of_forall_notMem fun j' hj' ↦ ?_
      have hmem : j' ∈ (l.takeOff job).live := Multiset.mem_add.mpr (.inl hj')
      rw [hlive] at hmem
      exact Multiset.notMem_zero _ hmem
    show count j.purpose l.launched + count j.purpose l.queued = 0
    rw [hlaunched, hqueued]
    rfl

/-- **A report keeps the invariant.** -/
theorem Sound.report {members : List Id} {prereqs : Std.ExtTreeMap Id (List Id)}
    (h : l.Sound (.new members prereqs)) (hn : ∀ j ∈ l.live, j.id < n) (hjob : job ∈ l.running)
    (result : JobResult) (now : ℕ) :
    (l.report n (.new members prereqs) job result now).Sound (.new members prereqs) := by
  obtain ⟨hoff, hkey, -⟩ := h.takeOff hjob
  obtain ⟨hred, hclear⟩ := h.clear hjob
  have hkind := h.kinds job (Multiset.mem_add.mpr (.inr hjob))
  cases result with
  | fault => exact h.fault hn hjob now
  | green =>
    cases hpurpose : job.purpose with
    | plain =>
      simp only [Ladder.report, hpurpose]
      exact hoff.settle now rfl hclear
    | base =>
      have hgreen : ({ l.takeOff job with st := { (l.takeOff job).st with baseGreen := true } } :
          Ladder).Sound (.new members prereqs) := { hoff with }
      simp only [Ladder.report, hpurpose]
      exact hgreen.exhaust now
    | without x =>
      rw [Job.Kind, hpurpose] at hkind
      have hkeyeq : job.key = some ((Shape.new members prereqs).removalOf x) := by
        rw [Job.key, hpurpose, if_neg Purpose.noConfusion, hkind.2]
      rw [hkeyeq] at hkey
      simp only [Ladder.report, hpurpose]
      rw [hkind.2]
      exact hoff.addOwner hkind.1 now (Multiset.nodup_cons.mp hkey).1
        (hred (by rw [hpurpose]; exact Purpose.noConfusion))
  | red =>
    cases hpurpose : job.purpose with
    | plain => exact h.plainRed hjob hpurpose now
    | base =>
      simp only [Ladder.report, hpurpose]
      exact hoff.settle now rfl hclear
    | without x =>
      simp only [Ladder.report, hpurpose]
      split
      · exact hoff.settle now rfl hclear
      · exact hoff.exhaust now

/-! ## What makes a red end -/

@[simp] theorem settle_settled (outcome : Outcome) (now : ℕ) :
    (l.settle outcome now).st.settled = l.st.settled.or (some (outcome, now)) := by
  show (ite _ _ _ : SuiteState).settled = _
  cases hs : l.st.settled with
  | none => rfl
  | some o => exact hs

theorem Waits.settle (outcome : Outcome) (now : ℕ) : (l.settle outcome now).Waits := by
  intro hs
  rw [settle_settled] at hs
  cases hs' : l.st.settled <;> rw [hs'] at hs <;> cases hs

theorem Sound.outstanding_empty (h : l.Sound shape) (hlive : l.live = 0) : l.st.outstanding = ∅ := by
  rw [h.outstanding, hlive]
  rfl

theorem Waits.exhaust
    (hw : (l.live = 0 → l.st.outstanding = ∅) ∧ l.st.plainRed = true ∨ l.Waits) (now : ℕ) :
    (l.exhaust now).Waits := by
  rw [Ladder.exhaust]
  split <;> rename_i hex
  · exact .settle .unattributed now
  · rcases hw with ⟨hempty, hred⟩ | hw
    · intro hs hlive
      exact hex ⟨by rw [hs]; rfl, hempty hlive, hred⟩
    · exact hw

theorem Sound.addOwner_settled (h : l.Sound shape) (x : Id) (removal : List Id) (now : ℕ) :
    (l.addOwner x removal now).st.settled.isSome = true := by
  rw [Ladder.addOwner]
  split <;> rename_i hs
  · split <;> rename_i hany
    · cases hsettled : l.st.settled with
      | none =>
        rw [h.unowned hsettled] at hany
        cases hany
      | some o => rfl
    · rfl
  · cases hsettled : l.st.settled with
    | none =>
      rw [hsettled] at hs
      exact absurd rfl hs
    | some o => rfl

/-- **A report leaves a red settled or with a job to wait for.** -/
theorem Sound.report_waits (h : l.Sound shape) (hjob : job ∈ l.running) (result : JobResult) (now : ℕ) :
    (l.report n shape job result now).Waits := by
  obtain ⟨hoff, -, -⟩ := h.takeOff hjob
  have hred := (h.clear hjob).1
  cases result with
  | fault =>
    rw [Ladder.report]
    refine Waits.exhaust ?_ now
    split
    · refine .inr fun _ hlive ↦ ?_
      have hcons : (_ ::ₘ _ : Multiset Job) + _ = 0 := hlive
      rw [Multiset.cons_add] at hcons
      exact Multiset.cons_ne_zero hcons
    · split <;> rename_i hplain
      · exact .inr (.settle .unattributed now)
      · exact .inl ⟨(hoff.faults job.purpose).outstanding_empty, hred hplain⟩
  | green =>
    cases hpurpose : job.purpose <;> simp only [Ladder.report, hpurpose]
    case plain => exact .settle .flaky now
    case base =>
      have hgreen : ({ l.takeOff job with st := { (l.takeOff job).st with baseGreen := true } } :
          Ladder).Sound shape := { hoff with }
      exact .exhaust (.inl ⟨hgreen.outstanding_empty, hred (by rw [hpurpose]; exact Purpose.noConfusion)⟩) now
    case without x =>
      intro hs
      have hsome := hoff.addOwner_settled x job.removal now
      rw [hs] at hsome
      cases hsome
  | red =>
    cases hpurpose : job.purpose <;> simp only [Ladder.report, hpurpose]
    case plain =>
      intro _ hlive
      obtain ⟨-, -, -, hne⟩ := attribution_spec hoff.suspects
      obtain ⟨-, -, hmap⟩ := jobs_spec job.suite n (attribution shape (l.takeOff job).st.suspects)
      rw [live_addAll] at hlive
      have hnil : jobs job.suite n (attribution shape (l.takeOff job).st.suspects) = [] := by
        refine List.eq_nil_iff_forall_not_mem.mpr fun j hj ↦ Multiset.notMem_zero j ?_
        rw [← hlive]
        exact Multiset.mem_add.mpr (.inl hj)
      rw [hnil] at hmap
      exact hne hmap.symm
    case base => exact .settle .base now
    case without x =>
      split
      · exact .settle .base now
      · exact .exhaust (.inl ⟨hoff.outstanding_empty, hred (by rw [hpurpose]; exact Purpose.noConfusion)⟩) now

end Ladder

end Spira.Batcher
