import Spira.Verdicts.Ledger

/-!
# What is kept of the verdicts

`Kept` says that the ledger holds what was told of it, and `Onward` what is left of an earlier
world: each transaction of the ledger's programs is told as it is made, and what happens around them
leaves what is kept.  A summary that is found at the revision that it was read at counts the attempts
that it counted (`Onward.unmoved`), which is why none is lost.
-/

set_option autoImplicit false

namespace Spira.Verdicts

open Controller.Planner (PassIdentity)

/-- The ledger holds what was told of it. -/
structure Kept (h : Digests) (w : World) : Prop where
  dated : w.store.Dated
  summary : ∀ repo hash, (w.store.items (.summary repo hash)).map (·.value.data) =
    (summaryOf (attemptsOf h w.told repo hash)).map some
  /-- An attempt that a summary counts is as it was told, and the summary has its owners. -/
  stands : ∀ repo hash n e i, (attemptsOf h w.told repo hash)[n]? = some e →
    w.store.items (.attempt repo hash (n + 1)) = some i →
      i.value = ⟨owners e.id e.batch e.attempt.class_, some e.attempt⟩ ∧
        ∃ s, w.store.items (.summary repo hash) = some s ∧ i.value.owners ⊆ s.value.owners
  gone : ∀ repo hash n e, (attemptsOf h w.told repo hash)[n]? = some e →
    w.store.items (.attempt repo hash (n + 1)) = none →
      .collected (.attempt repo hash (n + 1)) ∈ w.told
  stored : ∀ repo hash n i, w.store.items (.attempt repo hash n) = some i →
    ∃ e, Numbered h w.told e n ∧ (e.id.repo, h.identity e.id) = (repo, hash) ∧
      i.value.data = some e.attempt
  byMember : ∀ repo m, (w.store.items (.byMember repo m)).map (·.value) =
    (provenOf h w.told repo m).map fun r ↦ ⟨[.lifecycle m.1], some r⟩
  fault : ∀ repo base imageDigest, (w.store.items (.fault repo base imageDigest)).map (·.value) =
    (faultOf w.told repo base imageDigest).map fun f ↦ ⟨[], some f⟩
  lawful : Lawful h w.told
  /-- A request that is remembered as made was told. -/
  answered : ∀ hash n d, (.attempt hash n d, true) ∈ w.requests →
    ∃ e, Numbered h w.told e n ∧ h.identity e.id = hash ∧ h.attempt e.batch e.attempt = d

/-- What is left of an earlier world: its log goes on, and a summary whose attempts are others was
written since, or is gone. -/
structure Onward (h : Digests) (w w' : World) : Prop where
  kept : Kept h w → Kept h w'
  later : Records.Later w.store w'.store
  told : w.told <+: w'.told
  now : w.now ≤ w'.now
  moved : ∀ repo hash, attemptsOf h w'.told repo hash = attemptsOf h w.told repo hash ∨
    ∀ i, w'.store.items (.summary repo hash) = some i → w.store.head < i.modRev

section Kept

variable {h : Digests} {w w' w'' : World}

theorem Onward.refl (w : World) : Onward h w w :=
  ⟨id, .refl _, List.prefix_refl _, le_rfl, fun _ _ ↦ .inl rfl⟩

theorem Onward.trans (h₁ : Onward h w w') (h₂ : Onward h w' w'') : Onward h w w'' where
  kept := h₂.kept ∘ h₁.kept
  later := h₁.later.trans h₂.later
  told := h₁.told.trans h₂.told
  now := h₁.now.trans h₂.now
  moved repo hash := by
    have hle := h₁.later.head
    rcases h₂.moved repo hash with hsame | hmoved
    · rcases h₁.moved repo hash with hsame' | hmoved'
      · exact .inl (hsame.trans hsame')
      · refine .inr fun i hi ↦ ?_
        rcases h₂.later.written (.summary repo hash) with hk | hk
        · exact hmoved' i (hk ▸ hi)
        · exact lt_of_le_of_lt hle (hk i hi)
    · exact .inr fun i hi ↦ lt_of_le_of_lt hle (hmoved i hi)

/-- **A summary at the revision it was read at counts the attempts that it counted.** -/
theorem Onward.unmoved (hon : Onward h w w') (hw : Kept h w) {repo hash : String}
    {i i' : Records.Item (Owned Summary)} (hi : w.store.items (.summary repo hash) = some i)
    (hi' : w'.store.items (.summary repo hash) = some i') (hrev : i'.modRev = i.modRev) :
    i' = i ∧ attemptsOf h w'.told repo hash = attemptsOf h w.told repo hash := by
  refine ⟨hon.later.unmoved hw.dated hi hi' hrev, ?_⟩
  rcases hon.moved repo hash with hsame | hmoved
  · exact hsame
  · have hlt := hmoved i' hi'
    have hle := (hw.dated (.summary repo hash) i hi).1
    omega

/-- What is kept is of the ledger's records alone. -/
theorem Kept.congr (hw : Kept h w) (hdated : w'.store.Dated)
    (hitems : ∀ k, k.isLedger → w'.store.items k = w.store.items k) (htold : w'.told = w.told)
    (hrequests : ∀ r, (r, true) ∈ w'.requests → (r, true) ∈ w.requests) : Kept h w' where
  dated := hdated
  summary repo hash := by
    rw [hitems (.summary repo hash) rfl, htold]
    exact hw.summary repo hash
  stands repo hash n e i := by
    rw [hitems (.attempt repo hash (n + 1)) rfl, hitems (.summary repo hash) rfl, htold]
    exact hw.stands repo hash n e i
  gone repo hash n e := by
    rw [hitems (.attempt repo hash (n + 1)) rfl, htold]
    exact hw.gone repo hash n e
  stored repo hash n i := by
    rw [hitems (.attempt repo hash n) rfl, htold]
    exact hw.stored repo hash n i
  byMember repo m := by
    rw [hitems (.byMember repo m) rfl, htold]
    exact hw.byMember repo m
  fault repo base imageDigest := by
    rw [hitems (.fault repo base imageDigest) rfl, htold]
    exact hw.fault repo base imageDigest
  lawful := htold ▸ hw.lawful
  answered hash n d hr := by
    rw [htold]
    exact hw.answered hash n d (hrequests _ hr)

/-- What is read of a summary is what the attempts come to. -/
theorem Kept.summaryOf_eq (hw : Kept h w) {repo hash : String}
    {cur : Option (Records.Item (Owned Summary))} {prev : Option Summary}
    (hcur : w.store.items (.summary repo hash) = cur)
    (hprev : cur.map (·.value.data) = prev.map some) :
    summaryOf (attemptsOf h w.told repo hash) = prev := by
  have hsummary := hw.summary repo hash
  rw [hcur, hprev] at hsummary
  exact (Option.map_injective (Option.some_injective _) hsummary).symm

theorem subset_keptOwners {read own : List Key} :
    read ⊆ keptOwners read own ∧ own ⊆ keptOwners read own := by
  induction own generalizing read with
  | nil => exact ⟨List.Subset.refl _, List.nil_subset _⟩
  | cons o own ih =>
    rw [keptOwners, List.foldl_cons]
    by_cases ho : o ∈ read
    · rw [if_pos ho]
      obtain ⟨hread, hown⟩ := @ih read
      exact ⟨hread, List.cons_subset.mpr ⟨hread ho, hown⟩⟩
    · rw [if_neg ho]
      obtain ⟨hread, hown⟩ := @ih (read ++ [o])
      refine ⟨fun x hx ↦ hread (List.mem_append_left _ hx), List.cons_subset.mpr ⟨?_, hown⟩⟩
      exact hread (List.mem_append_right _ List.mem_cons_self)

/-- **An attempt that is told is counted after those told before it**, where it is put under its
number and the summary is what they come to with it. -/
theorem Kept.tellAttempt (hw : Kept h w) {e : Written} {repo hash : String} {E : List Written}
    (hid : (e.id.repo, h.identity e.id) = (repo, hash)) (hE : attemptsOf h w.told repo hash = E)
    (hdated : w'.store.Dated) (htold : w'.told = w.told ++ [.attempt e])
    (hattempt : (w'.store.items (.attempt repo hash (E.length + 1))).map (·.value) =
      some ⟨owners e.id e.batch e.attempt.class_, some e.attempt⟩)
    {s : Records.Item (Owned Summary)} (hs : w'.store.items (.summary repo hash) = some s)
    (hdata : some s.value.data = (summaryOf (E ++ [e])).map some)
    (howners : owners e.id e.batch e.attempt.class_ ⊆ s.value.owners)
    (hkept : ∀ s', w.store.items (.summary repo hash) = some s' → s'.value.owners ⊆ s.value.owners)
    (hother : ∀ k, k ≠ .attempt repo hash (E.length + 1) → k ≠ .summary repo hash →
      w'.store.items k = w.store.items k)
    (hanother : ∀ e', E.getLast? = some e' → e'.attempt = e.attempt →
      .collected (.attempt repo hash E.length) ∈ w.told)
    (hrequests : ∀ r, (r, true) ∈ w'.requests → (r, true) ∈ w.requests ∨
      r = .attempt hash (E.length + 1) (h.attempt e.batch e.attempt)) : Kept h w' := by
  obtain ⟨hrepo, hhash⟩ := Prod.mk.inj hid
  have hsame : attemptsOf h w'.told repo hash = E ++ [e] := by
    rw [htold, attemptsOf_concat, attemptsStep, if_pos hid, hE]
  have hstep {repo' hash' : String} (hne : (repo', hash') ≠ (repo, hash)) :
      attemptsOf h w'.told repo' hash' = attemptsOf h w.told repo' hash' := by
    rw [htold, attemptsOf_concat, attemptsStep, hid, if_neg hne.symm]
  have hpre : w.told <+: w'.told := htold ▸ List.prefix_append _ _
  have hnumbered : Numbered h w'.told e (E.length + 1) := by
    refine ⟨w.told, [], htold, ?_⟩
    rw [hrepo, hhash, hE]
  have hcases (repo' hash' : String) : (repo' = repo ∧ hash' = hash) ∨
      (repo', hash') ≠ (repo, hash) := by
    by_cases heq : (repo', hash') = (repo, hash)
    · exact .inl ⟨congrArg Prod.fst heq, congrArg Prod.snd heq⟩
    · exact .inr heq
  have hkey {repo' hash' : String} {n n' : ℕ} (hne : (repo', hash') ≠ (repo, hash)) :
      Key.attempt repo' hash' n ≠ .attempt repo hash n' := by
    intro heq
    obtain ⟨rfl, rfl, -⟩ := Key.attempt.inj heq
    exact hne rfl
  have hlast {n : ℕ} {e' : Written} (hget : (E ++ [e])[n]? = some e') (hlt : ¬ n < E.length) :
      n = E.length ∧ e' = e := by
    obtain ⟨hlen, -⟩ := List.getElem?_eq_some_iff.mp hget
    rw [List.length_append, List.length_singleton] at hlen
    obtain rfl : n = E.length := by omega
    rw [List.getElem?_concat_length] at hget
    exact ⟨rfl, (Option.some.inj hget).symm⟩
  refine ⟨hdated, fun repo' hash' ↦ ?_, fun repo' hash' n e' i hget hi ↦ ?_,
    fun repo' hash' n e' hget hi ↦ ?_, fun repo' hash' n i hi ↦ ?_, fun repo' m ↦ ?_,
    fun repo' base imageDigest ↦ ?_, ?_, fun hash' n d hr ↦ ?_⟩
  · rcases hcases repo' hash' with ⟨rfl, rfl⟩ | hne
    · rw [hsame, hs, Option.map_some, hdata]
    · rw [hstep hne, hother _ (by simp) (by simpa using hne)]
      exact hw.summary repo' hash'
  · rcases hcases repo' hash' with ⟨rfl, rfl⟩ | hne
    · rw [hsame] at hget
      by_cases hlt : n < E.length
      · -- An attempt of before keeps its owners in the summary.
        rw [List.getElem?_append_left hlt, ← hE] at hget
        rw [hother _ (by simp; omega) (by simp)] at hi
        obtain ⟨hvalue, s', hs', hsub⟩ := hw.stands _ _ n e' i hget hi
        exact ⟨hvalue, s, hs, List.Subset.trans hsub (hkept s' hs')⟩
      · obtain ⟨rfl, rfl⟩ := hlast hget hlt
        rw [hi] at hattempt
        have hvalue := Option.some.inj hattempt
        refine ⟨hvalue, s, hs, ?_⟩
        rw [show i.value = _ from hvalue]
        exact howners
    · rw [hstep hne] at hget
      rw [hother _ (hkey hne) (by simp)] at hi
      rw [hother _ (by simp) (by simpa using hne)]
      exact hw.stands repo' hash' n e' i hget hi
  · rcases hcases repo' hash' with ⟨rfl, rfl⟩ | hne
    · rw [hsame] at hget
      by_cases hlt : n < E.length
      · rw [List.getElem?_append_left hlt, ← hE] at hget
        rw [hother _ (by simp; omega) (by simp)] at hi
        exact hpre.subset (hw.gone _ _ n e' hget hi)
      · obtain ⟨rfl, rfl⟩ := hlast hget hlt
        rw [hi] at hattempt
        cases hattempt
    · rw [hstep hne] at hget
      rw [hother _ (hkey hne) (by simp)] at hi
      exact hpre.subset (hw.gone repo' hash' n e' hget hi)
  · by_cases hk : Key.attempt repo' hash' n = .attempt repo hash (E.length + 1)
    · obtain ⟨rfl, rfl, rfl⟩ := Key.attempt.inj hk
      rw [hi] at hattempt
      exact ⟨e, hnumbered, hid, congrArg Owned.data (Option.some.inj hattempt)⟩
    · rw [hother _ hk (by simp)] at hi
      obtain ⟨e', hnum, hid', hdata'⟩ := hw.stored repo' hash' n i hi
      exact ⟨e', hnum.mono hpre, hid', hdata'⟩
  · rw [hother _ (by simp) (by simp), htold, provenOf_concat]
    exact hw.byMember repo' m
  · rw [hother _ (by simp) (by simp), htold, faultOf_concat]
    exact hw.fault repo' base imageDigest
  · rw [htold]
    refine hw.lawful.concat (fun e₁ e' heq hlast' hsame' ↦ ?_)
      (fun _ _ _ heq ↦ Told.noConfusion heq) fun _ _ _ _ heq ↦ Told.noConfusion heq
    obtain rfl := Told.attempt.inj heq
    rw [hrepo, hhash, hE] at hlast' ⊢
    exact hanother e' hlast' hsame'
  · rcases hrequests _ hr with hr | heq
    · obtain ⟨e', hnum, hid', hd⟩ := hw.answered hash' n d hr
      exact ⟨e', hnum.mono hpre, hid', hd⟩
    · obtain ⟨rfl, rfl, rfl⟩ := Req.attempt.inj heq
      exact ⟨e, hnumbered, hhash, rfl⟩

/-- Where what is told is of no attempt, the attempts stand as they were. -/
theorem Kept.tellOther (hw : Kept h w) (hdated : w'.store.Dated) (hpre : w.told <+: w'.told)
    (hattempts : ∀ repo hash, attemptsOf h w'.told repo hash = attemptsOf h w.told repo hash)
    (hsummary : ∀ repo hash, w'.store.items (.summary repo hash) =
      w.store.items (.summary repo hash))
    (hattempt : ∀ repo hash n, w'.store.items (.attempt repo hash n) =
      w.store.items (.attempt repo hash n))
    (hmember : ∀ repo m, (w'.store.items (.byMember repo m)).map (·.value) =
      (provenOf h w'.told repo m).map fun r ↦ ⟨[.lifecycle m.1], some r⟩)
    (hfault : ∀ repo base imageDigest,
      (w'.store.items (.fault repo base imageDigest)).map (·.value) =
        (faultOf w'.told repo base imageDigest).map fun f ↦ ⟨[], some f⟩)
    (hlawful : Lawful h w'.told)
    (hrequests : ∀ hash n d, (.attempt hash n d, true) ∈ w'.requests →
      (.attempt hash n d, true) ∈ w.requests) : Kept h w' where
  dated := hdated
  summary repo hash := by
    rw [hsummary, hattempts]
    exact hw.summary repo hash
  stands repo hash n e i := by
    rw [hattempts, hattempt, hsummary]
    exact hw.stands repo hash n e i
  gone repo hash n e := by
    rw [hattempts, hattempt]
    exact fun hget hi ↦ hpre.subset (hw.gone repo hash n e hget hi)
  stored repo hash n i := by
    rw [hattempt]
    intro hi
    obtain ⟨e, hnum, hid, hdata⟩ := hw.stored repo hash n i hi
    exact ⟨e, hnum.mono hpre, hid, hdata⟩
  byMember := hmember
  fault := hfault
  lawful := hlawful
  answered hash n d hr := by
    obtain ⟨e, hnum, hid, hd⟩ := hw.answered hash n d (hrequests hash n d hr)
    exact ⟨e, hnum.mono hpre, hid, hd⟩

/-- What members proven at once leave of a log. -/
theorem told_provens (told : List Told) (id : PassIdentity) (at_ : ℕ)
    (ms : List (String × String)) :
    (∀ repo hash, attemptsOf h (told ++ ms.map fun m ↦ .proven id m at_) repo hash =
      attemptsOf h told repo hash) ∧
    (∀ repo base imageDigest, faultOf (told ++ ms.map fun m ↦ .proven id m at_) repo base
      imageDigest = faultOf told repo base imageDigest) ∧
    ∀ repo m, provenOf h (told ++ ms.map fun m ↦ .proven id m at_) repo m =
      if repo = id.repo ∧ m ∈ ms then some (provenRed h id at_) else provenOf h told repo m := by
  induction ms using List.reverseRecOn with
  | nil =>
    rw [List.map_nil, List.append_nil]
    exact ⟨fun _ _ ↦ rfl, fun _ _ _ ↦ rfl, fun repo m ↦ by rw [if_neg (by simp)]⟩
  | append_singleton ms m' ih =>
    obtain ⟨hattempts, hfault, hproven⟩ := ih
    rw [List.map_append, List.map_singleton, ← List.append_assoc]
    refine ⟨fun repo hash ↦ ?_, fun repo base imageDigest ↦ ?_, fun repo m ↦ ?_⟩
    · rw [attemptsOf_concat]
      exact hattempts repo hash
    · rw [faultOf_concat]
      exact hfault repo base imageDigest
    · rw [provenOf_concat, hproven]
      show (if (id.repo, m') = (repo, m) then _ else _) = _
      by_cases heq : (id.repo, m') = (repo, m)
      · obtain ⟨rfl, rfl⟩ := Prod.mk.inj heq
        rw [if_pos rfl, if_pos ⟨rfl, by simp⟩]
      · rw [if_neg heq]
        by_cases hm : repo = id.repo ∧ m ∈ ms
        · rw [if_pos hm, if_pos ⟨hm.1, List.mem_append_left _ hm.2⟩]
        · rw [if_neg hm, if_neg]
          rintro ⟨rfl, hmem⟩
          rcases List.mem_append.mp hmem with hmem | hmem
          · exact hm ⟨rfl, hmem⟩
          · exact heq (by rw [List.mem_singleton.mp hmem])

theorem Lawful.provens {told : List Told} (hl : Lawful h told) {id : PassIdentity} {at_ : ℕ}
    {ms : List (String × String)} (hmem : ∀ m ∈ ms, m ∈ id.members)
    (hred : ∃ pre, pre <+: told ∧
      (summaryOf (attemptsOf h pre id.repo (h.identity id))).any (·.class_.isRed)) :
    Lawful h (told ++ ms.map fun m ↦ .proven id m at_) := by
  induction ms using List.reverseRecOn with
  | nil =>
    rw [List.map_nil, List.append_nil]
    exact hl
  | append_singleton ms m' ih =>
    rw [List.map_append, List.map_singleton, ← List.append_assoc]
    refine (ih fun m hm ↦ hmem m (List.mem_append_left _ hm)).concat
      (fun _ _ heq ↦ Told.noConfusion heq) (fun id' m at' heq ↦ ?_)
      fun _ _ _ _ heq ↦ Told.noConfusion heq
    obtain ⟨rfl, rfl, rfl⟩ := Told.proven.inj heq
    obtain ⟨pre, hpre, hred⟩ := hred
    exact ⟨hmem _ (by simp), pre, hpre.trans (List.prefix_append _ _), hred⟩

/-- The world of a transaction that is made. -/
def made (w : World) (req : Req) (t : Txn) (told : List Told) : World :=
  { w with
    store := w.store.commit t.ops
    requests := (req, true) :: w.requests
    told := w.told ++ told }

theorem Onward.of_made {req : Req} {t : Txn} {told : List Told}
    (hkept : Kept h w → Kept h (made w req t told))
    (hmoved : ∀ repo hash, attemptsOf h (made w req t told).told repo hash =
        attemptsOf h w.told repo hash ∨
      ∀ i, (made w req t told).store.items (.summary repo hash) = some i →
        w.store.head < i.modRev) : Onward h w (made w req t told) :=
  ⟨hkept, Records.later_commit _ _, List.prefix_append _ _, le_rfl, hmoved⟩

/-- **An attempt put after those that there are is counted after them.** -/
theorem onward_attempt (hw : Kept h w) {id : PassIdentity} {batch : String} {a : Attempt}
    {policy : FaultPolicy} {cur : Option (Records.Item (Owned Summary))} {prev : Option Summary}
    (hcur : w.store.items (.summary id.repo (h.identity id)) = cur)
    (hprev : cur.map (·.value.data) = prev.map some)
    (hanother : ∀ e', (attemptsOf h w.told id.repo (h.identity id)).getLast? = some e' →
      e'.attempt = a → .collected (.attempt id.repo (h.identity id)
        (attemptsOf h w.told id.repo (h.identity id)).length) ∈ w.told) :
    Onward h w (made w
      (.attempt (h.identity id) (prev.elim 0 (·.attempts) + 1) (h.attempt batch a))
      (attemptTxn h id batch (prev.elim 0 (·.attempts) + 1) a (.next policy prev a) cur)
      [.attempt ⟨id, batch, policy, a⟩]) := by
  obtain ⟨E, hE⟩ : ∃ E, attemptsOf h w.told id.repo (h.identity id) = E := ⟨_, rfl⟩
  rw [hE] at hanother
  have hsummary : summaryOf E = prev := hE ▸ hw.summaryOf_eq hcur hprev
  have hn : prev.elim 0 (·.attempts) = E.length := by
    rw [← hsummary]
    obtain hnone | ⟨s, hs⟩ := (summaryOf E).eq_none_or_eq_some
    · rw [hnone, summaryOf_eq_none.mp hnone]
      rfl
    · rw [hs]
      exact attempts_of_summaryOf hs
  rw [hn]
  obtain ⟨t, ht⟩ : ∃ t, t = attemptTxn h id batch (E.length + 1) a (.next policy prev a) cur :=
    ⟨_, rfl⟩
  have hkeys : t.ops.map Records.Op.key = [.attempt id.repo (h.identity id) (E.length + 1),
      .summary id.repo (h.identity id)] := by
    rw [ht]
    rfl
  have hnodup : (t.ops.map Records.Op.key).Nodup := by
    rw [hkeys]
    simp
  have hput : ((w.store.commit t.ops).items (.summary id.repo (h.identity id))).map (·.value) =
      some ⟨keptOwners (cur.elim [] (·.value.owners)) (owners id batch a.class_),
        some (.next policy prev a)⟩ := by
    refine Records.items_commit_of_mem hnodup ?_
    rw [ht]
    exact List.mem_cons_of_mem _ List.mem_cons_self
  obtain ⟨s, hs, hvalue⟩ := Option.map_eq_some_iff.mp hput
  rw [← ht]
  refine .of_made (fun hw ↦ hw.tellAttempt (e := ⟨id, batch, policy, a⟩) rfl hE
    (hw.dated.commit _) rfl ?_ (s := s) hs ?_ ?_ (fun s' hs' ↦ ?_) (fun k hk hk' ↦ ?_) hanother
    fun r hr ↦ ?_) fun repo hash ↦ ?_
  · refine Records.items_commit_of_mem hnodup ?_
    rw [ht]
    exact List.mem_cons_self
  · rw [summaryOf_concat, hsummary, hvalue]
    rfl
  · rw [hvalue]
    exact subset_keptOwners.2
  · obtain rfl : cur = some s' := hcur.symm.trans hs'
    rw [hvalue]
    exact subset_keptOwners.1
  · refine Records.items_commit_of_notMem ?_
    rw [hkeys]
    simp [hk, hk']
  · rcases List.mem_cons.mp hr with heq | hr
    · exact .inr (Prod.mk.inj heq).1
    · exact .inl hr
  · by_cases hid : (id.repo, h.identity id) = (repo, hash)
    · obtain ⟨rfl, rfl⟩ := Prod.mk.inj hid
      have hmem : Key.summary id.repo (h.identity id) ∈ t.ops.map Records.Op.key := by
        rw [hkeys]
        simp
      refine .inr fun i (hi : (w.store.commit t.ops).items _ = some i) ↦ ?_
      have hmod := Records.modRev_commit_of_mem hmem hi
      omega
    · left
      show attemptsOf h (w.told ++ [_]) repo hash = _
      rw [attemptsOf_concat]
      exact if_neg hid

/-- **Members proven of an identity that was red** are red, and nothing else is changed. -/
theorem onward_proven {id : PassIdentity} {proven : List (String × String)} {at_ : ℕ} {req : Req}
    (hreq : ∀ hash n d, req ≠ .attempt hash n d)
    (hnodup : (proven.map fun m ↦ Key.byMember id.repo m).Nodup)
    (hmem : ∀ m ∈ proven, m ∈ id.members)
    (hred : ∃ pre, pre <+: w.told ∧
      (summaryOf (attemptsOf h pre id.repo (h.identity id))).any (·.class_.isRed)) :
    Onward h w (made w req
      ⟨[], proven.map fun m ↦
        .put (.byMember id.repo m) ⟨[.lifecycle m.1], some (provenRed h id at_)⟩⟩
      (proven.map fun m ↦ .proven id m at_)) := by
  obtain ⟨ops, hops⟩ : ∃ ops : List (Records.Op Key Key.Val), ops = proven.map fun m ↦
    .put (.byMember id.repo m) ⟨[.lifecycle m.1], some (provenRed h id at_)⟩ := ⟨_, rfl⟩
  have hkeys : ops.map Records.Op.key = proven.map fun m ↦ Key.byMember id.repo m := by
    rw [hops, List.map_map]
    rfl
  have hother {k : Key} (hk : ∀ m ∈ proven, k ≠ .byMember id.repo m) :
      (w.store.commit ops).items k = w.store.items k := by
    refine Records.items_commit_of_notMem fun hmem ↦ ?_
    rw [hkeys] at hmem
    obtain ⟨m, hm, rfl⟩ := List.mem_map.mp hmem
    exact hk m hm rfl
  obtain ⟨hattempts, hfaults, hprovens⟩ := told_provens (h := h) w.told id at_ proven
  rw [← hops]
  refine .of_made (fun hw ↦ hw.tellOther (hw.dated.commit _) (List.prefix_append _ _) hattempts
    (fun repo hash ↦ hother (by simp)) (fun repo hash n ↦ hother (by simp)) (fun repo m ↦ ?_)
    (fun repo base imageDigest ↦ ?_) (hw.lawful.provens hmem hred) fun hash n d hr ↦ ?_)
    fun repo hash ↦ .inl (hattempts repo hash)
  · show ((w.store.commit ops).items (.byMember repo m)).map (·.value) =
      (provenOf h (w.told ++ proven.map fun m ↦ .proven id m at_) repo m).map _
    rw [hprovens]
    by_cases hm : repo = id.repo ∧ m ∈ proven
    · obtain ⟨rfl, hm⟩ := hm
      rw [if_pos ⟨rfl, hm⟩]
      refine Records.items_commit_of_mem (by rwa [hkeys]) ?_
      rw [hops]
      exact List.mem_map_of_mem (f := fun m ↦ Records.Op.put (K := Key) (V := Key.Val)
        (.byMember id.repo m) ⟨[.lifecycle m.1], some (provenRed h id at_)⟩) hm
    · rw [if_neg hm, hother]
      · exact hw.byMember repo m
      · intro m' hm' heq
        obtain ⟨rfl, rfl⟩ := Key.byMember.inj heq
        exact hm ⟨rfl, hm'⟩
  · show ((w.store.commit ops).items (.fault repo base imageDigest)).map (·.value) =
      (faultOf (w.told ++ proven.map fun m ↦ .proven id m at_) repo base imageDigest).map _
    rw [hother (by simp), hfaults]
    exact hw.fault repo base imageDigest
  · rcases List.mem_cons.mp hr with heq | hr
    · exact absurd (Prod.mk.inj heq).1.symm (hreq hash n d)
    · exact hr

/-- A write of one lane's fault. -/
theorem onward_fault {repo base imageDigest : String} {req : Req} {t : Txn} {t' : Told}
    (hreq : ∀ hash n d, req ≠ .attempt hash n d)
    (hkeys : t.ops.map Records.Op.key = [.fault repo base imageDigest])
    (hattempts : ∀ repo hash l, attemptsStep h repo hash l t' = l)
    (hprovens : ∀ repo m r, provenStep h repo m r t' = r)
    (hfault : Kept h w →
      ((w.store.commit t.ops).items (.fault repo base imageDigest)).map (·.value) =
        (faultOf (w.told ++ [t']) repo base imageDigest).map fun f ↦ ⟨[], some f⟩)
    (hother : ∀ r b d f, (r, b, d) ≠ (repo, base, imageDigest) → faultStep r b d f t' = f)
    (hlawful : Kept h w → Lawful h (w.told ++ [t'])) : Onward h w (made w req t [t']) := by
  have hsame {k : Key} (hk : k ≠ .fault repo base imageDigest) :
      (w.store.commit t.ops).items k = w.store.items k := by
    refine Records.items_commit_of_notMem ?_
    rw [hkeys]
    simpa using hk
  have hstep (repo hash : String) :
      attemptsOf h (w.told ++ [t']) repo hash = attemptsOf h w.told repo hash := by
    rw [attemptsOf_concat, hattempts]
  refine .of_made (fun hw ↦ hw.tellOther (hw.dated.commit _) (List.prefix_append _ _) hstep
    (fun repo hash ↦ hsame (by simp)) (fun repo hash n ↦ hsame (by simp)) (fun repo m ↦ ?_)
    (fun r b d ↦ ?_) (hlawful hw) fun hash n d hr ↦ ?_) fun repo hash ↦ .inl (hstep repo hash)
  · show ((w.store.commit t.ops).items (.byMember repo m)).map (·.value) =
      (provenOf h (w.told ++ [t']) repo m).map _
    rw [hsame (by simp), provenOf_concat, hprovens]
    exact hw.byMember repo m
  · by_cases heq : (r, b, d) = (repo, base, imageDigest)
    · obtain ⟨rfl, hbd⟩ := Prod.mk.inj heq
      obtain ⟨rfl, rfl⟩ := Prod.mk.inj hbd
      exact hfault hw
    · show ((w.store.commit t.ops).items (.fault r b d)).map (·.value) =
        (faultOf (w.told ++ [t']) r b d).map _
      rw [hsame (by simpa using heq), faultOf_concat, hother r b d _ heq]
      exact hw.fault r b d
  · rcases List.mem_cons.mp hr with heq | hr
    · exact absurd (Prod.mk.inj heq).1.symm (hreq hash n d)
    · exact hr

/-- A lane that is stopped, where it was not stopped already. -/
theorem onward_stopped {repo base imageDigest : String} {f : LaneFault} {req : Req}
    (hreq : ∀ hash n d, req ≠ .attempt hash n d) (hcause : f.cause.isLane)
    (hnone : w.store.items (.fault repo base imageDigest) = none) :
    Onward h w (made w req ⟨[.modRev (.fault repo base imageDigest) none],
      [.put (.fault repo base imageDigest) ⟨[], some f⟩]⟩ [.fault repo base imageDigest f]) := by
  refine onward_fault hreq (show _ = [Key.fault repo base imageDigest] from rfl)
    (fun _ _ _ ↦ rfl) (fun _ _ _ ↦ rfl) (fun _ ↦ ?_) (fun r b d f' hne ↦ if_neg hne.symm)
    fun hw ↦ ?_
  · rw [Records.items_commit_put, faultOf_concat, faultStep, if_pos rfl]
    rfl
  · refine hw.lawful.concat (fun _ _ heq ↦ Told.noConfusion heq)
      (fun _ _ _ heq ↦ Told.noConfusion heq) fun r b d f' heq ↦ ?_
    obtain ⟨rfl, rfl, rfl, rfl⟩ := Told.fault.inj heq
    have hfault := hw.fault repo base imageDigest
    rw [hnone] at hfault
    exact ⟨hcause, Option.map_eq_none_iff.mp hfault.symm⟩

/-- A lane whose fault is cleared. -/
theorem onward_cleared {repo base imageDigest : String} {req : Req}
    (hreq : ∀ hash n d, req ≠ .attempt hash n d) :
    Onward h w (made w req ⟨[], [.delete (.fault repo base imageDigest)]⟩
      [.cleared repo base imageDigest]) := by
  refine onward_fault hreq (show _ = [Key.fault repo base imageDigest] from rfl)
    (fun _ _ _ ↦ rfl) (fun _ _ _ ↦ rfl) (fun _ ↦ ?_) (fun r b d f' hne ↦ if_neg hne.symm)
    fun hw ↦ hw.lawful.concat (fun _ _ heq ↦ Told.noConfusion heq)
      (fun _ _ _ heq ↦ Told.noConfusion heq) fun _ _ _ _ heq ↦ Told.noConfusion heq
  rw [Records.items_commit_delete, faultOf_concat, faultStep, if_pos rfl]
  rfl

end Kept

/-! ## What the programs keep to -/

/-- A step of the ledger's programs: a record is deleted only where a lane's fault is cleared. -/
structure Step (h : Digests) (w w' : World) : Prop where
  onward : Onward h w w'
  stays : ∀ k, (∀ repo base imageDigest, k ≠ .fault repo base imageDigest) →
    (w.store.items k).isSome → (w'.store.items k).isSome

section Programs

variable {h : Digests} {w w' : World} {repo hash : String}

theorem Step.refl (w : World) : Step h w w := ⟨.refl w, fun _ _ hk ↦ hk⟩

theorem Step.of_made {req : Req} {t : Txn} {told : List Told}
    (hon : Onward h w (made w req t told))
    (hdeletes : ∀ k, (∀ repo base imageDigest, k ≠ .fault repo base imageDigest) →
      .delete k ∉ t.ops) : Step h w (made w req t told) :=
  ⟨hon, fun k hk hsome ↦ Records.isSome_commit (hdeletes k hk) hsome⟩

/-- A refused transaction is remembered. -/
theorem Step.refused (req : Req) : Step h w { w with requests := (req, false) :: w.requests } := by
  refine ⟨⟨fun hw ↦ hw.congr hw.dated (fun _ _ ↦ rfl) rfl fun r hr ↦ ?_, .refl _,
    List.prefix_refl _, le_rfl, fun _ _ ↦ .inl rfl⟩, fun _ _ hk ↦ hk⟩
  rcases List.mem_cons.mp hr with heq | hr
  · cases heq
  · exact hr

/-- What follows a program starts later, of a ledger that is kept. -/
theorem keeps_then {α β : Type} {x : Program α} {f : α → Program β} {Q : α → World → Prop}
    {Q' : β → World → Prop} (hw : Kept h w)
    (hx : x.Keeps (Onward h) (Step h) Q (fun _ ↦ True) w)
    (hf : ∀ a w', Kept h w' → Onward h w w' → Q a w' →
      (f a).Keeps (Onward h) (Step h) Q' (fun _ ↦ True) w') :
    (x >>= f).Keeps (Onward h) (Step h) Q' (fun _ ↦ True) w := by
  have hsince := Verb.Keeps.since (R := Onward h) (G := Step h) Onward.trans (fun h ↦ h.onward) hx
  exact Verb.keeps_bind Onward.refl (hsince.imp fun a w' ⟨hq, h⟩ ↦ hf a w' (h.kept hw) h hq)

/-- What is read was the record at some moment. -/
theorem get_keeps {k : Key} : (get k).Keeps (Onward h) (Step h)
    (fun i w' ↦ ∃ u, Onward h w u ∧ Onward h u w' ∧ u.store.items k = i) (fun _ ↦ True) w := by
  refine Verb.keeps_look Step.refl fun u hu _ hw' ↦ ⟨fun i hi ↦ ?_, fun _ _ ↦ trivial⟩
  split at hi
  · exact ⟨u, hu, hw', Except.ok.inj hi⟩
  · cases hi

theorem nowMs_keeps : nowMs.Keeps (Onward h) (Step h)
    (fun now w' ↦ ∃ u, Onward h w u ∧ Onward h u w' ∧ u.now = now) (fun _ ↦ True) w :=
  Verb.keeps_look Step.refl fun u hu _ hw' ↦
    ⟨fun _ hi ↦ ⟨u, hu, hw', Except.ok.inj hi⟩, fun _ _ ↦ trivial⟩

theorem decoded_keeps {α β : Type} {k : Key} {v : Owned α} {f : α → Program β}
    {Q : β → World → Prop} (hf : ∀ a, v.data = some a →
      (f a).Keeps (Onward h) (Step h) Q (fun _ ↦ True) w) :
    (decoded k v >>= f).Keeps (Onward h) (Step h) Q (fun _ ↦ True) w := by
  rw [decoded]
  obtain hnone | ⟨a, ha⟩ := v.data.eq_none_or_eq_some
  · rw [hnone]
    exact fun _ _ ↦ trivial
  · rw [ha]
    exact hf a ha

/-- A transaction that is answered as made is remembered so. -/
theorem commit_keeps {req : Req} {t : Txn} {told : List Told}
    (hmade : ∀ u, Onward h w u → (t.ops.map Records.Op.key).Nodup → t.takes u.store →
      Step h u (made u req t told)) :
    (commit req t told).Keeps (Onward h) (Step h)
      (fun ok w' ↦ ok = true → ∃ u, Onward h w u ∧ Onward h u w' ∧ (req, true) ∈ u.requests)
      (fun _ ↦ True) w := by
  refine Verb.keeps_atom fun u hu _ ↦ ?_
  by_cases hcommit : u.up ∧ (t.ops.map Records.Op.key).Nodup ∧ u.requests.lookup req = none
  · rw [if_pos hcommit]
    obtain ⟨-, hnodup, hnew⟩ := hcommit
    by_cases htakes : t.takes u.store = true
    · rw [if_pos htakes]
      have hstep := hmade u hu hnodup htakes
      exact ⟨hstep, fun w' hw' ↦ ⟨fun _ _ _ ↦
        ⟨_, hu.trans hstep.onward, hw', List.mem_cons_self⟩, fun _ _ ↦ trivial⟩⟩
    · rw [if_neg htakes]
      refine ⟨.refused req, fun _ _ ↦ ⟨fun ok hok hmade ↦ ?_, fun _ _ ↦ trivial⟩⟩
      split at hok
      · rw [hnew] at hok
        obtain rfl := Except.ok.inj hok
        exact absurd hmade htakes
      · cases hok
  · rw [if_neg hcommit]
    refine ⟨.refl u, fun w' hw' ↦ ⟨fun ok hok hmade ↦ ?_, fun _ _ ↦ trivial⟩⟩
    split at hok
    · rename_i hheard
      obtain ⟨hup, -, hnodup⟩ := hheard
      obtain hnone | ⟨ok', hsome⟩ := (u.requests.lookup req).eq_none_or_eq_some
      · exact absurd ⟨hup, hnodup, hnone⟩ hcommit
      · rw [hsome] at hok
        obtain rfl := Except.ok.inj hok
        obtain rfl : ok' = true := hmade
        obtain ⟨before, after, hrequests, -⟩ := List.lookup_eq_some_iff.mp hsome
        exact ⟨u, hu, hw', by simp [hrequests]⟩
    · cases hok

/-! ## Attempts -/

/-- The attempt is told as the `n`-th of the identity: as the same attempt, or under the same
request. -/
def Recorded (h : Digests) (told : List Told) (id : PassIdentity) (batch : String) (a : Attempt)
    (n : ℕ) : Prop :=
  ∃ e, Numbered h told e n ∧ h.identity e.id = h.identity id ∧
    (e.id.repo = id.repo ∧ e.attempt = a ∨ h.attempt e.batch e.attempt = h.attempt batch a)

theorem Recorded.mono {told told' : List Told} {id : PassIdentity} {batch : String} {a : Attempt}
    {n : ℕ} (hr : Recorded h told id batch a n) (hpre : told <+: told') :
    Recorded h told' id batch a n := by
  obtain ⟨e, hnum, hid, hsame⟩ := hr
  exact ⟨e, hnum.mono hpre, hid, hsame⟩

/-- The attempts are between as they were before and after, where the summary is. -/
theorem Onward.between {u₀ u₁ u : World} (h₁ : Onward h u₀ u₁) (h₂ : Onward h u₁ u)
    (hw : Kept h u₀) {i i' : Records.Item (Owned Summary)}
    (hi : u₀.store.items (.summary repo hash) = some i)
    (hi' : u.store.items (.summary repo hash) = some i') (hrev : i'.modRev = i.modRev) :
    attemptsOf h u₁.told repo hash = attemptsOf h u₀.told repo hash := by
  have hle := (hw.dated (.summary repo hash) i hi).1
  have hle' := h₁.later.head
  rcases h₁.moved repo hash with hsame | hmoved
  · exact hsame
  · exfalso
    rcases h₂.later.written (.summary repo hash) with hk | hk
    · have hlt := hmoved i' (hk ▸ hi')
      omega
    · have hlt := hk i' hi'
      omega

/-- **The summary counts up to the latest attempt**, which stands as told or was collected. -/
theorem Kept.latest (hw : Kept h w) {s : Summary} {e : Written}
    (hs : summaryOf (attemptsOf h w.told repo hash) = some s)
    (he : (attemptsOf h w.told repo hash).getLast? = some e) :
    (attemptsOf h w.told repo hash).length = s.attempts ∧
      (∀ i, w.store.items (.attempt repo hash s.attempts) = some i →
        i.value.data = some e.attempt) ∧
      (w.store.items (.attempt repo hash s.attempts) = none →
        .collected (.attempt repo hash s.attempts) ∈ w.told) := by
  have hlen := attempts_of_summaryOf hs
  obtain ⟨l, hl⟩ : ∃ l, attemptsOf h w.told repo hash = l ++ [e] := List.getLast?_eq_some_iff.mp he
  have hn : s.attempts = l.length + 1 := by
    rw [hlen, hl, List.length_append, List.length_singleton]
  have hget : (attemptsOf h w.told repo hash)[l.length]? = some e := by
    rw [hl, List.getElem?_concat_length]
  rw [hn]
  refine ⟨by rw [← hlen, hn], fun i hi ↦ ?_, hw.gone repo hash _ e hget⟩
  rw [(hw.stands repo hash _ e i hget hi).1]

/-- An attempt that is put is told, where it is another than the latest. -/
theorem putAttempt_keeps {id : PassIdentity} {batch : String} {a : Attempt} {policy : FaultPolicy}
    {u₀ : World} (hu₀ : Kept h u₀) (hon : Onward h u₀ w)
    {cur : Option (Records.Item (Owned Summary))} {prev : Option Summary}
    (hcur : u₀.store.items (.summary id.repo (h.identity id)) = cur)
    (hprev : cur.map (·.value.data) = prev.map some)
    (hanother : ∀ u, Onward h w u →
      (u.store.items (.summary id.repo (h.identity id))).map (·.modRev) = cur.map (·.modRev) →
      ∀ e', (attemptsOf h u.told id.repo (h.identity id)).getLast? = some e' →
        e'.attempt = a → .collected (.attempt id.repo (h.identity id)
          (attemptsOf h u.told id.repo (h.identity id)).length) ∈ u.told) :
    (putAttempt h id batch a policy cur prev).Keeps (Onward h) (Step h)
      (fun ok w' ↦ ok = true → Recorded h w'.told id batch a (prev.elim 0 (·.attempts) + 1))
      (fun _ ↦ True) w := by
  rw [putAttempt]
  refine (commit_keeps fun u hu _ htakes ↦ ?_).imp fun ok w' hok hmade ↦ ?_
  · have hku := (hon.trans hu).kept hu₀
    have hrev : (u.store.items (.summary id.repo (h.identity id))).map (·.modRev) =
        cur.map (·.modRev) := by
      have hholds := Records.holds_of_takes htakes (List.mem_cons_of_mem _ List.mem_cons_self)
      simpa [Records.Compare.holds] using hholds
    have hsame : u.store.items (.summary id.repo (h.identity id)) = cur := by
      obtain hnone | ⟨i, hi⟩ := cur.eq_none_or_eq_some
      · rw [hnone] at hrev ⊢
        exact Option.map_eq_none_iff.mp hrev
      · rw [hi] at hrev hcur ⊢
        obtain ⟨i', hi', hmod⟩ := Option.map_eq_some_iff.mp hrev
        rw [hi', ((hon.trans hu).unmoved hu₀ hcur hi' hmod).1]
    refine .of_made (onward_attempt hku hsame hprev (hanother u hu hrev)) fun k _ hdelete ↦ ?_
    simp [attemptTxn] at hdelete
  · obtain ⟨u, hu, hw', hmem⟩ := hok hmade
    obtain ⟨e, hnum, hid, hd⟩ := (hon.trans hu).kept hu₀ |>.answered _ _ _ hmem
    exact ⟨e, hnum.mono hw'.told, hid, .inr hd⟩

/-- The attempt that the summary counts up to, as it was at some moment. -/
theorem isLatest_keeps {id : PassIdentity} (batch : String) {a : Attempt} {s : Summary}
    (hw : Kept h w) : (isLatest h id a s).Keeps (Onward h) (Step h)
      (fun b w' ↦ (b = true → Recorded h w'.told id batch a s.attempts) ∧
        (b = false → ∃ u, Onward h w u ∧ Onward h u w' ∧
          ∀ i, u.store.items (.attempt id.repo (h.identity id) s.attempts) = some i →
            i.value.data ≠ some a)) (fun _ ↦ True) w := by
  rw [isLatest]
  refine keeps_then hw get_keeps fun i w₁ hw₁ h₁ hread ↦ ?_
  obtain ⟨u, hu, hu₁, hi⟩ := hread
  obtain rfl | ⟨i, rfl⟩ := i.eq_none_or_eq_some
  · refine Verb.keeps_pure fun w' hw' ↦ ⟨fun hb ↦ Bool.noConfusion hb, fun _ ↦
      ⟨u, hu, hu₁.trans hw', fun j hj ↦ ?_⟩⟩
    rw [hi] at hj
    cases hj
  · refine decoded_keeps fun last hlast ↦ Verb.keeps_pure fun w' hw' ↦ ⟨fun hb ↦ ?_, fun hb ↦ ?_⟩
    · obtain rfl : last = a := of_decide_eq_true hb
      obtain ⟨e, hnum, hid, hdata⟩ := (hu.kept hw).stored _ _ _ i hi
      obtain ⟨hrepo, hhash⟩ := Prod.mk.inj hid
      refine ⟨e, hnum.mono (hu₁.told.trans hw'.told), hhash, .inl ⟨hrepo, ?_⟩⟩
      exact Option.some.inj (hdata.symm.trans hlast)
    · refine ⟨u, hu, hu₁.trans hw', fun j hj ↦ ?_⟩
      rw [hi] at hj
      obtain rfl := Option.some.inj hj
      rw [hlast]
      exact fun heq ↦ of_decide_eq_false hb (Option.some.inj heq)

/-- **An attempt whose number is answered is told under it.** -/
theorem recordAttempt_keeps {id : PassIdentity} {batch : String} {a : Attempt}
    {policy : FaultPolicy} : ∀ (tries : ℕ) {w : World}, Kept h w →
      (recordAttempt h id batch a policy tries).Keeps (Onward h) (Step h)
        (fun n w' ↦ Recorded h w'.told id batch a n) (fun _ ↦ True) w
  | 0, _, _ => fun _ _ ↦ trivial
  | tries + 1, w, hw => by
    rw [recordAttempt]
    refine keeps_then hw get_keeps fun i w₁ hw₁ h₁ hread ↦ ?_
    obtain ⟨u, hu, hu₁, hi⟩ := hread
    have hku := hu.kept hw
    obtain rfl | ⟨i, rfl⟩ := i.eq_none_or_eq_some
    · refine keeps_then hw₁ (putAttempt_keeps hku hu₁ hi rfl
        fun u' hu' hrev e' he' ↦ ?_) fun ok w₂ hw₂ _ hok ↦ ?_
      · -- There is no latest attempt where there is no summary.
        have hsummary := ((hu₁.trans hu').kept hku).summary id.repo (h.identity id)
        rw [Option.map_eq_none_iff.mp hrev] at hsummary
        rw [summaryOf_eq_none.mp (Option.map_eq_none_iff.mp hsummary.symm)] at he'
        cases he'
      · by_cases hmade : ok = true
        · rw [if_pos hmade]
          exact Verb.keeps_pure fun w' hw' ↦ (hok hmade).mono hw'.told
        · rw [if_neg hmade]
          exact recordAttempt_keeps tries hw₂
    · refine decoded_keeps fun s hs ↦ ?_
      refine keeps_then hw₁ (isLatest_keeps batch hw₁) fun b w₂ hw₂ h₂ hlatest ↦ ?_
      by_cases hb : b = true
      · rw [if_pos hb]
        exact Verb.keeps_pure fun w' hw' ↦ (hlatest.1 hb).mono hw'.told
      · rw [if_neg hb]
        obtain ⟨v, hv, hv₂, hother⟩ := hlatest.2 (Bool.eq_false_iff.mpr hb)
        refine keeps_then hw₂ (putAttempt_keeps hku
          (hu₁.trans h₂) hi (by rw [Option.map_some, hs, Option.map_some])
          fun u' hu' hrev e' he' ↦ ?_) fun ok w₃ hw₃ _ hok ↦ ?_
        · -- The latest attempt is the one that was read, or was gone by then.
          obtain ⟨i', hi', hmod⟩ := Option.map_eq_some_iff.mp hrev
          have hsum : summaryOf (attemptsOf h u.told id.repo (h.identity id)) = some s :=
            hku.summaryOf_eq hi (by rw [Option.map_some, hs]; rfl)
          have hbefore := (hu₁.trans hv).between (hv₂.trans hu') hku hi hi' hmod
          have hafter := ((hu₁.trans h₂).trans hu').unmoved hku hi hi' hmod |>.2
          have hkv := (hu₁.trans hv).kept hku
          rw [hafter] at he' ⊢
          rw [← hbefore] at he' hsum ⊢
          obtain ⟨hlen, hstands, hgone⟩ := hkv.latest hsum he'
          rw [hlen]
          obtain hnone | ⟨j, hj⟩ := (v.store.items (.attempt id.repo (h.identity id)
            s.attempts)).eq_none_or_eq_some
          · exact fun _ ↦ (hv₂.trans hu').told.subset (hgone hnone)
          · intro heq
            exact absurd (heq ▸ hstands j hj) (hother j hj)
        · by_cases hmade : ok = true
          · rw [if_pos hmade]
            exact Verb.keeps_pure fun w' hw' ↦ (hok hmade).mono hw'.told
          · rw [if_neg hmade]
            exact recordAttempt_keeps tries hw₃

/-! ## Reds, faults and refusals -/

theorem markProven_keeps {id : PassIdentity} {proven : List (String × String)} {at_ : ℕ}
    (hw : Kept h w) : (markProven h id proven at_).Keeps (Onward h) (Step h) (fun _ _ ↦ True)
      (fun _ ↦ True) w := by
  rw [markProven]
  obtain hnone | ⟨m, hm⟩ := (proven.find? (· ∉ id.members)).eq_none_or_eq_some
  · have hmem : ∀ m ∈ proven, m ∈ id.members := fun m hm ↦ by
      simpa using List.find?_eq_none.mp hnone m hm
    rw [hnone]
    by_cases hempty : proven.isEmpty = true
    · dsimp only
      rw [if_pos hempty]
      exact fun _ _ ↦ trivial
    · dsimp only
      rw [if_neg hempty]
      refine keeps_then hw get_keeps fun i w₁ hw₁ h₁ hread ↦ ?_
      obtain ⟨u, hu, hu₁, hi⟩ := hread
      obtain rfl | ⟨i, rfl⟩ := i.eq_none_or_eq_some
      · exact fun _ _ ↦ trivial
      · refine decoded_keeps fun s hs ↦ ?_
        by_cases hred : s.class_.isRed = true
        · rw [if_neg (by simpa using hred)]
          have hsummary : summaryOf (attemptsOf h u.told id.repo (h.identity id)) = some s :=
            (hu.kept hw).summaryOf_eq hi (by rw [Option.map_some, hs]; rfl)
          refine keeps_then hw₁ (commit_keeps fun v hv hnodup _ ↦ ?_) fun _ _ _ _ _ _ _ ↦ trivial
          refine .of_made (onward_proven (fun _ _ _ ↦ Req.noConfusion) ?_
            hmem ⟨u.told, (hu₁.trans hv).told, ?_⟩) fun k _ hdelete ↦ ?_
          · rwa [List.map_map] at hnodup
          · rw [hsummary]
            exact hred
          · obtain ⟨m, -, heq⟩ := List.mem_map.mp hdelete
            cases heq
        · rw [if_pos (by simpa using hred)]
          exact fun _ _ ↦ trivial
  · rw [hm]
    exact fun _ _ ↦ trivial

theorem recordLaneFault_keeps {base imageDigest : String} {f : LaneFault} {nonce : ℕ} :
    (recordLaneFault h repo base imageDigest f nonce).Keeps (Onward h) (Step h)
      (fun _ _ ↦ True) (fun _ ↦ True) w := by
  rw [recordLaneFault]
  by_cases hcause : f.cause.isLane = true
  · rw [if_neg (by simpa using hcause)]
    refine (commit_keeps fun u hu _ htakes ↦ ?_).imp fun _ _ _ ↦ trivial
    have hnone : u.store.items (.fault repo base imageDigest) = none :=
      Records.holds_modRev_none.mp (Records.holds_of_takes htakes List.mem_cons_self)
    refine .of_made (onward_stopped (fun _ _ _ ↦ Req.noConfusion) hcause hnone)
      fun k _ hdelete ↦ ?_
    simp at hdelete
  · rw [if_pos (by simpa using hcause)]
    exact fun _ _ ↦ trivial

theorem clearLaneFault_keeps {base imageDigest : String} {nonce : ℕ} (hw : Kept h w) :
    (clearLaneFault h repo base imageDigest nonce).Keeps (Onward h) (Step h)
      (fun _ _ ↦ True) (fun _ ↦ True) w := by
  rw [clearLaneFault]
  refine keeps_then hw (commit_keeps fun u hu _ _ ↦ ?_) fun _ _ _ _ _ _ _ ↦ trivial
  refine .of_made (onward_cleared fun _ _ _ ↦ Req.noConfusion) fun k hk hdelete ↦ ?_
  obtain rfl : k = .fault repo base imageDigest := by simpa using hdelete
  exact hk repo base imageDigest rfl

theorem get_within {k : Key} : (get k).Within (Onward h) (Step h) :=
  fun _ ↦ get_keeps.imp fun _ _ _ ↦ trivial

theorem decoded_within {α : Type} {k : Key} {v : Owned α} :
    (decoded k v).Within (Onward h) (Step h) := by
  rw [decoded]
  obtain hnone | ⟨a, ha⟩ := v.data.eq_none_or_eq_some
  · rw [hnone]
    exact Verb.within_throw
  · rw [ha]
    exact Verb.within_pure

theorem redOn_within {id : PassIdentity} {m : String × String} :
    (redOn id m).Within (Onward h) (Step h) := by
  refine get_within.bind Onward.refl fun i ↦ ?_
  obtain rfl | ⟨i, rfl⟩ := i.eq_none_or_eq_some
  · exact Verb.within_pure
  · refine decoded_within.bind Onward.refl fun r ↦ ?_
    split
    · exact Verb.within_pure
    · refine (get_within.bind Onward.refl fun _ ↦ Verb.within_pure).bind Onward.refl fun b ↦ ?_
      split
      · exact Verb.within_pure
      · exact Verb.within_pure

theorem redMember_within {id : PassIdentity} {ms : List (String × String)} :
    (redMember id ms).Within (Onward h) (Step h) := by
  induction ms with
  | nil => exact Verb.within_pure
  | cons m ms ih =>
    refine redOn_within.bind Onward.refl fun r ↦ ?_
    obtain rfl | ⟨r, rfl⟩ := r.eq_none_or_eq_some
    · exact ih
    · exact Verb.within_pure

theorem verdictOf_within {id : PassIdentity} {s : Summary} :
    (verdictOf h id s).Within (Onward h) (Step h) := by
  rw [verdictOf]
  split
  · exact Verb.within_pure
  · exact Verb.within_pure
  · have hnow : nowMs.Within (Onward h) (Step h) := fun _ ↦ nowMs_keeps.imp fun _ _ _ ↦ trivial
    refine hnow.bind Onward.refl fun now ↦ ?_
    split
    · exact Verb.within_pure
    · exact Verb.within_pure
  · exact Verb.within_pure

theorem refuses_within {id : PassIdentity} : (refuses h id).Within (Onward h) (Step h) := by
  refine get_within.bind Onward.refl fun i ↦ ?_
  obtain rfl | ⟨i, rfl⟩ := i.eq_none_or_eq_some
  · refine get_within.bind Onward.refl fun i ↦ ?_
    obtain rfl | ⟨i, rfl⟩ := i.eq_none_or_eq_some
    · exact redMember_within
    · refine decoded_within.bind Onward.refl fun s ↦ verdictOf_within.bind Onward.refl fun r ↦ ?_
      obtain rfl | ⟨r, rfl⟩ := r.eq_none_or_eq_some
      · exact redMember_within
      · exact Verb.within_pure
  · exact decoded_within.bind Onward.refl fun _ ↦ Verb.within_pure

/-- What is known of a call that has ended. -/
def Answered (h : Digests) : Call → Except LedgerError Answer → World → Prop
  | .recordAttempt id batch a _, .ok (.recorded n), w => Recorded h w.told id batch a n
  | _, _, _ => True

theorem program_keeps (c : Call) (hw : Kept h w) :
    Prog.Keeps (Onward h) (Step h) (Answered h c) (c.program h) w := by
  have hof {x : Program Answer} {Q : Answer → World → Prop}
      (hx : x.Keeps (Onward h) (Step h) Q (fun _ ↦ True) w)
      (hok : ∀ a w', Q a w' → Answered h c (.ok a) w')
      (herr : ∀ e w', Answered h c (.error e) w') :
      Prog.Keeps (Onward h) (Step h) (Answered h c) x w := by
    refine Prog.Keeps.imp hx id id fun r w' hr ↦ ?_
    cases r with
    | ok a => exact hok a w' hr
    | error e => exact herr e w'
  cases c with
  | recordAttempt id batch a policy =>
    have hx : (Call.program h (.recordAttempt id batch a policy)).Keeps (Onward h) (Step h)
        (fun r w' ↦ ∃ n, r = .recorded n ∧ Recorded h w'.told id batch a n) (fun _ ↦ True) w :=
      keeps_then hw (recordAttempt_keeps 2 hw) fun n w₁ _ _ hn ↦
        Verb.keeps_pure fun w' hw' ↦ ⟨n, rfl, hn.mono hw'.told⟩
    refine hof hx (fun r w' hr ↦ ?_) fun _ _ ↦ trivial
    obtain ⟨n, rfl, hn⟩ := hr
    exact hn
  | markProven id proven at_ =>
    exact hof (Q := fun _ _ ↦ True) (keeps_then hw (markProven_keeps hw)
      fun _ _ _ _ _ _ _ ↦ trivial) (fun _ _ _ ↦ trivial) fun _ _ ↦ trivial
  | recordLaneFault repo base imageDigest f nonce =>
    exact hof (Q := fun _ _ ↦ True) (keeps_then hw recordLaneFault_keeps
      fun _ _ _ _ _ _ _ ↦ trivial) (fun _ _ _ ↦ trivial) fun _ _ ↦ trivial
  | clearLaneFault repo base imageDigest nonce =>
    exact hof (Q := fun _ _ ↦ True) (keeps_then hw (clearLaneFault_keeps hw)
      fun _ _ _ _ _ _ _ ↦ trivial) (fun _ _ _ ↦ trivial) fun _ _ ↦ trivial
  | refuses id =>
    exact hof (Q := fun _ _ ↦ True) (keeps_then hw (refuses_within w)
      fun _ _ _ _ _ _ _ ↦ trivial) (fun _ _ _ ↦ trivial) fun _ _ ↦ trivial

/-! ## Around the programs -/

/-- A record whose owners are gone is collected, and the log goes on. -/
theorem onward_collected {k : Key} (hw : Kept h w) (hk : orphan w.store k = true) :
    Onward h w { w with
      store := w.store.commit [.delete k], told := w.told ++ [.collected k] } := by
  obtain ⟨hledger, howners⟩ : k.isLedger = true ∧ ∀ i, w.store.items k = some i →
      k.owners i.value ≠ [] := by
    rw [orphan, Bool.and_eq_true] at hk
    refine ⟨hk.1, fun i hi ↦ ?_⟩
    have hany := hk.2
    rw [hi, Option.any_some, Bool.and_eq_true] at hany
    simpa using hany.1
  have hgone : (w.store.commit [.delete k]).items k = none := Records.items_commit_delete
  have hother {k' : Key} (hne : k' ≠ k) :
      (w.store.commit [.delete k]).items k' = w.store.items k' :=
    Records.items_commit_of_notMem (by simpa [Records.Op.key] using hne)
  have hpre : w.told <+: w.told ++ [.collected k] := List.prefix_append _ _
  have hattempts (repo hash : String) : attemptsOf h (w.told ++ [.collected k]) repo hash =
      if k = .summary repo hash then [] else attemptsOf h w.told repo hash := by
    rw [attemptsOf_concat]
    rfl
  have hkept : Kept h { w with
      store := w.store.commit [.delete k], told := w.told ++ [.collected k] } := by
    refine ⟨hw.dated.commit _, fun repo hash ↦ ?_, fun repo hash n e i ↦ ?_, fun repo hash n e ↦ ?_,
      fun repo hash n i ↦ ?_, fun repo m ↦ ?_, fun repo base imageDigest ↦ ?_, ?_,
      fun hash n d hr ↦ ?_⟩
    · dsimp only
      rw [hattempts]
      by_cases heq : k = .summary repo hash
      · subst heq
        rw [hgone, if_pos rfl]
        rfl
      · rw [hother (Ne.symm heq), if_neg heq]
        exact hw.summary repo hash
    · dsimp only
      rw [hattempts]
      by_cases heq : k = .summary repo hash
      · rw [if_pos heq]
        exact fun hget ↦ by simp at hget
      · rw [if_neg heq, hother (Ne.symm heq)]
        intro hget hi
        by_cases heq' : k = .attempt repo hash (n + 1)
        · subst heq'
          rw [hgone] at hi
          cases hi
        · rw [hother (Ne.symm heq')] at hi
          exact hw.stands repo hash n e i hget hi
    · dsimp only
      rw [hattempts]
      by_cases heq : k = .summary repo hash
      · rw [if_pos heq]
        exact fun hget ↦ by simp at hget
      · rw [if_neg heq]
        intro hget hi
        by_cases heq' : k = .attempt repo hash (n + 1)
        · rw [heq']
          simp
        · rw [hother (Ne.symm heq')] at hi
          exact hpre.subset (hw.gone repo hash n e hget hi)
    · intro hi
      have hne : Key.attempt repo hash n ≠ k := by
        rintro rfl
        rw [hgone] at hi
        cases hi
      rw [hother hne] at hi
      obtain ⟨e, hnum, hid, hdata⟩ := hw.stored repo hash n i hi
      exact ⟨e, hnum.mono hpre, hid, hdata⟩
    · dsimp only
      rw [provenOf_concat]
      show _ = (if k = .byMember repo m then none else provenOf h w.told repo m).map _
      by_cases heq : k = .byMember repo m
      · subst heq
        rw [hgone, if_pos rfl]
        rfl
      · rw [hother (Ne.symm heq), if_neg heq]
        exact hw.byMember repo m
    · dsimp only
      rw [faultOf_concat]
      have hfault := hw.fault repo base imageDigest
      by_cases heq : k = .fault repo base imageDigest
      · -- The fault of a lane has no owners.
        subst heq
        obtain hnone | ⟨i, hi⟩ := (w.store.items (.fault repo base imageDigest)).eq_none_or_eq_some
        · rw [orphan, hnone] at hk
          simp at hk
        · rw [hi, Option.map_some] at hfault
          obtain ⟨f, -, hf⟩ := Option.map_eq_some_iff.mp hfault.symm
          exact absurd (congrArg Owned.owners hf).symm (howners i hi)
      · rw [hother (Ne.symm heq)]
        exact hfault
    · exact hw.lawful.concat (fun _ _ heq ↦ Told.noConfusion heq)
        (fun _ _ _ heq ↦ Told.noConfusion heq) fun _ _ _ _ heq ↦ Told.noConfusion heq
    · obtain ⟨e, hnum, hid, hd⟩ := hw.answered hash n d hr
      exact ⟨e, hnum.mono hpre, hid, hd⟩
  refine ⟨fun _ ↦ hkept, Records.later_commit _ _, hpre, le_rfl, fun repo hash ↦ ?_⟩
  dsimp only
  rw [hattempts]
  by_cases heq : k = .summary repo hash
  · refine .inr fun i hi ↦ ?_
    subst heq
    rw [hgone] at hi
    cases hi
  · rw [if_neg heq]
    exact .inl rfl

theorem env_onward (e : Env) (w : World) (hw : Kept h w) : Onward h w (env e w) := by
  have hrefl (w' : World) (hstore : w'.store = w.store) (htold : w'.told = w.told)
      (hnow : w.now ≤ w'.now)
      (hrequests : ∀ r, (r, true) ∈ w'.requests → (r, true) ∈ w.requests) : Onward h w w' := by
    refine ⟨fun hw ↦ hw.congr (hstore ▸ hw.dated) (fun k _ ↦ by rw [hstore]) htold hrequests, ?_,
      ?_, hnow, fun _ _ ↦ .inl (by rw [htold])⟩
    · rw [hstore]
      exact .refl _
    · rw [htold]
  cases e with
  | reach up heard => exact hrefl _ rfl rfl le_rfl fun _ ↦ id
  | tick ms => exact hrefl _ rfl rfl (Nat.le_add_right _ _) fun _ ↦ id
  | forget r => exact hrefl _ rfl rfl le_rfl fun _ hr ↦ (List.mem_filter.mp hr).1
  | other t =>
    rw [env]
    by_cases hspares : spares t = true
    · rw [if_pos hspares]
      refine ⟨fun hw ↦ hw.congr (hw.dated.run t) (fun k hk ↦ ?_) rfl fun _ ↦ id,
        Records.later_run t w.store, List.prefix_refl _, le_rfl, fun _ _ ↦ .inl rfl⟩
      dsimp only
      rw [Records.Txn.run]
      split
      · refine Records.items_commit_of_notMem fun hmem ↦ ?_
        obtain ⟨o, ho, rfl⟩ := List.mem_map.mp hmem
        have hspare := List.all_eq_true.mp hspares o ho
        rw [hk] at hspare
        cases hspare
      · rfl
    · rw [if_neg hspares]
      exact .refl w
  | collect k =>
    rw [env]
    by_cases hk : orphan w.store k = true
    · rw [if_pos hk]
      exact onward_collected hw hk
    · rw [if_neg hk]
      exact .refl w

end Programs

end Spira.Verdicts
