import Spira.Verdicts.Kept

/-!
# Runs of the ledger

In every run, of any number of callers in any order, no attempt is lost or counted twice
(`ledger_kept`), no verdict is taken from under its owners (`collected_orphans`), and nobody is red
who was not proven so (`redMember_proven`).
-/

set_option autoImplicit false

namespace Spira.Verdicts

open Controller.Planner (PassIdentity)

/-- Nothing was told of the ledger yet, and it holds nothing. -/
structure Fresh (w : World) : Prop where
  dated : w.store.Dated
  empty : ∀ k, k.isLedger → w.store.items k = none
  told : w.told = []
  requests : w.requests = []

section Run

variable {h : Digests} {start : World}

theorem Fresh.kept (hs : Fresh start) : Kept h start := by
  refine ⟨hs.dated, fun repo hash ↦ ?_, fun repo hash n e i hget ↦ ?_, fun repo hash n e hget ↦ ?_,
    fun repo hash n i hi ↦ ?_, fun repo m ↦ ?_, fun repo base imageDigest ↦ ?_, ?_,
    fun hash n d hr ↦ ?_⟩
  · rw [hs.empty (.summary repo hash) rfl, hs.told]
    rfl
  · rw [hs.told] at hget
    simp [attemptsOf] at hget
  · rw [hs.told] at hget
    simp [attemptsOf] at hget
  · rw [hs.empty (.attempt repo hash n) rfl] at hi
    cases hi
  · rw [hs.empty (.byMember repo m) rfl, hs.told]
    rfl
  · rw [hs.empty (.fault repo base imageDigest) rfl, hs.told]
    rfl
  · rw [hs.told]
    exact .nil
  · rw [hs.requests] at hr
    cases hr

/-- At every point of every run the ledger is kept, and so does every program go on. -/
theorem run_kept (hs : Fresh start) (turns : Turns) :
    Kept h (run h start turns).state ∧ ∀ t ∈ (run h start turns).threads,
      t.2.Keeps (Onward h) (Step h) (Answered h t.1) (run h start turns).state :=
  Pool.keeps_run (G := Step h) Onward.refl Onward.trans Step.refl (fun hg ↦ hg.onward)
    (fun hw hon ↦ hon.kept hw) env_onward (fun d ↦ d.elim) (fun c _ hw ↦ program_keeps c hw)
    hs.kept turns

/-- **The ledger loses no attempt and counts none twice.**  At every point of every run, each
summary is what the attempts told of its identity come to; each of these stands as it was told, or
was collected; two of them in a row are the same only where the first was collected; and an attempt
whose number was answered is told under it. -/
theorem ledger_kept (hs : Fresh start) (turns : Turns) :
    (∀ repo hash, ((run h start turns).state.store.items (.summary repo hash)).map (·.value.data) =
      (summaryOf (attemptsOf h (run h start turns).state.told repo hash)).map some) ∧
    (∀ repo hash n e, (attemptsOf h (run h start turns).state.told repo hash)[n]? = some e →
      ((run h start turns).state.store.items (.attempt repo hash (n + 1))).map (·.value) =
          some ⟨owners e.id e.batch e.attempt.class_, some e.attempt⟩ ∨
        .collected (.attempt repo hash (n + 1)) ∈ (run h start turns).state.told) ∧
    (∀ pre post e e', (run h start turns).state.told = pre ++ .attempt e :: post →
      (attemptsOf h pre e.id.repo (h.identity e.id)).getLast? = some e' → e'.attempt = e.attempt →
        .collected (.attempt e.id.repo (h.identity e.id)
          (attemptsOf h pre e.id.repo (h.identity e.id)).length) ∈ pre) ∧
    ∀ (i : ℕ) id batch a policy n, (run h start turns).threads[i]? =
        some (Call.recordAttempt id batch a policy, Prog.done (Except.ok (Answer.recorded n))) →
      Recorded h (run h start turns).state.told id batch a n := by
  obtain ⟨hw, hthreads⟩ := run_kept (h := h) hs turns
  refine ⟨hw.summary, fun repo hash n e hget ↦ ?_, hw.lawful.another,
    fun i id batch a policy n hi ↦ ?_⟩
  · obtain hnone | ⟨i, hi⟩ := ((run h start turns).state.store.items
      (.attempt repo hash (n + 1))).eq_none_or_eq_some
    · exact .inr (hw.gone repo hash n e hget hnone)
    · left
      rw [hi, Option.map_some]
      exact congrArg some (hw.stands repo hash n e i hget hi).1
  · exact hthreads _ (List.mem_of_getElem? hi) _ (Onward.refl _)

/-- A turn takes a record of the ledger that is no lane's fault only as an orphan. -/
theorem orphan_of_taken (hs : Fresh start) (turns : Turns) (m : Turn Env Empty Call) {k : Key}
    (hledger : k.isLedger) (hk : ∀ repo base imageDigest, k ≠ .fault repo base imageDigest)
    (hsome : ((run h start turns).state.store.items k).isSome)
    (hnone : (run h start (turns ++ [m])).state.store.items k = none) :
    orphan (run h start turns).state.store k = true := by
  obtain ⟨-, hthreads⟩ := run_kept (h := h) hs turns
  have hstep : run h start (turns ++ [m]) =
      Pool.move env (fun d _ ↦ d.elim) (Call.program h) (run h start turns) m :=
    Pool.run_append start turns [m]
  rw [hstep] at hnone
  have hstays {w' : World} (hk' : (w'.store.items k).isSome) (heq : w'.store.items k = none) :
      False := by
    rw [heq] at hk'
    cases hk'
  cases m with
  | spawn c => exact (hstays hsome hnone).elim
  | restart d => exact d.elim
  | turn i =>
    have hturn : Step h (run h start turns).state
        (Pool.move env (fun d _ ↦ d.elim) (Call.program h) (run h start turns)
          (.turn i : Turn Env Empty Call)).state :=
      Pool.keeps_turn Onward.refl Step.refl hthreads i
    exact (hstays (hturn.stays k hk hsome) hnone).elim
  | env e =>
    replace hnone : (env e (run h start turns).state).store.items k = none := hnone
    cases e with
    | reach up heard => exact (hstays hsome hnone).elim
    | tick ms => exact (hstays hsome hnone).elim
    | forget r => exact (hstays hsome hnone).elim
    | other t =>
      have hsame : (env (.other t) (run h start turns).state).store.items k =
          (run h start turns).state.store.items k := by
        rw [env]
        by_cases hspares : spares t = true
        · rw [if_pos hspares]
          show (t.run _).items k = _
          rw [Records.Txn.run]
          split
          · refine Records.items_commit_of_notMem fun hmem ↦ ?_
            obtain ⟨o, ho, rfl⟩ := List.mem_map.mp hmem
            have hspare := List.all_eq_true.mp hspares o ho
            rw [hledger] at hspare
            cases hspare
          · rfl
        · rw [if_neg hspares]
      exact (hstays (hsame ▸ hsome) hnone).elim
    | collect k' =>
      rw [env] at hnone
      by_cases horphan : orphan (run h start turns).state.store k' = true
      · rw [if_pos horphan] at hnone
        by_cases heq : k = k'
        · exact heq ▸ horphan
        · have hsame : ((run h start turns).state.store.commit [.delete k']).items k =
              (run h start turns).state.store.items k :=
            Records.items_commit_of_notMem (by simpa [Records.Op.key] using heq)
          exact (hstays (hsame ▸ hsome) hnone).elim
      · rw [if_neg horphan] at hnone
        exact (hstays hsome hnone).elim

theorem owners_of_orphan {s : Store} {k : Key} {i : Records.Item k.Val} (hk : orphan s k = true)
    (hi : s.items k = some i) : ∀ o ∈ k.owners i.value, s.items o = none := by
  rw [orphan, hi, Option.any_some, Bool.and_eq_true, Bool.and_eq_true] at hk
  exact fun o ho ↦ Option.isNone_iff_eq_none.mp (List.all_eq_true.mp hk.2.2 o ho)

/-- **No verdict is taken from under its owners.**  A turn of a run that takes an attempt's record
away does so only where none of the attempt's owners is left, be it a member's record or a round's;
and one that takes a summary away only where none is left of any attempt that the summary counts. -/
theorem collected_orphans (hs : Fresh start) (turns : Turns) (m : Turn Env Empty Call)
    (repo hash : String) (n : ℕ) (e : Written)
    (hget : (attemptsOf h (run h start turns).state.told repo hash)[n]? = some e)
    (hstands : ((run h start turns).state.store.items (.attempt repo hash (n + 1))).isSome)
    (htaken : (run h start (turns ++ [m])).state.store.items (.attempt repo hash (n + 1)) = none ∨
      (run h start (turns ++ [m])).state.store.items (.summary repo hash) = none) :
    ∀ o ∈ owners e.id e.batch e.attempt.class_,
      (run h start turns).state.store.items o = none := by
  obtain ⟨hw, -⟩ := run_kept (h := h) hs turns
  obtain ⟨i, hi⟩ := Option.isSome_iff_exists.mp hstands
  obtain ⟨hvalue, s, hsum, hsub⟩ := hw.stands repo hash n e i hget hi
  have howners : i.value.owners = owners e.id e.batch e.attempt.class_ := by rw [hvalue]
  rcases htaken with hnone | hnone
  · have horphan := orphan_of_taken hs turns m rfl (fun _ _ _ ↦ Key.noConfusion) hstands hnone
    rw [← howners]
    exact owners_of_orphan horphan hi
  · have horphan := orphan_of_taken hs turns m rfl (fun _ _ _ ↦ Key.noConfusion)
      (by rw [hsum]; rfl) hnone
    rw [← howners]
    exact fun o ho ↦ owners_of_orphan horphan hsum o (hsub ho)

/-- The red of a member was told, and not collected since. -/
theorem provenOf_eq_some {told : List Told} {repo : String} {m : String × String} {r : ProvenRed}
    (hr : provenOf h told repo m = some r) : ∃ pre post id at_,
      told = pre ++ .proven id m at_ :: post ∧ id.repo = repo ∧ r = provenRed h id at_ := by
  induction told using List.reverseRecOn with
  | nil => cases hr
  | append_singleton told t ih =>
    have hrest (hr : provenOf h told repo m = some r) : ∃ pre post id at_,
        told ++ [t] = pre ++ .proven id m at_ :: post ∧ id.repo = repo ∧
          r = provenRed h id at_ := by
      obtain ⟨pre, post, id, at_, rfl, hid⟩ := ih hr
      exact ⟨pre, post ++ [t], id, at_, by rw [List.append_assoc, List.cons_append], hid⟩
    rw [provenOf_concat] at hr
    cases t with
    | proven id m' at_ =>
      rw [provenStep] at hr
      by_cases heq : (id.repo, m') = (repo, m)
      · obtain ⟨rfl, rfl⟩ := Prod.mk.inj heq
        rw [if_pos rfl] at hr
        exact ⟨told, [], id, at_, rfl, rfl, (Option.some.inj hr).symm⟩
      · rw [if_neg heq] at hr
        exact hrest hr
    | collected k =>
      rw [provenStep] at hr
      by_cases heq : k = .byMember repo m
      · rw [if_pos heq] at hr
        cases hr
      · rw [if_neg heq] at hr
        exact hrest hr
    | attempt | fault | cleared => exact hrest hr

/-- The fault of a lane was told, and neither cleared nor told again since. -/
theorem faultOf_eq_some {told : List Told} {repo base imageDigest : String} {f : LaneFault}
    (hf : faultOf told repo base imageDigest = some f) : ∃ pre post,
      told = pre ++ .fault repo base imageDigest f :: post ∧
        ∀ t ∈ post, ∀ g, faultStep repo base imageDigest g t = g := by
  induction told using List.reverseRecOn with
  | nil => cases hf
  | append_singleton told t ih =>
    have hrest (hsame : ∀ g, faultStep repo base imageDigest g t = g) : ∃ pre post,
        told ++ [t] = pre ++ .fault repo base imageDigest f :: post ∧
          ∀ t ∈ post, ∀ g, faultStep repo base imageDigest g t = g := by
      rw [faultOf_concat, hsame] at hf
      obtain ⟨pre, post, rfl, hpost⟩ := ih hf
      refine ⟨pre, post ++ [t], by rw [List.append_assoc, List.cons_append], fun t' ht' ↦ ?_⟩
      rcases List.mem_append.mp ht' with ht' | ht'
      · exact hpost t' ht'
      · rw [List.mem_singleton.mp ht']
        exact hsame
    rw [faultOf_concat] at hf
    cases t with
    | fault r b d f' =>
      by_cases heq : (r, b, d) = (repo, base, imageDigest)
      · rw [faultStep, if_pos heq] at hf
        obtain ⟨rfl, hbd⟩ := Prod.mk.inj heq
        obtain ⟨rfl, rfl⟩ := Prod.mk.inj hbd
        obtain rfl := Option.some.inj hf
        exact ⟨told, [], rfl, by simp⟩
      · rw [← faultOf_concat] at hf
        exact hrest fun g ↦ if_neg heq
    | cleared r b d =>
      by_cases heq : (r, b, d) = (repo, base, imageDigest)
      · rw [faultStep, if_pos heq] at hf
        cases hf
      · rw [← faultOf_concat] at hf
        exact hrest fun g ↦ if_neg heq
    | attempt | proven | collected =>
      rw [← faultOf_concat] at hf
      exact hrest fun _ ↦ rfl

/-- **Nobody is red who was not proven, in an identity that was red.**  At every point of every run,
a red that is kept of a member is of an identity of the repository that holds the member at that tip
and whose latest attempt was red at some moment before; and a fault that stops a lane is of a cause
of the lane's own, and the first since the lane's last was cleared. -/
theorem redMember_proven (hs : Fresh start) (turns : Turns) :
    (∀ repo m i, (run h start turns).state.store.items (.byMember repo m) = some i →
      ∃ pre post id at_, (run h start turns).state.told = pre ++ .proven id m at_ :: post ∧
        id.repo = repo ∧ m ∈ id.members ∧ i.value = ⟨[.lifecycle m.1], some (provenRed h id at_)⟩ ∧
        ∃ pre', pre' <+: pre ∧
          (summaryOf (attemptsOf h pre' id.repo (h.identity id))).any (·.class_.isRed)) ∧
    ∀ repo base imageDigest i,
      (run h start turns).state.store.items (.fault repo base imageDigest) = some i →
        ∃ pre post f, (run h start turns).state.told =
            pre ++ .fault repo base imageDigest f :: post ∧
          i.value = ⟨[], some f⟩ ∧ f.cause.isLane ∧ faultOf pre repo base imageDigest = none ∧
          ∀ t ∈ post, ∀ g, faultStep repo base imageDigest g t = g := by
  obtain ⟨hw, -⟩ := run_kept (h := h) hs turns
  refine ⟨fun repo m i hi ↦ ?_, fun repo base imageDigest i hi ↦ ?_⟩
  · have hmember := hw.byMember repo m
    rw [hi, Option.map_some] at hmember
    obtain ⟨r, hr, hvalue⟩ := Option.map_eq_some_iff.mp hmember.symm
    obtain ⟨pre, post, id, at_, htold, rfl, rfl⟩ := provenOf_eq_some hr
    obtain ⟨hmem, hred⟩ := hw.lawful.proven pre post id m at_ htold
    exact ⟨pre, post, id, at_, htold, rfl, hmem, hvalue.symm, hred⟩
  · have hfault := hw.fault repo base imageDigest
    rw [hi, Option.map_some] at hfault
    obtain ⟨f, hf, hvalue⟩ := Option.map_eq_some_iff.mp hfault.symm
    obtain ⟨pre, post, htold, hpost⟩ := faultOf_eq_some hf
    obtain ⟨hcause, hnone⟩ := hw.lawful.fault pre post repo base imageDigest f htold
    exact ⟨pre, post, f, htold, hvalue.symm, hcause, hnone, hpost⟩

end Run

/-! ## Two rounds of one identity -/

namespace Sample

def digests : Digests where
  identity id := id.repo
  attempt batch a := batch ++ a.evidence
  members ms := (ms.map (·.1)).foldl (· ++ ·) ""
  key _ := "key"

def start : World where
  store :=
    { head := 1
      items := fun
        | .lifecycle id => if id = "sp-a" then some ⟨none, 1, 1⟩ else none
        | .round _ batch => if batch = "b1" then some ⟨(), 1, 1⟩ else none
        | _ => none
      keys := [] }
  requests := []
  up := true
  heard := true
  now := 0
  told := []

theorem fresh : Fresh start := by
  refine ⟨fun k i hi ↦ ?_, fun k hk ↦ ?_, rfl, rfl⟩
  · cases k with
    | lifecycle id =>
      replace hi : (if id = "sp-a" then some _ else none) = some i := hi
      split at hi
      · obtain rfl := Option.some.inj hi
        exact ⟨le_rfl, le_rfl⟩
      · cases hi
    | round repo batch =>
      replace hi : (if batch = "b1" then some _ else none) = some i := hi
      split at hi
      · obtain rfl := Option.some.inj hi
        exact ⟨le_rfl, le_rfl⟩
      · cases hi
    | _ => cases hi
  · cases k with
    | lifecycle | round | lane => cases hk
    | _ => rfl

def identity : PassIdentity := ⟨"lane", [("sp-a", "1")], "b0", "i1", "h1", "all"⟩

def red : Attempt := ⟨.red "suite", .planner, [], "one", 5⟩

def green : Attempt := ⟨.green, .judge, [], "two", 9⟩

def policy : FaultPolicy := ⟨10, 2⟩

/-- The green is recorded while the red is, finds the summary moved, and counts after it. -/
def turns : Turns :=
  [.spawn (.recordAttempt identity "b1" red policy),
    .spawn (.recordAttempt identity "b1" green policy),
    .turn 0, .turn 1, .turn 0, .turn 1, .turn 1, .turn 1, .turn 1]

def e₁ : Written := ⟨identity, "b1", policy, red⟩

def e₂ : Written := ⟨identity, "b1", policy, green⟩

theorem told_end : (run digests start turns).state.told = [.attempt e₁, .attempt e₂] := rfl

/-- The round has ended, and its green may go. -/
def ended : Turns := turns ++ [.env (.other ⟨[], [.delete (.round "lane" "b1")]⟩)]

/-- The member is proven red on the red attempt, before the green. -/
def proven : Turns :=
  [.spawn (.recordAttempt identity "b1" red policy), .turn 0, .turn 0,
    .spawn (.markProven identity [("sp-a", "1")] 7), .turn 1, .turn 1]

end Sample

open Sample

theorem ledger_kept_sample :
    ((run digests start turns).state.store.items (.summary "lane" "lane")).map (·.value.data) =
        some (some ⟨.green, 2, 0, none, 9⟩) ∧
      Recorded digests (run digests start turns).state.told identity "b1" green 2 := by
  obtain ⟨hsummary, -, -, hanswered⟩ := ledger_kept (h := digests) fresh turns
  exact ⟨hsummary "lane" "lane", hanswered 1 identity "b1" green policy 2 rfl⟩

theorem collected_orphans_ended :
    (run digests start ended).state.store.items (.round "lane" "b1") = none :=
  collected_orphans (h := digests) fresh ended (.env (.collect (.attempt "lane" "lane" 2)))
    "lane" "lane" 1 e₂ rfl rfl (.inl rfl) _ (List.mem_singleton_self _)

theorem redMember_proven_sample : ∃ pre post id at_,
    (run digests start proven).state.told = pre ++ .proven id ("sp-a", "1") at_ :: post ∧
      id.repo = "lane" ∧ ("sp-a", "1") ∈ id.members := by
  obtain ⟨hmember, -⟩ := redMember_proven (h := digests) fresh proven
  obtain ⟨pre, post, id, at_, htold, hrepo, hmem, -⟩ := hmember "lane" ("sp-a", "1") _ rfl
  exact ⟨pre, post, id, at_, htold, hrepo, hmem⟩

end Spira.Verdicts
