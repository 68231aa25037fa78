import Spira.StateStore.Atomic

/-!
# Watches

A watch polls the log: it reads the head and then the log from its cursor on, a page of whole
transactions at a time, and passes over the pages in which nothing matches.  A watcher polls again
and again, each time from where the answer before left it.  What it has been given, at any time, is
the writes under its prefixes between the revision it started at and its cursor (`Given`), whatever
was committed, jumped over or compacted between any two of its reads.
-/

set_option autoImplicit false

namespace Spira.Store

open KeyPrefix (starts)
open UpdateLog (window)

variable {P : Type}

/-! ## The poll -/

structure Event (P : Type) where
  key : String
  rev : Rev
  value : Option (Object P)
  createRev : Option Rev
  prevModRev : Option Rev
  deriving DecidableEq, Repr

def Event.ofEntry (e : LogEntry String (Object P)) : Event P :=
  ⟨e.key, e.rev, e.value, e.createRev, e.prev⟩

inductive Watched (P : Type)
  /-- Every event of each transaction after `fromRev` under the prefixes; resume from `through`. -/
  | events (events : List (Event P)) (through : ℕ)
  /-- Nothing under the prefixes changed up to `progressRev` before the wait elapsed. -/
  | progress (progressRev : ℕ)
  deriving DecidableEq, Repr

def watchMains : ℕ := 1000
def maxWatchWaitMs : ℕ := 2500

namespace Contract

/-- The log from `from_` on. -/
def readLog (from_ : ℕ) : Run P (List (LogEntry String (Object P))) :=
  Verb.look fun w ↦
    match w.store.log from_ watchMains with
    | .ok log => .ok log
    | .error e => .error (.backend e)

/-- The events of a page under any of the prefixes. -/
def matching (prefixes : List String) (log : List (LogEntry String (Object P))) : List (Event P) :=
  (log.filter fun e ↦ prefixes.any (starts · e.key)).map Event.ofEntry

/-- The loop of a watch, which waits for a commit, or for a while, between two readings. -/
def watchLoop (prefixes : List String) (deadline : ℕ) : ℕ → ℕ → Run P (Watched P)
  | 0, _ => Verb.stuck
  | fuel + 1, cursor => do
    let head ← head
    let log ← readLog cursor
    match log.getLast? with
    | some last =>
      let through := last.rev.main
      let events := matching prefixes log
      if !events.isEmpty then return .events events through
      else watchLoop prefixes deadline fuel through
    | none =>
      if deadline ≤ (← nowMs) then return .progress (max head cursor)
      else watchLoop prefixes deadline fuel cursor

/-- A bounded poll: the events under the prefixes after `fromRev`, whole transactions at a time, or
progress once `waitMs` have passed with none. -/
def watchAny (fuel : ℕ) (prefixes : List String) (fromRev waitMs : ℕ) : Run P (Watched P) := do
  if waitMs > maxWatchWaitMs then throw (.waitTooLong maxWatchWaitMs waitMs)
  else
    let head ← head
    if fromRev > head then throw (.backend (.futureRev fromRev head))
    else
      let deadline := (← nowMs) + waitMs
      watchLoop prefixes deadline fuel fromRev

end Contract

/-! ## The watcher -/

def Watched.list : Watched P → List (Event P)
  | events es _ => es
  | progress _ => []

/-- Where a watcher resumes. -/
def Watched.cursor : Watched P → ℕ
  | events _ through => through
  | progress rev => rev

/-- What a watcher was given: its answers one after the other, where it resumes, and the error that
ended it. -/
structure Followed (P : Type) where
  answers : List (List (Event P))
  cursor : ℕ
  told : Option (Error P)
  deriving DecidableEq, Repr

namespace Contract

/-- Polls with these waits, each resumed from the answer before, until one is refused. -/
def follow (fuel : ℕ) (prefixes : List String) : List ℕ → ℕ → Run P (Followed P)
  | [], cursor => return ⟨[], cursor, none⟩
  | waitMs :: waits, cursor => do
    match ← Verb.attempt (watchAny fuel prefixes cursor waitMs) with
    | .ok a =>
      let f ← follow fuel prefixes waits a.cursor
      return ⟨a.list :: f.answers, f.cursor, f.told⟩
    | .error e => return ⟨[], cursor, some e⟩

/-- Who uses a store: the callers of its verbs, and watchers. -/
inductive Client (P : Type)
  | call (c : Call P)
  | follow (prefixes : List String) (waits : List ℕ) (from_ : ℕ)

inductive Reply (P : Type)
  | call (a : Answer)
  | followed (f : Followed P)
  deriving DecidableEq, Repr

variable [DecidableEq P] (cfg : Config P) (fuel : ℕ)

def client : Client P → Run P (Reply P)
  | .call c => do return .call (← call cfg fuel c)
  | .follow prefixes waits from_ => do return .followed (← follow fuel prefixes waits from_)

/-- The store under any number of callers and watchers. -/
abbrev served (turns : List (Turn Env ℕ (Client P))) :
    Pool (World P) (Except (Error P) (Reply P)) (Client P) :=
  Pool.run World.env World.reopen (client cfg fuel) (World.init P) turns

end Contract

/-! ## A page of the log -/

section Page

variable {K V : Type} {h : List (Txn K V)} {from_ n : ℕ}

/-- The entries a page is taken from. -/
theorem entries_after : entries (h.filter fun t ↦ from_ < t.main ∧ t.writes ≠ []) =
    (entries h).filter fun e ↦ from_ < e.rev.main := by
  have hsplit : h.filter (fun t ↦ from_ < t.main ∧ t.writes ≠ []) =
      (h.filter fun t ↦ from_ < t.main).filter fun t ↦ t.writes ≠ [] := by
    rw [List.filter_filter]
    congr 1
    funext t
    rw [Bool.decide_and, Bool.and_comm]
  rw [hsplit, entries_filter_writes]
  exact entries_filter (fun main ↦ decide (from_ < main)) h

/-- **A page is all that is logged from where it starts to the transaction it ends with.** -/
theorem logOf_window (hinc : h.Pairwise fun a b ↦ a.main < b.main) {last : LogEntry K V}
    (hlast : (logOf h from_ n).getLast? = some last) :
    logOf h from_ n = window (·.rev.main) from_ last.rev.main (entries h) ∧
      from_ < last.rev.main ∧ last ∈ entries h := by
  set l := h.filter fun t ↦ from_ < t.main ∧ t.writes ≠ [] with hl
  have hsorted : l.Pairwise fun a b ↦ a.main < b.main := hinc.filter _
  obtain ⟨init, hinit⟩ := List.getLast?_eq_some_iff.mp hlast
  have hmem : last ∈ entries (l.take n) := by
    rw [← logOf.eq_def, hinit]
    simp
  have hafter : last ∈ entries l := by
    rw [← List.take_append_drop n l, entries_append]
    exact List.mem_append_left _ hmem
  rw [hl, entries_after] at hafter
  obtain ⟨hlog, hfrom⟩ := List.mem_filter.mp hafter
  refine ⟨?_, by simpa using hfrom, hlog⟩
  have hwindow : window (·.rev.main) from_ last.rev.main (entries h) =
      (entries l).filter fun e ↦ e.rev.main ≤ last.rev.main := by
    rw [hl, entries_after, List.filter_filter, window]
    congr 1
    funext e
    simp [and_comm]
  -- What the page has is not after its last entry, and what it has not is after it.
  have htake : (entries (l.take n)).filter (fun e ↦ e.rev.main ≤ last.rev.main) =
      entries (l.take n) := by
    refine List.filter_eq_self.mpr fun e he ↦ ?_
    have hpair := entries_pairwise (hsorted.sublist (List.take_sublist n l))
    rw [← logOf.eq_def, hinit] at hpair he
    rcases List.mem_append.mp he with he | he
    · have hlt := (List.pairwise_append.mp hpair).2.2 e he last (by simp)
      rw [Rev.lt_def] at hlt
      simp only [decide_eq_true_eq]
      omega
    · rw [List.mem_singleton.mp he]
      simp
  have hdrop : (entries (l.drop n)).filter (fun e ↦ e.rev.main ≤ last.rev.main) = [] := by
    refine List.filter_eq_nil_iff.mpr fun e he ↦ ?_
    obtain ⟨t, ht, he⟩ := List.mem_flatMap.mp he
    obtain ⟨u, hu, hlast⟩ := List.mem_flatMap.mp hmem
    have hlt : u.main < t.main := by
      rw [← List.take_append_drop n l] at hsorted
      exact (List.pairwise_append.mp hsorted).2.2 u hu t ht
    rw [Txn.main_of_mem_entries he, Txn.main_of_mem_entries hlast]
    simp only [decide_eq_true_eq]
    omega
  rw [hwindow, ← List.take_append_drop n l, entries_append, List.filter_append, htake, hdrop,
    List.append_nil, logOf]

/-- An empty page is the end of the log. -/
theorem logOf_nil (hn : 0 < n) (hnil : logOf h from_ n = []) :
    ∀ e ∈ entries h, e.rev.main ≤ from_ := by
  intro e he
  by_contra hlt
  have hmem : e ∈ entries (h.filter fun t ↦ from_ < t.main ∧ t.writes ≠ []) := by
    rw [entries_after]
    exact List.mem_filter.mpr ⟨he, by simpa using hlt⟩
  obtain ⟨t, ht, -⟩ := List.mem_flatMap.mp hmem
  rw [logOf] at hnil
  cases hl : h.filter fun t ↦ from_ < t.main ∧ t.writes ≠ [] with
  | nil =>
    rw [hl] at ht
    cases ht
  | cons u us =>
    obtain ⟨m, rfl⟩ := Nat.exists_eq_add_of_le' hn
    rw [hl, List.take_succ_cons, entries_cons, List.append_eq_nil_iff, Txn.entries_eq_nil] at hnil
    have hu : u ∈ h.filter fun t ↦ from_ < t.main ∧ t.writes ≠ [] := by
      rw [hl]
      exact List.mem_cons_self
    have hw := (List.mem_filter.mp hu).2
    simp only [decide_eq_true_eq] at hw
    exact hw.2 hnil.1

end Page

/-! ## What has been committed between two revisions -/

/-- The committed writes under the prefixes after `a` and up to `b`. -/
def between (w : World P) (prefixes : List String) (a b : ℕ) : List (Event P) :=
  Contract.matching prefixes (window (·.rev.main) a b (entries w.store.history))

/-- A step only adds transactions above the head. -/
theorem Next.history {w w' : World P} (h : Next w w') :
    ∃ new, w'.store.history = w.store.history ++ new ∧ ∀ t ∈ new, w.store.head < t.main := by
  have hnone (heq : w'.store.history = w.store.history) :
      ∃ new, w'.store.history = w.store.history ++ new ∧ ∀ t ∈ new, w.store.head < t.main :=
    ⟨[], by rw [heq, List.append_nil], by simp⟩
  cases h with
  | @take _ author ok staged hfree hp =>
    refine ⟨[⟨w.store.head + 1, writesOf (w.store.head + 1) staged⟩], rfl, fun t ht ↦ ?_⟩
    rw [List.mem_singleton.mp ht]
    exact Nat.lt_succ_self _
  | stamp => exact hnone (stamp_history w)
  | env e => exact hnone (env_history e w)
  | _ => exact hnone rfl

section Between

variable {w w' : World P} {prefixes : List String} {a b c : ℕ}

theorem between_self : between w prefixes a a = [] := by
  rw [between, UpdateLog.window_self]
  rfl

theorem entries_sorted (w : World P) :
    (entries w.store.history).Pairwise fun x y ↦ x.rev.main ≤ y.rev.main :=
  (entries_pairwise w.store.increasing).imp fun {x y} h ↦ by
    rw [Rev.lt_def] at h
    omega

theorem between_append (hab : a ≤ b) (hbc : b ≤ c) :
    between w prefixes a c = between w prefixes a b ++ between w prefixes b c := by
  rw [between, UpdateLog.window_append (entries_sorted w) hab hbc, Contract.matching,
    List.filter_append, List.map_append]
  rfl

/-- Between two revisions the store has reached nothing changes. -/
theorem between_next (h : Next w w') (hb : b ≤ w.store.head) :
    between w' prefixes a b = between w prefixes a b := by
  obtain ⟨new, hnew, hlater⟩ := h.history
  rw [between, hnew, entries_append, UpdateLog.window_append_later, between]
  intro e he
  obtain ⟨t, ht, he⟩ := List.mem_flatMap.mp he
  rw [Txn.main_of_mem_entries he]
  exact hb.trans_lt (hlater t ht)

theorem between_later (h : Later w w') (hb : b ≤ w.store.head) :
    between w' prefixes a b = between w prefixes a b := by
  induction h with
  | refl => rfl
  | tail hl hn ih => rw [between_next hn (hb.trans (Later.grows hl).head_le), ih]

theorem main_of_mem_between {e : Event P} (h : e ∈ between w prefixes a b) :
    a < e.rev.main ∧ e.rev.main ≤ b := by
  obtain ⟨x, hx, rfl⟩ := List.mem_map.mp h
  have hin : a < x.rev.main ∧ x.rev.main ≤ b := by
    simpa using (List.mem_filter.mp (List.mem_filter.mp hx).1).2
  exact hin

theorem between_ordered : (between w prefixes a b).Pairwise (·.rev < ·.rev) :=
  List.pairwise_map.mpr (((entries_pairwise w.store.increasing).filter _).filter _)

end Between

namespace Contract

/-- What an answer to a poll from `from_` has: all that matches up to where it resumes. -/
structure Polled (w : World P) (prefixes : List String) (from_ : ℕ) (a : Watched P) : Prop where
  le : from_ ≤ a.cursor
  reached : a.cursor ≤ w.store.head
  list : a.list = between w prefixes from_ a.cursor

theorem Polled.later {w w' : World P} {prefixes : List String} {from_ : ℕ} {a : Watched P}
    (h : Polled w prefixes from_ a) (hl : Later w w') : Polled w' prefixes from_ a where
  le := h.le
  reached := h.reached.trans (Later.grows hl).head_le
  list := by rw [between_later hl h.reached, h.list]

section Poll

variable {G : World P → World P → Prop} [Calm G] {fuel : ℕ} {prefixes : List String}
  {from_ cursor : ℕ} {w : World P}

theorem watchLoop_within {deadline : ℕ} (hle : from_ ≤ cursor) (hreached : cursor ≤ w.store.head)
    (hnone : between w prefixes from_ cursor = []) :
    Within G (fun a w' ↦ Polled w' prefixes from_ a) (watchLoop prefixes deadline fuel cursor) w := by
  induction fuel generalizing cursor w with
  | zero => exact safe_stuck
  | succ fuel ih =>
    -- The head is read before the log, so the log is read at that head or a later one.
    have hhead : Within G (fun h w' ↦ h ≤ w'.store.head ∧ Later w w') (Contract.head (P := P)) w :=
      safe_look fun w₁ h₁ w₂ h₂ h hh ↦ by
        cases hh
        exact ⟨(Later.grows h₂).head_le, h₁.trans h₂⟩
    refine safe_bind hhead fun h w₁ ⟨hh, h₁⟩ ↦ ?_
    have hlog : Within G (fun log w' ↦ ∃ w₂, Later w₁ w₂ ∧ Later w₂ w' ∧
        log = logOf w₂.store.history cursor watchMains) (readLog (P := P) cursor) w₁ := by
      refine safe_look fun w₂ h₂ w₃ h₃ log hlog ↦ ⟨w₂, h₂, h₃, ?_⟩
      rw [Mvcc.log] at hlog
      split at hlog <;> rename_i heq
      · cases hlog
        split at heq
        · cases heq
        · exact (Except.ok.inj heq).symm
      · cases hlog
    refine safe_bind hlog fun log w₃ ⟨w₂, h₂, h₃, hlog⟩ ↦ ?_
    have hw₂ : Later w w₂ := h₁.trans h₂
    have hreached₂ : cursor ≤ w₂.store.head := hreached.trans (Later.grows hw₂).head_le
    have hnone₂ : between w₂ prefixes from_ cursor = [] := by rw [between_later hw₂ hreached, hnone]
    cases hlast : log.getLast? with
    | some last =>
      rw [hlog] at hlast
      obtain ⟨hpage, hlt, hmem⟩ := logOf_window w₂.store.increasing hlast
      have hthrough : last.rev.main ≤ w₂.store.head := (Mvcc.main_of_mem_entries hmem).2
      have hevents : matching prefixes log = between w₂ prefixes from_ last.rev.main := by
        rw [between_append hle hlt.le, hnone₂, List.nil_append, between, ← hpage, ← hlog]
      dsimp only
      split <;> rename_i hempty
      · refine safe_pure fun w₄ h₄ ↦ Polled.later ⟨?_, hthrough, hevents⟩ (h₃.trans h₄)
        exact hle.trans hlt.le
      · refine ih (hle.trans hlt.le) (hthrough.trans (Later.grows h₃).head_le) ?_
        rw [between_later h₃ hthrough, ← hevents]
        simpa using hempty
    | none =>
      have hall : ∀ e ∈ entries w₂.store.history, e.rev.main ≤ cursor :=
        logOf_nil (n := watchMains) (by decide) (by rw [← hlog]; exact List.getLast?_eq_none_iff.mp hlast)
      have hrest : between w₂ prefixes cursor (max h cursor) = [] := by
        have hwindow : window (·.rev.main) cursor (max h cursor) (entries w₂.store.history) = [] := by
          refine List.filter_eq_nil_iff.mpr fun e he ↦ ?_
          have := hall e he
          simp only [decide_eq_true_eq]
          omega
        rw [between, hwindow]
        rfl
      refine safe_bind nowMs_safe fun now w₄ ⟨w', h', _, h''⟩ ↦ ?_
      have h₄ : Later w₂ w₄ := h₃.trans (h'.trans h'')
      split
      · refine safe_pure fun w₅ h₅ ↦ Polled.later ⟨?_, ?_, ?_⟩ (h₄.trans h₅)
        · exact hle.trans (le_max_right _ _)
        · exact max_le (hh.trans (Later.grows h₂).head_le) hreached₂
        · rw [Watched.cursor, between_append hle (le_max_right _ _), hnone₂, hrest]
          rfl
      · refine ih hle (hreached₂.trans (Later.grows h₄).head_le) ?_
        rw [between_later h₄ hreached₂, hnone₂]

/-- **A poll is answered with all that matches from where it starts to where it resumes.** -/
theorem watchAny_within {waitMs : ℕ} :
    Within G (fun a w' ↦ Polled w' prefixes from_ a) (watchAny fuel prefixes from_ waitMs) w := by
  rw [watchAny]
  split
  · exact safe_throw
  have hhead : Within G (fun h w' ↦ h ≤ w'.store.head) (Contract.head (P := P)) w :=
    safe_look fun w₁ _ w₂ h₂ h hh ↦ by
      cases hh
      exact (Later.grows h₂).head_le
  refine safe_bind hhead fun h w₁ hh ↦ ?_
  split <;> rename_i hfuture
  · exact safe_throw
  · refine safe_bind nowMs_safe fun now w₂ ⟨w', h', _, h''⟩ ↦
      watchLoop_within (le_refl _) ?_ between_self
    exact (Nat.not_lt.mp hfuture).trans (hh.trans (Later.grows (h'.trans h'')).head_le)

end Poll

/-! ## The watcher -/

/-- What a watcher that started at `from_` was given is what was committed under its prefixes up to
its cursor, each write once and in order, and no transaction's in two answers. -/
structure Given (w : World P) (prefixes : List String) (from_ : ℕ) (f : Followed P) : Prop where
  le : from_ ≤ f.cursor
  reached : f.cursor = from_ ∨ f.cursor ≤ w.store.head
  events : f.answers.flatten = between w prefixes from_ f.cursor
  ordered : f.answers.flatten.Pairwise (·.rev < ·.rev)
  whole : f.answers.Pairwise fun a b ↦ ∀ e ∈ a, ∀ e' ∈ b, e.rev.main < e'.rev.main

section Follow

variable {w w' : World P} {prefixes : List String} {from_ : ℕ} {f : Followed P}

theorem Given.nil {told : Option (Error P)} : Given w prefixes from_ ⟨[], from_, told⟩ where
  le := le_refl _
  reached := .inl rfl
  events := between_self.symm
  ordered := .nil
  whole := .nil

theorem Given.later (h : Given w prefixes from_ f) (hl : Later w w') :
    Given w' prefixes from_ f where
  le := h.le
  reached := h.reached.imp_right fun hr ↦ hr.trans (Later.grows hl).head_le
  events := by
    rcases h.reached with hr | hr
    · rw [h.events, hr, between_self, between_self]
    · rw [h.events, between_later hl hr]
  ordered := h.ordered
  whole := h.whole

/-- One more answer before those that resume from it. -/
theorem Given.cons {a : Watched P} (ha : Polled w prefixes from_ a)
    (h : Given w prefixes a.cursor f) :
    Given w prefixes from_ ⟨a.list :: f.answers, f.cursor, f.told⟩ := by
  have hevents : (a.list :: f.answers).flatten = between w prefixes from_ f.cursor := by
    rw [List.flatten_cons, ha.list, h.events, ← between_append ha.le h.le]
  refine ⟨ha.le.trans h.le, .inr ?_, hevents, ?_, List.pairwise_cons.mpr
    ⟨fun b hb e he e' he' ↦ ?_, h.whole⟩⟩
  · rcases h.reached with hr | hr
    · rw [hr]
      exact ha.reached
    · exact hr
  · rw [hevents]
    exact between_ordered
  · rw [ha.list] at he
    have he' : e' ∈ between w prefixes a.cursor f.cursor := by
      rw [← h.events]
      exact List.mem_flatten_of_mem hb he'
    exact (main_of_mem_between he).2.trans_lt (main_of_mem_between he').1

instance : Calm (P := P) Next where
  idle := .idle
  fail := .fail
  stamp := .stamp
  drop := .drop

/-- **A watcher is given what is committed from where it starts to where it resumes.** -/
theorem follow_within {fuel : ℕ} {waits : List ℕ} :
    Within Next (fun f w' ↦ Given w' prefixes from_ f) (follow fuel prefixes waits from_) w := by
  induction waits generalizing from_ w with
  | nil => exact safe_pure fun _ _ ↦ .nil
  | cons waitMs waits ih =>
    have hpoll : Within Next (fun r w' ↦ ∀ a, r = .ok a → Polled w' prefixes from_ a)
        (Verb.attempt (watchAny fuel prefixes from_ waitMs)) w := by
      refine Verb.keeps_attempt (fun _ ↦ .refl) (watchAny_within.imp fun a w₁ h w₂ hl b hb ↦ ?_)
        fun e _ _ a ha ↦ (nomatch ha)
      cases hb
      exact h.later hl
    refine safe_bind hpoll fun r w₁ hr ↦ ?_
    cases r with
    | error e => exact safe_pure fun _ _ ↦ .nil
    | ok a =>
      exact safe_bind (Verb.Keeps.since (fun h h' ↦ h.trans h') .single ih) fun f w₂ ⟨hf, h₂⟩ ↦
        safe_pure fun w₃ h₃ ↦ Given.cons ((hr a rfl).later (h₂.trans h₃)) (hf.later h₃)

end Follow

/-! ## Runs -/

section Runs

variable [DecidableEq P] {cfg : Config P} {fuel : ℕ}

theorem client_keeps (c : Client P) {w : World P} (hw : Reachable w) :
    Prog.Keeps Later Next (fun r w' ↦ ∀ prefixes waits from_ f, c = .follow prefixes waits from_ →
      r = .ok (.followed f) → Given w' prefixes from_ f) (client cfg fuel c) w := by
  cases c with
  | call c =>
    have h : Within Next (fun _ _ ↦ True) (do return .call (← call cfg fuel c) : Run P (Reply P)) w :=
      safe_bind (Q := fun _ _ ↦ True)
        (Prog.Keeps.imp (call_keeps c hw) id Exact.next fun r _ _ ↦ by cases r <;> trivial)
        fun _ _ _ ↦ safe_pure fun _ _ ↦ trivial
    exact Prog.Keeps.imp h id id fun _ _ _ _ _ _ _ hc ↦ (nomatch hc)
  | follow prefixes waits from_ =>
    have h : Within Next (fun r w' ↦ ∀ f, r = .followed f → Given w' prefixes from_ f)
        (do return .followed (← follow fuel prefixes waits from_) : Run P (Reply P)) w :=
      safe_bind follow_within fun f w₁ hf ↦ safe_pure fun w₂ h₂ g hg ↦ by
        cases hg
        exact hf.later h₂
    refine Prog.Keeps.imp h id id fun r w' hr prefixes' waits' from' f hc heq ↦ ?_
    cases hc
    subst heq
    exact hr f rfl

/-- **In every run the world is reachable, and every program of the run still has its rule.** -/
theorem served_keep (turns : List (Turn Env ℕ (Client P))) :
    Reachable (served cfg fuel turns).state ∧ ∀ t ∈ (served cfg fuel turns).threads,
      t.2.Keeps Later Next (fun r w' ↦ ∀ prefixes waits from_ f,
        t.1 = .follow prefixes waits from_ → r = .ok (.followed f) → Given w' prefixes from_ f)
        (served cfg fuel turns).state :=
  Pool.keeps_run (R := Later) (G := Next) (I := Reachable)
    (Q := fun c (r : Except (Error P) (Reply P)) w' ↦ ∀ prefixes waits from_ f,
      c = .follow prefixes waits from_ → r = .ok (.followed f) → Given w' prefixes from_ f)
    (fun _ ↦ .refl) (fun h h' ↦ h.trans h') .idle .single (fun h h' ↦ h.later h')
    (fun e _ _ ↦ .single (.env e _)) (fun d _ h ↦ h.reopen d) (fun c _ hw ↦ client_keeps c hw) .init
    turns

theorem served_next (cfg : Config P) (fuel : ℕ) (turns : List (Turn Env ℕ (Client P)))
    {m : Turn Env ℕ (Client P)} (hm : ∀ now, m ≠ .restart now) :
    Next (served cfg fuel turns).state (served cfg fuel (turns ++ [m])).state := by
  have hmove : (served cfg fuel (turns ++ [m])).state =
      (Pool.move World.env World.reopen (client cfg fuel) (served cfg fuel turns) m).state :=
    congrArg Pool.state (Pool.run_append _ turns [m])
  rw [hmove]
  cases m with
  | env e => exact .env e _
  | spawn c => exact .idle _
  | turn i =>
    exact Pool.keeps_turn (R := Later) (fun _ ↦ .refl) .idle
      (Q := fun c (r : Except (Error P) (Reply P)) w' ↦ ∀ prefixes waits from_ f,
        c = .follow prefixes waits from_ → r = .ok (.followed f) → Given w' prefixes from_ f)
      (served_keep turns).2 i
  | restart now => exact absurd rfl (hm now)

omit [DecidableEq P] in
/-- **A poll from a revision that has been compacted away is told so**, after four turns. -/
theorem looks_tooOld {prefixes : List String} {from_ waitMs : ℕ} {w : World P}
    (hwait : waitMs ≤ maxWatchWaitMs) (hcompact : from_ < w.store.compacted) :
    (watchAny (fuel + 1) prefixes from_ waitMs).Looks Later
      (fun r _ ↦ ∃ e, r = .error e ∧ Error.tooOld e) 4 w := by
  have hcompacted {w' : World P} (hl : Later w w') : from_ < w'.store.compacted :=
    hcompact.trans_le (Later.compacted_le hl)
  have hhead {w' : World P} (hl : Later w w') : from_ ≤ w'.store.head :=
    (hcompacted hl).le.trans w'.store.compacted_le
  rw [watchAny, if_neg (Nat.not_lt.mpr hwait)]
  refine Verb.looks_bind (n := 1) (m := 3) (fun _ ↦ .refl)
    (Verb.looks_look fun w₁ h₁ w₂ h₂ ↦ ?_)
  dsimp only
  rw [if_neg (Nat.not_lt.mpr (hhead h₁))]
  refine Verb.looks_bind (n := 1) (m := 2) (fun _ ↦ .refl)
    (Verb.looks_look fun w₃ h₃ w₄ h₄ ↦ ?_)
  refine Verb.looks_bind (n := 1) (m := 1) (fun _ ↦ .refl)
    (Verb.looks_look fun w₅ h₅ w₆ h₆ ↦ ?_)
  refine Verb.looks_bind (n := 1) (m := 0) (fun _ ↦ .refl)
    (Verb.looks_look fun w₇ h₇ w₈ h₈ ↦ ?_)
  have hw₇ : Later w w₇ := h₁.trans (h₂.trans (h₃.trans (h₄.trans (h₅.trans (h₆.trans h₇)))))
  rw [Mvcc.log, if_pos (hcompacted hw₇)]
  exact fun _ _ ↦ ⟨_, rfl, _, rfl⟩

omit [DecidableEq P] in
/-- A watcher told so stops where it is. -/
theorem looks_follow {prefixes : List String} {from_ waitMs : ℕ} {waits : List ℕ} {w : World P}
    (hwait : waitMs ≤ maxWatchWaitMs) (hcompact : from_ < w.store.compacted) :
    (follow (fuel + 1) prefixes (waitMs :: waits) from_).Looks Later
      (fun r _ ↦ ∃ e, r = .ok ⟨[], from_, some e⟩ ∧ Error.tooOld e) 4 w := by
  have hpoll : (Verb.attempt (watchAny (fuel + 1) prefixes from_ waitMs)).Looks Later
      (fun r _ ↦ ∃ e, r = .ok (.error e) ∧ Error.tooOld e) 4 w := by
    refine Verb.looks_attempt (fun _ ↦ .refl) ((looks_tooOld hwait hcompact).imp ?_)
    rintro r _ ⟨e, rfl, he⟩ _ _
    exact ⟨e, rfl, he⟩
  refine Verb.looks_bind (n := 4) (m := 0) (fun _ ↦ .refl) (hpoll.imp ?_)
  rintro r w₁ ⟨e, rfl, he⟩
  exact Verb.looks_pure fun _ _ ↦ ⟨e, rfl, he⟩

variable (cfg fuel) in
/-- What is true of every run: a watcher has been given exactly what was committed under its
prefixes up to its cursor, and one whose cursor has been compacted away is told so. -/
structure Watching (turns : List (Turn Env ℕ (Client P))) : Prop where
  given : ∀ (i : ℕ) prefixes waits from_ f, (served cfg fuel turns).threads[i]? =
    some (.follow prefixes waits from_, .done (.ok (.followed f))) →
    Given (served cfg fuel turns).state prefixes from_ f
  tooOld : ∀ pre post prefixes waitMs waits from_,
    turns = pre ++ .spawn (.follow prefixes (waitMs :: waits) from_) :: post →
    (∀ now, .restart now ∉ post) → waitMs ≤ maxWatchWaitMs →
    from_ < (served cfg fuel pre).state.store.compacted →
    4 ≤ Pool.turnsOf (served cfg fuel pre).threads.length post →
    ∃ e, (served cfg fuel turns).answer? (served cfg fuel pre).threads.length =
      some (.ok (.followed ⟨[], from_, some e⟩)) ∧ Error.tooOld e

/-- **In every run a watch loses and repeats nothing.** -/
theorem runs_watching (turns : List (Turn Env ℕ (Client P))) : Watching cfg (fuel + 1) turns where
  given i prefixes waits from_ f h :=
    (served_keep turns).2 _ (List.mem_of_getElem? h) _ .refl prefixes waits from_ f rfl rfl
  tooOld pre post prefixes waitMs waits from_ hturns hpost hwait hcompact henough := by
    subst hturns
    have hsteps : ∀ p m q, post = p ++ m :: q →
        Later (served cfg (fuel + 1) (pre ++ .spawn (.follow prefixes (waitMs :: waits) from_) ::
          p)).state (served cfg (fuel + 1) (pre ++
            .spawn (.follow prefixes (waitMs :: waits) from_) :: (p ++ [m]))).state := by
      intro p m q h
      have hn := served_next cfg (fuel + 1)
        (pre ++ .spawn (.follow prefixes (waitMs :: waits) from_) :: p) (m := m) fun now hm ↦
          hpost now (by rw [h, hm]; simp)
      rw [List.append_assoc, List.cons_append] at hn
      exact .single hn
    have hclient : Verb.Looks Later
        (fun r _ ↦ ∃ e, r = .ok (.followed ⟨[], from_, some e⟩) ∧ Error.tooOld e) 4
        (client cfg (fuel + 1) (.follow prefixes (waitMs :: waits) from_))
        (served cfg (fuel + 1) pre).state := by
      refine Verb.looks_bind (n := 4) (m := 0) (fun _ ↦ .refl)
        ((looks_follow hwait hcompact).imp ?_)
      rintro r w ⟨e, rfl, he⟩
      exact Verb.looks_pure fun _ _ ↦ ⟨e, rfl, he⟩
    obtain ⟨-, hanswer⟩ := Pool.looks_spawn (fun _ ↦ .refl) (fun h h' ↦ h.trans h') rfl hpost hsteps
      hclient
    obtain ⟨r, hr, e, rfl, he⟩ := hanswer henough
    exact ⟨e, hr, he⟩

example :
    (served numbers 3 (.spawn (.call (.create "k" { data := .payload 1 } ⟨"1", "a", "k", none⟩)) ::
      List.replicate 12 (.turn 0) ++ .spawn (.follow ["k", "m"] [0, 0] 0) ::
        List.replicate 12 (.turn 1))).answer? 1 =
      some (.ok (.followed ⟨[[⟨"k", ⟨1, 0⟩, some { data := .payload 1 }, some ⟨1, 0⟩, none⟩], []], 1,
        none⟩)) := by
  decide

end Runs

end Contract

end Spira.Store
