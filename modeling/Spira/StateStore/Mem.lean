import Spira.StateStore.Backend

/-!
# The reference backend

Every version is kept in memory until compaction: each key has the list of its versions, oldest
first, in which `none` is a delete, and beside them stands the watch log.

`MemBackend.Refines` relates such a state to the abstract store, and every call keeps it.  What has
to be seen is that a compaction, which drops versions from the front of each list by index, leaves
the version that every still-readable revision sees (`visible_compactVersions`).
-/

set_option autoImplicit false

namespace Spira.Store

/-- The reference backend's state. -/
structure MemBackend (K V : Type) [LinearOrder K] where
  head : ℕ
  compacted : ℕ
  /-- Each key's versions in main order; `none` is a delete. -/
  keys : KeyMap K (List (ℕ × Option (Version V)))
  log : List (LogEntry K V)

namespace MemBackend

variable {K V : Type}

/-! ## Versions of one key -/

def visible (versions : List (ℕ × Option (Version V))) (at_ : ℕ) : Option (Version V) :=
  (versions.reverse.find? (·.1 ≤ at_)).bind (·.2)

/-- The index of the last element that satisfies `p`. -/
def rposition {α : Type} (p : α → Bool) (l : List α) : Option ℕ :=
  (l.reverse.findIdx? p).map (l.length - 1 - ·)

/-- What a compaction at `rev` leaves of a key's versions: the last one at or below `rev` and those
above it, but not that one if it is a delete. -/
def compactVersions (rev : ℕ) (versions : List (ℕ × Option (Version V))) :
    List (ℕ × Option (Version V)) :=
  let keepFrom := (rposition (·.1 ≤ rev) versions).getD 0
  let versions := versions.drop keepFrom
  match versions with
  | (m, none) :: rest => if m ≤ rev then rest else versions
  | _ => versions

/-- A key whose versions a compaction drops to the last is dropped with them. -/
def retain (rev : ℕ) (versions : List (ℕ × Option (Version V))) :
    Option (List (ℕ × Option (Version V))) :=
  if (compactVersions rev versions).isEmpty then none else some (compactVersions rev versions)

/-! ## The calls -/

section Calls

variable [LinearOrder K]

def new : MemBackend K V := ⟨0, 0, ∅, []⟩

def readable (s : MemBackend K V) (at_ : ℕ) : Except BackendError Unit :=
  if at_ < s.compacted then .error (.tooOld s.compacted)
  else if at_ > s.head then .error (.futureRev at_ s.head)
  else .ok ()

def get (s : MemBackend K V) (key : K) (at_ : ℕ) : Except BackendError (Option (Version V)) := do
  s.readable at_
  return s.keys[key]?.bind (visible · at_)

def range [KeyPrefix K] (s : MemBackend K V) (p : K) (after : Option K) (limit at_ : ℕ) :
    Except BackendError (List (K × Version V)) := do
  s.readable at_
  let started := s.keys.toList.filter fun e ↦
    match after with
    | some a => a < e.1
    | none => p ≤ e.1
  return ((started.takeWhile fun e ↦ KeyPrefix.starts p e.1).filterMap fun e ↦
    (visible e.2 at_).map (e.1, ·)).take limit

/-- The version a write of transaction `main` makes of its key. -/
def versionOf (main : ℕ) (p : Write K V × ℕ) : Option (Version V) :=
  match p.1 with
  | .put _ value createRev _ => some ⟨value, ⟨main, p.2⟩, createRev⟩
  | .delete _ _ => none

/-- One write of transaction `main`: a version and a log entry. -/
def push (main : ℕ) (s : MemBackend K V) (p : Write K V × ℕ) : MemBackend K V :=
  { s with
    keys := s.keys.alter p.1.key fun o ↦ some (o.getD [] ++ [(main, versionOf main p)])
    log := s.log ++ [p.1.entry ⟨main, p.2⟩] }

def commit (s : MemBackend K V) (expect : ℕ) (batch : List (Write K V)) :
    Except BackendError (MemBackend K V × ℕ) :=
  if s.head ≠ expect then .error (.stale expect s.head)
  else
    let main := expect + 1
    .ok ({ batch.zipIdx.foldl (push main) s with head := main }, main)

/-- The entries of the log's loop, which counts the transactions it has begun and stops before it
begins one too many. -/
def logLoop (maxMains : ℕ) : ℕ → ℕ → List (LogEntry K V) → List (LogEntry K V)
  | _, _, [] => []
  | mains, last, e :: es =>
    if e.rev.main ≠ last then
      if mains = maxMains then [] else e :: logLoop maxMains (mains + 1) e.rev.main es
    else e :: logLoop maxMains mains last es

def readLog (s : MemBackend K V) (from_ maxMains : ℕ) :
    Except BackendError (List (LogEntry K V)) :=
  if from_ < s.compacted then .error (.tooOld s.compacted)
  else .ok (logLoop maxMains 0 0 (s.log.dropWhile (·.rev.main ≤ from_)))

def compact (s : MemBackend K V) (rev : ℕ) : MemBackend K V :=
  let rev := min rev s.head
  if rev ≤ s.compacted then s
  else
    { s with
      compacted := rev
      log := s.log.filter (rev < ·.rev.main)
      keys := s.keys.filterMap fun _ versions ↦ retain rev versions }

end Calls

/-! ## What a revision sees of one key -/

section Visible

variable {versions : List (ℕ × Option (Version V))} {v : ℕ × Option (Version V)} {at_ rev : ℕ}

@[simp] theorem visible_nil : visible ([] : List (ℕ × Option (Version V))) at_ = none := rfl

theorem visible_snoc :
    visible (versions ++ [v]) at_ = if v.1 ≤ at_ then v.2 else visible versions at_ := by
  rw [visible, List.reverse_append, List.reverse_singleton, List.singleton_append,
    List.find?_cons]
  split <;> rename_i h
  · rw [if_pos (by simpa using h), Option.bind_some]
  · rw [if_neg (by simpa using h), visible]

theorem visible_singleton : visible [v] at_ = if v.1 ≤ at_ then v.2 else none := by
  rw [← List.nil_append [v], visible_snoc, visible_nil]

/-- A delete at the front is seen no more than nothing at all. -/
theorem visible_cons_none {m : ℕ} : visible ((m, none) :: versions) at_ = visible versions at_ := by
  induction versions using List.reverseRecOn with
  | nil => rw [visible_singleton, visible_nil, ite_self]
  | append_singleton versions v ih => rw [← List.cons_append, visible_snoc, ih, visible_snoc]

/-- A revision sees nothing between the last version and itself. -/
theorem visible_mono (h : ∀ v ∈ versions, v.1 ≤ rev) (hle : rev ≤ at_) :
    visible versions at_ = visible versions rev := by
  induction versions using List.reverseRecOn with
  | nil => rfl
  | append_singleton versions v ih =>
    have hv := h v (by simp)
    rw [visible_snoc, visible_snoc, if_pos (hv.trans hle), if_pos hv]

theorem rposition_snoc {α : Type} {p : α → Bool} {l : List α} {x : α} :
    rposition p (l ++ [x]) = if p x then some l.length else rposition p l := by
  rw [rposition, List.reverse_append, List.reverse_singleton, List.singleton_append,
    List.findIdx?_cons]
  split
  · simp
  · rw [rposition, Option.map_map]
    refine congrArg (Option.map · _) (funext fun i ↦ ?_)
    simp only [Function.comp_apply, List.length_append, List.length_singleton]
    omega

theorem rposition_le {α : Type} (p : α → Bool) (l : List α) : (rposition p l).getD 0 ≤ l.length := by
  induction l using List.reverseRecOn with
  | nil => simp [rposition]
  | append_singleton l x ih =>
    rw [rposition_snoc, List.length_append]
    split
    · simp
    · omega

theorem visible_drop (h : rev ≤ at_) :
    visible (versions.drop ((rposition (·.1 ≤ rev) versions).getD 0)) at_ = visible versions at_ := by
  induction versions using List.reverseRecOn with
  | nil => simp
  | append_singleton versions v ih =>
    rw [rposition_snoc]
    split <;> rename_i hv
    · have hv : v.1 ≤ at_ := (by simpa using hv : v.1 ≤ rev).trans h
      rw [Option.getD_some, List.drop_left, visible_snoc, if_pos hv, visible_singleton, if_pos hv]
    · rw [List.drop_append_of_le_length (rposition_le _ _), visible_snoc, ih, visible_snoc]

/-- **A compaction leaves what every revision at or above it sees.** -/
theorem visible_compactVersions (h : rev ≤ at_) :
    visible (compactVersions rev versions) at_ = visible versions at_ := by
  rw [compactVersions]
  split
  · rename_i heq
    split
    · rw [← visible_cons_none, ← heq, visible_drop h]
    · exact visible_drop h
  · exact visible_drop h

theorem mem_of_mem_compactVersions (h : v ∈ compactVersions rev versions) : v ∈ versions := by
  rw [compactVersions] at h
  refine List.mem_of_mem_drop (i := (rposition (·.1 ≤ rev) versions).getD 0) ?_
  split at h
  · rename_i heq
    rw [heq]
    split at h
    · exact List.mem_cons_of_mem _ h
    · rwa [heq] at h
  · exact h

end Visible

/-! ## The log's loop -/

section LogLoop

variable {n mains last : ℕ} {es rest : List (LogEntry K V)} {h : List (Txn K V)}

theorem logLoop_append (hes : ∀ e ∈ es, e.rev.main = last) :
    logLoop n mains last (es ++ rest) = es ++ logLoop n mains last rest := by
  induction es with
  | nil => rfl
  | cons e es ih =>
    rw [List.cons_append, logLoop, if_neg (not_not.mpr (hes e (by simp))),
      ih fun e' he' ↦ hes e' (by simp [he']), List.cons_append]

/-- **The loop returns whole transactions, as many as it may.** -/
theorem logLoop_entries (hlast : ∀ t ∈ h, last < t.main)
    (hinc : h.Pairwise fun a b ↦ a.main < b.main) (hn : mains ≤ n) :
    logLoop n mains last (entries h) =
      entries ((h.filter fun t ↦ t.writes ≠ []).take (n - mains)) := by
  induction h generalizing mains last with
  | nil => simp [logLoop]
  | cons t h ih =>
    obtain ⟨ht, hinc⟩ := List.pairwise_cons.mp hinc
    rw [entries_cons]
    by_cases hw : t.writes = []
    · rw [Txn.entries_eq_nil.mpr hw, List.nil_append,
        ih (fun u hu ↦ hlast u (by simp [hu])) hinc hn, List.filter_cons_of_neg (by simpa using hw)]
    · obtain ⟨e, es, hes⟩ := List.exists_cons_of_ne_nil (mt Txn.entries_eq_nil.mp hw)
      have hmain : ∀ e' ∈ e :: es, e'.rev.main = t.main := fun e' he' ↦
        Txn.main_of_mem_entries (hes ▸ he')
      have hnew : e.rev.main ≠ last := by
        have := hlast t (by simp)
        rw [hmain e (by simp)]
        omega
      rw [List.filter_cons_of_pos (by simpa using hw), hes, List.cons_append, logLoop, if_pos hnew]
      split <;> rename_i hmax
      · simp [hmax]
      · have hsub : n - mains = n - (mains + 1) + 1 := by omega
        rw [hmain e (by simp), logLoop_append fun e' he' ↦ hmain e' (by simp [he']),
          ih ht hinc (by omega), hsub, List.take_succ_cons, entries_cons, hes,
          List.cons_append]

end LogLoop

/-! ## The reference backend answers as the abstract store does -/

section Refines

variable [LinearOrder K]

/-- The state `s` stands for the abstract store `a`. -/
structure Refines (s : MemBackend K V) (a : Mvcc K V) : Prop where
  head : s.head = a.head
  compacted : s.compacted = a.compacted
  log : s.log = (entries a.history).filter (a.compacted < ·.rev.main)
  stamped : ∀ (k : K) (versions : List (ℕ × Option (Version V))), s.keys[k]? = some versions →
    ∀ v ∈ versions, v.1 ≤ a.head
  seen : ∀ at_ (k : K), a.compacted ≤ at_ → at_ ≤ a.head →
    s.keys[k]?.bind (visible · at_) = (snapshot a.history at_)[k]?

variable {s : MemBackend K V} {a : Mvcc K V}

theorem refines_new : (new : MemBackend K V).Refines .empty where
  head := rfl
  compacted := rfl
  log := rfl
  stamped k versions h := by simp [new] at h
  seen at_ k _ _ := by simp [new, snapshot, Mvcc.empty]

/-- One write, read at one key: seen from the transaction on, and by nobody before it. -/
theorem seen_push {main at_ : ℕ} {p : Write K V × ℕ} {k : K} :
    (push main s p).keys[k]?.bind (visible · at_) =
      if p.1.key = k ∧ main ≤ at_ then versionOf main p else s.keys[k]?.bind (visible · at_) := by
  simp only [push, Std.ExtTreeMap.getElem?_alter, compare_eq_iff_eq]
  by_cases hk : p.1.key = k
  · subst hk
    rw [if_pos rfl, Option.bind_some, visible_snoc]
    split <;> rename_i hm
    · rw [if_pos ⟨rfl, hm⟩]
    · rw [if_neg fun h ↦ hm h.2]
      cases s.keys[p.1.key]? <;> simp
  · rw [if_neg hk, if_neg fun h ↦ hk h.1]

theorem seen_commit {main at_ : ℕ} {ps : List (Write K V × ℕ)} {k : K} {m : Snapshot K V}
    (hat : main ≤ at_) (hm : ∀ k : K, s.keys[k]?.bind (visible · at_) = m[k]?) :
    (ps.foldl (push main) s).keys[k]?.bind (visible · at_) = (ps.foldl (applyWrite main) m)[k]? := by
  induction ps using List.reverseRecOn generalizing k with
  | nil => exact hm k
  | append_singleton ps p ih =>
    rw [List.foldl_append, List.foldl_cons, List.foldl_nil, seen_push, List.foldl_append,
      List.foldl_cons, List.foldl_nil, getElem?_applyWrite, ih]
    simp only [hat, and_true]
    refine if_congr Iff.rfl ?_ rfl
    rw [versionOf]
    cases p.1 <;> rfl

/-- A transaction's writes leave the head, the compaction point and what is no key of theirs. -/
theorem foldl_push {main : ℕ} {ps : List (Write K V × ℕ)} :
    (ps.foldl (push main) s).compacted = s.compacted ∧
      (ps.foldl (push main) s).log = s.log ++ ps.map fun p ↦ p.1.entry ⟨main, p.2⟩ := by
  induction ps using List.reverseRecOn with
  | nil => simp
  | append_singleton ps p ih => simp [List.foldl_append, push, ih]

theorem stamped_commit {main : ℕ} {ps : List (Write K V × ℕ)}
    (h : ∀ (k : K) (versions : List (ℕ × Option (Version V))), s.keys[k]? = some versions →
      ∀ v ∈ versions, v.1 ≤ main) :
    ∀ (k : K) (versions : List (ℕ × Option (Version V))),
      (ps.foldl (push main) s).keys[k]? = some versions → ∀ v ∈ versions, v.1 ≤ main := by
  induction ps using List.reverseRecOn with
  | nil => exact h
  | append_singleton ps p ih =>
    intro k versions hk v hv
    rw [List.foldl_append, List.foldl_cons, List.foldl_nil, push] at hk
    simp only [Std.ExtTreeMap.getElem?_alter, compare_eq_iff_eq] at hk
    split at hk
    · obtain rfl := Option.some.inj hk
      obtain hv | hv := List.mem_append.mp hv
      · cases ho : (ps.foldl (push main) s).keys[p.1.key]? with
        | none => simp [ho] at hv
        | some old => exact ih _ old ho v (by simpa [ho] using hv)
      · rw [List.mem_singleton.mp hv]
    · exact ih k versions hk v hv

theorem Refines.unseen (h : s.Refines a) {k : K} {at_ : ℕ} (hat : a.head ≤ at_) :
    s.keys[k]?.bind (visible · at_) = s.keys[k]?.bind (visible · a.head) := by
  cases hk : s.keys[k]? with
  | none => rfl
  | some versions => exact visible_mono (h.stamped k versions hk) hat

theorem unseen_commit {main at_ : ℕ} {ps : List (Write K V × ℕ)} {k : K} (hat : at_ < main) :
    (ps.foldl (push main) s).keys[k]?.bind (visible · at_) = s.keys[k]?.bind (visible · at_) := by
  induction ps using List.reverseRecOn with
  | nil => rfl
  | append_singleton ps p ih =>
    rw [List.foldl_append, List.foldl_cons, List.foldl_nil, seen_push, if_neg (by omega), ih]

/-- **A commit does to the state what it does to the abstract store.** -/
theorem Refines.commit (h : s.Refines a) (expect : ℕ) (batch : List (Write K V)) :
    Alike Refines (s.commit expect batch) (a.commit expect batch) := by
  rw [MemBackend.commit, Mvcc.commit, h.head]
  split <;> rename_i he
  · exact .error
  · obtain rfl := not_not.mp he
    refine .ok ⟨rfl, ?_, ?_, ?_, ?_⟩
    · exact foldl_push.1.trans h.compacted
    · have hnew : ∀ e ∈ (⟨a.head + 1, batch⟩ : Txn K V).entries, a.compacted < e.rev.main :=
        fun e he ↦ by
          rw [Txn.main_of_mem_entries he]
          exact Nat.lt_succ_of_le a.compacted_le
      rw [Mvcc.append, entries_append, entries_cons, entries_nil, List.append_nil,
        List.filter_append, ← h.log, foldl_push.2]
      exact congrArg _ (List.filter_eq_self.mpr fun e he ↦ by simpa using hnew e he).symm
    · exact stamped_commit fun k versions hk v hv ↦ Nat.le_succ_of_le (h.stamped k versions hk v hv)
    · intro at_ k hc hat
      rcases Nat.lt_or_ge a.head at_ with hlt | hle
      · obtain rfl : at_ = a.head + 1 := le_antisymm hat hlt
        rw [Mvcc.snapshot_append_head]
        refine seen_commit le_rfl fun k ↦ ?_
        rw [h.unseen (Nat.le_succ _)]
        exact h.seen a.head k a.compacted_le le_rfl
      · rw [Mvcc.snapshot_append hle, ← h.seen at_ k hc hle]
        exact unseen_commit (Nat.lt_succ_of_le hle)

theorem Refines.compact (h : s.Refines a) (rev : ℕ) : (s.compact rev).Refines (a.compact rev) := by
  rw [MemBackend.compact, h.head, h.compacted]
  split <;> rename_i hr
  · have hmax : max a.compacted (min rev a.head) = a.compacted := max_eq_left hr
    exact ⟨h.head, h.compacted.trans hmax.symm, by rw [h.log, Mvcc.compact_compacted, hmax]; rfl, h.stamped,
      fun at_ k hc hat ↦ h.seen at_ k (hmax ▸ hc) hat⟩
  · have hmax : max a.compacted (min rev a.head) = min rev a.head := max_eq_right (not_le.mp hr).le
    refine ⟨rfl, hmax.symm, ?_, ?_, ?_⟩
    · rw [h.log, List.filter_filter, Mvcc.compact_compacted, hmax]
      refine List.filter_congr fun e _ ↦ ?_
      have := not_le.mp hr
      rw [Bool.eq_iff_iff, Bool.and_eq_true, decide_eq_true_eq, decide_eq_true_eq]
      omega
    · intro k versions hk v hv
      rw [Std.ExtTreeMap.getElem?_filterMap] at hk
      cases hold : s.keys[k]? with
      | none => simp [hold] at hk
      | some old =>
        rw [hold, Option.pbind_some, retain] at hk
        split at hk <;> cases hk
        exact h.stamped k old hold v (mem_of_mem_compactVersions hv)
    · intro at_ k hc hat
      have hto : min rev a.head ≤ at_ := by
        rw [Mvcc.compact_compacted, hmax] at hc
        exact hc
      rw [Std.ExtTreeMap.getElem?_filterMap, Mvcc.compact_history,
        ← h.seen at_ k ((not_le.mp hr).le.trans hto) hat]
      cases s.keys[k]? with
      | none => rfl
      | some old =>
        rw [Option.pbind_some, Option.bind_some, ← visible_compactVersions hto, retain]
        split <;> rename_i hempty
        · rw [List.isEmpty_iff.mp hempty, visible_nil, Option.bind_none]
        · rfl

/-! ### Reads -/

theorem Refines.readable (h : s.Refines a) (at_ : ℕ) : s.readable at_ = a.readable at_ := by
  rw [MemBackend.readable, Mvcc.readable, h.head, h.compacted]

theorem Refines.get (h : s.Refines a) (key : K) (at_ : ℕ) : s.get key at_ = a.get key at_ := by
  rw [MemBackend.get, Mvcc.get, h.readable]
  cases hr : a.readable at_ with
  | error e => rfl
  | ok u =>
    obtain ⟨hc, hh⟩ := Mvcc.readable_ok hr
    exact congrArg Except.ok (h.seen at_ key hc hh)

/-- No key that the backend keeps, a deleted one not yet compacted included, stands between `after`
and the prefix. -/
def Clear (s : MemBackend K V) (p : K) (after : Option K) : Prop :=
  ∀ a ∈ after, ∀ k ∈ s.keys, a < k → p ≤ k

theorem clear_none {p : K} : s.Clear p none := by
  rintro a ⟨⟩

/-- A page resumed after a key under the prefix, or past it, is in no key's way. -/
theorem clear_of_le {p a' : K} (h : p ≤ a') : s.Clear p (some a') := by
  rintro a ⟨⟩ k - hlt
  exact h.trans hlt.le

/-- The keys a range starts from. -/
def started (s : MemBackend K V) (p : K) (after : Option K) :
    List (K × List (ℕ × Option (Version V))) :=
  s.keys.toList.filter fun e ↦
    match after with
    | some a => a < e.1
    | none => p ≤ e.1

theorem sorted_started {p : K} {after : Option K} : (s.started p after).Pairwise (·.1 < ·.1) :=
  (KeyMap.pairwise_toList _).filter _

/-- Where nothing stands between, the keys under the prefix are the first that the range meets. -/
theorem takeWhile_started [KeyPrefix K] {p : K} {after : Option K} (hc : s.Clear p after) :
    (s.started p after).takeWhile (fun e ↦ KeyPrefix.starts p e.1) =
      s.keys.toList.filter fun e ↦ KeyPrefix.starts p e.1 && KeyPrefix.past after e.1 := by
  have hfrom : (s.started p after).filter (fun e ↦ p ≤ e.1) = s.started p after := by
    refine List.filter_eq_self.mpr fun e he ↦ decide_eq_true ?_
    obtain ⟨hmem, hstart⟩ := List.mem_filter.mp he
    cases after with
    | none => exact of_decide_eq_true hstart
    | some a =>
      have hk : e.1 ∈ s.keys := by
        rw [← Std.ExtTreeMap.isSome_getElem?_iff_mem, KeyMap.mem_toList.mp hmem]
        rfl
      exact hc a rfl e.1 hk (of_decide_eq_true hstart)
  rw [← hfrom, KeyPrefix.takeWhile_starts p sorted_started, started, List.filter_filter]
  refine List.filter_congr fun e _ ↦ ?_
  rw [Bool.eq_iff_iff, Bool.and_eq_true, Bool.and_eq_true]
  refine and_congr_right fun hs ↦ ?_
  cases after with
  | none => simp [KeyPrefix.le_of_starts hs]
  | some a => simp

theorem Refines.range_of_clear [KeyPrefix K] (h : s.Refines a) {p : K} {after : Option K}
    (hclear : s.Clear p after) (limit at_ : ℕ) :
    s.range p after limit at_ = a.range p after limit at_ := by
  rw [MemBackend.range, Mvcc.range, h.readable]
  cases hr : a.readable at_ with
  | error e => rfl
  | ok u =>
    obtain ⟨hc, hh⟩ := Mvcc.readable_ok hr
    have hsnap : s.keys.filterMap (fun _ versions ↦ visible versions at_) =
        snapshot a.history at_ := by
      refine Std.ExtTreeMap.ext_getElem? fun k ↦ ?_
      rw [Std.ExtTreeMap.getElem?_filterMap, ← h.seen at_ k hc hh]
      cases s.keys[k]? <;> rfl
    refine congrArg Except.ok ?_
    rw [Snapshot.range, ← hsnap, Std.ExtTreeMap.toList_filterMap]
    have htake := takeWhile_started hclear
    rw [started] at htake
    rw [htake, List.filterMap_filter, List.filter_filterMap]
    refine congrArg (List.take limit) (List.filterMap_congr fun e _ ↦ ?_)
    cases visible e.2 at_ <;> cases hs : KeyPrefix.starts p e.1 <;>
      cases hp : KeyPrefix.past after e.1 <;> simp [Option.filter, hs, hp]

theorem Refines.range [KeyPrefix K] (h : s.Refines a) (p : K) (limit at_ : ℕ) :
    s.range p none limit at_ = a.range p none limit at_ :=
  h.range_of_clear clear_none limit at_

/-- Where a key stands between, a range ends before it has begun. -/
theorem range_of_not_clear [KeyPrefix K] {p : K} {after : Option K} (hclear : ¬ s.Clear p after)
    {limit at_ : ℕ} (hr : s.readable at_ = .ok ()) : s.range p after limit at_ = .ok [] := by
  rw [Clear] at hclear
  push Not at hclear
  obtain ⟨a', ha, k, hk, hlt, hbelow⟩ := hclear
  obtain rfl : after = some a' := ha
  have hmem : (k, s.keys[k]) ∈ s.started p (some a') := by
    refine List.mem_filter.mpr ⟨KeyMap.mem_toList.mpr ?_, decide_eq_true hlt⟩
    exact Std.ExtTreeMap.getElem?_eq_some_getElem hk
  have hnil : (s.started p (some a')).takeWhile (fun e ↦ KeyPrefix.starts p e.1) = [] := by
    have hsorted : (s.started p (some a')).Pairwise (·.1 < ·.1) := sorted_started
    cases hl : s.started p (some a') with
    | nil => rfl
    | cons e l =>
      rw [hl] at hmem hsorted
      -- the first key is `k` or before it, and so before every key under the prefix
      have hle : e.1 ≤ k := by
        obtain heq | hin := List.mem_cons.mp hmem
        · exact heq ▸ le_refl _
        · exact ((List.pairwise_cons.mp hsorted).1 _ hin).le
      rw [List.takeWhile_cons, if_neg]
      intro hs
      exact absurd ((KeyPrefix.le_of_starts hs).trans hle) hbelow.not_ge
  rw [started] at hnil
  rw [MemBackend.range, hr]
  dsimp only
  rw [hnil, List.filterMap_nil, List.take_nil]
  rfl

theorem Refines.readLog (h : s.Refines a) (from_ n : ℕ) : s.readLog from_ n = a.log from_ n := by
  rw [MemBackend.readLog, Mvcc.log, h.compacted]
  split
  · rfl
  · rename_i hc
    have hdrop : s.log.dropWhile (·.rev.main ≤ from_) =
        entries (a.history.filter (from_ < ·.main)) := by
      have hle : (s.log).Pairwise fun e e' ↦ e.rev.main ≤ e'.rev.main := by
        rw [h.log]
        exact ((entries_pairwise a.increasing).filter _).imp fun hlt ↦ by
          rw [Rev.lt_def] at hlt
          omega
      rw [UpdateLog.dropWhile_stamp hle, h.log, List.filter_filter,
        entries_filter fun m ↦ decide (from_ < m)]
      refine List.filter_congr fun e _ ↦ ?_
      rw [Bool.eq_iff_iff, Bool.and_eq_true, decide_eq_true_eq, decide_eq_true_eq]
      omega
    have hpos : ∀ t ∈ a.history.filter (from_ < ·.main), 0 < t.main := fun t ht ↦
      (a.committed t (List.mem_of_mem_filter ht)).1
    rw [hdrop, logLoop_entries hpos (a.increasing.filter _) (Nat.zero_le n), Nat.sub_zero, logOf,
      List.filter_filter]
    refine congrArg (fun h ↦ Except.ok (entries (List.take n h))) (List.filter_congr fun t _ ↦ ?_)
    rw [Bool.eq_iff_iff, Bool.and_eq_true, decide_eq_true_eq, decide_eq_true_eq,
      decide_eq_true_eq, and_comm]

end Refines

/-! ## Every sequence of calls -/

/-- The calls that change a reference backend. -/
inductive Call (K V : Type)
  | commit (expect : ℕ) (batch : List (Write K V))
  | compact (rev : ℕ)

section Run

variable [LinearOrder K]

/-- The state after a call; a commit that is refused stores nothing. -/
def call (s : MemBackend K V) : Call K V → MemBackend K V
  | .commit expect batch =>
    match s.commit expect batch with
    | .ok (s', _) => s'
    | .error _ => s
  | .compact rev => s.compact rev

/-- The reference backend after a sequence of calls. -/
def run (calls : List (Call K V)) : MemBackend K V := calls.foldl call new

/-- What a call means. -/
def meaning (a : Mvcc K V) : Call K V → Mvcc K V
  | .commit expect batch =>
    match a.commit expect batch with
    | .ok (a', _) => a'
    | .error _ => a
  | .compact rev => a.compact rev

/-- The abstract store after a sequence of calls. -/
def committed (calls : List (Call K V)) : Mvcc K V := calls.foldl meaning .empty

theorem run_snoc (calls : List (Call K V)) (c : Call K V) :
    run (calls ++ [c]) = (run calls).call c := by
  simp [run]

omit [LinearOrder K] in
theorem committed_snoc (calls : List (Call K V)) (c : Call K V) :
    committed (calls ++ [c]) = meaning (committed calls) c := by
  simp [committed]

theorem Refines.call {s : MemBackend K V} {a : Mvcc K V} (h : s.Refines a) (c : Call K V) :
    (s.call c).Refines (meaning a c) := by
  cases c with
  | commit expect batch =>
    have hc := h.commit expect batch
    rw [MemBackend.call, meaning]
    generalize s.commit expect batch = x at hc
    generalize a.commit expect batch = y at hc
    cases hc with
    | ok h' => exact h'
    | error => exact h
  | compact rev => exact h.compact rev

/-- **The reference backend refines the abstract store**, after any calls. -/
theorem refines_run (calls : List (Call K V)) : (run calls).Refines (committed calls) := by
  induction calls using List.reverseRecOn with
  | nil => exact refines_new
  | append_singleton calls c ih =>
    rw [run_snoc, committed_snoc]
    exact ih.call c

theorem extends_meaning (a : Mvcc K V) (c : Call K V) : a.Extends (meaning a c) := by
  cases c with
  | commit expect batch =>
    rw [meaning, Mvcc.commit]
    split_ifs
    · exact .refl a
    · exact a.extends_append batch
  | compact rev => exact a.extends_compact rev

theorem extends_committed (calls more : List (Call K V)) :
    (committed calls).Extends (committed (calls ++ more)) := by
  induction more using List.reverseRecOn with
  | nil =>
    rw [List.append_nil]
    exact .refl _
  | append_singleton more c ih =>
    rw [← List.append_assoc, committed_snoc]
    exact ih.trans (extends_meaning _ c)

variable [KeyPrefix K]

/-- **Every read is the fold of the transactions committed up to it**, no later call changes one
that is still readable, and the log is the transactions themselves: the first `n` above `from_`
that wrote anything, whole and in the order of their revisions. -/
theorem reads_are_folds (calls : List (Call K V)) :
    (∀ at_, (run calls).compacted ≤ at_ → at_ ≤ (run calls).head →
      (∀ key, (run calls).get key at_ = .ok (snapshot (committed calls).history at_)[key]?) ∧
        ∀ p limit, (run calls).range p none limit at_ =
          .ok ((snapshot (committed calls).history at_).range p none limit)) ∧
    (∀ more at_, (run (calls ++ more)).compacted ≤ at_ → at_ ≤ (run calls).head →
      (∀ key, (run (calls ++ more)).get key at_ = (run calls).get key at_) ∧
        ∀ p limit, (run (calls ++ more)).range p none limit at_ =
          (run calls).range p none limit at_) ∧
    ∀ from_ n, (run calls).compacted ≤ from_ →
      (run calls).readLog from_ n = .ok (logOf (committed calls).history from_ n) ∧
        (logOf (committed calls).history from_ n).Pairwise (·.rev < ·.rev) := by
  have h := refines_run calls
  refine ⟨fun at_ hc hh ↦ ?_, fun more at_ hc hh ↦ ?_, fun from_ n hc ↦ ?_⟩
  · rw [h.compacted] at hc
    rw [h.head] at hh
    have hr := Mvcc.readable_of_le hc hh
    refine ⟨fun key ↦ ?_, fun p limit ↦ ?_⟩
    · rw [h.get, Mvcc.get, hr]
      rfl
    · rw [h.range, Mvcc.range, hr]
      rfl
  · have h' := refines_run (calls ++ more)
    have he := extends_committed calls more
    rw [h'.compacted] at hc
    rw [h.head] at hh
    refine ⟨fun key ↦ ?_, fun p limit ↦ ?_⟩
    · rw [h'.get, h.get, he.get hc hh]
    · rw [h'.range, h.range, he.range hc hh]
  · rw [h.compacted] at hc
    refine ⟨?_, ?_⟩
    · rw [h.readLog, Mvcc.log, if_neg (not_lt.mpr hc)]
    · exact entries_pairwise (((committed calls).increasing.filter _).sublist
        (List.take_sublist _ _))

end Run

/-- A transaction that writes nothing, and one that writes a key. -/
def emptyThenPut : List (Call String ℕ) :=
  [.commit 0 [], .commit 1 [.put "a" 7 ⟨2, 0⟩ none]]

/-- The empty transaction is not counted: one page of one transaction already holds the second. -/
theorem log_skips_empty :
    (run emptyThenPut).readLog 0 1 ≠
      .ok (entries (((committed emptyThenPut).history.filter (0 < ·.main)).take 1)) := by
  decide

end MemBackend

end Spira.Store
