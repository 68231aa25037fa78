import Mathlib.Logic.Function.Basic
import Mathlib.Order.Nat

/-!
# Records with revisions

A store of records of several kinds, in which every record carries the revision that created it and
the one that last wrote it, and a transaction is one step: a list of compares on those revisions,
and the writes made when all of them hold.

`Later` is what any number of commits leave of an earlier store: a record stands as it was or was
written since, and a record created before is a record that was there before.  So a writer that
compares the revision it read writes over what it read (`Later.unmoved`), and one that compares the
revision its record was created at has held that record all along (`Later.held`).
-/

set_option autoImplicit false

namespace Records

/-- A record as it stands. -/
structure Item (α : Type) where
  value : α
  createRev : ℕ
  modRev : ℕ
  deriving DecidableEq

/-- The records of a store, its newest revision, and the keys there have been. -/
structure Store (K : Type) (V : K → Type) where
  head : ℕ
  items : (k : K) → Option (Item (V k))
  keys : List K

inductive Compare (K : Type)
  | modRev (k : K) (rev : Option ℕ)
  | createRev (k : K) (rev : Option ℕ)

inductive Op (K : Type) (V : K → Type)
  | put (k : K) (v : V k)
  | delete (k : K)

structure Txn (K : Type) (V : K → Type) where
  compares : List (Compare K)
  ops : List (Op K V)

variable {K : Type} {V : K → Type}

def Op.key : Op K V → K
  | put k _ => k
  | delete k => k

def Compare.holds (s : Store K V) : Compare K → Bool
  | modRev k rev => (s.items k).map (·.modRev) == rev
  | createRev k rev => (s.items k).map (·.createRev) == rev

section Commit

variable [DecidableEq K]

def Op.apply (main : ℕ) (items : (k : K) → Option (Item (V k))) :
    Op K V → (k : K) → Option (Item (V k))
  | put k v => Function.update items k (some ⟨v, (items k).elim main (·.createRev), main⟩)
  | delete k => Function.update items k none

/-- The writes of one transaction, all of the next revision. -/
def Store.commit (s : Store K V) (ops : List (Op K V)) : Store K V where
  head := s.head + 1
  items := ops.foldl (Op.apply (s.head + 1)) s.items
  keys := s.keys ++ (ops.map Op.key).filter (· ∉ s.keys)

def Txn.takes (t : Txn K V) (s : Store K V) : Bool := t.compares.all (Compare.holds s)

def Txn.run (t : Txn K V) (s : Store K V) : Store K V := if t.takes s then s.commit t.ops else s

/-! ## What a commit leaves -/

variable {s : Store K V} {ops : List (Op K V)} {k : K}

@[simp] theorem head_commit : (s.commit ops).head = s.head + 1 := rfl

theorem apply_of_ne {main : ℕ} {items : (k : K) → Option (Item (V k))} {o : Op K V}
    (h : k ≠ o.key) : o.apply main items k = items k := by
  cases o <;> exact Function.update_of_ne h _ _

theorem items_foldl_of_notMem {main : ℕ} {items : (k : K) → Option (Item (V k))}
    (h : k ∉ ops.map Op.key) : ops.foldl (Op.apply main) items k = items k := by
  induction ops generalizing items with
  | nil => rfl
  | cons o ops ih =>
    rw [List.map_cons, List.mem_cons, not_or] at h
    rw [List.foldl_cons, ih h.2, apply_of_ne h.1]

/-- A record that no write names stands as it was. -/
theorem items_commit_of_notMem (h : k ∉ ops.map Op.key) : (s.commit ops).items k = s.items k :=
  items_foldl_of_notMem h

theorem items_commit_put {v : V k} : (s.commit [.put k v]).items k =
    some ⟨v, (s.items k).elim (s.head + 1) (·.createRev), s.head + 1⟩ :=
  Function.update_self _ _ _

/-- Of writes of different keys, each is as it was put. -/
theorem items_commit_of_mem {v : V k} (hkeys : (ops.map Op.key).Nodup) (h : .put k v ∈ ops) :
    ((s.commit ops).items k).map (·.value) = some v := by
  obtain ⟨pre, post, rfl⟩ := List.append_of_mem h
  rw [List.map_append, List.map_cons] at hkeys
  have hpost : k ∉ post.map Op.key := (List.nodup_cons.mp (List.nodup_append.mp hkeys).2.1).1
  show ((pre ++ Op.put k v :: post).foldl (Op.apply (s.head + 1)) s.items k).map (·.value) = some v
  rw [List.foldl_append, List.foldl_cons, items_foldl_of_notMem hpost, Op.apply,
    Function.update_self]
  rfl

/-- Of writes of different keys, each keeps the revision its record was created at. -/
theorem items_commit_put_of_mem {v : V k} (hkeys : (ops.map Op.key).Nodup) (h : .put k v ∈ ops) :
    (s.commit ops).items k =
      some ⟨v, (s.items k).elim (s.head + 1) (·.createRev), s.head + 1⟩ := by
  obtain ⟨pre, post, rfl⟩ := List.append_of_mem h
  rw [List.map_append, List.map_cons] at hkeys
  have hpost : k ∉ post.map Op.key := (List.nodup_cons.mp (List.nodup_append.mp hkeys).2.1).1
  have hpre : k ∉ pre.map Op.key :=
    fun hk ↦ (List.nodup_append.mp hkeys).2.2 k hk k List.mem_cons_self rfl
  show (pre ++ Op.put k v :: post).foldl (Op.apply (s.head + 1)) s.items k = _
  rw [List.foldl_append, List.foldl_cons, items_foldl_of_notMem hpost, Op.apply,
    Function.update_self, items_foldl_of_notMem hpre]

theorem items_commit_delete : (s.commit [.delete k]).items k = none := Function.update_self _ _ _

theorem items_foldl (ops : List (Op K V)) (main : ℕ) (items : (k : K) → Option (Item (V k)))
    (k : K) : ops.foldl (Op.apply main) items k = items k ∨
      ∀ i, ops.foldl (Op.apply main) items k = some i → i.modRev = main := by
  induction ops generalizing items with
  | nil => exact .inl rfl
  | cons o ops ih =>
    rw [List.foldl_cons]
    rcases ih (Op.apply main items o) with h | h
    · by_cases hk : k = o.key
      · refine .inr fun i hi ↦ ?_
        rw [h] at hi
        cases o with
        | put k' v =>
          obtain rfl : k = k' := hk
          rw [Op.apply, Function.update_self] at hi
          exact (Option.some.inj hi) ▸ rfl
        | delete k' =>
          obtain rfl : k = k' := hk
          rw [Op.apply, Function.update_self] at hi
          cases hi
      · exact .inl (h.trans (apply_of_ne hk))
    · exact .inr h

/-- A record that a write names is of the revision of the writes. -/
theorem modRev_commit_of_mem {i : Item (V k)} (h : k ∈ ops.map Op.key)
    (hi : (s.commit ops).items k = some i) : i.modRev = s.head + 1 := by
  obtain ⟨o, ho, rfl⟩ := List.mem_map.mp h
  obtain ⟨pre, post, rfl⟩ := List.append_of_mem ho
  replace hi : (pre ++ o :: post).foldl (Op.apply (s.head + 1)) s.items o.key = some i := hi
  rw [List.foldl_append, List.foldl_cons] at hi
  rcases items_foldl post (s.head + 1)
    (Op.apply (s.head + 1) (pre.foldl (Op.apply (s.head + 1)) s.items) o) o.key with hsame | hmod
  · rw [hsame] at hi
    cases o with
    | put k v =>
      replace hi : Function.update (pre.foldl (Op.apply (s.head + 1)) s.items) k _ k = some i := hi
      rw [Function.update_self] at hi
      exact (Option.some.inj hi) ▸ rfl
    | delete k =>
      replace hi : Function.update (pre.foldl (Op.apply (s.head + 1)) s.items) k _ k = some i := hi
      rw [Function.update_self] at hi
      cases hi
  · exact hmod i hi

/-- A record is as it was, or as a write has put it. -/
theorem put_or_same {i : Item (V k)} (hi : (s.commit ops).items k = some i) :
    s.items k = some i ∨ .put k i.value ∈ ops := by
  have hfold (ops : List (Op K V)) (main : ℕ) : ∀ items : (k : K) → Option (Item (V k)),
      ops.foldl (Op.apply main) items k = some i → items k = some i ∨ .put k i.value ∈ ops := by
    induction ops with
    | nil => exact fun _ h ↦ .inl h
    | cons o ops ih =>
      intro items h
      rcases ih _ h with ho | hmem
      · by_cases hk : k = o.key
        · cases o with
          | put k' v =>
            obtain rfl : k = k' := hk
            rw [Op.apply, Function.update_self] at ho
            obtain rfl := Option.some.inj ho
            exact .inr List.mem_cons_self
          | delete k' =>
            obtain rfl : k = k' := hk
            rw [Op.apply, Function.update_self] at ho
            cases ho
        · exact .inl ((apply_of_ne hk).symm.trans ho)
      · exact .inr (List.mem_cons_of_mem o hmem)
  exact hfold ops _ _ hi

/-- A record that no write deletes is still there. -/
theorem isSome_commit (h : .delete k ∉ ops) (hk : (s.items k).isSome) :
    ((s.commit ops).items k).isSome := by
  have hfold (ops : List (Op K V)) (main : ℕ) : ∀ items : (k : K) → Option (Item (V k)),
      .delete k ∉ ops → (items k).isSome → (ops.foldl (Op.apply main) items k).isSome := by
    induction ops with
    | nil => exact fun _ _ hk ↦ hk
    | cons o ops ih =>
      intro items hops hk
      rw [List.mem_cons, not_or] at hops
      refine ih _ hops.2 ?_
      by_cases hne : k = o.key
      · cases o with
        | put k' v =>
          obtain rfl : k = k' := hne
          show (Function.update items k _ k).isSome
          rw [Function.update_self]
          rfl
        | delete k' =>
          obtain rfl : k = k' := hne
          exact absurd rfl hops.1
      · rw [apply_of_ne hne]
        exact hk
  exact hfold ops _ _ h hk

theorem createRev_foldl {main : ℕ} {items : (k : K) → Option (Item (V k))} {i : Item (V k)}
    (h : ops.foldl (Op.apply main) items k = some i) :
    i.createRev = main ∨ ∃ j, items k = some j ∧ j.createRev = i.createRev := by
  induction ops generalizing items with
  | nil => exact .inr ⟨i, h, rfl⟩
  | cons o ops ih =>
    rw [List.foldl_cons] at h
    rcases ih h with hi | ⟨j, hj, hji⟩
    · exact .inl hi
    · by_cases hk : k = o.key
      · cases o with
        | put k' v =>
          obtain rfl : k = k' := hk
          rw [Op.apply, Function.update_self] at hj
          rw [← hji, ← Option.some.inj hj]
          cases hik : items k with
          | none => exact .inl rfl
          | some j' => exact .inr ⟨j', rfl, rfl⟩
        | delete k' =>
          obtain rfl : k = k' := hk
          rw [Op.apply, Function.update_self] at hj
          cases hj
      · exact .inr ⟨j, (apply_of_ne hk).symm.trans hj, hji⟩

end Commit

/-! ## An earlier store and a later one -/

/-- The revisions of a store's records are at most its head. -/
def Store.Dated (s : Store K V) : Prop :=
  ∀ k i, s.items k = some i → i.modRev ≤ s.head ∧ i.createRev ≤ s.head

/-- The keys of a store's records are listed. -/
def Store.Listed (s : Store K V) : Prop := ∀ k, (s.items k).isSome → k ∈ s.keys

theorem Store.Listed.commit [DecidableEq K] {s : Store K V} (h : s.Listed) (ops : List (Op K V)) :
    (s.commit ops).Listed := by
  intro k hk
  obtain ⟨i, hi⟩ := Option.isSome_iff_exists.mp hk
  have hmem : k ∈ s.keys ∨ k ∈ ops.map Op.key := by
    rcases put_or_same hi with hsame | hput
    · exact .inl (h k (Option.isSome_iff_exists.mpr ⟨i, hsame⟩))
    · exact .inr (List.mem_map.mpr ⟨_, hput, rfl⟩)
  by_cases hold : k ∈ s.keys
  · exact List.mem_append_left _ hold
  · exact List.mem_append_right _
      (List.mem_filter.mpr ⟨hmem.resolve_left hold, decide_eq_true hold⟩)

/-- What commits leave of an earlier store. -/
structure Later (s s' : Store K V) : Prop where
  head : s.head ≤ s'.head
  /-- A record stands as it was, or was written since. -/
  written : ∀ k, s'.items k = s.items k ∨ ∀ i, s'.items k = some i → s.head < i.modRev
  /-- A record created before was there before. -/
  created : ∀ k i, s'.items k = some i → i.createRev ≤ s.head →
    ∃ j, s.items k = some j ∧ j.createRev = i.createRev

section Later

variable {s s' s'' : Store K V} {k : K}

theorem Later.refl (s : Store K V) : Later s s :=
  ⟨le_rfl, fun _ ↦ .inl rfl, fun _ i hi _ ↦ ⟨i, hi, rfl⟩⟩

theorem Later.trans (h : Later s s') (h' : Later s' s'') : Later s s'' where
  head := h.head.trans h'.head
  written k := by
    rcases h'.written k with hk | hk
    · rw [hk]
      exact h.written k
    · exact .inr fun i hi ↦ lt_of_le_of_lt h.head (hk i hi)
  created k i hi hc := by
    obtain ⟨j, hj, hji⟩ := h'.created k i hi (hc.trans h.head)
    obtain ⟨l, hl, hlj⟩ := h.created k j hj (hji.trans_le hc)
    exact ⟨l, hl, hlj.trans hji⟩

/-- **A record at the revision it was read at is what was read.** -/
theorem Later.unmoved (h : Later s s') (hs : s.Dated) {i i' : Item (V k)}
    (hi : s.items k = some i) (hi' : s'.items k = some i') (hrev : i'.modRev = i.modRev) :
    i' = i := by
  rcases h.written k with hk | hk
  · exact Option.some.inj (hi'.symm.trans (hk.trans hi))
  · have hlt := hk i' hi'
    have hle := (hs k i hi).1
    omega

/-- **A record with the creation revision it had has been held since.** -/
theorem Later.held (h : Later s s') {i' : Item (V k)} (hi' : s'.items k = some i')
    (hc : i'.createRev ≤ s.head) : ∃ i, s.items k = some i ∧ i.createRev = i'.createRev :=
  h.created k i' hi' hc

variable [DecidableEq K]

theorem later_commit (s : Store K V) (ops : List (Op K V)) : Later s (s.commit ops) where
  head := Nat.le_succ _
  written k := by
    rcases items_foldl ops (s.head + 1) s.items k with h | h
    · exact .inl h
    · exact .inr fun i hi ↦ (h i hi).ge
  created k i hi hc := by
    rcases createRev_foldl hi with h | h
    · omega
    · exact h

theorem later_run (t : Txn K V) (s : Store K V) : Later s (t.run s) := by
  rw [Txn.run]
  split
  · exact later_commit s t.ops
  · exact .refl s

theorem Store.Dated.commit (h : s.Dated) (ops : List (Op K V)) : (s.commit ops).Dated := by
  intro k i hi
  constructor
  · rcases items_foldl ops (s.head + 1) s.items k with hk | hk
    · exact ((h k i (hk.symm.trans hi)).1).trans (Nat.le_succ _)
    · exact (hk i hi).le
  · rcases createRev_foldl hi with hc | ⟨j, hj, hji⟩
    · exact hc.le
    · exact (hji ▸ (h k j hj).2).trans (Nat.le_succ _)

theorem Store.Dated.run (h : s.Dated) (t : Txn K V) : (t.run s).Dated := by
  rw [Txn.run]
  split
  · exact h.commit t.ops
  · exact h

end Later

/-! ## Compares -/

section Compares

variable {s : Store K V} {t : Txn K V} {k : K} {r : ℕ}

theorem holds_of_takes (h : t.takes s) {c : Compare K} (hc : c ∈ t.compares) : c.holds s :=
  List.all_eq_true.mp h c hc

theorem holds_modRev : (Compare.modRev k (some r)).holds s = true ↔
    ∃ i, s.items k = some i ∧ i.modRev = r := by
  simp [Compare.holds]

theorem holds_modRev_none : (Compare.modRev k none).holds s = true ↔ s.items k = none := by
  simp [Compare.holds]

theorem holds_createRev : (Compare.createRev k (some r)).holds s = true ↔
    ∃ i, s.items k = some i ∧ i.createRev = r := by
  simp [Compare.holds]

theorem holds_createRev_none : (Compare.createRev k none).holds s = true ↔ s.items k = none := by
  simp [Compare.holds]

end Compares

/-! ## Logs -/

/-- An entry of a log with one more is that one, or an entry of the log. -/
theorem cut_concat {α : Type} {log pre post : List α} {x y : α}
    (h : log ++ [x] = pre ++ y :: post) :
    (pre = log ∧ y = x) ∨ ∃ post', log = pre ++ y :: post' := by
  obtain rfl | ⟨post', z, rfl⟩ := post.eq_nil_or_concat
  · obtain ⟨rfl, hlast⟩ := List.append_inj' h rfl
    exact .inl ⟨rfl, (List.cons.inj hlast).1.symm⟩
  · refine .inr ⟨post', ?_⟩
    rw [List.concat_eq_append, ← List.cons_append, ← List.append_assoc] at h
    exact (List.append_inj' h rfl).1

end Records
