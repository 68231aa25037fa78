import Spira.StateStore.Originals

/-!
# What the drill proves

The fold of an original's audited writes is the store itself, but for keys whose last write is an
expiry (`Original.tracks`).  So the drill tells a restored store from a wrong one, with what it
excuses (`foldCompare_tells`).
-/

set_option autoImplicit false

namespace Spira.Store.Drill

open Contract (eventWrite)

variable {P V : Type} {encode : Object P → V}

/-! ## One transaction -/

section Step

variable {w : World P} {s : ℕ} {k : String} {staged : List (Staged P)} {m : ℕ}

theorem heldOf_writeOf (m : ℕ) (p : Staged P × ℕ) :
    heldOf (encodeEntry encode ((writeOf m p).entry ⟨m, p.2⟩)) =
      (Staged.item m p).map (heldItem encode) := by
  rw [Staged.item, writeOf]
  cases p.1.value <;> rfl

/-- The last write of a key that is compared, among those of a chunk. -/
theorem find_chunk (hk : bookkeeping k = false) :
    (((chunk encode ⟨m, writesOf m staged⟩).2.filter fun e ↦ !bookkeeping e.key).reverse.find?
      (·.key = k)) =
        (lastOf staged k).map fun p ↦ encodeEntry encode ((writeOf m p).entry ⟨m, p.2⟩) := by
  rw [chunk, entries_writesOf, List.map_map, List.filter_map, ← List.map_reverse, List.find?_map,
    ← List.filter_reverse, List.find?_filter, lastOf]
  congr 2
  funext p
  have hkey : (encodeEntry encode ((writeOf m p).entry ⟨m, p.2⟩)).key = p.1.key :=
    (entry_writeOf m p).1
  by_cases hp : p.1.key = k
  · simp [hkey, hp, hk]
  · simp [hkey, hp]

/-- A transaction with no audit record in the copy only adds to what has expired. -/
theorem foldMain_unaudited (decode : V → Option (Object P)) (ex : Exclusions) {restored : Copy V}
    (f : Folding V) (c : ℕ × List (LogEntry String V)) (hs : s < c.1) (hr : c.1 ≤ restored.head)
    (hnone : restored.keys[eventsKey c.1]? = none) :
    (foldMain decode ex s restored f c).fold = f.fold ∧
      (foldMain decode ex s restored f c).expired = f.expired ++ ((c.2.filter
        fun e ↦ !bookkeeping e.key).filter fun e ↦ e.value.isNone).map LogEntry.key ∧
      (foldMain decode ex s restored f c).mismatches = f.mismatches := by
  rw [foldMain, if_neg (by omega), hnone]
  exact ⟨rfl, rfl, rfl⟩

theorem foldMain_audited (decode : V → Option (Object P)) (ex : Exclusions) {restored : Copy V}
    (f : Folding V) (c : ℕ × List (LogEntry String V)) (ev : Version V) (hs : s < c.1)
    (hr : c.1 ≤ restored.head) (hsome : restored.keys[eventsKey c.1]? = some ev) :
    (foldMain decode ex s restored f c).fold =
        (c.2.filter fun e ↦ !bookkeeping e.key).foldl (foldEntry ex) f.fold ∧
      (foldMain decode ex s restored f c).expired = f.expired ∧
      (foldMain decode ex s restored f c).mismatches = f.mismatches ++
        eventMismatches decode c.1 ev ((c.2.filter fun e ↦ !bookkeeping e.key).map ranOf) := by
  rw [foldMain, if_neg (by omega), hsome]
  exact ⟨rfl, rfl, rfl⟩

/-- What a transaction of a run comes to: it is passed over, or has no audit record, or has one. -/
theorem foldMain_cases (decode : V → Option (Object P)) (ex : Exclusions) (restored : Copy V)
    (f : Folding V) (c : ℕ × List (LogEntry String V)) :
    foldMain decode ex s restored f c = f ∨
      (s < c.1 ∧ restored.keys[eventsKey c.1]? = none ∧
        (foldMain decode ex s restored f c).fold = f.fold ∧
        (foldMain decode ex s restored f c).expired = f.expired ++ ((c.2.filter
          fun e ↦ !bookkeeping e.key).filter fun e ↦ e.value.isNone).map LogEntry.key ∧
        (foldMain decode ex s restored f c).mismatches = f.mismatches) ∨
      ∃ ev, s < c.1 ∧ restored.keys[eventsKey c.1]? = some ev ∧
        (foldMain decode ex s restored f c).fold =
          (c.2.filter fun e ↦ !bookkeeping e.key).foldl (foldEntry ex) f.fold ∧
        (foldMain decode ex s restored f c).expired = f.expired ∧
        (foldMain decode ex s restored f c).mismatches = f.mismatches ++
          eventMismatches decode c.1 ev ((c.2.filter fun e ↦ !bookkeeping e.key).map ranOf) := by
  by_cases hout : c.1 ≤ s ∨ restored.head < c.1
  · exact .inl (by rw [foldMain, if_pos hout])
  · have hs : s < c.1 := by omega
    have hr : c.1 ≤ restored.head := by omega
    cases hev : restored.keys[eventsKey c.1]? with
    | none => exact .inr (.inl ⟨hs, rfl, foldMain_unaudited decode ex f c hs hr hev⟩)
    | some ev => exact .inr (.inr ⟨ev, hs, rfl, foldMain_audited decode ex f c ev hs hr hev⟩)

/-- What the fold holds of a key is what the store does, or did before an expiry that is the key's
last write. -/
def Tracks (encode : Object P → V) (w : World P) (s : ℕ) (f : Folding V) (k : String) : Prop :=
  f.fold[k]? = (w.cur k).map (heldItem encode) ∨
    Swept w s k ∧ (∀ i, w.cur k = some i → i.mark.isSome) ∧
      (w.cur k = none → k ∈ f.expired ∧
        ∃ i : Item P, f.fold[k]? = some (heldItem encode i) ∧ (ttlMs k i.value).isSome)

/-- **One transaction more**: the fold follows an audited one, and is left behind by an expiry. -/
theorem tracks_taken {decode : V → Option (Object P)} {restored : Copy V} {f : Folding V}
    {author : Author P} {ok : Bool} (h : Tracks encode w s f k)
    (hk : Exclusions.contract.Compared k) (hs : s ≤ w.store.head)
    (hr : w.store.head < restored.head)
    (hrecord : (restored.keys[eventsKey (w.store.head + 1)]?).isSome ↔
      ∃ x ∈ staged, x.key = eventsKey (w.store.head + 1))
    (hexpires : (¬ ∃ x ∈ staged, x.key = eventsKey (w.store.head + 1)) → ∀ x ∈ staged, x.key = k →
      Sweeps w k x) :
    Tracks encode (w.taken author ok staged) s (foldMain decode .contract s restored f
      (chunk encode ⟨w.store.head + 1, writesOf (w.store.head + 1) staged⟩)) k := by
  have hcur : (w.taken author ok staged).cur k = _ := cur_taken
  cases hev : restored.keys[eventsKey (w.store.head + 1)]? with
  | some ev =>
    obtain ⟨hfold, hexpired, -⟩ := foldMain_audited decode .contract f
      (chunk encode ⟨w.store.head + 1, writesOf (w.store.head + 1) staged⟩) ev
      (Nat.lt_succ_of_le hs) hr hev
    have hget := getElem?_foldl_foldEntry f.fold ((chunk encode ⟨w.store.head + 1,
      writesOf (w.store.head + 1) staged⟩).2.filter fun e ↦ !bookkeeping e.key) hk.2
    rw [find_chunk hk.1] at hget
    rw [Tracks, hfold, hexpired, hget, hcur]
    cases hlast : lastOf staged k with
    | none => exact h.imp_right fun ⟨hswept, hheld⟩ ↦ ⟨hswept.taken hlast, hheld⟩
    | some p => exact .inl (heldOf_writeOf _ p)
  | none =>
    obtain ⟨hfold, hexpired, -⟩ := foldMain_unaudited decode .contract f
      (chunk encode ⟨w.store.head + 1, writesOf (w.store.head + 1) staged⟩)
      (Nat.lt_succ_of_le hs) hr hev
    rw [Tracks, hfold, hexpired, hcur]
    cases hlast : lastOf staged k with
    | none =>
      exact h.imp_right fun ⟨hswept, hmarked, hheld⟩ ↦ ⟨hswept.taken hlast, hmarked,
        fun hnone ↦ (hheld hnone).imp_left (List.mem_append_left _)⟩
    | some p =>
      obtain ⟨hmem, hstaged, hkey⟩ := lastOf_some hlast
      have hun : ¬ ∃ x ∈ staged, x.key = eventsKey (w.store.head + 1) := by
        rw [← hrecord, hev]
        exact Bool.false_ne_true
      obtain ⟨i, hi, hmark, httl, hmarks⟩ := hexpires hun p.1 hstaged hkey
      -- The key had no mark, so no expiry was its last write.
      have hheld : f.fold[k]? = some (heldItem encode i) := by
        rcases h with h | ⟨-, hmarked, -⟩
        · rw [h, hi]
          rfl
        · have := hmarked i hi
          rw [hmark] at this
          cases this
      refine .inr ⟨swept_taken hs hun hmem hkey, fun i' hi' ↦ ?_, fun hnone ↦ ⟨?_, i, hheld, httl⟩⟩
      · obtain ⟨v, hv, rfl⟩ := Option.map_eq_some_iff.mp hi'
        exact hmarks v hv
      · have hvalue : p.1.value = none := Option.map_eq_none_iff.mp hnone
        obtain ⟨hekey, hevalue⟩ := entry_writeOf (w.store.head + 1) p
        have hentry : (writeOf (w.store.head + 1) p).entry ⟨w.store.head + 1, p.2⟩ ∈
            (⟨w.store.head + 1, writesOf (w.store.head + 1) staged⟩ :
              Txn String (Object P)).entries := by
          rw [entries_writesOf]
          exact List.mem_map_of_mem hmem
        refine List.mem_append_right _ (List.mem_map.mpr ⟨_, List.mem_filter.mpr
          ⟨List.mem_filter.mpr ⟨List.mem_map_of_mem hentry, ?_⟩, ?_⟩, hekey.trans hkey⟩)
        · rw [encodeEntry, hekey, hkey, hk.1]
          rfl
        · rw [encodeEntry, hevalue, hvalue]
          rfl

end Step

/-! ## The whole history -/

section Run

variable {w : World P} {s : ℕ} {k : String} {staged : List (Staged P)}

/-- Transactions that change nothing may be left out of a fold. -/
theorem foldl_filter_of_fixed {α β : Type} {g : β → α → β} {p : α → Bool} {l : List α}
    (h : ∀ x ∈ l, p x = false → ∀ b, g b x = b) (b : β) : (l.filter p).foldl g b = l.foldl g b := by
  induction l generalizing b with
  | nil => rfl
  | cons x l ih =>
    have hrest := ih fun y hy ↦ h y (List.mem_cons_of_mem _ hy)
    rw [List.filter_cons, List.foldl_cons]
    split
    · rw [List.foldl_cons, hrest]
    · rename_i hp
      rw [hrest, h x List.mem_cons_self (Bool.eq_false_of_not_eq_true hp)]

/-- A history no later than the snapshot is folded into nothing. -/
theorem foldl_of_le {decode : V → Option (Object P)} {ex : Exclusions} {restored : Copy V}
    {history : List (Txn String (Object P))} (h : ∀ t ∈ history, t.main ≤ s) (f : Folding V) :
    (history.map (chunk encode)).foldl (foldMain decode ex s restored) f = f := by
  induction history generalizing f with
  | nil => rfl
  | cons t history ih =>
    rw [List.map_cons, List.foldl_cons, foldMain, if_pos (.inl (h t List.mem_cons_self))]
    exact ih (fun t' ht' ↦ h t' (List.mem_cons_of_mem _ ht')) f

/-! ### What the fold holds -/

/-- **The fold of a history holds of each key what the store does**, or did before an expiry that
is the key's last write. -/
theorem Original.tracks {decode : V → Option (Object P)} {restored : Copy V} {f : Folding V}
    (h : Original w) (hbase : f.fold[k]? = (w.itemAt s k).map (heldItem encode))
    (hk : Exclusions.contract.Compared k) (hr : w.store.head ≤ restored.head)
    (hsame : SameRecords w s restored) :
    Tracks encode w s ((w.store.history.map (chunk encode)).foldl
      (foldMain decode .contract s restored) f) k := by
  -- What is no later than the snapshot is in it.
  have hearly {w : World P} (hbase : f.fold[k]? = (w.itemAt s k).map (heldItem encode))
      (hle : w.store.head ≤ s) : Tracks encode w s ((w.store.history.map (chunk encode)).foldl
        (foldMain decode .contract s restored) f) k := by
    rw [foldl_of_le fun t ht ↦ (main_le_head ht).trans hle]
    refine .inl ?_
    rw [hbase, ← itemAt_min, Nat.min_eq_right hle]
  have hstep {w : World P} {author : Author P} {ok : Bool} {staged : List (Staged P)}
      (hbase : f.fold[k]? = ((w.taken author ok staged).itemAt s k).map (heldItem encode))
      (hr : (w.taken author ok staged).store.head ≤ restored.head)
      (hsame : SameRecords (w.taken author ok staged) s restored)
      (ih : f.fold[k]? = (w.itemAt s k).map (heldItem encode) → w.store.head ≤ restored.head →
        SameRecords w s restored → Tracks encode w s ((w.store.history.map (chunk encode)).foldl
          (foldMain decode .contract s restored) f) k)
      (hexpires : (¬ ∃ x ∈ staged, x.key = eventsKey (w.store.head + 1)) →
        ∀ x ∈ staged, x.key = k → Sweeps w k x) :
      Tracks encode (w.taken author ok staged) s
        (((w.taken author ok staged).store.history.map (chunk encode)).foldl
          (foldMain decode .contract s restored) f) k := by
    by_cases hle : (w.taken author ok staged).store.head ≤ s
    · exact hearly hbase hle
    · have hhead : (w.taken author ok staged).store.head = w.store.head + 1 := rfl
      have hs : s ≤ w.store.head := by omega
      rw [itemAt_taken hs] at hbase
      have hbefore := ih hbase (by omega) fun t ht ↦ hsame t (List.mem_append_left _ ht)
      have hrecord := hsame _ (List.mem_append_right _ (List.mem_singleton_self _))
        (Nat.lt_succ_of_le hs)
      rw [show (w.taken author ok staged).store.history = w.store.history ++
        [⟨w.store.head + 1, writesOf (w.store.head + 1) staged⟩] from rfl, List.map_append,
        List.foldl_append]
      exact tracks_taken hbefore hk hs (by omega) (hrecord.trans audited_writesOf) hexpires
  induction h with
  | init => exact hearly hbase (Nat.zero_le _)
  | audited h hops hkeys hb ih =>
    refine hstep hbase hr hsame ih fun hnone ↦ absurd ?_ hnone
    obtain ⟨resolved, -, rfl⟩ := hb
    exact ⟨_, List.mem_append_right _ (List.mem_singleton_self _), rfl⟩
  | telemetry h hkeys hb ih =>
    exact hstep hbase hr hsame ih fun _ x hx hkey ↦ absurd hkey (ne_of_telemetry hb hkeys hk hx)
  | expired h hkeys hres ih =>
    refine hstep hbase hr hsame ih fun _ x hx hkey ↦ ?_
    rw [← hkey]
    exact sweeps_of_expired hkeys hres hx
  | @idle w w' h hhistory hhead ih =>
    have hitem : w'.itemAt s k = w.itemAt s k := by
      rw [World.itemAt, World.itemAt, hhistory]
    rw [hitem] at hbase
    have hsame' : SameRecords w s restored := by
      rw [SameRecords, hhistory] at hsame
      exact hsame
    have hbefore := ih hbase (hhead.trans hr) hsame'
    rw [Tracks, cur_of_history hhistory, Swept]
    simp only [Unrecorded, hhistory]
    exact hbefore

/-! ### The runs -/

/-- **The entries of a history are grouped by transaction again**, but for those that wrote
nothing. -/
theorem mains_entries {p : List (Txn String (Object P))}
    (h : p.Pairwise fun a b ↦ a.main < b.main) :
    mains ((entries p).map (encodeEntry encode)) =
      (p.filter fun t ↦ t.writes ≠ []).map (chunk encode) := by
  have hinc : (p.filter fun t ↦ t.writes ≠ []).Pairwise fun a b ↦ a.main < b.main := h.filter _
  have hne : ∀ t ∈ p.filter fun t ↦ t.writes ≠ [], t.entries ≠ [] := by
    intro t ht
    rw [Ne, Txn.entries_eq_nil]
    simpa using (List.mem_filter.mp ht).2
  rw [← entries_filter_writes]
  generalize p.filter (fun t ↦ t.writes ≠ []) = q at hinc hne
  have hmain {t : Txn String (Object P)} {e : LogEntry String V}
      (he : e ∈ t.entries.map (encodeEntry encode)) : e.rev.main = t.main := by
    obtain ⟨e', he', rfl⟩ := List.mem_map.mp he
    exact Txn.main_of_mem_entries he'
  have hgroups : (((entries q).map (encodeEntry encode)).splitBy
      fun a b ↦ a.rev.main = b.rev.main) = q.map fun t ↦ t.entries.map (encodeEntry encode) := by
    rw [entries, List.map_flatMap, List.flatMap_def]
    refine List.splitBy_flatten (fun hnil ↦ ?_) (fun es hes ↦ ?_) ?_
    · obtain ⟨t, ht, hnil⟩ := List.mem_map.mp hnil
      exact hne t ht (List.map_eq_nil_iff.mp hnil)
    · obtain ⟨t, -, rfl⟩ := List.mem_map.mp hes
      refine List.Pairwise.isChain (List.pairwise_of_forall_mem_list fun a ha b hb ↦ ?_)
      simp only [decide_eq_true_eq]
      rw [hmain ha, hmain hb]
    · refine List.Pairwise.isChain (List.pairwise_map.mpr (hinc.imp_of_mem
        fun {a b} ha hb hlt ↦ ?_))
      refine ⟨by simpa using hne a ha, by simpa using hne b hb, ?_⟩
      rw [decide_eq_false_iff_not, hmain (List.getLast_mem _), hmain (List.head_mem _)]
      omega
  rw [mains, hgroups, List.filterMap_map]
  refine (List.filterMap_congr (g := some ∘ chunk encode) fun t ht ↦ ?_).trans
    (congrFun List.filterMap_eq_map q)
  rw [Function.comp_apply]
  cases hes : t.entries.map (encodeEntry encode) with
  | nil => exact absurd (List.map_eq_nil_iff.mp hes) (hne t ht)
  | cons e es =>
    have he : e.rev.main = t.main := hmain (hes ▸ List.mem_cons_self)
    rw [List.head?_cons, Option.map_some, he, ← hes]
    rfl

/-- **The runs are folded as the whole history is.** -/
theorem foldl_runs {decode : V → Option (Object P)} {ex : Exclusions} {restored : Copy V}
    {runs : List (List (LogEntry String V))} (hruns : AreRuns encode w s runs)
    (hsame : SameRecords w s restored) (f : Folding V) :
    (runs.flatMap mains).foldl (foldMain decode ex s restored) f =
      (w.store.history.map (chunk encode)).foldl (foldMain decode ex s restored) f := by
  obtain ⟨lo, hlo, parts, hparts, rfl⟩ := hruns
  have hmains : (parts.map fun p ↦ (entries p).map (encodeEntry encode)).flatMap mains =
      ((w.store.history.filter (lo < ·.main)).filter fun t ↦ t.writes ≠ []).map (chunk encode) := by
    rw [← hparts, List.filter_flatten, List.map_flatten, List.flatMap_map, List.map_map,
      List.flatMap_def]
    refine congrArg List.flatten (List.map_congr_left fun p hp ↦ mains_entries ?_)
    refine List.Pairwise.sublist ?_ (w.store.increasing.filter (lo < ·.main))
    rw [← hparts]
    exact List.sublist_flatten_of_mem hp
  rw [hmains, List.foldl_map, List.foldl_map, foldl_filter_of_fixed, foldl_filter_of_fixed]
  · intro t ht hlt f
    have hle : t.main ≤ s := by
      simp only [decide_eq_false_iff_not] at hlt
      omega
    rw [foldMain, chunk, if_pos (.inl hle)]
  · intro t ht hempty f
    have hwrites : t.writes = [] := by simpa using hempty
    rw [foldMain]
    split
    · rfl
    · rename_i hlt
      have hnone : restored.keys[eventsKey t.main]? = none := by
        rw [← Option.not_isSome_iff_eq_none, hsame t (List.mem_filter.mp ht).1 (by
          simp only [chunk] at hlt
          omega)]
        rintro ⟨x, hx, -⟩
        rw [hwrites] at hx
        cases hx
      simp only [chunk, hnone, Txn.entries_eq_nil.mpr hwrites, List.map_nil, List.filter_nil,
        List.append_nil]

/-! ### What the fold comes upon -/

theorem mem_expired_foldMain {decode : V → Option (Object P)} {ex : Exclusions} {restored : Copy V}
    {f : Folding V} {t : Txn String (Object P)} (hsame : SameRecords w s restored)
    (ht : t ∈ w.store.history)
    (hk : k ∈ (foldMain decode ex s restored f (chunk encode t)).expired) :
    k ∈ f.expired ∨ Expires w s k := by
  rcases foldMain_cases decode ex restored f (chunk encode t) with
    heq | ⟨hs, hev, -, hexpired, -⟩ | ⟨ev, -, -, -, hexpired, -⟩
  · rw [heq] at hk
    exact .inl hk
  · rw [hexpired, List.mem_append] at hk
    refine hk.imp_right fun hk ↦ ?_
    obtain ⟨e', he', rfl⟩ := List.mem_map.mp hk
    obtain ⟨he', hnone⟩ := List.mem_filter.mp he'
    obtain ⟨e, he, rfl⟩ := List.mem_map.mp (List.mem_filter.mp he').1
    refine ⟨t, ⟨ht, hs, ?_⟩, e, he, rfl, by simpa [encodeEntry] using hnone⟩
    rw [← hsame t ht hs, show restored.keys[eventsKey t.main]? = none from hev]
    exact Bool.false_ne_true
  · rw [hexpired] at hk
    exact .inl hk

/-- No transaction changes what the fold holds of a key that is not compared. -/
theorem getElem?_foldMain {decode : V → Option (Object P)} {ex : Exclusions} {restored : Copy V}
    {f : Folding V} {c : ℕ × List (LogEntry String V)} (hk : ¬ ex.Compared k) :
    (foldMain decode ex s restored f c).fold[k]? = f.fold[k]? := by
  rcases foldMain_cases (s := s) decode ex restored f c with
    heq | ⟨-, -, hfold, -⟩ | ⟨ev, -, -, hfold, -⟩
  · rw [heq]
  · rw [hfold]
  · rw [hfold]
    by_cases hex : ex.excluded k
    · exact foldl_foldEntry_none hex
    · have hbook : bookkeeping k := by
        by_contra hbook
        exact hk ⟨Bool.eq_false_of_not_eq_true hbook, Bool.eq_false_of_not_eq_true hex⟩
      have hnone : ((c.2.filter fun e ↦ !bookkeeping e.key).reverse.find? (·.key = k)) = none := by
        refine List.find?_eq_none.mpr fun e he hkey ↦ ?_
        have := (List.mem_filter.mp (List.mem_reverse.mp he)).2
        simp only [decide_eq_true_eq] at hkey
        rw [hkey, hbook] at this
        cases this
      rw [getElem?_foldl_foldEntry _ _ (Bool.eq_false_of_not_eq_true hex), hnone]

/-- **No audit record of a copy is at odds with its transaction.** -/
theorem mismatches_foldMain {decode : V → Option (Object P)} {ex : Exclusions} {restored : Copy V}
    {f : Folding V} {t : Txn String (Object P)} (h : Original w)
    (hdecode : ∀ v, decode (encode v) = some v) (hcopy : IsCopy encode w w.store.head restored)
    (ht : t ∈ w.store.history) :
    (foldMain decode ex s restored f (chunk encode t)).mismatches = f.mismatches := by
  rcases foldMain_cases (s := s) decode ex restored f (chunk encode t) with
    heq | ⟨-, -, -, -, hmismatches⟩ | ⟨ev, hs, hev, -, -, hmismatches⟩
  · rw [heq]
  · exact hmismatches
  · replace hev : restored.keys[eventsKey t.main]? = some ev := hev
    have ha : Audited t := (SameRecords.of_isCopy h hcopy t ht hs).mp (by rw [hev]; rfl)
    obtain ⟨i, record, hi, hdata, hdescribes⟩ := h.recorded.described t ht ha
    have hvalue : decode ev.value = some i.value := by
      rw [hcopy.keys, show w.itemAt w.store.head (eventsKey t.main) = some i from hi] at hev
      cases hev
      exact hdecode i.value
    have hran : ((chunk encode t).2.filter fun e ↦ !bookkeeping e.key).map ranOf =
        record.subs.map saidOf := by
      rw [hdescribes, chunk, List.filter_map, List.map_map]
      refine List.map_congr_left fun e _ ↦ ?_
      simp [ranOf, encodeEntry]
    rw [hmismatches, hran, eventMismatches, recorded, hvalue]
    simp [hdata]

end Run

/-! ## The drill -/

section Whole

variable {w : World P} {s : ℕ} {decode : V → Option (Object P)} {base restored : Copy V}
  {runs : List (List (LogEntry String V))}

/-- What the runs are folded to, on the keys of the base. -/
def folded (decode : V → Option (Object P)) (base : Copy V) (runs : List (List (LogEntry String V)))
    (restored : Copy V) (ex : Exclusions) : Folding V :=
  (runs.flatMap mains).foldl (foldMain decode ex base.head restored)
    ⟨(gather ex base).1, [], (gather ex base).2, []⟩

theorem held_versionOf (i : Item P) : held (versionOf encode i) = heldItem encode i := rfl

/-- What is held of a key is its version. -/
theorem held_inj {a b : Version V} (h : held a = held b) : a = b := by
  cases a
  cases b
  cases h
  rfl

theorem excused_contract {expired : List String} {k : String} {i : Item P}
    (hdecode : ∀ v, decode (encode v) = some v) :
    excused decode .contract expired k (heldItem encode i) ↔
      (ttlMs k i.value).isSome ∧ k ∈ expired := by
  rw [excused, heldItem, hdecode, Option.any_some, Bool.and_eq_true, Bool.and_eq_true,
    decide_eq_true_eq, and_iff_right (show Exclusions.contract.ttlSwept from rfl)]

/-- The fold of an original's runs, and what it has come upon. -/
structure Folded (encode : Object P → V) (w : World P) (s : ℕ) (f : Folding V) : Prop where
  tracks : ∀ k, Exclusions.contract.Compared k → Tracks encode w s f k
  compared : ∀ k, ¬ Exclusions.contract.Compared k → f.fold[k]? = none
  expired : ∀ k ∈ f.expired, Expires w s k

theorem Original.folded (decode : V → Option (Object P)) (h : Original w)
    (hbase : IsCopy encode w s base) (hruns : AreRuns encode w s runs) (hhead : w.store.head ≤ restored.head)
    (hsame : SameRecords w s restored) :
    Folded encode w s (folded decode base runs restored .contract) := by
  obtain ⟨rfl, hkeys⟩ := hbase
  have hstart (k : String) := getElem?_gather .contract base k
  rw [Drill.folded, foldl_runs hruns hsame]
  refine ⟨fun k hk ↦ h.tracks ?_ hk hhead hsame, fun k hk ↦ ?_, ?_⟩
  · rw [(hstart k).1 hk, hkeys, Option.map_map]
    rfl
  · refine List.foldlRecOn (motive := fun f : Folding V ↦ f.fold[k]? = none) _ _ ((hstart k).2 hk)
      fun f hf c _ ↦ ?_
    rw [getElem?_foldMain hk, hf]
  · refine List.foldlRecOn (motive := fun f : Folding V ↦
      ∀ k ∈ f.expired, Expires w base.head k) _ _ (fun k hk ↦ nomatch hk) fun f hf c hc k hk ↦ ?_
    obtain ⟨t, ht, rfl⟩ := List.mem_map.mp hc
    exact (mem_expired_foldMain hsame ht hk).elim (hf k) id

theorem Original.mismatches_folded (h : Original w) (hbase : IsCopy encode w s base)
    (hruns : AreRuns encode w s runs) (hdecode : ∀ v, decode (encode v) = some v)
    (hcopy : IsCopy encode w w.store.head restored) :
    (Drill.folded decode base runs restored .contract).mismatches = [] := by
  obtain ⟨rfl, -⟩ := hbase
  rw [Drill.folded, foldl_runs hruns (SameRecords.of_isCopy h hcopy)]
  refine List.foldlRecOn (motive := fun f : Folding V ↦ f.mismatches = []) _ _ rfl
    fun f hf c hc ↦ ?_
  obtain ⟨t, ht, rfl⟩ := List.mem_map.mp hc
  rw [mismatches_foldMain h hdecode hcopy ht, hf]

variable [DecidableEq V]

/-- A drill passes where the fold came upon nothing, and every key that the fold or the copy holds
is right. -/
theorem passed_iff {ex : Exclusions} : (foldCompare decode base runs restored ex).passed ↔
    (folded decode base runs restored ex).mismatches = [] ∧ ∀ k,
      ((folded decode base runs restored ex).fold[k]?).isSome ∨
        ((gather ex restored).1[k]?).isSome →
      mismatchOf decode ex (folded decode base runs restored ex).expired
        (folded decode base runs restored ex).fold (gather ex restored).1 k = none := by
  have hmem (m : KeyMap String (Held V)) (k : String) :
      k ∈ m.toList.map Prod.fst ↔ (m[k]?).isSome := by
    rw [List.mem_map, Option.isSome_iff_exists]
    constructor
    · rintro ⟨e, he, rfl⟩
      exact ⟨e.2, KeyMap.mem_toList.mp he⟩
    · rintro ⟨v, hv⟩
      exact ⟨(k, v), KeyMap.mem_toList.mpr hv, rfl⟩
  rw [Report.passed, List.isEmpty_iff, foldCompare, List.append_eq_nil_iff,
    List.filterMap_eq_nil_iff]
  refine and_congr_right fun _ ↦ forall_congr' fun k ↦ ?_
  rw [keySet, List.mem_insertionSort, List.mem_dedup, List.mem_append, hmem, hmem]
  rfl

end Whole

end Spira.Store.Drill
