import Mathlib.Algebra.Order.BigOperators.Group.List
import Mathlib.Data.List.MinMax
import Mathlib.Data.String.Basic
import Mathlib.Order.Nat
import Spira.Claim.Sessions
import Spira.Lib.Ties

/-!
# Orders of the rows

The rows of a bead come from two logs, so they may stand in any order.  Sorting leaves that order
only where events tie in their second and kind: returns of different causes are all that can
differ there.

What goes by time and kind alone is the same in every order (`floorOf_congr`, `bareReopened_congr`),
and so are the sessions up to ties within each (`tied_sessionsFrom`).  Which of several tied
returns is the one that ends a session is not: `counts_same_iff` says when that matters.
-/

set_option autoImplicit false

namespace Spira.Claim

/-! ## Events that tie -/

/-- What the order goes by. -/
def Event.key (e : Event) : String × ℕ := (e.1, e.2.precedence)

theorem Event.key_eq_iff {a b : Event} :
    a.key = b.key ↔ a.1 = b.1 ∧ a.2.precedence = b.2.precedence := Prod.ext_iff

theorem Event.le_or_le (a b : Event) : a.le b ∨ b.le a := by
  rcases lt_trichotomy a.1 b.1 with h | h | h
  · exact .inl (.inl h)
  · rcases le_total a.2.precedence b.2.precedence with hp | hp
    · exact .inl (.inr ⟨h, hp⟩)
    · exact .inr (.inr ⟨h.symm, hp⟩)
  · exact .inr (.inl h)

theorem Event.le_trans (a b c : Event) (hab : a.le b) (hbc : b.le c) : a.le c := by
  rcases hab with hab | ⟨hab, hp⟩ <;> rcases hbc with hbc | ⟨hbc, hp'⟩
  · exact .inl (lt_trans hab hbc)
  · exact .inl (hbc ▸ hab)
  · exact .inl (hab ▸ hbc)
  · exact .inr ⟨hab.trans hbc, hp.trans hp'⟩

theorem Event.le_of_key {a b : Event} (h : a.key = b.key) : a.le b :=
  .inr ⟨(Event.key_eq_iff.mp h).1, (Event.key_eq_iff.mp h).2.le⟩

theorem Event.key_of_le {a b : Event} (hab : a.le b) (hba : b.le a) : a.key = b.key := by
  rcases hab with hab | ⟨ht, hp⟩
  · rcases hba with hba | ⟨ht, -⟩
    · exact absurd hba (lt_asymm hab)
    · exact absurd ht hab.ne'
  · rcases hba with hba | ⟨-, hp'⟩
    · exact absurd ht hba.ne'
    · exact Prod.ext ht (hp.antisymm hp')

/-- **Two orders of the rows give events that differ in their ties.** -/
theorem tied_ordered {rows rows' : List EventRow} (h : rows.Perm rows') :
    Tied Event.key (ordered rows) (ordered rows') := by
  have hsorted : ∀ rows, (ordered rows).Pairwise Event.le := fun rows ↦
    (pairwise_insertionSort Event.le_or_le Event.le_trans
      (List.pairwise_of_forall (R := fun _ _ ↦ True) fun _ _ ↦ trivial)).imp And.left
  refine tied_of_perm (r := Event.le) (fun _ _ ↦ Event.key_of_le) (hsorted rows) (hsorted rows') ?_
  exact ((List.perm_insertionSort _ _).trans (h.filterMap _)).trans
    (List.perm_insertionSort _ _).symm

/-! ## What goes by the keys -/

theorem poisonCleared_iff (k : EventKind) : k = .poisonCleared ↔ k.precedence = 0 := by
  cases k <;> simp [EventKind.precedence]

theorem claim_iff (k : EventKind) : k = .claim ↔ k.precedence = 1 := by
  cases k <;> simp [EventKind.precedence]

theorem reopened_iff (k : EventKind) : k = .reopened ↔ k.precedence = 4 := by
  cases k <;> simp [EventKind.precedence]

theorem floorOf_congr {evs evs' : List Event} (h : evs.map Event.key = evs'.map Event.key) :
    floorOf evs = floorOf evs' := by
  have hkeys : ∀ evs : List Event, (evs.filter (·.2 = .poisonCleared)).map Prod.fst =
      ((evs.map Event.key).filter (·.2 = 0)).map Prod.fst := by
    intro evs
    simp only [poisonCleared_iff, List.filter_map, List.map_map]
    rfl
  rw [floorOf, floorOf, hkeys, hkeys, h]

theorem causeRows_congr {evs evs' : List Event} (h : evs.map Event.key = evs'.map Event.key) :
    causeRows evs = causeRows evs' := by
  have hkeys : ∀ evs : List Event, causeRows evs = (evs.map Event.key).zipIdx.filterMap fun p ↦
      if p.1.2 = 5 then some ((epochS p.1.1).getD i64Min, p.2) else none := by
    intro evs
    rw [causeRows, List.zipIdx_map, List.filterMap_map]
    refine List.filterMap_congr fun p _ ↦ ?_
    obtain ⟨⟨t, k⟩, i⟩ := p
    cases k <;> rfl
  rw [hkeys, hkeys, h]

theorem bareFrom_congr (causes : List (ℤ × ℕ)) (n : ℕ) : ∀ {evs evs' : List Event},
    evs.map Event.key = evs'.map Event.key → ∀ paired,
      bareFrom causes paired (evs.zipIdx n) = bareFrom causes paired (evs'.zipIdx n) := by
  intro evs
  induction evs generalizing n with
  | nil =>
    intro evs' h paired
    rw [List.map_eq_nil_iff.mp h.symm]
  | cons e evs ih =>
    intro evs' h paired
    cases evs' with
    | nil => exact absurd h (List.cons_ne_nil _ _)
    | cons e' evs' =>
      obtain ⟨hkey, hrest⟩ := List.cons_eq_cons.mp h
      obtain ⟨ht, hp⟩ := Event.key_eq_iff.mp hkey
      have hk : e.2 = .reopened ↔ e'.2 = .reopened := by rw [reopened_iff, reopened_iff, hp]
      rw [List.zipIdx_cons, List.zipIdx_cons, bareFrom, bareFrom]
      simp only [hk, ht, ih (n + 1) hrest]

theorem bareReopened_congr {evs evs' : List Event} (h : evs.map Event.key = evs'.map Event.key) :
    bareReopened evs = bareReopened evs' := by
  rw [bareReopened, bareReopened, causeRows_congr h]
  exact bareFrom_congr _ 0 h []

/-- The returns that count are the same in every order. -/
theorem returns_congr {evs evs' : List Event} (h : Tied Event.key evs evs') :
    (returnsOf evs).countP (·.counts) = (returnsOf evs').countP (·.counts) := by
  rw [returnsOf, returnsOf, List.countP_append, List.countP_append, bareReopened_congr h.map_key,
    (h.perm.filterMap _).countP_eq]

theorem tied_afterFloor {evs evs' : List Event} (h : Tied Event.key evs evs') :
    Tied Event.key (afterFloor evs) (afterFloor evs') := by
  rw [afterFloor, afterFloor, floorOf_congr h.map_key]
  exact h.filter _

/-! ## Sessions that tie -/

/-- Sessions one by one the same up to ties. -/
abbrev TiedSessions : List Session → List Session → Prop :=
  List.Forall₂ fun s s' ↦ Tied Event.key s.events s'.events

theorem tied_trans : ∀ {p p' p'' : List Session}, TiedSessions p p' → TiedSessions p' p'' →
    TiedSessions p p''
  | _, _, _, .nil, .nil => .nil
  | _, _, _, .cons h hs, .cons h' hs' => .cons (h.trans h') (tied_trans hs hs')

theorem markOfReturn_ne_claim (c : String) : markOfReturn c ≠ .claim := by
  rw [markOfReturn]
  split
  · split <;> exact Mark.noConfusion
  · exact Mark.noConfusion

theorem mark_claim_iff (e : Event) : e.mark = .claim ↔ e.2.precedence = 1 := by
  obtain ⟨t, k⟩ := e
  cases k with
  | requeued c =>
    rw [Event.mark, EventKind.mark]
    split <;> simp [EventKind.precedence, markOfReturn_ne_claim]
  | reopen c => simp [Event.mark, EventKind.mark, EventKind.precedence, markOfReturn_ne_claim]
  | _ => simp [Event.mark, EventKind.mark, EventKind.precedence]

theorem sessionsFrom_of_not_claim {e : Event} (h : e.mark ≠ .claim) (openAt : Option String)
    (evs : List Event) : sessionsFrom openAt (e :: evs) =
      (e :: (sessionsFrom (if e.mark.ends then none else openAt) evs).1,
        (sessionsFrom (if e.mark.ends then none else openAt) evs).2) :=
  if_neg fun hclaim ↦ h hclaim.1

/-- **The sessions are the same up to ties.** -/
theorem tied_sessionsFrom {l l' : List Event} (h : Tied Event.key l l') : ∀ openAt,
    Tied Event.key (sessionsFrom openAt l).1 (sessionsFrom openAt l').1 ∧
      TiedSessions (sessionsFrom openAt l).2 (sessionsFrom openAt l').2 := by
  induction h with
  | nil => exact fun _ ↦ ⟨.nil, .nil⟩
  | @cons e l l' _ ih =>
    intro openAt
    rw [sessionsFrom, sessionsFrom]
    split
    · exact ⟨.nil, .cons (ih _).1 (ih _).2⟩
    · exact ⟨.cons e (ih _).1, (ih _).2⟩
  | @swap a b l hkey =>
    intro openAt
    obtain ⟨ht, hp⟩ := Event.key_eq_iff.mp hkey
    have hrefl : ∀ p : List Session, TiedSessions p p :=
      fun p ↦ List.forall₂_same.mpr fun s _ ↦ .refl _
    by_cases hclaim : a.mark = .claim
    · have hab : a = b := by
        rw [mark_claim_iff] at hclaim
        exact Prod.ext ht (((claim_iff _).mpr hclaim).trans ((claim_iff _).mpr (hp ▸ hclaim)).symm)
      rw [hab]
      exact ⟨.refl _, hrefl _⟩
    · have hb : b.mark ≠ .claim := by
        rw [mark_claim_iff] at hclaim
        rwa [ne_eq, mark_claim_iff, ← hp]
      have hopen : (if a.mark.ends then none else if b.mark.ends then none else openAt) =
          if b.mark.ends then none else if a.mark.ends then none else openAt := by
        cases a.mark.ends <;> cases b.mark.ends <;> rfl
      simp only [sessionsFrom_of_not_claim hclaim, sessionsFrom_of_not_claim hb, hopen]
      exact ⟨.swap _ hkey, hrefl _⟩
  | trans _ _ ih ih' =>
    intro openAt
    exact ⟨(ih openAt).1.trans (ih' openAt).1, tied_trans (ih openAt).2 (ih' openAt).2⟩

theorem map_of_tied {f : Session → ℕ}
    (hf : ∀ {s s' : Session}, Tied Event.key s.events s'.events → f s = f s') :
    ∀ {p p' : List Session}, TiedSessions p p' → p.map f = p'.map f
  | _, _, .nil => rfl
  | _, _, .cons h hs => by rw [List.map_cons, List.map_cons, hf h, map_of_tied hf hs]

/-! ## The end of a session -/

/-- How many of the closes and exempt rows of a session are no credit, by what ends it. -/
def spends (closes : ℕ) : Mark → ℕ
  | .close | .exempt => 1
  | .noVerdict => min 1 closes
  | .claim | .uncharged | .none => 0

def Session.end? (s : Session) : Option Event := s.events.find? (·.mark.ends)

def Session.spent (s : Session) : ℕ :=
  (s.end?.map fun e ↦ spends (closes s.events) e.mark).getD 0

/-- **The closes and exempt rows of a session are its credits and what its end spends.** -/
theorem credits_add_spent (s : Session) :
    s.credits + s.spent = closes s.events + exempts s.events := by
  obtain ⟨at_, l⟩ := s
  rw [Session.credits, Session.spent, Session.end?]
  dsimp only
  induction l with
  | nil => rfl
  | cons e l ih =>
    rw [creditsFrom, List.find?_cons]
    cases hm : e.mark with
    | claim => simpa [hm, Mark.ends, closes, exempts] using ih
    | none => simpa [hm, Mark.ends, closes, exempts] using ih
    | close => simp [hm, Mark.ends, closes, exempts, spends, creditsFrom_some]; omega
    | exempt => simp [hm, Mark.ends, closes, exempts, spends, creditsFrom_some]; omega
    | noVerdict => simp [hm, Mark.ends, closes, exempts, spends, creditsFrom_some]; omega
    | uncharged => simp [hm, Mark.ends, closes, exempts, spends, creditsFrom_some]

/-- What can stand first among the ends of a session: those that tie with its first. -/
def Session.contested (s : Session) : List Event :=
  s.events.filter fun e ↦ e.mark.ends ∧ some e.key = s.end?.map Event.key

/-- The most that an end of the session can spend. -/
def Session.most (s : Session) : ℕ :=
  (s.contested.map fun e ↦ spends (closes s.events) e.mark).foldr max 0

/-- Whether it is all the same which end stands first. -/
def Session.Agreed (s : Session) : Prop :=
  ∀ a ∈ s.contested, ∀ b ∈ s.contested,
    spends (closes s.events) a.mark = spends (closes s.events) b.mark

theorem end_mem_contested {s : Session} {e : Event} (h : s.end? = some e) : e ∈ s.contested := by
  refine List.mem_filter.mpr ⟨List.mem_of_find?_eq_some h, decide_eq_true ⟨?_, ?_⟩⟩
  · exact List.find?_some (p := fun e : Event ↦ e.mark.ends) h
  · rw [h]
    rfl

theorem contested_eq_nil {s : Session} (h : s.end? = none) : s.contested = [] := by
  refine List.filter_eq_nil_iff.mpr fun e he ↦ ?_
  have hends := List.find?_eq_none.mp h e he
  simp [hends]

theorem spends_le_most {s : Session} {e : Event} (h : e ∈ s.contested) :
    spends (closes s.events) e.mark ≤ s.most :=
  List.le_max_of_le' 0 (List.mem_map_of_mem h) le_rfl

theorem spent_le_most (s : Session) : s.spent ≤ s.most := by
  rw [Session.spent]
  cases h : s.end? with
  | none => exact Nat.zero_le _
  | some e => exact spends_le_most (end_mem_contested h)

/-- Where the end spends the most of those that could stand first, that is the most. -/
theorem spent_eq_most {s : Session}
    (h : ∀ e, s.end? = some e → ∀ a ∈ s.contested,
      spends (closes s.events) a.mark ≤ spends (closes s.events) e.mark) : s.spent = s.most := by
  refine (spent_le_most s).antisymm ?_
  rw [Session.most, Session.spent]
  cases hend : s.end? with
  | none =>
    rw [contested_eq_nil hend]
    exact le_rfl
  | some e =>
    refine List.max_le_of_forall_le (α := ℕ) _ _ fun n hn ↦ ?_
    obtain ⟨a, ha, rfl⟩ := List.mem_map.mp hn
    exact h e hend a ha

theorem closes_congr {l l' : List Event} (h : Tied Event.key l l') : closes l = closes l' :=
  h.perm.countP_eq _

theorem exempts_congr {l l' : List Event} (h : Tied Event.key l l') : exempts l = exempts l' :=
  h.perm.countP_eq _

variable {s s' : Session}

theorem ended_congr (h : Tied Event.key s.events s'.events) : s.ended = s'.ended := by
  rw [Bool.eq_iff_iff, Session.ended, Session.ended, List.any_eq_true, List.any_eq_true]
  exact exists_congr fun e ↦ and_congr_left fun _ ↦ h.perm.mem_iff

theorem contested_congr (h : Tied Event.key s.events s'.events) :
    s.contested.Perm s'.contested := by
  have hend : s.end?.map Event.key = s'.end?.map Event.key := by
    rw [Session.end?, Session.end?, ← List.head?_filter, ← List.head?_filter]
    exact (h.filter _).key_head?
  rw [Session.contested, Session.contested, hend]
  exact h.perm.filter _

theorem most_congr (h : Tied Event.key s.events s'.events) : s.most = s'.most := by
  rw [Session.most, Session.most, closes_congr h]
  exact ((contested_congr h).map _).foldr_eq _

theorem agreed_congr (h : Tied Event.key s.events s'.events) : s.Agreed ↔ s'.Agreed := by
  rw [Session.Agreed, Session.Agreed, closes_congr h]
  simp only [(contested_congr h).mem_iff]

/-! ## Orders that decide the ends -/

/-- Events of one key go by rank. -/
def ByRank (rank : Mark → ℕ) (a b : Event) : Prop := a.le b ∧ (b.le a → rank a.mark ≤ rank b.mark)

/-- The rows can be put in an order whose events of one key go by rank. -/
theorem exists_byRank (rank : Mark → ℕ) (rows : List EventRow) (bead : String) :
    ∃ rows' : List EventRow, rows'.Perm rows ∧
      (ordered (rows'.filter (·.issueId = bead))).Pairwise (ByRank rank) := by
  let rowRank : EventRow → ℕ := fun r ↦ ((EventKind.of r).map fun k ↦ rank k.mark).getD 0
  refine ⟨rows.insertionSort (rowRank · ≤ rowRank ·), List.perm_insertionSort _ _, ?_⟩
  have hrows : (rows.insertionSort (rowRank · ≤ rowRank ·)).Pairwise (rowRank · ≤ rowRank ·) :=
    (pairwise_insertionSort (fun a b ↦ le_total (rowRank a) (rowRank b)) (fun _ _ _ ↦ le_trans)
      (List.pairwise_of_forall (R := fun _ _ ↦ True) fun _ _ ↦ trivial)).imp And.left
  have hevents : (eventsOf ((rows.insertionSort (rowRank · ≤ rowRank ·)).filter
      (·.issueId = bead))).Pairwise fun a b ↦ rank a.mark ≤ rank b.mark := by
    refine List.pairwise_filterMap.mpr ((hrows.filter _).imp fun {r r'} hle e he e' he' ↦ ?_)
    obtain ⟨k, hk, rfl⟩ := Option.map_eq_some_iff.mp he
    obtain ⟨k', hk', rfl⟩ := Option.map_eq_some_iff.mp he'
    simpa only [rowRank, hk, hk', Option.map_some, Option.getD_some] using hle
  exact pairwise_insertionSort Event.le_or_le Event.le_trans hevents

theorem sessionsFrom_sublist : ∀ (l : List Event) (openAt : Option String),
    (sessionsFrom openAt l).1.Sublist l ∧
      ∀ s ∈ (sessionsFrom openAt l).2, s.events.Sublist l
  | [], _ => ⟨.slnil, nofun⟩
  | e :: l, openAt => by
    rw [sessionsFrom]
    split
    · obtain ⟨hfirst, hrest⟩ := sessionsFrom_sublist l (some e.1)
      refine ⟨List.nil_sublist _, fun s hs ↦ ?_⟩
      rcases List.mem_cons.mp hs with rfl | hs
      · exact hfirst.cons e
      · exact (hrest s hs).cons e
    · obtain ⟨hfirst, hrest⟩ := sessionsFrom_sublist l (if e.mark.ends then none else openAt)
      exact ⟨hfirst.cons_cons e, fun s hs ↦ (hrest s hs).cons e⟩

/-- Of the events that tie with the end of a session, the end is one of least rank. -/
theorem end_rank {rank : Mark → ℕ} {s : Session} (hs : s.events.Pairwise (ByRank rank)) {e a : Event}
    (he : s.end? = some e) (ha : a ∈ s.contested) : rank e.mark ≤ rank a.mark := by
  obtain ⟨hmem, hends⟩ := List.mem_filter.mp ha
  obtain ⟨hends, hkey⟩ := of_decide_eq_true hends
  have hkey : a.key = e.key := by simpa [he] using hkey
  obtain ⟨-, pre, post, hsplit, hpre⟩ := List.find?_eq_some_iff_append.mp he
  rw [hsplit] at hmem hs
  rcases List.mem_append.mp hmem with hmem | hmem
  · simpa [hends] using hpre a hmem
  · rcases List.mem_cons.mp hmem with rfl | hmem
    · exact le_rfl
    · have hrank := (List.pairwise_cons.mp (List.pairwise_append.mp hs).2.1).1 a hmem
      exact hrank.2 (Event.le_of_key hkey)

/-- What spends more goes first. -/
def rank : Mark → ℕ
  | .close | .exempt => 0
  | .noVerdict => 1
  | .claim | .uncharged | .none => 2

theorem spends_of_rank {n : ℕ} {a b : Mark} (h : rank a ≤ rank b) : spends n b ≤ spends n a := by
  cases a <;> cases b <;> simp [rank, spends] at h ⊢

theorem spends_of_rank' {n : ℕ} {a b : Mark} (h : 2 - rank a ≤ 2 - rank b) :
    spends n a ≤ spends n b := by
  refine spends_of_rank ?_
  have hrank : rank b ≤ 2 := by cases b <;> decide
  omega

/-! ## The counts -/

theorem countP_sessionsFrom {p : Event → Bool} (hp : ∀ e : Event, e.mark = .claim → p e = false) :
    ∀ (l : List Event) (openAt : Option String), l.countP p = (sessionsFrom openAt l).1.countP p +
      ((sessionsFrom openAt l).2.map fun s ↦ s.events.countP p).sum
  | [], _ => rfl
  | e :: l, openAt => by
    rw [sessionsFrom]
    split
    · rename_i hclaim
      rw [List.countP_cons, countP_sessionsFrom hp l (some e.1), hp e hclaim.1]
      simp
    · rw [List.countP_cons, countP_sessionsFrom hp l (if e.mark.ends then none else openAt)]
      simp only [List.countP_cons]
      omega

/-- **The closes and exempt rows after the floor are the credits and what the ends spend.** -/
theorem creditsOf_add_spent (evs : List Event) :
    creditsOf evs + ((sessions evs).map Session.spent).sum =
      closes (afterFloor evs) + exempts (afterFloor evs) := by
  have hcloses : closes (afterFloor evs) =
      closes (opening evs) + ((sessions evs).map fun s ↦ closes s.events).sum :=
    countP_sessionsFrom (by simp +contextual) _ _
  have hexempts : exempts (afterFloor evs) =
      exempts (opening evs) + ((sessions evs).map fun s ↦ exempts s.events).sum :=
    countP_sessionsFrom (by simp +contextual) _ _
  have hsessions : ((sessions evs).map Session.credits).sum +
      ((sessions evs).map Session.spent).sum =
        ((sessions evs).map fun s ↦ closes s.events).sum +
          ((sessions evs).map fun s ↦ exempts s.events).sum := by
    rw [← List.sum_map_add, ← List.sum_map_add]
    simp only [credits_add_spent]
  rw [creditsOf, creditsFrom_some]
  simp only [Bool.false_eq_true, if_false]
  omega

/-- What the two logs must agree on. -/
def SameCounts (l l' : Ledger) : Prop :=
  l.attempts = l'.attempts ∧ l.requeues = l'.requeues ∧ l.reclaims = l'.reclaims ∧
    l.floor = l'.floor

/-- All but the attempts is the same in every order. -/
theorem counts_of_perm {rows rows' : List EventRow} (bead : String) (h : rows'.Perm rows) :
    (fold bead rows').requeues = (fold bead rows).requeues ∧
      (fold bead rows').reclaims = (fold bead rows).reclaims ∧
      (fold bead rows').floor = (fold bead rows).floor := by
  have htied := tied_ordered (h.filter (·.issueId = bead))
  refine ⟨?_, htied.perm.countP_eq _, floorOf_congr htied.map_key⟩
  rw [fold, fold]
  dsimp only
  rw [(List.perm_insertionSort _ _).countP_eq, (List.perm_insertionSort _ _).countP_eq]
  exact returns_congr htied

theorem sessions_map {evs evs' : List Event} (h : Tied Event.key evs evs') {f : Session → ℕ}
    (hf : ∀ {s s' : Session}, Tied Event.key s.events s'.events → f s = f s') :
    (sessions evs).map f = (sessions evs').map f :=
  map_of_tied hf (tied_sessionsFrom (tied_afterFloor h) none).2

/-- The sessions that nothing ended. -/
def failed (evs : List Event) : ℕ := (sessions evs).countP (!·.ended)

/-- The closes and exempt rows after the floor. -/
def spares (evs : List Event) : ℕ := closes (afterFloor evs) + exempts (afterFloor evs)

/-- The most of them that the ends of the sessions can spend. -/
def mostSpent (evs : List Event) : ℕ := ((sessions evs).map Session.most).sum

theorem attempts_eq (bead : String) (rows : List EventRow) :
    let evs := ordered (rows.filter (·.issueId = bead))
    (fold bead rows).attempts = failed evs + ((sessions evs).map Session.spent).sum - spares evs := by
  intro evs
  have hattempts : (fold bead rows).attempts = failed evs - creditsOf evs := attemptsOf_eq evs
  have hsum : creditsOf evs + ((sessions evs).map Session.spent).sum = spares evs :=
    creditsOf_add_spent evs
  omega

theorem failed_congr {evs evs' : List Event} (h : Tied Event.key evs evs') :
    failed evs = failed evs' := by
  have hcount : ∀ evs, failed evs = ((sessions evs).map fun s ↦ if s.ended then 0 else 1).sum := by
    intro evs
    rw [failed]
    induction sessions evs with
    | nil => rfl
    | cons s _ ih =>
      rw [List.countP_cons, ih, List.map_cons, List.sum_cons, Nat.add_comm]
      cases s.ended <;> rfl
  rw [hcount, hcount, sessions_map h]
  intro s s' htied
  rw [ended_congr htied]

theorem spares_congr {evs evs' : List Event} (h : Tied Event.key evs evs') :
    spares evs = spares evs' := by
  rw [spares, spares, closes_congr (tied_afterFloor h), exempts_congr (tied_afterFloor h)]

theorem mostSpent_congr {evs evs' : List Event} (h : Tied Event.key evs evs') :
    mostSpent evs = mostSpent evs' := by
  rw [mostSpent, mostSpent, sessions_map h most_congr]

theorem agreed_of_tied {evs evs' : List Event} (h : Tied Event.key evs evs')
    (hagreed : ∀ s ∈ sessions evs, s.Agreed) : ∀ s ∈ sessions evs', s.Agreed := by
  have hall : ∀ {p p' : List Session}, TiedSessions p p' →
      (∀ s ∈ p, s.Agreed) → ∀ s ∈ p', s.Agreed := by
    intro p p' hp
    induction hp with
    | nil => exact fun h ↦ h
    | cons h _ ih =>
      intro hagreed
      rw [List.forall_mem_cons] at hagreed ⊢
      exact ⟨(agreed_congr h).mp hagreed.1, ih hagreed.2⟩
  exact hall (tied_sessionsFrom (tied_afterFloor h) none).2 hagreed

theorem spent_le_mostSpent (evs : List Event) :
    ((sessions evs).map Session.spent).sum ≤ mostSpent evs :=
  List.sum_le_sum fun s _ ↦ spent_le_most s

/-- Where it is all the same which end stands first, the most is spent. -/
theorem spent_of_agreed {evs : List Event} (h : ∀ s ∈ sessions evs, s.Agreed) :
    ((sessions evs).map Session.spent).sum = mostSpent evs := by
  rw [mostSpent]
  refine congrArg List.sum (List.map_congr_left fun s hs ↦ spent_eq_most fun e he a ha ↦ ?_)
  exact (h s hs a ha e (end_mem_contested he)).le

variable {rows rows' : List EventRow} {bead : String}

theorem session_byRank {rank : Mark → ℕ} {evs : List Event} (h : evs.Pairwise (ByRank rank))
    {s : Session} (hs : s ∈ sessions evs) : s.events.Pairwise (ByRank rank) :=
  (h.filter _).sublist ((sessionsFrom_sublist _ none).2 s hs)

/-- There is an order that spends the most. -/
theorem exists_mostSpent (rows : List EventRow) (bead : String) :
    ∃ rows' : List EventRow, rows'.Perm rows ∧
      let evs := ordered (rows'.filter (·.issueId = bead))
      ((sessions evs).map Session.spent).sum = mostSpent evs := by
  obtain ⟨rows', hperm, hrank⟩ := exists_byRank rank rows bead
  refine ⟨rows', hperm, ?_⟩
  intro evs
  rw [mostSpent]
  refine congrArg List.sum (List.map_congr_left fun s hs ↦ spent_eq_most fun e he a ha ↦ ?_)
  exact spends_of_rank (end_rank (session_byRank hrank hs) he ha)

/-- Where it is not all the same which end stands first, there is an order that spends less. -/
theorem exists_less (h : ¬ ∀ s ∈ sessions (ordered (rows.filter (·.issueId = bead))), s.Agreed) :
    ∃ rows' : List EventRow, rows'.Perm rows ∧
      let evs := ordered (rows'.filter (·.issueId = bead))
      ((sessions evs).map Session.spent).sum < mostSpent evs := by
  obtain ⟨rows', hperm, hrank⟩ := exists_byRank (2 - rank ·) rows bead
  refine ⟨rows', hperm, ?_⟩
  intro evs
  have hevs : ¬ ∀ s ∈ sessions evs, s.Agreed :=
    fun hagreed ↦ h (agreed_of_tied (tied_ordered (hperm.filter _)) hagreed)
  push Not at hevs
  obtain ⟨s, hs, hdiffer⟩ := hevs
  rw [Session.Agreed] at hdiffer
  push Not at hdiffer
  obtain ⟨a, ha, b, hb, hne⟩ := hdiffer
  refine List.sum_lt_sum _ _ (fun s _ ↦ spent_le_most s) ⟨s, hs, ?_⟩
  rw [Session.spent]
  cases he : s.end? with
  | none => exact absurd (contested_eq_nil he ▸ ha) List.not_mem_nil
  | some e =>
    -- The end spends no more than either of the two, so less than one of them.
    have hle := fun c hc ↦ spends_of_rank' (n := closes s.events)
      (end_rank (session_byRank hrank hs) (a := c) he hc)
    have hea := hle a ha
    have heb := hle b hb
    have hma := spends_le_most ha
    have hmb := spends_le_most hb
    rw [Option.map_some, Option.getD_some]
    omega

/-- **Every order of the rows gives the same counts** just where it is all the same which end
stands first in each session, or where no session is charged however they stand. -/
theorem counts_same_iff (bead : String) (rows : List EventRow) :
    let evs := ordered (rows.filter (·.issueId = bead))
    (∀ rows' : List EventRow, rows'.Perm rows → SameCounts (fold bead rows') (fold bead rows)) ↔
      (∀ s ∈ sessions evs, s.Agreed) ∨ failed evs + mostSpent evs ≤ spares evs := by
  intro evs
  have htied : ∀ rows' : List EventRow, rows'.Perm rows →
      Tied Event.key (ordered (rows'.filter (·.issueId = bead))) evs :=
    fun rows' hperm ↦ tied_ordered (hperm.filter _)
  have hattempts : (fold bead rows).attempts =
      failed evs + ((sessions evs).map Session.spent).sum - spares evs := attempts_eq bead rows
  constructor
  · intro hsame
    by_contra hnot
    rw [not_or, not_le] at hnot
    obtain ⟨rows₁, hperm₁, hspent₁⟩ := exists_mostSpent rows bead
    obtain ⟨rows₂, hperm₂, hspent₂⟩ := exists_less hnot.1
    have hequal := (hsame rows₁ hperm₁).1.trans (hsame rows₂ hperm₂).1.symm
    rw [attempts_eq, attempts_eq] at hequal
    dsimp only at hspent₁ hspent₂
    rw [hspent₁, failed_congr (htied _ hperm₁), mostSpent_congr (htied _ hperm₁),
      spares_congr (htied _ hperm₁), failed_congr (htied _ hperm₂), spares_congr (htied _ hperm₂)]
      at hequal
    rw [mostSpent_congr (htied _ hperm₂)] at hspent₂
    omega
  · intro h rows' hperm
    refine ⟨?_, counts_of_perm bead hperm⟩
    rw [attempts_eq, hattempts, failed_congr (htied _ hperm), spares_congr (htied _ hperm)]
    rcases h with h | h
    · rw [spent_of_agreed h, spent_of_agreed (agreed_of_tied (htied _ hperm).symm h),
        mostSpent_congr (htied _ hperm)]
    · have hspent := spent_le_mostSpent (ordered (rows'.filter (·.issueId = bead)))
      rw [mostSpent_congr (htied _ hperm)] at hspent
      have hspent' := spent_le_mostSpent evs
      omega

/-- A session that failed, and one that two returns ended in one second. -/
def raced (first second : String) : List EventRow :=
  [⟨"b", "claimed", none, "2026-09-28T10:00:00Z"⟩, ⟨"b", "claimed", none, "2026-09-28T10:01:00Z"⟩,
    ⟨"b", "requeued", some first, "2026-09-28T10:02:00Z"⟩,
    ⟨"b", "requeued", some second, "2026-09-28T10:02:00Z"⟩,
    ⟨"b", "closed", none, "2026-09-28T10:03:00Z"⟩]

/-- The attempts depend on which of the two returns stands first. -/
theorem raced_differ :
    (raced "merge-conflict" "gate-no-verdict").Perm (raced "gate-no-verdict" "merge-conflict") ∧
      (fold "b" (raced "gate-no-verdict" "merge-conflict")).attempts = 1 ∧
      (fold "b" (raced "merge-conflict" "gate-no-verdict")).attempts = 0 := by
  decide

end Spira.Claim
