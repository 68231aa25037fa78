import Mathlib.Data.List.Nodup
import Spira.Goodput.Intents

/-!
# One live intent for a target

An intent is live while it may still be applied in time: it is not judged, its owner has not refused
it, and its horizon has not passed.  However passes and owners take turns, no two live intents have
one target (`Kept.single`): a pass reads the intents under the lock, and what it writes is fenced on
the lock's token, so an intent that it did not read is one of its own (`Knows`), and a plan's steps
have targets of their own.

An owner moves a knob from the value that it has to the one its intent says, and acknowledges the
intent in the same transaction, so a knob's moves follow on one another and no intent makes two
(`Lawful`).
-/

set_option autoImplicit false

namespace Spira.Goodput

open DesiredState (formatRfc3339 parseRfc3339)

/-! ## The intents -/

/-- An intent later: acknowledged and judged once at most, and otherwise as it was. -/
structure Grown (i i' : Intent) : Prop where
  core : { i' with ack := i.ack, judgement := i.judgement } = i
  ack : ∀ a, i.ack = some a → i'.ack = some a
  judgement : ∀ j, i.judgement = some j → i'.judgement = some j

/-- An intent that may still be applied in time. -/
structure Live (now : ℕ) (i : Intent) : Prop where
  unjudged : i.judgement = none
  taken : ∀ ack, i.ack = some ack → ∀ r v, ack.result ≠ .refused r v
  within : within now i = true

section Intents

variable {i i' i'' : Intent} {now now' : ℕ}

theorem Grown.refl (i : Intent) : Grown i i := ⟨rfl, fun _ h ↦ h, fun _ h ↦ h⟩

theorem Grown.trans (h : Grown i i') (h' : Grown i' i'') : Grown i i'' where
  core := by
    rw [← h.core, ← h'.core]
  ack a ha := h'.ack a (h.ack a ha)
  judgement j hj := h'.judgement j (h.judgement j hj)

theorem Grown.target (h : Grown i i') : i'.target = i.target := by
  have hcore := congrArg Intent.target h.core
  exact hcore

theorem Grown.horizonEnd (h : Grown i i') : horizonEnd i' = horizonEnd i := by
  have hcore := congrArg Goodput.horizonEnd h.core
  exact hcore

theorem Grown.within (h : Grown i i') : Goodput.within now i' = Goodput.within now i := by
  have hcore := congrArg (Goodput.within now) h.core
  exact hcore

theorem Grown.resultOf (h : Grown i i') (observed : ℚ) :
    Goodput.resultOf i' observed = Goodput.resultOf i observed := by
  have hcore := congrArg (Goodput.resultOf · observed) h.core
  exact hcore

theorem within_mono (hnow : now ≤ now') (h : within now' i = true) : within now i = true := by
  rw [within, Option.any_eq_true] at h ⊢
  obtain ⟨e, he, hle⟩ := h
  exact ⟨e, he, decide_eq_true (hnow.trans (of_decide_eq_true hle))⟩

/-- An intent that is live was live before. -/
theorem Live.before (h : Live now' i') (hgrown : Grown i i') (hnow : now ≤ now') : Live now i where
  unjudged := by
    obtain hnone | ⟨j, hj⟩ := i.judgement.eq_none_or_eq_some
    · exact hnone
    · exact absurd ((hgrown.judgement j hj).symm.trans h.unjudged) (Option.some_ne_none j)
  taken ack hack := h.taken ack (hgrown.ack ack hack)
  within := within_mono hnow (hgrown.within ▸ h.within)

/-- A live intent is read back as in flight. -/
theorem readBack_live {a : Assembled} {sec : String} (h : Live now i) :
    readBack a now i sec = .inFlight := by
  rw [readBack, h.unjudged]
  obtain hnone | ⟨⟨at_, result, rev⟩, hack⟩ := i.ack.eq_none_or_eq_some
  · rw [hnone]
    exact if_pos h.within
  · rw [hack]
    cases result with
    | refused r v => exact absurd rfl (h.taken _ hack r v)
    | applied => exact if_pos h.within
    | alreadyApplied => exact if_pos h.within

theorem holds_live {a : Assembled} {li : ListedIntent} {sec : String}
    (hsec : sectionOf li.key = some sec) (h : Live now li.intent) : Holds a now li sec :=
  ⟨hsec, by rw [readBack_live h]; rfl⟩

theorem target_mem_reach (a : Assembled) (li : ListedIntent) (sec : String) :
    "target:" ++ li.intent.target ∈ reach a li sec :=
  target_mem_neighbourhood a sec _ li.intent.target

end Intents

/-- A judgement is of an intent that its owner took, made after the horizon, and says whether the
observed value met what was expected. -/
structure Judges (i : Intent) (j : Judgement) : Prop where
  taken : ∃ ack, i.ack = some ack ∧ ∀ r v, ack.result ≠ .refused r v
  after : ∃ t, j.at_ = formatRfc3339 t ∧ within t i = false
  result : j.result = resultOf i j.observed

theorem Judges.grown {i i' : Intent} {j : Judgement} (h : Judges i j) (hgrown : Grown i i') :
    Judges i' j where
  taken := by
    obtain ⟨ack, hack, hres⟩ := h.taken
    exact ⟨ack, hgrown.ack ack hack, hres⟩
  after := by
    obtain ⟨t, ht, hwithin⟩ := h.after
    exact ⟨t, ht, hgrown.within.trans hwithin⟩
  result := h.result.trans (hgrown.resultOf j.observed).symm

/-! ## The knobs -/

def settingStep (knob : String) (v : Option Setting) : Told → Option Setting
  | .set k v' => if k = knob then some v' else v
  | .moved k _ _ _ to_ => if k = knob then some to_ else v

/-- The value of a knob, of what is told. -/
def settingOf (told : List Told) (knob : String) : Option Setting :=
  told.foldl (settingStep knob) none

theorem settingOf_concat (told : List Told) (t : Told) (knob : String) :
    settingOf (told ++ [t]) knob = settingStep knob (settingOf told knob) t := by
  rw [settingOf, List.foldl_append]
  rfl

/-- The intent that moved a knob. -/
def moverOf : Told → Option (String × ℕ)
  | .set .. => none
  | .moved _ key rev _ _ => some (key, rev)

/-- A knob is set where there is none, is moved from the value that it has, and by no intent
twice. -/
structure Lawful (told : List Told) : Prop where
  set : ∀ pre knob v post, told = pre ++ .set knob v :: post → settingOf pre knob = none
  moved : ∀ pre knob key rev from_ to_ post, told = pre ++ .moved knob key rev from_ to_ :: post →
    (settingOf pre knob).getD .null = from_
  once : (told.filterMap moverOf).Nodup

section Lawful

variable {told : List Told}

theorem Lawful.nil : Lawful [] where
  set _ _ _ _ h := by simp at h
  moved _ _ _ _ _ _ _ h := by simp at h
  once := List.nodup_nil

theorem Lawful.set_concat (h : Lawful told) {knob : String} {v : Setting}
    (hnone : settingOf told knob = none) : Lawful (told ++ [.set knob v]) where
  set pre knob' v' post heq := by
    rcases Records.cut_concat heq with ⟨rfl, ht⟩ | ⟨post', h'⟩
    · cases ht
      exact hnone
    · exact h.set pre knob' v' post' h'
  moved pre knob' key rev from_ to_ post heq := by
    rcases Records.cut_concat heq with ⟨rfl, ht⟩ | ⟨post', h'⟩
    · cases ht
    · exact h.moved pre knob' key rev from_ to_ post' h'
  once := by
    rw [List.filterMap_append]
    exact (List.append_nil _).symm ▸ h.once

theorem Lawful.moved_concat (h : Lawful told) {knob key : String} {rev : ℕ} {from_ to_ : Setting}
    (hfrom : (settingOf told knob).getD .null = from_)
    (hnew : (key, rev) ∉ told.filterMap moverOf) :
    Lawful (told ++ [.moved knob key rev from_ to_]) where
  set pre knob' v' post heq := by
    rcases Records.cut_concat heq with ⟨rfl, ht⟩ | ⟨post', h'⟩
    · cases ht
    · exact h.set pre knob' v' post' h'
  moved pre knob' key' rev' from' to' post heq := by
    rcases Records.cut_concat heq with ⟨rfl, ht⟩ | ⟨post', h'⟩
    · cases ht
      exact hfrom
    · exact h.moved pre knob' key' rev' from' to' post' h'
  once := by
    rw [List.filterMap_append]
    refine List.Nodup.append h.once (List.nodup_singleton _) fun x hx hx' ↦ ?_
    rw [List.mem_singleton.mp hx'] at hx
    exact hnew hx

end Lawful

/-! ## The world -/

/-- A knob moved as the intent says, which is acknowledged. -/
structure Moved (i : Intent) (knob : String) (from_ to_ : Setting) : Prop where
  target : i.target = knob
  from_ : i.from_ = from_
  to_ : i.to_ = to_
  ack : ∃ ack, i.ack = some ack ∧ ack.result = .applied

theorem Moved.grown {i i' : Intent} {knob : String} {from_ to_ : Setting}
    (h : Moved i knob from_ to_) (hgrown : Grown i i') : Moved i' knob from_ to_ where
  target := hgrown.target.trans h.target
  from_ := by
    have hcore := congrArg Intent.from_ hgrown.core
    exact Eq.trans hcore h.from_
  to_ := by
    have hcore := congrArg Intent.to_ hgrown.core
    exact Eq.trans hcore h.to_
  ack := by
    obtain ⟨ack, hack, hres⟩ := h.ack
    exact ⟨ack, hgrown.ack ack hack, hres⟩

/-- The world as the passes and the owners keep it. -/
structure Kept (w : World) : Prop where
  dated : w.store.Dated
  listed : w.store.Listed
  section_ : ∀ key i, w.store.items (.intent key) = some i → (sectionOf key).isSome
  judged : ∀ key i j, w.store.items (.intent key) = some i → i.value.judgement = some j →
    Judges i.value j
  /-- **No two live intents have one target.** -/
  single : ∀ key i key' i', w.store.items (.intent key) = some i →
    w.store.items (.intent key') = some i' → i.value.target = i'.value.target →
      Live (w.nowMs / 1000) i.value → Live (w.nowMs / 1000) i'.value → key = key'
  lawful : Lawful w.told
  /-- A knob has the value that is told of it. -/
  knobs : ∀ k, (w.store.items (.knob k)).map (·.value) = settingOf w.told k
  movers : ∀ knob key rev from_ to_, .moved knob key rev from_ to_ ∈ w.told → rev ≤ w.store.head ∧
    ∀ i, w.store.items (.intent key) = some i → i.createRev = rev → Moved i.value knob from_ to_

/-- A world later: an intent that was there before is as it was then, or has grown. -/
structure Onward (w w' : World) : Prop where
  kept : Kept w → Kept w'
  store : Records.Later w.store w'.store
  clock : w.nowMs ≤ w'.nowMs
  told : w.told <+: w'.told
  grown : ∀ key i', w'.store.items (.intent key) = some i' → i'.createRev ≤ w.store.head →
    ∃ i, w.store.items (.intent key) = some i ∧ i.createRev = i'.createRev ∧
      Grown i.value i'.value

/-- An intent is one that was there before. -/
def Was (w : World) (key : String) (i : Records.Item Intent) : Prop :=
  ∃ j, w.store.items (.intent key) = some j ∧ j.createRev = i.createRev

/-- What a pass relies on that holds the lock under a token, or that holds none: while the lock is
its own, nobody else writes an intent. -/
structure Rely (own : Option ℕ) (w w' : World) : Prop extends Onward w w' where
  fenced : ∀ token, own = some token → token ≤ w.store.head →
    lockToken w'.store = some token →
      ∀ key i, w'.store.items (.intent key) = some i → Was w key i

/-- What a step does, from what is owned before it to what is owned after: an intent is written
under the own token, and a lock is taken under a new one. -/
structure Guar (own own' : Option ℕ) (w w' : World) : Prop extends Onward w w' where
  writes : own' = own ∧ (∀ key i, w'.store.items (.intent key) = some i →
      Was w key i ∨ ∃ token, own = some token ∧ lockToken w'.store = some token) ∨
    own' = some (w.store.head + 1) ∧ w'.store.head = w.store.head + 1 ∧
      ∀ key i, w'.store.items (.intent key) = some i → Was w key i

def Apart (own own' : Option ℕ) : Prop := ∀ token, own = some token → own' ≠ some token

def Valid (own : Option ℕ) (w : World) : Prop := ∀ token, own = some token → token ≤ w.store.head

section Onward

variable {w w' w'' : World} {own own' own₂ : Option ℕ}

theorem Onward.refl (w : World) : Onward w w :=
  ⟨id, .refl _, Nat.le_refl _, List.prefix_rfl, fun _ i hi _ ↦ ⟨i, hi, rfl, .refl _⟩⟩

theorem Onward.trans (h : Onward w w') (h' : Onward w' w'') : Onward w w'' where
  kept := h'.kept ∘ h.kept
  store := h.store.trans h'.store
  clock := h.clock.trans h'.clock
  told := h.told.trans h'.told
  grown key i'' hi'' hrev := by
    obtain ⟨i', hi', hrev', hgrown'⟩ := h'.grown key i'' hi'' (hrev.trans h.store.head)
    obtain ⟨i, hi, hrev, hgrown⟩ := h.grown key i' hi' (hrev'.trans_le hrev)
    exact ⟨i, hi, hrev.trans hrev', hgrown.trans hgrown'⟩

/-- A lock that is held under an old token has been held since. -/
theorem lockToken_before {token : ℕ} (h : Records.Later w.store w'.store)
    (htoken : token ≤ w.store.head) (hlock : lockToken w'.store = some token) :
    lockToken w.store = some token := by
  obtain ⟨i, hi, hrev⟩ := Option.map_eq_some_iff.mp hlock
  obtain ⟨j, hj, hjrev⟩ := h.created .lock i hi (hrev.trans_le htoken)
  exact Option.map_eq_some_iff.mpr ⟨j, hj, hjrev.trans hrev⟩

theorem Rely.refl (own : Option ℕ) (w : World) : Rely own w w :=
  { Onward.refl w with fenced := fun _ _ _ _ _ i hi ↦ ⟨i, hi, rfl⟩ }

theorem Rely.trans (h : Rely own w w') (h' : Rely own w' w'') : Rely own w w'' :=
  { h.toOnward.trans h'.toOnward with
    fenced := fun token hown htoken hlock key i'' hi'' ↦ by
      obtain ⟨i', hi', hrev'⟩ := h'.fenced token hown (htoken.trans h.store.head) hlock key i'' hi''
      have hlock' := lockToken_before h'.store (htoken.trans h.store.head) hlock
      obtain ⟨i, hi, hrev⟩ := h.fenced token hown htoken hlock' key i' hi'
      exact ⟨i, hi, hrev.trans hrev'⟩ }

theorem Guar.refl (own : Option ℕ) (w : World) : Guar own own w w :=
  { Onward.refl w with writes := .inl ⟨rfl, fun _ i hi ↦ .inl ⟨i, hi, rfl⟩⟩ }

/-- **Nobody writes an intent under another's token**, and no two hold the lock under one. -/
theorem sharing : Sharing Rely Guar Apart Valid Kept none where
  refl := Rely.refl
  trans := Rely.trans
  symm h token hown hown' := h token hown' hown
  apart own token h := by cases h
  valid w token h := by cases h
  keeps h hrely token hown := (h token hown).trans hrely.store.head
  inv h hrely := hrely.kept h
  own {own own' w w'} hw hvalid hguar := by
    refine ⟨hguar.kept hw, fun token hown' ↦ ?_⟩
    rcases hguar.writes with ⟨hsame, -⟩ | ⟨hnew, hhead, -⟩
    · exact (hvalid token (hsame ▸ hown')).trans hguar.store.head
    · rw [hnew] at hown'
      rw [hhead, ← Option.some.inj hown']
  others {own own' own₂ w w'} hw hvalid hvalid₂ hapart hguar := by
    rcases hguar.writes with ⟨hsame, hwrites⟩ | ⟨hnew, -, hwrites⟩
    · refine ⟨{ hguar.toOnward with fenced := fun token hown₂ _ hlock key i hi ↦ ?_ },
        hsame ▸ hapart⟩
      rcases hwrites key i hi with hwas | ⟨token', hown, hlock'⟩
      · exact hwas
      · obtain rfl := Option.some.inj (hlock.symm.trans hlock')
        exact absurd hown₂ (hapart token hown)
    · refine ⟨{ hguar.toOnward with fenced := fun _ _ _ _ key i hi ↦ hwrites key i hi },
        fun token hown' hown₂ ↦ ?_⟩
      rw [hnew] at hown'
      have hle := hvalid₂ token hown₂
      rw [← Option.some.inj hown'] at hle
      omega

end Onward
/-! ## Transactions -/

/-- What a transaction does to the intents: the record of one that is there grows, and a new one has
a target that no live one has. -/
structure Writes (w : World) (t : Txn) : Prop where
  keys : (t.ops.map Records.Op.key).Nodup
  one : ∀ key v key' v', .put (.intent key) v ∈ t.ops → .put (.intent key') v' ∈ t.ops → key = key'
  grown : ∀ key v i, .put (.intent key) v ∈ t.ops → w.store.items (.intent key) = some i →
    Grown i.value v
  judged : ∀ key v j, .put (.intent key) v ∈ t.ops → v.judgement = some j → Judges v j
  new : ∀ key v, .put (.intent key) v ∈ t.ops → w.store.items (.intent key) = none →
    (sectionOf key).isSome ∧ ∀ key' i, w.store.items (.intent key') = some i →
      i.value.target = v.target → ¬ Live (w.nowMs / 1000) i.value

section Transactions

variable {w : World} {t : Txn} {told : List Told} {key : String} {i' : Records.Item Intent}

/-- An intent after a transaction was there before it, or is new. -/
theorem Writes.item (h : Writes w t)
    (hi : (w.commit t told).store.items (.intent key) = some i') :
    (∃ i, w.store.items (.intent key) = some i ∧ i.createRev = i'.createRev ∧
      Grown i.value i'.value ∧ (i = i' ∨ .put (.intent key) i'.value ∈ t.ops)) ∨
    w.store.items (.intent key) = none ∧ i'.createRev = w.store.head + 1 ∧
      .put (.intent key) i'.value ∈ t.ops := by
  rcases Records.put_or_same hi with hsame | hput
  · exact .inl ⟨i', hsame, rfl, .refl _, .inl rfl⟩
  · have hitem := (Records.items_commit_put_of_mem h.keys hput).symm.trans hi
    have hrev := congrArg Records.Item.createRev (Option.some.inj hitem)
    obtain hnone | ⟨i, hi'⟩ := (w.store.items (.intent key)).eq_none_or_eq_some
    · rw [hnone] at hrev
      exact .inr ⟨hnone, hrev.symm, hput⟩
    · rw [hi'] at hrev
      exact .inl ⟨i, hi', hrev, h.grown key i'.value i hput hi', .inr hput⟩

/-- What is told of the knobs with a transaction is what it does to them. -/
structure Tells (w : World) (t : Txn) (told : List Told) : Prop where
  lawful : Lawful (w.told ++ told)
  knobs : ∀ k, ((w.store.commit t.ops).items (.knob k)).map (·.value) = settingOf (w.told ++ told) k
  movers : ∀ knob key rev from_ to_, .moved knob key rev from_ to_ ∈ told → rev ≤ w.store.head ∧
    ∀ i, (w.store.commit t.ops).items (.intent key) = some i → i.createRev = rev →
      Moved i.value knob from_ to_

/-- A transaction that leaves the knobs as they are. -/
theorem tells_nothing (hw : Kept w) (h : ∀ k, .knob k ∉ t.ops.map Records.Op.key) :
    Tells w t [] where
  lawful := (List.append_nil w.told).symm ▸ hw.lawful
  knobs k := by
    rw [List.append_nil, Records.items_commit_of_notMem (h k)]
    exact hw.knobs k
  movers _ _ _ _ _ h := by cases h

theorem kept_commit (hw : Kept w) (h : Writes w t) (htells : Tells w t told) :
    Kept (w.commit t told) where
  dated := hw.dated.commit t.ops
  listed := hw.listed.commit t.ops
  section_ key i' hi := by
    rcases h.item hi with ⟨i, hi, -⟩ | ⟨hnone, -, hput⟩
    · exact hw.section_ key i hi
    · exact (h.new key _ hput hnone).1
  judged key i' j hi hj := by
    rcases h.item hi with ⟨i, hold, -, hgrown, rfl | hput⟩ | ⟨-, -, hput⟩
    · exact hw.judged key i j hold hj
    · exact h.judged key _ j hput hj
    · exact h.judged key _ j hput hj
  single key i' key' i'' hi hi' htarget hlive hlive' := by
    rcases h.item hi with ⟨i, hi, -, hgrown, -⟩ | ⟨hnone, -, hput⟩
    · have hlive := hlive.before hgrown (Nat.le_refl _)
      rcases h.item hi' with ⟨j, hj, -, hgrown', -⟩ | ⟨hnone', -, hput'⟩
      · exact hw.single key i key' j hi hj (hgrown.target.symm.trans (htarget.trans hgrown'.target))
          hlive (hlive'.before hgrown' (Nat.le_refl _))
      · exact absurd hlive
          ((h.new key' _ hput' hnone').2 key i hi (hgrown.target.symm.trans htarget))
    · rcases h.item hi' with ⟨j, hj, -, hgrown', -⟩ | ⟨-, -, hput'⟩
      · exact absurd (hlive'.before hgrown' (Nat.le_refl _))
          ((h.new key _ hput hnone).2 key' j hj (hgrown'.target.symm.trans htarget.symm))
      · exact h.one key _ key' _ hput hput'
  lawful := htells.lawful
  knobs := htells.knobs
  movers knob key rev from_ to_ hmem := by
    rcases List.mem_append.mp hmem with hmem | hmem
    · obtain ⟨hle, hmoved⟩ := hw.movers knob key rev from_ to_ hmem
      refine ⟨hle.trans (Nat.le_succ _), fun i' hi hrev ↦ ?_⟩
      rcases h.item hi with ⟨i, hi, hcreate, hgrown, -⟩ | ⟨-, hcreate, -⟩
      · exact (hmoved i hi (hcreate.trans hrev)).grown hgrown
      · omega
    · obtain ⟨hle, hmoved⟩ := htells.movers knob key rev from_ to_ hmem
      exact ⟨hle.trans (Nat.le_succ _), hmoved⟩

theorem onward_commit (h : Kept w → Writes w t) (hgrown : ∀ key v i,
      .put (.intent key) v ∈ t.ops → w.store.items (.intent key) = some i → Grown i.value v)
    (htells : Kept w → Tells w t told) :
    Onward w (w.commit t told) where
  kept hw := kept_commit hw (h hw) (htells hw)
  store := Records.later_commit w.store t.ops
  clock := Nat.le_refl _
  told := List.prefix_append w.told told
  grown key i' hi hrev := by
    rcases Records.put_or_same hi with hsame | hput
    · exact ⟨i', hsame, rfl, .refl _⟩
    · obtain ⟨i, hi', hcreate⟩ := (Records.later_commit w.store t.ops).created _ i' hi hrev
      exact ⟨i, hi', hcreate, hgrown key i'.value i hput hi'⟩

end Transactions

/-! ## One intent written -/

section Puts

variable {w : World} {t : Txn} {key : String} {v : Intent} {rest : List (Records.Op Key Key.Val)}

/-- A transaction with one intent among its writes. -/
structure Puts (t : Txn) (key : String) (v : Intent) (rest : List (Records.Op Key Key.Val)) :
    Prop where
  ops : t.ops = .put (.intent key) v :: rest
  others : ∀ key', .intent key' ∉ rest.map Records.Op.key
  keys : (rest.map Records.Op.key).Nodup

theorem puts_only {compares : List (Records.Compare Key)} :
    Puts ⟨compares, [.put (.intent key) v]⟩ key v [] :=
  ⟨rfl, fun _ ↦ by simp, List.nodup_nil⟩

theorem Puts.mem (h : Puts t key v rest) {key' : String} {v' : Intent}
    (hmem : .put (.intent key') v' ∈ t.ops) : key' = key ∧ v' = v := by
  rw [h.ops] at hmem
  rcases List.mem_cons.mp hmem with heq | hmem
  · cases heq
    exact ⟨rfl, rfl⟩
  · exact absurd (List.mem_map.mpr ⟨_, hmem, rfl⟩) (h.others key')

theorem Puts.writes (h : Puts t key v rest)
    (hgrown : ∀ i, w.store.items (.intent key) = some i → Grown i.value v)
    (hjudged : ∀ j, v.judgement = some j → Judges v j)
    (hnew : w.store.items (.intent key) = none →
      (sectionOf key).isSome ∧ ∀ key' i, w.store.items (.intent key') = some i →
        i.value.target = v.target → ¬ Live (w.nowMs / 1000) i.value) : Writes w t where
  keys := by
    rw [h.ops]
    exact List.nodup_cons.mpr ⟨h.others key, h.keys⟩
  one key₁ v₁ key₂ v₂ h₁ h₂ := (h.mem h₁).1.trans (h.mem h₂).1.symm
  grown key' v' i hmem hi := by
    obtain ⟨rfl, rfl⟩ := h.mem hmem
    exact hgrown i hi
  judged key' v' j hmem hj := by
    obtain ⟨rfl, rfl⟩ := h.mem hmem
    exact hjudged j hj
  new key' v' hmem hnone := by
    obtain ⟨rfl, rfl⟩ := h.mem hmem
    exact hnew hnone

end Puts

section Steps

variable {w w' : World} {own : Option ℕ} {t : Txn} {told : List Told} {key : String} {v : Intent}
  {rest : List (Records.Op Key Key.Val)} {item : Records.Item Intent}

/-- A transaction that writes over an intent leaves only what was there. -/
theorem was_over (h : Puts t key v rest) (hi : w.store.items (.intent key) = some item)
    {key' : String} {i' : Records.Item Intent}
    (hi' : (w.commit t told).store.items (.intent key') = some i') : Was w key' i' := by
  rcases Records.put_or_same hi' with hsame | hput
  · exact ⟨i', hsame, rfl⟩
  · obtain ⟨rfl, -⟩ := h.mem hput
    have hkeys : (t.ops.map Records.Op.key).Nodup := by
      rw [h.ops]
      exact List.nodup_cons.mpr ⟨h.others key', h.keys⟩
    have hitem := Option.some.inj ((Records.items_commit_put_of_mem hkeys hput).symm.trans hi')
    have hrev := congrArg Records.Item.createRev hitem
    rw [hi] at hrev
    exact ⟨item, hi, hrev⟩

theorem guar_over (h : Puts t key v rest) (hi : w.store.items (.intent key) = some item)
    (hgrown : Grown item.value v) (hjudged : Kept w → ∀ j, v.judgement = some j → Judges v j)
    (htells : Kept w → Tells w t told) : Guar own own w (w.commit t told) := by
  have hover (i : Records.Item Intent) (hi' : w.store.items (.intent key) = some i) :
      Grown i.value v := Option.some.inj (hi.symm.trans hi') ▸ hgrown
  have hgone : w.store.items (.intent key) ≠ none := fun hnone ↦ by
    rw [hi] at hnone
    cases hnone
  have honward : Onward w (w.commit t told) :=
    onward_commit (fun hw ↦ h.writes hover (hjudged hw) fun hnone ↦ absurd hnone hgone)
      (fun key' v' i hmem hi' ↦ by
        obtain ⟨rfl, rfl⟩ := h.mem hmem
        exact hover i hi') htells
  exact { honward with writes := .inl ⟨rfl, fun _ _ hi' ↦ .inl (was_over h hi hi')⟩ }

/-- A transaction that writes no intent leaves only what was there. -/
theorem was_spared (hputs : ∀ key v, .put (.intent key) v ∉ t.ops) {i : Records.Item Intent}
    (hi : (w.commit t told).store.items (.intent key) = some i) : Was w key i := by
  rcases Records.put_or_same hi with hsame | hput
  · exact ⟨i, hsame, rfl⟩
  · exact absurd hput (hputs key i.value)

theorem onward_spared (hputs : ∀ key v, .put (.intent key) v ∉ t.ops)
    (hkeys : (t.ops.map Records.Op.key).Nodup) (htells : Kept w → Tells w t told) :
    Onward w (w.commit t told) :=
  onward_commit
    (fun _ ↦ ⟨hkeys, fun key v _ _ hmem ↦ absurd hmem (hputs key v),
      fun key v _ hmem ↦ absurd hmem (hputs key v), fun key v _ hmem ↦ absurd hmem (hputs key v),
      fun key v hmem ↦ absurd hmem (hputs key v)⟩)
    (fun key v _ hmem ↦ absurd hmem (hputs key v)) htells

theorem guar_spared (hputs : ∀ key v, .put (.intent key) v ∉ t.ops)
    (hkeys : (t.ops.map Records.Op.key).Nodup) (htells : Kept w → Tells w t told) :
    Guar own own w (w.commit t told) :=
  { onward_spared hputs hkeys htells with
    writes := .inl ⟨rfl, fun _ _ hi ↦ .inl (was_spared hputs hi)⟩ }

/-- A transaction that writes no intent and no knob. -/
structure Quiet (t : Txn) : Prop where
  intents : ∀ key v, .put (.intent key) v ∉ t.ops
  knobs : ∀ k, .knob k ∉ t.ops.map Records.Op.key
  keys : (t.ops.map Records.Op.key).Nodup

theorem Quiet.onward (h : Quiet t) (w : World) : Onward w (w.commit t []) :=
  onward_spared h.intents h.keys fun hw ↦ tells_nothing hw h.knobs

theorem Quiet.guar (h : Quiet t) : Guar own own w (w.commit t []) :=
  guar_spared h.intents h.keys fun hw ↦ tells_nothing hw h.knobs

theorem quiet_lock (compares : List (Records.Compare Key)) : Quiet ⟨compares, [.put .lock ()]⟩ :=
  ⟨fun _ _ ↦ by simp, fun _ ↦ by simp [Records.Op.key], by simp⟩

theorem quiet_delete (compares : List (Records.Compare Key)) {k : Key} (hk : k.isKnob = false) :
    Quiet ⟨compares, [.delete k]⟩ := by
  refine ⟨fun _ _ ↦ by simp, fun knob hmem ↦ ?_, by simp⟩
  rw [List.map_singleton, List.mem_singleton] at hmem
  rw [← show Key.knob knob = k from hmem] at hk
  cases hk

theorem quiet_pass (compares : List (Records.Compare Key)) (record : PassRecord) :
    Quiet ⟨compares, [.put .pass record]⟩ :=
  ⟨fun _ _ ↦ by simp, fun _ ↦ by simp [Records.Op.key], by simp⟩

/-- The surroundings write nothing. -/
theorem env_rely (e : Env) (w : World) : Rely own w (env e w) := by
  cases e with
  | reach up heard =>
    exact { Onward.refl w with
      kept := fun hw ↦ { hw with }
      fenced := fun _ _ _ _ _ i hi ↦ ⟨i, hi, rfl⟩ }
  | publish sections =>
    exact { Onward.refl w with
      kept := fun hw ↦ { hw with }
      fenced := fun _ _ _ _ _ i hi ↦ ⟨i, hi, rfl⟩ }
  | tick ms =>
    have hnow : w.nowMs / 1000 ≤ (w.nowMs + ms) / 1000 :=
      Nat.div_le_div_right (Nat.le_add_right _ _)
    exact { Onward.refl w with
      kept := fun hw ↦ { hw with
        single := fun key i key' i' hi hi' htarget hlive hlive' ↦
          hw.single key i key' i' hi hi' htarget (hlive.before (.refl _) hnow)
            (hlive'.before (.refl _) hnow) }
      clock := Nat.le_add_right _ _
      fenced := fun _ _ _ _ _ i hi ↦ ⟨i, hi, rfl⟩ }
  | lapse k =>
    rw [env]
    by_cases hk : k.isKnob = true
    · rw [if_pos hk]
      exact .refl own w
    · rw [if_neg hk]
      have hquiet := quiet_delete [] (Bool.eq_false_iff.mpr hk)
      exact { hquiet.onward w with fenced := fun _ _ _ _ _ _ hi ↦ was_spared hquiet.intents hi }

/-- A lock is taken under the new revision. -/
theorem guar_lock (h : Quiet t) : Guar none (some (w.store.head + 1)) w (w.commit t []) :=
  { h.onward w with writes := .inr ⟨rfl, rfl, fun _ _ hi ↦ was_spared h.intents hi⟩ }

/-- A new intent is written under the own token. -/
theorem guar_new {token : ℕ} (htakes : (putTxn token key v).takes w.store)
    (hsec : (sectionOf key).isSome) (hjudgement : v.judgement = none)
    (hfree : Kept w → ∀ key' i, w.store.items (.intent key') = some i →
      i.value.target = v.target → ¬ Live (w.nowMs / 1000) i.value) :
    Guar (some token) (some token) w (w.commit (putTxn token key v) []) := by
  have hputs : Puts (putTxn token key v) key v [] := puts_only
  have hnone : w.store.items (.intent key) = none :=
    Records.holds_modRev_none.mp (Records.holds_of_takes htakes
      (List.mem_cons_of_mem _ List.mem_cons_self))
  have hgrown (i : Records.Item Intent) (hi : w.store.items (.intent key) = some i) :
      Grown i.value v := by
    rw [hnone] at hi
    cases hi
  have hquiet (k : String) : .knob k ∉ (putTxn token key v).ops.map Records.Op.key := by
    simp [putTxn, Records.Op.key]
  have honward : Onward w (w.commit (putTxn token key v) []) :=
    onward_commit
      (fun hw ↦ hputs.writes hgrown (fun j hj ↦ by rw [hjudgement] at hj; cases hj)
        fun _ ↦ ⟨hsec, hfree hw⟩)
      (fun key' v' i hmem hi ↦ by
        obtain ⟨rfl, rfl⟩ := hputs.mem hmem
        exact hgrown i hi) fun hw ↦ tells_nothing hw hquiet
  refine { honward with writes := .inl ⟨rfl, fun key' i hi ↦ ?_⟩ }
  refine .inr ⟨token, rfl, ?_⟩
  obtain ⟨lock, hlock, hrev⟩ :=
    Records.holds_createRev.mp (Records.holds_of_takes htakes List.mem_cons_self)
  show ((w.store.commit _).items .lock).map _ = some token
  rw [Records.items_commit_of_notMem (by simp [putTxn, Records.Op.key]), hlock]
  exact congrArg some hrev

end Steps

end Spira.Goodput
