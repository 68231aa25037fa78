import Spira.Controller.Slots

/-!
# One runner per slot

A slot is held by whoever holds its lock; its record, which says whose runner was launched on it,
is advisory, and the runner itself is a third thing that nothing in the store stops.  A grant
reads the record and the lock at different moments and commits on the record's revision.

A runner is `Pending` while it is alive, or may still be launched.  The invariant is that the
record of its slot names it, unreleased, and that no other grant holds the lock: so whoever takes
the slot has shown it dead, unless its own holder wrote the record over, or gave the slot back.
-/

set_option autoImplicit false

namespace Spira.Controller.Slots

open Records

/-! ## Holders -/

/-- What the holder of a slot does next. -/
inductive Act
  | recordHolder (unit : String) (vm : Option String)
  | launch (unit : String)
  | renew
  | release

/-- A runner is launched, unless it is gone: it was shown dead since its unit was recorded. -/
def launch {ε : Type} (r : Runner) : Run ε Unit :=
  Verb.atom (fun w ↦ !decide (List.Sublist [.unitRecorded r, .dead r.unit] w.told))
    (fun w ↦ { w with alive := r :: w.alive, told := w.told ++ [.launched r] }) fun _ ↦ .ok ()

/-- What a holder does with its grant, in its order, whatever fails.  It launches no runner whose
unit it has not recorded. -/
def perform (g : SlotGrant) (recorded : List String) : List Act → Run NoSlot Unit
  | [] => return
  | .recordHolder unit vm :: acts => do
    match ← Verb.tried (g.recordHolder unit vm) with
    | .ok g' => perform g' (unit :: recorded) acts
    | .error _ => perform g recorded acts
  | .launch unit :: acts => do
    if unit ∈ recorded then
      launch ⟨g.slot, g.token, unit⟩
      perform g recorded acts
    else perform g recorded acts
  | .renew :: acts => do
    let _ ← (Verb.tried g.renew : Run NoSlot _)
    perform g recorded acts
  | .release :: acts => do
    let _ ← (Verb.tried g.release : Run NoSlot _)
    perform g recorded acts

/-- A holder of a slot: the pools it asks, the name it takes the slot under, and what it does
then. -/
structure Holder where
  prefer : List SlotPool
  name : String
  acts : List Act

def Holder.program (cfg : Settings) (h : Holder) : Prog World (Except NoSlot Unit) :=
  (do perform (← grant cfg h.prefer h.name) [] h.acts : Run NoSlot Unit)

/-! ## What is promised of holders -/

/-- Each grant records one unit, and is given back only once no runner launched under it is alive,
and none is launched under it after. -/
structure Minded (told : List Happened) : Prop where
  oneUnit {r r' : Runner} (h : .unitRecorded r ∈ told) (h' : .unitRecorded r' ∈ told)
    (hslot : r.slot = r'.slot) (htoken : r.token = r'.token) : r.unit = r'.unit
  gone {slot : Slot} {token : ℕ} {alive : List Runner} (h : .gaveBack slot token alive ∈ told)
    {r : Runner} (hr : r ∈ alive) (hslot : r.slot = slot) : r.token ≠ token
  last {r : Runner} {alive : List Runner} :
    ¬ List.Sublist [.gaveBack r.slot r.token alive, .launched r] told

theorem Minded.of_append {told new : List Happened} (h : Minded (told ++ new)) : Minded told where
  oneUnit h₁ h₂ := h.oneUnit (List.mem_append_left _ h₁) (List.mem_append_left _ h₂)
  gone h₁ _ hr hs := h.gone (List.mem_append_left _ h₁) hr hs
  last hs := h.last (hs.trans (List.sublist_append_left _ _))

/-! ## The invariant -/

/-- The token whose grant of the slot is live. -/
def World.liveToken (w : World) (slot : Slot) : Option ℕ :=
  (w.store.items (.slotLock slot)).map (·.createRev)

/-- The runner is alive, or may still be launched. -/
def Pending (w : World) (r : Runner) : Prop :=
  r ∈ w.alive ∨ .unitRecorded r ∈ w.told ∧
    ¬ List.Sublist [.unitRecorded r, .dead r.unit] w.told ∧
    ∀ alive, .gaveBack r.slot r.token alive ∉ w.told

/-- What is true of a runner that is pending. -/
structure Named (w : World) (r : Runner) : Prop where
  record : ∃ item, w.store.items (.slot r.slot) = some item ∧ item.value.unit = some r.unit ∧
    item.value.released = false
  holder {token : ℕ} (h : World.liveToken w r.slot = some token) : token = r.token

/-- Every grant has a revision of its own. -/
structure Numbered (w : World) : Prop where
  head {slot : Slot} {token : ℕ} (h : .granted slot token ∈ w.told) : token ≤ w.store.head
  once (slot : Slot) (token : ℕ) : w.told.count (.granted slot token) ≤ 1

structure Sound (w : World) : Prop where
  dated : w.store.Dated
  numbered : Numbered w
  recorded {r : Runner} (h : r ∈ w.alive) : .unitRecorded r ∈ w.told
  named (h : Minded w.told) {r : Runner} (hr : Pending w r) : Named w r

/-- What is left of an earlier world. -/
structure Onward (a b : World) : Prop where
  /-- What is told is added to; a unit that was recorded is in a record written since. -/
  told : ∃ new, b.told = a.told ++ new ∧
    ∀ r, .unitRecorded r ∈ new → ∀ i, b.store.items (.slot r.slot) = some i → a.store.head < i.modRev
  /-- A runner that was launched since was not shown dead before, and its unit was recorded. -/
  alive {r : Runner} (h : r ∈ b.alive) : r ∈ a.alive ∨
    ¬ List.Sublist [.unitRecorded r, .dead r.unit] a.told ∧ .unitRecorded r ∈ b.told
  store : Later a.store b.store
  sound : Sound a → Sound b

/-- A step that grants a slot, if at all, with no runner of it alive. -/
structure Granting (a b : World) : Prop extends Onward a b where
  granted {new : List Happened} (hnew : b.told = a.told ++ new) {slot : Slot} {token : ℕ}
    (h : .granted slot token ∈ new) (ha : Sound a) (hb : Minded b.told) {r : Runner}
    (hr : r ∈ b.alive) : r.slot ≠ slot
  /-- Nobody held the slot, and its grant is the live one then. -/
  taken {new : List Happened} (hnew : b.told = a.told ++ new) {slot : Slot} {token : ℕ}
    (h : .granted slot token ∈ new) :
    World.liveToken a slot = none ∧ World.liveToken b slot = some token

variable {a b c : World}

namespace Onward

theorem refl (a : World) : Onward a a :=
  ⟨⟨[], (List.append_nil _).symm, fun _ h ↦ nomatch h⟩, .inl, .refl _, id⟩

theorem mem_told (h : Onward a b) {e : Happened} (he : e ∈ a.told) : e ∈ b.told := by
  obtain ⟨new, hnew, -⟩ := h.told
  exact hnew ▸ List.mem_append_left _ he

theorem sublist_told (h : Onward a b) {es : List Happened} (he : List.Sublist es a.told) :
    List.Sublist es b.told := by
  obtain ⟨new, hnew, -⟩ := h.told
  exact hnew ▸ he.trans (List.sublist_append_left _ _)

theorem minded (h : Onward a b) (hb : Minded b.told) : Minded a.told := by
  obtain ⟨new, hnew, -⟩ := h.told
  exact (hnew ▸ hb).of_append

theorem trans (h : Onward a b) (h' : Onward b c) : Onward a c where
  told := by
    obtain ⟨new, hnew, hrec⟩ := h.told
    obtain ⟨new', hnew', hrec'⟩ := h'.told
    refine ⟨new ++ new', by rw [hnew', hnew, List.append_assoc], fun r hr i hi ↦ ?_⟩
    rcases List.mem_append.mp hr with hr | hr
    · rcases h'.store.written (.slot r.slot) with hk | hk
      · exact hrec r hr i (hk ▸ hi)
      · exact lt_of_le_of_lt h.store.head (hk i hi)
    · exact lt_of_le_of_lt h.store.head (hrec' r hr i hi)
  alive hr := by
    rcases h'.alive hr with hr | ⟨hno, hrec⟩
    · exact (h.alive hr).imp_right fun ⟨hno, hrec⟩ ↦ ⟨hno, h'.mem_told hrec⟩
    · exact .inr ⟨fun hs ↦ hno (h.sublist_told hs), hrec⟩
  store := h.store.trans h'.store
  sound hs := h'.sound (h.sound hs)

end Onward

/-! ## Steps -/

section Steps

variable {new : List Happened} {r : Runner} {slot : Slot} {token : ℕ}

/-- A runner that is pending after a step that records no unit was pending before. -/
theorem Pending.before (h : Pending b r) (htold : b.told = a.told ++ new)
    (hnew : .unitRecorded r ∉ new) (halive : r ∈ b.alive → r ∈ a.alive) : Pending a r := by
  refine h.imp halive fun ⟨hrec, hdead, hback⟩ ↦ ?_
  rw [htold] at hrec hdead hback
  exact ⟨(List.mem_append.mp hrec).resolve_right hnew,
    fun hs ↦ hdead (hs.trans (List.sublist_append_left _ _)),
    fun alive hm ↦ hback alive (List.mem_append_left _ hm)⟩

/-- It is still what its slot's record names, where that record was not written and the lock not
taken. -/
theorem Named.after (h : Named a r) (hitem : b.store.items (.slot r.slot) = a.store.items (.slot r.slot))
    (hlock : ∀ token, World.liveToken b r.slot = some token →
      World.liveToken a r.slot = some token) : Named b r where
  record := hitem ▸ h.record
  holder ht := h.holder (hlock _ ht)

/-- A step that grants nothing. -/
theorem Numbered.after (h : Numbered a) (htold : b.told = a.told ++ new)
    (hgrant : ∀ slot token, .granted slot token ∉ new) (hhead : a.store.head ≤ b.store.head) :
    Numbered b where
  head {slot token} hm := by
    rw [htold] at hm
    exact (h.head ((List.mem_append.mp hm).resolve_right (hgrant slot token))).trans hhead
  once slot token := by
    rw [htold, List.count_append, List.count_eq_zero_of_not_mem (hgrant slot token)]
    exact h.once slot token

/-- A step that tells of no unit and no grant, launches nothing, and writes no slot's record. -/
theorem granting_of_quiet (new : List Happened) (htold : b.told = a.told ++ new) (hunit : ∀ r, .unitRecorded r ∉ new)
    (hgrant : ∀ slot token, .granted slot token ∉ new) (halive : ∀ r ∈ b.alive, r ∈ a.alive)
    (hstore : Later a.store b.store) (hdated : a.store.Dated → b.store.Dated)
    (hitem : ∀ slot, b.store.items (.slot slot) = a.store.items (.slot slot))
    (hlock : ∀ slot token, World.liveToken b slot = some token →
      World.liveToken a slot = some token) : Granting a b where
  told := ⟨new, htold, fun r hr ↦ absurd hr (hunit r)⟩
  alive hr := .inl (halive _ hr)
  store := hstore
  sound ha :=
    { dated := hdated ha.dated
      numbered := ha.numbered.after htold hgrant hstore.head
      recorded := fun hr ↦ htold ▸ List.mem_append_left _ (ha.recorded (halive _ hr))
      named := fun hm r hr ↦ (ha.named (htold ▸ hm).of_append
        (hr.before htold (hunit r) (halive r))).after (hitem r.slot) (hlock r.slot) }
  granted {_} hnew {_ _} h _ _ _ _ := by
    rw [htold, List.append_cancel_left_eq] at hnew
    exact absurd (hnew ▸ h) (hgrant _ _)
  taken {_} hnew {_ _} h := by
    rw [htold, List.append_cancel_left_eq] at hnew
    exact absurd (hnew ▸ h) (hgrant _ _)

theorem Granting.refl (a : World) : Granting a a :=
  granting_of_quiet [] (List.append_nil _).symm (fun _ h ↦ nomatch h)
    (fun _ _ h ↦ nomatch h) (fun _ h ↦ h) (.refl _) id (fun _ ↦ rfl) fun _ _ h ↦ h

/-- A transaction on other keys than the slots'. -/
theorem granting_of_commit {ops : List Op}
    (hops : ∀ o ∈ ops, (∀ slot, o.key ≠ .slot slot) ∧ ∀ slot, o.key ≠ .slotLock slot) :
    Granting a { a with store := a.store.commit ops } := by
  have hitem : ∀ k, (∀ o ∈ ops, o.key ≠ k) → (a.store.commit ops).items k = a.store.items k :=
    fun k hk ↦ items_commit_of_notMem fun hm ↦ by
      obtain ⟨o, ho, hok⟩ := List.mem_map.mp hm
      exact hk o ho hok
  refine granting_of_quiet [] (List.append_nil _).symm (fun _ h ↦ nomatch h)
    (fun _ _ h ↦ nomatch h) (fun _ h ↦ h) (later_commit _ _) (·.commit _)
    (fun slot ↦ hitem _ fun o ho ↦ (hops o ho).1 slot) fun slot token h ↦ ?_
  rwa [World.liveToken, hitem _ fun o ho ↦ (hops o ho).2 slot] at h

/-- A slot's lock that is written under the token it has, or deleted. -/
theorem granting_of_lock {o : Op} (ho : o = .put (.slotLock slot) () ∧
      (World.liveToken a slot).isSome ∨ o = .delete (.slotLock slot)) :
    Granting a { a with store := a.store.commit [o] } := by
  have hkey : o.key = .slotLock slot := by rcases ho with ⟨rfl, -⟩ | rfl <;> rfl
  refine granting_of_quiet [] (List.append_nil _).symm (fun _ h ↦ nomatch h)
    (fun _ _ h ↦ nomatch h) (fun _ h ↦ h) (later_commit _ _) (·.commit _)
    (fun slot ↦ items_commit_of_notMem (by simp [hkey])) fun slot' token h ↦ ?_
  by_cases hs : slot' = slot
  · subst hs
    rcases ho with ⟨rfl, hsome⟩ | rfl
    · rw [World.liveToken, items_commit_put] at h
      rw [World.liveToken] at hsome ⊢
      cases hi : a.store.items (.slotLock slot') with
      | none => simp [hi] at hsome
      | some lock =>
        rw [hi] at h
        exact h
    · rw [World.liveToken, items_commit_delete] at h
      cases h
  · rw [World.liveToken] at h
    dsimp only at h
    rwa [items_commit_of_notMem (by simp [hkey, hs])] at h

/-- A launch of a runner whose unit was recorded, and that was not shown dead since. -/
theorem granting_of_launch (hrec : .unitRecorded r ∈ a.told)
    (hdead : ¬ List.Sublist [.unitRecorded r, .dead r.unit] a.told) :
    Granting a { a with alive := r :: a.alive, told := a.told ++ [.launched r] } where
  told := ⟨_, rfl, fun r' hr' ↦ by simp at hr'⟩
  alive {r'} hr' := by
    rcases List.mem_cons.mp hr' with rfl | hr'
    · exact .inr ⟨hdead, List.mem_append_left _ hrec⟩
    · exact .inl hr'
  store := .refl _
  sound ha :=
    { dated := ha.dated
      numbered := ha.numbered.after rfl (by simp) le_rfl
      recorded := fun {r'} hr' ↦ by
        rcases List.mem_cons.mp hr' with rfl | hr'
        · exact List.mem_append_left _ hrec
        · exact List.mem_append_left _ (ha.recorded hr')
      named := fun hm r' hr' ↦ by
        have hp : Pending a r' := by
          by_cases hrr : r' = r
          · subst hrr
            refine .inr ⟨hrec, hdead, fun alive hback ↦ ?_⟩
            exact hm.last (sublist_pair hback (List.mem_singleton_self _))
          · exact hr'.before rfl (by simp) fun h ↦ (List.mem_cons.mp h).resolve_left hrr
        exact (ha.named hm.of_append hp).after rfl fun _ h ↦ h }
  granted {_} hnew {_ _} h _ _ _ _ := by
    rw [List.append_cancel_left_eq] at hnew
    simp [← hnew] at h
  taken {_} hnew {_ _} h := by
    rw [List.append_cancel_left_eq] at hnew
    simp [← hnew] at h

/-- The records and locks of other slots than the one whose record is written. -/
theorem items_commit_record {record : SlotRecord} {k : Key} (hk : k ≠ .slot slot) :
    (a.store.commit [.put (.slot slot) record]).items k = a.store.items k :=
  items_commit_of_notMem (by simpa [Op.key] using hk)

/-- The live holder records the unit of its runner. -/
theorem granting_of_unit {record : SlotRecord} (hlive : World.liveToken a r.slot = some r.token)
    (hunit : record.unit = some r.unit) (hreleased : record.released = false) :
    Granting a { a with
      store := a.store.commit [.put (.slot r.slot) record]
      told := a.told ++ [.unitRecorded r] } where
  told := ⟨_, rfl, fun r' hr' i hi ↦ by
    obtain rfl : r' = r := by simpa using hr'
    rw [items_commit_put] at hi
    rw [← Option.some.inj hi]
    exact Nat.lt_succ_self _⟩
  alive := .inl
  store := later_commit _ _
  sound ha :=
    { dated := ha.dated.commit _
      numbered := ha.numbered.after rfl (by simp) (Nat.le_succ _)
      recorded := fun h ↦ List.mem_append_left _ (ha.recorded h)
      named := fun hm r' hr' ↦ by
        by_cases hrr : r' = r
        · subst hrr
          refine ⟨⟨_, items_commit_put, hunit, hreleased⟩, fun {token} ht ↦ ?_⟩
          rw [World.liveToken, items_commit_record (by simp)] at ht
          exact Option.some.inj (ht.symm.trans hlive)
        · have hp : Pending a r' := hr'.before rfl (by simpa using hrr) id
          have hn := ha.named hm.of_append hp
          by_cases hs : r'.slot = r.slot
          · -- Another runner of this slot is this grant's, which records one unit.
            have ht : r.token = r'.token := hn.holder (hs ▸ hlive)
            have hrec : .unitRecorded r' ∈ a.told := hp.elim ha.recorded (·.1)
            have hu := hm.oneUnit (List.mem_append_left _ hrec)
              (List.mem_append_right _ (List.mem_singleton_self _)) hs ht.symm
            exact absurd (by cases r; cases r'; simp_all) hrr
          · refine hn.after (items_commit_record (by simpa using hs)) fun token h ↦ ?_
            rwa [World.liveToken, items_commit_record (by simp)] at h }
  granted {_} hnew {_ _} h _ _ _ _ := by
    rw [List.append_cancel_left_eq] at hnew
    simp [← hnew] at h
  taken {_} hnew {_ _} h := by
    rw [List.append_cancel_left_eq] at hnew
    simp [← hnew] at h

/-- The live holder gives its slot back. -/
theorem granting_of_gaveBack {record : SlotRecord} (hlive : World.liveToken a slot = some token) :
    Granting a { a with
      store := a.store.commit [.put (.slot slot) record]
      told := a.told ++ [.gaveBack slot token a.alive] } where
  told := ⟨_, rfl, fun r' hr' ↦ by simp at hr'⟩
  alive := .inl
  store := later_commit _ _
  sound ha :=
    { dated := ha.dated.commit _
      numbered := ha.numbered.after rfl (by simp) (Nat.le_succ _)
      recorded := fun h ↦ List.mem_append_left _ (ha.recorded h)
      named := fun hm r hr ↦ by
        have hn := ha.named hm.of_append (hr.before rfl (by simp) id)
        by_cases hs : r.slot = slot
        · -- A runner of this grant is neither alive nor launched again.
          subst hs
          obtain rfl := hn.holder hlive
          have hback : .gaveBack r.slot r.token a.alive ∈
              a.told ++ [.gaveBack r.slot r.token a.alive] :=
            List.mem_append_right _ (List.mem_singleton_self _)
          rcases hr with hr | ⟨-, -, hno⟩
          · exact absurd rfl (hm.gone hback hr rfl)
          · exact absurd hback (hno a.alive)
        · refine hn.after (items_commit_record (by simpa using hs)) fun token h ↦ ?_
          rwa [World.liveToken, items_commit_record (by simp)] at h }
  granted {_} hnew {_ _} h _ _ _ _ := by
    rw [List.append_cancel_left_eq] at hnew
    simp [← hnew] at h
  taken {_} hnew {_ _} h := by
    rw [List.append_cancel_left_eq] at hnew
    simp [← hnew] at h

/-- A slot is granted, with no runner of it pending. -/
theorem granting_of_grant {record : SlotRecord} (hlock : a.store.items (.slotLock slot) = none)
    (hfree : Sound a → Minded a.told → ∀ r, Pending a r → r.slot ≠ slot) :
    Granting a { a with
      store := a.store.commit [.put (.slotLock slot) (), .put (.slot slot) record]
      told := a.told ++ [.granted slot (a.store.head + 1)] } where
  told := ⟨_, rfl, fun r' hr' ↦ by simp at hr'⟩
  alive := .inl
  store := later_commit _ _
  sound ha :=
    { dated := ha.dated.commit _
      numbered :=
        { head := fun {slot' token} hm ↦ by
            rcases List.mem_append.mp hm with hm | hm
            · exact (ha.numbered.head hm).trans (Nat.le_succ _)
            · obtain ⟨-, rfl⟩ : slot' = slot ∧ token = a.store.head + 1 := by simpa using hm
              exact le_rfl
          once := fun slot' token ↦ by
            rw [List.count_append]
            by_cases ht : token = a.store.head + 1
            · have hno : .granted slot' token ∉ a.told := fun hm ↦ by
                have hle := ha.numbered.head hm
                omega
              rw [List.count_eq_zero_of_not_mem hno, Nat.zero_add]
              exact List.count_le_length
            · rw [List.count_eq_zero_of_not_mem (l := [_]) (by simp [ht])]
              exact ha.numbered.once slot' token }
      recorded := fun h ↦ List.mem_append_left _ (ha.recorded h)
      named := fun hm r hr ↦ by
        have hp : Pending a r := hr.before rfl (by simp) id
        have hs := hfree ha hm.of_append r hp
        refine (ha.named hm.of_append hp).after
          (items_commit_of_notMem (by simpa [Op.key] using hs)) fun token h ↦ ?_
        rwa [World.liveToken, items_commit_of_notMem (by simpa [Op.key] using hs)] at h }
  granted {_} hnew {slot' token} h ha hm r hr := by
    rw [List.append_cancel_left_eq] at hnew
    obtain ⟨rfl, -⟩ : slot' = slot ∧ token = a.store.head + 1 := by simpa [← hnew] using h
    exact hfree ha hm.of_append r (.inl hr)
  taken {_} hnew {slot' token} h := by
    rw [List.append_cancel_left_eq] at hnew
    obtain ⟨rfl, rfl⟩ : slot' = slot ∧ token = a.store.head + 1 := by simpa [← hnew] using h
    refine ⟨by rw [World.liveToken, hlock]; rfl, ?_⟩
    have hput : (a.store.commit [.put (.slotLock slot') (), .put (.slot slot') record]).items
        (.slotLock slot') = some ⟨(), a.store.head + 1, a.store.head + 1⟩ := by
      simp [Store.commit, Op.apply, hlock]
    rw [World.liveToken, hput]
    rfl

end Steps

/-! ## Programs -/

theorem rules : Rules Onward Granting := ⟨.refl, Onward.trans, .refl, (·.toOnward)⟩

/-- The keys that are not the slots'. -/
def Other (k : Key) : Prop := (∀ slot, k ≠ .slot slot) ∧ ∀ slot, k ≠ .slotLock slot

instance (k : Key) : Decidable (Other k) :=
  match k with
  | .slot slot => .isFalse fun h ↦ h.1 slot rfl
  | .slotLock slot => .isFalse fun h ↦ h.2 slot rfl
  | .lane | .round _ | .roundLock _ | .status _ | .redrive _ => .isTrue (by simp [Other])

theorem granting_of_tell {new : List Happened} (hunit : ∀ r, .unitRecorded r ∉ new)
    (hgrant : ∀ slot token, .granted slot token ∉ new) : Granting a (a.tell new) :=
  granting_of_quiet new rfl hunit hgrant (fun _ h ↦ h) (.refl _) id (fun _ ↦ rfl) fun _ _ h ↦ h

theorem granting_tell_silent (h : Granting a b) : Granting a (b.tell (silent b)) := by
  rw [World.tell, silent, List.append_nil]
  exact h

theorem txn_within {t : Txn} (ht : ∀ o ∈ t.ops, Other o.key) : (txn silent t).Within Onward Granting :=
  fun s ↦ Verb.keeps_atom fun s₁ _ _ ↦ ⟨by
    split
    · refine granting_tell_silent ?_
      rw [Txn.run]
      split
      · exact granting_of_commit ht
      · exact .refl _
    · exact .refl _, fun _ _ ↦ ⟨fun _ _ ↦ trivial, fun _ _ ↦ trivial⟩⟩

theorem bears : Bears Onward Granting Other where
  refl := .refl
  access _ _ _ := rules.keeps_access (fun _ _ _ ↦ granting_tell_silent (.refl _))
    fun _ _ _ _ _ _ _ _ ↦ trivial
  txn _ ht := txn_within ht

section Holder

variable {g : SlotGrant} {cfg : Settings} {slot : Slot} {holder : String}

/-- The compare of a holder's write: its grant is the live one. -/
theorem live_of_takes {t : Txn} (h : t.takes a.store)
    (hc : .createRev (.slotLock g.slot) (some g.token) ∈ t.compares) :
    World.liveToken a g.slot = some g.token := by
  obtain ⟨lock, hlock, hrev⟩ := holds_createRev.mp (holds_of_takes h hc)
  rw [World.liveToken, hlock, Option.map_some, hrev]

theorem recordHolder_keeps {unit : String} {vm : Option String} {s : World}
    (hg : g.record.released = false) :
    (g.recordHolder unit vm).Keeps Onward Granting
      (fun g' s' ↦ g'.slot = g.slot ∧ g'.token = g.token ∧ g'.record.released = false ∧
        .unitRecorded ⟨g.slot, g.token, unit⟩ ∈ s'.told) (fun _ ↦ True) s := by
  have hwrite : (g.write (fun _ ↦ [.unitRecorded ⟨g.slot, g.token, unit⟩])
      { g.record with unit := some unit, vm := vm }).Keeps Onward Granting
      (fun _ s' ↦ .unitRecorded ⟨g.slot, g.token, unit⟩ ∈ s'.told) (fun _ ↦ True) s := by
    refine Verb.keeps_bind .refl (rules.keeps_txn (fun s₁ _ htakes ↦ ?_) fun rev s₁ _ hrev ↦ ?_)
    · rw [Txn.run, if_pos htakes]
      exact granting_of_unit (r := ⟨g.slot, g.token, unit⟩)
        (live_of_takes htakes (List.mem_singleton_self _)) rfl hg
    · cases rev with
      | none => exact Verb.keeps_throw trivial
      | some rev =>
        obtain ⟨s₀, -, -, hs₀⟩ := hrev rfl
        exact Verb.keeps_pure fun s₂ hs₂ ↦ (hs₀.trans hs₂).mem_told
          (List.mem_append_right _ (List.mem_singleton_self _))
  exact Verb.keeps_bind .refl (hwrite.imp fun _ s₁ hm ↦ Verb.keeps_pure fun s₂ hs₂ ↦
    ⟨rfl, rfl, hg, hs₂.mem_told hm⟩)

theorem renew_within : g.renew.Within Onward Granting := by
  refine fun s ↦ Verb.keeps_bind .refl (rules.keeps_txn (fun s₁ _ htakes ↦ ?_) fun rev s₁ _ _ ↦ ?_)
  · rw [Txn.run, if_pos htakes]
    refine granting_tell_silent (granting_of_lock (.inl ⟨rfl, ?_⟩))
    rw [live_of_takes htakes (List.mem_singleton_self _)]
    rfl
  · cases rev with
    | none => exact Verb.keeps_throw trivial
    | some rev => exact Verb.keeps_pure fun _ _ ↦ trivial

theorem unlock_within : g.unlock.Within Onward Granting := by
  refine fun s ↦ Verb.keeps_bind .refl (rules.keeps_txn (fun s₁ _ htakes ↦ ?_) fun rev s₁ _ _ ↦ ?_)
  · rw [Txn.run, if_pos htakes]
    exact granting_tell_silent (granting_of_lock (.inr rfl))
  · cases rev with
    | none => exact Verb.keeps_throw trivial
    | some rev => exact Verb.keeps_pure fun _ _ ↦ trivial

theorem release_within : g.release.Within Onward Granting := by
  refine bears.bind (fun s ↦ Verb.keeps_bind .refl
    (rules.keeps_txn (fun s₁ _ htakes ↦ ?_) fun rev s₁ _ _ ↦ ?_)) fun _ ↦ unlock_within
  · rw [Txn.run, if_pos htakes]
    exact granting_of_gaveBack (live_of_takes htakes (List.mem_singleton_self _))
  · cases rev with
    | none => exact Verb.keeps_throw trivial
    | some rev => exact Verb.keeps_pure fun _ _ ↦ trivial

theorem perform_keeps (acts : List Act) {recorded : List String} {s : World}
    (hg : g.record.released = false)
    (hrec : ∀ unit ∈ recorded, .unitRecorded ⟨g.slot, g.token, unit⟩ ∈ s.told) :
    (perform g recorded acts).Keeps Onward Granting (fun _ _ ↦ True) (fun _ ↦ True) s := by
  induction acts generalizing g recorded s with
  | nil => exact Verb.keeps_pure fun _ _ ↦ trivial
  | cons act acts ih =>
    cases act with
    | recordHolder unit vm =>
      have hr : (Verb.tried (g.recordHolder unit vm) : Run NoSlot _).Keeps Onward Granting
          (fun r s' ↦ ∀ g', r = .ok g' → g'.slot = g.slot ∧ g'.token = g.token ∧
            g'.record.released = false ∧ .unitRecorded ⟨g.slot, g.token, unit⟩ ∈ s'.told)
          (fun _ ↦ True) s :=
        Verb.keeps_tried ((recordHolder_keeps hg).imp fun g' s' h g'' hg'' ↦ Except.ok.inj hg'' ▸ h)
          fun _ _ _ _ h ↦ nomatch h
      refine Verb.keeps_bind .refl ((Verb.Keeps.since (R := Onward) (G := Granting) Onward.trans
        (·.toOnward) hr).imp fun r s₁ ⟨hr, hs₁⟩ ↦ ?_)
      cases r with
      | error e => exact ih hg fun unit hu ↦ hs₁.mem_told (hrec unit hu)
      | ok g' =>
        obtain ⟨hslot, htoken, hg', hm⟩ := hr g' rfl
        refine ih hg' fun unit' hu ↦ ?_
        rw [hslot, htoken]
        rcases List.mem_cons.mp hu with rfl | hu
        · exact hm
        · exact hs₁.mem_told (hrec unit' hu)
    | launch unit =>
      rw [perform]
      split
      · rename_i hu
        refine Verb.keeps_bind .refl (Verb.keeps_atom fun s₁ hs₁ hready ↦ ?_)
        have hstep : Granting s₁ { s₁ with
            alive := ⟨g.slot, g.token, unit⟩ :: s₁.alive
            told := s₁.told ++ [.launched ⟨g.slot, g.token, unit⟩] } :=
          granting_of_launch (hs₁.mem_told (hrec unit hu)) (by simpa using hready)
        exact ⟨hstep, fun s₂ hs₂ ↦ ⟨fun _ _ ↦ ih hg fun unit' hu' ↦
          (hs₁.trans (hstep.toOnward.trans hs₂)).mem_told (hrec unit' hu'), fun _ _ ↦ trivial⟩⟩
      · exact ih hg hrec
    | renew =>
      exact rules.then_keeps renew_within.tried fun _ s₁ hs₁ ↦
        ih hg fun unit hu ↦ hs₁.mem_told (hrec unit hu)
    | release =>
      exact rules.then_keeps release_within.tried fun _ s₁ hs₁ ↦
        ih hg fun unit hu ↦ hs₁.mem_told (hrec unit hu)

/-- Nobody's runner of the slot is pending, while its record is the one that was read. -/
def Free (slot : Slot) (item : Option (Item (.slot slot))) (w : World) : Prop :=
  Sound w → Minded w.told →
    (w.store.items (.slot slot)).map (·.modRev) = item.map (·.modRev) →
      ∀ r, Pending w r → r.slot ≠ slot

/-- A runner of the slot that is pending is named by the record that was read. -/
theorem named_of_unmoved {item : Item (.slot slot)} (ha : a.store.Dated) (hab : Onward a b)
    (hitem : a.store.items (.slot slot) = some item)
    (hrev : (b.store.items (.slot slot)).map (·.modRev) = some item.modRev) {r : Runner}
    (hn : Named b r) (hs : r.slot = slot) :
    item.value.unit = some r.unit ∧ item.value.released = false := by
  subst hs
  obtain ⟨item', hitem', hunit, hreleased⟩ := hn.record
  rw [hitem', Option.map_some, Option.some.injEq] at hrev
  obtain rfl := hab.store.unmoved ha hitem hitem' hrev
  exact ⟨hunit, hreleased⟩

theorem free_of_unnamed {item : Option (Item (.slot slot))} (ha : a.store.Dated) (hab : Onward a b)
    (hitem : a.store.items (.slot slot) = item)
    (hno : ∀ i, item = some i → i.value.released = true ∨ i.value.unit = none) :
    Free slot item b := by
  intro hb hm hrev r hr hs
  have hn := hb.named hm hr
  cases item with
  | none =>
    obtain ⟨item', hitem', -, -⟩ := hn.record
    subst hs
    rw [hitem'] at hrev
    cases hrev
  | some i =>
    obtain ⟨hunit, hreleased⟩ := named_of_unmoved ha hab hitem hrev hn hs
    rcases hno i rfl with h | h
    · rw [hreleased] at h
      cases h
    · rw [hunit] at h
      cases h

/-- A runner that was shown dead is not launched again before the record is written again. -/
theorem free_of_dead {item : Item (.slot slot)} {unit : String} (ha : a.store.Dated)
    (hab : Onward a b) (hbc : Onward (b.tell [.dead unit]) c)
    (hitem : a.store.items (.slot slot) = some item) (hunit : item.value.unit = some unit)
    (halive : ∀ r ∈ b.alive, r.unit ≠ unit) : Free slot (some item) c := by
  intro hc hm hrev r hr hs
  have hb : Onward b (b.tell [.dead unit]) :=
    (granting_of_tell (by simp) (by simp)).toOnward
  obtain ⟨hru, -⟩ := named_of_unmoved ha (hab.trans (hb.trans hbc)) hitem hrev (hc.named hm hr) hs
  obtain rfl : unit = r.unit := Option.some.inj (hunit.symm.trans hru)
  -- Its unit was recorded after it was shown dead.
  have hsince : ¬ List.Sublist [.unitRecorded r, .dead r.unit] (b.tell [.dead r.unit]).told ∧
      .unitRecorded r ∈ c.told := by
    rcases hr with hr | ⟨hrec, hdead, -⟩
    · exact (hbc.alive hr).resolve_left fun h ↦ halive r h rfl
    · exact ⟨fun h ↦ hdead (hbc.sublist_told h), hrec⟩
  have hnot : .unitRecorded r ∉ (b.tell [.dead r.unit]).told := by
    intro h
    rcases List.mem_append.mp h with h | h
    · exact hsince.1 (sublist_pair h (List.mem_singleton_self _))
    · simp at h
  obtain ⟨new, hnew, hwritten⟩ := hbc.told
  have hmem : .unitRecorded r ∈ new :=
    (List.mem_append.mp (hnew ▸ hsince.2)).resolve_left hnot
  subst hs
  obtain ⟨item', hitem', -, -⟩ := (hc.named hm hr).record
  rw [hitem', Option.map_some, Option.map_some, Option.some.injEq] at hrev
  have hlt := hwritten r hmem item' hitem'
  have hle := (ha (.slot r.slot) item hitem).1
  have hhead := hab.store.head
  change b.store.head < item'.modRev at hlt
  omega

/-- Whoever gets past a slot's last holder, finds it free as long as the record is what was read. -/
theorem lastGone_keeps {item : Option (Item (.slot slot))} {s : World} (ha : a.store.Dated)
    (has : Onward a s) (hitem : a.store.items (.slot slot) = item) :
    (lastGone cfg (item.map (·.value))).Keeps Onward Granting
      (fun _ s' ↦ ∀ w, Onward s' w → Free slot item w) (fun _ ↦ True) s := by
  have hunnamed : (∀ i, item = some i → i.value.released = true ∨ i.value.unit = none) →
      ∀ (s₁ : World), Onward s s₁ → ∀ w, Onward s₁ w → Free slot item w := fun hno s₁ hs₁ w hw ↦
    free_of_unnamed ha (has.trans (hs₁.trans hw)) hitem hno
  cases item with
  | none => exact Verb.keeps_pure (hunnamed fun _ h ↦ nomatch h)
  | some item =>
    rw [Option.map_some, lastGone]
    split
    · rename_i hreleased
      exact Verb.keeps_pure (hunnamed fun i hi ↦ .inl (Option.some.inj hi ▸ hreleased))
    · split
      · rename_i hunit
        exact Verb.keeps_pure (hunnamed fun i hi ↦ .inr (Option.some.inj hi ▸ hunit))
      · rename_i unit hunit
        have hproof : (proveRunnerDead cfg unit : Run Taken Proof).Keeps Onward Granting
            (fun r s' ↦ ∀ evidence, r = .dead evidence → ∀ w, Onward s' w →
              Free slot (some item) w) (fun _ ↦ True) s := by
          refine rules.then_keeps (bears.access _ _) fun said s₁ hs₁ ↦ ?_
          cases said with
          | running word => exact Verb.keeps_pure fun _ _ _ h ↦ nomatch h
          | unreadable why => exact Verb.keeps_pure fun _ _ _ h ↦ nomatch h
          | stopped word =>
            refine rules.keeps_access (fun s₂ _ _ ↦ ?_) fun s₂ hs₂ hready s₃ _ hs₃ r hr
              evidence he w hw ↦ ?_
            · split
              · exact granting_of_tell (by simp) (by simp)
              · exact granting_of_tell (fun _ h ↦ nomatch h) fun _ _ h ↦ nomatch h
            · cases hvm : vmSays cfg unit s₂.now (s₂.vms unit) with
              | error why =>
                rw [hvm] at hr
                rw [← Except.ok.inj hr] at he
                cases he
              | ok vm =>
                rw [hvm] at hready hs₃
                exact free_of_dead ha (has.trans (hs₁.trans hs₂)) (hs₃.trans hw) hitem hunit
                  (by simpa using hready)
        refine Verb.keeps_bind .refl (hproof.imp fun r s₁ hr ↦ ?_)
        cases r with
        | dead evidence => exact Verb.keeps_pure fun s₂ hs₂ w hw ↦ hr evidence rfl w (hs₂.trans hw)
        | unknown why => exact Verb.keeps_throw trivial

theorem take_keeps {s : World} (hs : Sound s) :
    (take cfg slot holder).Keeps Onward Granting (fun g _ ↦ g.record.released = false)
      (fun _ ↦ True) s := by
  have hread : ((get (.slot slot)).mapError Taken.unreadable).Keeps Onward Granting
      (fun item s' ↦ ∃ s₁, Onward s s₁ ∧ Onward s₁ s' ∧ s₁.store.items (.slot slot) = item)
      (fun _ ↦ True) s :=
    Verb.keeps_mapError (rules.keeps_access (fun _ _ _ ↦ granting_tell_silent (.refl _))
      fun s₁ hs₁ _ s₂ hs₂ _ item hi ↦ ⟨s₁, hs₁, hs₂, (unlessDown_eq_ok.mp hi).2⟩)
  refine Verb.keeps_bind .refl (hread.imp fun item s₂ ⟨s₁, hs₁, hs₂, hitem⟩ ↦ ?_)
  refine rules.then_keeps (bears.get _).mapError fun lock s₃ hs₃ ↦ ?_
  split
  · exact Verb.keeps_throw trivial
  · refine Verb.keeps_bind .refl ((Verb.Keeps.since (R := Onward) (G := Granting) Onward.trans
      (·.toOnward) (lastGone_keeps (hs₁.sound hs).dated (hs₂.trans hs₃) hitem)).imp
        fun evidence s₄ ⟨hfree, hs₄⟩ ↦ ?_)
    refine Verb.keeps_bind .refl (rules.keeps_txn (fun s₅ hs₅ htakes ↦ ?_) fun taken s₅ _ _ ↦ ?_)
    · rw [Txn.run, if_pos htakes]
      have hunmoved := holds_of_takes htakes List.mem_cons_self
      have hlock := holds_createRev_none.mp
        (holds_of_takes htakes (List.mem_cons_of_mem _ List.mem_cons_self))
      exact granting_of_grant hlock fun hsound hminded ↦ hfree s₅ hs₅ hsound hminded
        (beq_iff_eq.mp hunmoved)
    · cases taken with
      | some token => exact Verb.keeps_pure fun _ _ ↦ rfl
      | none =>
        refine rules.then_keeps (bears.get _).tried fun r s₆ _ ↦ ?_
        split <;> exact Verb.keeps_throw trivial

theorem grantFrom_keeps (slots : List Slot) {no : NoSlot} {s : World} (hs : Sound s) :
    (grantFrom cfg holder slots no).Keeps Onward Granting (fun g _ ↦ g.record.released = false)
      (fun _ ↦ True) s := by
  induction slots generalizing no s with
  | nil => exact Verb.keeps_throw trivial
  | cons slot rest ih =>
    have htried : (Verb.tried (take cfg slot holder) : Run NoSlot _).Keeps Onward Granting
        (fun r _ ↦ ∀ g, r = .ok g → g.record.released = false) (fun _ ↦ True) s :=
      Verb.keeps_tried ((take_keeps hs).imp fun g _ hg g' hg' ↦ Except.ok.inj hg' ▸ hg)
        fun _ _ _ _ h ↦ nomatch h
    refine Verb.keeps_bind .refl ((Verb.Keeps.since (R := Onward) (G := Granting) Onward.trans
      (·.toOnward) htried).imp fun r s₁ ⟨hr, hs₁⟩ ↦ ?_)
    cases r with
    | ok g => exact Verb.keeps_pure fun _ _ ↦ hr g rfl
    | error taken => exact ih (hs₁.sound hs)

theorem program_keeps (h : Holder) {s : World} (hs : Sound s) :
    (h.program cfg).Keeps Onward Granting (fun _ _ ↦ True) s := by
  have hkeeps : Verb.Keeps Onward Granting (fun _ _ ↦ True) (fun _ ↦ True) (h.program cfg) s :=
    Verb.keeps_bind .refl ((grantFrom_keeps _ hs).imp fun g _ hg ↦
      perform_keeps h.acts hg fun _ h ↦ nomatch h)
  exact Prog.Keeps.imp hkeeps id id fun _ _ _ ↦ trivial

end Holder

end Spira.Controller.Slots
