import Spira.Goodput.Live

/-!
# Passes that share the intents

Every call keeps the world as `Kept` says, whatever the other calls do between its steps.  A pass
knows, as long as it has its lock, of every intent there is: it read it in its snapshot, or wrote it
itself (`Knows`).  Its plan's steps have targets that no live intent of the snapshot has, and no two
of them one, so what it writes has a target of its own (`intentPut_does`).

An intent is judged as it was in the snapshot or has grown since, under the same lock, so the
judgement is of what the selector saw (`intentJudge_does`).
-/

set_option autoImplicit false

namespace Spira.Goodput

open DesiredState (formatRfc3339)

/-! ## Rules -/

section Rules

variable {α β : Type} {own : Option ℕ} {Q Q' : α → World → Prop} {E E' : World → Prop}
  {w w' : World}

/-- From `w` on, with the same token throughout, every step is within what is guaranteed, and the
end is an answer in `Q` or an error in `E`. -/
def Does (own : Option ℕ) (Q : α → World → Prop) (E : World → Prop) (v : Program α) (w : World) :
    Prop :=
  v.Owns Rely Guar (fun a o s ↦ o = own ∧ Q a s) (fun _ o s ↦ o = own ∧ ∀ s', Rely o s s' → E s')
    own w

theorem Does.mono {v : Program α} (h : Does own Q E v w) (hs : Rely own w w') : Does own Q E v w' :=
  Verb.Owns.mono Rely.trans h hs

theorem Does.imp {v : Program α} (h : Does own Q E v w) (hQ : ∀ a s, Q a s → Q' a s)
    (hE : ∀ s, E s → E' s) : Does own Q' E' v w :=
  Verb.Owns.imp h (fun a _ s ha ↦ ⟨ha.1, hQ a s ha.2⟩) fun _ _ _ he ↦
    ⟨he.1, fun s' hs' ↦ hE s' (he.2 s' hs')⟩

theorem does_pure {a : α} (h : ∀ s, Rely own w s → Q a s) : Does own Q E (pure a) w :=
  Verb.owns_pure fun s hs ↦ ⟨rfl, h s hs⟩

theorem does_throw {e : VerbError} (h : ∀ s, Rely own w s → E s) :
    Does own Q E (throw e : Program α) w :=
  Verb.owns_throw fun _ hs ↦ ⟨rfl, fun s' hs' ↦ h s' (hs.trans hs')⟩

theorem does_bind {x : Program α} {f : α → Program β} {Q : β → World → Prop}
    (h : Does own (fun a s ↦ Does own Q E (f a) s) E x w) : Does own Q E (x >>= f) w := by
  refine Verb.owns_bind Rely.refl (Verb.Owns.imp h (fun a o s ha ↦ ?_) fun e o s he s' hs' ↦ ?_)
  · obtain ⟨rfl, ha⟩ := ha
    exact ha
  · exact ⟨he.1, fun s'' hs'' ↦ he.2 s'' (hs'.trans hs'')⟩

/-- An error is an answer to a program that goes on. -/
theorem does_tried {x : Program α} {f : Except VerbError α → Program β} {Q : β → World → Prop}
    (hstable : ∀ s s', E' s → Rely own s s' → E' s')
    (h : Does own (fun _ s ↦ ∀ s', Rely own s s' → E' s') E' x w)
    (hf : ∀ r s, E' s → Does own Q E (f r) s) :
    Does own Q E ((Verb.tried x : Program (Except VerbError α)) >>= f) w := by
  refine does_bind (Verb.owns_tried Rely.refl (Verb.Owns.imp h (fun a o s ha s' hs' ↦ ?_)
    fun e o s he s' hs' ↦ ?_))
  · obtain ⟨rfl, ha⟩ := ha
    exact ⟨rfl, hf _ s' (ha s' hs')⟩
  · obtain ⟨rfl, he⟩ := he
    exact ⟨rfl, hf _ s' (hstable s s' (he s (.refl _ s)) hs')⟩

theorem does_guard {c : Prop} [Decidable c] {e : VerbError} {k : Unit → Program α}
    (herr : ∀ s, Rely own w s → E s) (h : ¬c → Does own Q E (k ()) w) :
    Does own Q E (if c then (throw e : Program Unit) >>= k else k ()) w := by
  by_cases hc : c
  · rw [if_pos hc]
    exact does_bind (does_throw herr)
  · rw [if_neg hc]
    exact h hc

theorem does_decided {r : Except VerbError α} {f : α → Program β} {Q : β → World → Prop}
    (herr : ∀ s, Rely own w s → E s) (h : ∀ a, r = .ok a → Does own Q E (f a) w) :
    Does own Q E (decided r >>= f) w := by
  refine does_bind ?_
  cases r with
  | ok a => exact does_pure fun s hs ↦ (h a rfl).mono hs
  | error e => exact does_throw herr

theorem does_look {answer : World → Except VerbError α} {f : α → Program β} {Q : β → World → Prop}
    (herr : ∀ s, Rely own w s → E s)
    (h : ∀ s a, Rely own w s → (∀ s', Rely own s s' → E s') → answer s = .ok a →
      Does own Q E (f a) s) : Does own Q E ((Verb.look answer : Program α) >>= f) w := by
  refine does_bind (Verb.owns_look Guar.refl fun s hs s' hs' ↦ ⟨fun a ha ↦ ⟨rfl, ?_⟩, fun e _ ↦
    ⟨rfl, fun s'' hs'' ↦ herr s'' (hs.trans (hs'.trans hs''))⟩⟩)
  exact (h s a hs (fun s'' hs'' ↦ herr s'' (hs.trans hs'')) ha).mono hs'

theorem does_get {k : Key} {f : Option (Records.Item k.Val) → Program β} {Q : β → World → Prop}
    (herr : ∀ s, Rely own w s → E s)
    (h : ∀ s, Rely own w s → (∀ s', Rely own s s' → E s') →
      Does own Q E (f (s.store.items k)) s) : Does own Q E (get k >>= f) w := by
  refine does_look herr fun s a hs herr' ha ↦ ?_
  by_cases hup : (s.up && s.heard) = true
  · rw [if_pos hup] at ha
    exact Except.ok.inj ha ▸ h s hs herr'
  · rw [if_neg hup] at ha
    cases ha

theorem does_holdsLock {token : ℕ} {f : Bool → Program β} {Q : β → World → Prop}
    (herr : ∀ s, Rely own w s → E s)
    (h : ∀ b s, Rely own w s → (∀ s', Rely own s s' → E s') → Does own Q E (f b) s) :
    Does own Q E (holdsLock token >>= f) w :=
  does_bind (does_get herr fun _ hs herr' ↦ does_pure fun s' hs' ↦
    h _ s' (hs.trans hs') fun s'' hs'' ↦ herr' s'' (hs'.trans hs''))

theorem does_transact {t : Txn} {told : List Told} {f : Option ℕ → Program β}
    {Q : β → World → Prop} (herr : ∀ s, Rely own w s → E s)
    (hmade : ∀ s, Rely own w s → t.takes s.store = true →
      Guar own own s (s.commit t told) ∧ (∀ s', Rely own (s.commit t told) s' → E s') ∧
        ∀ s', Rely own (s.commit t told) s' → Does own Q E (f (some (s.store.head + 1))) s')
    (hnot : ∀ s, Rely own w s → (∀ s', Rely own s s' → E s') → Does own Q E (f none) s) :
    Does own Q E (transact t told >>= f) w := by
  refine does_bind (Verb.owns_atom fun s hs _ ↦ ⟨own, ?_⟩)
  by_cases hmakes : (s.up && t.takes s.store) = true
  · have htakes := (Bool.and_eq_true_iff.mp hmakes).2
    obtain ⟨hguar, hE, hok⟩ := hmade s hs htakes
    rw [if_pos hmakes]
    refine ⟨hguar, fun s' hs' ↦ ⟨fun a ha ↦ ⟨rfl, ?_⟩, fun e _ ↦
      ⟨rfl, fun s'' hs'' ↦ hE s'' (hs'.trans hs'')⟩⟩⟩
    by_cases hheard : (s.up && s.heard) = true
    · rw [if_pos hheard, if_pos htakes] at ha
      exact Except.ok.inj ha ▸ hok s' hs'
    · rw [if_neg hheard] at ha
      cases ha
  · rw [if_neg hmakes]
    refine ⟨.refl own s, fun s' hs' ↦ ⟨fun a ha ↦ ⟨rfl, ?_⟩, fun e _ ↦
      ⟨rfl, fun s'' hs'' ↦ herr s'' (hs.trans (hs'.trans hs''))⟩⟩⟩
    by_cases hheard : (s.up && s.heard) = true
    · have htakes : ¬ t.takes s.store = true := fun htakes ↦
        hmakes (Bool.and_eq_true_iff.mpr ⟨(Bool.and_eq_true_iff.mp hheard).1, htakes⟩)
      rw [if_pos hheard, if_neg htakes] at ha
      exact Except.ok.inj ha ▸ hnot s' (hs.trans hs') fun s'' hs'' ↦
        herr s'' (hs.trans (hs'.trans hs''))
    · rw [if_neg hheard] at ha
      cases ha

end Rules

/-! ## What was read -/

/-- What was read of a record, in a world that was kept. -/
def Seen (k : Key) (item : Option (Records.Item k.Val)) (w : World) : Prop :=
  ∃ w₀, Kept w₀ ∧ Onward w₀ w ∧ w₀.store.items k = item

section Seen

variable {k : Key} {item : Option (Records.Item k.Val)} {w w' : World} {own : Option ℕ}

theorem Seen.rely (h : Seen k item w) (hs : Rely own w w') : Seen k item w' := by
  obtain ⟨w₀, hw₀, hon, hi⟩ := h
  exact ⟨w₀, hw₀, hon.trans hs.toOnward, hi⟩

theorem seen_now (hw : Kept w) : Seen k (w.store.items k) w := ⟨w, hw, .refl w, rfl⟩

/-- A record at the revision that it was read at is what was read. -/
theorem Seen.unmoved (h : Seen k item w) {t : Txn} (htakes : t.takes w.store = true)
    (hc : .modRev k (item.map (·.modRev)) ∈ t.compares) : w.store.items k = item := by
  obtain ⟨w₀, hw₀, hon, rfl⟩ := h
  have hholds := Records.holds_of_takes htakes hc
  obtain hnone | ⟨i, hi⟩ := (w₀.store.items k).eq_none_or_eq_some
  · rw [hnone] at hholds ⊢
    exact Records.holds_modRev_none.mp hholds
  · rw [hi] at hholds ⊢
    obtain ⟨i', hi', hrev⟩ := Records.holds_modRev.mp hholds
    rw [hi', hon.store.unmoved hw₀.dated hi hi' hrev]

end Seen

/-! ## The owners -/

section Owners

variable {own : Option ℕ} {kinds : Kinds} {actor key knob : String} {w : World}
  {E : World → Prop}

theorem readIntent_does (hw : Kept w) (herr : ∀ s, Rely own w s → E s) :
    Does own (fun item s ↦ Kept s ∧ Rely own w s ∧ Seen (.intent key) (some item) s) E
      (readIntent key) w := by
  refine does_get herr fun s hs herr' ↦ ?_
  obtain hnone | ⟨item, hitem⟩ := (s.store.items (.intent key)).eq_none_or_eq_some
  · rw [hnone]
    exact does_throw herr'
  · rw [hitem]
    have hseen : Seen (.intent key) (some item) s := hitem ▸ seen_now (hs.kept hw)
    exact does_pure fun s' hs' ↦ ⟨hs'.kept (hs.kept hw), hs.trans hs', hseen.rely hs'⟩

theorem ownedIntent_does (hw : Kept w) :
    Does own (fun item s ↦ Kept s ∧ Seen (.intent key) (some item) s ∧ item.value.ack = none)
      (fun _ ↦ True) (ownedIntent kinds actor key) w := by
  unfold ownedIntent
  obtain hnone | ⟨k, hk⟩ := (parseKey key).eq_none_or_eq_some
  · rw [hnone]
    exact does_throw fun _ _ ↦ trivial
  rw [hk]
  refine does_decided (fun _ _ ↦ trivial) fun owner _ ↦ does_guard (fun _ _ ↦ trivial) fun _ ↦
    does_bind ((readIntent_does hw fun _ _ ↦ trivial).imp (fun item s hitem ↦ ?_) fun _ h ↦ h)
  obtain ⟨hs, -, hseen⟩ := hitem
  refine does_guard (fun _ _ ↦ trivial) fun hack ↦ does_pure fun s' hs' ↦
    ⟨hs'.kept hs, hseen.rely hs', ?_⟩
  rwa [Bool.not_eq_true, Option.isSome_eq_false_iff, Option.isNone_iff_eq_none] at hack

/-- An intent that gets an acknowledgement. -/
theorem grown_ack {i : Intent} (h : i.ack = none) (ack : Ack) :
    Grown i { i with ack := some ack } where
  core := rfl
  ack a ha := by
    rw [h] at ha
    cases ha
  judgement _ hj := hj

theorem judges_ack (hw : Kept w) {item : Records.Item Intent}
    (hi : w.store.items (.intent key) = some item) (hack : item.value.ack = none) (ack : Ack)
    (j : Judgement) (hj : item.value.judgement = some j) :
    Judges { item.value with ack := some ack } j :=
  (hw.judged key item j hi hj).grown (grown_ack hack ack)

/-- **An owner's acknowledgement.** -/
theorem intentAck_does {result : AckResult} (hw : Kept w) :
    Does own (fun _ _ ↦ True) (fun _ ↦ True) (intentAck kinds actor key result) w := by
  unfold intentAck
  refine does_look (fun _ _ ↦ trivial) fun s now hs _ _ ↦
    does_bind ((ownedIntent_does (hs.kept hw)).imp (fun item s₁ hitem ↦ ?_) fun _ h ↦ h)
  obtain ⟨hs₁, hseen, hack⟩ := hitem
  refine does_look (fun _ _ ↦ trivial) fun s₂ rev hs₂ _ _ ↦ does_transact (fun _ _ ↦ trivial)
    (fun s₃ hs₃ htakes ↦ ?_) fun _ _ _ ↦ does_throw fun _ _ ↦ trivial
  have hi := ((hseen.rely hs₂).rely hs₃).unmoved htakes List.mem_cons_self
  exact ⟨guar_over puts_only hi (grown_ack hack _) (fun hw ↦ judges_ack hw hi hack _)
    fun hw ↦ tells_nothing hw fun _ ↦ by simp [ackTxn, Records.Op.key],
    fun _ _ ↦ trivial, fun _ _ ↦ does_pure fun _ _ ↦ trivial⟩

/-- The knob after it moves. -/
theorem tells_apply {item : Records.Item Intent} {cur : Option (Records.Item Setting)} {ack : Ack}
    (hw : Kept w) (hi : w.store.items (.intent key) = some item) (hack : item.value.ack = none)
    (htarget : item.value.target = knob) (hcur : w.store.items (.knob knob) = cur)
    (hresult : ack.result = applied item.value (cur.elim .null (·.value))) :
    Tells w (applyTxn key knob item cur ack)
      (if ack.result = .applied then
        [.moved knob key item.createRev item.value.from_ item.value.to_] else []) := by
  by_cases happlied : ack.result = .applied
  · rw [if_pos happlied]
    have hops : (applyTxn key knob item cur ack).ops =
        [.put (.intent key) { item.value with ack := some ack },
          .put (.knob knob) item.value.to_] := by
      rw [applyTxn, if_pos happlied]
    have hkeys : (([.put (.intent key) { item.value with ack := some ack },
        .put (.knob knob) item.value.to_] : List (Records.Op Key Key.Val)).map
          Records.Op.key).Nodup := by
      simp [Records.Op.key]
    have hfrom : (settingOf w.told knob).getD .null = item.value.from_ := by
      rw [← hw.knobs knob, hcur]
      rw [happlied] at hresult
      by_contra hne
      rw [applied, if_neg ?_] at hresult
      · split at hresult <;> cases hresult
      · intro heq
        obtain rfl | ⟨c, rfl⟩ := cur.eq_none_or_eq_some
        · exact hne heq
        · exact hne heq
    refine ⟨hw.lawful.moved_concat hfrom fun hmem ↦ ?_, fun k ↦ ?_,
      fun knob' key' rev from_ to_ hmem ↦ ?_⟩
    · obtain ⟨t, ht, hmover⟩ := List.mem_filterMap.mp hmem
      cases t with
      | set => cases hmover
      | moved knob' key' rev from_ to_ =>
        obtain ⟨rfl, rfl⟩ := Prod.mk.inj (Option.some.inj hmover)
        obtain ⟨ack', hack', -⟩ := ((hw.movers _ _ _ _ _ ht).2 item hi rfl).ack
        rw [hack] at hack'
        cases hack'
    · rw [hops, settingOf_concat]
      by_cases hk : knob = k
      · subst hk
        rw [Records.items_commit_put_of_mem hkeys (List.mem_cons_of_mem _ List.mem_cons_self)]
        exact (if_pos rfl).symm
      · rw [Records.items_commit_of_notMem (by simpa [Records.Op.key] using Ne.symm hk), hw.knobs k]
        exact (if_neg hk).symm
    · cases List.mem_singleton.mp hmem
      refine ⟨(hw.dated (.intent _) item hi).2, fun i hi' _ ↦ ?_⟩
      rw [hops, Records.items_commit_put_of_mem hkeys List.mem_cons_self] at hi'
      rw [← Option.some.inj hi']
      exact ⟨htarget, rfl, rfl, ack, rfl, happlied⟩
  · rw [if_neg happlied]
    refine tells_nothing hw fun k ↦ ?_
    rw [applyTxn, if_neg happlied]
    simp [Records.Op.key]

/-- **An owner moves the knob and acknowledges the intent at once.** -/
theorem intentApply_does (hw : Kept w) :
    Does own (fun _ _ ↦ True) (fun _ ↦ True) (intentApply kinds actor key knob) w := by
  unfold intentApply
  refine does_look (fun _ _ ↦ trivial) fun s now hs _ _ ↦ does_guard (fun _ _ ↦ trivial) fun _ ↦
    does_bind ((ownedIntent_does (hs.kept hw)).imp (fun item s₁ hitem ↦ ?_) fun _ h ↦ h)
  obtain ⟨hs₁, hseen, hack⟩ := hitem
  refine does_guard (fun _ _ ↦ trivial) fun hknob ↦ does_get (fun _ _ ↦ trivial) fun s₂ hs₂ _ ↦ ?_
  have htarget : knob = item.value.target := of_not_not (not_or.mp hknob).1
  have hcur : Seen (.knob knob) (s₂.store.items (.knob knob)) s₂ := seen_now (hs₂.kept hs₁)
  refine does_look (fun _ _ ↦ trivial) fun s₃ rev hs₃ _ _ ↦ does_transact (fun _ _ ↦ trivial)
    (fun s₄ hs₄ htakes ↦ ?_) fun _ _ _ ↦ does_throw fun _ _ ↦ trivial
  have hi := (((hseen.rely hs₂).rely hs₃).rely hs₄).unmoved htakes List.mem_cons_self
  have hcur := ((hcur.rely hs₃).rely hs₄).unmoved htakes
    (List.mem_cons_of_mem _ List.mem_cons_self)
  have hputs : Puts (applyTxn key knob item (s₂.store.items (.knob knob))
      ⟨formatRfc3339 (now / 1000), applied item.value ((s₂.store.items (.knob knob)).elim .null
        (·.value)), rev⟩) key _ _ := ⟨rfl, fun key' ↦ by split <;> simp [Records.Op.key],
      by split <;> simp⟩
  exact ⟨guar_over hputs hi (grown_ack hack _) (fun hw ↦ judges_ack hw hi hack _)
    fun hw ↦ tells_apply hw hi hack htarget.symm hcur rfl, fun _ _ ↦ trivial,
    fun _ _ ↦ does_pure fun _ _ ↦ trivial⟩

/-- **A knob gets its first value.** -/
theorem knobInit_does {value : Setting} :
    Does own (fun _ _ ↦ True) (fun _ ↦ True) (knobInit kinds actor knob value) w := by
  unfold knobInit
  obtain hnone | ⟨kind, hkind⟩ := (knobKind knob).eq_none_or_eq_some
  · rw [hnone]
    exact does_throw fun _ _ ↦ trivial
  rw [hkind]
  refine does_decided (fun _ _ ↦ trivial) fun owner _ ↦ does_guard (fun _ _ ↦ trivial) fun _ ↦
    does_get (fun _ _ ↦ trivial) fun s hs _ ↦ ?_
  obtain hnone | ⟨item, hitem⟩ := (s.store.items (.knob knob)).eq_none_or_eq_some
  · rw [hnone]
    refine does_transact (fun _ _ ↦ trivial) (fun s' hs' htakes ↦ ?_) fun _ _ _ ↦
      does_throw fun _ _ ↦ trivial
    have habsent := Records.holds_modRev_none.mp
      (Records.holds_of_takes htakes List.mem_cons_self)
    refine ⟨guar_spared (fun _ _ ↦ by simp) (by simp) fun hw' ↦ ⟨?_, fun k ↦ ?_,
      fun _ _ _ _ _ hmem ↦ ?_⟩, fun _ _ ↦ trivial, fun _ _ ↦ does_pure fun _ _ ↦ trivial⟩
    · refine hw'.lawful.set_concat ?_
      rw [← hw'.knobs knob, habsent]
      rfl
    · rw [settingOf_concat]
      by_cases hk : knob = k
      · subst hk
        rw [Records.items_commit_put]
        exact (if_pos rfl).symm
      · rw [Records.items_commit_of_notMem (by simpa [Records.Op.key] using Ne.symm hk),
          hw'.knobs k]
        exact (if_neg hk).symm
    · cases List.mem_singleton.mp hmem
  · rw [hitem]
    exact does_pure fun _ _ ↦ trivial

end Owners

/-! ## The pass -/

/-- What a pass knows of the intents while it has its lock: each was there in its snapshot, or is
one that it wrote. -/
structure Knows (token : ℕ) (w₀ : World) (now : ℕ) (done : List Planned) (w : World) : Prop where
  start : Kept w₀
  since : Onward w₀ w
  valid : token ≤ w₀.store.head
  clock : now ≤ w.nowMs
  intents : lockToken w.store = some token → ∀ key i, w.store.items (.intent key) = some i →
    Was w₀ key i ∨ ∃ p ∈ done, p.key = key ∧ Grown p.intent i.value

section Knows

variable {token now : ℕ} {w₀ w w' : World} {done : List Planned} {p : Planned} {key : String}
  {i : Records.Item Intent}

theorem Knows.kept (h : Knows token w₀ now done w) : Kept w := h.since.kept h.start

/-- An intent of the snapshot has grown since. -/
theorem Was.grown (hw₀ : Kept w₀) (hon : Onward w₀ w) (hi : w.store.items (.intent key) = some i)
    (hwas : Was w₀ key i) :
    ∃ i₀, w₀.store.items (.intent key) = some i₀ ∧ Grown i₀.value i.value := by
  obtain ⟨j, hj, hrev⟩ := hwas
  obtain ⟨i₀, hi₀, -, hgrown⟩ :=
    hon.grown key i hi (hrev ▸ (hw₀.dated (.intent key) j hj).2)
  exact ⟨i₀, hi₀, hgrown⟩

theorem Knows.onward (h : Knows token w₀ now done w) (hon : Onward w w')
    (hwas : lockToken w'.store = some token → ∀ key i, w'.store.items (.intent key) = some i →
      Was w key i) : Knows token w₀ now done w' where
  start := h.start
  since := h.since.trans hon
  valid := h.valid
  clock := h.clock.trans hon.clock
  intents hlock key i hi := by
    have hlock₀ := lockToken_before hon.store (h.valid.trans h.since.store.head) hlock
    have hwas := hwas hlock key i hi
    obtain ⟨j, hj, hrev⟩ := hwas
    rcases h.intents hlock₀ key j hj with ⟨i₀, hi₀, hrev₀⟩ | ⟨p, hp, hkey, hgrown⟩
    · exact .inl ⟨i₀, hi₀, hrev₀.trans hrev⟩
    · obtain ⟨j', hj', hgrown'⟩ := Was.grown h.kept hon hi ⟨j, hj, hrev⟩
      obtain rfl := Option.some.inj (hj.symm.trans hj')
      exact .inr ⟨p, hp, hkey, hgrown.trans hgrown'⟩

theorem Knows.rely (h : Knows token w₀ now done w) (hs : Rely (some token) w w') :
    Knows token w₀ now done w' :=
  h.onward hs.toOnward fun hlock ↦ hs.fenced token rfl (h.valid.trans h.since.store.head) hlock

theorem Knows.more (h : Knows token w₀ now done w) : Knows token w₀ now (done ++ [p]) w :=
  { h with
    intents := fun hlock key i hi ↦ by
      rcases h.intents hlock key i hi with hwas | ⟨q, hq, hq'⟩
      · exact .inl hwas
      · exact .inr ⟨q, List.mem_append_left _ hq, hq'⟩ }

theorem lockToken_of_fence {t : Txn} (htakes : t.takes w.store = true)
    (hc : fence token ∈ t.compares) : lockToken w.store = some token := by
  obtain ⟨lock, hlock, hrev⟩ := Records.holds_createRev.mp (Records.holds_of_takes htakes hc)
  exact Option.map_eq_some_iff.mpr ⟨lock, hlock, hrev⟩

theorem Knows.put (h : Knows token w₀ now done w)
    (htakes : (putTxn token p.key p.intent).takes w.store = true)
    (hon : Onward w (w.commit (putTxn token p.key p.intent) [])) :
    Knows token w₀ now (done ++ [p]) (w.commit (putTxn token p.key p.intent) []) where
  start := h.start
  since := h.since.trans hon
  valid := h.valid
  clock := h.clock
  intents _ key i hi := by
    rcases Records.put_or_same hi with hsame | hput
    · exact h.more.intents (lockToken_of_fence htakes List.mem_cons_self) key i hsame
    · have hputs : Puts (putTxn token p.key p.intent) p.key p.intent [] := puts_only
      obtain ⟨rfl, hv⟩ := hputs.mem hput
      exact .inr ⟨p, List.mem_append_right _ List.mem_cons_self, rfl, hv ▸ .refl _⟩

/-- The intents that there are are listed. -/
theorem mem_listed (hw : Kept w) (hi : w.store.items (.intent key) = some i) :
    ⟨key, i.value⟩ ∈ listed w.store := by
  refine (List.mem_insertionSort _).mpr (List.mem_filterMap.mpr ⟨.intent key,
    hw.listed _ (Option.isSome_iff_exists.mpr ⟨i, hi⟩), ?_⟩)
  show (w.store.items (.intent key)).map _ = _
  rw [hi]
  rfl

theorem items_of_listed {li : ListedIntent} (h : li ∈ listed w.store) :
    ∃ i, w.store.items (.intent li.key) = some i ∧ i.value = li.intent := by
  obtain ⟨k, -, hk⟩ := List.mem_filterMap.mp ((List.mem_insertionSort _).mp h)
  cases k with
  | intent key =>
    obtain ⟨i, hi, rfl⟩ := Option.map_eq_some_iff.mp hk
    exact ⟨i, hi, rfl⟩
  | knob | lock | pass => cases hk

/-- No live intent of the snapshot has the step's target. -/
def Free (w₀ : World) (now : ℕ) (p : Planned) : Prop :=
  ∀ key i, w₀.store.items (.intent key) = some i → Live (now / 1000) i.value →
    i.value.target ≠ p.intent.target

/-- While a pass has its lock, no live intent has the target of a step that it has not written. -/
theorem Knows.free (h : Knows token w₀ now done w) (hlock : lockToken w.store = some token)
    (hp : Free w₀ now p) (hdone : ∀ q ∈ done, q.intent.target ≠ p.intent.target)
    (hi : w.store.items (.intent key) = some i) (htarget : i.value.target = p.intent.target) :
    ¬ Live (w.nowMs / 1000) i.value := by
  intro hlive
  have hnow : now / 1000 ≤ w.nowMs / 1000 := Nat.div_le_div_right h.clock
  rcases h.intents hlock key i hi with hwas | ⟨q, hq, -, hgrown⟩
  · obtain ⟨i₀, hi₀, hgrown⟩ := Was.grown h.start h.since hi hwas
    exact hp key i₀ hi₀ (hlive.before hgrown hnow) (hgrown.target.symm.trans htarget)
  · exact hdone q hq (hgrown.target.symm.trans htarget)

/-- What is planned from a snapshot: every step has a target of its own. -/
theorem select_free {inp : Inputs} (hw₀ : Kept w₀) (hinp : inp.assembled.intents = listed w₀.store)
    (hnow : inp.nowMs = now) : (∀ p ∈ (select inp).steps, Free w₀ now p) ∧
      (select inp).steps.Pairwise fun p q ↦ p.intent.target ≠ q.intent.target := by
  obtain ⟨s, taken, hselect, hw⟩ := walked_select inp
  rw [hselect, hw.steps]
  refine ⟨fun p hp key i hi hlive htarget ↦ ?_, List.Pairwise.filter _ ?_⟩
  · obtain ⟨t, ht, rfl⟩ := List.mem_map.mp (List.mem_filter.mp hp).1
    obtain ⟨sec, hsec⟩ := Option.isSome_iff_exists.mp (hw₀.section_ key i hi)
    have hholds : Holds inp.assembled (inp.nowMs / 1000) ⟨key, i.value⟩ sec :=
      holds_live hsec (hnow ▸ hlive)
    have hmem : (⟨key, i.value⟩ : ListedIntent) ∈ inp.assembled.intents :=
      hinp ▸ mem_listed hw₀ hi
    have hreach := target_mem_reach inp.assembled ⟨key, i.value⟩ sec
    replace hreach : "target:" ++ i.value.target ∈ reach inp.assembled ⟨key, i.value⟩ sec := hreach
    rw [htarget] at hreach
    exact hw.took.disjoint rfl ht hmem hholds (target_mem_neighbourhood _ _ _ _) hreach
  · refine List.pairwise_map.mpr (hw.took.apart.imp fun {t u} hdisjoint htarget ↦ ?_)
    refine hdisjoint (target_mem_neighbourhood inp.assembled t.2.section_ t.1.class_ _) ?_
    rw [htarget]
    exact target_mem_neighbourhood inp.assembled u.2.section_ u.1.class_ _

/-- A judgement that is due says what its intent comes to. -/
theorem judges_due {inp : Inputs} {j : Judge} {item : Records.Item Intent} {t : ℕ}
    (hw₀ : Kept w₀) (hinp : inp.assembled.intents = listed w₀.store) (hon : Onward w₀ w)
    (hdue : j ∈ (select inp).judged) (hi : w.store.items (.intent j.key) = some item)
    (hwas : Was w₀ j.key item) (ht : inp.nowMs / 1000 ≤ t) :
    Judges { item.value with judgement := some ⟨formatRfc3339 t, j.result, j.observed⟩ }
      ⟨formatRfc3339 t, j.result, j.observed⟩ := by
  obtain ⟨s, taken, hselect, hwalked⟩ := walked_select inp
  rw [hselect, hwalked.judged, judged_history] at hdue
  obtain ⟨li, hli, hdue⟩ := List.mem_flatMap.mp hdue
  rw [dueOn] at hdue
  obtain hnone | ⟨sec, hsec⟩ := (sectionOf li.key).eq_none_or_eq_some
  · rw [hnone] at hdue
    cases hdue
  rw [hsec] at hdue
  obtain ⟨-, ⟨ack, hack, hres⟩, hwithin, hkey, observed, -, hobserved, hresult⟩ := mem_judgeOf hdue
  rw [hinp] at hli
  obtain ⟨i₀, hi₀, hvalue⟩ := items_of_listed hli
  obtain ⟨i₁, hi₁, hgrown⟩ := Was.grown hw₀ hon hi hwas
  rw [hkey, hi₀] at hi₁
  obtain rfl := Option.some.inj hi₁
  rw [hvalue] at hgrown
  refine ⟨⟨ack, hgrown.ack ack hack, hres⟩, ⟨t, rfl, ?_⟩, ?_⟩
  · have hlate : within t li.intent = false := by
      by_contra hlive
      rw [within_mono ht (Bool.eq_true_of_not_eq_false hlive)] at hwithin
      cases hwithin
    have hsame : within t item.value = within t li.intent := hgrown.within
    exact hsame.trans hlate
  · show j.result = resultOf item.value j.observed
    rw [hresult, hobserved]
    exact (hgrown.resultOf observed).symm

end Knows

section Pass

variable {kinds : Kinds} {rank : Assembled → List RankedGap} {token now : ℕ} {w₀ w : World}
  {done : List Planned} {p : Planned} {cfg : LegConfig} {α : Type} {f : Bool → Program α}
  {Q : α → World → Prop} {E : World → Prop}

theorem admitPut_eq_ok {key : String} {i : Intent} (h : admitPut kinds key i token = .ok ()) :
    (sectionOf key).isSome ∧ i.judgement = none := by
  rw [admitPut] at h
  obtain hnone | ⟨k, hk⟩ := (parseKey key).eq_none_or_eq_some
  · rw [hnone] at h
    cases h
  rw [hk] at h
  obtain ⟨_, -, h⟩ := bind_eq_ok.mp h
  obtain ⟨_, -, h⟩ := bind_eq_ok.mp h
  obtain ⟨_, -, h⟩ := bind_eq_ok.mp h
  obtain ⟨_, -, h⟩ := bind_eq_ok.mp h
  obtain ⟨_, hjudgement, -⟩ := bind_eq_ok.mp h
  rw [refuseIf_eq_ok] at hjudgement
  refine ⟨?_, Option.isNone_iff_eq_none.mp (Option.isSome_eq_false_iff.mp hjudgement)⟩
  rw [sectionOf, hk]
  rfl

/-- **A step is written while no live intent has its target.** -/
theorem intentPut_does (hk : Knows token w₀ now done w) (hp : Free w₀ now p)
    (hdone : ∀ q ∈ done, q.intent.target ≠ p.intent.target) :
    Does (some token) (fun _ s ↦ Knows token w₀ now (done ++ [p]) s)
      (Knows token w₀ now (done ++ [p])) (intentPut kinds reconciler token p.key p.intent) w := by
  unfold intentPut
  have herr (s : World) (hs : Rely (some token) w s) : Knows token w₀ now (done ++ [p]) s :=
    (hk.rely hs).more
  refine does_guard herr fun _ ↦ does_decided herr fun _ hadmit ↦
    does_holdsLock herr fun _ s hs herr ↦ does_guard herr fun _ ↦ does_get herr fun s₁ hs₁ herr ↦
    does_guard herr fun _ ↦ does_transact herr (fun s₂ hs₂ htakes ↦ ?_) fun s₂ hs₂ herr ↦
    does_holdsLock herr fun held s₃ hs₃ herr ↦ ?_
  · obtain ⟨hsec, hjudgement⟩ := admitPut_eq_ok hadmit
    have hk₂ := ((hk.rely hs).rely hs₁).rely hs₂
    have hguar := guar_new htakes hsec hjudgement fun _ key i hi htarget ↦
      hk₂.free (lockToken_of_fence htakes List.mem_cons_self) hp hdone hi htarget
    have hput := hk₂.put htakes hguar.toOnward
    exact ⟨hguar, fun s' hs' ↦ hput.rely hs',
      fun s' hs' ↦ does_pure fun s'' hs'' ↦ (hput.rely hs').rely hs''⟩
  · split
    · exact does_throw herr
    · exact does_throw herr

/-- **A judgement is written of an intent as it was in the snapshot, or has grown since.** -/
theorem intentJudge_does {inp : Inputs} {j : Judge} (hk : Knows token w₀ now [] w)
    (hinp : inp.assembled.intents = listed w₀.store) (hnow : inp.nowMs = now)
    (hdue : j ∈ (select inp).judged) :
    Does (some token) (fun _ s ↦ Knows token w₀ now [] s) (Knows token w₀ now [])
      (intentJudge reconciler token j.key j.result j.observed) w := by
  unfold intentJudge
  refine does_look (fun s hs ↦ hk.rely hs) fun s t hs herr ht ↦ does_guard herr fun _ ↦
    does_bind ((readIntent_does (hk.rely hs).kept herr).imp (fun item s₁ hitem ↦ ?_) fun _ h ↦ h)
  obtain ⟨-, hs₁, hseen⟩ := hitem
  replace herr (s' : World) (hs' : Rely (some token) s₁ s') : Knows token w₀ now [] s' :=
    herr s' (hs₁.trans hs')
  refine does_guard herr fun _ ↦ does_guard herr fun hjudgement ↦
    does_holdsLock herr fun _ s₂ hs₂ herr ↦ does_guard herr fun _ ↦
    does_transact herr (fun s₃ hs₃ htakes ↦ ?_) fun s₃ hs₃ herr ↦
    does_holdsLock herr fun held s₄ hs₄ herr ↦ ?_
  · have hi := ((hseen.rely hs₂).rely hs₃).unmoved htakes
      (List.mem_cons_of_mem _ List.mem_cons_self)
    have hk₃ := (((hk.rely hs).rely hs₁).rely hs₂).rely hs₃
    have hwas : Was w₀ j.key item := by
      rcases hk₃.intents (lockToken_of_fence htakes List.mem_cons_self) j.key item hi with
        hwas | ⟨q, hq, -⟩
      · exact hwas
      · cases hq
    have hclock : inp.nowMs / 1000 ≤ t / 1000 := by
      rw [hnow, ← Except.ok.inj ht]
      exact Nat.div_le_div_right (hk.rely hs).clock
    have hunjudged : item.value.judgement = none := by
      rwa [Bool.not_eq_true, Option.isSome_eq_false_iff, Option.isNone_iff_eq_none] at hjudgement
    have hgrown : Grown item.value
        { item.value with judgement := some ⟨formatRfc3339 (t / 1000), j.result, j.observed⟩ } :=
      ⟨rfl, fun _ ha ↦ ha, fun j' hj' ↦ by
        rw [hunjudged] at hj'
        cases hj'⟩
    have hputs : Puts (judgeTxn token j.key item
        ⟨formatRfc3339 (t / 1000), j.result, j.observed⟩) j.key
        { item.value with judgement := some ⟨formatRfc3339 (t / 1000), j.result, j.observed⟩ } [] :=
      puts_only
    have hguar : Guar (some token) (some token) s₃ (s₃.commit _ []) :=
      guar_over hputs hi hgrown
        (fun _ j' hj' ↦ Option.some.inj hj' ▸
          judges_due hk.start hinp hk₃.since hdue hi hwas hclock)
        fun hw ↦ tells_nothing hw fun _ ↦ by simp [judgeTxn, Records.Op.key]
    have hknows := hk₃.onward hguar.toOnward fun _ _ _ hi' ↦ was_over hputs hi hi'
    exact ⟨hguar, fun s' hs' ↦ hknows.rely hs',
      fun s' hs' ↦ does_pure fun s'' hs'' ↦ (hknows.rely hs').rely hs''⟩
  · split
    · exact does_throw herr
    · exact does_throw herr

theorem mayWrite_does {hit : Bool} (herr : ∀ s, Rely (some token) w s → E s)
    (h : ∀ b s, Rely (some token) w s → Does (some token) Q E (f b) s) :
    Does (some token) Q E (mayWrite cfg hit >>= f) w :=
  does_bind (does_look herr fun _ _ hs _ _ ↦ does_pure fun s' hs' ↦ h _ s' (hs.trans hs'))

theorem judgeAll_does {inp : Inputs} (hcfg : cfg.token = token)
    (hinp : inp.assembled.intents = listed w₀.store) (hnow : inp.nowMs = now) {js : List Judge}
    (hjs : ∀ j ∈ js, j ∈ (select inp).judged) (leg : Leg Judged) (hk : Knows token w₀ now [] w) :
    Does (some token) (fun _ s ↦ Knows token w₀ now [] s) (Knows token w₀ now [])
      (judgeAll cfg leg js) w := by
  induction js generalizing leg w with
  | nil => exact does_pure fun s hs ↦ hk.rely hs
  | cons j js ih =>
    have hrest := fun j' hj' ↦ hjs j' (List.mem_cons_of_mem j hj')
    rw [judgeAll]
    by_cases hskip : (cfg.halted || isShadowed cfg.shadow (kindOf j.section_)) = true
    · rw [if_pos hskip]
      exact ih hrest leg hk
    · rw [if_neg hskip]
      refine mayWrite_does (fun s hs ↦ hk.rely hs) fun b s hs ↦ ?_
      split
      · exact ih hrest _ (hk.rely hs)
      · rw [hcfg]
        exact does_tried (fun s s' hs hs' ↦ hs.rely hs')
          ((intentJudge_does (hk.rely hs) hinp hnow (hjs j List.mem_cons_self)).imp
            (fun _ s hs s' hs' ↦ hs.rely hs') fun _ h ↦ h)
          fun r s hs ↦ ih hrest _ hs

theorem putStep_does (hcfg : cfg.token = token) (hk : Knows token w₀ now done w)
    (hp : Free w₀ now p) (hdone : ∀ q ∈ done, q.intent.target ≠ p.intent.target) :
    Does (some token) (fun _ s ↦ Knows token w₀ now (done ++ [p]) s)
      (Knows token w₀ now (done ++ [p])) (putStep kinds cfg p) w := by
  unfold putStep
  rw [hcfg]
  refine does_tried (fun s s' hs hs' ↦ hs.rely hs')
    ((intentPut_does hk hp hdone).imp (fun _ s hs s' hs' ↦ hs.rely hs') fun _ h ↦ h) fun r s hs ↦ ?_
  cases r with
  | error e => exact does_pure fun s' hs' ↦ hs.rely hs'
  | ok u =>
    refine does_tried (fun s s' hs hs' ↦ hs.rely hs')
      ((readIntent_does hs.kept fun s' hs' ↦ hs.rely hs').imp
        (fun _ s₁ hs₁ s' hs' ↦ (hs.rely hs₁.2.1).rely hs') fun _ h ↦ h) fun r s hs ↦ ?_
    cases r with
    | error e => exact does_pure fun s' hs' ↦ hs.rely hs'
    | ok i =>
      dsimp only
      split
      · exact does_pure fun s' hs' ↦ hs.rely hs'
      · exact does_pure fun s' hs' ↦ hs.rely hs'

theorem stepAll_does (hcfg : cfg.token = token) {ps : List Planned}
    (hps : ∀ p ∈ ps, Free w₀ now p)
    (hapart : (done ++ ps).Pairwise fun p q ↦ p.intent.target ≠ q.intent.target) (leg : Leg Step)
    (hk : Knows token w₀ now done w) :
    Does (some token) (fun _ _ ↦ True) (fun _ ↦ True) (stepAll kinds cfg leg ps) w := by
  induction ps generalizing done leg w with
  | nil => exact does_pure fun _ _ ↦ trivial
  | cons p ps ih =>
    have hrest := fun q hq ↦ hps q (List.mem_cons_of_mem p hq)
    rw [stepAll]
    refine mayWrite_does (fun _ _ ↦ trivial) fun b s hs ↦ ?_
    split
    · refine ih hrest (hapart.sublist ?_) _ (hk.rely hs)
      exact (List.sublist_cons_self p ps).append_left done
    · have hdone (q : Planned) (hq : q ∈ done) : q.intent.target ≠ p.intent.target :=
        (List.pairwise_append.mp hapart).2.2 q hq p List.mem_cons_self
      rw [List.append_cons] at hapart
      exact does_bind ((putStep_does hcfg (hk.rely hs) (hps p List.mem_cons_self) hdone).imp
        (fun r s hs ↦ ih hrest hapart _ hs) fun _ _ ↦ trivial)

/-- What the judgements leave to a pass: it has its snapshot, and the steps planned from it. -/
def Ready (token : ℕ) (ps : List Planned) (w : World) : Prop :=
  ∃ w₀ now, Knows token w₀ now [] w ∧ (∀ p ∈ ps, Free w₀ now p) ∧
    ps.Pairwise fun p q ↦ p.intent.target ≠ q.intent.target

theorem judgeLeg_does (hcfg : cfg.token = token) (hw : Kept w) (hvalid : token ≤ w.store.head) :
    Does (some token) (fun r s ↦ Ready token r.2 s) (fun _ ↦ True) (judgeLeg cfg rank) w := by
  refine does_look (fun _ _ ↦ trivial) fun s snap hs _ ha ↦
    does_look (fun _ _ ↦ trivial) fun s₁ now hs₁ _ hnow ↦ ?_
  obtain rfl := Except.ok.inj hnow
  have hsnap : snap = snapshotOf s := by
    by_cases hup : (s.up && s.heard) = true
    · rw [if_pos hup] at ha
      exact (Except.ok.inj ha).symm
    · rw [if_neg hup] at ha
      cases ha
  subst hsnap
  have hk : Knows token s s₁.nowMs [] s₁ := by
    refine ⟨hs.kept hw, hs₁.toOnward, hvalid.trans hs.store.head, Nat.le_refl _,
      fun hlock key i hi ↦ .inl ?_⟩
    exact hs₁.fenced token rfl (hvalid.trans hs.store.head) hlock key i hi
  have hfree := @select_free s₁.nowMs s
    (inputsOf cfg rank (assemble (snapshotOf s) s₁.nowMs) s₁.nowMs) hk.start rfl rfl
  refine does_bind ((judgeAll_does hcfg rfl rfl (fun j hj ↦ hj) {} hk).imp
    (fun leg s₂ hs₂ ↦ ?_) fun _ _ ↦ trivial)
  exact does_pure fun s' hs' ↦ ⟨s, s₁.nowMs, hs₂.rely hs', hfree.1, hfree.2⟩

theorem recordLeg_does {record : PassRecord} :
    Does (some token) (fun _ _ ↦ True) (fun _ ↦ True) (recordLeg token record) w := by
  refine does_holdsLock (fun _ _ ↦ trivial) fun _ s hs _ ↦ does_guard (fun _ _ ↦ trivial) fun _ ↦
    does_transact (fun _ _ ↦ trivial) (fun s' hs' htakes ↦ ?_) fun _ _ _ ↦
    does_throw fun _ _ ↦ trivial
  exact ⟨(quiet_pass _ record).guar, fun _ _ ↦ trivial, fun _ _ ↦ does_pure fun _ _ ↦ trivial⟩

theorem lockRelease_does :
    Does (some token) (fun _ _ ↦ True) (fun _ ↦ True) (lockRelease token) w := by
  refine does_transact (fun _ _ ↦ trivial) (fun s' hs' htakes ↦ ?_) fun _ _ _ ↦
    does_throw fun _ _ ↦ trivial
  exact ⟨(quiet_delete _ rfl).guar, fun _ _ ↦ trivial, fun _ _ ↦ does_pure fun _ _ ↦ trivial⟩

theorem underLock_does (hcfg : cfg.token = token) (hw : Kept w) (hvalid : token ≤ w.store.head) :
    Does (some token) (fun _ _ ↦ True) (fun _ ↦ True) (underLock kinds rank cfg) w := by
  refine does_bind ((judgeLeg_does hcfg hw hvalid).imp (fun judged s hs ↦ ?_) fun _ h ↦ h)
  obtain ⟨w₀, now, hk, hfree, hapart⟩ := hs
  replace hapart : ([] ++ judged.2).Pairwise
      fun p q : Planned ↦ p.intent.target ≠ q.intent.target := hapart
  refine does_bind ((stepAll_does hcfg hfree hapart {} hk).imp (fun leg s _ ↦ ?_) fun _ h ↦ h)
  refine does_look (fun _ _ ↦ trivial) fun s t hs _ _ ↦ ?_
  rw [hcfg]
  split
  · exact does_tried (fun _ _ _ _ ↦ trivial)
      (recordLeg_does.imp (fun _ _ _ _ _ ↦ trivial) fun _ h ↦ h)
      fun _ _ _ ↦ does_pure fun _ _ ↦ trivial
  · exact does_pure fun _ _ ↦ trivial

/-- The lock's token is new. -/
theorem lockAcquire_owns (hw : Kept w) : lockAcquire.Owns Rely Guar
    (fun a o s ↦ o = some a ∧ Kept s ∧ a ≤ s.store.head) (fun _ _ _ ↦ True) none w := by
  refine Verb.owns_bind Rely.refl (Verb.owns_atom fun s hs _ ↦ ?_)
  have hquiet := quiet_lock [.createRev .lock none]
  by_cases hmakes :
      (s.up && (⟨[.createRev .lock none], [.put .lock ()]⟩ : Txn).takes s.store) = true
  · rw [if_pos hmakes]
    refine ⟨some (s.store.head + 1), guar_lock hquiet, fun s' hs' ↦
      ⟨fun a ha ↦ ?_, fun _ _ _ _ ↦ trivial⟩⟩
    by_cases hheard : (s.up && s.heard) = true
    · rw [if_pos hheard, if_pos (Bool.and_eq_true_iff.mp hmakes).2] at ha
      obtain rfl := Except.ok.inj ha
      have hs₁ : Kept s' := hs'.kept ((hquiet.onward s).kept (hs.kept hw))
      exact Verb.owns_pure fun s'' hs'' ↦ ⟨rfl, hs''.kept hs₁,
        (hs'.store.head : s.store.head + 1 ≤ _).trans hs''.store.head⟩
    · rw [if_neg hheard] at ha
      cases ha
  · rw [if_neg hmakes]
    refine ⟨none, .refl none s, fun s' hs' ↦ ⟨fun a ha ↦ ?_, fun _ _ _ _ ↦ trivial⟩⟩
    by_cases hheard : (s.up && s.heard) = true
    · have htakes : ¬ (⟨[.createRev .lock none], [.put .lock ()]⟩ : Txn).takes s.store = true :=
        fun htakes ↦ hmakes (Bool.and_eq_true_iff.mpr ⟨(Bool.and_eq_true_iff.mp hheard).1, htakes⟩)
      rw [if_pos hheard, if_neg htakes] at ha
      obtain rfl := Except.ok.inj ha
      exact Verb.owns_throw fun _ _ ↦ trivial
    · rw [if_neg hheard] at ha
      cases ha

/-- A program that keeps its token keeps the world. -/
theorem Does.owns {own : Option ℕ} {v : Program α} (h : Does own Q E v w) :
    v.Owns Rely Guar (fun _ _ _ ↦ True) (fun _ _ _ ↦ True) own w :=
  Verb.Owns.imp h (fun _ _ _ _ ↦ trivial) fun _ _ _ _ ↦ trivial

theorem pass_owns {cfg : PassConfig} (hw : Kept w) : (pass kinds rank cfg).Owns Rely Guar
    (fun _ _ _ ↦ True) (fun _ _ _ ↦ True) none w := by
  refine Verb.owns_bind Rely.refl (Verb.owns_look Guar.refl fun s hs s' hs' ↦
    ⟨fun started _ ↦ ?_, fun _ _ _ _ ↦ trivial⟩)
  have hs' : Kept s' := hs'.kept (hs.kept hw)
  refine Verb.owns_bind Rely.refl (Verb.owns_tried Rely.refl
    (Verb.Owns.imp (lockAcquire_owns hs') (fun token o s₁ h s₂ hs₂ ↦ ?_) fun e o s₁ _ s₂ _ ↦ ?_))
  · obtain ⟨rfl, hkept, hvalid⟩ := h
    have hunder : Does (some token) (fun _ _ ↦ True) (fun _ ↦ True) (underLock kinds rank
        ⟨token, cfg.holder, cfg.shadow, cfg.halted, started + cfg.timeoutSecs * 1000⟩) s₂ :=
      underLock_does rfl (hs₂.kept hkept) (hvalid.trans hs₂.store.head)
    refine Does.owns (Q := fun _ _ ↦ True) (E := fun _ ↦ True) (does_tried (fun _ _ _ _ ↦ trivial)
      (hunder.imp (fun _ _ _ _ _ ↦ trivial) fun _ h ↦ h) fun result s₃ _ ↦
      does_tried (fun _ _ _ _ ↦ trivial)
        (lockRelease_does.imp (fun _ _ _ _ _ ↦ trivial) fun _ h ↦ h) fun released s₄ _ ↦ ?_)
    cases result with
    | error e => exact does_throw fun _ _ ↦ trivial
    | ok r =>
      dsimp only
      split
      · exact does_throw fun _ _ ↦ trivial
      · exact does_pure fun _ _ ↦ trivial
  · cases e with
    | refused field code =>
      dsimp only
      split
      · exact Verb.owns_pure fun _ _ ↦ trivial
      · exact Verb.owns_throw fun _ _ ↦ trivial
    | store | missing | unfinished recorded released => exact Verb.owns_throw fun _ _ ↦ trivial

end Pass

end Spira.Goodput
