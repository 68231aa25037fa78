import Spira.Control.Parts

/-!
# A full round fits one transaction

A cascade writes up to three keys for each member that it steps, the record, the gate and the
delivery, and up to two of the round; it audits the members and the round.  Each slot is written
once and each id has one history entry, however often it is stepped, so what a round of
`maxCutMembers` members takes is within the limits of one transaction, the request and the audit
that the contract adds included (`cascade_fits`).
-/

set_option autoImplicit false

namespace Spira.Control

open Spira.Bead Spira.Batch Spira.Delivery Store Store.Contract Stopping Cascade
open KeyPrefix (starts)

/-! ## What a plan may write -/

/-- The keys that a command of the scope may write. -/
def Scope.written (s : Scope) : List String :=
  s.keys ++ s.members.flatMap fun id ↦ [Keys.lifecycle id, Keys.gate id, Keys.delivery id]

/-- The cascade is within the scope: it writes and audits nothing else. -/
structure Within (r : Reads) (s : Scope) (c : Cascade) : Prop where
  sound : Sound r.view c
  written : ∀ key, c.Writes key → key ∈ s.written
  audited : ∀ a ∈ c.then_ ++ c.els, a.lcKey ∈ s.members ++ s.round

section Within

variable {r : Reads} {s : Scope} {c c' : Cascade} {key : String} {a : Audit}

theorem mem_written_of_puts (h : s.Puts key) : key ∈ s.written := by
  obtain hk | ⟨id, hid, hk⟩ := h
  · exact List.mem_append_left _ hk
  · refine List.mem_append_right _ (List.mem_flatMap.mpr ⟨id, hid, ?_⟩)
    obtain rfl | rfl := hk <;> simp

theorem within_empty : Within r s {} :=
  ⟨sound_empty _, fun _ h ↦ absurd h not_writes_empty, by simp⟩

theorem Within.frame {keys : List String} (h : Within r s c) (hf : Frame r.view keys c c')
    (hkeys : ∀ k ∈ keys, k ∈ s.written) (ha : c'.then_ = c.then_ ∧ c'.els = c.els) :
    Within r s c' where
  sound := hf.sound
  written k hw := by
    by_cases hk : k ∈ keys
    · exact hkeys k hk
    · exact h.written k (hf.writes k hk hw)
  audited a hmem := by
    rw [ha.1, ha.2] at hmem
    exact h.audited a hmem

theorem Within.audits {then_ els : List Audit} {steps : ℕ} (h : Within r s c)
    (ha : ∀ a ∈ then_ ++ els, a.lcKey ∈ s.members ++ s.round) :
    Within r s { c with then_ := then_, els := els, steps := steps } :=
  ⟨(h.sound.leaves.audits then_ els steps).sound, h.written, ha⟩

theorem Within.step (h : Within r s c) (ha : a.lcKey ∈ s.members ++ s.round) :
    Ends (Cascade.step a) c fun _ c' ↦ Within r s c' := by
  refine ends_modify (h.audits fun b hb ↦ ?_)
  simp only [List.mem_append, List.mem_singleton] at hb
  obtain (hb | rfl) | hb | rfl := hb
  · exact h.audited b (List.mem_append_left _ hb)
  · exact ha
  · exact h.audited b (List.mem_append_right _ hb)
  · exact ha

theorem Within.note (h : Within r s c) (ha : a.lcKey ∈ s.members ++ s.round) :
    Ends (Cascade.note a) c fun _ c' ↦ Within r s c' := by
  refine ends_modify (h.audits fun b hb ↦ ?_)
  simp only [List.mem_append, List.mem_singleton] at hb
  obtain (hb | rfl) | hb := hb
  · exact h.audited b (List.mem_append_left _ hb)
  · exact ha
  · exact h.audited b (List.mem_append_right _ hb)

theorem Within.put {T : Type} [Stored T] {v : T} {owners : List String} (h : Within r s c)
    (hkey : key ∈ s.written) :
    Ends (Cascade.put r.view key v owners) c fun _ c' ↦ Within r s c' :=
  ((put_put h.sound).and put_audits).imp fun _ _ ⟨hp, ha⟩ ↦
    h.frame hp.frame (by simpa using hkey) ha

/-- **A command stays within its scope.** -/
theorem within_keep : Keeps r s (Within r s) (fun _ ↦ Within r s) where
  get h := ((get_looks h.sound).and get_audits).imp fun _ _ ⟨⟨hl, _⟩, ha⟩ ↦
    h.frame (hl.frame : Frame r.view [] _ _) (by simp) ha
  put hkey h := h.put (mem_written_of_puts hkey)
  step _ ha h := h.step ha
  named h := by
    refine ends_modify (h.audits fun a hmem ↦ ?_)
    rw [← List.map_append] at hmem
    obtain ⟨b, hb, rfl⟩ := List.mem_map.mp hmem
    split <;> exact h.audited b hb
  pending := id
  noteDelivery ha h := h.note (List.mem_append_left _ ha)
  stepDelivery ha h := h.step (List.mem_append_left _ ha)
  putDelivery hid h := h.put
    (List.mem_append_right _ (List.mem_flatMap.mpr ⟨_, hid, by simp⟩))

end Within

/-! ## The sizes -/

section Sizes

variable {r : Reads} {s : Scope} {c : Cascade}

theorem length_written : s.written.length = s.keys.length + s.members.length * 3 := by
  rw [Scope.written, List.length_append, List.length_flatMap]
  simp

/-- The written slots have keys of their own. -/
theorem Within.nodup_written (h : Within r s c) :
    ((c.slots.filter (·.dirty)).map (·.key)).Nodup :=
  h.sound.nodup.sublist (List.filter_sublist.map _)

theorem Within.length_written (h : Within r s c) :
    (c.slots.filter (·.dirty)).length ≤ s.keys.length + s.members.length * 3 := by
  rw [← Control.length_written, ← List.length_map (f := (·.key))]
  refine (List.subperm_of_subset h.nodup_written fun key hkey ↦ ?_).length_le
  obtain ⟨slot, hslot, rfl⟩ := List.mem_map.mp hkey
  obtain ⟨hmem, hd⟩ := List.mem_filter.mp hslot
  exact h.written _ ⟨slot, hmem, rfl, hd⟩

/-- Each written slot is put once. -/
theorem txn_keys {view : View} (h : Sound view c) :
    c.txn.ops.map Op.key = (c.slots.filter (·.dirty)).map (·.key) := by
  rw [Cascade.txn, List.map_filterMap, ← List.filterMap_eq_map]
  refine List.filterMap_congr fun s hs ↦ ?_
  obtain ⟨hmem, hd⟩ := List.mem_filter.mp hs
  obtain ⟨v, hv⟩ := Option.isSome_iff_exists.mp (h.written s hmem hd)
  rw [hv]
  rfl

theorem nodup_auditedIds (audits : List Audit) : (auditedIds audits).Nodup :=
  (List.perm_insertionSort _ _).nodup_iff.mpr (List.nodup_dedup _)

theorem mem_auditedIds {audits : List Audit} {id : String} :
    id ∈ auditedIds audits ↔ ∃ a ∈ audits, a.lcKey = id := by
  rw [auditedIds, (List.perm_insertionSort _ _).mem_iff, List.mem_dedup, List.mem_map]

/-- However often a member is stepped, it has one history entry. -/
theorem length_auditedIds {audits : List Audit} {ids : List String}
    (h : ∀ a ∈ audits, a.lcKey ∈ ids) : (auditedIds audits).length ≤ ids.length := by
  refine (List.subperm_of_subset (nodup_auditedIds audits) fun id hid ↦ ?_).length_le
  obtain ⟨a, ha, rfl⟩ := mem_auditedIds.mp hid
  exact h a ha

end Sizes

/-! ## What fits -/

/-- The store refuses the call neither for its size in operations or compares nor for a key put
twice, whatever records the contract keeps of it. -/
def Fits : Call Value → Prop
  | .txn t _ => ∀ record : Record, checkLimits t record.bookkeeping = .ok ()
  | _ => False

section Fits

variable {r : Reads} {s : Scope} {c : Cascade} {req : Request Value} {part : String} {plannedAt : ℕ}

theorem bookkeeping_le (record : Record) : record.bookkeeping ≤ 2 := by
  have h (b : Bool) : b.toNat ≤ 1 := by cases b <;> decide
  have hi := h record.idempotent
  have ha := h record.audited
  rw [Record.bookkeeping]
  omega

theorem fits_of {t : TxnOps Value} {req : Request Value} (hops : t.ops.length + 2 ≤ maxTxnOps)
    (helse : t.elseOps.length + 2 ≤ maxTxnOps) (hcompares : t.compares.length ≤ maxTxnCompares)
    (hkeys : (t.ops.map Op.key).Nodup) (hkeys' : (t.elseOps.map Op.key).Nodup) :
    Fits (.txn t req) := by
  intro record
  have hbook := bookkeeping_le record
  have hmax : ¬ max t.ops.length t.elseOps.length + record.bookkeeping > maxTxnOps := by
    have hle : max t.ops.length t.elseOps.length ≤ maxTxnOps - 2 := max_le (by omega) (by omega)
    omega
  rw [checkLimits, if_neg hmax, if_neg (by omega)]
  rw [firstDuplicate_of_nodup hkeys (by simp), firstDuplicate_of_nodup hkeys' (by simp)]
  rfl

theorem historyEntry_injective (plannedAt : ℕ) (request : String) :
    Function.Injective fun id ↦ Keys.historyEntry id plannedAt request := by
  intro id id' h
  have hlist := congrArg String.toList h
  exact String.toList_inj.mp (by simpa [Keys.historyEntry, Keys.history] using hlist)

/-- The entries of the ids audited are of keys of their own, apart from what else is written. -/
theorem nodup_keys {ops : List (Op Value)} {audits : List Audit} {request : String}
    (hops : (ops.map Op.key).Nodup) (hapart : ∀ o ∈ ops, starts Keys.historyPrefix o.key = false) :
    ((ops ++ (auditedIds audits).map fun id ↦
      Op.put (Keys.historyEntry id plannedAt request) { data := .payload Value.history }).map
        Op.key).Nodup := by
  rw [List.map_append, List.map_map]
  refine List.nodup_append.mpr ⟨hops, ?_, ?_⟩
  · exact (nodup_auditedIds audits).map (historyEntry_injective plannedAt request)
  · intro key hkey key' hkey' heq
    obtain ⟨o, ho, rfl⟩ := List.mem_map.mp hkey
    obtain ⟨id, -, rfl⟩ := List.mem_map.mp hkey'
    have hno := hapart o ho
    rw [heq] at hno
    exact Bool.false_ne_true (hno.symm.trans (Keys.starts_historyEntry id plannedAt request))

/-- No key of a scope is of the history. -/
theorem written_apart {command : Command} {key : String} (h : key ∈ (command.scope r).written) :
    starts Keys.historyPrefix key = false := by
  have hround {id : String} (hk : key ∈ (roundKey r id).toList) :
      starts Keys.historyPrefix key = false := by
    obtain ⟨ix, -, rfl⟩ := Option.map_eq_some_iff.mp (Option.mem_toList.mp hk)
    exact (apart_batches (Keys.starts_batch _ _)).2
  have hnew {repo id : String} (hk : key ∈ [Keys.batch repo id, Keys.batchIndex id]) :
      starts Keys.historyPrefix key = false := by
    simp only [List.mem_cons, List.not_mem_nil, or_false] at hk
    obtain rfl | rfl := hk
    · exact (apart_batches (Keys.starts_batch _ _)).2
    · exact apart_batchIndex.2
  obtain hk | hk := List.mem_append.mp h
  · cases command with
    | cut | stage => exact hnew hk
    | stack | promote | settle | abandon | eject | land => exact hround hk
    | batchEvent id ev at_ =>
      obtain hk | hk := List.mem_append.mp hk
      · exact hround hk
      · split at hk
        · rw [List.mem_singleton.mp hk]
          exact KeyPrefix.not_starts (Keys.starts_mending _) (by decide) (by decide)
        · cases hk
    | deliveryEvent => cases hk
  · obtain ⟨id, -, hk⟩ := List.mem_flatMap.mp hk
    simp only [List.mem_cons, List.not_mem_nil, or_false] at hk
    obtain rfl | rfl | rfl := hk
    · exact apart_lifecycle.2
    · exact apart_gate.2
    · exact apart_delivery.2

/-- **A cascade within a scope of `maxCutMembers` members fits**, with its audits. -/
theorem Within.fits {command : Command} (h : Within r (command.scope r) c)
    (hmembers : (command.scope r).members.length ≤ maxCutMembers)
    (hkeys : (command.scope r).keys.length ≤ 2) (hround : (command.scope r).round.length ≤ 1) :
    Fits (auditedTxn c.txn c.then_ c.els req part plannedAt) := by
  have hdirty := h.length_written
  have hids {audits : List Audit} (ha : ∀ a ∈ audits, a ∈ c.then_ ++ c.els) :
      (auditedIds audits).length ≤ (command.scope r).members.length + 1 := by
    have hle := length_auditedIds fun a hmem ↦ h.audited a (ha a hmem)
    rw [List.length_append] at hle
    omega
  have hthen := hids fun a ↦ List.mem_append_left c.els
  have hels := hids fun a ↦ List.mem_append_right c.then_
  have hlength : c.txn.ops.length = (c.slots.filter (·.dirty)).length := by
    rw [← List.length_map (f := Op.key), txn_keys h.sound, List.length_map]
  have hcompares : c.txn.compares.length = (c.slots.filter (·.dirty)).length := List.length_map ..
  have hapart : ∀ o ∈ c.txn.ops, starts Keys.historyPrefix o.key = false := fun o ho ↦ by
    have hmem := List.mem_map_of_mem (f := Op.key) ho
    rw [txn_keys h.sound] at hmem
    obtain ⟨slot, hslot, hkey⟩ := List.mem_map.mp hmem
    obtain ⟨hmem, hd⟩ := List.mem_filter.mp hslot
    exact written_apart (h.written _ ⟨slot, hmem, hkey, hd⟩)
  rw [maxCutMembers] at hmembers
  refine fits_of ?_ ?_ ?_ (nodup_keys ?_ hapart) (@nodup_keys _ [] _ _ List.nodup_nil (by simp))
  · rw [List.length_append, List.length_map, hlength, maxTxnOps]
    omega
  · show (([] : List (Op Value)) ++ _).length + 2 ≤ maxTxnOps
    rw [List.nil_append, List.length_map, maxTxnOps]
    omega
  · show c.txn.compares.length ≤ maxTxnCompares
    rw [hcompares, maxTxnCompares]
    omega
  · rw [txn_keys h.sound]
    exact h.nodup_written

end Fits

/-! ## Every cascade of a full round -/

/-- The stored round that a cascade is over. -/
def Command.overRound (r : Reads) : Command → Option BatchRecord
  | .stack id .. | .promote id .. | .settle id .. | .abandon id .. | .eject id .. => foundRound r id
  | .land id .. => lookedRound r id
  | .cut _ | .stage _ | .batchEvent .. | .deliveryEvent .. => none

section Full

variable {r : Reads}

theorem length_toList_map {α β : Type} (o : Option α) (f : α → β) : (o.toList.map f).length ≤ 1 := by
  cases o <;> simp

theorem scope_keys (command : Command) : (command.scope r).keys.length ≤ 2 := by
  have hround (id : String) : (roundKey r id).toList.length ≤ 1 := by
    cases roundKey r id <;> simp
  cases command with
  | cut | stage => exact le_refl 2
  | stack id | promote id | settle id | abandon id | eject id | land id =>
    exact (hround id).trans (by omega)
  | batchEvent id ev at_ =>
    have h := hround id
    rw [Command.scope, List.length_append]
    split <;> simp only [List.length_singleton, List.length_nil] <;> omega
  | deliveryEvent => exact Nat.zero_le 2

theorem scope_round (command : Command) : (command.scope r).round.length ≤ 1 := by
  cases command with
  | cut | stage => exact le_refl 1
  | stack | promote | settle | abandon | eject | land | batchEvent => exact length_toList_map _ _
  | deliveryEvent => exact Nat.zero_le 1

/-- A round that was not refused is within the cap. -/
theorem overCap_ends {verb : String} {n : ℕ} {c : Cascade} :
    Ends (overCap verb n) c fun _ _ ↦ n ≤ maxCutMembers :=
  ends_ite (fun _ ↦ ends_throw) fun h ↦ ends_pure (Nat.le_of_not_lt h)

/-- A cut over the cap is refused before anything is read. -/
theorem planCut_overCap {cut : Cut} (h : cut.members.length > maxCutMembers) :
    ∃ text, (planCut r cut).run {} = .error (.turned (.refused text)) := by
  rw [planCut, overCap, if_pos h]
  exact ⟨_, rfl⟩

theorem ends_const {α : Type} {x : Plan α} {p : Prop} {c : Cascade} (h : p) :
    Ends x c fun _ _ ↦ p := fun _ _ _ ↦ h

/-- A command that is planned steps no more members than a round may hold. -/
theorem scope_members (command : Command)
    (h : ∀ rec, command.overRound r = some rec → rec.members.length ≤ maxCutMembers) :
    Ends (command.plan r) {} fun _ _ ↦ (command.scope r).members.length ≤ maxCutMembers := by
  have hbeads {rec : Option BatchRecord}
      (h : ∀ b, rec = some b → b.members.length ≤ maxCutMembers) :
      (beadsOfRound rec).length ≤ maxCutMembers := by
    cases rec with
    | none => exact Nat.zero_le _
    | some b => exact (List.length_map (f := (·.beadId)) ..).trans_le (h b rfl)
  cases command with
  | cut cut =>
    refine ends_bind (overCap_ends.imp fun _ _ hn ↦ ends_const ?_)
    exact (List.length_map (f := Prod.fst) ..).trans_le hn
  | stage cut =>
    refine ends_bind (overCap_ends.imp fun _ _ hn ↦ ends_const ?_)
    exact (List.length_map (f := Prod.fst) ..).trans_le hn
  | stack id members actor at_ =>
    refine ends_bind (Ends.imp (ends_const trivial) fun a _ _ ↦ ?_)
    obtain _ | ⟨key, rec⟩ := a
    · exact ends_throw
    refine ends_ite (fun _ ↦ ends_throw) fun _ ↦ ?_
    split
    · exact ends_throw
    refine ends_bind (overCap_ends.imp fun _ _ hn ↦ ends_const ?_)
    show (members.map Prod.fst).length ≤ maxCutMembers
    rw [List.length_map]
    omega
  | promote | settle | abandon | eject | land => exact ends_const (hbeads h)
  | batchEvent => exact ends_const (Nat.zero_le _)
  | deliveryEvent => exact ends_const (show 1 ≤ maxCutMembers by decide)

/-- **Every cascade over a round of at most `maxCutMembers` members fits one transaction**, whatever
its records are: the call that a command ends in, its cascade's or its refusal's audit. -/
theorem cascade_fits {i : Issue} {call : Call Value} (hcall : i.call = some call)
    (hround : ∀ rec, i.command.overRound i.reads = some rec → rec.members.length ≤ maxCutMembers) :
    Fits call := by
  rw [Issue.call] at hcall
  split at hcall
  · rename_i c hcascade
    obtain rfl := Option.some.inj hcall
    obtain ⟨c₀, h₀, hf, hthen, hels⟩ :=
      Issue.cascade_keeps hcascade within_keep within_empty fun _ h ↦ h.sound
    have h : Within i.reads (i.command.scope i.reads) c :=
      ⟨hf.sound, fun key hw ↦ h₀.written key (hf.writes ▸ hw), hthen ▸ hels ▸ h₀.audited⟩
    refine h.fits ?_ (scope_keys _) (scope_round _)
    rw [Issue.cascade] at hcascade
    cases hp : (i.command.plan i.reads).run {} with
    | error e =>
      rw [hp] at hcascade
      cases hcascade
    | ok p => exact scope_members i.command hround p.1 p.2 hp
  · rename_i audit hrefused
    obtain rfl := Option.some.inj hcall
    have hone : (auditedIds [audit]).length = 1 := rfl
    refine fits_of ?_ ?_ (Nat.zero_le _) (@nodup_keys _ [] _ _ List.nodup_nil (by simp))
      (@nodup_keys _ [] _ _ List.nodup_nil (by simp))
    · show (([] : List (Op Value)) ++ _).length + 2 ≤ maxTxnOps
      rw [List.nil_append, List.length_map, hone]
      decide
    · show (([] : List (Op Value)) ++ _).length + 2 ≤ maxTxnOps
      rw [List.nil_append, List.length_map]
      exact (by decide : (auditedIds []).length + 2 ≤ maxTxnOps)
  · cases hcall

end Full

end Spira.Control
