import Spira.Control.Readiness
import Spira.Lib.Interleave
import Spira.Lib.Records
import Spira.StateStore.Verbs

/-!
# The publishers of a readiness

Each publisher reads the record, merges its update into it and writes it where it still is what
was read, and reads it again where it is not.  Between any two accesses of one the others may do
anything, and any access may fail; a transaction is one step.

The world remembers what was told of the writes, in their order.  So what is kept of a bead is its
updates made one after the other (`Kept.made`), whoever wrote them, and none of those that a
publisher was answered for is missing (`publishers_lose_nothing`).
-/

set_option autoImplicit false

namespace Spira.Control.Publishers

open Store.Contract (chunks)

/-! ## The world -/

inductive Key
  | lifecycle (id : String)
  | readiness (id : String)
  deriving DecidableEq

/-- What is kept under the key of a readiness, with its owners; there is no record where the data
does not decode. -/
structure Published where
  owners : List String
  record : Option Readiness
  deriving DecidableEq

/-- A publisher only asks of a lifecycle record whether there is one. -/
@[reducible] def Key.Val : Key → Type
  | lifecycle _ => Unit
  | readiness _ => Published

abbrev Store := Records.Store Key Key.Val

abbrev Txn := Records.Txn Key Key.Val

/-- What is told of a publisher's write. -/
inductive Told
  /-- The update is in the record: it was written, or the record was so already. -/
  | put (req id : String) (head : ℕ) (u : Update)
  /-- There is no bead to publish it of. -/
  | absent (req id : String) (u : Update)
  deriving DecidableEq

structure World where
  store : Store
  /-- Whether the store can be reached. -/
  up : Bool
  told : List Told

abbrev Program (α : Type) := Verb World String α

/-- What happens around the publishers: the store fails and comes back, and other writers write. -/
inductive Env
  | reach (up : Bool)
  | other (t : Txn)

/-- No other writer writes a readiness. -/
def spares (t : Txn) : Bool :=
  t.ops.all fun o ↦ match o.key with
    | .readiness _ => false
    | .lifecycle _ => true

def env : Env → World → World
  | .reach up, w => { w with up := up }
  | .other t, w => if spares t then { w with store := t.run w.store } else w

/-! ## Accesses -/

def unreachable : String := "the store cannot be reached"

/-- What the store holds at its head; with it `told` what is told of that. -/
def snapshot (told : Store → List Told) : Program Store :=
  Verb.atom (fun _ ↦ true)
    (fun w ↦ if w.up then { w with told := w.told ++ told w.store } else w)
    fun w ↦ if w.up then .ok w.store else .error unreachable

/-- One transaction: its revision, where its compares hold.  None puts a key twice. -/
def commit (t : Txn) (puts : List Told) : Program (Option ℕ) :=
  Verb.atom (fun _ ↦ true)
    (fun w ↦
      if w.up ∧ (t.ops.map Records.Op.key).Nodup ∧ t.takes w.store then
        { w with store := w.store.commit t.ops, told := w.told ++ puts }
      else w)
    fun w ↦
      if !w.up then .error unreachable
      else if ¬ (t.ops.map Records.Op.key).Nodup then .error "a key is put twice"
      else .ok (if t.takes w.store then some (w.store.head + 1) else none)

def ofExcept {α : Type} (x : Except String α) : Program α :=
  match x with
  | .ok a => pure a
  | .error e => throw e

/-! ## Merges -/

/-- What a publisher found of a bead: its readiness, or a new one that the bead's record owns. -/
structure Found where
  record : Readiness
  owners : List String
  rev : Option ℕ

def prior (s : Store) (id : String) : Except String Found :=
  match s.items (.readiness id) with
  | none => .ok ⟨{}, [Keys.lifecycle id], none⟩
  | some i =>
    match i.value.record with
    | some r => .ok ⟨r, i.value.owners, some i.modRev⟩
    | none => .error (Keys.readiness id ++ ": undecodable record")

/-- There is a bead of the id. -/
def present (s : Store) (id : String) : Bool := (s.items (.lifecycle id)).isSome

/-- What was found of each bead of the chunk that there is. -/
def gather (s : Store) : List (String × Update) → Except String (List ((String × Update) × Found))
  | [] => .ok []
  | p :: chunk =>
    if !present s p.1 then gather s chunk
    else do
      let f ← prior s p.1
      let fs ← gather s chunk
      return (p, f) :: fs

/-- Each readiness compared at the revision it was read at, and put with its update merged in. -/
def mergeTxn (head : ℕ) (fs : List ((String × Update) × Found)) : Txn where
  compares := fs.map fun q ↦ .modRev (.readiness q.1.1) q.2.rev
  ops := fs.map fun q ↦
    .put (.readiness q.1.1) ⟨q.2.owners, some (q.1.2.apply head q.2.record)⟩

def putsOf (req : String) (s : Store) (chunk : List (String × Update)) : List Told :=
  (chunk.filter (present s ·.1)).map fun p ↦ .put req p.1 s.head p.2

def absentOf (req : String) (chunk : List (String × Update)) (s : Store) : List Told :=
  (chunk.filter (!present s ·.1)).map fun p ↦ .absent req p.1 p.2

/-- Ops a pass puts in one transaction: the contract adds two. -/
def passChunk : ℕ := Store.maxTxnOps - 2

/-- How often a read-merge-write is re-planned. -/
def mergeAttempts : ℕ := 5

def mergeChunk (req part : String) : ℕ → List (String × Update) → Program ℕ
  | 0, _ => throw ("readiness pass " ++ part ++ " lost " ++ toString mergeAttempts ++ " races in a row")
  | n + 1, chunk => do
    let s ← snapshot (absentOf req chunk)
    let fs ← ofExcept (gather s chunk)
    if fs.isEmpty then return s.head
    match ← commit (mergeTxn s.head fs) (putsOf req s chunk) with
    | some rev => return rev
    | none => mergeChunk req part n chunk

/-- The chunks one after the other, from the `n`-th on. -/
def mergeChunks (req part : String) : ℕ → List (List (String × Update)) → ℕ → Program ℕ
  | _, [], rev => return rev
  | n, chunk :: rest, _ => do
    let rev ← mergeChunk req (part ++ "/" ++ toString n) mergeAttempts chunk
    mergeChunks req part (n + 1) rest rev

/-- Merges each item into its record's readiness. -/
def mergeReadiness (req part : String) (items : List (String × Update)) : Program ℕ := do
  let s ← snapshot fun _ ↦ []
  mergeChunks req part 0 (chunks passChunk items) s.head

/-! ## Edges -/

/-- What is told of an edge that is not written: there is no bead, or the edge is so already. -/
def edgeTold (req id dep : String) (e : Edge) (s : Store) : List Told :=
  let u := Update.edge dep e
  if !present s id then [.absent req id u]
  else
    match prior s id with
    | .ok f =>
      if (u.apply s.head f.record).blockedBy = f.record.blockedBy ∧ f.rev.isSome then
        [.put req id s.head u]
      else []
    | .error _ => []

/-- `dep` added to the prerequisites of `id`, or taken from them; whether there is a bead. -/
def setEdge (req id dep : String) (e : Edge) : ℕ → Program Bool
  | 0 => throw (Keys.readiness id ++ ": an edge write lost " ++ toString mergeAttempts ++
      " races in a row")
  | n + 1 => do
    let s ← snapshot (edgeTold req id dep e)
    if !present s id then return false
    let f ← ofExcept (prior s id)
    let next := (Update.edge dep e).apply s.head f.record
    if next.blockedBy = f.record.blockedBy ∧ f.rev.isSome then return true
    match ← commit ⟨[.modRev (.readiness id) f.rev], [.put (.readiness id) ⟨f.owners, some next⟩]⟩
        [.put req id s.head (.edge dep e)] with
    | some _ => return true
    | none => setEdge req id dep e n

/-! ## The publishers -/

inductive Publisher
  /-- A readiness pass. -/
  | readiness (judged : List Judged) (pass : Pass)
  /-- A verdict pass. -/
  | verdicts (vs : List Verdict) (judgedAt : String)
  /-- The escalation of a record that stayed OPEN. -/
  | escalate (id : String)
  /-- `dep-add` and `dep-remove`. -/
  | edge (id dep : String) (e : Edge)

/-- What the publisher is to merge. -/
def Publisher.items : Publisher → List (String × Update)
  | .readiness judged pass => judged.map fun j ↦ (j.id, .judged pass j)
  | .verdicts vs judgedAt => vs.map fun v ↦ (v.id, .verdict judgedAt v)
  | .escalate id => [(id, .escalated)]
  | .edge id dep e => [(id, .edge dep e)]

/-- A publisher's call, under its request. -/
structure Call where
  req : String
  publisher : Publisher

inductive Answer
  | rev (rev : ℕ)
  /-- Whether there is a bead. -/
  | found (found : Bool)
  deriving DecidableEq

def Call.program (c : Call) : Program Answer :=
  match c.publisher with
  | .readiness .. => do return .rev (← mergeReadiness c.req "readiness" c.publisher.items)
  | .verdicts .. => do return .rev (← mergeReadiness c.req "verdicts" c.publisher.items)
  | .escalate id => do return .rev (← mergeReadiness c.req ("escalated/" ++ id) c.publisher.items)
  | .edge id dep e => do return .found (← setEdge c.req id dep e mergeAttempts)

/-- The publishers' calls, and what happens around them. -/
abbrev Turns := List (Turn Env Empty Call)

def run (start : World) (turns : Turns) : Pool World (Except String Answer) Call :=
  Pool.run env (fun d _ ↦ nomatch d) Call.program start turns

/-! ## What is kept of a bead -/

/-- The update that is put in the record of `id`. -/
def Told.update (id : String) : Told → Option (ℕ × Update)
  | .put _ id' head u => if id' = id then some (head, u) else none
  | .absent .. => none

/-- The updates that are in the record of `id`, in their order. -/
def updatesOf (told : List Told) (id : String) : List (ℕ × Update) := told.filterMap (Told.update id)

/-- What decodes of the readiness of `id`. -/
def recordAt (s : Store) (id : String) : Option Readiness :=
  (s.items (.readiness id)).bind (·.value.record)

theorem updatesOf_append (told told' : List Told) (id : String) :
    updatesOf (told ++ told') id = updatesOf told id ++ updatesOf told' id :=
  List.filterMap_append ..

/-- The record of each bead is what it was at the start with its updates made, and no update was
made of what does not decode. -/
structure Kept (start : String → Readiness) (w : World) : Prop where
  dated : w.store.Dated
  made : ∀ id r, recordAt w.store id = some r → r = made (start id) (updatesOf w.told id)
  fresh : ∀ id, w.store.items (.readiness id) = none → start id = {}
  unmade : ∀ id, recordAt w.store id = none → updatesOf w.told id = []

/-- What the others leave of a world. -/
structure Onward (start : String → Readiness) (w w' : World) : Prop where
  kept : Kept start w → Kept start w'
  later : Records.Later w.store w'.store
  told : ∃ more, w'.told = w.told ++ more

section Kept

variable {start : String → Readiness} {w w' w'' : World} {id : String}

theorem Onward.refl (w : World) : Onward start w w := ⟨id, .refl _, [], by simp⟩

theorem Onward.trans (h : Onward start w w') (h' : Onward start w' w'') : Onward start w w'' := by
  obtain ⟨more, hmore⟩ := h.told
  obtain ⟨more', hmore'⟩ := h'.told
  exact ⟨h'.kept ∘ h.kept, h.later.trans h'.later, more ++ more', by
    rw [hmore', hmore, List.append_assoc]⟩

theorem Onward.mem {t : Told} (h : Onward start w w') (ht : t ∈ w.told) : t ∈ w'.told := by
  obtain ⟨more, hmore⟩ := h.told
  rw [hmore]
  exact List.mem_append_left _ ht

/-- What was read of a bead at a revision that it still has is its updates, made. -/
theorem Kept.found (h : Kept start w) {s : Store} (hdated : s.Dated) (hlater : Records.Later s w.store)
    {f : Found} (hf : prior s id = .ok f)
    (hrev : (w.store.items (.readiness id)).map (·.modRev) = f.rev) :
    f.record = Publishers.made (start id) (updatesOf w.told id) := by
  rw [prior] at hf
  split at hf
  · obtain rfl := Except.ok.inj hf
    have hnone : w.store.items (.readiness id) = none := Option.map_eq_none_iff.mp hrev
    have hrecord : recordAt w.store id = none := by rw [recordAt, hnone]; rfl
    rw [h.fresh id hnone, h.unmade id hrecord]
    rfl
  · rename_i i hi
    split at hf
    · rename_i r hr
      obtain rfl := Except.ok.inj hf
      obtain ⟨i', hi', hmod⟩ := Option.map_eq_some_iff.mp hrev
      obtain rfl := hlater.unmoved hdated hi hi' hmod
      refine h.made id r ?_
      rw [recordAt, hi', Option.bind_some, hr]
    · cases hf

/-- What is told of a merge, of the beads that it found. -/
def putsFound (req : String) (head : ℕ) (fs : List ((String × Update) × Found)) : List Told :=
  fs.map fun q ↦ .put req q.1.1 head q.1.2

theorem updatesOf_putsFound {req : String} {head : ℕ} {fs : List ((String × Update) × Found)} :
    updatesOf (putsFound req head fs) id =
      (fs.filter (·.1.1 = id)).map fun q ↦ (head, q.1.2) := by
  induction fs with
  | nil => rfl
  | cons q fs ih =>
    rw [updatesOf, putsFound] at ih ⊢
    by_cases hid : q.1.1 = id <;> simp [Told.update, hid, ih]

/-- **A merge that is committed is made of what the record was.** -/
theorem Kept.commit (h : Kept start w) {s : Store} (hdated : s.Dated)
    (hlater : Records.Later s w.store) {req : String} {fs : List ((String × Update) × Found)}
    (hfs : ∀ q ∈ fs, prior s q.1.1 = .ok q.2)
    (hkeys : ((mergeTxn s.head fs).ops.map Records.Op.key).Nodup)
    (htakes : (mergeTxn s.head fs).takes w.store) :
    Kept start { w with
      store := w.store.commit (mergeTxn s.head fs).ops
      told := w.told ++ putsFound req s.head fs } := by
  have hids : (fs.map (·.1.1)).Nodup := by
    rw [mergeTxn, List.map_map] at hkeys
    exact List.Nodup.of_map Key.readiness (by rwa [List.map_map])
  -- A bead that the merge is of, and one that it is not of.
  have hof {q : (String × Update) × Found} (hq : q ∈ fs) :
      ((w.store.commit (mergeTxn s.head fs).ops).items (.readiness q.1.1)).map (·.value) =
          some ⟨q.2.owners, some (q.1.2.apply s.head
            (Publishers.made (start q.1.1) (updatesOf w.told q.1.1)))⟩ ∧
        updatesOf (putsFound req s.head fs) q.1.1 = [(s.head, q.1.2)] := by
    have hrev : (w.store.items (.readiness q.1.1)).map (·.modRev) = q.2.rev := by
      have hholds := Records.holds_of_takes htakes (List.mem_map_of_mem hq)
      simpa [Records.Compare.holds] using hholds
    refine ⟨?_, ?_⟩
    · rw [← h.found hdated hlater (hfs q hq) hrev]
      exact Records.items_commit_of_mem hkeys (List.mem_map_of_mem hq)
    · obtain ⟨pre, post, rfl⟩ := List.append_of_mem hq
      rw [List.map_append, List.map_cons] at hids
      obtain ⟨-, hpost, hpre⟩ := List.nodup_append.mp hids
      have hpost := (List.nodup_cons.mp hpost).1
      rw [updatesOf_putsFound, List.filter_append, List.filter_cons_of_pos (by simp),
        List.filter_eq_nil_iff.mpr, List.filter_eq_nil_iff.mpr]
      · rfl
      · intro x hx heq
        have heq : x.1.1 = q.1.1 := by simpa using heq
        exact hpost (List.mem_map.mpr ⟨x, hx, heq⟩)
      · intro x hx heq
        exact hpre _ (List.mem_map_of_mem (f := (·.1.1)) hx) _ List.mem_cons_self (by simpa using heq)
  have hnot {id : String} (hid : id ∉ fs.map (·.1.1)) :
      (w.store.commit (mergeTxn s.head fs).ops).items (.readiness id) =
          w.store.items (.readiness id) ∧ updatesOf (putsFound req s.head fs) id = [] := by
    refine ⟨Records.items_commit_of_notMem fun hmem ↦ ?_, ?_⟩
    · rw [mergeTxn, List.map_map] at hmem
      obtain ⟨q, hq, hkey⟩ := List.mem_map.mp hmem
      exact hid (List.mem_map.mpr ⟨q, hq, Key.readiness.inj hkey⟩)
    · rw [updatesOf_putsFound, List.map_eq_nil_iff, List.filter_eq_nil_iff]
      intro x hx heq
      exact hid (List.mem_map.mpr ⟨x, hx, by simpa using heq⟩)
  have hcases (id : String) : (∃ q ∈ fs, q.1.1 = id) ∨ id ∉ fs.map (·.1.1) := by
    by_cases hid : id ∈ fs.map (·.1.1)
    · obtain ⟨q, hq, heq⟩ := List.mem_map.mp hid
      exact .inl ⟨q, hq, heq⟩
    · exact .inr hid
  refine ⟨h.dated.commit _, fun id r hr ↦ ?_, fun id hnone ↦ ?_, fun id hnone ↦ ?_⟩
  · obtain ⟨q, hq, rfl⟩ | hid := hcases id
    · obtain ⟨hitem, hupdates⟩ := hof hq
      obtain ⟨i, hi, hval⟩ := Option.map_eq_some_iff.mp hitem
      rw [updatesOf_append, hupdates, made_append]
      rw [recordAt, hi, Option.bind_some, hval] at hr
      exact (Option.some.inj hr).symm
    · obtain ⟨hitem, hupdates⟩ := hnot hid
      rw [updatesOf_append, hupdates, List.append_nil]
      refine h.made id r ?_
      rwa [recordAt, hitem] at hr
  · obtain ⟨q, hq, rfl⟩ | hid := hcases id
    · obtain ⟨i, hi, -⟩ := Option.map_eq_some_iff.mp (hof hq).1
      cases hi.symm.trans hnone
    · exact h.fresh id ((hnot hid).1 ▸ hnone)
  · obtain ⟨q, hq, rfl⟩ | hid := hcases id
    · obtain ⟨hitem, -⟩ := hof hq
      obtain ⟨i, hi, hval⟩ := Option.map_eq_some_iff.mp hitem
      rw [recordAt, hi, Option.bind_some, hval] at hnone
      cases hnone
    · obtain ⟨hitem, hupdates⟩ := hnot hid
      rw [updatesOf_append, hupdates, List.append_nil]
      refine h.unmade id ?_
      rwa [recordAt, hitem] at hnone

/-- What is told of no change leaves the records. -/
theorem Kept.tell (h : Kept start w) {told : List Told}
    (hsame : ∀ id, updatesOf told id = [] ∨ ∃ u, updatesOf told id = [u] ∧
      ∃ r, recordAt w.store id = some r ∧ u.2.apply u.1 r = r) :
    Kept start { w with told := w.told ++ told } where
  dated := h.dated
  made id r hr := by
    have hmade := h.made id r hr
    rw [updatesOf_append, made_append, ← hmade]
    obtain hnil | ⟨u, hu, r', hr', happly⟩ := hsame id
    · rw [hnil]
      rfl
    · obtain rfl := Option.some.inj (hr.symm.trans hr')
      rw [hu]
      exact happly.symm
  fresh := h.fresh
  unmade id hnone := by
    rw [updatesOf_append, h.unmade id hnone, List.nil_append]
    obtain hnil | ⟨u, hu, r', hr', -⟩ := hsame id
    · exact hnil
    · rw [show recordAt w.store id = none from hnone] at hr'
      cases hr'

theorem updatesOf_absentOf {req : String} {chunk : List (String × Update)} {s : Store} :
    updatesOf (absentOf req chunk s) id = [] := by
  refine List.filterMap_eq_nil_iff.mpr fun t ht ↦ ?_
  obtain ⟨p, -, rfl⟩ := List.mem_map.mp ht
  rfl

/-- An edge that is so already is told, and changes nothing. -/
theorem updatesOf_edgeTold {req bead dep : String} {e : Edge} {s : Store} :
    updatesOf (edgeTold req bead dep e s) id = [] ∨
      ∃ u, updatesOf (edgeTold req bead dep e s) id = [u] ∧
        ∃ r, recordAt s id = some r ∧ u.2.apply u.1 r = r := by
  rw [edgeTold]
  split
  · exact .inl rfl
  · split
    · rename_i f hf
      split
      · rename_i hsame
        obtain ⟨hblocked, hrev⟩ := hsame
        by_cases hid : bead = id
        · subst hid
          refine .inr ⟨(s.head, .edge dep e), by simp [updatesOf, Told.update], f.record, ?_, ?_⟩
          · rw [prior] at hf
            split at hf
            · obtain rfl := Except.ok.inj hf
              cases hrev
            · rename_i i hi
              split at hf
              · rename_i r hr
                obtain rfl := Except.ok.inj hf
                rw [recordAt, hi, Option.bind_some, hr]
              · cases hf
          · cases e <;> exact (congrArg (fun l ↦ { f.record with blockedBy := l }) hblocked :)
        · exact .inl (by simp [updatesOf, Told.update, hid])
      · exact .inl rfl
    · exact .inl rfl

end Kept

/-! ## What the programs keep to -/

section Programs

variable {start : String → Readiness} {w : World} {req part : String}

/-- An answered item is told, as put or as of no bead. -/
def Answered (req : String) (p : String × Update) (w : World) : Prop :=
  (∃ head, .put req p.1 head p.2 ∈ w.told) ∨ .absent req p.1 p.2 ∈ w.told

theorem Onward.answered {w' : World} {p : String × Update} (h : Onward start w w')
    (ha : Answered req p w) : Answered req p w' :=
  ha.imp (fun ⟨head, ht⟩ ↦ ⟨head, h.mem ht⟩) h.mem

/-- What follows a program starts later, of records that are kept. -/
theorem keeps_then {α β : Type} {x : Program α} {f : α → Program β} {Q : α → World → Prop}
    {Q' : β → World → Prop} (hw : Kept start w)
    (hx : x.Keeps (Onward start) (Onward start) Q (fun _ ↦ True) w)
    (hf : ∀ a w', Kept start w' → Onward start w w' → Q a w' →
      (f a).Keeps (Onward start) (Onward start) Q' (fun _ ↦ True) w') :
    (x >>= f).Keeps (Onward start) (Onward start) Q' (fun _ ↦ True) w := by
  have hsince := Verb.Keeps.since (R := Onward start) (G := Onward start) Onward.trans (fun h ↦ h) hx
  exact Verb.keeps_bind Onward.refl (hsince.imp fun a w' ⟨hq, h⟩ ↦ hf a w' (h.kept hw) h hq)

theorem keeps_ofExcept {α β : Type} {x : Except String α} {f : α → Program β}
    {Q : β → World → Prop} (h : ∀ a, x = .ok a →
      (f a).Keeps (Onward start) (Onward start) Q (fun _ ↦ True) w) :
    (ofExcept x >>= f).Keeps (Onward start) (Onward start) Q (fun _ ↦ True) w := by
  cases x with
  | ok a => exact h a rfl
  | error e => exact fun _ _ ↦ trivial

/-- What was read is of a world that was, and what is told of it is told. -/
theorem snapshot_keeps {told : Store → List Told} (hw : Kept start w)
    (htold : ∀ s id, updatesOf (told s) id = [] ∨ ∃ u, updatesOf (told s) id = [u] ∧
      ∃ r, recordAt s id = some r ∧ u.2.apply u.1 r = r) :
    (snapshot told).Keeps (Onward start) (Onward start)
      (fun s w' ↦ s.Dated ∧ Records.Later s w'.store ∧ ∀ t ∈ told s, t ∈ w'.told) (fun _ ↦ True)
      w := by
  refine Verb.keeps_atom fun w₁ h₁ _ ↦ ?_
  have hkept := h₁.kept hw
  split
  · have hon : Onward start w₁ { w₁ with told := w₁.told ++ told w₁.store } :=
      ⟨fun h ↦ h.tell (htold w₁.store), .refl _, told w₁.store, rfl⟩
    refine ⟨hon, fun w₂ h₂ ↦ ⟨fun s hs ↦ ?_, fun _ _ ↦ trivial⟩⟩
    obtain rfl := Except.ok.inj hs
    exact ⟨hkept.dated, h₂.later, fun t ht ↦ h₂.mem (List.mem_append_right _ ht)⟩
  · exact ⟨.refl _, fun w₂ h₂ ↦ ⟨fun s hs ↦ (nomatch hs), fun _ _ ↦ trivial⟩⟩

/-- A transaction of a merge is committed, or leaves the world. -/
theorem commit_keeps {s : Store} {fs : List ((String × Update) × Found)}
    (hdated : s.Dated) (hlater : Records.Later s w.store)
    (hfs : ∀ q ∈ fs, prior s q.1.1 = .ok q.2) :
    (commit (mergeTxn s.head fs) (putsFound req s.head fs)).Keeps (Onward start) (Onward start)
      (fun rev w' ↦ rev.isSome → ∀ t ∈ putsFound req s.head fs, t ∈ w'.told) (fun _ ↦ True) w := by
  refine Verb.keeps_atom fun w₁ h₁ _ ↦ ?_
  split
  · rename_i hcommit
    obtain ⟨hup, hkeys, htakes⟩ := hcommit
    refine ⟨⟨fun h ↦ h.commit hdated (hlater.trans h₁.later) hfs hkeys htakes,
      Records.later_commit _ _, _, rfl⟩, fun w₂ h₂ ↦ ⟨fun rev _ _ t ht ↦ ?_, fun _ _ ↦ trivial⟩⟩
    exact h₂.mem (List.mem_append_right _ ht)
  · rename_i hno
    refine ⟨.refl _, fun w₂ h₂ ↦ ⟨fun rev hrev hsome ↦ ?_, fun _ _ ↦ trivial⟩⟩
    split_ifs at hrev with hup hkeys htakes
    · exact absurd ⟨by simpa using hup, by simpa using hkeys, htakes⟩ hno
    · obtain rfl := Except.ok.inj hrev
      cases hsome

theorem gather_spec {s : Store} : ∀ {chunk : List (String × Update)}
    {fs : List ((String × Update) × Found)}, gather s chunk = .ok fs →
      fs.map (·.1) = chunk.filter (present s ·.1) ∧ ∀ q ∈ fs, prior s q.1.1 = .ok q.2
  | [], fs, h => by
    obtain rfl := Except.ok.inj h
    exact ⟨rfl, by simp⟩
  | p :: chunk, fs, h => by
    rw [gather] at h
    split at h
    · rename_i habsent
      obtain ⟨hmap, hprior⟩ := gather_spec h
      exact ⟨by rw [hmap, List.filter_cons_of_neg (by simpa using habsent)], hprior⟩
    · rename_i hpresent
      cases hp : prior s p.1 with
      | error e =>
        rw [hp] at h
        cases h
      | ok f =>
        cases hg : gather s chunk with
        | error e =>
          rw [hp, hg] at h
          cases h
        | ok rest =>
          rw [hp, hg] at h
          obtain rfl := Except.ok.inj h
          obtain ⟨hmap, hprior⟩ := gather_spec hg
          refine ⟨?_, fun q hq ↦ ?_⟩
          · rw [List.map_cons, hmap, List.filter_cons_of_pos (by simpa using hpresent)]
          · obtain rfl | hq := List.mem_cons.mp hq
            · exact hp
            · exact hprior q hq

theorem putsOf_eq {s : Store} {chunk : List (String × Update)}
    {fs : List ((String × Update) × Found)} (h : fs.map (·.1) = chunk.filter (present s ·.1)) :
    putsOf req s chunk = putsFound req s.head fs := by
  rw [putsOf, ← h, List.map_map]
  rfl

/-- **A chunk that is answered for is told.** -/
theorem mergeChunk_keeps {chunk : List (String × Update)} : ∀ (n : ℕ) {w : World}, Kept start w →
    (mergeChunk req part n chunk).Keeps (Onward start) (Onward start)
      (fun _ w' ↦ ∀ p ∈ chunk, Answered req p w') (fun _ ↦ True) w
  | 0, _, _ => fun _ _ ↦ trivial
  | n + 1, w, hw => by
    rw [mergeChunk]
    refine keeps_then hw (snapshot_keeps hw fun s id ↦ .inl updatesOf_absentOf)
      fun s w₁ hw₁ h₁ ⟨hdated, hlater, habsent⟩ ↦ ?_
    refine keeps_ofExcept fun fs hfs ↦ ?_
    obtain ⟨hmap, hprior⟩ := gather_spec hfs
    -- Each item is of a bead that was found, or of none.
    have hitem {w' : World} (hon : Onward start w₁ w')
        (hputs : ∀ t ∈ putsOf req s chunk, t ∈ w'.told) : ∀ p ∈ chunk, Answered req p w' := by
      intro p hp
      cases hpresent : present s p.1 with
      | true =>
        exact .inl ⟨s.head, hputs _ (List.mem_map_of_mem (f := fun p ↦ Told.put req p.1 s.head p.2)
          (List.mem_filter.mpr ⟨hp, hpresent⟩))⟩
      | false =>
        exact .inr (hon.mem (habsent _ (List.mem_map_of_mem (f := fun p ↦ Told.absent req p.1 p.2)
          (List.mem_filter.mpr ⟨hp, by rw [hpresent]; rfl⟩))))
    by_cases hempty : fs.isEmpty = true
    · rw [if_pos hempty]
      refine Verb.keeps_pure fun w' hon ↦ hitem hon ?_
      rw [putsOf, ← hmap, List.isEmpty_iff.mp hempty]
      simp
    · rw [if_neg hempty, putsOf_eq hmap]
      refine keeps_then hw₁ (commit_keeps hdated hlater hprior) fun rev w₂ hw₂ h₂ hputs ↦ ?_
      cases rev with
      | some rev =>
        refine Verb.keeps_pure fun w' hon ↦ hitem (h₂.trans hon) ?_
        rw [putsOf_eq hmap]
        exact fun t ht ↦ hon.mem (hputs rfl t ht)
      | none => exact mergeChunk_keeps n hw₂

theorem mergeChunks_keeps : ∀ {parts : List (List (String × Update))} {n rev : ℕ} {w : World},
    Kept start w → (mergeChunks req part n parts rev).Keeps (Onward start) (Onward start)
      (fun _ w' ↦ ∀ chunk ∈ parts, ∀ p ∈ chunk, Answered req p w') (fun _ ↦ True) w
  | [], _, _, _, _ => Verb.keeps_pure fun _ _ ↦ by simp
  | chunk :: parts, n, rev, w, hw => by
    rw [mergeChunks]
    refine keeps_then hw (mergeChunk_keeps _ hw) fun rev w₁ hw₁ _ hchunk ↦ ?_
    have hparts : (mergeChunks req part (n + 1) parts rev).Keeps (Onward start) (Onward start)
        (fun _ w' ↦ ∀ chunk ∈ parts, ∀ p ∈ chunk, Answered req p w') (fun _ ↦ True) w₁ :=
      mergeChunks_keeps hw₁
    have hrest := Verb.Keeps.since (R := Onward start) (G := Onward start) Onward.trans
      (fun h ↦ h) hparts
    refine hrest.imp fun _ w₂ ⟨hrest, h₂⟩ c hc p hp ↦ ?_
    obtain rfl | hc := List.mem_cons.mp hc
    · exact h₂.answered (hchunk p hp)
    · exact hrest c hc p hp

theorem exists_mem_chunks {α : Type} {n : ℕ} {l : List α} {x : α} (hn : 0 < n) (hx : x ∈ l) :
    ∃ c ∈ chunks n l, x ∈ c := by
  obtain ⟨j, hj, rfl⟩ := List.mem_iff_getElem.mp hx
  have hle := Nat.div_mul_le_self j n
  refine ⟨_, List.mem_map_of_mem (a := j / n) (List.mem_range.mpr ?_), ?_⟩
  · show j / n + 1 ≤ _
    rw [Nat.le_div_iff_mul_le hn, Nat.add_mul]
    omega
  · refine List.mem_iff_getElem?.mpr ⟨j % n, ?_⟩
    rw [List.getElem?_take_of_lt (Nat.mod_lt j hn), List.getElem?_drop, Nat.div_add_mod',
      List.getElem?_eq_getElem hj]

theorem mergeReadiness_keeps {items : List (String × Update)} (hw : Kept start w) :
    (mergeReadiness req part items).Keeps (Onward start) (Onward start)
      (fun _ w' ↦ ∀ p ∈ items, Answered req p w') (fun _ ↦ True) w := by
  rw [mergeReadiness]
  refine keeps_then hw (snapshot_keeps hw fun _ _ ↦ .inl rfl) fun s w₁ hw₁ _ _ ↦ ?_
  refine (mergeChunks_keeps hw₁).imp fun _ w₂ hall p hp ↦ ?_
  obtain ⟨chunk, hchunk, hmem⟩ := exists_mem_chunks (by decide : 0 < passChunk) hp
  exact hall chunk hchunk p hmem

/-- **An edge that is answered for is told.** -/
theorem setEdge_keeps {id dep : String} {e : Edge} : ∀ (n : ℕ) {w : World}, Kept start w →
    (setEdge req id dep e n).Keeps (Onward start) (Onward start)
      (fun found w' ↦ if found then ∃ head, .put req id head (.edge dep e) ∈ w'.told
        else .absent req id (.edge dep e) ∈ w'.told) (fun _ ↦ True) w
  | 0, _, _ => fun _ _ ↦ trivial
  | n + 1, w, hw => by
    rw [setEdge]
    refine keeps_then hw (snapshot_keeps hw fun s id ↦ updatesOf_edgeTold)
      fun s w₁ hw₁ _ ⟨hdated, hlater, htold⟩ ↦ ?_
    cases hpresent : present s id with
    | false =>
      refine Verb.keeps_pure fun w' hon ↦ hon.mem (htold _ ?_)
      simp [edgeTold, hpresent]
    | true =>
      refine keeps_ofExcept fun f hf ↦ ?_
      dsimp only
      by_cases hsame : ((Update.edge dep e).apply s.head f.record).blockedBy = f.record.blockedBy ∧
          f.rev.isSome
      · rw [if_pos hsame]
        refine Verb.keeps_pure fun w' hon ↦ ⟨s.head, hon.mem (htold _ ?_)⟩
        simp [edgeTold, hpresent, hf, hsame]
      · rw [if_neg hsame]
        have hfirst : ∀ p ∈ [((id, Update.edge dep e), f)], prior s p.1.1 = .ok p.2 := by
          simpa using hf
        refine keeps_then hw₁ (commit_keeps hdated hlater hfirst) fun rev w₂ hw₂ h₂ hputs ↦ ?_
        cases rev with
        | some rev =>
          exact Verb.keeps_pure fun w' hon ↦ ⟨s.head, hon.mem (hputs rfl _ List.mem_cons_self)⟩
        | none => exact setEdge_keeps n hw₂

end Programs

/-! ## In a run -/

/-- What is told of an item of a call that was answered. -/
def Answer.Tells (req : String) (w : World) (p : String × Update) : Answer → Prop
  | .rev _ => Answered req p w
  | .found true => ∃ head, .put req p.1 head p.2 ∈ w.told
  | .found false => .absent req p.1 p.2 ∈ w.told

/-- The readiness of `id` at the start. -/
def startOf (start : World) (id : String) : Readiness := (recordAt start.store id).getD {}

/-- The record is the updates, made one after the other, each field as the last of them for it left
it. -/
structure Merged (start : Readiness) (us : List (ℕ × Update)) (record : Option Readiness) : Prop where
  made : ∀ r, record = some r → r = made start us
  unmade : record = none → us = []
  left : ∀ r, record = some r → ∀ before head u after f, us = before ++ (head, u) :: after →
    u.writes (Publishers.made start before) f = true →
      Spared f (u.apply head (Publishers.made start before)) after → u.Left head r f

section Run

variable {start : World} {turns : Turns}

theorem kept_start (hdated : start.store.Dated) (htold : start.told = []) :
    Kept (startOf start) start := by
  refine ⟨hdated, fun id r hr ↦ ?_, fun id hnone ↦ ?_, fun id _ ↦ by rw [htold]; rfl⟩
  · rw [startOf, hr, htold]
    rfl
  · rw [startOf, recordAt, hnone]
    rfl

theorem Call.program_keeps {base : String → Readiness} (c : Call) {w : World} (hw : Kept base w) :
    c.program.Keeps (Onward base) (Onward base)
      (fun a w' ↦ ∀ p ∈ c.publisher.items, a.Tells c.req w' p) (fun _ ↦ True) w := by
  obtain ⟨req, publisher⟩ := c
  cases publisher with
  | readiness | verdicts | escalate =>
    exact keeps_then hw (mergeReadiness_keeps hw) fun rev w' _ _ hall ↦
      Verb.keeps_pure fun w'' hon p hp ↦ hon.answered (hall p hp)
  | edge id dep e =>
    refine keeps_then hw (setEdge_keeps mergeAttempts hw) fun found w' _ _ htold ↦
      Verb.keeps_pure fun w'' hon p hp ↦ ?_
    obtain rfl := List.mem_singleton.mp hp
    cases found with
    | true =>
      obtain ⟨head, ht⟩ := htold
      exact ⟨head, hon.mem ht⟩
    | false => exact hon.mem htold

/-- The others leave the records of the publishers. -/
theorem env_onward {base : String → Readiness} (e : Env) {w : World} : Onward base w (env e w) := by
  cases e with
  | reach up => exact ⟨fun h ↦ ⟨h.dated, h.made, h.fresh, h.unmade⟩, .refl _, [], by simp [env]⟩
  | other t =>
    rw [env]
    split
    · rename_i hspares
      have hitem (id : String) : (t.run w.store).items (.readiness id) =
          w.store.items (.readiness id) := by
        rw [Records.Txn.run]
        split
        · refine Records.items_commit_of_notMem fun hmem ↦ ?_
          obtain ⟨o, ho, hkey⟩ := List.mem_map.mp hmem
          have hspare := List.all_eq_true.mp hspares o ho
          rw [hkey] at hspare
          cases hspare
        · rfl
      have hrecord (id : String) : recordAt (t.run w.store) id = recordAt w.store id := by
        rw [recordAt, hitem, recordAt]
      exact ⟨fun h ↦ ⟨h.dated.run t, fun id r hr ↦ h.made id r (hrecord id ▸ hr),
        fun id hnone ↦ h.fresh id (hitem id ▸ hnone), fun id hnone ↦ h.unmade id (hrecord id ▸ hnone)⟩,
        Records.later_run t w.store, [], by simp⟩
    · exact .refl _

/-- **The publishers lose nothing.**  At every point of every run, what is kept of each bead is all
the updates that were put, one after the other, and each field is as the last update for it left it;
and a call that was answered has put each of its updates, but of a bead that is not there. -/
theorem publishers_lose_nothing (hdated : start.store.Dated) (htold : start.told = [])
    (turns : Turns) :
    (∀ id, Merged (startOf start id) (updatesOf (run start turns).state.told id)
      (recordAt (run start turns).state.store id)) ∧
    ∀ (i : ℕ) (c : Call) (a : Answer),
      (run start turns).threads[i]? = some (c, Prog.done (.ok a)) →
        ∀ p ∈ c.publisher.items, a.Tells c.req (run start turns).state p := by
  let Q (c : Call) (r : Except String Answer) (w : World) : Prop :=
    match r with
    | .ok a => ∀ p ∈ c.publisher.items, a.Tells c.req w p
    | .error _ => True
  have hprog (c : Call) (w : World) (hw : Kept (startOf start) w) :
      Prog.Keeps (Onward (startOf start)) (Onward (startOf start)) (Q c) c.program w :=
    Prog.Keeps.imp (c.program_keeps hw) (fun h ↦ h) (fun h ↦ h) fun r _ hr ↦
      match r, hr with
      | .ok _, hr => hr
      | .error _, _ => trivial
  have hkeeps : Kept (startOf start) (run start turns).state ∧ ∀ t ∈ (run start turns).threads,
      t.2.Keeps (Onward (startOf start)) (Onward (startOf start)) (Q t.1)
        (run start turns).state :=
    Pool.keeps_run Onward.refl Onward.trans Onward.refl (fun h ↦ h) (fun h hon ↦ hon.kept h)
      (fun e _ _ ↦ env_onward e) (fun d ↦ nomatch d) hprog (kept_start hdated htold) turns
  obtain ⟨hkept, hthreads⟩ := hkeeps
  refine ⟨fun id ↦ ⟨hkept.made id, hkept.unmade id, fun r hr before head u after f hus hw hs ↦ ?_⟩,
    fun i c a hi ↦ ?_⟩
  · have hmade : r = made (startOf start id) (updatesOf (run start turns).state.told id) :=
      hkept.made id r hr
    rw [hmade, hus]
    exact left_of_spared hw hs
  · exact hthreads _ (List.mem_of_getElem? hi) _ (Onward.refl _)

end Run

/-! ## An edge and a pass -/

namespace Dropped

/-- There is a bead, with nothing published of it. -/
def start : World where
  store :=
    { head := 1
      items := fun
        | .lifecycle id => if id = "sp-1" then some ⟨(), 1, 1⟩ else none
        | .readiness _ => none
      keys := [.lifecycle "sp-1"] }
  up := true
  told := []

/-- A prerequisite is added to the bead. -/
def added : Call := ⟨"r1", .edge "sp-1" "sp-2" .blocks⟩

/-- A pass that judged the bead before. -/
def passed : Call :=
  ⟨"r2", .readiness [⟨"sp-1", true, [], ∅, none, none, []⟩] ⟨"2026-01-01T00:00:00Z", none, none⟩⟩

/-- The edge is written between the pass's first look and its merge. -/
def turns : Turns :=
  [.spawn passed, .turn 0, .spawn added, .turn 1, .turn 1, .turn 0, .turn 0]

theorem start_dated : start.store.Dated := by
  intro k i hi
  cases k with
  | lifecycle id =>
    change (if id = "sp-1" then _ else _) = _ at hi
    split at hi
    · obtain rfl := Option.some.inj hi
      exact ⟨le_rfl, le_rfl⟩
    · cases hi
  | readiness id => cases hi

theorem added_answered :
    (run start turns).threads[1]? = some (added, Prog.done (.ok (.found true))) := rfl

theorem blockers_end : (recordAt (run start turns).state.store "sp-1").map (·.blockedBy) = some [] :=
  rfl

end Dropped

/-- A pass is for the whole list of blockers: an edge that was put, and that no write of the edge
took away, is not in the record. -/
theorem pass_drops_edge : ¬ ∀ (start : World) (turns : Turns), start.store.Dated → start.told = [] →
    ∀ (i : ℕ) (req id dep : String),
      (run start turns).threads[i]? =
          some (⟨req, .edge id dep .blocks⟩, Prog.done (.ok (.found true))) →
        (∀ req', Turn.spawn ⟨req', .edge id dep .unblocks⟩ ∉ turns) →
          ∃ r, recordAt (run start turns).state.store id = some r ∧ dep ∈ r.blockedBy := by
  intro h
  obtain ⟨r, hr, hdep⟩ := h Dropped.start Dropped.turns Dropped.start_dated rfl 1 "r1" "sp-1" "sp-2"
    Dropped.added_answered (by simp [Dropped.turns, Dropped.passed, Dropped.added])
  have hend := Dropped.blockers_end
  rw [hr] at hend
  have hnil : r.blockedBy = [] := Option.some.inj hend
  rw [hnil] at hdep
  cases hdep

theorem publishers_lose_nothing_dropped :
    Merged {} (updatesOf (run Dropped.start Dropped.turns).state.told "sp-1")
      (recordAt (run Dropped.start Dropped.turns).state.store "sp-1") ∧
    ∃ head, Told.put "r1" "sp-1" head (.edge "sp-2" .blocks) ∈
      (run Dropped.start Dropped.turns).state.told := by
  obtain ⟨hmerged, htells⟩ := publishers_lose_nothing Dropped.start_dated rfl Dropped.turns
  exact ⟨hmerged "sp-1", htells 1 Dropped.added (.found true) Dropped.added_answered _
    List.mem_cons_self⟩

end Spira.Control.Publishers
