import Mathlib.Data.List.Induction
import Mathlib.Data.Nat.Notation

/-!
# Programs that take turns on a shared state

A `Prog σ α` is a program over a shared state of type `σ`: it is done, with an answer, or it has a
step to take, in the states in which it is ready to, which changes the state at once and goes on
from what it saw there.  A `Verb` is one that may also fail.

`Keeps R G Q p s` is the rule for one program among others: from `s` on, whatever the others do
within `R`, every step of `p` is within `G`, and `p` ends in `Q`.  `Pool` is a list of programs that
take turns in any order, with steps of the surroundings between them, and `Pool.keeps_run` is why
the rule is enough: when every program keeps to `R` and the surroundings do, what `R` preserves
holds at every point of every run, and every program of the pool still has its rule.

Loops are programs with fuel.  One that has run out is `stuck`: it never takes another step, as a
loop that is still going round has not ended.
-/

set_option autoImplicit false

/-- A program over a shared state. -/
inductive Prog (σ α : Type)
  | done (a : α)
  | step (ready : σ → Bool) (effect : σ → σ) (next : σ → Prog σ α)

namespace Prog

variable {σ α β : Type}

def bind : Prog σ α → (α → Prog σ β) → Prog σ β
  | done a, f => f a
  | step ready effect next, f => step ready effect fun s ↦ (next s).bind f

/-- One turn: nothing, where the program is done or not ready. -/
def turn : Prog σ α → σ → Prog σ α × σ
  | done a, s => (done a, s)
  | step ready effect next, s =>
    if ready s then (next s, effect s) else (step ready effect next, s)

/-- All of the program's turns with nobody else's between them, where it is ready for each. -/
def alone : Prog σ α → σ → Option (α × σ)
  | done a, s => some (a, s)
  | step ready effect next, s => if ready s then (next s).alone (effect s) else none

/-- The answer of a program that is done. -/
def answer? : Prog σ α → Option α
  | done a => some a
  | step _ _ _ => none

theorem answer?_eq_some {p : Prog σ α} {a : α} : p.answer? = some a ↔ p = done a := by
  cases p <;> simp [answer?]

/-- From `s` on, whatever the others do within `R`, every step is within `G` and the end in `Q`. -/
def Keeps (R G : σ → σ → Prop) (Q : α → σ → Prop) : Prog σ α → σ → Prop
  | done a, s => ∀ s', R s s' → Q a s'
  | step ready effect next, s =>
    ∀ s', R s s' → ready s' → G s' (effect s') ∧ (next s').Keeps R G Q (effect s')

section Keeps

variable {R R' G G' : σ → σ → Prop} {Q Q' : α → σ → Prop} {p : Prog σ α} {s s' : σ}

/-- The rule holds on when the others have moved. -/
theorem Keeps.mono (htrans : ∀ {a b c}, R a b → R b c → R a c) (h : p.Keeps R G Q s)
    (hs : R s s') : p.Keeps R G Q s' := by
  cases p with
  | done a => exact fun t ht ↦ h t (htrans hs ht)
  | step ready effect next => exact fun t ht hr ↦ h t (htrans hs ht) hr

theorem Keeps.imp (h : p.Keeps R G Q s) (hR : ∀ {a b}, R' a b → R a b)
    (hG : ∀ {a b}, G a b → G' a b) (hQ : ∀ a s, Q a s → Q' a s) : p.Keeps R' G' Q' s := by
  induction p generalizing s with
  | done a => exact fun t ht ↦ hQ a t (h t (hR ht))
  | step ready effect next ih =>
    intro t ht hr
    obtain ⟨hg, hn⟩ := h t (hR ht) hr
    exact ⟨hG hg, ih t hn⟩

theorem Keeps.bind {f : α → Prog σ β} {Q : β → σ → Prop}
    (hrefl : ∀ a, R a a) (h : p.Keeps R G (fun a s ↦ (f a).Keeps R G Q s) s) :
    (p.bind f).Keeps R G Q s := by
  induction p generalizing s with
  | done a => exact h s (hrefl s)
  | step ready effect next ih =>
    intro t ht hr
    obtain ⟨hg, hn⟩ := h t ht hr
    exact ⟨hg, ih t hn⟩

theorem Keeps.map {f : α → β} {Q : β → σ → Prop} (h : p.Keeps R G (fun a s ↦ Q (f a) s) s) :
    (p.bind fun a ↦ done (f a)).Keeps R G Q s := by
  induction p generalizing s with
  | done a => exact h
  | step ready effect next ih =>
    intro t ht hr
    obtain ⟨hg, hn⟩ := h t ht hr
    exact ⟨hg, ih t hn⟩

/-- Where the program ends is within `R` of where it starts. -/
theorem Keeps.since (htrans : ∀ {a b c}, R a b → R b c → R a c) (hG : ∀ {a b}, G a b → R a b)
    (h : p.Keeps R G Q s) : p.Keeps R G (fun a s' ↦ Q a s' ∧ R s s') s := by
  induction p generalizing s with
  | done a => exact fun t ht ↦ ⟨h t ht, ht⟩
  | step ready effect next ih =>
    intro t ht hr
    obtain ⟨hg, hn⟩ := h t ht hr
    exact ⟨hg, (ih t hn).imp id id fun a u hu ↦ ⟨hu.1, htrans ht (htrans (hG hg) hu.2)⟩⟩

/-- A turn is within `G`, and keeps the rule. -/
theorem Keeps.turn (hrefl : ∀ a, R a a) (hidle : ∀ a, G a a) (h : p.Keeps R G Q s) :
    G s (p.turn s).2 ∧ (p.turn s).1.Keeps R G Q (p.turn s).2 := by
  cases p with
  | done a => exact ⟨hidle s, h⟩
  | step ready effect next =>
    rw [Prog.turn]
    split <;> rename_i hr
    · exact h s (hrefl s) hr
    · exact ⟨hidle s, h⟩

/-- Alone, the program ends as its rule says. -/
theorem Keeps.alone {a : α} (hrefl : ∀ a, R a a) (h : p.Keeps R G Q s)
    (ha : p.alone s = some (a, s')) : Q a s' := by
  induction p generalizing s with
  | done b =>
    cases ha
    exact h _ (hrefl _)
  | step ready effect next ih =>
    rw [Prog.alone] at ha
    split at ha
    · rename_i hr
      exact ih s (h s (hrefl s) hr).2 ha
    · cases ha

end Keeps

/-- From `s` on, whatever the others do within `R`, every step is within `H` and the end in `K`; or
one step leaves `H`, and from it on every step is within `G` and the end in `C`. -/
def Spares (R H G : σ → σ → Prop) (C K : α → σ → Prop) : Prog σ α → σ → Prop
  | done a, s => ∀ s', R s s' → K a s'
  | step ready effect next, s =>
    ∀ s', R s s' → ready s' →
      H s' (effect s') ∧ (next s').Spares R H G C K (effect s') ∨
        G s' (effect s') ∧ (next s').Keeps R G C (effect s')

section Spares

variable {R H G : σ → σ → Prop} {Q C C' K K' : α → σ → Prop} {p : Prog σ α} {s s' : σ}

theorem Spares.mono (htrans : ∀ {a b c}, R a b → R b c → R a c) (h : p.Spares R H G C K s)
    (hs : R s s') : p.Spares R H G C K s' := by
  cases p with
  | done a => exact fun t ht ↦ h t (htrans hs ht)
  | step ready effect next => exact fun t ht hr ↦ h t (htrans hs ht) hr

theorem Spares.imp (h : p.Spares R H G C K s) (hC : ∀ a s, C a s → C' a s)
    (hK : ∀ a s, K a s → K' a s) : p.Spares R H G C' K' s := by
  induction p generalizing s with
  | done a => exact fun t ht ↦ hK a t (h t ht)
  | step ready effect next ih =>
    intro t ht hr
    rcases h t ht hr with ⟨hH, hn⟩ | ⟨hG, hend⟩
    · exact .inl ⟨hH, ih t hn⟩
    · exact .inr ⟨hG, hend.imp id id hC⟩

/-- A program none of whose steps leaves `H`. -/
theorem Keeps.spares (h : p.Keeps R H Q s) : p.Spares R H G C Q s := by
  induction p generalizing s with
  | done a => exact h
  | step ready effect next ih =>
    intro t ht hr
    obtain ⟨hH, hn⟩ := h t ht hr
    exact .inl ⟨hH, ih t hn⟩

theorem Spares.map {f : α → β} {C K : β → σ → Prop}
    (h : p.Spares R H G (fun a s ↦ C (f a) s) (fun a s ↦ K (f a) s) s) :
    (p.bind fun a ↦ done (f a)).Spares R H G C K s := by
  induction p generalizing s with
  | done a => exact h
  | step ready effect next ih =>
    intro t ht hr
    rcases h t ht hr with ⟨hH, hn⟩ | ⟨hG, hend⟩
    · exact .inl ⟨hH, ih t hn⟩
    · exact .inr ⟨hG, hend.map⟩

theorem Spares.keeps (h : p.Spares R G G Q Q s) : p.Keeps R G Q s := by
  induction p generalizing s with
  | done a => exact h
  | step ready effect next ih =>
    intro t ht hr
    rcases h t ht hr with ⟨hG, hn⟩ | hend
    · exact ⟨hG, ih t hn⟩
    · exact hend

theorem Spares.bind {f : α → Prog σ β} {C K : β → σ → Prop} (hrefl : ∀ a, R a a)
    (h : p.Spares R H G (fun a s ↦ (f a).Keeps R G C s) (fun a s ↦ (f a).Spares R H G C K s) s) :
    (p.bind f).Spares R H G C K s := by
  induction p generalizing s with
  | done a => exact h s (hrefl s)
  | step ready effect next ih =>
    intro t ht hr
    rcases h t ht hr with ⟨hH, hn⟩ | ⟨hG, hend⟩
    · exact .inl ⟨hH, ih t hn⟩
    · exact .inr ⟨hG, hend.bind hrefl⟩

/-- After a turn the rule holds on, or the turn left `H`. -/
theorem Spares.turn (hrefl : ∀ a, R a a) (hidle : ∀ a, H a a) (h : p.Spares R H G C K s) :
    H s (p.turn s).2 ∧ (p.turn s).1.Spares R H G C K (p.turn s).2 ∨
      (p.turn s).1.Keeps R G C (p.turn s).2 := by
  cases p with
  | done a => exact .inl ⟨hidle s, h⟩
  | step ready effect next =>
    rw [Prog.turn]
    split <;> rename_i hr
    · exact (h s (hrefl s) hr).imp_right (·.2)
    · exact .inl ⟨hidle s, h⟩

end Spares

/-- From `s` on, whatever the others do within `R`, the program is ready at each of its turns and
changes nothing in it, and after `n` of them it has ended, in `Q`. -/
def Looks (R : σ → σ → Prop) (Q : α → σ → Prop) : ℕ → Prog σ α → σ → Prop
  | _, done a, s => ∀ s', R s s' → Q a s'
  | 0, step _ _ _, _ => False
  | n + 1, step ready effect next, s =>
    ∀ s', R s s' → ready s' = true ∧ effect s' = s' ∧ Looks R Q n (next s') s'

section Looks

variable {R : σ → σ → Prop} {Q Q' : α → σ → Prop} {p : Prog σ α} {s s' : σ} {n m : ℕ}

theorem looks_done {a : α} : (done a).Looks R Q n s ↔ ∀ s', R s s' → Q a s' := by
  cases n <;> rfl

theorem Looks.mono (htrans : ∀ {a b c}, R a b → R b c → R a c) (h : p.Looks R Q n s)
    (hs : R s s') : p.Looks R Q n s' := by
  cases p with
  | done a => exact looks_done.mpr fun t ht ↦ looks_done.mp h t (htrans hs ht)
  | step ready effect next =>
    cases n with
    | zero => exact h
    | succ n => exact fun t ht ↦ h t (htrans hs ht)

theorem Looks.imp (h : p.Looks R Q n s) (hQ : ∀ a s, Q a s → Q' a s) : p.Looks R Q' n s := by
  induction n generalizing p s with
  | zero =>
    cases p with
    | done a => exact fun t ht ↦ hQ a t (h t ht)
    | step ready effect next => exact h
  | succ n ih =>
    cases p with
    | done a => exact fun t ht ↦ hQ a t (h t ht)
    | step ready effect next =>
      intro t ht
      obtain ⟨hr, he, hn⟩ := h t ht
      exact ⟨hr, he, ih hn⟩

theorem Looks.le (h : p.Looks R Q n s) (hnm : n ≤ m) : p.Looks R Q m s := by
  induction n generalizing p s m with
  | zero =>
    cases p with
    | done a => exact looks_done.mpr (looks_done.mp h)
    | step ready effect next => exact h.elim
  | succ n ih =>
    cases p with
    | done a => exact looks_done.mpr (looks_done.mp h)
    | step ready effect next =>
      obtain ⟨m, rfl⟩ := Nat.exists_eq_add_of_le' (Nat.lt_of_lt_of_le n.succ_pos hnm)
      intro t ht
      obtain ⟨hr, he, hn⟩ := h t ht
      exact ⟨hr, he, ih hn (Nat.le_of_succ_le_succ hnm)⟩

theorem Looks.bind {f : α → Prog σ β} {Q : β → σ → Prop} (hrefl : ∀ a, R a a)
    (h : p.Looks R (fun a s ↦ (f a).Looks R Q m s) n s) : (p.bind f).Looks R Q (n + m) s := by
  induction n generalizing p s with
  | zero =>
    cases p with
    | done a => exact (looks_done.mp h s (hrefl s)).le (Nat.le_add_left m 0)
    | step ready effect next => exact h.elim
  | succ n ih =>
    cases p with
    | done a => exact (looks_done.mp h s (hrefl s)).le (Nat.le_add_left m (n + 1))
    | step ready effect next =>
      rw [Nat.succ_add]
      intro t ht
      obtain ⟨hr, he, hn⟩ := h t ht
      exact ⟨hr, he, ih hn⟩

/-- A turn changes nothing, and one less is needed. -/
theorem Looks.turn (hrefl : ∀ a, R a a) (h : p.Looks R Q n s) :
    (p.turn s).2 = s ∧ (p.turn s).1.Looks R Q (n - 1) s := by
  cases p with
  | done a => exact ⟨rfl, looks_done.mpr (looks_done.mp h)⟩
  | step ready effect next =>
    cases n with
    | zero => exact h.elim
    | succ n =>
      obtain ⟨hr, he, hn⟩ := h s (hrefl s)
      rw [Prog.turn, if_pos hr]
      exact ⟨he, hn⟩

end Looks

end Prog

/-! ## Programs that may fail -/

/-- A program that ends in an answer or an error. -/
def Verb (σ ε α : Type) := Prog σ (Except ε α)

namespace Verb

variable {σ ε α β : Type}

def bind (x : Verb σ ε α) (f : α → Verb σ ε β) : Verb σ ε β :=
  Prog.bind x fun
    | .ok a => f a
    | .error e => .done (.error e)

instance : Monad (Verb σ ε) where
  pure a := Prog.done (.ok a)
  bind := bind

instance : MonadExceptOf ε (Verb σ ε) where
  throw e := Prog.done (.error e)
  tryCatch x f := Prog.bind x fun
    | .ok a => Prog.done (.ok a)
    | .error e => f e

/-- One step: it waits until it is ready, answers from the state it finds, and changes it. -/
def atom (ready : σ → Bool) (effect : σ → σ) (answer : σ → Except ε α) : Verb σ ε α :=
  Prog.step ready effect fun s ↦ Prog.done (answer s)

/-- A step that only looks. -/
def look (answer : σ → Except ε α) : Verb σ ε α := atom (fun _ ↦ true) id answer

/-- The end of a program as an answer, be it an error. -/
def attempt (x : Verb σ ε α) : Verb σ ε (Except ε α) := Prog.bind x fun r ↦ Prog.done (.ok r)

/-- The end of a program as an answer, to a program with errors of its own. -/
def tried {ε' : Type} (x : Verb σ ε α) : Verb σ ε' (Except ε α) :=
  Prog.bind x fun r ↦ Prog.done (.ok r)

/-- A program whose error is told as another. -/
def mapError {ε' : Type} (f : ε → ε') (x : Verb σ ε α) : Verb σ ε' α :=
  Prog.bind x fun r ↦ Prog.done (r.mapError f)

/-- A loop that has not ended: it takes no more steps. -/
def stuck [Inhabited ε] : Verb σ ε α :=
  Prog.step (fun _ ↦ false) id fun _ ↦ Prog.done (.error default)

/-- From `s` on, whatever the others do within `R`, every step is within `G`, and the end is an
answer in `Q` or an error in `E`. -/
def Keeps (R G : σ → σ → Prop) (Q : α → σ → Prop) (E : ε → Prop) (v : Verb σ ε α) (s : σ) : Prop :=
  Prog.Keeps R G
    (fun r s ↦ match r with
      | .ok a => Q a s
      | .error e => E e) v s

section Keeps

variable {R G : σ → σ → Prop} {Q Q' : α → σ → Prop} {E E' : ε → Prop} {s s' : σ}

theorem Keeps.mono {v : Verb σ ε α} (htrans : ∀ {a b c}, R a b → R b c → R a c)
    (h : v.Keeps R G Q E s) (hs : R s s') : v.Keeps R G Q E s' :=
  Prog.Keeps.mono htrans h hs

theorem Keeps.imp {v : Verb σ ε α} (h : v.Keeps R G Q E s) (hQ : ∀ a s, Q a s → Q' a s) :
    v.Keeps R G Q' E s :=
  Prog.Keeps.imp h id id fun r s hr ↦
    match r, hr with
    | .ok a, hr => hQ a s hr
    | .error _, hr => hr

theorem Keeps.since {v : Verb σ ε α} (htrans : ∀ {a b c}, R a b → R b c → R a c)
    (hG : ∀ {a b}, G a b → R a b) (h : v.Keeps R G Q E s) :
    v.Keeps R G (fun a s' ↦ Q a s' ∧ R s s') E s :=
  Prog.Keeps.imp (Prog.Keeps.since (R := R) (G := G) htrans hG h) id id fun r _ hr ↦
    match r, hr with
    | .ok _, hr => hr
    | .error _, hr => hr.1

theorem Keeps.errors {v : Verb σ ε α} (h : v.Keeps R G Q E s) (hE : ∀ e, E e → E' e) :
    v.Keeps R G Q E' s :=
  Prog.Keeps.imp h id id fun r _ hr ↦
    match r, hr with
    | .ok _, hr => hr
    | .error e, hr => hE e hr

theorem keeps_pure {a : α} (h : ∀ s', R s s' → Q a s') :
    (pure a : Verb σ ε α).Keeps R G Q E s := h

theorem keeps_throw {e : ε} (h : E e) : (throw e : Verb σ ε α).Keeps R G Q E s := fun _ _ ↦ h

theorem keeps_stuck [Inhabited ε] : (stuck : Verb σ ε α).Keeps R G Q E s :=
  fun _ _ h ↦ absurd h (by simp)

theorem keeps_bind {x : Verb σ ε α} {f : α → Verb σ ε β} {Q : β → σ → Prop}
    (hrefl : ∀ a, R a a) (h : x.Keeps R G (fun a s ↦ (f a).Keeps R G Q E s) E s) :
    (x >>= f).Keeps R G Q E s :=
  Prog.Keeps.bind hrefl (Prog.Keeps.imp h id id fun r _ hr ↦
    match r, hr with
    | .ok _, hr => hr
    | .error _, hr => fun _ _ ↦ hr)

theorem keeps_attempt {x : Verb σ ε α} {Q : Except ε α → σ → Prop} {E' : ε → Prop}
    (hrefl : ∀ a, R a a) (h : x.Keeps R G (fun a s ↦ ∀ s', R s s' → Q (.ok a) s') E s)
    (hE : ∀ e s, E e → Q (.error e) s) : (attempt x).Keeps R G Q E' s :=
  Prog.Keeps.bind hrefl (Prog.Keeps.imp h id id fun r _ hr s' hs ↦
    match r, hr with
    | .ok _, hr => hr s' hs
    | .error e, hr => hE e s' hr)

theorem keeps_tried {ε' : Type} {x : Verb σ ε α} {Q : Except ε α → σ → Prop} {E' : ε' → Prop}
    (h : x.Keeps R G (fun a s ↦ Q (.ok a) s) E s) (hE : ∀ e s, E e → Q (.error e) s) :
    (tried x : Verb σ ε' (Except ε α)).Keeps R G Q E' s :=
  Prog.Keeps.map (Prog.Keeps.imp h id id fun r s hr ↦
    match r, hr with
    | .ok _, hr => hr
    | .error e, hr => hE e s hr)

theorem keeps_mapError {ε' : Type} {f : ε → ε'} {x : Verb σ ε α} {E' : ε' → Prop}
    (h : x.Keeps R G Q (fun e ↦ E' (f e)) s) : (x.mapError f).Keeps R G Q E' s :=
  Prog.Keeps.map (Prog.Keeps.imp h id id fun r _ hr ↦
    match r, hr with
    | .ok _, hr => hr
    | .error _, hr => hr)

/-- One step: its answer is of the state it finds, and holds of whatever comes later. -/
theorem keeps_atom {ready : σ → Bool} {effect : σ → σ} {answer : σ → Except ε α}
    (h : ∀ s', R s s' → ready s' → G s' (effect s') ∧ ∀ s'', R (effect s') s'' →
      (∀ a, answer s' = .ok a → Q a s'') ∧ ∀ e, answer s' = .error e → E e) :
    (atom ready effect answer).Keeps R G Q E s := by
  intro s' hs hr
  obtain ⟨hg, hn⟩ := h s' hs hr
  refine ⟨hg, fun s'' hs'' ↦ ?_⟩
  obtain ⟨hok, herr⟩ := hn s'' hs''
  cases ha : answer s' with
  | ok a => exact hok a ha
  | error e => exact herr e ha

theorem keeps_look {answer : σ → Except ε α} (hG : ∀ s, G s s)
    (h : ∀ s', R s s' → ∀ s'', R s' s'' →
      (∀ a, answer s' = .ok a → Q a s'') ∧ ∀ e, answer s' = .error e → E e) :
    (look answer).Keeps R G Q E s :=
  keeps_atom fun s' hs _ ↦ ⟨hG s', h s' hs⟩

end Keeps

/-- Wherever it starts and whatever the others do within `R`, every step is within `G`. -/
def Within (R G : σ → σ → Prop) (v : Verb σ ε α) : Prop :=
  ∀ s, v.Keeps R G (fun _ _ ↦ True) (fun _ ↦ True) s

section Within

variable {R G : σ → σ → Prop} {Q : β → σ → Prop} {s : σ}

theorem within_pure {a : α} : (pure a : Verb σ ε α).Within R G := fun _ _ _ ↦ trivial

theorem within_throw {e : ε} : (throw e : Verb σ ε α).Within R G := fun _ _ _ ↦ trivial

theorem Within.bind {x : Verb σ ε α} {f : α → Verb σ ε β} (hrefl : ∀ a, R a a)
    (hx : x.Within R G) (hf : ∀ a, (f a).Within R G) : (x >>= f).Within R G := fun s ↦
  keeps_bind hrefl ((hx s).imp fun a s' _ ↦ hf a s')

theorem Within.tried {ε' : Type} {x : Verb σ ε α} (hx : x.Within R G) :
    (Verb.tried x : Verb σ ε' (Except ε α)).Within R G := fun s ↦
  keeps_tried (hx s) fun _ _ _ ↦ trivial

theorem Within.mapError {ε' : Type} {f : ε → ε'} {x : Verb σ ε α} (hx : x.Within R G) :
    (x.mapError f).Within R G := fun s ↦ keeps_mapError (hx s)

/-- What follows a program whose steps are within `G` starts later. -/
theorem Within.keeps_bind {x : Verb σ ε α} {f : α → Verb σ ε β}
    (hx : x.Within R G) (hrefl : ∀ a, R a a) (htrans : ∀ {a b c}, R a b → R b c → R a c)
    (hG : ∀ {a b}, G a b → R a b) (h : ∀ a s', R s s' → (f a).Keeps R G Q (fun _ ↦ True) s') :
    (x >>= f).Keeps R G Q (fun _ ↦ True) s :=
  Verb.keeps_bind hrefl ((Keeps.since (R := R) (G := G) htrans hG (hx s)).imp fun a s' hs ↦
    h a s' hs.2)

end Within

/-- From `s` on, whatever the others do within `R`, every step is within `H` and an answer in `K`;
or one step leaves `H`, and from it on every step is within `G` and the end an answer in `C` or an
error in `E`. -/
def Spares (R H G : σ → σ → Prop) (C K : α → σ → Prop) (E : ε → Prop) (v : Verb σ ε α) (s : σ) :
    Prop :=
  Prog.Spares R H G
    (fun r s ↦ match r with
      | .ok a => C a s
      | .error e => E e)
    (fun r s ↦ match r with
      | .ok a => K a s
      | .error _ => True) v s

section Spares

variable {R H G : σ → σ → Prop} {Q C C' K K' : α → σ → Prop} {E E' : ε → Prop} {s s' : σ}

theorem Spares.imp {v : Verb σ ε α} (h : v.Spares R H G C K E s) (hC : ∀ a s, C a s → C' a s)
    (hK : ∀ a s, K a s → K' a s) : v.Spares R H G C' K' E s :=
  Prog.Spares.imp h
    (fun r s hr ↦ match r, hr with
      | .ok a, hr => hC a s hr
      | .error _, hr => hr)
    fun r s hr ↦ match r, hr with
      | .ok a, hr => hK a s hr
      | .error _, hr => hr

/-- A program none of whose steps leaves `H`. -/
theorem Keeps.spares {v : Verb σ ε α} (h : v.Keeps R H Q E' s) (hK : ∀ a s, Q a s → K a s) :
    v.Spares R H G C K E s :=
  Prog.Spares.imp (Prog.Keeps.spares h) (fun _ _ ↦ id) fun r s hr ↦ match r, hr with
    | .ok a, hr => hK a s hr
    | .error _, _ => trivial

theorem Spares.keeps {v : Verb σ ε α} (h : v.Spares R G G Q Q (fun _ ↦ True) s) :
    v.Keeps R G Q (fun _ ↦ True) s :=
  Prog.Spares.keeps (Prog.Spares.imp h (fun _ _ ↦ id) fun r _ hr ↦ match r, hr with
    | .ok _, hr => hr
    | .error _, _ => trivial)

theorem spares_bind {x : Verb σ ε α} {f : α → Verb σ ε β} {C K : β → σ → Prop}
    (hrefl : ∀ a, R a a)
    (h : x.Spares R H G (fun a s ↦ (f a).Keeps R G C E s) (fun a s ↦ (f a).Spares R H G C K E s) E
      s) :
    (x >>= f).Spares R H G C K E s :=
  Prog.Spares.bind hrefl (Prog.Spares.imp h
    (fun r _ hr ↦ match r, hr with
      | .ok _, hr => hr
      | .error _, hr => fun _ _ ↦ hr)
    fun r _ hr ↦ match r, hr with
      | .ok _, hr => hr
      | .error _, _ => fun _ _ ↦ trivial)

theorem spares_mapError {ε' : Type} {f : ε → ε'} {x : Verb σ ε α} {E' : ε' → Prop}
    (h : x.Spares R H G C K (fun e ↦ E' (f e)) s) : (x.mapError f).Spares R H G C K E' s :=
  Prog.Spares.map (Prog.Spares.imp h
    (fun r _ hr ↦ match r, hr with
      | .ok _, hr => hr
      | .error _, hr => hr)
    fun r _ hr ↦ match r, hr with
      | .ok _, hr => hr
      | .error _, hr => hr)

theorem spares_throw {e : ε} : (throw e : Verb σ ε α).Spares R H G C K E s := fun _ _ ↦ trivial

theorem spares_stuck [Inhabited ε] : (stuck : Verb σ ε α).Spares R H G C K E s :=
  fun _ _ h ↦ absurd h (by simp)

/-- What follows a program none of whose steps leaves `H`. -/
theorem Keeps.spares_bind {x : Verb σ ε α} {f : α → Verb σ ε β} {C K : β → σ → Prop}
    (hrefl : ∀ a, R a a) (h : x.Keeps R H Q E' s)
    (hf : ∀ a s, Q a s → (f a).Spares R H G C K E s) : (x >>= f).Spares R H G C K E s :=
  Verb.spares_bind hrefl (h.spares hf)

/-- One step that stays within `H`, or leaves it for good. -/
theorem spares_atom {ready : σ → Bool} {effect : σ → σ} {answer : σ → Except ε α}
    (h : ∀ s', R s s' → ready s' →
      (H s' (effect s') ∧ ∀ s'', R (effect s') s'' → ∀ a, answer s' = .ok a → K a s'') ∨
        G s' (effect s') ∧ ∀ s'', R (effect s') s'' →
          (∀ a, answer s' = .ok a → C a s'') ∧ ∀ e, answer s' = .error e → E e) :
    (atom ready effect answer).Spares R H G C K E s := by
  intro s' hs hr
  rcases h s' hs hr with ⟨hH, hK⟩ | ⟨hG, hC⟩
  · refine .inl ⟨hH, fun s'' hs'' ↦ ?_⟩
    cases ha : answer s' with
    | ok a => exact hK s'' hs'' a ha
    | error e => trivial
  · refine .inr ⟨hG, fun s'' hs'' ↦ ?_⟩
    obtain ⟨hok, herr⟩ := hC s'' hs''
    cases ha : answer s' with
    | ok a => exact hok a ha
    | error e => exact herr e ha

end Spares

/-- From `s` on, whatever the others do within `R`, the program is ready at each of its turns and
changes nothing in it, and after `n` of them it has ended, in `Q`. -/
def Looks (R : σ → σ → Prop) (Q : Except ε α → σ → Prop) (n : ℕ) (v : Verb σ ε α) (s : σ) : Prop :=
  Prog.Looks R Q n v s

section Looks

variable {R : σ → σ → Prop} {Q : Except ε β → σ → Prop} {s : σ} {n m : ℕ}

theorem looks_bind {x : Verb σ ε α} {f : α → Verb σ ε β} (hrefl : ∀ a, R a a)
    (h : x.Looks R (fun r s ↦ match r with
      | .ok a => (f a).Looks R Q m s
      | .error e => ∀ s', R s s' → Q (.error e) s') n s) :
    (x >>= f).Looks R Q (n + m) s :=
  Prog.Looks.bind hrefl (Prog.Looks.imp h fun r _ hr ↦
    match r, hr with
    | .ok _, hr => hr
    | .error _, hr => Prog.looks_done.mpr hr)

theorem looks_attempt {x : Verb σ ε α} {Q : Except ε (Except ε α) → σ → Prop}
    (hrefl : ∀ a, R a a) (h : x.Looks R (fun r s ↦ ∀ s', R s s' → Q (.ok r) s') n s) :
    (attempt x).Looks R Q n s :=
  Prog.Looks.bind (m := 0) hrefl (Prog.Looks.imp h fun _ _ hr ↦ Prog.looks_done.mpr hr)

theorem looks_pure {b : β} (h : ∀ s', R s s' → Q (.ok b) s') :
    (pure b : Verb σ ε β).Looks R Q n s :=
  Prog.looks_done.mpr h

theorem looks_throw {e : ε} (h : ∀ s', R s s' → Q (.error e) s') :
    (throw e : Verb σ ε β).Looks R Q n s :=
  Prog.looks_done.mpr h

theorem looks_look {answer : σ → Except ε β}
    (h : ∀ s', R s s' → ∀ s'', R s' s'' → Q (answer s') s'') : (look answer).Looks R Q 1 s :=
  fun s' hs ↦ ⟨rfl, rfl, h s' hs⟩

end Looks

end Verb

/-! ## Any number of programs -/

/-- A shared state and the programs that run on it, each with what it was started for. -/
structure Pool (σ α C : Type) where
  state : σ
  threads : List (C × Prog σ α)

/-- What happens next: the surroundings change, a program starts, one takes its turn, or everything
stops and starts anew. -/
inductive Turn (E D C : Type)
  | env (e : E)
  | spawn (c : C)
  | turn (i : ℕ)
  | restart (d : D)

/-- What a turn starts a program for. -/
def Turn.spawned? {E D C : Type} : Turn E D C → Option C
  | .spawn c => some c
  | _ => none

namespace Pool

variable {σ α C E D : Type} (env : E → σ → σ) (restart : D → σ → σ) (prog : C → Prog σ α)

def move (w : Pool σ α C) : Turn E D C → Pool σ α C
  | .env e => { w with state := env e w.state }
  | .spawn c => { w with threads := w.threads ++ [(c, prog c)] }
  | .turn i =>
    match w.threads[i]? with
    | none => w
    | some (c, p) => ⟨(p.turn w.state).2, w.threads.set i (c, (p.turn w.state).1)⟩
  | .restart d => ⟨restart d w.state, []⟩

def run (s : σ) (turns : List (Turn E D C)) : Pool σ α C :=
  turns.foldl (move env restart prog) ⟨s, []⟩

/-- The answer of the program at `i`, where it is done. -/
def answer? (w : Pool σ α C) (i : ℕ) : Option α := w.threads[i]?.bind (·.2.answer?)

theorem answer?_eq_some {w : Pool σ α C} {i : ℕ} {a : α} :
    w.answer? i = some a ↔ ∃ c, w.threads[i]? = some (c, .done a) := by
  simp [answer?, Option.bind_eq_some_iff, Prog.answer?_eq_some]

variable {env restart prog}

theorem run_append (s : σ) (pre post : List (Turn E D C)) :
    run env restart prog s (pre ++ post) =
      post.foldl (move env restart prog) (run env restart prog s pre) := by
  rw [run, List.foldl_append, ← run]

section Started

variable (env restart prog) in
/-- The programs that turns start, in their order, each with the state it is started in. -/
def started (w : Pool σ α C) : List (Turn E D C) → List (C × σ)
  | [] => []
  | .spawn c :: turns => (c, w.state) :: started (move env restart prog w (.spawn c)) turns
  | .env e :: turns => started (move env restart prog w (.env e)) turns
  | .turn i :: turns => started (move env restart prog w (.turn i)) turns
  | .restart d :: turns => started (move env restart prog w (.restart d)) turns

theorem mem_started {w : Pool σ α C} {pre post : List (Turn E D C)} {c : C} :
    (c, (pre.foldl (move env restart prog) w).state) ∈
      started env restart prog w (pre ++ .spawn c :: post) := by
  induction pre generalizing w with
  | nil => exact List.mem_cons_self
  | cons m pre ih =>
    cases m with
    | spawn c' => exact List.mem_cons_of_mem _ ih
    | _ => exact ih

theorem started_fst (w : Pool σ α C) (turns : List (Turn E D C)) :
    (started env restart prog w turns).map (·.1) = turns.filterMap Turn.spawned? := by
  induction turns generalizing w with
  | nil => rfl
  | cons m turns ih =>
    cases m with
    | spawn c => exact congrArg (c :: ·) (ih _)
    | _ => exact ih _

end Started

section Threads

variable {R : σ → σ → Prop} {I : σ → Prop} {T : C → Prog σ α → σ → Prop}

/-- What every turn preserves of a program, and the others' turns do too, a move preserves of all.
-/
theorem threads_move (hI : ∀ {a b}, I a → R a b → I b) (henv : ∀ e a, I a → R a (env e a))
    (hrestart : ∀ d a, I a → I (restart d a)) (hprog : ∀ c a, I a → T c (prog c) a)
    (hmono : ∀ {c p a b}, T c p a → R a b → T c p b)
    (hturn : ∀ {c p a}, T c p a → R a (p.turn a).2 ∧ T c (p.turn a).1 (p.turn a).2)
    {w : Pool σ α C} (h : I w.state ∧ ∀ t ∈ w.threads, T t.1 t.2 w.state) (m : Turn E D C) :
    I (move env restart prog w m).state ∧ ∀ t ∈ (move env restart prog w m).threads,
      T t.1 t.2 (move env restart prog w m).state := by
  obtain ⟨hi, hk⟩ := h
  cases m with
  | env e =>
    have hR := henv e w.state hi
    exact ⟨hI hi hR, fun t ht ↦ hmono (hk t ht) hR⟩
  | spawn c =>
    refine ⟨hi, fun t ht ↦ ?_⟩
    rcases List.mem_append.mp ht with ht | ht
    · exact hk t ht
    · rw [List.mem_singleton.mp ht]
      exact hprog c w.state hi
  | turn i =>
    rw [move]
    split
    · exact ⟨hi, hk⟩
    · rename_i c p hp
      obtain ⟨hR, hp'⟩ := hturn (hk (c, p) (List.mem_of_getElem? hp))
      refine ⟨hI hi hR, fun t ht ↦ ?_⟩
      rcases List.mem_or_eq_of_mem_set ht with ht | rfl
      · exact hmono (hk t ht) hR
      · exact hp'
  | restart d => exact ⟨hrestart d w.state hi, by simp [move]⟩

/-- **It holds of every program of a run.** -/
theorem threads_run (hI : ∀ {a b}, I a → R a b → I b) (henv : ∀ e a, I a → R a (env e a))
    (hrestart : ∀ d a, I a → I (restart d a)) (hprog : ∀ c a, I a → T c (prog c) a)
    (hmono : ∀ {c p a b}, T c p a → R a b → T c p b)
    (hturn : ∀ {c p a}, T c p a → R a (p.turn a).2 ∧ T c (p.turn a).1 (p.turn a).2) {s : σ}
    (hs : I s) (turns : List (Turn E D C)) :
    I (run env restart prog s turns).state ∧
      ∀ t ∈ (run env restart prog s turns).threads,
        T t.1 t.2 (run env restart prog s turns).state := by
  induction turns using List.reverseRecOn with
  | nil => exact ⟨hs, by simp [run]⟩
  | append_singleton turns m ih =>
    rw [run_append, List.foldl_cons, List.foldl_nil]
    exact threads_move (I := I) (T := T) hI henv hrestart hprog hmono hturn ih m

/-- A program keeps its place, and what its own turns and the others' preserve of it, until the next
restart. -/
theorem follow_run {U : Prog σ α → σ → Prop}
    (hI : ∀ {a b}, I a → R a b → I b) (henv : ∀ e a, I a → R a (env e a))
    (hrestart : ∀ d a, I a → I (restart d a)) (hprog : ∀ c a, I a → T c (prog c) a)
    (hmono : ∀ {c p a b}, T c p a → R a b → T c p b)
    (hturn : ∀ {c p a}, T c p a → R a (p.turn a).2 ∧ T c (p.turn a).1 (p.turn a).2)
    (hUmono : ∀ {p a b}, U p a → R a b → U p b)
    (hUturn : ∀ {p a}, U p a → U (p.turn a).1 (p.turn a).2)
    {w : Pool σ α C} (h : I w.state ∧ ∀ t ∈ w.threads, T t.1 t.2 w.state)
    {post : List (Turn E D C)} (hpost : ∀ d, .restart d ∉ post) {i : ℕ} {c : C} {p : Prog σ α}
    (hp : w.threads[i]? = some (c, p)) (hU : U p w.state) :
    ∃ p', (post.foldl (move env restart prog) w).threads[i]? = some (c, p') ∧
      U p' (post.foldl (move env restart prog) w).state := by
  induction post generalizing w p with
  | nil => exact ⟨p, hp, hU⟩
  | cons m post ih =>
    have h' := threads_move (I := I) (T := T) hI henv hrestart hprog hmono hturn h m
    have hpost' : ∀ d, .restart d ∉ post := fun d hd ↦ hpost d (List.mem_cons_of_mem _ hd)
    rw [List.foldl_cons]
    cases m with
    | env e => exact ih h' hpost' hp (hUmono hU (henv e w.state h.1))
    | spawn c' =>
      refine ih h' hpost' ?_ hU
      rw [move, List.getElem?_append_left (List.getElem?_eq_some_iff.mp hp).1, hp]
    | turn j =>
      have hmove : (move env restart prog w (.turn j : Turn E D C)) = match w.threads[j]? with
        | none => w
        | some (c, p) => ⟨(p.turn w.state).2, w.threads.set j (c, (p.turn w.state).1)⟩ := rfl
      cases hj : w.threads[j]? with
      | none =>
        rw [hj] at hmove
        rw [hmove] at h' ⊢
        exact ih h' hpost' hp hU
      | some q =>
        rw [hj] at hmove
        rw [hmove] at h' ⊢
        by_cases hij : j = i
        · subst hij
          obtain rfl := Option.some.inj (hj.symm.trans hp)
          refine ih h' hpost' ?_ (hUturn hU)
          rw [List.getElem?_set_self (List.getElem?_eq_some_iff.mp hp).1]
        · refine ih h' hpost' ?_ (hUmono hU (hturn (h.2 q (List.mem_of_getElem? hj))).1)
          rw [List.getElem?_set_ne hij, hp]
    | restart d => exact absurd List.mem_cons_self (hpost d)

end Threads

section Keeps

variable {R G : σ → σ → Prop} {I : σ → Prop} {Q : C → α → σ → Prop} {s : σ}

/-- **Programs that keep to `R` keep what `R` keeps, in any order of turns.** -/
theorem keeps_run (hrefl : ∀ a, R a a) (htrans : ∀ {a b c}, R a b → R b c → R a c)
    (hidle : ∀ a, G a a) (hG : ∀ {a b}, G a b → R a b)
    (hI : ∀ {a b}, I a → R a b → I b) (henv : ∀ e a, I a → R a (env e a))
    (hrestart : ∀ d a, I a → I (restart d a))
    (hprog : ∀ c a, I a → (prog c).Keeps R G (Q c) a) (hs : I s) (turns : List (Turn E D C)) :
    I (run env restart prog s turns).state ∧
      ∀ t ∈ (run env restart prog s turns).threads,
        t.2.Keeps R G (Q t.1) (run env restart prog s turns).state :=
  threads_run (I := I) (T := fun c p a ↦ p.Keeps R G (Q c) a) hI henv hrestart hprog
    (fun h hR ↦ h.mono htrans hR) (fun h ↦ (h.turn hrefl hidle).imp_left hG) hs turns

/-- A turn of a program that keeps to `G` is within `G`. -/
theorem keeps_turn (hrefl : ∀ a, R a a) (hidle : ∀ a, G a a) {w : Pool σ α C}
    (hk : ∀ t ∈ w.threads, t.2.Keeps R G (Q t.1) w.state) (i : ℕ) :
    G w.state (move env restart prog w (.turn i : Turn E D C)).state := by
  rw [move]
  split
  · exact hidle w.state
  · rename_i c p hp
    exact ((hk (c, p) (List.mem_of_getElem? hp)).turn hrefl hidle).1

/-- The programs that run were started. -/
theorem spawned_of_mem (s : σ) (turns : List (Turn E D C)) {t : C × Prog σ α}
    (ht : t ∈ (run env restart prog s turns).threads) : .spawn t.1 ∈ turns := by
  induction turns using List.reverseRecOn generalizing t with
  | nil => simp [run] at ht
  | append_singleton turns m ih =>
    rw [run_append, List.foldl_cons, List.foldl_nil] at ht
    cases m with
    | env e => exact List.mem_append_left _ (ih ht)
    | spawn c =>
      rcases List.mem_append.mp ht with ht | ht
      · exact List.mem_append_left _ (ih ht)
      · rw [List.mem_singleton.mp ht]
        simp
    | turn i =>
      refine List.mem_append_left _ ?_
      rw [move] at ht
      split at ht
      · exact ih ht
      · rename_i c p hp
        rcases List.mem_or_eq_of_mem_set ht with ht | rfl
        · exact ih ht
        · exact ih (t := (c, p)) (List.mem_of_getElem? hp)
    | restart d => cases ht

/-- A turn changes nothing, or is a step of a program that was started, within what it keeps to. -/
theorem spawned_turn {G : C → σ → σ → Prop} {Q : C → α → σ → Prop} (hrefl : ∀ a, R a a)
    (hidle : ∀ c a, G c a a) {s : σ} {turns : List (Turn E D C)}
    (hk : ∀ t ∈ (run env restart prog s turns).threads,
      t.2.Keeps R (G t.1) (Q t.1) (run env restart prog s turns).state) (i : ℕ) :
    (run env restart prog s (turns ++ [.turn i])).state = (run env restart prog s turns).state ∨
      ∃ c, .spawn c ∈ turns ∧ G c (run env restart prog s turns).state
        (run env restart prog s (turns ++ [.turn i])).state := by
  rw [run_append, List.foldl_cons, List.foldl_nil, move]
  split
  · exact .inl rfl
  · rename_i c p hp
    have hmem := List.mem_of_getElem? hp
    exact .inr ⟨c, spawned_of_mem s turns hmem, ((hk (c, p) hmem).turn hrefl (hidle c)).1⟩

/-- **A program that ends in `B` has taken only steps within `H`**, where it spares what is not. -/
theorem spares_run {H : C → σ → σ → Prop} {V : C → Prop} {B : α → Prop} (hrefl : ∀ a, R a a)
    (htrans : ∀ {a b c}, R a b → R b c → R a c) (hidle : ∀ a, G a a)
    (hG : ∀ {a b}, G a b → R a b) (hI : ∀ {a b}, I a → R a b → I b)
    (henv : ∀ e a, I a → R a (env e a)) (hrestart : ∀ d a, I a → I (restart d a))
    (hprog : ∀ c a, I a → (prog c).Keeps R G (Q c) a) (hH : ∀ c a, H c a a)
    (hspares : ∀ c a, V c → I a →
      (prog c).Spares R (H c) (fun _ _ ↦ True) (fun r _ ↦ ¬ B r) (fun _ _ ↦ True) a)
    (hs : I s) {pre post : List (Turn E D C)} {i : ℕ} {c : C} {r : α}
    (hpost : ∀ d, .restart d ∉ post)
    (hend : (run env restart prog s (pre ++ .turn i :: post)).threads[i]? = some (c, .done r))
    (hV : V c) (hB : B r) :
    H c (run env restart prog s pre).state
      (run env restart prog s (pre ++ [.turn i])).state := by
  -- Each program spares what it should, or does not end in `B`.
  let T (c : C) (p : Prog σ α) (a : σ) : Prop :=
    p.Keeps R G (Q c) a ∧ (V c →
      p.Spares R (H c) (fun _ _ ↦ True) (fun r _ ↦ ¬ B r) (fun _ _ ↦ True) a ∨
        p.Keeps R (fun _ _ ↦ True) (fun r _ ↦ ¬ B r) a)
  have hT : ∀ c a, I a → T c (prog c) a := fun c a ha ↦
    ⟨hprog c a ha, fun hv ↦ .inl (hspares c a hv ha)⟩
  have hmono : ∀ {c p a b}, T c p a → R a b → T c p b := fun h hR ↦
    ⟨h.1.mono htrans hR, fun hv ↦ (h.2 hv).imp (·.mono htrans hR) (·.mono htrans hR)⟩
  have hturn : ∀ {c p a}, T c p a → R a (p.turn a).2 ∧ T c (p.turn a).1 (p.turn a).2 := by
    intro c p a h
    obtain ⟨hg, hk⟩ := h.1.turn hrefl hidle
    refine ⟨hG hg, hk, fun hv ↦ ?_⟩
    rcases h.2 hv with hsp | hno
    · exact (hsp.turn hrefl (hH c)).imp_left (·.2)
    · exact .inr (hno.turn hrefl fun _ ↦ trivial).2
  have hrun := threads_run (I := I) (T := T) hI henv hrestart hT hmono hturn hs pre
  rw [run_append, List.foldl_cons] at hend
  rw [run_append, List.foldl_cons, List.foldl_nil]
  set w := run env restart prog s pre
  have hmove : (move env restart prog w (.turn i : Turn E D C)) = match w.threads[i]? with
    | none => w
    | some (c, p) => ⟨(p.turn w.state).2, w.threads.set i (c, (p.turn w.state).1)⟩ := rfl
  have hrun' := threads_move (I := I) (T := T) hI henv hrestart hT hmono hturn hrun (.turn i : Turn E D C)
  cases hi : w.threads[i]? with
  | none =>
    rw [hi] at hmove
    rw [hmove]
    exact hH c w.state
  | some q =>
    obtain ⟨c', p⟩ := q
    rw [hi] at hmove
    rw [hmove] at hend hrun' ⊢
    have hat : (w.threads.set i (c', (p.turn w.state).1))[i]? = some (c', (p.turn w.state).1) :=
      List.getElem?_set_self (List.getElem?_eq_some_iff.mp hi).1
    -- It is the same program that ends.
    have hc : c' = c := by
      obtain ⟨p', hp', -⟩ := follow_run (I := I) (T := T) (U := fun _ _ ↦ True) hI henv hrestart hT hmono hturn
        (fun _ _ ↦ trivial) (fun _ ↦ trivial) hrun' hpost hat trivial
      rw [hend] at hp'
      exact (Prod.mk.inj (Option.some.inj hp')).1.symm
    subst hc
    have hno : ¬ (p.turn w.state).1.Keeps R (fun _ _ ↦ True) (fun r _ ↦ ¬ B r)
        (p.turn w.state).2 := by
      intro hno
      obtain ⟨p', hp', hU⟩ := follow_run (I := I) (T := T)
        (U := fun p a ↦ p.Keeps R (fun _ _ ↦ True) (fun r _ ↦ ¬ B r) a) hI henv hrestart hT
        hmono hturn (·.mono htrans) (fun h ↦ (h.turn hrefl fun _ ↦ trivial).2) hrun' hpost hat hno
      rw [hend] at hp'
      obtain rfl := (Prod.mk.inj (Option.some.inj hp')).2
      exact hU _ (hrefl _) hB
    rcases (hrun.2 (c', p) (List.mem_of_getElem? hi)).2 hV with hsp | hk
    · rcases hsp.turn hrefl (hH c') with ⟨hHH, -⟩ | hk
      · exact hHH
      · exact absurd hk hno
    · exact absurd (hk.turn hrefl fun _ ↦ trivial).2 hno

end Keeps

section Looks

/-- How many turns the program at `i` is given. -/
def turnsOf (i : ℕ) (turns : List (Turn E D C)) : ℕ :=
  turns.countP fun
    | .turn j => j = i
    | _ => false

variable {R : σ → σ → Prop} {Q : α → σ → Prop}

/-- A program that only looks changes nothing in its turns, and has ended once it was given
enough. -/
theorem looks_run (hrefl : ∀ a, R a a) (htrans : ∀ {a b c}, R a b → R b c → R a c)
    {w : Pool σ α C} {turns : List (Turn E D C)} (hturns : ∀ d, .restart d ∉ turns)
    (hR : ∀ pre m post, turns = pre ++ m :: post →
      R (pre.foldl (move env restart prog) w).state
        (move env restart prog (pre.foldl (move env restart prog) w) m).state)
    {i n : ℕ} {c : C} {p : Prog σ α} (hp : w.threads[i]? = some (c, p))
    (hl : p.Looks R Q n w.state) :
    (∀ pre post, turns = pre ++ .turn i :: post →
      (move env restart prog (pre.foldl (move env restart prog) w) (.turn i : Turn E D C)).state =
        (pre.foldl (move env restart prog) w).state) ∧
    ∃ p', (turns.foldl (move env restart prog) w).threads[i]? = some (c, p') ∧
      p'.Looks R Q (n - turnsOf i turns) (turns.foldl (move env restart prog) w).state := by
  induction turns generalizing w p n with
  | nil => exact ⟨by simp, p, hp, hl⟩
  | cons m turns ih =>
    have hR₀ := hR [] m turns rfl
    have hrest (m : Turn E D C) (n : ℕ) {p' : Prog σ α}
        (hturns : ∀ d, .restart d ∉ m :: turns)
        (hR : ∀ pre m' post, m :: turns = pre ++ m' :: post →
          R (pre.foldl (move env restart prog) w).state
            (move env restart prog (pre.foldl (move env restart prog) w) m').state)
        (hidle : m = .turn i → (move env restart prog w m).state = w.state)
        (hp' : (move env restart prog w m).threads[i]? = some (c, p'))
        (hl' : p'.Looks R Q n (move env restart prog w m).state) :
        (∀ pre post, m :: turns = pre ++ .turn i :: post →
          (move env restart prog (pre.foldl (move env restart prog) w)
            (.turn i : Turn E D C)).state = (pre.foldl (move env restart prog) w).state) ∧
        ∃ p'', ((m :: turns).foldl (move env restart prog) w).threads[i]? = some (c, p'') ∧
          p''.Looks R Q (n - turnsOf i turns)
            ((m :: turns).foldl (move env restart prog) w).state := by
      obtain ⟨hid, hend⟩ := ih (fun d hd ↦ hturns d (List.mem_cons_of_mem _ hd))
        (fun pre m' post h ↦ hR (m :: pre) m' post (by rw [h]; rfl)) hp' hl'
      refine ⟨fun pre post h ↦ ?_, hend⟩
      cases pre with
      | nil =>
        obtain ⟨rfl, -⟩ := List.cons.inj h
        exact hidle rfl
      | cons m' pre =>
        obtain ⟨rfl, hrest⟩ := List.cons.inj h
        exact hid pre post hrest
    have hcount : ∀ m : Turn E D C, m ≠ .turn i → turnsOf i (m :: turns) = turnsOf i turns := by
      intro m hm
      rw [turnsOf, List.countP_cons_of_neg, turnsOf]
      cases m with
      | turn j => simpa using hm
      | _ => simp
    cases m with
    | env e =>
      rw [hcount _ (by simp)]
      exact hrest _ n hturns hR (fun h ↦ (nomatch h)) hp (hl.mono htrans hR₀)
    | spawn c' =>
      rw [hcount _ (by simp)]
      refine hrest _ n hturns hR (fun h ↦ (nomatch h)) ?_ hl
      rw [move, List.getElem?_append_left (List.getElem?_eq_some_iff.mp hp).1, hp]
    | turn j =>
      have hmove : (move env restart prog w (.turn j : Turn E D C)) = match w.threads[j]? with
        | none => w
        | some (c, p) => ⟨(p.turn w.state).2, w.threads.set j (c, (p.turn w.state).1)⟩ := rfl
      by_cases hij : j = i
      · subst hij
        obtain ⟨hs, hl'⟩ := hl.turn hrefl
        rw [hp] at hmove
        have hn : n - turnsOf j ((.turn j : Turn E D C) :: turns) = n - 1 - turnsOf j turns := by
          rw [turnsOf, List.countP_cons_of_pos (by simp), turnsOf]
          omega
        rw [hn]
        refine @hrest _ (n - 1) (p.turn w.state).1 hturns hR (fun _ ↦ ?_) ?_ ?_
        · rw [hmove]
          exact hs
        · rw [hmove]
          exact List.getElem?_set_self (List.getElem?_eq_some_iff.mp hp).1
        · rw [hmove]
          dsimp only
          rwa [hs]
      · rw [hcount _ (fun h ↦ hij (Turn.turn.inj h))]
        refine hrest _ n hturns hR (fun h ↦ absurd (Turn.turn.inj h) hij) ?_
          (hl.mono htrans hR₀)
        cases hj : w.threads[j]? with
        | none =>
          rw [hj] at hmove
          rw [hmove, hp]
        | some q =>
          rw [hj] at hmove
          rw [hmove, List.getElem?_set_ne hij, hp]
    | restart d => exact absurd List.mem_cons_self (hturns d)

/-- **A program that only looks, from where it is started on.** -/
theorem looks_spawn (hrefl : ∀ a, R a a) (htrans : ∀ {a b c}, R a b → R b c → R a c) {s : σ}
    {pre post : List (Turn E D C)} {c : C} {n i : ℕ}
    (hi : i = (run env restart prog s pre).threads.length) (hpost : ∀ d, .restart d ∉ post)
    (hR : ∀ p m q, post = p ++ m :: q → R (run env restart prog s (pre ++ .spawn c :: p)).state
      (run env restart prog s (pre ++ .spawn c :: (p ++ [m]))).state)
    (hl : (prog c).Looks R Q n (run env restart prog s pre).state) :
    (∀ p q, post = p ++ .turn i :: q →
      (run env restart prog s (pre ++ .spawn c :: (p ++ [.turn i]))).state =
        (run env restart prog s (pre ++ .spawn c :: p)).state) ∧
    (n ≤ turnsOf i post → ∃ r,
      (run env restart prog s (pre ++ .spawn c :: post)).answer? i = some r ∧
        Q r (run env restart prog s (pre ++ .spawn c :: post)).state) := by
  have hfold (p : List (Turn E D C)) : run env restart prog s (pre ++ .spawn c :: p) =
      p.foldl (move env restart prog) (run env restart prog s (pre ++ [.spawn c])) := by
    rw [List.append_cons, run_append]
  have hsnoc (p : List (Turn E D C)) (m : Turn E D C) :
      run env restart prog s (pre ++ .spawn c :: (p ++ [m])) =
        move env restart prog (p.foldl (move env restart prog)
          (run env restart prog s (pre ++ [.spawn c]))) m := by
    rw [hfold, List.foldl_append, List.foldl_cons, List.foldl_nil]
  have hstart : run env restart prog s (pre ++ [.spawn c]) =
      ⟨(run env restart prog s pre).state, (run env restart prog s pre).threads ++ [(c, prog c)]⟩ := by
    rw [run_append]
    rfl
  have hthread : (run env restart prog s (pre ++ [.spawn c])).threads[i]? = some (c, prog c) := by
    rw [hstart, hi]
    exact List.getElem?_concat_length
  obtain ⟨hidle, p', hp', hend⟩ := looks_run hrefl htrans hpost
    (fun p m q h ↦ by
      have hstep := hR p m q h
      rwa [hsnoc, hfold p] at hstep)
    hthread (by rwa [hstart])
  refine ⟨fun p q h ↦ ?_, fun hn ↦ ?_⟩
  · rw [hsnoc, hfold p]
    exact hidle p q h
  · rw [← hfold post] at hp' hend
    rw [Nat.sub_eq_zero_of_le hn] at hend
    cases p' with
    | step ready effect next => exact hend.elim
    | done r =>
      exact ⟨r, answer?_eq_some.mpr ⟨c, hp'⟩, Prog.looks_done.mp hend _ (hrefl _)⟩

end Looks

end Pool
