import Mathlib.Data.Finset.Lattice.Lemmas
import Spira.Lib.Binary64
import Spira.Lib.Chain
import Spira.Lib.Text

/-!
# Distances

A section's distance is an expression over its own numeric status fields: numbers, names, the four
operations, `max`, `min` and parentheses.  The text is cut into tokens (`lex`), and the tokens are
read by descent through the grammar's levels (`expr`, `term`, `factor`).

## What is here

* `Sentence` — the grammar, with the tree that each sentence stands for.
* `parseToks_eq_ok` — the parser reads the sentences of the grammar, and nothing else.
* `render`, `print` — an expression in tokens and in text, with the parentheses that grouping needs.
* `eval_eq_error`, `eval_eq_ok` — when an expression has no value, and which one it has otherwise.
-/

set_option autoImplicit false

namespace Spira.DesiredState.Distance

open Binary64 (decimal)
open Chain
open Digits (digit_bounds)

inductive Expr
  | num (q : ℚ)
  | field (f : String)
  | add (a b : Expr)
  | sub (a b : Expr)
  | mul (a b : Expr)
  | div (a b : Expr)
  | max (a b : Expr)
  | min (a b : Expr)
  deriving DecidableEq

inductive Tok
  | num (q : ℚ)
  | ident (name : String)
  | plus
  | minus
  | times
  | slash
  | opn
  | close
  | comma
  deriving DecidableEq

inductive ParseError
  /-- `text` is not a number. -/
  | number (text : String)
  /-- `c` is outside the distance grammar. -/
  | outside (c : Char)
  /-- Expected `what`. -/
  | expected (what : String)
  /-- Unexpected `t`. -/
  | unexpected (t : Tok)
  /-- Unexpected `t` after the expression. -/
  | after (t : Tok)
  /-- The expression ends early. -/
  | early
  deriving DecidableEq

/-! ## The text -/

def symbol : Char → Option Tok
  | '+' => some .plus
  | '-' | '−' => some .minus
  | '*' | '×' => some .times
  | '/' => some .slash
  | '(' => some .opn
  | ')' => some .close
  | ',' => some .comma
  | _ => none

/-- What goes on with a number. -/
def inNumber (c : Char) : Bool := c.isDigit || c = '.'

/-- What goes on with a name. -/
def inName (c : Char) : Bool := c.isLower || c.isDigit || c = '_'

@[grind =] def lex : List Char → Except ParseError (List Tok)
  | [] => .ok []
  | c :: s =>
    if Text.isWhite c then lex s
    else
      match symbol c with
      | some t => do .ok (t :: (← lex s))
      | none =>
        if c.isDigit then
          let text := c :: s.takeWhile inNumber
          match decimal text with
          | none => .error (.number (String.ofList text))
          | some q => do .ok (.num q :: (← lex (s.dropWhile inNumber)))
        else if c.isLower ∨ c = '_' then do
          .ok (.ident (String.ofList (c :: s.takeWhile inName)) :: (← lex (s.dropWhile inName)))
        else .error (.outside c)
termination_by s => s.length
decreasing_by
  all_goals have := List.length_dropWhile_le inNumber s
  all_goals have := List.length_dropWhile_le inName s
  all_goals rw [List.length_cons]; omega

/-! ## The tokens -/

def expect (want : Tok) (what : String) : List Tok → Except ParseError (List Tok)
  | t :: l => if t = want then .ok l else .error (.expected what)
  | [] => .error (.expected what)

def addOp : Tok → Option (Expr → Expr → Expr)
  | .plus => some .add
  | .minus => some .sub
  | _ => none

def mulOp : Tok → Option (Expr → Expr → Expr)
  | .times => some .mul
  | .slash => some .div
  | _ => none

/-- A factor, where `expr` reads the expressions in it. -/
def factorOf (expr : Reader Tok ParseError Expr) : Reader Tok ParseError Expr
  | .num q :: l => .ok (.num q, l)
  | .opn :: l => do
    let (e, l) ← expr l
    let l ← expect .close "')'" l
    .ok (e, l)
  | .ident name :: l =>
    if name = "max" ∨ name = "min" then do
      let l ← expect .opn s!"'(' after {name}" l
      let (a, l) ← expr l
      let l ← expect .comma (s!"',' between {name}" ++ "'s arguments") l
      let (b, l) ← expr l
      let l ← expect .close s!"')' closing {name}" l
      .ok (if name = "max" then .max a b else .min a b, l)
    else .ok (.field name, l)
  | t :: _ => .error (.unexpected t)
  | [] => .error .early

/-- A factor of at most `n` tokens. -/
@[grind =] def factor : ℕ → Reader Tok ParseError Expr
  | 0 => fun _ ↦ .error .early
  | n + 1 => factorOf (chain addOp (chain mulOp (factor n)))

def term (n : ℕ) : Reader Tok ParseError Expr := chain mulOp (factor n)

def expr (n : ℕ) : Reader Tok ParseError Expr := chain addOp (term n)

/-- Every factor takes a token off, so no more of them are nested than there are tokens. -/
def parseToks (toks : List Tok) : Except ParseError Expr := do
  match ← expr toks.length toks with
  | (e, []) => .ok e
  | (_, t :: _) => .error (.after t)

def parse (src : String) : Except ParseError Expr := do parseToks (← lex src.toList)

/-! ## The value -/

/-- Every status field the expression reads. -/
@[grind =] def Expr.fields : Expr → Finset String
  | num _ => ∅
  | field f => {f}
  | add a b | sub a b | mul a b | div a b | max a b | min a b => a.fields ∪ b.fields

inductive EvalError
  /-- `f` has no numeric value. -/
  | noValue (f : String)
  /-- Division by zero. -/
  | zero
  deriving DecidableEq

/-- The value with each field read through `field`. -/
@[grind =] def Expr.eval (field : String → Option ℚ) : Expr → Except EvalError ℚ
  | num q => .ok q
  | .field f =>
    match field f with
    | some q => .ok q
    | none => .error (.noValue f)
  | add a b => do .ok ((← a.eval field) + (← b.eval field))
  | sub a b => do .ok ((← a.eval field) - (← b.eval field))
  | mul a b => do .ok ((← a.eval field) * (← b.eval field))
  | div a b => do
    let a ← a.eval field
    let b ← b.eval field
    if b = 0 then .error .zero else .ok (a / b)
  | max a b => do .ok (Max.max (← a.eval field) (← b.eval field))
  | min a b => do .ok (Min.min (← a.eval field) (← b.eval field))

/-! ## The grammar -/

inductive Level
  | factor
  | term
  | expr
  deriving DecidableEq

/-- The tokens of a sentence, and its tree: operators of one level group to the left, and those of a
term bind tighter. -/
inductive Sentence : Level → List Tok → Expr → Prop
  | num (q : ℚ) : Sentence .factor [.num q] (.num q)
  | field {f : String} : f ≠ "max" → f ≠ "min" → Sentence .factor [.ident f] (.field f)
  | paren {ts : List Tok} {e : Expr} : Sentence .expr ts e →
      Sentence .factor (.opn :: ts ++ [.close]) e
  | max {ts us : List Tok} {a b : Expr} : Sentence .expr ts a → Sentence .expr us b →
      Sentence .factor (.ident "max" :: .opn :: ts ++ .comma :: us ++ [.close]) (.max a b)
  | min {ts us : List Tok} {a b : Expr} : Sentence .expr ts a → Sentence .expr us b →
      Sentence .factor (.ident "min" :: .opn :: ts ++ .comma :: us ++ [.close]) (.min a b)
  | factor {ts : List Tok} {e : Expr} : Sentence .factor ts e → Sentence .term ts e
  | mul {ts us : List Tok} {a b : Expr} : Sentence .term ts a → Sentence .factor us b →
      Sentence .term (ts ++ .times :: us) (.mul a b)
  | div {ts us : List Tok} {a b : Expr} : Sentence .term ts a → Sentence .factor us b →
      Sentence .term (ts ++ .slash :: us) (.div a b)
  | term {ts : List Tok} {e : Expr} : Sentence .term ts e → Sentence .expr ts e
  | add {ts us : List Tok} {a b : Expr} : Sentence .expr ts a → Sentence .term us b →
      Sentence .expr (ts ++ .plus :: us) (.add a b)
  | sub {ts us : List Tok} {a b : Expr} : Sentence .expr ts a → Sentence .term us b →
      Sentence .expr (ts ++ .minus :: us) (.sub a b)

variable {n : ℕ} {ts us l r rest toks : List Tok} {e a b : Expr} {t : Tok}

theorem expect_eq_ok {want : Tok} {what : String} : expect want what l = .ok r ↔ l = want :: r := by
  cases l with
  | nil => exact iff_of_false nofun nofun
  | cons t l =>
    rw [expect]
    split
    · rename_i h
      rw [h, List.cons.injEq, Except.ok.injEq]
      exact (and_iff_right rfl).symm
    · rename_i h
      exact iff_of_false nofun fun heq ↦ h (List.cons.inj heq).1

/-! ## What is read is a sentence -/

theorem factorOf_sound {sub : Reader Tok ParseError Expr}
    (hsub : ∀ {l e r}, sub l = .ok (e, r) → ∃ us, l = us ++ r ∧ Sentence .expr us e)
    (h : factorOf sub l = .ok (e, r)) : ∃ us, l = us ++ r ∧ Sentence .factor us e := by
  unfold factorOf at h
  split at h
  · rename_i q l
    cases h
    exact ⟨[.num q], rfl, .num q⟩
  · obtain ⟨⟨c, l₁⟩, hc, h⟩ := bind_eq_ok.mp h
    obtain ⟨l₂, hclose, h⟩ := bind_eq_ok.mp h
    cases h
    obtain rfl := expect_eq_ok.mp hclose
    obtain ⟨us, rfl, hus⟩ := hsub hc
    exact ⟨_, by simp only [List.cons_append, List.append_assoc, List.nil_append], .paren hus⟩
  · rename_i name l
    split at h
    · rename_i hname
      obtain ⟨l₁, hopn, h₁⟩ := bind_eq_ok.mp h
      obtain ⟨⟨c, l₂⟩, hc, h₂⟩ := bind_eq_ok.mp h₁
      obtain ⟨l₃, hcomma, h₃⟩ := bind_eq_ok.mp h₂
      obtain ⟨⟨d, l₄⟩, hd, h₄⟩ := bind_eq_ok.mp h₃
      obtain ⟨l₅, hclose, h₅⟩ := bind_eq_ok.mp h₄
      obtain rfl := expect_eq_ok.mp hopn
      obtain rfl := expect_eq_ok.mp hcomma
      obtain rfl := expect_eq_ok.mp hclose
      obtain ⟨us, rfl, hus⟩ := hsub hc
      obtain ⟨vs, rfl, hvs⟩ := hsub hd
      rcases hname with rfl | rfl
      · cases h₅
        exact ⟨_, by simp only [List.cons_append, List.append_assoc, List.nil_append], .max hus hvs⟩
      · cases h₅
        exact ⟨_, by simp only [List.cons_append, List.append_assoc, List.nil_append], .min hus hvs⟩
    · rename_i hname
      cases h
      exact ⟨[.ident name], rfl, .field (fun h ↦ hname (.inl h)) fun h ↦ hname (.inr h)⟩
  · cases h
  · cases h

theorem mulOp_sound {f : Expr → Expr → Expr} (ha : Sentence .term ts a) (hop : mulOp t = some f)
    (hb : Sentence .factor us b) : Sentence .term (ts ++ t :: us) (f a b) := by
  cases t <;> cases hop
  · exact .mul ha hb
  · exact .div ha hb

theorem addOp_sound {f : Expr → Expr → Expr} (ha : Sentence .expr ts a) (hop : addOp t = some f)
    (hb : Sentence .term us b) : Sentence .expr (ts ++ t :: us) (f a b) := by
  cases t <;> cases hop
  · exact .add ha hb
  · exact .sub ha hb

theorem factor_sound (h : factor n l = .ok (e, r)) : ∃ us, l = us ++ r ∧ Sentence .factor us e := by
  induction n generalizing l e r with
  | zero => cases h
  | succ n ih =>
    exact factorOf_sound (exists_of_chain addOp_sound .term (exists_of_chain mulOp_sound .factor ih)) h

theorem expr_sound (h : expr n l = .ok (e, r)) : ∃ us, l = us ++ r ∧ Sentence .expr us e :=
  exists_of_chain addOp_sound .term (exists_of_chain mulOp_sound .factor factor_sound) h

theorem Sentence.ne_nil {v : Level} (h : Sentence v ts e) : ts ≠ [] := by
  induction h with
  | num | field | paren | max | min => exact List.cons_ne_nil _ _
  | factor _ ih | term _ ih => exact ih
  | mul | div | add | sub => exact fun h ↦ List.cons_ne_nil _ _ (List.append_eq_nil_iff.mp h).2

theorem factor_shortens : Shortens (factor n) := by
  intro l e r h
  obtain ⟨us, rfl, hus⟩ := factor_sound h
  rw [List.length_append]
  exact Nat.lt_add_of_pos_left (List.length_pos_iff.mpr hus.ne_nil)

theorem term_shortens : Shortens (term n) := chain_shortens factor_shortens

/-! ## Every sentence is read -/

/-- What a reader of the level does with `ts` and whatever comes after: a factor is taken off, and
a chain goes on behind it.  An expression ends at an operator of a term at the latest. -/
def Reads (n : ℕ) (ts : List Tok) (e : Expr) : Level → Prop
  | .factor => ∀ rest, factor n (ts ++ rest) = .ok (e, rest)
  | .term => ∀ rest, term n (ts ++ rest) = loop mulOp (factor n) rest.length e rest
  | .expr => ∀ rest, (∀ t ∈ rest.head?, mulOp t = none) →
      expr n (ts ++ rest) = loop addOp (term n) rest.length e rest

/-- A term ends where none of its operators follows. -/
theorem Reads.term_ends (h : Reads n ts e .term) (hrest : ∀ t ∈ rest.head?, mulOp t = none) :
    term n (ts ++ rest) = .ok (e, rest) :=
  (h rest).trans (loop_stop hrest)

theorem Reads.expr_ends (h : Reads n ts e .expr) (hmul : ∀ t ∈ rest.head?, mulOp t = none)
    (hadd : ∀ t ∈ rest.head?, addOp t = none) : expr n (ts ++ rest) = .ok (e, rest) :=
  (h rest hmul).trans (loop_stop hadd)

theorem Reads.factor_term (h : Reads n ts e .factor) : Reads n ts e .term := fun rest ↦ by
  rw [term, chain, h rest]
  rfl

theorem Reads.term_expr (h : Reads n ts e .term) : Reads n ts e .expr := fun rest hrest ↦ by
  rw [expr, chain, h.term_ends hrest]
  rfl

/-- An operand more of a term. -/
theorem Reads.mulOp {f : Expr → Expr → Expr} (ha : Reads n ts a .term) (hop : mulOp t = some f)
    (hb : Reads n us b .factor) : Reads n (ts ++ t :: us) (f a b) .term := fun rest ↦ by
  rw [List.append_assoc, List.cons_append, ha, loop_cons factor_shortens hop (hb rest)]

/-- An operand more of an expression. -/
theorem Reads.addOp {f : Expr → Expr → Expr} (ha : Reads n ts a .expr) (hop : addOp t = some f)
    (hmul : Distance.mulOp t = none) (hb : Reads n us b .term) :
    Reads n (ts ++ t :: us) (f a b) .expr := fun rest hrest ↦ by
  rw [List.append_assoc, List.cons_append, ha _ fun t' ht ↦ by cases ht; exact hmul,
    loop_cons term_shortens hop (hb.term_ends hrest)]

/-- An expression in parentheses, or before a comma. -/
theorem Reads.expr_before (h : Reads n ts e .expr) (ht : t = .close ∨ t = .comma) :
    expr n (ts ++ t :: rest) = .ok (e, t :: rest) := by
  apply h.expr_ends <;>
  · rintro _ ⟨⟩
    rcases ht with rfl | rfl <;> rfl

/-- The arguments of `max` and of `min`. -/
theorem Reads.call {name : String} (hname : name = "max" ∨ name = "min")
    (ha : Reads n ts a .expr) (hb : Reads n us b .expr) :
    Reads (n + 1) (.ident name :: .opn :: ts ++ .comma :: us ++ [.close])
      (if name = "max" then .max a b else .min a b) .factor := fun rest ↦ by
  have hsplit : (.ident name :: .opn :: ts ++ .comma :: us ++ [.close] : List Tok) ++ rest =
      .ident name :: .opn :: (ts ++ .comma :: (us ++ .close :: rest)) := by
    simp only [List.cons_append, List.append_assoc, List.nil_append]
  have hread : factor (n + 1) = factorOf (expr n) := rfl
  rw [hsplit, hread, factorOf, if_pos hname, expect_eq_ok.mpr rfl]
  dsimp only [bind, Except.bind]
  rw [ha.expr_before (.inr rfl)]
  dsimp only
  rw [expect_eq_ok.mpr rfl]
  dsimp only
  rw [hb.expr_before (.inl rfl)]
  dsimp only
  rw [expect_eq_ok.mpr rfl]

theorem Sentence.reads {v : Level} (h : Sentence v ts e) : ts.length ≤ n → Reads n ts e v := by
  induction h generalizing n with
  | num q =>
    intro hn rest
    obtain ⟨n, rfl⟩ := Nat.exists_eq_add_of_le' hn
    rfl
  | field hmax hmin =>
    intro hn rest
    obtain ⟨n, rfl⟩ := Nat.exists_eq_add_of_le' hn
    exact if_neg (not_or.mpr ⟨hmax, hmin⟩)
  | @paren ts e h ih =>
    intro hn rest
    simp only [List.cons_append, List.length_cons, List.length_append, List.length_nil] at hn
    obtain ⟨n, rfl⟩ : ∃ m, n = m + 1 := ⟨n - 1, by omega⟩
    have hread : Distance.factor (n + 1) = factorOf (expr n) := rfl
    rw [List.cons_append, List.cons_append, List.append_assoc, hread, factorOf, List.singleton_append,
      (ih (by omega)).expr_before (.inl rfl)]
    rfl
  | @max ts us a b _ _ iha ihb =>
    intro hn
    simp only [List.cons_append, List.length_cons, List.length_append, List.length_nil] at hn
    obtain ⟨n, rfl⟩ : ∃ m, n = m + 1 := ⟨n - 1, by omega⟩
    exact .call (.inl rfl) (iha (by omega)) (ihb (by omega))
  | @min ts us a b _ _ iha ihb =>
    intro hn
    simp only [List.cons_append, List.length_cons, List.length_append, List.length_nil] at hn
    obtain ⟨n, rfl⟩ : ∃ m, n = m + 1 := ⟨n - 1, by omega⟩
    exact .call (.inr rfl) (iha (by omega)) (ihb (by omega))
  | factor _ ih => exact fun hn ↦ (ih hn).factor_term
  | term _ ih => exact fun hn ↦ (ih hn).term_expr
  | mul _ _ iha ihb | div _ _ iha ihb =>
    intro hn
    rw [List.length_append, List.length_cons] at hn
    exact (iha (by omega)).mulOp rfl (ihb (by omega))
  | add _ _ iha ihb | sub _ _ iha ihb =>
    intro hn
    rw [List.length_append, List.length_cons] at hn
    exact (iha (by omega)).addOp rfl rfl (ihb (by omega))

/-- **What is parsed** are the sentences of the grammar, each as its tree. -/
theorem parseToks_eq_ok : parseToks toks = .ok e ↔ Sentence .expr toks e := by
  constructor
  · intro h
    obtain ⟨⟨e', l⟩, hread, hend⟩ := bind_eq_ok.mp h
    obtain ⟨us, rfl, hus⟩ := expr_sound hread
    cases l with
    | nil =>
      cases hend
      rwa [List.append_nil]
    | cons t l => cases hend
  · intro h
    have hread : expr toks.length (toks ++ []) = .ok (e, []) :=
      (h.reads (Nat.le_refl _)).expr_ends nofun nofun
    rw [List.append_nil] at hread
    rw [parseToks, hread]
    rfl

/-! ## Expressions in tokens -/

/-- The level of an expression's outermost operator. -/
def Expr.level : Expr → Level
  | num _ | field _ | max _ _ | min _ _ => .factor
  | mul _ _ | div _ _ => .term
  | add _ _ | sub _ _ => .expr

/-- Parentheses, for an operand of a term or for one behind an operator of a term. -/
def grouped (v : Level) (e : Expr) (ts : List Tok) : List Tok :=
  if v = .expr ∨ e.level = .factor ∨ e.level = v then ts else .opn :: ts ++ [.close]

/-- An expression in tokens, with parentheses only where it would group in another way. -/
@[grind =] def render : Expr → List Tok
  | .num q => [.num q]
  | .field f => [.ident f]
  | .add a b => render a ++ .plus :: grouped .term b (render b)
  | .sub a b => render a ++ .minus :: grouped .term b (render b)
  | .mul a b => grouped .term a (render a) ++ .times :: grouped .factor b (render b)
  | .div a b => grouped .term a (render a) ++ .slash :: grouped .factor b (render b)
  | .max a b => .ident "max" :: .opn :: render a ++ .comma :: render b ++ [.close]
  | .min a b => .ident "min" :: .opn :: render a ++ .comma :: render b ++ [.close]

/-- No name is one of the two words. -/
def Expr.Plain (e : Expr) : Prop := ∀ f ∈ e.fields, f ≠ "max" ∧ f ≠ "min"

theorem Sentence.lift (h : Sentence e.level ts e) : Sentence .expr ts e := by
  cases hv : e.level <;> rw [hv] at h
  · exact .term (.factor h)
  · exact .term h
  · exact h

theorem sentence_grouped {v : Level} (h : Sentence e.level ts e) : Sentence v (grouped v e ts) e := by
  rw [grouped]
  split
  · rename_i hv
    rcases hv with rfl | hv | rfl
    · exact h.lift
    · rw [hv] at h
      cases v
      · exact h
      · exact .factor h
      · exact .term (.factor h)
    · exact h
  · have hp := Sentence.paren h.lift
    cases v
    · exact hp
    · exact .factor hp
    · exact .term (.factor hp)

theorem sentence_render (he : e.Plain) : Sentence e.level (render e) e := by
  have hleft {a b : Expr} (h : ∀ f ∈ a.fields ∪ b.fields, f ≠ "max" ∧ f ≠ "min") : a.Plain :=
    fun f hf ↦ h f (Finset.mem_union_left _ hf)
  have hright {a b : Expr} (h : ∀ f ∈ a.fields ∪ b.fields, f ≠ "max" ∧ f ≠ "min") : b.Plain :=
    fun f hf ↦ h f (Finset.mem_union_right _ hf)
  induction e with
  | num q => exact .num q
  | field f =>
    have hf := he f (Finset.mem_singleton_self f)
    exact .field hf.1 hf.2
  | add a b iha ihb => exact .add (iha (hleft he)).lift (sentence_grouped (ihb (hright he)))
  | sub a b iha ihb => exact .sub (iha (hleft he)).lift (sentence_grouped (ihb (hright he)))
  | mul a b iha ihb =>
    exact .mul (sentence_grouped (iha (hleft he))) (sentence_grouped (ihb (hright he)))
  | div a b iha ihb =>
    exact .div (sentence_grouped (iha (hleft he))) (sentence_grouped (ihb (hright he)))
  | max a b iha ihb => exact .max (iha (hleft he)).lift (ihb (hright he)).lift
  | min a b iha ihb => exact .min (iha (hleft he)).lift (ihb (hright he)).lift

/-- An expression is read back from its tokens. -/
theorem parseToks_render (he : e.Plain) : parseToks (render e) = .ok e :=
  parseToks_eq_ok.mpr (sentence_render he).lift

/-! ## Expressions in text -/

/-- A token in text, with the blank after it that ends it. -/
def Tok.text : Tok → List Char
  | num q => Binary64.print q ++ [' ']
  | ident name => name.toList ++ [' ']
  | plus => ['+', ' ']
  | minus => ['-', ' ']
  | times => ['*', ' ']
  | slash => ['/', ' ']
  | opn => ['(', ' ']
  | close => [')', ' ']
  | comma => [',', ' ']

def print (e : Expr) : String := String.ofList ((render e).flatMap Tok.text)

/-- What the text of a name looks like. -/
def IsName (f : String) : Prop :=
  ∃ c s, f.toList = c :: s ∧ (c.isLower ∨ c = '_') ∧ ∀ d ∈ s, inName d

/-- A token that has a text. -/
def Tok.Spelled : Tok → Prop
  | num q => Binary64.Holds q
  | ident name => IsName name
  | _ => True

/-- The numbers are those of floats, none below zero, and the names are lower-case ones. -/
@[grind =] def Expr.Printable : Expr → Prop
  | num q => Binary64.Holds q
  | field f => IsName f ∧ f ≠ "max" ∧ f ≠ "min"
  | add a b | sub a b | mul a b | div a b | max a b | min a b => a.Printable ∧ b.Printable

theorem lex_blank (s : List Char) : lex (' ' :: s) = lex s := by
  rw [lex, if_pos (by decide)]

theorem lex_symbol {c : Char} {s : List Char} (hc : symbol c = some t) (hw : Text.isWhite c = false)
    (hs : lex s = .ok ts) : lex (c :: ' ' :: s) = .ok (t :: ts) := by
  rw [lex, if_neg (by rw [hw]; decide), hc]
  dsimp only
  rw [lex_blank, hs]
  rfl

/-- What goes on with a name is neither white space nor a symbol. -/
theorem plain_of_inName {c : Char} (h : inName c) : symbol c = none ∧ Text.isWhite c = false := by
  constructor
  · unfold symbol
    split <;> first | rfl | exact absurd h (by decide)
  · have hbounds : 48 ≤ c.toNat ∧ c.toNat ≤ 122 := by
      simp only [inName, Bool.or_eq_true, decide_eq_true_eq] at h
      rcases h with (h | h) | rfl
      · obtain ⟨ha, hz⟩ := Bool.and_eq_true_iff.mp h
        have ha' : 97 ≤ c.toNat := of_decide_eq_true ha
        have hz' : c.toNat ≤ 122 := of_decide_eq_true hz
        omega
      · obtain ⟨h₀, h₉⟩ := digit_bounds h
        have hzero : '0'.toNat = 48 := rfl
        omega
      · decide
    simp only [Text.isWhite, Bool.or_eq_false_iff, Bool.and_eq_false_iff,
      decide_eq_false_iff_not, beq_eq_false_iff_ne]
    omega

/-- A run of characters that the blank ends. -/
theorem run_ends {p : Char → Bool} {s r : List Char} (hs : ∀ d ∈ s, p d) (hp : p ' ' = false) :
    (s ++ ' ' :: r).takeWhile p = s ∧ (s ++ ' ' :: r).dropWhile p = ' ' :: r := by
  have hp' : ¬ p ' ' := by rw [hp]; decide
  constructor
  · rw [List.takeWhile_append_of_pos hs, List.takeWhile_cons_of_neg hp', List.append_nil]
  · rw [List.dropWhile_append_of_pos hs, List.dropWhile_cons_of_neg hp']

theorem lex_number {q : ℚ} {r : List Char} (hq : Binary64.Holds q) (hr : lex r = .ok ts) :
    lex (Binary64.print q ++ ' ' :: r) = .ok (.num q :: ts) := by
  obtain ⟨c, s, heq, hc, hs⟩ := Binary64.print_eq_cons q
  have hin : inName c := by simp [inName, hc]
  have hrun : ∀ d ∈ s, inNumber d := fun d hd ↦ by simpa [inNumber] using hs d hd
  have hends := @run_ends inNumber s r hrun rfl
  obtain ⟨hsym, hwhite⟩ := plain_of_inName hin
  rw [heq, List.cons_append, lex, if_neg (by rw [hwhite]; decide), hsym]
  dsimp only
  rw [if_pos hc, hends.1, hends.2, ← heq, Binary64.decimal_print hq]
  dsimp only
  rw [lex_blank, hr]
  rfl

theorem lex_name {f : String} {r : List Char} (hf : IsName f) (hr : lex r = .ok ts) :
    lex (f.toList ++ ' ' :: r) = .ok (.ident f :: ts) := by
  obtain ⟨c, s, heq, hc, hs⟩ := hf
  have hin : inName c := by
    rcases hc with hc | rfl
    · simp [inName, hc]
    · rfl
  have hdigit : ¬ c.isDigit := by
    rcases hc with hc | rfl
    · intro hd
      have ha : 97 ≤ c.toNat := of_decide_eq_true (Bool.and_eq_true_iff.mp hc).1
      have h₉ := (digit_bounds hd).2
      have hzero : '0'.toNat = 48 := rfl
      omega
    · decide
  have hends := @run_ends inName s r hs rfl
  obtain ⟨hsym, hwhite⟩ := plain_of_inName hin
  rw [heq, List.cons_append, lex, if_neg (by rw [hwhite]; decide), hsym]
  dsimp only
  rw [if_neg hdigit, if_pos hc, hends.1, hends.2, ← heq, String.ofList_toList, lex_blank, hr]
  rfl

/-- The tokens are read back from their texts. -/
theorem lex_text (h : ∀ t ∈ toks, t.Spelled) : lex (toks.flatMap Tok.text) = .ok toks := by
  induction toks with
  | nil => rw [List.flatMap_nil, lex]
  | cons t ts ih =>
    have hts := ih fun t ht ↦ h t (List.mem_cons_of_mem _ ht)
    have ht := h t List.mem_cons_self
    rw [List.flatMap_cons]
    cases t with
    | num q =>
      rw [Tok.text, List.append_assoc]
      exact lex_number ht hts
    | ident f =>
      rw [Tok.text, List.append_assoc]
      exact lex_name ht hts
    | plus | minus | times | slash | opn | close | comma => exact lex_symbol rfl rfl hts

theorem Expr.Printable.plain (h : e.Printable) : e.Plain := by
  induction e with
  | num q => exact fun f hf ↦ absurd hf (Finset.notMem_empty f)
  | field f =>
    intro g hg
    rw [Finset.mem_singleton.mp hg]
    exact h.2
  | add a b iha ihb | sub a b iha ihb | mul a b iha ihb | div a b iha ihb | max a b iha ihb
    | min a b iha ihb =>
    intro f hf
    rcases Finset.mem_union.mp hf with hf | hf
    · exact iha h.1 f hf
    · exact ihb h.2 f hf

theorem spelled_grouped {v : Level} (h : ∀ t ∈ ts, t.Spelled) : ∀ t ∈ grouped v e ts, t.Spelled := by
  rw [grouped]
  split
  · exact h
  · intro t ht
    rcases List.mem_append.mp ht with ht | ht
    · rcases List.mem_cons.mp ht with rfl | ht
      · exact trivial
      · exact h t ht
    · rw [List.mem_singleton.mp ht]
      exact trivial

/-- What is spelled on both sides of a token is so as a whole. -/
theorem spelled_append (hts : ∀ t ∈ ts, t.Spelled) (o : Tok) (ho : o.Spelled)
    (hus : ∀ t ∈ us, t.Spelled) : ∀ t ∈ ts ++ o :: us, t.Spelled := by
  intro t ht
  rcases List.mem_append.mp ht with ht | ht
  · exact hts t ht
  · rcases List.mem_cons.mp ht with rfl | ht
    · exact ho
    · exact hus t ht

theorem spelled_call {name : String} (hname : IsName name) (hts : ∀ t ∈ ts, t.Spelled)
    (hus : ∀ t ∈ us, t.Spelled) :
    ∀ t ∈ (.ident name :: .opn :: ts ++ .comma :: us ++ [.close] : List Tok), t.Spelled := by
  refine spelled_append (spelled_append ?_ .comma trivial hus) .close trivial fun _ ht ↦
    absurd ht List.not_mem_nil
  intro t ht
  rcases List.mem_cons.mp ht with rfl | ht
  · exact hname
  · rcases List.mem_cons.mp ht with rfl | ht
    · exact trivial
    · exact hts t ht

theorem spelled_render (h : e.Printable) : ∀ t ∈ render e, t.Spelled := by
  induction e with
  | num q | field f =>
    intro t ht
    rw [List.mem_singleton.mp ht]
    first | exact h | exact h.1
  | add a b iha ihb => exact spelled_append (iha h.1) .plus trivial (spelled_grouped (ihb h.2))
  | sub a b iha ihb => exact spelled_append (iha h.1) .minus trivial (spelled_grouped (ihb h.2))
  | mul a b iha ihb =>
    exact spelled_append (spelled_grouped (iha h.1)) .times trivial (spelled_grouped (ihb h.2))
  | div a b iha ihb =>
    exact spelled_append (spelled_grouped (iha h.1)) .slash trivial (spelled_grouped (ihb h.2))
  | max a b iha ihb =>
    exact spelled_call ⟨'m', ['a', 'x'], rfl, .inl rfl, List.all_eq_true.mp rfl⟩ (iha h.1) (ihb h.2)
  | min a b iha ihb =>
    exact spelled_call ⟨'m', ['i', 'n'], rfl, .inl rfl, List.all_eq_true.mp rfl⟩ (iha h.1) (ihb h.2)

/-- **An expression is read back from its text.** -/
theorem parse_print (h : e.Printable) : parse (print e) = .ok e := by
  rw [parse, print, String.toList_ofList, lex_text (spelled_render h)]
  exact parseToks_render h.plain

/-! ## What an expression is worth -/

/-- The usual value, where the fields are worth what `σ` says. -/
@[grind =] def Expr.value (σ : String → ℚ) : Expr → ℚ
  | num q => q
  | field f => σ f
  | add a b => a.value σ + b.value σ
  | sub a b => a.value σ - b.value σ
  | mul a b => a.value σ * b.value σ
  | div a b => a.value σ / b.value σ
  | max a b => Max.max (a.value σ) (b.value σ)
  | min a b => Min.min (a.value σ) (b.value σ)

/-- The expressions that something in `e` is divided by. -/
@[grind =] def Expr.divisors : Expr → List Expr
  | num _ | field _ => []
  | div a b => b :: (a.divisors ++ b.divisors)
  | add a b | sub a b | mul a b | max a b | min a b => a.divisors ++ b.divisors

/-- What is in the way of a value: a name that has none, or a divisor that is zero. -/
def Expr.Stuck (field : String → Option ℚ) (e : Expr) : Prop :=
  (∃ f ∈ e.fields, field f = none) ∨ ∃ d ∈ e.divisors, d.eval field = .ok 0

section Eval

variable {field : String → Option ℚ} {q : ℚ}

/-- With a value for both operands, the operation has its own. -/
theorem two_eq_ok {f : ℚ → ℚ → ℚ} :
    (do .ok (f (← a.eval field) (← b.eval field)) : Except EvalError ℚ) = .ok q ↔
      ∃ x y, a.eval field = .ok x ∧ b.eval field = .ok y ∧ f x y = q := by
  cases a.eval field with
  | error x => exact iff_of_false nofun fun ⟨_, _, h, _⟩ ↦ nomatch h
  | ok x =>
    cases b.eval field with
    | error y => exact iff_of_false nofun fun ⟨_, _, _, h, _⟩ ↦ nomatch h
    | ok y =>
      constructor
      · rintro ⟨⟩
        exact ⟨x, y, rfl, rfl, rfl⟩
      · rintro ⟨_, _, ⟨⟩, ⟨⟩, rfl⟩
        rfl

theorem eval_div_eq_ok : (Expr.div a b).eval field = .ok q ↔
    ∃ x y, a.eval field = .ok x ∧ b.eval field = .ok y ∧ y ≠ 0 ∧ x / y = q := by
  rw [Expr.eval]
  cases a.eval field with
  | error x => exact iff_of_false nofun fun ⟨_, _, h, _⟩ ↦ nomatch h
  | ok x =>
    cases b.eval field with
    | error y => exact iff_of_false nofun fun ⟨_, _, _, h, _⟩ ↦ nomatch h
    | ok y =>
      dsimp only [bind, Except.bind]
      split
      · rename_i hy
        exact iff_of_false nofun fun ⟨_, _, _, hb, hne, _⟩ ↦ hne (by cases hb; exact hy)
      · rename_i hy
        constructor
        · rintro ⟨⟩
          exact ⟨x, y, rfl, rfl, hy, rfl⟩
        · rintro ⟨_, _, ⟨⟩, ⟨⟩, -, rfl⟩
          rfl

/-- What is in the way of one operand is in the way of the whole. -/
theorem stuck_or (hf : e.fields = a.fields ∪ b.fields)
    (hd : ∀ d ∈ a.divisors ++ b.divisors, d ∈ e.divisors) (h : a.Stuck field ∨ b.Stuck field) :
    e.Stuck field := by
  rcases h with (⟨f, hf', h⟩ | ⟨d, hd', h⟩) | ⟨f, hf', h⟩ | ⟨d, hd', h⟩
  · exact .inl ⟨f, hf ▸ Finset.mem_union_left _ hf', h⟩
  · exact .inr ⟨d, hd d (List.mem_append_left _ hd'), h⟩
  · exact .inl ⟨f, hf ▸ Finset.mem_union_right _ hf', h⟩
  · exact .inr ⟨d, hd d (List.mem_append_right _ hd'), h⟩

/-- The usual value, where a field with no value counts as zero. -/
def Expr.worth (field : String → Option ℚ) (e : Expr) : ℚ := e.value fun f ↦ (field f).getD 0

/-- **An expression that nothing is in the way of** has its usual value. -/
theorem eval_of_not_stuck (h : ¬ e.Stuck field) : e.eval field = .ok (e.worth field) := by
  induction e with
  | num q => rfl
  | field f =>
    rw [Expr.eval, Expr.worth, Expr.value]
    cases hf : field f with
    | none => exact absurd (.inl ⟨f, Finset.mem_singleton_self f, hf⟩) h
    | some q => rfl
  | add a b iha ihb | sub a b iha ihb | mul a b iha ihb | max a b iha ihb | min a b iha ihb =>
    obtain ⟨ha, hb⟩ := not_or.mp (mt (stuck_or rfl fun _ ↦ id) h)
    exact two_eq_ok.mpr ⟨_, _, iha ha, ihb hb, rfl⟩
  | div a b iha ihb =>
    obtain ⟨ha, hb⟩ := not_or.mp (mt (stuck_or rfl fun _ ↦ List.mem_cons_of_mem _) h)
    refine eval_div_eq_ok.mpr ⟨_, _, iha ha, ihb hb, fun hz ↦ h (.inr ⟨b, List.mem_cons_self, ?_⟩), rfl⟩
    rw [ihb hb, hz]

/-- Nothing is in the way where there is a value. -/
theorem not_stuck_of_eval (h : e.eval field = .ok q) : ¬ e.Stuck field := by
  induction e generalizing q with
  | num q =>
    rintro (⟨_, hf, -⟩ | ⟨_, hd, -⟩)
    · exact Finset.notMem_empty _ hf
    · exact List.not_mem_nil hd
  | field f =>
    rintro (⟨g, hg, hnone⟩ | ⟨_, hd, -⟩)
    · rw [Finset.mem_singleton.mp hg] at hnone
      rw [Expr.eval, hnone] at h
      cases h
    · exact List.not_mem_nil hd
  | add a b iha ihb | sub a b iha ihb | mul a b iha ihb | max a b iha ihb | min a b iha ihb =>
    obtain ⟨x, y, ha, hb, -⟩ := two_eq_ok.mp h
    rintro (⟨f, hf, hnone⟩ | ⟨d, hd, hzero⟩)
    · rcases Finset.mem_union.mp hf with hf | hf
      · exact iha ha (.inl ⟨f, hf, hnone⟩)
      · exact ihb hb (.inl ⟨f, hf, hnone⟩)
    · rcases List.mem_append.mp hd with hd | hd
      · exact iha ha (.inr ⟨d, hd, hzero⟩)
      · exact ihb hb (.inr ⟨d, hd, hzero⟩)
  | div a b iha ihb =>
    obtain ⟨x, y, ha, hb, hy, -⟩ := eval_div_eq_ok.mp h
    rintro (⟨f, hf, hnone⟩ | ⟨d, hd, hzero⟩)
    · rcases Finset.mem_union.mp hf with hf | hf
      · exact iha ha (.inl ⟨f, hf, hnone⟩)
      · exact ihb hb (.inl ⟨f, hf, hnone⟩)
    · rcases List.mem_cons.mp hd with rfl | hd
      · exact hy (Except.ok.inj (hb.symm.trans hzero))
      · rcases List.mem_append.mp hd with hd | hd
        · exact iha ha (.inr ⟨d, hd, hzero⟩)
        · exact ihb hb (.inr ⟨d, hd, hzero⟩)

theorem eval_eq_error : (∃ x, e.eval field = .error x) ↔ e.Stuck field := by
  constructor
  · rintro ⟨x, hx⟩
    by_contra h
    rw [eval_of_not_stuck h] at hx
    cases hx
  · intro h
    cases he : e.eval field with
    | error x => exact ⟨x, rfl⟩
    | ok q => exact absurd h (not_stuck_of_eval he)

end Eval

/-- **The distance grammar.**  The parser reads its sentences and nothing else, each as the tree that
groups to the left with the operators of a term binding tighter; an expression is read back from its
tokens and from its text; and it has its usual value but where a field has none or a divisor is
zero. -/
theorem distance_grammar :
    (∀ toks e, parseToks toks = .ok e ↔ Sentence .expr toks e) ∧
    (∀ e : Expr, e.Plain → parseToks (render e) = .ok e) ∧
    (∀ e : Expr, e.Printable → parse (print e) = .ok e) ∧
    ∀ (e : Expr) (field : String → Option ℚ),
      ((∃ x, e.eval field = .error x) ↔
        (∃ f ∈ e.fields, field f = none) ∨ ∃ d ∈ e.divisors, d.eval field = .ok 0) ∧
      (¬ e.Stuck field → e.eval field = .ok (e.value fun f ↦ (field f).getD 0)) :=
  ⟨fun _ _ ↦ parseToks_eq_ok, fun _ ↦ parseToks_render, fun _ ↦ parse_print,
    fun _ _ ↦ ⟨eval_eq_error, eval_of_not_stuck⟩⟩

/-- The tree of `(a - 1) / 2` is read back from its text, and worth one where `a` is worth three. -/
theorem distance_grammar_quotient :
    parse (print (.div (.sub (.field "a") (.num 1)) (.num 2))) =
      .ok (.div (.sub (.field "a") (.num 1)) (.num 2)) ∧
    (Expr.div (.sub (.field "a") (.num 1)) (.num 2)).eval (fun _ ↦ some 3) = .ok 1 := by
  have hone : Binary64.Holds 1 := ⟨by decide, 0, rfl⟩
  have htwo : Binary64.Holds 2 := ⟨by decide, 0, rfl⟩
  have hname : IsName "a" ∧ "a" ≠ "max" ∧ "a" ≠ "min" :=
    ⟨⟨'a', [], rfl, .inl rfl, List.all_eq_true.mp rfl⟩, by decide, by decide⟩
  constructor
  · exact distance_grammar.2.2.1 _ ⟨⟨hname, hone⟩, htwo⟩
  · rw [(distance_grammar.2.2.2 _ _).2]
    · decide +kernel
    · rintro (⟨f, -, h⟩ | ⟨d, hd, h⟩)
      · cases h
      · rw [List.mem_singleton.mp hd] at h
        exact absurd h (by decide)

end Spira.DesiredState.Distance
