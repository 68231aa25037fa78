import Mathlib.Data.List.Basic
import Spira.Lib.Binary64
import Spira.Lib.Text

/-!
# Steps

A section's action names the step that it moves its knob by, in one of the closed forms.
`parse_step` admits a step, and `step_to` takes one from the value that a knob has.  The two read
the text each in its own way.
-/

set_option autoImplicit false

namespace Spira.DesiredState

open Binary64 (F64)
open Digits

def maxStep : ℕ := 25

inductive StepError
  /-- `n` is not a whole number. -/
  | number (n : String)
  /-- `n` is not within the bounds. -/
  | bound (n : String)
  /-- The step is in none of the forms. -/
  | form (step : String)
  deriving DecidableEq

def StepError.text : StepError → String
  | number n => s!"{Text.quoted n} is not a whole number"
  | bound n => s!"N must be 1..={maxStep}, not {n}"
  | form step => s!"{Text.quoted step} is not a bounded step (+N, −N, N% fewer|more with 1 ≤ N ≤ " ++
      s!"{maxStep}, or one <thing>)"

def stripPrefix (c : Char) (w : String) : Option String :=
  if w.toList.head? = some c then some (String.ofList w.toList.tail) else none

def endsWith (c : Char) (w : String) : Bool := w.toList.getLast? = some c

/-- All of a text but its last character. -/
def dropEnd (w : String) : String := String.ofList w.toList.dropLast

/-! ## What is admitted -/

/-- A number of a step, of 32 bits. -/
def bounded (n : String) : Except StepError Unit :=
  if n.toList = [] ∨ ¬ n.toList.all Char.isDigit then .error (.number n)
  else
    let v := value n.toList
    if v < 2 ^ 32 ∧ 1 ≤ v ∧ v ≤ maxStep then .ok () else .error (.bound n)

/-- The words that may name what is stepped. -/
def unit (rest : List String) : Bool :=
  rest.all fun w ↦ w ≠ "" ∧ w.toList.all fun c ↦ c.isLower || c = '-'

/-- Words that begin with `n`, in the order that the forms are tried in. -/
def parseWords (refuse : Except StepError Unit) (n : String) (rest : List String) :
    Except StepError Unit :=
  if n = "one" ∧ rest ≠ [] ∧ unit rest then .ok ()
  else if (rest = ["fewer"] ∨ rest = ["more"]) ∧ endsWith '%' n then bounded (dropEnd n)
  else if unit rest then
    match stripPrefix '+' n <|> stripPrefix '-' n <|> stripPrefix '−' n with
    | some d => bounded d
    | none => refuse
  else refuse

def parseStep (step : String) : Except StepError Unit :=
  let refuse := .error (.form step)
  let words := Text.words step
  if "rebuild" ∈ words then refuse
  else
    match words with
    | [] => refuse
    | n :: rest => parseWords refuse n rest

/-! ## What is taken -/

/-- A knob's value: a number is an integer of 64 bits, with a sign or without, or a float. -/
inductive Value
  | posInt (n : ℕ)
  | negInt (n : ℤ)
  | float (q : ℚ)
  | other
  deriving DecidableEq

namespace Value

/-- The number as a float, where the float holds it. -/
def asF64 : Value → Option F64
  | posInt n => some (.fin n)
  | negInt n => some (.fin n)
  | float q => some (.fin q)
  | other => none

def IsInteger : Value → Prop
  | posInt _ | negInt _ => True
  | float _ | other => False

instance : DecidablePred IsInteger
  | posInt _ | negInt _ => isTrue trivial
  | float _ | other => isFalse id

def ofI64 (n : ℤ) : Value := if 0 ≤ n then posInt n.toNat else negInt n

def ofF64 : F64 → Option Value
  | .fin q => some (float q)
  | _ => none

end Value

def numOf (s : String) : Option F64 := Binary64.parse s.toList

/-- A percentage of a knob, `more` or fewer of it. -/
def percent (integral more : Bool) (f n : F64) : F64 :=
  let n := n.mul (.fin (1 / 100))
  let raw := if more then f.mul ((F64.fin 1).add n) else f.mul ((F64.fin 1).sub n)
  if integral then
    let r := raw.round
    -- an asymptotic step still moves an integer by one
    if r = f then if more then f.add (.fin 1) else f.sub (.fin 1) else r
  else raw

/-- Where the words of a step take a knob from `f`. -/
def stepBy (integral : Bool) (f : F64) : List String → Option F64
  | [] => none
  | n :: rest =>
    if n = "one" then some (if rest.head? = some "fewer" then f.sub (.fin 1) else f.add (.fin 1))
    else if endsWith '%' n ∧ (rest = ["more"] ∨ rest = ["fewer"]) then
      (numOf (dropEnd n)).map (percent integral (rest = ["more"]) f)
    else
      match stripPrefix '+' n with
      | some d => (numOf d).map f.add
      | none => do (numOf (← stripPrefix '-' n <|> stripPrefix '−' n)).map f.sub

/-- The value that a step takes a knob to. -/
def stepTo (step : String) (start : Value) : Option Value := do
  let f ← start.asF64
  let integral : Bool := start.IsInteger
  let dest ← stepBy integral f (Text.words step)
  let dest := if integral then dest.max (.fin 0) else dest
  if integral ∧ dest.IsWhole then some (Value.ofI64 dest.toI64) else Value.ofF64 dest

/-! ## The closed forms -/

/-- What a step says. -/
inductive Form
  | plus (n : ℕ)
  | minus (n : ℕ)
  | more (n : ℕ)
  | fewer (n : ℕ)
  | one
  | oneFewer
  deriving DecidableEq

namespace Form

def Bounded : Form → Prop
  | plus n | minus n | more n | fewer n => 1 ≤ n ∧ n ≤ maxStep
  | one | oneFewer => True

/-- Whether a step moves its knob up. -/
def raises : Form → Bool
  | plus _ | more _ | one => true
  | minus _ | fewer _ | oneFewer => false

/-- The most that a step may move a knob by: a percentage is rounded, and is at least one. -/
def most (v : ℕ) : Form → ℕ
  | plus n | minus n => n
  | more n | fewer n => max 1 ((2 * (v * n) + 100) / 200)
  | one | oneFewer => 1

/-- What a step moves a knob by: of what is left the halves are rounded up. -/
def amount (v : ℕ) : Form → ℕ
  | fewer n => max 1 ((2 * (v * n) + 99) / 200)
  | form => form.most v

/-- Where a step takes a knob. -/
def dest (v : ℕ) (form : Form) : ℕ :=
  if form.raises then v + form.amount v else v - form.amount v

theorem amount_le_most (v : ℕ) (form : Form) : form.amount v ≤ form.most v := by
  cases form <;> simp only [amount, most] <;> omega

theorem amount_pos {v : ℕ} {form : Form} (h : form.Bounded) : 0 < form.amount v := by
  cases form <;> simp only [amount, most, Bounded] at h ⊢ <;> omega

end Form

/-- A number without a sign. -/
def IsNumber (d : List Char) : Prop := d ≠ [] ∧ ∀ c ∈ d, c.isDigit

/-- The forms that words are in. -/
inductive IsForm : List String → Form → Prop
  | plus {n : String} {rest : List String} {d : List Char} : n.toList = '+' :: d → IsNumber d →
      unit rest → IsForm (n :: rest) (.plus (value d))
  | minus {n : String} {rest : List String} {c : Char} {d : List Char} : c = '-' ∨ c = '−' →
      n.toList = c :: d → IsNumber d → unit rest → IsForm (n :: rest) (.minus (value d))
  | more {n : String} {rest : List String} {d : List Char} : rest = ["more"] →
      n.toList = d ++ ['%'] → IsNumber d → IsForm (n :: rest) (.more (value d))
  | fewer {n : String} {rest : List String} {d : List Char} : rest = ["fewer"] →
      n.toList = d ++ ['%'] → IsNumber d → IsForm (n :: rest) (.fewer (value d))
  | one {rest : List String} : rest ≠ [] → unit rest → rest.head? ≠ some "fewer" →
      IsForm ("one" :: rest) .one
  | oneFewer {rest : List String} : unit rest → rest.head? = some "fewer" →
      IsForm ("one" :: rest) .oneFewer

/-- What a step is to do to a knob. -/
structure Form.Moves (form : Form) (v w : ℕ) : Prop where
  up : form.raises → v < w
  down : ¬ form.raises → w < v ∨ v = 0
  most : w ≤ v + form.most v ∧ v ≤ w + form.most v

/-! ## What is admitted is in a form -/

theorem stripPrefix_eq_some {c : Char} {w d : String} :
    stripPrefix c w = some d ↔ w.toList = c :: d.toList := by
  rw [stripPrefix]
  constructor
  · intro h
    split at h
    · rename_i hhead
      obtain rfl := Option.some.inj h
      rw [String.toList_ofList]
      exact List.eq_cons_of_mem_head? hhead
    · cases h
  · intro h
    rw [h, List.head?_cons, if_pos rfl, List.tail_cons, String.ofList_toList]

theorem stripPrefix_of_ne {c e : Char} {w : String} {d : List Char} (h : w.toList = e :: d)
    (hne : c ≠ e) : stripPrefix c w = none := by
  rw [stripPrefix, if_neg]
  rw [h]
  exact fun heq ↦ hne (Option.some.inj heq).symm

theorem endsWith_iff {c : Char} {w : String} :
    endsWith c w ↔ w.toList = (dropEnd w).toList ++ [c] := by
  rw [endsWith, decide_eq_true_iff, dropEnd, String.toList_ofList]
  constructor
  · intro h
    exact (List.dropLast_append_getLast? c h).symm
  · intro h
    rw [h, List.getLast?_append_cons]
    rfl

theorem dropEnd_eq {c : Char} {w : String} {d : List Char} (h : w.toList = d ++ [c]) :
    (dropEnd w).toList = d := by
  rw [dropEnd, String.toList_ofList, h, List.dropLast_concat]

theorem bounded_eq_ok {w : String} : bounded w = .ok () ↔
    IsNumber w.toList ∧ 1 ≤ value w.toList ∧ value w.toList ≤ maxStep := by
  rw [bounded]
  split
  · rename_i h
    refine iff_of_false nofun fun ⟨⟨hne, hdigits⟩, _⟩ ↦ ?_
    exact h.elim hne fun hall ↦ hall (List.all_eq_true.mpr hdigits)
  · rename_i h
    push Not at h
    have hnumber : IsNumber w.toList := ⟨h.1, List.all_eq_true.mp h.2⟩
    dsimp only
    split
    · rename_i hv
      exact iff_of_true rfl ⟨hnumber, hv.2⟩
    · rename_i hv
      refine iff_of_false nofun fun ⟨_, h₁, h₂⟩ ↦ hv ⟨?_, h₁, h₂⟩
      rw [maxStep] at h₂
      omega

theorem bounded_ne_form {w step : String} : bounded w ≠ .error (.form step) := by
  rw [bounded]
  split
  · nofun
  · dsimp only
    split <;> nofun

/-- The sign that a word begins with is taken off, whichever it is. -/
theorem strip_eq_some {w d : String} :
    (stripPrefix '+' w <|> stripPrefix '-' w <|> stripPrefix '−' w) = some d ↔
      ∃ c, (c = '+' ∨ c = '-' ∨ c = '−') ∧ w.toList = c :: d.toList := by
  constructor
  · intro h
    rcases hplus : stripPrefix '+' w with - | d'
    · rcases hminus : stripPrefix '-' w with - | d'
      · rw [hplus, hminus] at h
        exact ⟨_, .inr (.inr rfl), stripPrefix_eq_some.mp h⟩
      · rw [hplus, hminus] at h
        obtain rfl := Option.some.inj h
        exact ⟨_, .inr (.inl rfl), stripPrefix_eq_some.mp hminus⟩
    · rw [hplus] at h
      obtain rfl := Option.some.inj h
      exact ⟨_, .inl rfl, stripPrefix_eq_some.mp hplus⟩
  · rintro ⟨c, rfl | rfl | rfl, h⟩
    · rw [stripPrefix_eq_some.mpr h]
      rfl
    · rw [stripPrefix_of_ne h (by decide), stripPrefix_eq_some.mpr h]
      rfl
    · rw [stripPrefix_of_ne h (by decide), stripPrefix_of_ne h (by decide),
        stripPrefix_eq_some.mpr h]
      rfl

/-- A word that begins with a sign and then has digits is none of the other words. -/
theorem signed_word {n : String} {c : Char} {d : List Char} (hc : c = '+' ∨ c = '-' ∨ c = '−')
    (hn : n.toList = c :: d) (hd : IsNumber d) : n ≠ "one" ∧ ¬ endsWith '%' n := by
  constructor
  · rintro rfl
    obtain rfl : 'o' = c := (List.cons.inj hn).1
    simp at hc
  · rw [endsWith, hn, decide_eq_true_iff, List.getLast?_cons_of_ne_nil hd.1]
    intro hlast
    exact absurd (hd.2 _ (List.mem_of_getLast? hlast)) (by decide)

theorem percent_word {n : String} {d : List Char} (hn : n.toList = d ++ ['%']) :
    n ≠ "one" ∧ endsWith '%' n := by
  constructor
  · rintro rfl
    have hlast := congrArg List.getLast? hn
    rw [List.getLast?_append_cons] at hlast
    exact absurd hlast (by decide)
  · rw [endsWith, hn, decide_eq_true_iff, List.getLast?_append_cons]
    rfl

/-- Words are in one form. -/
theorem IsForm.unique {words : List String} {form form' : Form} (h : IsForm words form)
    (h' : IsForm words form') : form = form' := by
  have last {n : String} {d d' : List Char} {c : Char} (hn : n.toList = d ++ [c])
      (hn' : n.toList = d' ++ [c]) : d = d' := List.append_cancel_right (hn.symm.trans hn')
  cases h with
  | plus hn hd _ =>
    obtain ⟨hone, hend⟩ := signed_word (.inl rfl) hn hd
    cases h' with
    | plus hn' _ _ => rw [(List.cons.inj (hn.symm.trans hn')).2]
    | minus hc hn' _ _ =>
      obtain rfl := (List.cons.inj (hn.symm.trans hn')).1
      simp at hc
    | more _ hn' _ => exact absurd (percent_word hn').2 hend
    | fewer _ hn' _ => exact absurd (percent_word hn').2 hend
    | one => exact absurd rfl hone
    | oneFewer => exact absurd rfl hone
  | minus hc hn hd _ =>
    obtain ⟨hone, hend⟩ := signed_word (.inr hc) hn hd
    cases h' with
    | plus hn' _ _ =>
      obtain rfl := (List.cons.inj (hn.symm.trans hn')).1
      simp at hc
    | minus _ hn' _ _ => rw [(List.cons.inj (hn.symm.trans hn')).2]
    | more _ hn' _ => exact absurd (percent_word hn').2 hend
    | fewer _ hn' _ => exact absurd (percent_word hn').2 hend
    | one => exact absurd rfl hone
    | oneFewer => exact absurd rfl hone
  | more hrest hn _ =>
    obtain ⟨hone, hend⟩ := percent_word hn
    cases h' with
    | plus hn' hd' _ => exact absurd hend (signed_word (.inl rfl) hn' hd').2
    | minus hc' hn' hd' _ => exact absurd hend (signed_word (.inr hc') hn' hd').2
    | more _ hn' _ => rw [last hn hn']
    | fewer hrest' _ _ => exact absurd (hrest.symm.trans hrest') (by decide)
    | one => exact absurd rfl hone
    | oneFewer => exact absurd rfl hone
  | fewer hrest hn _ =>
    obtain ⟨hone, hend⟩ := percent_word hn
    cases h' with
    | plus hn' hd' _ => exact absurd hend (signed_word (.inl rfl) hn' hd').2
    | minus hc' hn' hd' _ => exact absurd hend (signed_word (.inr hc') hn' hd').2
    | more hrest' _ _ => exact absurd (hrest.symm.trans hrest') (by decide)
    | fewer _ hn' _ => rw [last hn hn']
    | one => exact absurd rfl hone
    | oneFewer => exact absurd rfl hone
  | one _ _ hnot =>
    cases h' with
    | plus hn' hd' _ => exact absurd rfl (signed_word (.inl rfl) hn' hd').1
    | minus hc' hn' hd' _ => exact absurd rfl (signed_word (.inr hc') hn' hd').1
    | more _ hn' _ => exact absurd rfl (percent_word hn').1
    | fewer _ hn' _ => exact absurd rfl (percent_word hn').1
    | one => rfl
    | oneFewer _ hfewer => exact absurd hfewer hnot
  | oneFewer _ hfewer =>
    cases h' with
    | plus hn' hd' _ => exact absurd rfl (signed_word (.inl rfl) hn' hd').1
    | minus hc' hn' hd' _ => exact absurd rfl (signed_word (.inr hc') hn' hd').1
    | more _ hn' _ => exact absurd rfl (percent_word hn').1
    | fewer _ hn' _ => exact absurd rfl (percent_word hn').1
    | one _ _ hnot => exact absurd hfewer hnot
    | oneFewer => rfl

theorem parseWords_eq_ok {refuse : Except StepError Unit} {n : String} {rest : List String}
    (hrefuse : refuse ≠ .ok ()) :
    parseWords refuse n rest = .ok () ↔ ∃ form, IsForm (n :: rest) form ∧ form.Bounded := by
  rw [parseWords]
  constructor
  · intro h
    split at h
    · rename_i hone
      obtain ⟨rfl, hne, hunit⟩ := hone
      by_cases hfewer : rest.head? = some "fewer"
      · exact ⟨_, .oneFewer hunit hfewer, trivial⟩
      · exact ⟨_, .one hne hunit hfewer, trivial⟩
    split at h
    · rename_i hpercent
      obtain ⟨hnumber, hbounds⟩ := bounded_eq_ok.mp h
      obtain ⟨hrest | hrest, hend⟩ := hpercent
      · exact ⟨_, .fewer hrest (endsWith_iff.mp hend) hnumber, hbounds⟩
      · exact ⟨_, .more hrest (endsWith_iff.mp hend) hnumber, hbounds⟩
    split at h
    · rename_i hunit
      split at h
      · rename_i d hstrip
        obtain ⟨hnumber, hbounds⟩ := bounded_eq_ok.mp h
        obtain ⟨c, rfl | hc, hn⟩ := strip_eq_some.mp hstrip
        · exact ⟨_, .plus hn hnumber hunit, hbounds⟩
        · exact ⟨_, .minus hc hn hnumber hunit, hbounds⟩
      · exact absurd h hrefuse
    · exact absurd h hrefuse
  · rintro ⟨form, hform, hbounded⟩
    rw [← parseWords]
    have signed {c : Char} {d : List Char} (hc : c = '+' ∨ c = '-' ∨ c = '−')
        (hn : n.toList = c :: d) (hd : IsNumber d) (hunit : unit rest)
        (hv : 1 ≤ value d ∧ value d ≤ maxStep) : parseWords refuse n rest = .ok () := by
      obtain ⟨hone, hend⟩ := signed_word hc hn hd
      have hstrip := strip_eq_some.mpr ⟨c, hc, (String.toList_ofList (l := d)).symm ▸ hn⟩
      rw [parseWords, if_neg fun h ↦ hone h.1, if_neg fun h ↦ hend h.2, if_pos hunit, hstrip]
      exact bounded_eq_ok.mpr (by rw [String.toList_ofList]; exact ⟨hd, hv⟩)
    have percent {d : List Char} (hrest : rest = ["fewer"] ∨ rest = ["more"])
        (hn : n.toList = d ++ ['%']) (hd : IsNumber d) (hv : 1 ≤ value d ∧ value d ≤ maxStep) :
        parseWords refuse n rest = .ok () := by
      obtain ⟨hone, hend⟩ := percent_word hn
      rw [parseWords, if_neg fun h ↦ hone h.1, if_pos ⟨hrest, hend⟩]
      exact bounded_eq_ok.mpr (by rw [dropEnd_eq hn]; exact ⟨hd, hv⟩)
    cases hform with
    | plus hn hd hunit => exact signed (.inl rfl) hn hd hunit hbounded
    | minus hc hn hd hunit => exact signed (.inr hc) hn hd hunit hbounded
    | more hrest hn hd => exact percent (.inr hrest) hn hd hbounded
    | fewer hrest hn hd => exact percent (.inl hrest) hn hd hbounded
    | one hne hunit _ => rw [parseWords, if_pos ⟨rfl, hne, hunit⟩]
    | oneFewer hunit hfewer =>
      have hne : rest ≠ [] := by
        rintro rfl
        cases hfewer
      rw [parseWords, if_pos ⟨rfl, hne, hunit⟩]

/-- **What is admitted**: the steps in one of the forms, within the bounds, that do not name a
rebuild. -/
theorem parseStep_eq_ok {step : String} : parseStep step = .ok () ↔
    "rebuild" ∉ Text.words step ∧ ∃ form, IsForm (Text.words step) form ∧ form.Bounded := by
  rw [parseStep]
  generalize Text.words step = words
  split
  · rename_i h
    exact iff_of_false nofun fun ⟨hnot, _⟩ ↦ hnot h
  rename_i hrebuild
  rw [and_iff_right hrebuild]
  rcases words with - | ⟨n, rest⟩
  · exact iff_of_false nofun fun ⟨_, hform, _⟩ ↦ nomatch hform
  · exact parseWords_eq_ok nofun

/-! ## What a form does -/

theorem add_natCast (v n : ℕ) :
    ((F64.fin v).add (.fin n)).max (.fin 0) = .fin ((v + n : ℕ) : ℚ) := by
  rw [F64.add, F64.max, max_eq_left (by positivity), Nat.cast_add]

theorem sub_natCast (v n : ℕ) :
    ((F64.fin v).sub (.fin n)).max (.fin 0) = .fin ((v - n : ℕ) : ℚ) := by
  rw [F64.sub, F64.neg, F64.add, F64.max, ← sub_eq_add_neg]
  rcases le_total n v with hle | hle
  · rw [Nat.cast_sub hle, max_eq_left (sub_nonneg.mpr (Nat.cast_le.mpr hle))]
  · rw [Nat.sub_eq_zero_of_le hle, max_eq_right (sub_nonpos.mpr (Nat.cast_le.mpr hle)), Nat.cast_zero]

/-- A percentage that is not rounded away moves an integer by what it is rounded to. -/
theorem percent_eq (more : Bool) (v n r : ℕ)
    (h : (if more then F64.mul (.fin v) ((F64.fin 1).add (F64.mul (.fin n) (.fin (1 / 100))))
      else F64.mul (.fin v) ((F64.fin 1).sub (F64.mul (.fin n) (.fin (1 / 100))))).round =
        .fin ((r : ℕ) : ℚ)) :
    percent true more (.fin v) (.fin n) =
      if r = v then if more then (F64.fin v).add (.fin 1) else (F64.fin v).sub (.fin 1)
      else .fin ((r : ℕ) : ℚ) := by
  rw [percent]
  dsimp only
  rw [if_pos rfl, h]
  refine if_congr ?_ rfl rfl
  rw [F64.fin.injEq, Nat.cast_inj]

theorem percent_more (v n : ℕ) : (percent true true (.fin v) (.fin n)).max (.fin 0) =
    .fin ((v + max 1 ((2 * (v * n) + 100) / 200) : ℕ) : ℚ) := by
  have hraw : (v : ℚ) * (1 + n * (1 / 100)) = ((v * (100 + n) : ℕ) : ℚ) / (100 : ℕ) := by
    push_cast
    ring
  have hround : (F64.mul (.fin v) ((F64.fin 1).add (F64.mul (.fin n) (.fin (1 / 100))))).round =
      .fin ((v + (2 * (v * n) + 100) / 200 : ℕ) : ℚ) := by
    have hdiv : (2 * (v * (100 + n)) + 100) / (2 * 100) = v + (2 * (v * n) + 100) / 200 := by
      rw [Nat.mul_add v]
      omega
    rw [F64.mul, F64.add, F64.mul, F64.round, hraw, F64.roundAway_div _ (by decide), hdiv,
      Int.cast_natCast]
  rw [percent_eq true v n _ hround]
  split
  · have hone := add_natCast v 1
    rw [Nat.cast_one] at hone
    rw [if_pos rfl, hone]
    congr 2
    omega
  · rw [F64.max, max_eq_left (by positivity)]
    congr 2
    omega

theorem percent_fewer (v n : ℕ) (hn : n ≤ 100) :
    (percent true false (.fin v) (.fin n)).max (.fin 0) =
      .fin ((v - max 1 ((2 * (v * n) + 99) / 200) : ℕ) : ℚ) := by
  have hraw : (v : ℚ) * (1 + -(n * (1 / 100))) = ((v * (100 - n) : ℕ) : ℚ) / (100 : ℕ) := by
    rw [Nat.cast_mul, Nat.cast_sub hn]
    push_cast
    ring
  have hround : (F64.mul (.fin v) ((F64.fin 1).sub (F64.mul (.fin n) (.fin (1 / 100))))).round =
      .fin ((v - (2 * (v * n) + 99) / 200 : ℕ) : ℚ) := by
    have hdiv : (2 * (v * (100 - n)) + 100) / (2 * 100) = v - (2 * (v * n) + 99) / 200 := by
      have hle : v * n ≤ v * 100 := Nat.mul_le_mul_left v hn
      rw [Nat.mul_sub v]
      omega
    rw [F64.mul, F64.sub, F64.neg, F64.add, F64.mul, F64.round, hraw,
      F64.roundAway_div _ (by decide), hdiv, Int.cast_natCast]
  rw [percent_eq false v n _ hround]
  split
  · have hone := sub_natCast v 1
    rw [Nat.cast_one] at hone
    rw [if_neg Bool.false_ne_true, hone]
    congr 2
    omega
  · rw [F64.max, max_eq_left (by positivity)]
    congr 2
    omega

theorem numOf_eq {d : String} (h : IsNumber d.toList) : numOf d = some (.fin (value d.toList)) :=
  Binary64.parse_digits h.1 h.2

/-- The digits behind a sign. -/
theorem stepBy_signed {n : String} {rest : List String} {c : Char} {d : List Char} {f : F64}
    (hc : c = '+' ∨ c = '-' ∨ c = '−') (hn : n.toList = c :: d) (hd : IsNumber d) :
    stepBy true f (n :: rest) =
      some (if c = '+' then f.add (.fin (value d)) else f.sub (.fin (value d))) := by
  obtain ⟨hone, hend⟩ := signed_word hc hn hd
  have hnum := numOf_eq (d := String.ofList d) (by rwa [String.toList_ofList])
  rw [String.toList_ofList] at hnum
  have hstrip : stripPrefix c n = some (String.ofList d) :=
    stripPrefix_eq_some.mpr (by rwa [String.toList_ofList])
  rw [stepBy, if_neg hone, if_neg fun h ↦ hend h.1]
  rcases hc with rfl | rfl | rfl
  · rw [hstrip]
    dsimp only
    rw [hnum]
    rfl
  · rw [stripPrefix_of_ne hn (by decide), hstrip]
    dsimp only [Option.orElse_eq_orElse, Option.bind_eq_bind]
    rw [Option.orElse_eq_or, Option.some_or, Option.bind_some, hnum]
    rfl
  · rw [stripPrefix_of_ne hn (by decide), stripPrefix_of_ne hn (by decide), hstrip]
    dsimp only [Option.orElse_eq_orElse, Option.bind_eq_bind]
    rw [Option.orElse_eq_or, Option.none_or, Option.bind_some, hnum]
    rfl

theorem stepBy_percent {n dir : String} {d : List Char} {f : F64} (more : Bool)
    (hdir : dir = if more then "more" else "fewer") (hn : n.toList = d ++ ['%']) (hd : IsNumber d) :
    stepBy true f [n, dir] = some (percent true more f (.fin (value d))) := by
  subst hdir
  obtain ⟨hone, hend⟩ := percent_word hn
  have hnum : numOf (dropEnd n) = some (.fin (value d)) := by
    rw [numOf_eq (by rwa [dropEnd_eq hn]), dropEnd_eq hn]
  rw [stepBy, if_neg hone, if_pos ⟨hend, by cases more <;> simp⟩, hnum]
  cases more <;> rfl

/-- Where a step of a form takes an integer. -/
theorem stepBy_form {words : List String} {form : Form} {v : ℕ} (h : IsForm words form)
    (hbounded : form.Bounded) :
    (stepBy true (.fin v) words).map (·.max (.fin 0)) = some (.fin ((form.dest v : ℕ) : ℚ)) := by
  have hadd := add_natCast v 1
  have hsub := sub_natCast v 1
  rw [Nat.cast_one] at hadd hsub
  cases h with
  | plus hn hd hunit =>
    rw [stepBy_signed (.inl rfl) hn hd, if_pos rfl, Option.map_some, add_natCast]
    rfl
  | minus hc hn hd hunit =>
    rw [stepBy_signed (.inr hc) hn hd, if_neg (by rcases hc with rfl | rfl <;> decide),
      Option.map_some, sub_natCast]
    rfl
  | more hrest hn hd =>
    rw [hrest, stepBy_percent true (show "more" = _ from rfl) hn hd, Option.map_some, percent_more]
    rfl
  | fewer hrest hn hd =>
    have hle : value _ ≤ 100 := hbounded.2.trans (by decide)
    rw [hrest, stepBy_percent false (show "fewer" = _ from rfl) hn hd, Option.map_some, percent_fewer _ _ hle]
    rfl
  | one hne hunit hfewer =>
    rw [stepBy, if_pos rfl, if_neg hfewer, Option.map_some, hadd]
    rfl
  | oneFewer hunit hfewer =>
    rw [stepBy, if_pos rfl, if_pos hfewer, Option.map_some, hsub]
    rfl

/-- **Where a step takes a knob**: an integer of 64 bits with a sign holds no more than its own
greatest. -/
theorem stepTo_form {step : String} {form : Form} {v : ℕ} (h : IsForm (Text.words step) form)
    (hbounded : form.Bounded) :
    stepTo step (.posInt v) = some (.posInt (min (2 ^ 63 - 1) (form.dest v))) := by
  have hby := stepBy_form (v := v) h hbounded
  obtain ⟨x, hx, hmax⟩ := Option.map_eq_some_iff.mp hby
  rw [stepTo, Value.asF64]
  dsimp only [Option.bind_eq_bind, Option.bind_some]
  have hinteger : decide (Value.posInt v).IsInteger = true := rfl
  rw [hinteger, hx]
  dsimp only [Option.bind_some]
  rw [if_pos rfl, hmax, if_pos ⟨rfl, F64.isWhole_natCast _⟩, F64.toI64_natCast, Value.ofI64,
    if_pos (by omega)]
  congr 2
  omega

/-- An integer moves as its form says where it is below the greatest that has a sign, or is brought
below it. -/
theorem moves_iff {form : Form} {v : ℕ} (hbounded : form.Bounded) (hlast : v ≠ 2 ^ 63 - 1)
    (hround : 2 ^ 63 ≤ v → form.amount v = form.most v) :
    form.Moves v (min (2 ^ 63 - 1) (form.dest v)) ↔
      v < 2 ^ 63 ∨ ¬ form.raises ∧ v < 2 ^ 63 + form.most v := by
  have hpos := form.amount_pos (v := v) hbounded
  have hle := form.amount_le_most v
  rw [Form.dest]
  by_cases hraises : form.raises
  · rw [if_pos hraises]
    constructor
    · intro h
      have hup := h.up hraises
      exact .inl (by omega)
    · rintro (hlt | ⟨hnot, -⟩)
      · refine ⟨fun _ ↦ ?_, fun h ↦ absurd hraises h, ?_⟩ <;> omega
      · exact absurd hraises hnot
  · rw [if_neg hraises]
    constructor
    · intro h
      rcases Nat.lt_or_ge v (2 ^ 63) with hlt | hge
      · exact .inl hlt
      · have hmost := h.most
        rw [hround hge] at hmost
        exact .inr ⟨hraises, by omega⟩
    · intro h
      refine ⟨fun h ↦ absurd h hraises, fun _ ↦ ?_, ?_⟩
      · omega
      · rcases Nat.lt_or_ge v (2 ^ 63) with hlt | hge
        · omega
        · rw [hround hge]
          omega

/-! ## What is taken that is in no form -/

/-- An integer is taken nowhere only where its step is to infinity. -/
theorem stepTo_eq_none {step : String} {v : ℕ} : stepTo step (.posInt v) = none ↔
    ∀ x, stepBy true (.fin v) (Text.words step) = some x → x = .inf := by
  have hinteger : decide (Value.posInt v).IsInteger = true := rfl
  rw [stepTo, Value.asF64]
  dsimp only [Option.bind_eq_bind, Option.bind_some]
  rw [hinteger]
  rcases stepBy true (.fin v) (Text.words step) with - | x
  · exact iff_of_true rfl nofun
  dsimp only [Option.bind_some]
  simp only [if_true, true_and]
  cases x with
  | inf => exact iff_of_true rfl fun x hx ↦ (Option.some.inj hx).symm
  | fin q => refine iff_of_false ?_ fun h ↦ nomatch h _ rfl; split <;> nofun
  | negInf => refine iff_of_false ?_ fun h ↦ nomatch h _ rfl; split <;> nofun
  | nan => refine iff_of_false ?_ fun h ↦ nomatch h _ rfl; split <;> nofun

/-- Words that a step is taken by in whichever form: `one` first, or a number behind a sign. -/
def Loose : List String → Prop
  | [] => False
  | n :: _ => n = "one" ∨
    (∃ d x, stripPrefix '+' n = some d ∧ numOf d = some x ∧ x ≠ .inf) ∨
    (∃ d x, (stripPrefix '-' n <|> stripPrefix '−' n) = some d ∧ numOf d = some x ∧ x ≠ .negInf)

/-- A step that is refused for its form is taken only where its words are loose. -/
theorem stepTo_refused {step : String} {v : ℕ} (h : parseStep step = .error (.form step)) :
    stepTo step (.posInt v) = none ↔ ¬ Loose (Text.words step) := by
  rw [stepTo_eq_none]
  rw [parseStep] at h
  rcases hwords : Text.words step with - | ⟨n, rest⟩
  · exact iff_of_true nofun id
  rw [hwords] at h
  have hpercent : ¬ (n ≠ "one" ∧ endsWith '%' n ∧ (rest = ["more"] ∨ rest = ["fewer"])) := by
    rintro ⟨hone, hend, hrest⟩
    split at h
    · rename_i hmem
      rcases hrest with rfl | rfl
      all_goals
        obtain rfl : "rebuild" = n := by simpa using hmem
        exact absurd hend (by decide)
    · dsimp only at h
      rw [parseWords, if_neg fun h ↦ hone h.1, if_pos ⟨hrest.symm, hend⟩] at h
      exact bounded_ne_form h
  by_cases hone : n = "one"
  · rw [stepBy, if_pos hone]
    refine iff_of_false (fun hall ↦ ?_) (not_not_intro (.inl hone))
    have hinf := hall _ rfl
    split at hinf <;> cases hinf
  have hplus {x : F64} : (F64.fin v).add x = .inf ↔ x = .inf := by
    cases x <;> simp [F64.add]
  have hminus {x : F64} : (F64.fin v).sub x = .inf ↔ x = .negInf := by
    cases x <;> simp [F64.sub, F64.neg, F64.add]
  rw [stepBy, if_neg hone, if_neg fun h ↦ hpercent ⟨hone, h⟩, Loose]
  rcases hstrip : stripPrefix '+' n with - | d
  · rcases hd : (stripPrefix '-' n <|> stripPrefix '−' n) with - | d
    · simp [hone]
    · rcases hx : numOf d with - | x
      · simp [hone, hx]
      · simp [hone, hx, hminus]
  · obtain ⟨e, hn⟩ : ∃ e : List Char, n.toList = '+' :: e := ⟨_, stripPrefix_eq_some.mp hstrip⟩
    rw [stripPrefix_of_ne hn (by decide), stripPrefix_of_ne hn (by decide)]
    rcases hx : numOf d with - | x
    · simp [hone, hx]
    · simp [hone, hx, hplus]

/-! ## Steps in their own direction -/

/-- An integer that a float of 64 bits holds. -/
def HeldExactly (v : ℕ) : Prop := ∃ m e, m < 2 ^ 53 ∧ v = m * 2 ^ e

/-- An integer that is held exactly has no low bits where it is large. -/
theorem HeldExactly.low {v : ℕ} (h : HeldExactly v) :
    v ≠ 2 ^ 63 - 1 ∧ (2 ^ 63 ≤ v → v % 4 = 0) := by
  obtain ⟨m, e, hm, rfl⟩ := h
  rcases Nat.lt_or_ge e 2 with he | he
  · have hpow : 2 ^ e ≤ 2 := Nat.pow_le_pow_right (by decide) (Nat.le_of_lt_succ he)
    have hle : m * 2 ^ e ≤ m * 2 := Nat.mul_le_mul_left m hpow
    omega
  · obtain ⟨k, rfl⟩ := Nat.exists_eq_add_of_le he
    have hfour : m * 2 ^ (2 + k) % 4 = 0 := by
      rw [Nat.pow_add, Nat.mul_left_comm]
      exact Nat.mul_mod_right _ _
    exact ⟨fun heq ↦ by omega, fun _ ↦ hfour⟩

/-- A percentage of a multiple of four is never a half. -/
theorem Form.amount_eq_most {v : ℕ} (form : Form) (h : v % 4 = 0) : form.amount v = form.most v := by
  cases form with
  | fewer n =>
    have hfour : v * n % 4 = 0 := by rw [Nat.mul_mod, h, Nat.zero_mul, Nat.zero_mod]
    rw [amount, most]
    omega
  | _ => rfl

/-- What is promised of one step and one knob. -/
structure StepsRightly (step : String) (v : ℕ) : Prop where
  admitted : parseStep step = .ok () → ∃ form, IsForm (Text.words step) form ∧
    ∃ w, stepTo step (.posInt v) = some (.posInt w) ∧ form.Moves v w
  refused : parseStep step = .error (.form step) → stepTo step (.posInt v) = none

end Spira.DesiredState
