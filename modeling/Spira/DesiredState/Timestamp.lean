import Mathlib.Data.List.Basic
import Spira.Lib.Civil
import Spira.Lib.Digits

/-!
# Timestamps

`parse_rfc3339` reads the one form that this harness stamps, and `format_rfc3339` writes it.  Each has
the civil calendar's arithmetic in its own direction; the reader looks at each field alone, so it
also accepts a day that its month does not have.
-/

set_option autoImplicit false

namespace Spira.DesiredState

open Digits Civil

/-- A field of a stamp. -/
def num (t : List Char) : Option ℤ := if t.all Char.isDigit then some (value t) else none

/-- `YYYY-MM-DDTHH:MM:SSZ`, as epoch seconds.  What is accepted is ASCII, so its bytes are its
characters. -/
def parseRfc3339 (s : String) : Option ℕ :=
  let b := s.toList
  if b.length ≠ 20 ∨ b[4]? ≠ some '-' ∨ b[7]? ≠ some '-' ∨ b[10]? ≠ some 'T' ∨ b[13]? ≠ some ':' then
    none
  else if b[16]? ≠ some ':' ∨ b[19]? ≠ some 'Z' then none
  else do
    let y ← num (b.take 4)
    let m ← num ((b.drop 5).take 2)
    let d ← num ((b.drop 8).take 2)
    let h ← num ((b.drop 11).take 2)
    let mi ← num ((b.drop 14).take 2)
    let sec ← num ((b.drop 17).take 2)
    if ¬ (1 ≤ m ∧ m ≤ 12) ∨ ¬ (1 ≤ d ∧ d ≤ 31) ∨ h > 23 ∨ mi > 59 ∨ sec > 59 then none
    else
      let y := if m ≤ 2 then y - 1 else y
      let era := (if 0 ≤ y then y else y - 399).tdiv 400
      let yoe := y - era * 400
      let mp := (m + 9) % 12
      let doy := (153 * mp + 2) / 5 + d - 1
      let doe := yoe * 365 + yoe / 4 - yoe / 100 + doy
      let days := era * 146097 + doe - 719468
      let n := days * 86400 + h * 3600 + mi * 60 + sec
      if 0 ≤ n then some n.toNat else none

/-- UTC, second precision. -/
def formatRfc3339 (epochSecs : ℕ) : String :=
  let days : ℤ := (epochSecs / 86400 : ℕ)
  let secsOfDay := epochSecs % 86400
  let z := days + 719468
  let era := (if 0 ≤ z then z else z - 146096).tdiv 146097
  let doe := z - era * 146097
  let yoe := (doe - doe / 1460 + doe / 36524 - doe / 146096) / 365
  let y := yoe + era * 400
  let doy := doe - (365 * yoe + yoe / 4 - yoe / 100)
  let mp := (5 * doy + 2) / 153
  let d := doy - (153 * mp + 2) / 5 + 1
  let m := if mp < 10 then mp + 3 else mp - 9
  let y := if m ≤ 2 then y + 1 else y
  let h := secsOfDay / 3600
  let mi := secsOfDay % 3600 / 60
  let s := secsOfDay % 60
  String.ofList (pad 4 y.toNat ++ '-' :: (pad 2 m.toNat ++ '-' :: (pad 2 d.toNat ++ 'T' ::
    (pad 2 h ++ ':' :: (pad 2 mi ++ ':' :: (pad 2 s ++ ['Z']))))))

/-! ## Stamps -/

/-- What a stamp names. -/
structure Stamp where
  year : ℕ
  month : ℕ
  day : ℕ
  hour : ℕ
  minute : ℕ
  second : ℕ
  deriving DecidableEq

namespace Stamp

def text (t : Stamp) : List Char :=
  pad 4 t.year ++ '-' :: (pad 2 t.month ++ '-' :: (pad 2 t.day ++ 'T' ::
    (pad 2 t.hour ++ ':' :: (pad 2 t.minute ++ ':' :: (pad 2 t.second ++ ['Z'])))))

def date (t : Stamp) : Date := ⟨t.year, t.month, t.day⟩

/-- Each field is within its own bounds. -/
structure Bounded (t : Stamp) : Prop where
  year : t.year < 10 ^ 4
  month : 1 ≤ t.month ∧ t.month ≤ 12
  day : 1 ≤ t.day ∧ t.day ≤ 31
  hour : t.hour ≤ 23
  minute : t.minute ≤ 59
  second : t.second ≤ 59

/-- The epoch seconds of a stamp. -/
def secs (t : Stamp) : ℤ :=
  (toDays t.date - 719468) * 86400 + t.hour * 3600 + t.minute * 60 + t.second

/-- The stamp of an epoch second. -/
def of (n : ℕ) : Stamp :=
  let d := ofDays ((n / 86400 : ℕ) + 719468)
  ⟨d.year.toNat, d.month.toNat, d.day.toNat, n % 86400 / 3600, n % 86400 % 3600 / 60, n % 86400 % 60⟩

end Stamp

/-! ## The days' arithmetic -/

/-- The era of a year, which has 400 years. -/
theorem era_eq (y : ℤ) : (if 0 ≤ y then y else y - 399).tdiv 400 = y / 400 := by
  split
  · rename_i h
    exact Int.tdiv_eq_ediv_of_nonneg h
  · have hneg : y - 399 = -(399 - y) := by omega
    rw [hneg, Int.neg_tdiv, Int.tdiv_eq_ediv_of_nonneg (by omega)]
    omega

/-- The reader's days are those of the calendar, from the epoch on. -/
theorem toDays_eq (y m d : ℤ) : toDays ⟨y, m, d⟩ = marchYear y m / 400 * 146097 +
    ((marchYear y m - marchYear y m / 400 * 400) * 365 +
      (marchYear y m - marchYear y m / 400 * 400) / 4 -
        (marchYear y m - marchYear y m / 400 * 400) / 100 +
          ((153 * ((m + 9) % 12) + 2) / 5 + d - 1)) := by
  rw [toDays, yearStart, monthStart, marchMonth]
  dsimp only
  omega

theorem formatRfc3339_eq (n : ℕ) : formatRfc3339 n = String.ofList (Stamp.of n).text := by
  have hz : (0 : ℤ) ≤ (n / 86400 : ℕ) + 719468 := by omega
  rw [formatRfc3339, if_pos hz, Int.tdiv_eq_ediv_of_nonneg hz]
  rfl

/-! ## What is read -/

/-- A run of characters up to one that is known. -/
theorem split_at {l : List Char} {i : ℕ} {c : Char} (h : l[i]? = some c) :
    l = l.take i ++ c :: l.drop (i + 1) := by
  obtain ⟨hi, rfl⟩ := List.getElem?_eq_some_iff.mp h
  rw [List.getElem_cons_drop, List.take_append_drop]

theorem num_eq_some {t : List Char} {v : ℤ} :
    num t = some v ↔ (∀ c ∈ t, c.isDigit) ∧ (value t : ℤ) = v := by
  rw [num, ← List.all_eq_true]
  split <;> rename_i h
  · simp [h]
  · simp [h]

theorem num_pad (width n : ℕ) : num (pad width n) = some (n : ℤ) :=
  num_eq_some.mpr ⟨fun _ ↦ isDigit_of_mem_pad, by rw [value_pad]⟩

/-- The parts of a stamp, and where each stands in it. -/
theorem text_parts {y m d h mi s : List Char} (hy : y.length = 4) (hm : m.length = 2)
    (hd : d.length = 2) (hh : h.length = 2) (hmi : mi.length = 2) (hs : s.length = 2) (b : List Char)
    (hb : b = y ++ '-' :: (m ++ '-' :: (d ++ 'T' :: (h ++ ':' :: (mi ++ ':' :: (s ++ ['Z'])))))) :
    (b.length = 20 ∧ b[4]? = some '-' ∧ b[7]? = some '-' ∧ b[10]? = some 'T' ∧ b[13]? = some ':' ∧
      b[16]? = some ':' ∧ b[19]? = some 'Z') ∧
    b.take 4 = y ∧ (b.drop 5).take 2 = m ∧ (b.drop 8).take 2 = d ∧ (b.drop 11).take 2 = h ∧
      (b.drop 14).take 2 = mi ∧ (b.drop 17).take 2 = s := by
  obtain ⟨y₀, y₁, y₂, y₃, rfl⟩ : ∃ y₀ y₁ y₂ y₃, y = [y₀, y₁, y₂, y₃] := by
    match y, hy with
    | [y₀, y₁, y₂, y₃], _ => exact ⟨y₀, y₁, y₂, y₃, rfl⟩
  obtain ⟨m₀, m₁, rfl⟩ := List.length_eq_two.mp hm
  obtain ⟨d₀, d₁, rfl⟩ := List.length_eq_two.mp hd
  obtain ⟨h₀, h₁, rfl⟩ := List.length_eq_two.mp hh
  obtain ⟨i₀, i₁, rfl⟩ := List.length_eq_two.mp hmi
  obtain ⟨s₀, s₁, rfl⟩ := List.length_eq_two.mp hs
  subst hb
  exact ⟨⟨rfl, rfl, rfl, rfl, rfl, rfl, rfl⟩, rfl, rfl, rfl, rfl, rfl, rfl⟩

/-- A list with a stamp's separators is its parts. -/
theorem eq_parts {b : List Char} (hlen : b.length = 20) (h₄ : b[4]? = some '-')
    (h₇ : b[7]? = some '-') (h₁₀ : b[10]? = some 'T') (h₁₃ : b[13]? = some ':')
    (h₁₆ : b[16]? = some ':') (h₁₉ : b[19]? = some 'Z') :
    b = b.take 4 ++ '-' :: ((b.drop 5).take 2 ++ '-' :: ((b.drop 8).take 2 ++ 'T' ::
      ((b.drop 11).take 2 ++ ':' :: ((b.drop 14).take 2 ++ ':' :: ((b.drop 17).take 2 ++ ['Z']))))) := by
  have next (i : ℕ) {c : Char} (h : b[i + 2]? = some c) :
      b.drop i = (b.drop i).take 2 ++ c :: b.drop (i + 3) := by
    have hsplit := split_at (l := b.drop i) (i := 2) (by rwa [List.getElem?_drop])
    rwa [List.drop_drop] at hsplit
  have hend : b.drop 20 = [] := List.drop_eq_nil_of_le hlen.le
  rw [← hend, ← next 17 h₁₉, ← next 14 h₁₆, ← next 11 h₁₃, ← next 8 h₁₀, ← next 5 h₇]
  exact split_at h₄

/-- **What is read**: the stamps whose fields are each within their bounds, from the epoch on. -/
theorem parseRfc3339_eq_some {s : String} {n : ℕ} : parseRfc3339 s = some n ↔
    ∃ t : Stamp, t.Bounded ∧ s.toList = t.text ∧ t.secs = n := by
  rw [parseRfc3339]
  constructor
  · intro h
    split at h
    · cases h
    rename_i hfront
    split at h
    · cases h
    rename_i hback
    push Not at hfront hback
    obtain ⟨hlen, h₄, h₇, h₁₀, h₁₃⟩ := hfront
    obtain ⟨h₁₆, h₁₉⟩ := hback
    obtain ⟨_, hy, h⟩ := Option.bind_eq_some_iff.mp h
    obtain ⟨_, hm, h⟩ := Option.bind_eq_some_iff.mp h
    obtain ⟨_, hd, h⟩ := Option.bind_eq_some_iff.mp h
    obtain ⟨_, hh, h⟩ := Option.bind_eq_some_iff.mp h
    obtain ⟨_, hmi, h⟩ := Option.bind_eq_some_iff.mp h
    obtain ⟨_, hs, h⟩ := Option.bind_eq_some_iff.mp h
    obtain ⟨hy', rfl⟩ := num_eq_some.mp hy
    obtain ⟨hm', rfl⟩ := num_eq_some.mp hm
    obtain ⟨hd', rfl⟩ := num_eq_some.mp hd
    obtain ⟨hh', rfl⟩ := num_eq_some.mp hh
    obtain ⟨hmi', rfl⟩ := num_eq_some.mp hmi
    obtain ⟨hs', rfl⟩ := num_eq_some.mp hs
    split at h
    · cases h
    rename_i hbounds
    push Not at hbounds
    dsimp only at h
    have hdays := toDays_eq (value (s.toList.take 4)) (value ((s.toList.drop 5).take 2))
      (value ((s.toList.drop 8).take 2))
    rw [marchYear] at hdays
    rw [era_eq, ← hdays] at h
    split at h
    · rename_i hpos
      obtain rfl := Option.some.inj h
      have hlen₄ : (s.toList.take 4).length = 4 := by
        rw [List.length_take]
        omega
      have hlen₂ (i : ℕ) (hi : i ≤ 17) : ((s.toList.drop i).take 2).length = 2 := by
        rw [List.length_take, List.length_drop]
        omega
      have hpad (i : ℕ) (hi : i ≤ 17) (h : ∀ c ∈ (s.toList.drop i).take 2, c.isDigit) :
          pad 2 (value ((s.toList.drop i).take 2)) = (s.toList.drop i).take 2 := by
        have hp := pad_value (List.ne_nil_of_length_pos (by rw [hlen₂ i hi]; decide)) h
        rwa [hlen₂ i hi] at hp
      have hyear : pad 4 (value (s.toList.take 4)) = s.toList.take 4 := by
        have hp := pad_value (List.ne_nil_of_length_pos (by rw [hlen₄]; decide)) hy'
        rwa [hlen₄] at hp
      refine ⟨⟨value (s.toList.take 4), value ((s.toList.drop 5).take 2),
        value ((s.toList.drop 8).take 2), value ((s.toList.drop 11).take 2),
          value ((s.toList.drop 14).take 2), value ((s.toList.drop 17).take 2)⟩, ?_, ?_, ?_⟩
      · have hlt := value_lt hy'
        rw [hlen₄] at hlt
        exact
          { year := hlt
            month := by dsimp only; omega
            day := by dsimp only; omega
            hour := by dsimp only; omega
            minute := by dsimp only; omega
            second := by dsimp only; omega }
      · rw [Stamp.text, hyear, hpad 5 (by decide) hm', hpad 8 (by decide) hd',
          hpad 11 (by decide) hh', hpad 14 (by decide) hmi',
          hpad 17 (by decide) hs']
        exact eq_parts hlen h₄ h₇ h₁₀ h₁₃ h₁₆ h₁₉
      · exact (Int.toNat_of_nonneg hpos).symm
    · cases h
  · rintro ⟨t, ht, hs, hsecs⟩
    have two {n : ℕ} (hn : n ≤ 59) : (pad 2 n).length = 2 := length_pad (by decide) (by omega)
    obtain ⟨hmonth, hday⟩ := And.intro ht.month ht.day
    obtain ⟨⟨hlen, h₄, h₇, h₁₀, h₁₃, h₁₆, h₁₉⟩, hy, hm, hd, hh, hmi, hs⟩ :=
      text_parts (length_pad (by decide) ht.year) (two (by omega)) (two (by omega))
        (two (ht.hour.trans (by decide))) (two ht.minute) (two ht.second) s.toList hs
    rw [if_neg (by push Not; exact ⟨hlen, h₄, h₇, h₁₀, h₁₃⟩), if_neg (by push Not; exact ⟨h₁₆, h₁₉⟩),
      hy, hm, hd, hh, hmi, hs]
    have hfields : ¬ (¬ (1 ≤ (t.month : ℤ) ∧ (t.month : ℤ) ≤ 12) ∨
        ¬ (1 ≤ (t.day : ℤ) ∧ (t.day : ℤ) ≤ 31) ∨ (t.hour : ℤ) > 23 ∨ (t.minute : ℤ) > 59 ∨
          (t.second : ℤ) > 59) := by
      obtain ⟨hhour, hminute, hsecond⟩ := And.intro ht.hour (And.intro ht.minute ht.second)
      omega
    have hdays := toDays_eq t.year t.month t.day
    rw [marchYear] at hdays
    simp only [num_pad, Option.bind_eq_bind, Option.bind_some, if_neg hfields, era_eq]
    rw [← hdays]
    have hpos : 0 ≤ t.secs := by omega
    rw [Stamp.secs, Stamp.date] at hpos hsecs
    rw [if_pos hpos, hsecs, Int.toNat_natCast]

/-! ## Dates that the calendar has -/

namespace Stamp

variable {t u : Stamp}

theorem text_inj (h : t.text = u.text) : t = u := by
  rw [text, text] at h
  obtain ⟨hyear, h⟩ := pad_append_cons_inj (by decide) h
  obtain ⟨hmonth, h⟩ := pad_append_cons_inj (by decide) h
  obtain ⟨hday, h⟩ := pad_append_cons_inj (by decide) h
  obtain ⟨hhour, h⟩ := pad_append_cons_inj (by decide) h
  obtain ⟨hminute, h⟩ := pad_append_cons_inj (by decide) h
  obtain ⟨hsecond, -⟩ := pad_append_cons_inj (by decide) h
  rcases t with ⟨⟩
  rcases u with ⟨⟩
  simp_all

/-- Stamps in the order of their fields. -/
theorem text_lt_iff (ht : t.Bounded) (hu : u.Bounded) : t.text < u.text ↔
    t.year < u.year ∨ t.year = u.year ∧ (t.month < u.month ∨ t.month = u.month ∧
      (t.day < u.day ∨ t.day = u.day ∧ (t.hour < u.hour ∨ t.hour = u.hour ∧
        (t.minute < u.minute ∨ t.minute = u.minute ∧ t.second < u.second)))) := by
  obtain ⟨hmt, hmu⟩ := And.intro ht.month hu.month
  obtain ⟨hdt, hdu⟩ := And.intro ht.day hu.day
  have two {n : ℕ} (h : n ≤ 59) : n < 10 ^ 2 := by omega
  rw [text, text, pad_append_lt_iff (by decide) ht.year hu.year, List.cons_lt_cons_iff,
    pad_append_lt_iff (by decide) (two (by omega)) (two (by omega)), List.cons_lt_cons_iff,
    pad_append_lt_iff (by decide) (two (by omega)) (two (by omega)), List.cons_lt_cons_iff,
    pad_append_lt_iff (by decide) (two (ht.hour.trans (by decide))) (two (hu.hour.trans (by decide))),
    List.cons_lt_cons_iff, pad_append_lt_iff (by decide) (two ht.minute) (two hu.minute),
    List.cons_lt_cons_iff, pad_append_lt_iff (by decide) (two ht.second) (two hu.second)]
  simp

/-- **The stamps of days that the calendar has are in the order of their seconds.** -/
theorem text_lt_iff_secs_lt (ht : t.Bounded) (hu : u.Bounded) (htd : t.date.Valid)
    (hud : u.date.Valid) : t.text < u.text ↔ t.secs < u.secs := by
  obtain ⟨hth, htm, hts⟩ := And.intro ht.hour (And.intro ht.minute ht.second)
  obtain ⟨huh, hum, hus⟩ := And.intro hu.hour (And.intro hu.minute hu.second)
  rw [text_lt_iff ht hu, secs, secs]
  rcases t.date.trichotomy u.date with hlt | heq | hlt
  · have hdays := toDays_lt htd hud hlt
    simp only [Date.Before, date] at hlt
    omega
  · have hfields := heq
    rw [date, date, Date.mk.injEq] at hfields
    rw [heq]
    omega
  · have hdays := toDays_lt hud htd hlt
    simp only [Date.Before, date] at hlt
    omega

theorem secs_div (ht : t.Bounded) {n : ℕ} (h : t.secs = n) :
    ((n / 86400 : ℕ) : ℤ) + 719468 = toDays t.date ∧ n % 86400 = t.hour * 3600 + t.minute * 60 + t.second := by
  obtain ⟨hhour, hminute, hsecond⟩ := And.intro ht.hour (And.intro ht.minute ht.second)
  rw [secs] at h
  omega

/-- A day from year zero on is in a year from zero on. -/
theorem year_nonneg {z : ℤ} (h : 0 ≤ z) : 0 ≤ (ofDays z).year := by
  by_contra hneg
  have hlt : toDays (ofDays z) < toDays ⟨0, 3, 1⟩ :=
    toDays_lt (ofDays_valid z) (by decide) (.inl (not_le.mp hneg))
  have hzero : toDays ⟨0, 3, 1⟩ = 0 := rfl
  rw [toDays_ofDays] at hlt
  omega

theorem of_date (n : ℕ) : (of n).date = ofDays ((n / 86400 : ℕ) + 719468) := by
  have hvalid := ofDays_valid ((n / 86400 : ℕ) + 719468)
  have hyear := year_nonneg (z := (n / 86400 : ℕ) + 719468) (by omega)
  obtain ⟨hmonth, hday⟩ := And.intro hvalid.month hvalid.day
  rw [of, date, Int.toNat_of_nonneg hyear, Int.toNat_of_nonneg (by omega),
    Int.toNat_of_nonneg (by omega)]

theorem of_valid (n : ℕ) : (of n).date.Valid := of_date n ▸ ofDays_valid _

theorem secs_of (n : ℕ) : (of n).secs = n := by
  rw [secs, of_date, toDays_ofDays, of]
  dsimp only
  omega

/-- A stamp is that of its seconds where the calendar has its day. -/
theorem of_eq (ht : t.Bounded) {n : ℕ} (h : t.secs = n) : of n = t ↔ t.date.Valid := by
  obtain ⟨hdays, hclock⟩ := secs_div ht h
  constructor
  · rintro rfl
    exact of_valid n
  · intro hvalid
    obtain ⟨hhour, hminute, hsecond⟩ := And.intro ht.hour (And.intro ht.minute ht.second)
    rw [of, hdays, ofDays_toDays hvalid, hclock]
    rcases t with ⟨year, month, day, hour, minute, second⟩
    dsimp only at hhour hminute hsecond
    simp only [date, Int.toNat_natCast, mk.injEq, true_and]
    omega

end Stamp

/-- The first second that four digits of a year do not reach. -/
def year10000 : ℕ := 253402300800

theorem Stamp.of_bounded {n : ℕ} (h : n < year10000) : (Stamp.of n).Bounded := by
  have hvalid := of_valid n
  have hdays : toDays (of n).date < toDays ⟨10000, 1, 1⟩ := by
    have hlast : toDays ⟨10000, 1, 1⟩ = 2932897 + 719468 := rfl
    rw [of_date, toDays_ofDays, hlast]
    rw [year10000] at h
    omega
  have hyear : (of n).date.Before ⟨10000, 1, 1⟩ := by
    rcases (of n).date.trichotomy ⟨10000, 1, 1⟩ with hlt | heq | hlt
    · exact hlt
    · exact absurd (heq ▸ hdays) (lt_irrefl _)
    · exact absurd (toDays_lt (by decide) hvalid hlt) (by omega)
  obtain ⟨hmonth, hday⟩ := And.intro hvalid.month hvalid.day
  have hlong := monthDays_le (of n).date.year (of n).date.month
  simp only [Date.Before, date] at hyear hmonth hday hlong
  exact
    { year := by omega
      month := by omega
      day := by omega
      hour := by rw [of]; dsimp only; omega
      minute := by rw [of]; dsimp only; omega
      second := by rw [of]; dsimp only; omega }

/-! ## Round trips -/

/-- The day that a stamp's text names. -/
def dateOf (s : String) : Date :=
  ⟨value (s.toList.take 4), value ((s.toList.drop 5).take 2), value ((s.toList.drop 8).take 2)⟩

theorem dateOf_eq {s : String} {t : Stamp} (ht : t.Bounded) (h : s.toList = t.text) :
    dateOf s = t.date := by
  have two {n : ℕ} (hn : n ≤ 59) : (pad 2 n).length = 2 := length_pad (by decide) (by omega)
  obtain ⟨hmonth, hday⟩ := And.intro ht.month ht.day
  obtain ⟨-, hy, hm, hd, -⟩ :=
    text_parts (length_pad (by decide) ht.year) (two (by omega)) (two (by omega))
      (two (ht.hour.trans (by decide))) (two ht.minute) (two ht.second) s.toList h
  rw [dateOf, hy, hm, hd, value_pad, value_pad, value_pad, Stamp.date]

theorem parseRfc3339_formatRfc3339 {n : ℕ} (h : n < year10000) :
    parseRfc3339 (formatRfc3339 n) = some n := by
  refine parseRfc3339_eq_some.mpr ⟨Stamp.of n, Stamp.of_bounded h, ?_, Stamp.secs_of n⟩
  rw [formatRfc3339_eq, String.toList_ofList]

/-- What is read is written back where the calendar has its day. -/
theorem formatRfc3339_eq_iff {s : String} {n : ℕ} (h : parseRfc3339 s = some n) :
    formatRfc3339 n = s ↔ (dateOf s).Valid := by
  obtain ⟨t, ht, htext, hsecs⟩ := parseRfc3339_eq_some.mp h
  rw [dateOf_eq ht htext, ← Stamp.of_eq ht hsecs, formatRfc3339_eq, ← String.toList_inj,
    String.toList_ofList, htext]
  exact ⟨Stamp.text_inj, fun heq ↦ heq ▸ rfl⟩

theorem lt_iff_of_valid {s t : String} {a b : ℕ} (hs : parseRfc3339 s = some a)
    (ht : parseRfc3339 t = some b) (hsd : (dateOf s).Valid) (htd : (dateOf t).Valid) :
    s < t ↔ a < b := by
  obtain ⟨x, hx, hxtext, hxsecs⟩ := parseRfc3339_eq_some.mp hs
  obtain ⟨y, hy, hytext, hysecs⟩ := parseRfc3339_eq_some.mp ht
  rw [dateOf_eq hx hxtext] at hsd
  rw [dateOf_eq hy hytext] at htd
  have hlt := Stamp.text_lt_iff_secs_lt hx hy hsd htd
  rw [← hxtext, ← hytext, hxsecs, hysecs, Int.ofNat_lt] at hlt
  exact hlt

/-- **Timestamps round trip on the days that the calendar has.**  What is written is read back, up to
the year 10000.  Two stamps that are read are the ones that their seconds are written as, and are in
the order of their seconds, exactly where each names a day that its month has: a day is only looked
at as one of thirty-one. -/
theorem timestamps_round_trip {s t : String} {a b : ℕ} (hs : parseRfc3339 s = some a)
    (ht : parseRfc3339 t = some b) :
    (∀ n < year10000, parseRfc3339 (formatRfc3339 n) = some n) ∧
    ((formatRfc3339 a = s ∧ formatRfc3339 b = t ∧ (s < t ↔ a < b)) ↔
      (dateOf s).Valid ∧ (dateOf t).Valid) := by
  refine ⟨fun n ↦ parseRfc3339_formatRfc3339, ?_⟩
  rw [formatRfc3339_eq_iff hs, formatRfc3339_eq_iff ht]
  exact ⟨fun ⟨hsd, htd, _⟩ ↦ ⟨hsd, htd⟩, fun ⟨hsd, htd⟩ ↦ ⟨hsd, htd, lt_iff_of_valid hs ht hsd htd⟩⟩

theorem timestamps_round_trip_leap_day :
    (∀ n < year10000, parseRfc3339 (formatRfc3339 n) = some n) ∧
    ((formatRfc3339 1709164800 = "2024-02-29T00:00:00Z" ∧
        formatRfc3339 1709251199 = "2024-02-29T23:59:59Z" ∧
          ("2024-02-29T00:00:00Z" < "2024-02-29T23:59:59Z" ↔ 1709164800 < 1709251199)) ↔
      (dateOf "2024-02-29T00:00:00Z").Valid ∧ (dateOf "2024-02-29T23:59:59Z").Valid) :=
  timestamps_round_trip (by decide) (by decide)

/-- The thirtieth of February is read as the second of March, after the first. -/
theorem february_thirtieth :
    ¬ (∀ s n, parseRfc3339 s = some n → formatRfc3339 n = s) ∧
    ¬ (∀ s t a b, parseRfc3339 s = some a → parseRfc3339 t = some b → s < t → a < b) := by
  have hthirtieth : parseRfc3339 "2026-02-30T00:00:00Z" = some 1772409600 := by decide
  have hfirst : parseRfc3339 "2026-03-01T00:00:00Z" = some 1772323200 := by decide
  refine ⟨fun h ↦ ?_, fun h ↦ ?_⟩
  · exact absurd (h _ _ hthirtieth) (by decide)
  · exact absurd (h _ _ _ _ hthirtieth hfirst (by decide)) (by decide)

end Spira.DesiredState
