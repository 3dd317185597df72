import JoinPath.Proofs.Number.Digits
import JoinPath.Timestamp.Reader
/-!
# Printed timestamps are read back

The text of a timestamp in JSON is read as that timestamp, whatever its year, its fraction and also
in a leap second (`ofText?_jsonText`).
-/

namespace JoinPath.Timestamp

open Text (isBlank trimLeft trimLeft_of_not_blank)

theorem not_blank_of_digit {c : Char} (h : isDecimalDigit c = true) : isBlank c = false := by
  have hbounds : '0' ≤ c ∧ c ≤ '9' := by simpa [isDecimalDigit] using h
  have low : 48 ≤ c.toNat := hbounds.1
  have high : c.toNat ≤ 57 := hbounds.2
  rw [Bool.eq_false_iff]
  intro hblank
  simp only [isBlank, Bool.or_eq_true, Bool.and_eq_true, decide_eq_true_eq, beq_iff_eq] at hblank
  omega

theorem trimLeft_digits {digits : List Char} (h : AreDigits digits) (hne : digits ≠ [])
    (rest : List Char) : trimLeft (digits ++ rest) = digits ++ rest := by
  obtain ⟨c, digits, rfl⟩ := List.exists_cons_of_ne_nil hne
  exact trimLeft_of_not_blank (not_blank_of_digit (h c List.mem_cons_self)) _

/-- Digits are read up to the end of the field, or to what follows them. -/
theorem digits?_digits {most : ℕ} {digits rest : List Char} (h : AreDigits digits)
    (hne : digits ≠ []) (hle : digits.length ≤ most)
    (hend : digits.length = most ∨ Undigited rest) :
    digits? most (digits ++ rest) = some (digits, rest) := by
  have hrest : Undigited (rest.take (most - digits.length)) := by
    intro c hc
    rcases hend with hfull | hrest
    · rw [hfull, Nat.sub_self, List.take_zero] at hc
      cases hc
    · refine hrest c ?_
      rw [List.head?_take] at hc
      split at hc
      · cases hc
      · exact hc
  rw [digits?, List.take_append, List.take_of_length_le hle, takeWhile_digits h hrest,
    List.drop_left]
  exact if_neg hne

theorem field?_padded {n : ℕ} (h : n < 100) (rest : List Char) :
    field? 2 ((padded 2 n).toList ++ rest) = some (n, rest) := by
  have hlength : (padded 2 n).toList.length = 2 := length_padded (by decide) h
  rw [field?, trimLeft_digits (areDigits_padded 2 n) (padded_ne_nil 2 n),
    digits?_digits (areDigits_padded 2 n) (padded_ne_nil 2 n) (Nat.le_of_eq hlength) (.inl hlength)]
  simp only [Option.map_some, natOfDigits_padded]

theorem mark?_self {c : Char} (h : isBlank c = false) (rest : List Char) :
    mark? c (c :: rest) = some rest := by
  rw [mark?, trimLeft_of_not_blank h]
  exact if_pos rfl

/-- A year with a sign takes all digits that follow. -/
theorem year?_signed (n : ℕ) (rest : List Char) :
    year? ('-' :: ((padded 4 n).toList ++ '-' :: rest)) =
        some (-(n : ℤ), '-' :: rest) ∧
      year? ('+' :: ((padded 4 n).toList ++ '-' :: rest)) =
        some ((n : ℤ), '-' :: rest) := by
  have hlength : (padded 4 n).toList.length ≤ ((padded 4 n).toList ++ '-' :: rest).length := by
    rw [List.length_append]
    exact Nat.le_add_right _ _
  have hends : Undigited ('-' :: rest) := by
    intro c hc
    obtain rfl := Option.some.inj hc
    rfl
  have hread : digits? _ ((padded 4 n).toList ++ '-' :: rest) = _ :=
    digits?_digits (areDigits_padded 4 n) (padded_ne_nil 4 n) hlength (.inr hends)
  have hvalue := natOfDigits_padded 4 n
  constructor
  · rw [year?, trimLeft_of_not_blank (by decide)]
    simp only [hread, Option.map_some, hvalue]
  · rw [year?, trimLeft_of_not_blank (by decide)]
    simp only [hread, Option.map_some, hvalue]

theorem toList_after {mark : String} {c : Char} (h : mark.toList = [c]) (text : String) :
    (mark ++ text).toList = c :: text.toList := by
  rw [String.toList_append, h]
  rfl

theorem year?_yearText (year : ℤ) (rest : List Char) :
    year? ((yearText year).toList ++ '-' :: rest) = some (year, '-' :: rest) := by
  rw [yearText]
  split
  · next hshort =>
    have hdigits := areDigits_padded 4 year.toNat
    have hne := padded_ne_nil 4 year.toNat
    have hlength : (padded 4 year.toNat).toList.length = 4 :=
      length_padded (by decide) (by omega)
    have hread : digits? 4 ((padded 4 year.toNat).toList ++ '-' :: rest) = _ :=
      digits?_digits hdigits hne (Nat.le_of_eq hlength) (.inl hlength)
    have hvalue := natOfDigits_padded 4 year.toNat
    rw [year?, trimLeft_digits hdigits hne]
    generalize (padded 4 year.toNat).toList = digits at *
    obtain ⟨c, digits, rfl⟩ := List.exists_cons_of_ne_nil hne
    have hc := hdigits c List.mem_cons_self
    split
    · next heq => exact absurd ((List.cons.inj heq).1 ▸ hc) (by decide)
    · next heq => exact absurd ((List.cons.inj heq).1 ▸ hc) (by decide)
    · rw [hread]
      simp only [Option.map_some, hvalue, Int.toNat_of_nonneg hshort.1]
  · next hlong =>
    split
    · next hneg =>
      have minus : "-".toList = ['-'] := rfl
      have hvalue : -(year.natAbs : ℤ) = year := by omega
      rw [toList_after minus, List.cons_append, (year?_signed _ _).1, hvalue]
    · next hpos =>
      have plus : "+".toList = ['+'] := rfl
      have hvalue : (year.natAbs : ℤ) = year := by omega
      rw [toList_after plus, List.cons_append, (year?_signed _ _).2, hvalue]

/-- A fraction of `width` digits counts in units of `10 ^ (9 - width)` nanoseconds. -/
theorem fraction?_padded {width n : ℕ} (hpos : 0 < width) (hwidth : width ≤ 9)
    (h : n < 10 ^ width) :
    fraction? ('.' :: (padded width n).toList) = some (n * 10 ^ (9 - width), []) := by
  have hlength := length_padded hpos h
  have hread : digits? 9 ((padded width n).toList ++ []) = _ :=
    digits?_digits (areDigits_padded width n) (padded_ne_nil width n) (hlength.le.trans hwidth)
      (.inr (by simp [Undigited]))
  rw [List.append_nil] at hread
  rw [fraction?, hread]
  simp only [Option.bind_eq_bind, Option.bind_some, natOfDigits_padded, hlength,
    List.dropWhile_nil, Nat.pow_eq]

theorem fraction?_fractionText {n : ℕ} (h : n < 1000000000) :
    fraction? (fractionText n).toList = some (n, []) := by
  have point : ".".toList = ['.'] := rfl
  rw [fractionText]
  split
  · next hzero =>
    rw [hzero]
    rfl
  split
  · next hmilli =>
    rw [toList_after point, fraction?_padded (by decide) (by decide) (by omega)]
    simp only [Option.some.injEq, Prod.mk.injEq, and_true]
    omega
  split
  · next hmicro =>
    rw [toList_after point, fraction?_padded (by decide) (by decide) (by omega)]
    simp only [Option.some.injEq, Prod.mk.injEq, and_true]
    omega
  · rw [toList_after point, fraction?_padded (by decide) (by decide) (by omega)]
    simp

/-- The second that is shown and the fraction give the time back. -/
theorem leapSecond_shown {hour minute second nanosecond : ℕ}
    (h : Calendar.IsTime hour minute second nanosecond) :
    leapSecond (second + nanosecond / 1000000000) (nanosecond % 1000000000) =
      (second, nanosecond) := by
  obtain ⟨-, -, hsecond, hnanosecond, hleap⟩ := h
  unfold leapSecond
  by_cases hlong : 1000000000 ≤ nanosecond
  · have h59 := hleap hlong
    rw [if_pos (by omega), Prod.mk.injEq]
    omega
  · rw [if_neg (by omega), Prod.mk.injEq]
    omega

theorem daysInMonth_le (year : ℤ) (month : ℕ) : Calendar.daysInMonth year month ≤ 31 := by
  unfold Calendar.daysInMonth
  repeat' split
  all_goals decide

theorem toList_jsonText (t : Timestamp) :
    t.jsonText.toList = (yearText t.year).toList ++ '-' :: ((padded 2 t.month).toList ++
      '-' :: ((padded 2 t.day).toList ++ 'T' :: ((padded 2 t.hour).toList ++
      ':' :: ((padded 2 t.minute).toList ++
      ':' :: ((padded 2 (t.second + t.nanosecond / 1000000000)).toList ++
        (fractionText (t.nanosecond % 1000000000)).toList))))) := by
  simp [jsonText, dateText, timeText, String.toList_append]

/-- The text of a timestamp is read as that timestamp. -/
theorem ofText?_jsonText (t : Timestamp) : ofText? t.jsonText = some t := by
  obtain ⟨-, ⟨-, hmonth⟩, -, hday⟩ := t.isDate
  have hdays := daysInMonth_le t.year t.month
  obtain ⟨hhour, hminute, hsecond, hnanosecond, -⟩ := t.isTime
  have hfraction := fraction?_fractionText (n := t.nanosecond % 1000000000) (by omega)
  rw [ofText?, toList_jsonText]
  simp only [year?_yearText, Option.bind_eq_bind, Option.bind_some,
    mark?_self (c := '-') (by decide), mark?_self (c := 'T') (by decide),
    mark?_self (c := ':') (by decide), field?_padded (n := t.month) (by omega),
    field?_padded (n := t.day) (by omega), field?_padded (n := t.hour) (by omega),
    field?_padded (n := t.minute) (by omega),
    field?_padded (n := t.second + t.nanosecond / 1000000000) (by omega), hfraction,
    leapSecond_shown t.isTime]
  exact (if_pos rfl).trans t.ofFields?_self

end JoinPath.Timestamp
