import JoinPath.Json.Numeral
import JoinPath.Number.Text
import JoinPath.Proofs.Text.Numbered
/-!
# Decimal digits

A number is written with digits that are read back as that number, with zeros before them or not
(`natOfDigits_padded`). An integer of 64 bits keeps its value as a JSON number (`ofText?_toString`).
-/

namespace JoinPath

/-- A text of decimal digits. -/
def AreDigits (text : List Char) : Prop := ∀ c ∈ text, isDecimalDigit c = true

/-- The text does not begin with a digit. -/
def Undigited (text : List Char) : Prop := ∀ c ∈ text.head?, isDecimalDigit c = false

theorem isDecimalDigit_of_isDigit {c : Char} (h : c.isDigit = true) : isDecimalDigit c = true := h

theorem AreDigits.append {a b : List Char} (ha : AreDigits a) (hb : AreDigits b) :
    AreDigits (a ++ b) :=
  fun c hc => (List.mem_append.1 hc).elim (ha c) (hb c)

theorem takeWhile_digits {digits rest : List Char} (h : AreDigits digits) (hrest : Undigited rest) :
    (digits ++ rest).takeWhile isDecimalDigit = digits := by
  rw [List.takeWhile_append_of_pos h]
  cases rest with
  | nil => simp
  | cons c rest => rw [List.takeWhile_cons_of_neg (by simp [hrest c rfl]), List.append_nil]

theorem dropWhile_digits {digits rest : List Char} (h : AreDigits digits) (hrest : Undigited rest) :
    (digits ++ rest).dropWhile isDecimalDigit = rest := by
  have both := List.takeWhile_append_dropWhile (p := isDecimalDigit) (l := digits ++ rest)
  rw [takeWhile_digits h hrest] at both
  exact List.append_cancel_left both

/-! ## What digits spell -/

theorem natOfDigits_eq {digits : List Char} (h : AreDigits digits) :
    natOfDigits 10 digits = Nat.ofDigitChars 10 digits 0 := by
  have each (digits : List Char) (h : AreDigits digits) (n : ℕ) :
      digits.foldl (fun n c => n * 10 + (digitValue? c).getD 0) n =
        Nat.ofDigitChars 10 digits n := by
    induction digits generalizing n with
    | nil => rfl
    | cons c digits ih =>
      obtain ⟨hc, hdigits⟩ := List.forall_mem_cons.1 h
      have hdigit : '0' ≤ c ∧ c ≤ '9' := by simpa [isDecimalDigit] using hc
      rw [List.foldl_cons, ih hdigits, Nat.ofDigitChars_cons, digitValue?, if_pos hdigit,
        Option.getD_some, Nat.mul_comm]
  exact each digits h 0

theorem natOfDigits_zeros (k : ℕ) (digits : List Char) :
    natOfDigits 10 (List.replicate k '0' ++ digits) = natOfDigits 10 digits := by
  induction k with
  | zero => rfl
  | succ k ih => exact ih

theorem areDigits_zeros (k : ℕ) : AreDigits (List.replicate k '0') := fun c hc => by
  rw [List.eq_of_mem_replicate hc]
  rfl

theorem areDigits_repr (n : ℕ) : AreDigits n.repr.toList :=
  fun _ hc => isDecimalDigit_of_isDigit (Text.isDigit_of_mem_repr hc)

theorem natOfDigits_repr (n : ℕ) : natOfDigits 10 n.repr.toList = n := by
  rw [natOfDigits_eq (areDigits_repr n), Nat.toList_repr,
    Nat.ofDigitChars_toDigits (by decide) (by decide)]

theorem repr_ne_nil (n : ℕ) : n.repr.toList ≠ [] := by
  rw [Nat.toList_repr, Nat.toDigits_eq_if (by decide)]
  split <;> simp

theorem toList_padded (width n : ℕ) :
    (padded width n).toList =
      List.replicate (width - n.repr.length) '0' ++ n.repr.toList := by
  rw [padded, String.toList_append, String.toList_ofList]

theorem areDigits_padded (width n : ℕ) : AreDigits (padded width n).toList := by
  rw [toList_padded]
  exact (areDigits_zeros _).append (areDigits_repr n)

theorem natOfDigits_padded (width n : ℕ) : natOfDigits 10 (padded width n).toList = n := by
  rw [toList_padded, natOfDigits_zeros, natOfDigits_repr]

theorem padded_ne_nil (width n : ℕ) : (padded width n).toList ≠ [] := by
  rw [toList_padded]
  exact List.append_ne_nil_of_right_ne_nil _ (repr_ne_nil n)

/-- A number that fits takes exactly the width. -/
theorem length_padded {width n : ℕ} (hpos : 0 < width) (h : n < 10 ^ width) :
    (padded width n).toList.length = width := by
  have hle : n.repr.length ≤ width := by
    rw [← String.length_toList, Nat.toList_repr]
    exact (Nat.length_toDigits_le_iff (by decide) hpos).2 h
  rw [toList_padded, List.length_append, List.length_replicate, String.length_toList]
  omega

/-! ## Integers of JSON -/

/-- Digits of a positive number do not begin with a zero. -/
theorem head?_toDigits_ne {n : ℕ} (h : 0 < n) : (Nat.toDigits 10 n).head? ≠ some '0' := by
  induction n using Nat.strongRecOn with
  | _ n ih =>
    rw [Nat.toDigits_eq_if (by decide)]
    split
    · next hlt => interval_cases n <;> decide
    · next hle =>
      have hpos : 0 < n / 10 := by omega
      have hne : Nat.toDigits 10 (n / 10) ≠ [] := Nat.toList_repr (n := n / 10) ▸ repr_ne_nil _
      rw [List.head?_append_of_ne_nil _ hne]
      exact ih (n / 10) (by omega) hpos

namespace Numeral

/-- The text cannot go on with the number that ends before it. -/
def Stops (rest : List Char) : Prop :=
  Undigited rest ∧ ∀ c ∈ rest.head?, c ≠ '.' ∧ c ≠ 'e' ∧ c ≠ 'E'

/-- The parts of an integer. -/
def ofInt (n : ℤ) : Numeral := ⟨decide (n < 0), n.natAbs.repr.toList, [], none⟩

theorem digits?_digits {digits rest : List Char} (h : AreDigits digits) (hne : digits ≠ [])
    (hrest : Undigited rest) : digits? (digits ++ rest) = some (digits, rest) := by
  rw [digits?, takeWhile_digits h hrest, dropWhile_digits h hrest]
  exact if_neg hne

theorem whole?_repr (n : ℕ) {rest : List Char} (hrest : Undigited rest) :
    whole? (n.repr.toList ++ rest) = some (n.repr.toList, rest) := by
  rw [whole?, digits?_digits (areDigits_repr n) (repr_ne_nil n) hrest]
  simp only [Option.bind_eq_bind, Option.bind_some]
  split
  · next c digits heq =>
    obtain ⟨hdigits, -⟩ := Prod.mk.inj heq
    rw [Nat.toList_repr] at hdigits
    rcases Nat.eq_zero_or_pos n with rfl | hpos
    · cases hdigits
    · exact absurd (congrArg List.head? hdigits) (head?_toDigits_ne hpos)
  · rfl

theorem fraction?_stops {rest : List Char} (h : Stops rest) : fraction? rest = some ([], rest) := by
  unfold fraction?
  split
  · exact absurd rfl (h.2 '.' rfl).1
  · rfl

theorem exponent?_stops {rest : List Char} (h : Stops rest) :
    exponent? rest = some (none, rest) := by
  unfold exponent?
  split
  · exact absurd rfl (h.2 'e' rfl).2.1
  · exact absurd rfl (h.2 'E' rfl).2.2
  · rfl

theorem toList_toString (n : ℤ) :
    (toString n).toList = (if n < 0 then ['-'] else []) ++ n.natAbs.repr.toList := by
  rw [Int.toString_eq_repr, Int.repr_eq_if]
  split
  · next h =>
    rw [if_neg (by omega), show n.toNat = n.natAbs by omega]
    rfl
  · next h =>
    rw [if_pos (by omega), show (-n).toNat = n.natAbs by omega, String.toList_append]
    rfl

/-- An integer is read up to its end. -/
theorem read?_toString (n : ℤ) {rest : List Char} (h : Stops rest) :
    read? ((toString n).toList ++ rest) = some (ofInt n, rest) := by
  have hwhole := whole?_repr n.natAbs h.1
  have hfraction := fraction?_stops h
  have hexponent := exponent?_stops h
  rw [toList_toString]
  by_cases hneg : n < 0
  · rw [if_pos hneg]
    simp only [List.cons_append, List.nil_append, read?, hwhole, hfraction, hexponent,
      Option.bind_eq_bind, Option.bind_some, ofInt, hneg, decide_true]
  · rw [if_neg hneg, List.nil_append, read?]
    · simp only [hwhole, hfraction, hexponent, Option.bind_eq_bind, Option.bind_some, ofInt, hneg,
        decide_false]
    · intro after heq
      obtain ⟨c, digits, hdigits⟩ := List.exists_cons_of_ne_nil (repr_ne_nil n.natAbs)
      rw [hdigits] at heq
      obtain rfl := (List.cons.inj heq).1
      exact absurd (areDigits_repr n.natAbs '-' (hdigits ▸ List.mem_cons_self)) (by decide)

/-- Integers of 64 bits, with or without a sign, keep their value. -/
theorem ofText?_toString {n : ℤ} (low : -2 ^ 63 ≤ n) (high : n < 2 ^ 64) :
    ofText? (toString n) = some (.integer n) := by
  have hread : read? ((toString n).toList ++ []) = some (ofInt n, []) :=
    read?_toString n ⟨by simp [Undigited], by simp⟩
  rw [List.append_nil] at hread
  rw [ofText?, hread]
  simp only [Option.bind_eq_bind, Option.bind_some, meaning?, ofInt, natOfDigits_repr]
  by_cases hneg : n < 0
  · rw [if_pos (by simp; omega)]
    simp only [hneg, decide_true, Bool.not_true, Bool.false_eq_true, if_false]
    rw [if_pos (by omega), show -(n.natAbs : ℤ) = n by omega]
  · rw [if_pos (by simp; omega)]
    simp only [hneg, decide_false, Bool.not_false, if_true]
    rw [show (n.natAbs : ℤ) = n by omega]

end Numeral

end JoinPath
