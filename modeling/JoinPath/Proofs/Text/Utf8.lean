import Mathlib.Data.List.Basic
import Mathlib.Tactic.SplitIfs
/-!
# Texts as bytes

The order of texts, which compares code points one by one, is the order of their bytes in UTF-8
(`utf8_lt_utf8_iff`): of two characters the larger has the larger bytes, whatever comes behind them.
So texts that ascend are what sorting by bytes gives (`mergeSort_eq_of_ascending`).
-/

namespace JoinPath.Text

/-- The bytes of a text in UTF-8. -/
def utf8 (s : String) : List UInt8 := s.toUTF8.data.toList

theorem utf8_eq_flatMap (s : String) : utf8 s = s.toList.flatMap String.utf8EncodeChar := by
  rw [utf8, String.toUTF8_eq_toByteArray, ← String.utf8Encode_toList, List.utf8Encode,
    List.toList_data_toByteArray]

theorem byte_cons_lt_iff {m n : ℕ} (hm : m < 256) (hn : n < 256) (s t : List UInt8) :
    UInt8.ofNat m :: s < UInt8.ofNat n :: t ↔ m < n ∨ m = n ∧ s < t := by
  rw [List.cons_lt_cons_iff, UInt8.ofNat_lt_iff_lt hm hn, ← UInt8.toNat_inj, UInt8.toNat_ofNat',
    UInt8.toNat_ofNat', Nat.mod_eq_of_lt hm, Nat.mod_eq_of_lt hn]

theorem codePoint_lt (c : Char) : c.val.toNat < 0x110000 := by
  have h := c.valid
  unfold UInt32.isValidChar Nat.isValidChar at h
  omega

/-- The bytes of two characters differ before either of them ends. -/
theorem encodeChar_append_lt {c d : Char} (h : c < d) (s t : List UInt8) :
    String.utf8EncodeChar c ++ s < String.utf8EncodeChar d ++ t := by
  have hlt : c.val.toNat < d.val.toNat := h
  have hbound := codePoint_lt d
  unfold String.utf8EncodeChar
  dsimp only
  generalize c.val.toNat = m at hlt
  generalize d.val.toNat = n at hlt hbound
  -- Where both have as many bytes, the first groups of six bits that differ decide.
  have groups (b : ℕ) : m / b < n / b ∨ m / b = n / b :=
    Nat.lt_or_eq_of_le (Nat.div_le_div_right (Nat.le_of_lt hlt))
  have hlast := groups 64
  have hmiddle := groups 4096
  have hfirst := groups 262144
  split_ifs
  all_goals simp (disch := omega) only [List.cons_append, List.nil_append, byte_cons_lt_iff,
    Nat.mod_eq_of_lt]
  all_goals omega

theorem flatMap_encodeChar_lt {l m : List Char} (h : l < m) :
    l.flatMap String.utf8EncodeChar < m.flatMap String.utf8EncodeChar := by
  induction l generalizing m with
  | nil =>
    cases m with
    | nil => exact absurd h (List.lt_irrefl [])
    | cons d m =>
      obtain ⟨b, bs, hd⟩ := List.exists_cons_of_ne_nil (String.utf8EncodeChar_ne_nil (c := d))
      rw [List.flatMap_cons, hd]
      exact List.nil_lt_cons _ _
  | cons c l ih =>
    cases m with
    | nil => exact absurd h (List.not_lt_nil _)
    | cons d m =>
      rw [List.flatMap_cons, List.flatMap_cons]
      rcases List.cons_lt_cons_iff.1 h with hcd | ⟨rfl, hlm⟩
      · exact encodeChar_append_lt hcd _ _
      · exact List.append_left_lt (ih hlm)

theorem utf8_lt_of_lt {s t : String} (h : s < t) : utf8 s < utf8 t := by
  rw [utf8_eq_flatMap, utf8_eq_flatMap]
  exact flatMap_encodeChar_lt h

/-- Texts have the order of their bytes. -/
theorem utf8_lt_utf8_iff {s t : String} : utf8 s < utf8 t ↔ s < t := by
  refine ⟨fun h => ?_, utf8_lt_of_lt⟩
  by_contra hge
  by_cases hgt : t < s
  · exact List.lt_asymm h (utf8_lt_of_lt hgt)
  · obtain rfl : s = t := String.le_antisymm (String.not_lt.1 hgt) (String.not_lt.1 hge)
    exact List.lt_irrefl _ h

/-- Whether the bytes of the first text come before those of the second, or are the same. -/
def inByteOrder (s t : String) : Bool := utf8 s ≤ utf8 t

theorem inByteOrder_iff {s t : String} : inByteOrder s t = true ↔ s ≤ t := by
  rw [inByteOrder, decide_eq_true_iff, ← List.not_lt, utf8_lt_utf8_iff, String.not_lt]

/-- Texts that ascend are what sorting them by their bytes gives, however they are listed. -/
theorem mergeSort_eq_of_ascending {listed texts : List String} (h : listed.Perm texts)
    (ascending : texts.Pairwise (· < ·)) : listed.mergeSort inByteOrder = texts := by
  have sorted : (listed.mergeSort inByteOrder).Pairwise fun s t => inByteOrder s t = true := by
    refine List.pairwise_mergeSort (fun s t u hst htu => ?_) (fun s t => ?_) listed
    · exact inByteOrder_iff.2 (String.le_trans (inByteOrder_iff.1 hst) (inByteOrder_iff.1 htu))
    · rw [Bool.or_eq_true, inByteOrder_iff, inByteOrder_iff]
      exact String.le_total s t
  refine ((List.mergeSort_perm _ _).trans h).eq_of_pairwise (fun _ _ _ _ hst hts => ?_) sorted
    (ascending.imp fun hst => inByteOrder_iff.2 (String.not_lt.1 (String.lt_asymm hst)))
  exact String.le_antisymm (inByteOrder_iff.1 hst) (inByteOrder_iff.1 hts)

end JoinPath.Text
