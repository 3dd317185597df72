import JoinPath.Text.Blank
import JoinPath.Text.Split
import Mathlib.Data.List.DropRight
/-!
# Parts and blanks

A text is cut at a separator into the parts that give it when they are joined with the separator,
and there is one row of such parts (`splitAll_eq_iff`). Trimming takes the blanks off both ends of a
text and leaves what is between them (`trim_eq_iff`).
-/

namespace JoinPath.Text

variable {separator : Char} {text : List Char}

/-! ## Parts -/

theorem splitAll_eq_splitOn (separator : Char) (text : List Char) :
    splitAll separator text = text.splitOn separator := by
  induction text with
  | nil => rfl
  | cons c text ih =>
    rw [splitAll, List.splitOn_cons_eq_if_modifyHead, ih]
    by_cases h : c = separator
    · rw [if_pos h, if_pos (beq_iff_eq.2 h)]
    · rw [if_neg h, if_neg (mt beq_iff_eq.1 h)]
      cases hrest : text.splitOn separator with
      | nil => exact absurd hrest (List.splitOn_ne_nil _ _)
      | cons part parts => rfl

theorem splitAll_intercalate {parts : List (List Char)} (hne : parts ≠ [])
    (h : ∀ part ∈ parts, separator ∉ part) :
    splitAll separator ([separator].intercalate parts) = parts := by
  rw [splitAll_eq_splitOn]
  exact List.splitOn_intercalate separator h hne

theorem not_mem_of_mem_splitAll {part : List Char} (h : part ∈ splitAll separator text) :
    separator ∉ part := by
  induction text generalizing part with
  | nil =>
    rw [List.mem_singleton.1 h]
    exact List.not_mem_nil
  | cons c text ih =>
    unfold splitAll at h
    split at h
    · rcases List.mem_cons.1 h with rfl | h
      · exact List.not_mem_nil
      · exact ih h
    · next hc =>
      cases hrest : splitAll separator text with
      | nil => exact absurd hrest (splitAll_ne_nil _ _)
      | cons first parts =>
        rw [hrest] at h ih
        rcases List.mem_cons.1 h with rfl | h
        · exact List.not_mem_cons_of_ne_of_not_mem (Ne.symm hc) (ih List.mem_cons_self)
        · exact ih (List.mem_cons_of_mem _ h)

/-- The parts of a text are those without the separator that give it when they are joined. -/
theorem splitAll_eq_iff {parts : List (List Char)} :
    splitAll separator text = parts ↔
      parts ≠ [] ∧ (∀ part ∈ parts, separator ∉ part) ∧ text = [separator].intercalate parts := by
  constructor
  · rintro rfl
    exact ⟨splitAll_ne_nil _ _, fun _ => not_mem_of_mem_splitAll,
      (intercalate_splitAll _ _).symm⟩
  · rintro ⟨hne, h, rfl⟩
    exact splitAll_intercalate hne h

theorem splitFirst?_eq_none_iff : splitFirst? separator text = none ↔ separator ∉ text := by
  induction text with
  | nil => simp [splitFirst?]
  | cons c text ih =>
    unfold splitFirst?
    by_cases hc : c = separator
    · simp [hc]
    · simp [hc, ih, Ne.symm hc]

/-- The first separator has none before it. -/
theorem splitFirst?_eq_some_iff {before after : List Char} :
    splitFirst? separator text = some (before, after) ↔
      text = before ++ separator :: after ∧ separator ∉ before := by
  constructor
  · intro h
    refine ⟨eq_of_splitFirst? h, ?_⟩
    induction text generalizing before after with
    | nil => cases h
    | cons c text ih =>
      unfold splitFirst? at h
      split at h
      · obtain ⟨rfl, -⟩ := Prod.mk.inj (Option.some.inj h)
        exact List.not_mem_nil
      · next hc =>
        obtain ⟨⟨first, rest⟩, hrest, hparts⟩ := Option.map_eq_some_iff.1 h
        obtain ⟨rfl, -⟩ := Prod.mk.inj hparts
        exact List.not_mem_cons_of_ne_of_not_mem (Ne.symm hc) (ih hrest)
  · rintro ⟨rfl, h⟩
    induction before with
    | nil => simp [splitFirst?]
    | cons c before ih =>
      rw [List.cons_append, splitFirst?, if_neg (Ne.symm (List.ne_of_not_mem_cons h)),
        ih (List.not_mem_of_not_mem_cons h)]
      rfl

/-! ## Blanks -/

/-- Nothing but blanks. -/
def AreBlank (text : List Char) : Prop := ∀ c ∈ text, isBlank c = true

/-- A text without blanks at its ends. -/
structure IsTrimmed (text : List Char) : Prop where
  first : ∀ c ∈ text.head?, isBlank c = false
  last : ∀ c ∈ text.getLast?, isBlank c = false

theorem areBlank_nil : AreBlank [] := fun _ h => (nomatch h)

theorem isTrimmed_nil : IsTrimmed [] := ⟨fun _ h => (nomatch h), fun _ h => (nomatch h)⟩

theorem trimLeft_append {left : List Char} (h : AreBlank left) (text : List Char) :
    trimLeft (left ++ text) = trimLeft text :=
  List.dropWhile_append_of_pos h

theorem trimRight_append {right : List Char} (h : AreBlank right) (text : List Char) :
    trimRight (text ++ right) = trimRight text := by
  unfold trimRight
  rw [List.reverse_append, List.dropWhile_append_of_pos]
  intro c hc
  exact h c (List.mem_reverse.1 hc)

theorem trimRight_of_last (h : ∀ c ∈ text.getLast?, isBlank c = false) :
    trimRight text = text := by
  refine List.rdropWhile_eq_self_iff.2 fun hne => ?_
  rw [h _ (List.getLast?_eq_some_getLast hne)]
  exact Bool.false_ne_true

theorem last_trimRight (text : List Char) : ∀ c ∈ (trimRight text).getLast?, isBlank c = false := by
  intro c hc
  obtain ⟨hne, rfl⟩ := List.mem_getLast?_eq_getLast hc
  exact Bool.eq_false_iff.2 (List.rdropWhile_last_not isBlank text hne)

theorem first_trimLeft (text : List Char) : ∀ c ∈ (trimLeft text).head?, isBlank c = false := by
  intro c hc
  have h := List.head?_dropWhile_not isBlank text
  rw [show (text.dropWhile isBlank).head? = some c from hc] at h
  exact h

theorem trimRight_prefix (text : List Char) : trimRight text <+: text :=
  List.rdropWhile_prefix isBlank text

theorem isTrimmed_trim (text : List Char) : IsTrimmed (trim text) where
  first c hc := by
    obtain ⟨rest, hrest⟩ := trimRight_prefix (trimLeft text)
    have hhead : (trimRight (trimLeft text)).head? = some c := hc
    refine first_trimLeft text c ?_
    rw [← hrest, List.head?_append, hhead, Option.some_or]
    rfl
  last := last_trimRight (trimLeft text)

theorem isTrimmed_of_trim_eq (h : trim text = text) : IsTrimmed text := h ▸ isTrimmed_trim text

/-- What trimming leaves of a text is the text between the blanks at its ends. -/
theorem trim_eq_iff {text name : List Char} : trim text = name ↔
    IsTrimmed name ∧ ∃ left right, AreBlank left ∧ AreBlank right ∧
      text = left ++ name ++ right := by
  constructor
  · rintro rfl
    refine ⟨isTrimmed_trim text, text.takeWhile isBlank, (trimLeft text).rtakeWhile isBlank,
      fun _ => List.mem_takeWhile_imp, fun _ => List.mem_rtakeWhile_imp, ?_⟩
    have hright : trim text ++ (trimLeft text).rtakeWhile isBlank = trimLeft text :=
      List.rdropWhile_append_rtakeWhile
    rw [List.append_assoc, hright]
    exact List.takeWhile_append_dropWhile.symm
  · rintro ⟨htrimmed, left, right, hleft, hright, rfl⟩
    rw [trim, List.append_assoc, trimLeft_append hleft]
    cases name with
    | nil =>
      rw [List.nil_append, ← List.append_nil right, trimLeft_append hright]
      rfl
    | cons c name =>
      rw [List.cons_append, trimLeft_of_not_blank (htrimmed.first c rfl), ← List.cons_append,
        trimRight_append hright]
      exact trimRight_of_last htrimmed.last

end JoinPath.Text
