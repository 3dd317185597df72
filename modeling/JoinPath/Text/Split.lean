/-!
# Splitting

A text is cut at every separator, or at the first one only. Joining the parts with the separator
gives the text back.
-/

namespace JoinPath.Text

/-- The parts between the separators, one more than there are separators. -/
def splitAll (separator : Char) : List Char → List (List Char)
  | [] => [[]]
  | c :: rest =>
    if c = separator then [] :: splitAll separator rest
    else match splitAll separator rest with
      | [] => [[c]]
      | part :: parts => (c :: part) :: parts

theorem splitAll_ne_nil (separator : Char) (text : List Char) : splitAll separator text ≠ [] := by
  cases text with
  | nil => simp [splitAll]
  | cons c rest =>
    unfold splitAll
    split
    · simp
    · split <;> simp

theorem intercalate_splitAll (separator : Char) (text : List Char) :
    [separator].intercalate (splitAll separator text) = text := by
  induction text with
  | nil => rfl
  | cons c rest ih =>
    have hne := splitAll_ne_nil separator rest
    unfold splitAll
    cases h : splitAll separator rest with
    | nil => exact absurd h hne
    | cons part parts =>
      rw [h] at ih
      split
      · next hc => subst hc; rw [← ih]; rfl
      · cases parts with
        | nil => simpa [List.intercalate] using ih
        | cons p ps => simpa [List.intercalate] using ih

/-- The texts before and after the first separator. -/
def splitFirst? (separator : Char) : List Char → Option (List Char × List Char)
  | [] => none
  | c :: rest =>
    if c = separator then some ([], rest)
    else (splitFirst? separator rest).map fun (before, after) => (c :: before, after)

theorem eq_of_splitFirst? {separator : Char} {text before after : List Char}
    (h : splitFirst? separator text = some (before, after)) :
    text = before ++ separator :: after := by
  induction text generalizing before after with
  | nil => simp [splitFirst?] at h
  | cons c rest ih =>
    unfold splitFirst? at h
    split at h
    · next hc =>
      simp only [Option.some.injEq, Prod.mk.injEq] at h
      obtain ⟨rfl, rfl⟩ := h
      simp [hc]
    · simp only [Option.map_eq_some_iff, Prod.mk.injEq] at h
      obtain ⟨⟨b, a⟩, hb, rfl, rfl⟩ := h
      simp [ih hb]

end JoinPath.Text
