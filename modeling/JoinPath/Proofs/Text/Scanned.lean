import JoinPath.Text.Quoted
import Mathlib.Data.List.Basic
/-!
# Scanning literals

A scanner of SQL reads a literal from an apostrophe to the next lone one, and two apostrophes in a
row as one. It reads a quoted text back and stops behind it, whatever apostrophes the text has, as
long as none follows the literal (`literal?_sqlQuoted`). So it finds in a longer text the literals
that were put there, if the words between them have no apostrophes (`Holds`).
-/

namespace JoinPath.Text

variable {s t : String} {text rest : List Char} {ss ts : List String}

/-! ## One literal -/

/-- The text up to the lone apostrophe that closes it, and what follows. -/
def unquoted? : List Char → Option (List Char × List Char)
  | '\'' :: '\'' :: rest => (unquoted? rest).map fun r => ('\'' :: r.1, r.2)
  | '\'' :: rest => some ([], rest)
  | c :: rest => (unquoted? rest).map fun r => (c :: r.1, r.2)
  | [] => none

/-- Reads the literal that a text begins with. -/
def literal? : List Char → Option (String × List Char)
  | '\'' :: rest => (unquoted? rest).map fun r => (String.ofList r.1, r.2)
  | _ => none

theorem unquoted?_close (h : rest.head? ≠ some '\'') :
    unquoted? ('\'' :: rest) = some ([], rest) := by
  rw [unquoted?]
  rintro after rfl
  exact h rfl

theorem unquoted?_cons {c : Char} (h : c ≠ '\'') :
    unquoted? (c :: rest) = (unquoted? rest).map fun r => (c :: r.1, r.2) := by
  rw [unquoted?] <;> simp [h]

/-- The doubled apostrophes inside the text are read as single ones, and the lone one behind it
ends it. -/
theorem unquoted?_doubleApostrophes (s : List Char) (h : rest.head? ≠ some '\'') :
    unquoted? (doubleApostrophes s ++ '\'' :: rest) = some (s, rest) := by
  induction s with
  | nil => exact unquoted?_close h
  | cons c s ih =>
    rw [doubleApostrophes]
    split
    · next hc =>
      show unquoted? ('\'' :: '\'' :: (doubleApostrophes s ++ '\'' :: rest)) = _
      rw [unquoted?, ih, hc]
      rfl
    · next hc =>
      rw [List.cons_append, unquoted?_cons hc, ih]
      rfl

theorem literal?_sqlQuoted (s : String) (h : rest.head? ≠ some '\'') :
    literal? ((sqlQuoted s).toList ++ rest) = some (s, rest) := by
  have hquoted : (sqlQuoted s).toList ++ rest =
      '\'' :: (doubleApostrophes s.toList ++ '\'' :: rest) := by
    simp [sqlQuoted]
  rw [hquoted, literal?, unquoted?_doubleApostrophes _ h, Option.map_some, String.ofList_toList]

/-- Two literals side by side are read as one. -/
example : literal? (sqlQuoted "O" ++ sqlQuoted "Brien").toList = some ("O'Brien", []) := by decide

/-! ## All literals -/

theorem length_unquoted? {r : List Char × List Char} (h : unquoted? text = some r) :
    r.2.length < text.length := by
  fun_induction unquoted? text generalizing r with
  | case1 rest ih =>
    obtain ⟨q, hq, rfl⟩ := Option.map_eq_some_iff.1 h
    have hshorter := ih hq
    exact Nat.lt_succ_of_lt (Nat.lt_succ_of_lt hshorter)
  | case2 rest =>
    obtain rfl := Option.some.inj h
    exact Nat.lt_succ_self _
  | case3 c rest _ _ ih =>
    obtain ⟨q, hq, rfl⟩ := Option.map_eq_some_iff.1 h
    have hshorter := ih hq
    exact Nat.lt_succ_of_lt hshorter
  | case4 => cases h

theorem length_literal? {r : String × List Char} (h : literal? text = some r) :
    r.2.length < text.length := by
  unfold literal? at h
  split at h
  · obtain ⟨q, hq, rfl⟩ := Option.map_eq_some_iff.1 h
    exact Nat.lt_succ_of_lt (length_unquoted? hq)
  · cases h

/-- Reads all literals of a text; nothing if one of them is not closed. -/
def literals? : List Char → Option (List String)
  | [] => some []
  | c :: rest =>
    if c = '\'' then
      match _ : literal? (c :: rest) with
      | some (s, after) => (literals? after).map (s :: ·)
      | none => none
    else literals? rest
termination_by text => text.length
decreasing_by
  · exact length_literal? ‹_›
  · exact Nat.lt_succ_self _

theorem literals?_of_literal? (h : literal? text = some (s, rest)) :
    literals? text = (literals? rest).map (s :: ·) := by
  match text with
  | [] => cases h
  | c :: text =>
    have hc : c = '\'' := by
      by_contra hc
      simp [literal?, hc] at h
    rw [literals?, if_pos hc]
    split
    · next hread =>
      obtain ⟨rfl, rfl⟩ := Prod.mk.inj (Option.some.inj (hread.symm.trans h))
      rfl
    · next hread => cases hread.symm.trans h

/-- What has no apostrophe is passed over. -/
theorem literals?_append (h : '\'' ∉ text) : literals? (text ++ rest) = literals? rest := by
  induction text with
  | nil => rfl
  | cons c text ih =>
    obtain ⟨hc, htext⟩ := not_or.1 (mt List.mem_cons.2 h)
    rw [List.cons_append, literals?, if_neg (Ne.symm hc), ih htext]

/-! ## Text that holds literals -/

/-- A text without apostrophes. -/
def Unquoted (s : String) : Prop := '\'' ∉ s.toList

instance (s : String) : Decidable (Unquoted s) := inferInstanceAs (Decidable (_ ∉ _))

theorem unquoted_append : Unquoted (s ++ t) ↔ Unquoted s ∧ Unquoted t := by
  rw [Unquoted, String.toList_append, List.mem_append, not_or]
  rfl

theorem unquoted_intercalate {sep : String} (hsep : Unquoted sep) :
    ∀ parts : List String, (∀ part ∈ parts, Unquoted part) → Unquoted (sep.intercalate parts)
  | [], _ => List.not_mem_nil
  | [part], h => h part List.mem_cons_self
  | part :: next :: parts, h => by
    obtain ⟨hpart, hparts⟩ := List.forall_mem_cons.1 h
    rw [String.intercalate_cons_cons, unquoted_append, unquoted_append]
    exact ⟨⟨hpart, hsep⟩, unquoted_intercalate hsep (next :: parts) hparts⟩

/-- The literals that a scanner finds in a text, wherever it stands, unless an apostrophe follows
it. -/
def Holds (ss : List String) (t : String) : Prop :=
  ∀ rest : List Char, rest.head? ≠ some '\'' →
    literals? (t.toList ++ rest) = (literals? rest).map (ss ++ ·)

namespace Holds

theorem literals? (h : Holds ss t) : literals? t.toList = some ss := by
  have hnil := h [] nofun
  rw [List.append_nil, literals?.eq_1, Option.map_some, List.append_nil] at hnil
  exact hnil

theorem unquoted (h : Unquoted t) : Holds [] t := fun _ _ =>
  (literals?_append h).trans Option.map_id_apply.symm

theorem quoted (s : String) : Holds [s] (sqlQuoted s) := fun _ h =>
  literals?_of_literal? (literal?_sqlQuoted s h)

theorem append (hs : Holds ss s) (ht : Holds ts t) (h : t.toList.head? ≠ some '\'') :
    Holds (ss ++ ts) (s ++ t) := by
  intro rest hrest
  -- Where the second text is empty, the first is followed by what follows both.
  have hhead : (t.toList ++ rest).head? ≠ some '\'' := by
    cases htext : t.toList with
    | nil => exact hrest
    | cons c text => rwa [htext] at h
  rw [String.toList_append, List.append_assoc, hs _ hhead, ht rest hrest, Option.map_map]
  congr 1
  funext more
  exact (List.append_assoc ss ts more).symm

/-- A word may stand right before a literal. -/
theorem prepend (hs : Unquoted s) (ht : Holds ts t) : Holds ts (s ++ t) := by
  intro rest hrest
  rw [String.toList_append, List.append_assoc, literals?_append hs, ht rest hrest]

end Holds

end JoinPath.Text
