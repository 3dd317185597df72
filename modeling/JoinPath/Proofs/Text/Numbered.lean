import Mathlib
/-!
# Numbered names

A name made of a stem and a number can be taken apart again, provided the stem ends in no digit:
the number is the run of digits at the end (`append_repr_inj`). A stem that is an alias with a
letter for the kind of the name can be taken apart too (`numberedName_inj`).
-/

namespace JoinPath.Text

/-- A text that does not end in a digit. -/
def EndsUndigited (s : String) : Prop := ∀ c ∈ s.toList.getLast?, c.isDigit = false

theorem endsUndigited_append_push (s : String) {c : Char} (h : c.isDigit = false) :
    EndsUndigited (s ++ String.singleton c) := by
  intro d hd
  rw [String.toList_append, String.toList_singleton, List.getLast?_concat] at hd
  exact Option.mem_some_iff.1 hd ▸ h

theorem isDigit_of_mem_repr {n : ℕ} {c : Char} (h : c ∈ n.repr.toList) : c.isDigit = true := by
  rw [Nat.toList_repr] at h
  exact Nat.isDigit_of_mem_toDigits (by omega) (by omega) h

/-- The digits at the end of a numbered name are those of its number. -/
theorem takeWhile_isDigit_reverse {stem : String} (h : EndsUndigited stem) (n : ℕ) :
    (stem ++ n.repr).toList.reverse.takeWhile Char.isDigit = n.repr.toList.reverse := by
  have digits : ∀ c ∈ n.repr.toList.reverse, c.isDigit = true := fun c hc =>
    isDigit_of_mem_repr (List.mem_reverse.1 hc)
  have stop : stem.toList.reverse.takeWhile Char.isDigit = [] := by
    cases hs : stem.toList.reverse with
    | nil => rfl
    | cons c cs =>
      have hc : c ∈ stem.toList.getLast? := by
        rw [← List.head?_reverse, hs]
        rfl
      exact List.takeWhile_cons_of_neg (by simp [h c hc])
  rw [String.toList_append, List.reverse_append, List.takeWhile_append_of_pos digits, stop,
    List.append_nil]

theorem append_repr_inj {stem stem' : String} (h : EndsUndigited stem)
    (h' : EndsUndigited stem') {m n : ℕ} (eq : stem ++ m.repr = stem' ++ n.repr) :
    stem = stem' ∧ m = n := by
  have hr : m.repr = n.repr := by
    have hm := takeWhile_isDigit_reverse h m
    rw [eq, takeWhile_isDigit_reverse h' n] at hm
    exact String.toList_injective (List.reverse_injective hm.symm)
  rw [hr] at eq
  exact ⟨(String.append_left_inj _).1 eq, Nat.repr_inj.1 hr⟩

/-- The `n`-th name of a kind under an alias. -/
def numberedName (tableAlias : String) (kind : Char) (n : ℕ) : String :=
  tableAlias ++ "_" ++ String.singleton kind ++ n.repr

/-- A name whose alias is followed by the letter at once. -/
theorem append_letter (tableAlias : String) (kind : Char) (n : ℕ) :
    tableAlias ++ ("_" ++ String.singleton kind) ++ n.repr = numberedName tableAlias kind n := by
  rw [numberedName, ← String.append_assoc]

theorem numberedName_inj {a b : String} {k l : Char} {m n : ℕ} (hk : k.isDigit = false)
    (hl : l.isDigit = false) (h : numberedName a k m = numberedName b l n) :
    a = b ∧ k = l ∧ m = n := by
  obtain ⟨hstem, hnumber⟩ := append_repr_inj (endsUndigited_append_push _ hk)
    (endsUndigited_append_push _ hl) h
  have hlists : (a ++ "_").toList ++ [k] = (b ++ "_").toList ++ [l] := by
    simpa only [String.toList_append, String.toList_singleton] using congrArg String.toList hstem
  obtain ⟨halias, hkind⟩ := List.append_inj' hlists rfl
  exact ⟨(String.append_left_inj _).1 (String.toList_injective halias), (List.cons.inj hkind).1,
    hnumber⟩

/-! ## Names under an alias -/

/-- The text goes on after the alias and an underscore. -/
def Under (tableAlias s : String) : Prop := (tableAlias ++ "_").toList <+: s.toList

theorem Under.append {a b : String} (h : Under a b) (rest : String) : Under a (b ++ rest) := by
  unfold Under
  rw [String.toList_append (s := b)]
  exact List.IsPrefix.trans h (List.prefix_append _ _)

theorem under_numberedName (a : String) (kind : Char) (n : ℕ) :
    Under a (numberedName a kind n) := by
  have hself : Under a (a ++ "_") := List.prefix_rfl
  exact (hself.append _).append _

theorem Under.numberedName {a b : String} (h : Under a b) (kind : Char) (n : ℕ) :
    Under a (numberedName b kind n) :=
  ((h.append _).append _).append _

theorem not_under_self (a : String) : ¬ Under a a := by
  intro h
  have hle := List.IsPrefix.length_le h
  rw [String.toList_append, List.length_append] at hle
  exact absurd hle (by simp)

end JoinPath.Text
