import JoinPath.Proofs.Sql.Clause
/-!
# Precedence

Rows in which `AND` binds tighter than `OR`, and everything else tighter than `AND`. A grammar says
which words the connectives are and how what stands between them is read. `Reads` says what a row
has to read as to stand at one of the three levels, where clauses are compared in a form that merges
groups.
-/

namespace JoinPath

/-- How rows over `α` are read between the connectives. -/
structure Grammar (α : Type) where
  /-- Whether something is the word of a connective. -/
  isWord : Connective → α → Bool
  /-- Reads a row that holds neither `AND` nor `OR`. -/
  readUnit : List α → Option Clause

namespace Grammar

open Clause (combine splice IsFlat Merges)

variable {α : Type} (g : Grammar α)

/-- Reads the members of a group of `op`, each with the reader of the next tighter level. -/
def readMembers (op : Connective) (tighter : List α → Option Clause) (row : List α) :
    Option (List Clause) :=
  (row.splitOnP (g.isWord op)).mapM tighter

def readAnd (row : List α) : Option Clause :=
  (g.readMembers .and g.readUnit row).map (combine .and)

def readOr (row : List α) : Option Clause :=
  (g.readMembers .or g.readAnd row).map (combine .or)

/-! ## Levels -/

variable (form : Clause → Clause)

/-- The row reads as members of a group of `op`, which come down to `target`. -/
def ReadsMembers (op : Connective) (tighter : List α → Option Clause) (row : List α)
    (target : List Clause) : Prop :=
  ∃ xs, g.readMembers op tighter row = some xs ∧
    xs.flatMap (fun x => (form x).splice op) = target

/-- The row reads as `c` where nothing binds looser than `level` around it: as a unit, as members of
a conjunction, or as members of a disjunction. -/
def Reads (level : Connective) (row : List α) (c : Clause) : Prop :=
  match level with
  | .not => (∀ x ∈ row, g.isWord .and x = false ∧ g.isWord .or x = false) ∧
      ∃ x, g.readUnit row = some x ∧ form x = form c
  | .and => (∀ x ∈ row, g.isWord .or x = false) ∧
      g.ReadsMembers form .and g.readUnit row ((form c).splice .and)
  | .or => g.ReadsMembers form .or g.readAnd row ((form c).splice .or)

variable {g form} {op : Connective} {tighter : List α → Option Clause} {row more : List α} {sep : α}
  {t u : List Clause} {c x : Clause}

theorem readsMembers_of_one (words : ∀ x ∈ row, g.isWord op x = false) (hx : tighter row = some x)
    (hform : form x = form c) : g.ReadsMembers form op tighter row ((form c).splice op) := by
  refine ⟨[x], ?_, by simp [hform]⟩
  rw [readMembers, List.splitOnP_eq_singleton words]
  simp [hx]

theorem ReadsMembers.append (hsep : g.isWord op sep = true)
    (hrow : g.ReadsMembers form op tighter row t) (hmore : g.ReadsMembers form op tighter more u) :
    g.ReadsMembers form op tighter (row ++ sep :: more) (t ++ u) := by
  obtain ⟨xs, hxs, rfl⟩ := hrow
  obtain ⟨ys, hys, rfl⟩ := hmore
  refine ⟨xs ++ ys, ?_, List.flatMap_append⟩
  rw [readMembers] at hxs hys ⊢
  rw [List.splitOnP_append_cons row more hsep, List.mapM_append, hxs, hys]
  rfl

/-- Members that come down to what `c` contributes read as `c`. -/
theorem ReadsMembers.close (hform : Merges form) (hop : op ≠ .not)
    (h : g.ReadsMembers form op tighter row ((form c).splice op)) :
    ∃ x, (g.readMembers op tighter row).map (combine op) = some x ∧ form x = form c := by
  obtain ⟨xs, hxs, htarget⟩ := h
  refine ⟨combine op xs, by rw [hxs]; rfl, ?_⟩
  rw [hform.combine hop, htarget, (hform.isFlat c).combine_splice hop]

theorem Reads.and_of_not (h : g.Reads form .not row c) : g.Reads form .and row c := by
  obtain ⟨words, x, hx, hform⟩ := h
  exact ⟨fun y hy => (words y hy).2, readsMembers_of_one (fun y hy => (words y hy).1) hx hform⟩

theorem Reads.or_of_and (hform : Merges form) (h : g.Reads form .and row c) :
    g.Reads form .or row c := by
  obtain ⟨words, hmembers⟩ := h
  obtain ⟨x, hx, hxc⟩ := hmembers.close hform (by decide)
  exact readsMembers_of_one words hx hxc

theorem Reads.or (hform : Merges form) (h : g.Reads form op row c) : g.Reads form .or row c := by
  cases op with
  | not => exact h.and_of_not.or_of_and hform
  | and => exact h.or_of_and hform
  | or => exact h

theorem Reads.and (h : g.Reads form op row c) (hop : op ≠ .or) : g.Reads form .and row c := by
  cases op with
  | not => exact h.and_of_not
  | and => exact h
  | or => exact absurd rfl hop

theorem Reads.exists_readOr (hform : Merges form) (h : g.Reads form op row c) :
    ∃ x, g.readOr row = some x ∧ form x = form c :=
  ReadsMembers.close hform (by decide) (h.or hform)

theorem Reads.congr (h : g.Reads form op row c) (hc : form c = form x) : g.Reads form op row x := by
  cases op <;> simpa only [Reads, hc] using h

/-! ## Groups read member by member -/

theorem reads_group_singleton (hform : Merges form) (hop : op ≠ .not) (h : g.Reads form op row c) :
    g.Reads form op row (.group op [c]) := by
  refine h.congr ?_
  rw [hform.group hop, List.flatMap_singleton, (hform.isFlat c).combine_splice hop]

theorem reads_group_cons (hform : Merges form) (hop : op ≠ .not) {cs : List Clause}
    (hsep : g.isWord op sep = true) (apart : op = .and → g.isWord .or sep = false)
    (h : g.Reads form op row c) (hs : g.Reads form op more (.group op cs)) :
    g.Reads form op (row ++ sep :: more) (.group op (c :: cs)) := by
  have splice_cons : (form (.group op (c :: cs))).splice op =
      (form c).splice op ++ (form (.group op cs)).splice op := by
    rw [hform.splice_group hop, hform.splice_group hop, List.flatMap_cons]
  cases op with
  | not => exact absurd rfl hop
  | and =>
    refine ⟨?_, ?_⟩
    · intro x hx
      rcases List.mem_append.1 hx with hx | hx
      · exact h.1 x hx
      · rcases List.mem_cons.1 hx with rfl | hx
        · exact apart rfl
        · exact hs.1 x hx
    · rw [splice_cons]
      exact h.2.append hsep hs.2
  | or =>
    show g.ReadsMembers form .or g.readAnd _ _
    rw [splice_cons]
    exact ReadsMembers.append hsep h hs

end Grammar

end JoinPath
