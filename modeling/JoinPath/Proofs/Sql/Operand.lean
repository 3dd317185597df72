import JoinPath.Proofs.Sql.Reader
import JoinPath.Proofs.Sql.Writer
/-!
# Text that reads as an operand

A column, a parameter or a subquery by its text. It is read off the left end of any row of items
that begins with its own (`ShownOperand`), and none of its items can be taken for the end of a
comparison.
-/

namespace JoinPath

open Item (word paren bare selects pieces)

/-! ## The named text -/

namespace Fragment

/-- The named text does not count its placeholders. -/
theorem renderFrom_named (fragments : List Fragment) (filled : ℕ) :
    renderFrom .named filled fragments = render .named fragments := by
  unfold render
  induction fragments generalizing filled with
  | nil => rfl
  | cons x rest ih =>
    cases x <;> simp [renderFrom, ih filled, ih (filled + 1), ih (0 + 1), Dialect.placeholder]

@[simp] theorem render_named_nil : render .named [] = "" := rfl

@[simp] theorem render_named_text (s : String) (rest : List Fragment) :
    render .named (text s :: rest) = s ++ render .named rest := rfl

@[simp] theorem render_named_slot (name : String) (rest : List Fragment) :
    render .named (slot name :: rest) = ":" ++ name ++ render .named rest := by
  rw [← renderFrom_named rest 1]
  rfl

@[simp] theorem render_named_append (xs ys : List Fragment) :
    render .named (xs ++ ys) = render .named xs ++ render .named ys := by
  rw [← renderFrom_named ys (names xs).length, render, renderFrom_append, Nat.zero_add]
  rfl

theorem render_named_intercalate (sep : String) (xss : List (List Fragment)) :
    render .named ([text sep].intercalate xss) = sep.intercalate (xss.map (render .named)) := by
  induction xss with
  | nil => rfl
  | cons xs xss ih =>
    cases xss with
    | nil => simp
    | cons ys xss =>
      rw [List.intercalate_cons_cons, List.map_cons, List.map_cons, String.intercalate_cons_cons,
        render_named_append, render_named_append, ih, List.map_cons]
      simp

end Fragment

/-! ## Names -/

theorem exists_of_isName {s : String} (h : isName s = true) :
    ∃ c cs, s.toList = c :: cs ∧ ∀ d ∈ c :: cs, isWordChar d = true := by
  cases hs : s.toList with
  | nil => simp [isName, hs] at h
  | cons c cs =>
    simp only [isName, hs, Bool.and_eq_true, List.all_eq_true] at h
    refine ⟨c, cs, rfl, List.forall_mem_cons.2 ⟨?_, h.1.2⟩⟩
    rcases Bool.or_eq_true_iff.1 h.1.1 with halpha | hline
    · simp [isWordChar, Char.isAlphanum, halpha]
    · simp [isWordChar, hline]

theorem key_of_isName {s : String} (h : isName s = true) : (word s).key ∉ keywords := by
  simp only [isName, Bool.and_eq_true] at h
  simpa [Item.key] using h.2

theorem ne_of_isName {s t : String} (h : isName s = true) (ht : isName t = false) : s ≠ t := by
  rintro rfl
  simp [h] at ht

theorem Scanned.of_isName {s : String} (h : isName s = true) : Scanned s [.word s] := by
  obtain ⟨c, cs, hs, hword⟩ := exists_of_isName h
  exact .of_word hs hword

theorem isToken_of_isName {s t : String} (h : isName s = true) (ht : isName t = false) :
    (word s).isToken t = false :=
  beq_false_of_ne (ne_of_isName h ht)

/-! ## Operands -/

/-- Items that a comparison may begin with, so that no connective and no comma ends in them. -/
structure AreOperand (is : List Item) : Prop where
  nonempty : is ≠ []
  blank : ∀ i ∈ is, i.isToken " " = false
  comma : ∀ i ∈ is, i.isToken "," = false
  keys : ∀ i ∈ is, i.key ∉ keywords

/-- Whether a name before these items goes on with them. -/
def beginsWithDot (is : List Item) : Bool := is.head?.any fun i => i.isToken "."

/-- `s` is an operand: its items are read off as `c` from whatever begins with them, and alone they
are the condition `c`. -/
structure ShownOperand (s : String) (c : Clause) (is : List Item) : Prop extends AreOperand is where
  scanned : Scanned s is
  reads (rest : List Item) (h : beginsWithDot rest = false) :
    Clause.readOperand (is ++ rest) = some (c, rest)
  unit : Clause.readUnit (pieces is) = some c

theorem areOperand_of_words {ts : List String} (hne : ts ≠ [])
    (h : ∀ t ∈ ts, isName t = true ∨ t = ":" ∨ t = ".") : AreOperand (ts.map word) := by
  have each : ∀ t ∈ ts, (word t).isToken " " = false ∧ (word t).isToken "," = false ∧
      (word t).key ∉ keywords := by
    intro t ht
    rcases h t ht with hname | rfl | rfl
    · exact ⟨isToken_of_isName hname (by decide), isToken_of_isName hname (by decide),
        key_of_isName hname⟩
    · decide
    · decide
  simp only [← List.forall_mem_map (f := word) (P := fun i => i.isToken " " = false ∧
    i.isToken "," = false ∧ i.key ∉ keywords)] at each
  exact ⟨by simpa using hne, fun i hi => (each i hi).1, fun i hi => (each i hi).2.1,
    fun i hi => (each i hi).2.2⟩

/-- The words that end a comparison. -/
def breaks : List String := ["and", "or", "where"]

namespace AreOperand

variable {is : List Item}

theorem not_breaks (h : AreOperand is) : ∀ i ∈ is, i.key ∉ breaks := by
  have hsub : ∀ k ∈ breaks, k ∈ keywords := by decide
  exact fun i hi hmem => h.keys i hi (hsub _ hmem)

theorem bare_eq (h : AreOperand is) : bare is = is :=
  List.filter_eq_self.2 fun i hi => by rw [h.blank i hi]; rfl

theorem exists_cons (h : AreOperand is) :
    ∃ i rest, is = i :: rest ∧ i.isToken " " = false ∧ i.key ∉ keywords := by
  obtain ⟨i, rest, rfl⟩ := List.exists_cons_of_ne_nil h.nonempty
  exact ⟨i, rest, rfl, h.blank i List.mem_cons_self, h.keys i List.mem_cons_self⟩

end AreOperand

namespace ShownOperand

variable {s : String} {c : Clause} {is : List Item}

theorem readOnly (h : ShownOperand s c is) : Clause.readOnly is = some c := by
  have := h.reads [] rfl
  rw [List.append_nil] at this
  rw [Clause.readOnly, this]

theorem readComparison (h : ShownOperand s c is) (rest : List Item)
    (hrest : beginsWithDot rest = false) :
    Clause.readComparison (is ++ rest) = Clause.readPredicate c rest := by
  obtain ⟨i, more, heq, -, hkey⟩ := h.exists_cons
  have hexists : i.key ≠ "exists" := by
    intro hk
    rw [hk] at hkey
    exact hkey (by decide)
  have hreads := h.reads rest hrest
  rw [Clause.readComparison, hreads]
  simp [heq, hexists]

/-- A row of words, each of them a name or a sign of names, reads as a unit if it reads as an
operand. -/
theorem of_words {ts : List String} (hne : ts ≠ [])
    (hts : ∀ t ∈ ts, isName t = true ∨ t = ":" ∨ t = ".") (scanned : Scanned s (ts.map word))
    (reads : ∀ rest : List Item, beginsWithDot rest = false →
      Clause.readOperand (ts.map word ++ rest) = some (c, rest)) :
    ShownOperand s c (ts.map word) := by
  have are := areOperand_of_words hne hts
  refine { are with scanned, reads, unit := ?_ }
  obtain ⟨t, more, rfl⟩ := List.exists_cons_of_ne_nil hne
  have hunit : Clause.readUnit (pieces ((t :: more).map word)) =
      Clause.readComparison ((pieces ((t :: more).map word)).map Prod.fst) := by
    rw [List.map_cons, Item.pieces_cons (are.blank _ List.mem_cons_self)]
    rfl
  have hexists : (word t).key ≠ "exists" := by
    intro hk
    refine are.keys (word t) List.mem_cons_self ?_
    rw [hk]
    decide
  have hreads := reads [] rfl
  rw [List.append_nil] at hreads
  rw [hunit, Item.map_fst_pieces, are.bare_eq, Clause.readComparison, hreads]
  simp [hexists, Clause.readPredicate]

theorem of_param {name : String} (h : isName name = true) :
    ShownOperand (":" ++ name) (.param name) ([":", name].map word) := by
  refine of_words (List.cons_ne_nil _ _) (by simp [h]) ?_ ?_
  · have colon : Scanned ":" [word ":"] := .of_tokens [":"] (by decide) (by decide) (by decide)
    exact colon.append (.of_isName h) (seam_of_ends rfl _)
  · intro rest _
    simp [Clause.readOperand, h]

theorem of_unqualified {name : String} (h : isName name = true) :
    ShownOperand name (.column (.unqualified name)) ([name].map word) := by
  refine of_words (List.cons_ne_nil _ _) (by simp [h]) (.of_isName h) ?_
  intro rest hrest
  have hcolon : name ≠ ":" := ne_of_isName h (by decide)
  simp only [List.map_cons, List.map_nil, List.cons_append, List.nil_append, Clause.readOperand,
    if_neg hcolon, if_pos h]
  split
  · cases hrest
  · rfl

theorem of_qualified {tableAlias name : String} (ha : isName tableAlias = true)
    (hn : isName name = true) :
    ShownOperand (tableAlias ++ "." ++ name) (.column (.qualified tableAlias name))
      ([tableAlias, ".", name].map word) := by
  refine of_words (List.cons_ne_nil _ _) (by simp [ha, hn]) ?_ ?_
  · have dot : Scanned "." [word "."] := .of_tokens ["."] (by decide) (by decide) (by decide)
    exact (Scanned.of_isName ha).between dot (.of_isName hn) (by decide) rfl rfl
  · intro rest _
    have hcolon : tableAlias ≠ ":" := ne_of_isName ha (by decide)
    simp [Clause.readOperand, hcolon, ha, hn]

theorem of_subquery {inner : List Item} (h : Scanned s inner) (hselects : selects inner = true) :
    ShownOperand ("(" ++ s ++ ")") (.subquery ("(" ++ s ++ ")")) [paren inner] where
  scanned := h.parens
  nonempty := List.cons_ne_nil _ _
  blank := by simp [Item.isToken]
  comma := by simp [Item.isToken]
  keys := by
    have : (paren inner).key ∉ keywords := by
      show "" ∉ keywords
      decide
    simpa using this
  reads rest _ := by simp [Clause.readOperand, hselects, Item.text, h.text]
  unit := by simp [pieces, Item.isToken, Clause.readUnit, hselects, Item.text, h.text]

end ShownOperand

end JoinPath
