import JoinPath.Proofs.Sql.ReadBack
/-!
# Built conditions

The conditions that the builders make, with any conditions as operands. Whatever the operands are,
the text is balanced and no `WHERE` stands in it outside parentheses, so a subquery over such
conditions is one unit.
-/

namespace JoinPath

open Item (word paren bare selects)

/-- The operands with which the builders make a comparison. -/
def Operator.Takes (op : Operator) (operands : List Criteria) : Prop :=
  match op with
  | .isNull | .isNotNull => operands.length = 1
  | .isIn | .notIn => operands ≠ []
  | .exist => ∃ select, operands = [.subquery select]
  | _ => operands.length = 2

namespace Criteria

mutual

/-- What the builders make of plain names, where groups have members; an operand may be any such
condition. A literal is not among them: it becomes a parameter before a text is made. -/
def IsBuilt : Criteria → Prop
  | comparison op operands => op.Takes operands ∧ AreBuilt operands
  | group op members => members ≠ [] ∧ (op = .not → members.length = 1) ∧ AreBuilt members
  | literal _ => False
  | param name => isName name = true
  | subquery select => IsBuiltSelect select
  | column ref => ref.IsPlain

def AreBuilt : List Criteria → Prop
  | [] => True
  | c :: cs => IsBuilt c ∧ AreBuilt cs

def IsBuiltSelect : Select Criteria → Prop
  | ⟨columns, table, tableAlias, joins, filter, _⟩ =>
    (∀ c ∈ columns, c.IsSelectable) ∧ isName table = true ∧ isName tableAlias = true ∧
      AreBuiltHops joins ∧ IsBuiltOption filter

def AreBuiltHops : List (Hop Criteria) → Prop
  | [] => True
  | hop :: hops => IsBuiltHop hop ∧ AreBuiltHops hops

def IsBuiltHop : Hop Criteria → Prop
  | ⟨_, table, tableAlias, conditions, on, _⟩ =>
    isName table = true ∧ isName tableAlias = true ∧
      (∀ c ∈ conditions, c.origin.IsPlain ∧ c.destination.IsPlain) ∧ IsBuiltOption on

def IsBuiltOption : Option Criteria → Prop
  | none => True
  | some c => IsBuilt c

end

theorem areBuilt_iff {cs : List Criteria} : AreBuilt cs ↔ ∀ c ∈ cs, c.IsBuilt :=
  forall_iff_of_cons trivial (fun _ _ => Iff.rfl) cs

theorem isBuiltOption_iff {o : Option Criteria} : IsBuiltOption o ↔ ∀ c ∈ o, c.IsBuilt := by
  cases o <;> simp [IsBuiltOption]

theorem isBuiltSelect_iff {s : Select Criteria} :
    IsBuiltSelect s ↔ s.HasPlainNames ∧ ∀ c ∈ s.conditions, c.IsBuilt := by
  have hop {hop : Hop Criteria} :
      IsBuiltHop hop ↔ hop.HasPlainNames ∧ ∀ c ∈ hop.on, c.IsBuilt := by
    rw [Hop.hasPlainNames_and_on_iff, ← isBuiltOption_iff]
    cases hop
    exact Iff.rfl
  have hops : AreBuiltHops s.joins ↔ ∀ hop ∈ s.joins, IsBuiltHop hop :=
    forall_iff_of_cons trivial (fun _ _ => Iff.rfl) s.joins
  rw [Select.hasPlainNames_and_conditions_iff, ← isBuiltOption_iff]
  simp only [← hop]
  rw [← hops]
  cases s
  exact Iff.rfl

/-! ## Builders -/

theorem isBuilt_col {name : String} (h : isName name = true) : (col name).IsBuilt :=
  show (ColumnRef.unqualified name).IsPlain from ⟨fun _ hnone => (nomatch hnone), h⟩

theorem isBuilt_compare {op : Operator} (hop : Operator.between? (asciiLower op.sql) = some op)
    {left right : Criteria} (hl : left.IsBuilt) (hr : right.IsBuilt) :
    (compare op left right).IsBuilt := by
  refine ⟨?_, hl, hr, trivial⟩
  cases op with
  | isIn | notIn | isNull | isNotNull | exist => exact absurd hop (by decide)
  | _ => rfl

theorem isBuilt_isIn {left : Criteria} {values : List Criteria} (hl : left.IsBuilt)
    (hv : ∀ v ∈ values, v.IsBuilt) : (isIn left values).IsBuilt ∧ (notIn left values).IsBuilt :=
  ⟨⟨List.cons_ne_nil _ _, hl, areBuilt_iff.2 hv⟩, List.cons_ne_nil _ _, hl, areBuilt_iff.2 hv⟩

theorem isBuilt_isNull {operand : Criteria} (h : operand.IsBuilt) :
    (isNull operand).IsBuilt ∧ (isNotNull operand).IsBuilt :=
  ⟨⟨rfl, h, trivial⟩, rfl, h, trivial⟩

theorem isBuilt_combine {op : Connective} (hop : op ≠ .not) {members : List Criteria}
    (hne : members ≠ []) (h : ∀ c ∈ members, c.IsBuilt) : (combine op members).IsBuilt := by
  unfold combine
  split
  · exact h _ List.mem_cons_self
  · exact ⟨hne, fun hnot => absurd hnot hop, areBuilt_iff.2 h⟩

theorem isBuilt_not {member : Criteria} (h : member.IsBuilt) : (not member).IsBuilt :=
  ⟨List.cons_ne_nil _ _, fun _ => rfl, h, trivial⟩

theorem ne_exist_of_group {op : Operator} {g : Connective} {members rest : List Criteria}
    (h : op.Takes (group g members :: rest)) : op ≠ .exist := by
  rintro rfl
  obtain ⟨select, h⟩ := h
  cases h

theorem balanced_and {cs : List Criteria} (h : ∀ c ∈ cs, Balanced c.sql) :
    Balanced (Fragment.render .named (joined " AND " .and (parts cs))) := by
  have htokens : tokens " AND " = [" ", "AND", " "] := by decide
  exact balanced_joined htokens (by decide) (by decide) rfl rfl .and h

theorem balanced_group {op : Connective} {members : List Criteria}
    (h : ∀ c ∈ members, Balanced c.sql) : Balanced (group op members).sql := by
  cases op with
  | and => exact balanced_and h
  | or =>
    have htokens : tokens " OR " = [" ", "OR", " "] := by decide
    exact balanced_joined htokens (by decide) (by decide) rfl rfl .or h
  | not =>
    have htokens : tokens "NOT " = ["NOT", " "] := by decide
    have htext : (group .not members).sql =
        "NOT (" ++ Fragment.render .named (joined " AND " .and (parts members)) ++ ")" := by
      simp [sql, fragments, groupFragments, String.append_assoc]
    rw [htext, Shown.not_parens]
    exact (Balanced.of_words htokens (by decide)).append (balanced_and h).parens
      (seam_of_ends rfl _)

theorem balanced_values {values : List Criteria} (h : ∀ c ∈ values, Balanced c.sql) :
    Balanced (Fragment.render .named (valuesFragments (parts values))) := by
  by_cases hsub : ∃ select, values = [subquery select]
  · obtain ⟨select, rfl⟩ := hsub
    exact h _ List.mem_cons_self
  · have htokens : tokens ", " = [",", " "] := by decide
    rw [valuesFragments_of_ne fun select heq => hsub ⟨select, heq⟩, render_parenthesized]
    exact (balanced_joined htokens (by decide) (by decide) rfl rfl .and h).parens

/-- A comparison of two operands. -/
theorem balanced_between {op : Operator} (hop : Operator.between? (asciiLower op.sql) = some op)
    {operands : List Criteria} (two : operands.length = 2) (h : ∀ c ∈ operands, Balanced c.sql) :
    Balanced (comparison op operands).sql := by
  obtain ⟨left, right, rfl⟩ := List.length_eq_two.1 two
  obtain ⟨is, hl⟩ := h left (by simp)
  obtain ⟨ks, hr⟩ := h right (by simp)
  obtain ⟨ms, sign⟩ : Balanced (" " ++ op.sql ++ " ") := by
    obtain ⟨scanned, -, -, keys, -⟩ := Shown.sign_of_between hop
    exact ⟨_, scanned, fun i hi hmem => keys i hi (List.mem_singleton.1 hmem ▸ by decide)⟩
  have hbegins : beginsLone (" " ++ op.sql ++ " ") = true := by
    rw [String.append_assoc]
    exact beginsLone_append rfl (by decide) _
  have hends : endsLone (" " ++ op.sql ++ " ") = true := endsLone_append rfl (by decide) _
  have hne : " " ++ op.sql ++ " " ≠ "" := by simp
  rw [sql_between hop, ← String.append_assoc]
  exact ⟨_, hl.between sign hr hne hbegins hends⟩

theorem balanced_comparison {op : Operator} {operands : List Criteria} (takes : op.Takes operands)
    (h : ∀ c ∈ operands, Balanced c.sql) : Balanced (comparison op operands).sql := by
  cases op with
  | isNull | isNotNull =>
    obtain ⟨c, rfl⟩ := List.length_eq_one_iff.1 takes
    rw [sql_test (by simp)]
    exact (h c List.mem_cons_self).append (.of_words rfl (by decide)) (seam_of_begins rfl _)
  | exist =>
    obtain ⟨select, rfl⟩ := takes
    have htokens : tokens "EXISTS " = ["EXISTS", " "] := by decide
    rw [sql_exist]
    exact (Balanced.of_words htokens (by decide)).append (h _ List.mem_cons_self)
      (seam_of_ends rfl _)
  | isIn | notIn =>
    obtain ⟨c, values, rfl⟩ := List.exists_cons_of_ne_nil takes
    have values := balanced_values fun v hv => h v (List.mem_cons_of_mem _ hv)
    rw [sql_membership (by simp), ← String.append_assoc]
    exact ((h c List.mem_cons_self).append (.of_words rfl (by decide))
      (seam_of_begins rfl _)).append values (seam_of_ends (endsLone_append rfl (by decide) _) _)
  | _ => exact balanced_between (by decide) takes h

/-! ## Statements -/

theorem balanced_param {name : String} (h : isName name = true) : Balanced (param name).sql := by
  obtain ⟨is, hc⟩ := exists_shown_param h
  exact .of_shown ⟨is, .of_operand hc⟩

theorem balanced_column {ref : ColumnRef} (h : ref.IsPlain) : Balanced (column ref).sql := by
  obtain ⟨is, hc⟩ := exists_shown_column h
  exact .of_shown ⟨is, .of_operand hc⟩

theorem balanced_subquery {select : Select Criteria}
    (h : ∃ is, Scanned (Fragment.render .named (selectFragments select)) is ∧ selects is = true) :
    Balanced (subquery select).sql := by
  obtain ⟨is, scanned, -⟩ := h
  rw [sql_subquery]
  exact ⟨_, scanned.parens, by simp [Item.key]⟩

theorem balanced {c : Criteria} (h : c.IsBuilt) : Balanced c.sql := by
  induction c using induction_contents with
  | comparison op operands ih =>
    exact balanced_comparison h.1 fun c hc => ih c hc (areBuilt_iff.1 h.2 c hc)
  | group op members ih =>
    exact balanced_group fun c hc => ih c hc (areBuilt_iff.1 h.2.2 c hc)
  | literal value => exact h.elim
  | param name => exact balanced_param h
  | subquery select ih =>
    obtain ⟨names, conditions⟩ := isBuiltSelect_iff.1 h
    exact balanced_subquery (exists_selects names fun c hc => ih c hc (conditions c hc))
  | column ref => exact balanced_column h

theorem exists_selects_of_built {select : Select Criteria} (h : IsBuiltSelect select) :
    ∃ is, Scanned (Fragment.render .named (selectFragments select)) is ∧ selects is = true := by
  obtain ⟨names, conditions⟩ := isBuiltSelect_iff.1 h
  exact exists_selects names fun c hc => balanced (conditions c hc)

end Criteria

end JoinPath
