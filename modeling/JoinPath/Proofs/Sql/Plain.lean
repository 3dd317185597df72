import JoinPath.Proofs.Criteria.Inside
import JoinPath.Proofs.Sql.Shown
/-!
# Plain conditions

The conditions whose text means something: groups with members, comparisons with the operands that
they take, names that are plain. The text of a comparison or a group is shown to read as its clause
as soon as those of its operands or members are.
-/

namespace JoinPath

open Item (word paren bare selects pieces)

/-! ## Plain conditions -/

def ColumnRef.IsPlain (c : ColumnRef) : Prop :=
  (∀ tableAlias ∈ c.qualifier, isName tableAlias = true) ∧ isName c.name = true

/-- A column of a select list, where `*` is every column. -/
def ColumnRef.IsSelectable (c : ColumnRef) : Prop :=
  (∀ tableAlias ∈ c.qualifier, isName tableAlias = true) ∧ (isName c.name = true ∨ c.name = "*")

/-- The names in a join are plain, those of its further condition apart. -/
structure Hop.HasPlainNames (hop : Hop Criteria) : Prop where
  table : isName hop.table = true
  tableAlias : isName hop.tableAlias = true
  conditions : ∀ c ∈ hop.conditions, c.origin.IsPlain ∧ c.destination.IsPlain

/-- The names in a statement are plain, those of its conditions apart. -/
structure Select.HasPlainNames (s : Select Criteria) : Prop where
  columns : ∀ c ∈ s.columns, c.IsSelectable
  table : isName s.table = true
  tableAlias : isName s.tableAlias = true
  joins : ∀ hop ∈ s.joins, hop.HasPlainNames

/-- A property of a statement that asks for plain names and goes into its conditions. -/
theorem Select.hasPlainNames_and_conditions_iff {P : Criteria → Prop} {s : Select Criteria} :
    (s.HasPlainNames ∧ ∀ c ∈ s.conditions, P c) ↔
      (∀ c ∈ s.columns, c.IsSelectable) ∧ isName s.table = true ∧ isName s.tableAlias = true ∧
        (∀ hop ∈ s.joins, hop.HasPlainNames ∧ ∀ c ∈ hop.on, P c) ∧ ∀ c ∈ s.filter, P c := by
  rw [Select.forall_conditions]
  constructor
  · rintro ⟨names, hfilter, hjoins⟩
    exact ⟨names.columns, names.table, names.tableAlias,
      fun hop hhop => ⟨names.joins hop hhop, hjoins hop hhop⟩, hfilter⟩
  · rintro ⟨hcolumns, htable, halias, hjoins, hfilter⟩
    exact ⟨⟨hcolumns, htable, halias, fun hop hhop => (hjoins hop hhop).1⟩, hfilter,
      fun hop hhop => (hjoins hop hhop).2⟩

/-- The same of a join. -/
theorem Hop.hasPlainNames_and_on_iff {P : Criteria → Prop} {hop : Hop Criteria} :
    (hop.HasPlainNames ∧ ∀ c ∈ hop.on, P c) ↔
      isName hop.table = true ∧ isName hop.tableAlias = true ∧
        (∀ c ∈ hop.conditions, c.origin.IsPlain ∧ c.destination.IsPlain) ∧ ∀ c ∈ hop.on, P c :=
  ⟨fun ⟨names, hon⟩ => ⟨names.table, names.tableAlias, names.conditions, hon⟩,
    fun ⟨htable, halias, hconditions, hon⟩ => ⟨⟨htable, halias, hconditions⟩, hon⟩⟩

/-- The numbers of operands with which the builders make a comparison. -/
def Operator.HasArity (op : Operator) (n : ℕ) : Prop :=
  match op with
  | .isNull | .isNotNull | .exist => n = 1
  | .isIn | .notIn => 2 ≤ n
  | _ => n = 2

namespace Criteria

def IsOperand : Criteria → Prop
  | param _ | subquery _ | column _ => True
  | _ => False

mutual

/-- Groups have members and a `NOT` has one, comparisons have the operands that they take, and names
are plain. A literal is not: it becomes a parameter before a text is made. -/
def IsPlain : Criteria → Prop
  | comparison op operands =>
    op.HasArity operands.length ∧ (∀ c ∈ operands, c.IsOperand) ∧ ArePlain operands
  | group op members => members ≠ [] ∧ (op = .not → members.length = 1) ∧ ArePlain members
  | literal _ => False
  | param name => isName name = true
  | subquery select => IsPlainSelect select
  | column ref => ref.IsPlain

def ArePlain : List Criteria → Prop
  | [] => True
  | c :: cs => IsPlain c ∧ ArePlain cs

def IsPlainSelect : Select Criteria → Prop
  | ⟨columns, table, tableAlias, joins, filter, _⟩ =>
    (∀ c ∈ columns, c.IsSelectable) ∧ isName table = true ∧ isName tableAlias = true ∧
      ArePlainHops joins ∧ IsPlainOption filter

def ArePlainHops : List (Hop Criteria) → Prop
  | [] => True
  | hop :: hops => IsPlainHop hop ∧ ArePlainHops hops

def IsPlainHop : Hop Criteria → Prop
  | ⟨_, table, tableAlias, conditions, on, _⟩ =>
    isName table = true ∧ isName tableAlias = true ∧
      (∀ c ∈ conditions, c.origin.IsPlain ∧ c.destination.IsPlain) ∧ IsPlainOption on

def IsPlainOption : Option Criteria → Prop
  | none => True
  | some c => IsPlain c

end

theorem arePlain_iff {cs : List Criteria} : ArePlain cs ↔ ∀ c ∈ cs, c.IsPlain :=
  forall_iff_of_cons trivial (fun _ _ => Iff.rfl) cs

theorem isPlainOption_iff {o : Option Criteria} : IsPlainOption o ↔ ∀ c ∈ o, c.IsPlain := by
  cases o <;> simp [IsPlainOption]

theorem isPlainHop_iff {hop : Hop Criteria} :
    IsPlainHop hop ↔ hop.HasPlainNames ∧ ∀ c ∈ hop.on, c.IsPlain := by
  rw [Hop.hasPlainNames_and_on_iff, ← isPlainOption_iff]
  cases hop
  exact Iff.rfl

theorem isPlainSelect_iff {s : Select Criteria} :
    IsPlainSelect s ↔ s.HasPlainNames ∧ ∀ c ∈ s.conditions, c.IsPlain := by
  have hops : ArePlainHops s.joins ↔ ∀ hop ∈ s.joins, IsPlainHop hop :=
    forall_iff_of_cons trivial (fun _ _ => Iff.rfl) s.joins
  rw [Select.hasPlainNames_and_conditions_iff, ← isPlainOption_iff]
  simp only [← isPlainHop_iff]
  rw [← hops]
  cases s
  exact Iff.rfl

/-- The loosest level of the text of a condition. -/
def level : Criteria → Connective
  | group op _ => op
  | _ => .not

theorem needsParentheses_eq (parent : Connective) (c : Criteria) :
    needsParentheses parent c = (c.level != .not && c.level != parent) := by
  cases c <;> rfl

theorem needsParentheses_of_operand {c : Criteria} (h : c.IsOperand) (parent : Connective) :
    needsParentheses parent c = false := by
  cases c with
  | group => exact h.elim
  | _ => rfl

/-! ## Members -/

theorem render_parenthesized (fragments : List Fragment) :
    Fragment.render .named (parenthesized fragments) =
      "(" ++ Fragment.render .named fragments ++ ")" := by
  simp [parenthesized, String.append_assoc]

theorem render_joined (between : String) (parent : Connective) (cs : List Criteria) :
    Fragment.render .named (joined between parent (parts cs)) =
      between.intercalate (cs.map fun c =>
        Fragment.render .named (memberFragments parent (c, c.fragments))) := by
  rw [joined, Fragment.render_named_intercalate, List.map_map, parts_eq_map, List.map_map]
  rfl

theorem sql_param (name : String) : (param name).sql = ":" ++ name := by simp [sql, fragments]

theorem sql_column (ref : ColumnRef) : (column ref).sql = ref.sql := by simp [sql, fragments]

theorem sql_subquery (select : Select Criteria) :
    (subquery select).sql = "(" ++ Fragment.render .named (selectFragments select) ++ ")" := by
  rw [sql, fragments, render_parenthesized]

theorem sql_not (c : Criteria) : (group .not [c]).sql =
    "NOT (" ++ Fragment.render .named (memberFragments .and (c, c.fragments)) ++ ")" := by
  simp [sql, fragments, groupFragments, joined, parts, String.append_assoc]

/-- Texts that read as clauses at levels: a looser level reads what a tighter one does, and each
construct of SQL around such texts gives another one. -/
structure Levelled (P : Connective → String → Clause → Prop) : Prop where
  and {op : Connective} {s : String} {c : Clause} (h : P op s c) (hop : op ≠ .or) : P .and s c
  or {op : Connective} {s : String} {c : Clause} (h : P op s c) : P .or s c
  paren {op : Connective} {s : String} {c : Clause} (h : P op s c) : P .not ("(" ++ s ++ ")") c
  negation {op : Connective} {s : String} {c : Clause} (h : P op s c) :
    P .not ("NOT (" ++ s ++ ")") (.group .not [c])
  group {op : Connective} (hop : op ≠ .not) {ss : List String} {cs : List Clause}
    (h : List.Forall₂ (P op) ss cs) (hne : ss ≠ []) :
    P op (op.separator.intercalate ss) (.group op cs)

theorem levelled_shown : Levelled fun op s c => ∃ is, Shown op s c is where
  and := fun ⟨is, h⟩ hop => ⟨is, h.and hop⟩
  or := fun ⟨is, h⟩ => ⟨is, h.or⟩
  paren := fun ⟨_, h⟩ => ⟨_, h.paren⟩
  negation := fun ⟨_, h⟩ => ⟨_, h.negation⟩
  group := Shown.exists_group

namespace Levelled

variable {P : Connective → String → Clause → Prop}

/-- A condition as a member of a group. -/
theorem member (hP : Levelled P) {parent : Connective} (hparent : parent ≠ .not) {c : Criteria}
    (h : P c.level c.sql c.clause) :
    P parent (Fragment.render .named (memberFragments parent (c, c.fragments))) c.clause := by
  rw [memberFragments, needsParentheses_eq]
  by_cases hneeds : c.level ≠ .not ∧ c.level ≠ parent
  · have hparens : (c.level != .not && c.level != parent) = true := by simpa using hneeds
    rw [if_pos hparens, render_parenthesized]
    cases parent with
    | not => exact absurd rfl hparent
    | and => exact hP.and (hP.paren h) (by decide)
    | or => exact hP.or (hP.paren h)
  · have hparens : (c.level != .not && c.level != parent) = false := by
      rw [← Bool.not_eq_true]
      simpa using hneeds
    rw [hparens]
    cases parent with
    | not => exact absurd rfl hparent
    | and =>
      refine hP.and h fun hlevel => hneeds ?_
      rw [hlevel]
      decide
    | or => exact hP.or h

theorem joined (hP : Levelled P) {op : Connective} (hop : op ≠ .not) {cs : List Criteria}
    (hne : cs ≠ []) (h : ∀ c ∈ cs, P c.level c.sql c.clause) :
    P op (Fragment.render .named (joined op.separator op (parts cs)))
      (.group op (cs.map clause)) := by
  rw [render_joined]
  refine hP.group hop ?_ (by simpa using hne)
  rw [List.forall₂_map_left_iff, List.forall₂_map_right_iff, List.forall₂_same]
  exact fun c hc => hP.member hop (h c hc)

theorem members (hP : Levelled P) {op : Connective} {members : List Criteria} (hne : members ≠ [])
    (hnot : op = .not → members.length = 1) (h : ∀ c ∈ members, P c.level c.sql c.clause) :
    P op (Criteria.group op members).sql (Criteria.group op members).clause := by
  rw [clause, clauseAll_eq_map]
  cases op with
  | and => exact hP.joined (by decide) hne h
  | or => exact hP.joined (by decide) hne h
  | not =>
    obtain ⟨c, rfl⟩ := List.length_eq_one_iff.1 (hnot rfl)
    have hand : Connective.and ≠ .not := by decide
    have hc := hP.member hand (h c List.mem_cons_self)
    rw [sql_not]
    exact hP.negation hc

end Levelled

/-! ## Comparisons -/

theorem sql_test {op : Operator} (hop : op = .isNull ∨ op = .isNotNull) (c : Criteria) :
    (comparison op [c]).sql = c.sql ++ (" " ++ op.sql) := by
  rcases hop with rfl | rfl <;> simp [sql, fragments, parts, comparisonFragments, Operator.sql]

theorem sql_exist (c : Criteria) : (comparison .exist [c]).sql = "EXISTS " ++ c.sql := by
  simp [sql, fragments, parts, comparisonFragments]

theorem sql_membership {op : Operator} (hop : op = .isIn ∨ op = .notIn) (c : Criteria)
    (values : List Criteria) :
    (comparison op (c :: values)).sql = c.sql ++
      (" " ++ op.sql ++ " " ++ Fragment.render .named (valuesFragments (parts values))) := by
  rcases hop with rfl | rfl <;> simp [sql, fragments, parts, comparisonFragments, Operator.sql]

theorem sql_between {op : Operator} (hop : Operator.between? (asciiLower op.sql) = some op)
    (left right : Criteria) :
    (comparison op [left, right]).sql = left.sql ++ (" " ++ op.sql ++ " " ++ right.sql) := by
  cases op with
  | isIn | notIn | isNull | isNotNull | exist => exact absurd hop (by decide)
  | _ => simp [sql, fragments, parts, comparisonFragments, String.append_assoc]

theorem exists_shown_values {values : List Criteria} (hne : values ≠ [])
    (h : ∀ c ∈ values, c.IsOperand ∧ ∃ is, ShownOperand c.sql c.clause is) :
    ∃ is, ShownValues (Fragment.render .named (valuesFragments (parts values)))
      (values.map clause) is := by
  by_cases hsub : ∃ select, values = [subquery select]
  · obtain ⟨select, rfl⟩ := hsub
    obtain ⟨-, is, hc⟩ := h _ List.mem_cons_self
    exact ShownValues.exists_of_operand hc
  · rw [valuesFragments_of_ne fun select heq => hsub ⟨select, heq⟩, render_parenthesized,
      render_joined]
    refine ShownValues.exists_of_list ?_ (by simpa using hne)
    rw [List.forall₂_map_left_iff, List.forall₂_map_right_iff, List.forall₂_same]
    intro c hc
    rw [memberFragments, needsParentheses_of_operand (h c hc).1]
    exact (h c hc).2

/-- A comparison of two operands. -/
theorem exists_shown_between {op : Operator}
    (hop : Operator.between? (asciiLower op.sql) = some op) {operands : List Criteria}
    (arity : operands.length = 2) (h : ∀ c ∈ operands, ∃ is, ShownOperand c.sql c.clause is) :
    ∃ is, Shown .not (comparison op operands).sql (comparison op operands).clause is := by
  obtain ⟨left, right, rfl⟩ := List.length_eq_two.1 arity
  obtain ⟨is, hl⟩ := h left (by simp)
  obtain ⟨ks, hr⟩ := h right (by simp)
  rw [sql_between hop]
  exact ⟨_, .between hop hl hr⟩

theorem exists_of_two_le {operands : List Criteria} (h : 2 ≤ operands.length) :
    ∃ c values, operands = c :: values ∧ values ≠ [] := by
  obtain _ | ⟨c, _ | ⟨v, values⟩⟩ := operands
  · simp at h
  · simp at h
  · exact ⟨c, v :: values, rfl, List.cons_ne_nil _ _⟩

theorem exists_shown_comparison {op : Operator} {operands : List Criteria}
    (arity : op.HasArity operands.length)
    (h : ∀ c ∈ operands, c.IsOperand ∧ ∃ is, ShownOperand c.sql c.clause is) :
    ∃ is, Shown .not (comparison op operands).sql (comparison op operands).clause is := by
  have shown := fun c hc => (h c hc).2
  cases op with
  | isNull | isNotNull =>
    obtain ⟨c, rfl⟩ := List.length_eq_one_iff.1 arity
    obtain ⟨is, hc⟩ := shown c List.mem_cons_self
    rw [sql_test (by simp)]
    exact ⟨_, .test (by simp) hc⟩
  | exist =>
    obtain ⟨c, rfl⟩ := List.length_eq_one_iff.1 arity
    obtain ⟨is, hc⟩ := shown c List.mem_cons_self
    rw [sql_exist]
    exact ⟨_, .exist hc⟩
  | isIn | notIn =>
    obtain ⟨c, values, rfl, hne⟩ := exists_of_two_le arity
    obtain ⟨is, hc⟩ := shown c List.mem_cons_self
    obtain ⟨ks, hv⟩ := exists_shown_values hne fun v hv => h v (List.mem_cons_of_mem _ hv)
    rw [sql_membership (by simp), clause, clauseAll_eq_map]
    exact ⟨_, hv.membership (by simp) hc⟩
  | _ => exact exists_shown_between (by decide) arity shown

end Criteria

end JoinPath
