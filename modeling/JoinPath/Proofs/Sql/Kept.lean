import JoinPath.Proofs.Sql.Built
import JoinPath.Proofs.Sql.Legible
/-!
# Operands that are kept

Where the text of a comparison keeps its operands apart from what stands around them. The values of
an `IN` may be any conditions, since they stand between commas; the left operand of a comparison may
be another comparison. The text of a condition whose operands are kept is legible.
-/

namespace JoinPath

namespace Criteria

/-- Whether nothing around an operand can enter it: a leaf, or an `EXISTS` with its subquery. -/
def IsUnit : Criteria → Prop
  | comparison op _ => op = .exist
  | group _ _ => False
  | _ => True

def IsGroup : Criteria → Prop
  | group _ _ => True
  | _ => False

end Criteria

/-- Operands behind the first that keep their boundaries: any values of an `IN`, otherwise units. -/
def Operator.Fits (op : Operator) (rest : List Criteria) : Prop :=
  op = .isIn ∨ op = .notIn ∨ ∀ c ∈ rest, c.IsUnit

/-- Operands that keep their boundaries; the first of them may be a comparison. -/
def Operator.Keeps (op : Operator) : List Criteria → Prop
  | [] => True
  | left :: rest => ¬ left.IsGroup ∧ op.Fits rest

namespace Criteria

mutual

/-- Every comparison outside subqueries keeps the boundaries of its operands. -/
def KeepsOperands : Criteria → Prop
  | comparison op operands => op.Keeps operands ∧ KeepOperands operands
  | group _ members => KeepOperands members
  | _ => True

def KeepOperands : List Criteria → Prop
  | [] => True
  | c :: cs => KeepsOperands c ∧ KeepOperands cs

end

theorem keepOperands_iff {cs : List Criteria} : KeepOperands cs ↔ ∀ c ∈ cs, c.KeepsOperands :=
  forall_iff_of_cons trivial (fun _ _ => Iff.rfl) cs

/-! ## Reading back -/

/-- The text of a condition reads back, as an operand too where it may be one. -/
structure IsLegible (c : Criteria) : Prop where
  operand : c.IsUnit → LegibleOperand c.sql c.clause
  chain : ¬ c.IsGroup → LegibleChain c.sql c.clause
  whole : Legible c.level c.sql c.clause

theorem IsLegible.of_chain {c : Criteria} (hlevel : c.level = .not)
    (operand : c.IsUnit → LegibleOperand c.sql c.clause) (h : LegibleChain c.sql c.clause) :
    IsLegible c :=
  ⟨operand, fun _ => h, hlevel ▸ h.legible⟩

theorem IsLegible.of_operand {c : Criteria} (hlevel : c.level = .not)
    (h : LegibleOperand c.sql c.clause) : IsLegible c :=
  .of_chain hlevel (fun _ => h) h.chain

theorem IsLegible.param {name : String} (h : isName name = true) : IsLegible (param name) := by
  refine .of_operand rfl ?_
  rw [sql_param]
  exact .of_marked (.param h)

theorem IsLegible.column {ref : ColumnRef} (h : ref.IsPlain) : IsLegible (column ref) := by
  obtain ⟨qualifier, name⟩ := ref
  obtain ⟨hqualifier, hname⟩ := h
  refine .of_operand rfl ?_
  rw [sql_column]
  cases qualifier with
  | none => exact .of_marked (.unqualified hname)
  | some tableAlias => exact .of_marked (.qualified (hqualifier tableAlias rfl) hname)

theorem clause_subquery (select : Select Criteria) :
    (subquery select).clause = .subquery (subquery select).sql := by
  rw [clause, sql, fragments]

theorem IsLegible.subquery {select : Select Criteria} (h : IsBuiltSelect select) :
    IsLegible (subquery select) := by
  obtain ⟨is, scanned, hselects⟩ := exists_selects_of_built h
  refine .of_operand rfl ?_
  rw [clause_subquery, sql_subquery]
  exact .of_marked (.subquery scanned hselects)

theorem legibleValues {values : List Criteria} (built : AreBuilt values)
    (h : ∀ c ∈ values, IsLegible c) :
    LegibleValues (Fragment.render .named (valuesFragments (parts values)))
      (values.map clause) := by
  by_cases hsub : ∃ select, values = [subquery select]
  · obtain ⟨select, rfl⟩ := hsub
    obtain ⟨is, scanned, hselects⟩ := exists_selects_of_built built.1
    have htext : Fragment.render .named (valuesFragments (parts [subquery select])) =
        (subquery select).sql := rfl
    rw [htext, List.map_singleton, clause_subquery, sql_subquery]
    exact .of_subquery scanned hselects
  · rw [valuesFragments_of_ne fun select heq => hsub ⟨select, heq⟩, render_parenthesized,
      render_joined]
    refine .of_list ?_
    rw [List.forall₂_map_left_iff, List.forall₂_map_right_iff, List.forall₂_same]
    have hand : Connective.and ≠ .not := by decide
    exact fun c hc => levelled_legible.or (levelled_legible.member hand (h c hc).whole)

/-- What is written behind the first operand of a comparison does the same behind any operand. -/
theorem exists_legible_tail {op : Operator} {left : Criteria} {rest : List Criteria}
    (hop : op ≠ .exist) (takes : op.Takes (left :: rest)) (built : AreBuilt rest)
    (fits : op.Fits rest) (h : ∀ c ∈ rest, IsLegible c) :
    ∃ t, (∀ c, (comparison op (c :: rest)).sql = c.sql ++ t) ∧
      ∀ s x, LegibleChain s x → LegibleChain (s ++ t) (.comparison op (x :: rest.map clause)) := by
  have between (hop : Operator.between? (asciiLower op.sql) = some op)
      (two : (left :: rest).length = 2) :
      ∃ t, (∀ c, (comparison op (c :: rest)).sql = c.sql ++ t) ∧
        ∀ s x, LegibleChain s x →
          LegibleChain (s ++ t) (.comparison op (x :: rest.map clause)) := by
    obtain ⟨right, rfl⟩ := List.length_eq_one_iff.1 (Nat.succ.inj two)
    have unit : right.IsUnit := by
      rcases fits with rfl | rfl | fits
      · exact absurd hop (by decide)
      · exact absurd hop (by decide)
      · exact fits right List.mem_cons_self
    have hright := (h right List.mem_cons_self).operand unit
    exact ⟨_, fun c => sql_between hop c right, fun _ _ hs => hs.between hop hright⟩
  cases op with
  | exist => exact absurd rfl hop
  | isNull | isNotNull =>
    obtain rfl := List.length_eq_zero_iff.1 (Nat.succ.inj takes)
    exact ⟨_, sql_test (by simp), fun _ _ hs => hs.test (by simp)⟩
  | isIn | notIn =>
    have values := legibleValues built h
    exact ⟨_, fun c => sql_membership (by simp) c rest,
      fun _ _ hs => hs.membership (by simp) values⟩
  | _ => exact between (by decide) takes

theorem legible_comparison {op : Operator} {operands : List Criteria} (takes : op.Takes operands)
    (built : AreBuilt operands) (keeps : op.Keeps operands) (h : ∀ c ∈ operands, IsLegible c) :
    IsLegible (comparison op operands) := by
  by_cases hop : op = .exist
  · subst hop
    obtain ⟨select, rfl⟩ := takes
    obtain ⟨is, scanned, hselects⟩ := exists_selects_of_built built.1
    refine .of_operand rfl ?_
    rw [sql_exist, clause, clauseAll, clauseAll, clause_subquery, sql_subquery]
    exact .exist scanned hselects
  · obtain ⟨left, rest, rfl⟩ : ∃ left rest, operands = left :: rest := by
      refine List.exists_cons_of_ne_nil ?_
      rintro rfl
      cases op with
      | exist => exact hop rfl
      | isIn | notIn => exact takes rfl
      | _ => cases takes
    obtain ⟨t, written, compared⟩ := exists_legible_tail hop takes built.2 keeps.2
      fun c hc => h c (List.mem_cons_of_mem _ hc)
    refine .of_chain rfl (fun unit => absurd unit hop) ?_
    rw [written, clause, clauseAll_eq_map]
    exact compared _ _ ((h left List.mem_cons_self).chain keeps.1)

theorem legible_members {op : Connective} {members : List Criteria} (hne : members ≠ [])
    (hnot : op = .not → members.length = 1) (h : ∀ c ∈ members, IsLegible c) :
    IsLegible (group op members) where
  operand hunit := hunit.elim
  chain hgroup := absurd trivial hgroup
  whole := levelled_legible.members hne hnot fun c hc => (h c hc).whole

theorem isLegible {c : Criteria} (h : c.IsBuilt) (keeps : c.KeepsOperands) : IsLegible c := by
  induction c using induction_members with
  | comparison op operands ih =>
    exact legible_comparison h.1 h.2 keeps.1 fun c hc =>
      ih c hc (areBuilt_iff.1 h.2 c hc) (keepOperands_iff.1 keeps.2 c hc)
  | group op members ih =>
    exact legible_members h.1 h.2.1 fun c hc =>
      ih c hc (areBuilt_iff.1 h.2.2 c hc) (keepOperands_iff.1 keeps c hc)
  | literal value => exact h.elim
  | param name => exact .param h
  | subquery select => exact .subquery h
  | column ref => exact .column h

/-- Legible text reads as its clause. -/
theorem exists_read {level : Connective} {s : String} {c : Clause} (h : Legible level s c) :
    ∃ x, Mark.read s = some x ∧ x.merged = c.merged := by
  obtain ⟨is, x, row, hx⟩ := h.exists_isRow
  refine ⟨x, ?_, hx⟩
  rw [Mark.read, row.scanned.nest_eq]
  exact row.reads

/-- A comparison of a negation is written like, and reads as, the negation of a comparison. -/
theorem legible_negated {op : Operator} {member : Criteria} {rest : List Criteria}
    (h : (comparison op (not member :: rest)).IsBuilt) (hm : member.KeepsOperands)
    (hrest : KeepOperands rest) (fits : op.Fits rest) :
    Legible .not (comparison op (not member :: rest)).sql
      (not (comparison op (member :: rest))).clause := by
  obtain ⟨takes, ⟨-, -, hmember, -⟩, built⟩ := h
  obtain ⟨t, written, compared⟩ := exists_legible_tail (ne_exist_of_group takes) takes built fits
    fun c hc => isLegible (areBuilt_iff.1 built c hc) (keepOperands_iff.1 hrest c hc)
  have hand : Connective.and ≠ .not := by decide
  have inside := levelled_legible.member hand (isLegible hmember hm).whole
  have target : (not (comparison op (member :: rest))).clause =
      .group .not [.comparison op (member.clause :: rest.map clause)] := by
    rw [Criteria.not, clause, clauseAll, clauseAll, clause, clauseAll_eq_map, List.map_cons]
  rw [written, Criteria.not, sql_not, Shown.not_parens, String.append_assoc, target]
  exact (compared _ _ inside.operand.chain).negation

end Criteria

end JoinPath
