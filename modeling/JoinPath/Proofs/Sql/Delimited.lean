import JoinPath.Proofs.Sql.Kept
import JoinPath.Proofs.Sql.Regrouped
/-!
# Boundaries of operands

What becomes of the operands of comparisons in the text of a condition (`operands_delimited`): where
they are kept, the text reads as the condition; elsewhere it is the text of another one.
-/

namespace JoinPath

open Criteria (Regroups KeepOperands)

/-- The text of a condition that keeps its operands reads as that condition, each comparison with
the same operands; so it is the same up to merging groups as any other one of its text. Where a
group is written as an operand, or a comparison as a right one, another condition has the same text.
A comparison of a negation reads as the negation of a comparison. -/
theorem operands_delimited {c : Criteria} (hc : c.IsBuilt) :
    (c.KeepsOperands →
      (∀ d, ∃ x, Mark.read (c.render d).named = some x ∧ x.merged = c.clause.merged) ∧
      ∀ c' : Criteria, c'.IsBuilt → c'.KeepsOperands → c.sql = c'.sql →
        c.clause.merged = c'.clause.merged) ∧
    (∀ c', Regroups c c' →
      c'.IsBuilt ∧ (∀ d, c.render d = c'.render d) ∧ c.clause.merged ≠ c'.clause.merged) ∧
    ∀ op member rest, c = .comparison op (.not member :: rest) → member.KeepsOperands →
      KeepOperands rest → op.Fits rest → ∀ d, ∃ x, Mark.read (c.render d).named = some x ∧
        x.merged = (Criteria.not (.comparison op (member :: rest))).clause.merged := by
  refine ⟨fun hk => ⟨fun d => ?_, fun c' hc' hk' heq => ?_⟩, fun c' h => ?_, ?_⟩
  · exact Criteria.exists_read (Criteria.isLegible hc hk).whole
  · obtain ⟨x, hx, hxc⟩ := Criteria.exists_read (Criteria.isLegible hc hk).whole
    obtain ⟨y, hy, hyc⟩ := Criteria.exists_read (Criteria.isLegible hc' hk').whole
    rw [← heq, hx] at hy
    obtain rfl := Option.some.inj hy
    exact hxc.symm.trans hyc
  · exact ⟨h.isBuilt hc, fun d => congrArg (Rendering.ofFragments d) (h.fragments_eq hc),
      h.merged_ne hc⟩
  · rintro op member rest rfl hm hrest fits d
    exact Criteria.exists_read (Criteria.legible_negated hc hm hrest fits)

/-! ## Conditions as operands -/

namespace Criteria

/-- Whether it is paid as the parameter has it or as there is no date. -/
def paidAsDated : Criteria := .eq (.col "paid") (.or [.param "p", .isNull (.col "due")])

/-- What is paid, and what has no date. -/
def paidOrUndated : Criteria := .or [.eq (.col "paid") (.param "p"), .isNull (.col "due")]

theorem regroups_paidAsDated : Regroups paidAsDated paidOrUndated :=
  .rightGroup (by decide) (by decide) _ rfl _ _

theorem isBuilt_columns : (col "paid").IsBuilt ∧ (col "due").IsBuilt ∧ (col "late").IsBuilt :=
  ⟨isBuilt_col (by decide), isBuilt_col (by decide), isBuilt_col (by decide)⟩

theorem isBuilt_paidAsDated : paidAsDated.IsBuilt := by
  obtain ⟨paid, due, -⟩ := isBuilt_columns
  have param : (param "p").IsBuilt := show isName "p" = true by decide
  have undated := (isBuilt_isNull due).1
  exact isBuilt_compare (by decide) paid
    (isBuilt_combine (by decide) (List.cons_ne_nil _ _) (by simp [param, undated]))

theorem keepsOperands_paidOrUndated : paidOrUndated.KeepsOperands := by
  simp +decide [paidOrUndated, Criteria.eq, Criteria.or, Criteria.combine, compare, col, isNull,
    KeepsOperands, KeepOperands, Operator.Keeps, Operator.Fits, IsGroup, IsUnit]

/-- Whether the missing of a date agrees with one of some conditions, among them `last`. -/
def undatedIn (last : Criteria) : Criteria :=
  .isIn (.isNull (.col "due")) [paidOrUndated, .not (.col "late"), last]

def latePaidDue : Criteria := .and [.col "late", .col "paid", .col "due"]

/-- The same with a group in a group. -/
def lateAndPaidDue : Criteria := .and [.and [.col "late", .col "paid"], .col "due"]

def undated : Criteria := undatedIn latePaidDue

def undatedNested : Criteria := undatedIn lateAndPaidDue

/-- Whether it is known that it is not late. -/
def notLateUnknown : Criteria := .isNull (.not (.col "late"))

theorem isBuilt_undatedIn {last : Criteria} (h : last.IsBuilt) : (undatedIn last).IsBuilt := by
  obtain ⟨-, due, late⟩ := isBuilt_columns
  have paid := regroups_paidAsDated.isBuilt isBuilt_paidAsDated
  exact (isBuilt_isIn (isBuilt_isNull due).1 (by simp [paid, isBuilt_not late, h])).1

theorem keepsOperands_undatedIn {last : Criteria} (h : last.KeepsOperands) :
    (undatedIn last).KeepsOperands := by
  simp [undatedIn, isIn, isNull, Criteria.not, col, KeepsOperands, KeepOperands, Operator.Keeps,
    Operator.Fits, IsGroup, keepsOperands_paidOrUndated, h]

theorem undated_kept : undated.IsBuilt ∧ undated.KeepsOperands := by
  obtain ⟨paid, due, late⟩ := isBuilt_columns
  refine ⟨isBuilt_undatedIn ?_, keepsOperands_undatedIn ?_⟩
  · rw [latePaidDue, Criteria.and]
    exact isBuilt_combine (by decide) (List.cons_ne_nil _ _) (by simp [paid, due, late])
  · simp [latePaidDue, Criteria.and, Criteria.combine, col, KeepsOperands, KeepOperands]

theorem undatedNested_kept : undatedNested.IsBuilt ∧ undatedNested.KeepsOperands := by
  obtain ⟨paid, due, late⟩ := isBuilt_columns
  refine ⟨isBuilt_undatedIn ?_, keepsOperands_undatedIn ?_⟩
  · have inner : (Criteria.and [.col "late", .col "paid"]).IsBuilt :=
      isBuilt_combine (by decide) (List.cons_ne_nil _ _) (by simp [paid, late])
    rw [lateAndPaidDue, Criteria.and]
    exact isBuilt_combine (by decide) (List.cons_ne_nil _ _) (by simp [inner, due])
  · simp [lateAndPaidDue, Criteria.and, Criteria.combine, col, KeepsOperands, KeepOperands]

theorem isBuilt_notLateUnknown : notLateUnknown.IsBuilt :=
  (isBuilt_isNull (isBuilt_not isBuilt_columns.2.2)).1

end Criteria

open Criteria (paidAsDated paidOrUndated undated undatedNested notLateUnknown)

theorem operands_delimited_undated :
    undated.IsBuilt ∧ undated.KeepsOperands ∧
    undatedNested.IsBuilt ∧ undatedNested.KeepsOperands ∧
    undated.sql =
      "due IS NULL IN ((paid = :p OR due IS NULL), NOT (late), late AND paid AND due)" ∧
    undated.sql = undatedNested.sql ∧
    (∃ x, Mark.read (undated.render .postgres).named = some x ∧
      x.merged = undated.clause.merged) ∧
    undated.clause.merged = undatedNested.clause.merged ∧
    paidAsDated.IsBuilt ∧ Regroups paidAsDated paidOrUndated ∧
    paidAsDated.render .mysql = paidOrUndated.render .mysql ∧
    notLateUnknown.IsBuilt ∧
    ∃ x, Mark.read (notLateUnknown.render .mysql).named = some x ∧
      x.merged = (Criteria.not (.isNull (.col "late"))).clause.merged := by
  obtain ⟨built, keeps⟩ := Criteria.undated_kept
  obtain ⟨built', keeps'⟩ := Criteria.undatedNested_kept
  have alike : undated.sql = undatedNested.sql := by decide +kernel
  have paid := Criteria.isBuilt_paidAsDated
  have regroups := Criteria.regroups_paidAsDated
  have unknown := Criteria.isBuilt_notLateUnknown
  obtain ⟨reads, same⟩ := (operands_delimited built).1 keeps
  obtain ⟨-, alikePaid, -⟩ := (operands_delimited paid).2.1 _ regroups
  have fits : Operator.isNull.Fits [] := by simp [Operator.Fits]
  have negated := (operands_delimited unknown).2.2 _ _ _ rfl trivial trivial fits
  exact ⟨built, keeps, built', keeps', by decide +kernel, alike, reads _,
    same _ built' keeps' alike, paid, regroups, alikePaid _, unknown, negated _⟩

/-- The builders make a comparison with a group as its operand. Its text is that of a group with a
comparison as its member, and reads as this group. -/
theorem operand_boundary_lost :
    paidAsDated.IsBuilt ∧ paidOrUndated.IsBuilt ∧
    paidAsDated.sql = "paid = :p OR due IS NULL" ∧
    paidOrUndated.sql = paidAsDated.sql ∧
    paidAsDated.clause.merged ≠ paidOrUndated.clause.merged ∧
    ∃ x, Mark.read paidAsDated.sql = some x ∧
      x.merged = paidOrUndated.clause.merged := by
  have hc := Criteria.isBuilt_paidAsDated
  have h := Criteria.regroups_paidAsDated
  have hc' := h.isBuilt hc
  have alike : paidOrUndated.sql = paidAsDated.sql :=
    congrArg (Fragment.render .named) (h.fragments_eq hc).symm
  refine ⟨hc, hc', by decide +kernel, alike, h.merged_ne hc, ?_⟩
  rw [← alike]
  exact Criteria.exists_read (Criteria.isLegible hc' Criteria.keepsOperands_paidOrUndated).whole

end JoinPath
