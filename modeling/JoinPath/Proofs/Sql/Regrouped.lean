import JoinPath.Proofs.Sql.Built
/-!
# Operands that are lost

An operand is written without parentheses. So a group gives its last member to the comparison whose
left operand it is, or its first one where it is the right operand, and a comparison on the right
gives up its left operand (`Regroups`). The two conditions are written alike
(`Regroups.fragments_eq`), but they are not the same up to merging groups (`Regroups.merged_ne`).
-/

namespace JoinPath

namespace Criteria

/-- The other condition is a comparison less or more: the comparison has gone into the group that
was its operand, or to the left operand of the comparison on its right. -/
inductive Regroups : Criteria → Criteria → Prop
  | leftGroup {op : Operator} {g : Connective} (hg : g ≠ .not) (first : Criteria)
    (members : List Criteria) {last : Criteria} (hlast : needsParentheses g last = false)
    (rest : List Criteria) :
    Regroups (comparison op (group g (first :: members ++ [last]) :: rest))
      (group g (first :: members ++ [comparison op (last :: rest)]))
  | rightGroup {op : Operator} (hop : op ≠ .isIn ∧ op ≠ .notIn) {g : Connective} (hg : g ≠ .not)
    (left : Criteria) {first : Criteria} (hfirst : needsParentheses g first = false)
    (second : Criteria) (members : List Criteria) :
    Regroups (comparison op [left, group g (first :: second :: members)])
      (group g (comparison op [left, first] :: second :: members))
  | rightComparison {op inner : Operator} (hop : op ≠ .isIn ∧ op ≠ .notIn) (hinner : inner ≠ .exist)
    (left right : Criteria) (rest : List Criteria) :
    Regroups (comparison op [left, comparison inner (right :: rest)])
      (comparison inner (comparison op [left, right] :: rest))

theorem takes_of_head {op : Operator} {c d : Criteria} {rest : List Criteria} (hop : op ≠ .exist)
    (h : op.Takes (c :: rest)) : op.Takes (d :: rest) := by
  cases op with
  | exist => exact absurd rfl hop
  | isIn | notIn => exact List.cons_ne_nil _ _
  | _ => simpa [Operator.Takes] using h

/-- A comparison is written behind its first operand. -/
theorem exists_tail {op : Operator} {c : Criteria} {rest : List Criteria} (hop : op ≠ .exist)
    (h : op.Takes (c :: rest)) :
    ∃ tail, ∀ d, (comparison op (d :: rest)).fragments = d.fragments ++ tail := by
  cases op with
  | exist => exact absurd rfl hop
  | isNull | isNotNull | isIn | notIn => exact ⟨_, fun _ => rfl⟩
  | _ =>
    obtain ⟨right, rfl⟩ : ∃ right, rest = [right] := List.length_eq_one_iff.1 (Nat.succ.inj h)
    exact ⟨_, fun _ => rfl⟩

theorem fragments_binary {op : Operator} (hop : op ≠ .isIn ∧ op ≠ .notIn) {left right : Criteria}
    (h : op.Takes [left, right]) :
    (comparison op [left, right]).fragments =
      left.fragments ++ .text (" " ++ op.sql ++ " ") :: right.fragments := by
  cases op with
  | isIn => exact absurd rfl hop.1
  | notIn => exact absurd rfl hop.2
  | isNull | isNotNull => cases h
  | exist =>
    obtain ⟨select, h⟩ := h
    cases h
  | _ => rfl

theorem fragments_group {g : Connective} (hg : g ≠ .not) (members : List Criteria) :
    (group g members).fragments = joined g.separator g (parts members) := by
  cases g with
  | not => exact absurd rfl hg
  | and | or => rfl

theorem takes_two {op : Operator} {a b : Criteria} (h : op.Takes [a, b]) (c d : Criteria) :
    op.Takes [c, d] := by
  cases op with
  | isNull | isNotNull => cases h
  | exist =>
    obtain ⟨select, h⟩ := h
    cases h
  | isIn | notIn => exact List.cons_ne_nil _ _
  | _ => rfl

theorem memberFragments_of_not {parent : Connective} {c : Criteria}
    (h : needsParentheses parent c = false) :
    memberFragments parent (c, c.fragments) = c.fragments := by
  rw [memberFragments, h]
  rfl

theorem joined_concat (between : String) (parent : Connective) (first : Part) (ps : List Part)
    (last : Part) :
    joined between parent (first :: ps ++ [last]) =
      joined between parent (first :: ps) ++ .text between :: memberFragments parent last := by
  simp [joined_cons, Criteria.rest]

theorem Regroups.fragments_eq {c c' : Criteria} (h : Regroups c c') (hc : c.IsBuilt) :
    c.fragments = c'.fragments := by
  cases h with
  | @leftGroup op g hg first members last hlast rest =>
    have hop := ne_exist_of_group hc.1
    obtain ⟨tail, htail⟩ := exists_tail hop hc.1
    have written (d : Criteria) (hd : needsParentheses g d = false) :
        (group g (first :: members ++ [d])).fragments =
          joined g.separator g (parts (first :: members)) ++
            .text g.separator :: d.fragments := by
      rw [fragments_group hg, parts_eq_map, List.map_append, List.map_cons, List.map_singleton,
        joined_concat, memberFragments_of_not hd, parts_eq_map, List.map_cons]
    rw [htail, written last hlast, written _ rfl, htail, List.append_assoc, List.cons_append]
  | @rightGroup op hop g hg left first hfirst second members =>
    have written (d : Criteria) (hd : needsParentheses g d = false) :
        (group g (d :: second :: members)).fragments =
          d.fragments ++ Criteria.rest g.separator g (parts (second :: members)) := by
      rw [fragments_group hg, parts, joined_cons, memberFragments_of_not hd]
    rw [fragments_binary hop hc.1, written first hfirst, written _ rfl,
      fragments_binary hop (takes_two hc.1 _ _), List.append_assoc, List.cons_append]
  | @rightComparison op inner hop hinner left right rest =>
    obtain ⟨tail, htail⟩ := exists_tail hinner hc.2.2.1.1
    rw [fragments_binary hop hc.1, htail, htail, fragments_binary hop (takes_two hc.1 _ _),
      List.append_assoc, List.cons_append]

theorem Regroups.isBuilt {c c' : Criteria} (h : Regroups c c') (hc : c.IsBuilt) : c'.IsBuilt := by
  cases h with
  | @leftGroup op g hg first members last hlast rest =>
    have hop := ne_exist_of_group hc.1
    obtain ⟨takes, ⟨-, -, hgroup⟩, hrest⟩ := hc
    have each := areBuilt_iff.1 hgroup
    refine ⟨List.cons_ne_nil _ _, fun h => absurd h hg, areBuilt_iff.2 ?_⟩
    intro d hd
    rcases List.mem_append.1 hd with hd | hd
    · exact each d (List.mem_append_left _ hd)
    · obtain rfl := List.mem_singleton.1 hd
      exact ⟨takes_of_head hop takes, each last (by simp), hrest⟩
  | @rightGroup op hop g hg left first hfirst second members =>
    obtain ⟨takes, hleft, ⟨-, -, hfirst, hmore⟩, -⟩ := hc
    exact ⟨List.cons_ne_nil _ _, fun h => absurd h hg,
      ⟨takes_two takes _ _, hleft, hfirst, trivial⟩, hmore⟩
  | @rightComparison op inner hop hinner left right rest =>
    obtain ⟨takes, hleft, ⟨inside, hright, hrest⟩, -⟩ := hc
    exact ⟨takes_of_head hinner inside, ⟨takes_two takes _ _, hleft, hright, trivial⟩, hrest⟩

end Criteria

/-! ## Leaves -/

namespace Clause

mutual

/-- The number of comparisons and operands that groups hold, down to those without a group. -/
def leaves : Clause → ℕ
  | group _ members => leavesAll members
  | _ => 1

def leavesAll : List Clause → ℕ
  | [] => 0
  | c :: cs => leaves c + leavesAll cs

end

theorem leavesAll_eq_foldr (cs : List Clause) :
    leavesAll cs = (cs.map leaves).foldr (· + ·) 0 := by
  induction cs with
  | nil => rfl
  | cons c cs ih => rw [leavesAll, ih, List.map_cons, List.foldr_cons]

theorem leavesAll_append (cs ds : List Clause) :
    leavesAll (cs ++ ds) = leavesAll cs + leavesAll ds := by
  induction cs with
  | nil => exact (Nat.zero_add _).symm
  | cons c cs ih => rw [List.cons_append, leavesAll, leavesAll, ih, Nat.add_assoc]

theorem measures_leaves : Measures leaves fun _ counts => counts.foldr (· + ·) 0 where
  group op members := by rw [leaves, leavesAll_eq_foldr]
  single _ _ := rfl
  flatten _ _ := List.sum_flatten

theorem leaves_settle (c : Clause) : c.settle.leaves = c.leaves := by
  induction c using induction_groups with
  | group op members ih =>
    rw [settle, settleAll_eq_map, measures_leaves.group, measures_leaves.group, List.map_map]
    exact congrArg (List.foldr (· + ·) 0) (List.map_congr_left ih)
  | leaf c h =>
    cases c with
    | group op members => cases h
    | _ => rfl

theorem leaves_merged (c : Clause) : c.merged.leaves = c.leaves := by
  rw [merged, measures_leaves.flat, leaves_settle]

end Clause

namespace Criteria

theorem leaves_pos {c : Criteria} (h : c.IsBuilt) : 0 < c.clause.leaves := by
  induction c using induction_members with
  | group op members ih =>
    obtain ⟨c, rest, rfl⟩ := List.exists_cons_of_ne_nil h.1
    rw [clause, clauseAll, Clause.leaves, Clause.leavesAll]
    exact Nat.lt_of_lt_of_le (ih c List.mem_cons_self h.2.2.1) (Nat.le_add_right _ _)
  | _ => exact Nat.one_pos

theorem merged_ne_of_leaves {c c' : Criteria} (hc : c.clause.leaves = 1)
    (hc' : 1 < c'.clause.leaves) : c.clause.merged ≠ c'.clause.merged := by
  intro heq
  have := congrArg Clause.leaves heq
  rw [Clause.leaves_merged, Clause.leaves_merged] at this
  omega

theorem Regroups.merged_ne {c c' : Criteria} (h : Regroups c c') (hc : c.IsBuilt) :
    c.clause.merged ≠ c'.clause.merged := by
  have built := h.isBuilt hc
  cases h with
  | @leftGroup op g _ first members last hlast rest =>
    refine merged_ne_of_leaves rfl ?_
    have each := areBuilt_iff.1 built.2.2
    have hfirst := leaves_pos (each first (by simp))
    have hlast := leaves_pos (each (comparison op (last :: rest)) (by simp))
    rw [clause, Clause.leaves, clauseAll_eq_map, List.map_append, Clause.leavesAll_append,
      List.map_cons, Clause.leavesAll, List.map_singleton, Clause.leavesAll]
    omega
  | @rightGroup op hop g hg left first hfirst second members =>
    refine merged_ne_of_leaves rfl ?_
    have hsecond := leaves_pos built.2.2.2.1
    have hfirst : 0 < (comparison op [left, first]).clause.leaves := Nat.one_pos
    simp only [clause, clauseAll, Clause.leaves, Clause.leavesAll] at hfirst ⊢
    omega
  | @rightComparison op inner hop hinner left right rest =>
    simp only [clause, clauseAll, Clause.merged_comparison, List.map_cons, List.map_nil, ne_eq,
      Clause.comparison.injEq, List.cons.injEq, not_and]
    intro _ heq
    have := congrArg sizeOf heq
    simp at this
    omega

end Criteria

end JoinPath
