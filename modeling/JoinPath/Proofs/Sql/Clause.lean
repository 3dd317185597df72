import JoinPath.Proofs.Lists
import JoinPath.Sql.Render
import Mathlib.Order.BoundedOrder.Lattice
/-!
# Clauses

A condition as its text can show it: subqueries and literals are texts. Two clauses with the same
`flat` form differ only by groups inside a group of the same connective and by groups of one
member. What groups add up to does not change with that (`Measures.flat`), so they have the same
truth value (`value_flat`).
-/

namespace JoinPath

inductive Clause
  | comparison (op : Operator) (operands : List Clause)
  | group (op : Connective) (members : List Clause)
  | literal (text : String)
  | param (name : String)
  | subquery (text : String)
  | column (ref : ColumnRef)

namespace Criteria

mutual

/-- The condition with its subqueries and literals as they are written. -/
def clause : Criteria → Clause
  | comparison op operands => .comparison op (clauseAll operands)
  | group op members => .group op (clauseAll members)
  | literal value => .literal value.sqlText
  | param name => .param name
  | subquery select => .subquery (Fragment.render .named (parenthesized (selectFragments select)))
  | column ref => .column ref

def clauseAll : List Criteria → List Clause
  | [] => []
  | c :: cs => clause c :: clauseAll cs

end

theorem clauseAll_eq_map (cs : List Criteria) : clauseAll cs = cs.map clause :=
  eq_map_of_cons rfl (fun _ _ => rfl) cs

end Criteria

/-- The equality of two columns that a join asks for. -/
def Condition.clause (c : Condition) : Clause :=
  .comparison .eq [.column c.origin, .column c.destination]

namespace Clause

/-! ## Flat form -/

/-- The connective of a group. -/
def outer? : Clause → Option Connective
  | group op _ => some op
  | _ => none

/-- Induction through groups; a comparison is a leaf. -/
@[elab_as_elim]
theorem induction_groups {P : Clause → Prop}
    (group : ∀ op members, (∀ c ∈ members, P c) → P (group op members))
    (leaf : ∀ c : Clause, c.outer? = none → P c) (c : Clause) : P c := by
  refine @Clause.rec P (fun cs => ∀ c ∈ cs, P c) (fun op operands _ => leaf _ rfl) group
    (fun _ => leaf _ rfl) (fun _ => leaf _ rfl) (fun _ => leaf _ rfl) (fun _ => leaf _ rfl) ?_ ?_ c
  · exact fun c hc => absurd hc List.not_mem_nil
  · exact fun c cs hc hcs => List.forall_mem_cons.2 ⟨hc, hcs⟩

/-- A group; one member alone needs none. -/
def combine (op : Connective) : List Clause → Clause
  | [c] => c
  | cs => group op cs

/-- What a clause contributes to a group of `op`: the members of a group of the same connective,
otherwise itself. -/
def splice (op : Connective) (c : Clause) : List Clause :=
  match c with
  | group inner members => if inner = op then members else [group inner members]
  | c => [c]

mutual

/-- Merges every `AND` or `OR` group into a group of the same connective around it and drops those
with one member. -/
def flat : Clause → Clause
  | group .not members => group .not (flatAll members)
  | group op members => combine op ((flatAll members).flatMap (splice op))
  | c => c

def flatAll : List Clause → List Clause
  | [] => []
  | c :: cs => flat c :: flatAll cs

end

theorem flatAll_eq_map (cs : List Clause) : flatAll cs = cs.map flat :=
  eq_map_of_cons rfl (fun _ _ => rfl) cs

theorem flat_group {op : Connective} (hop : op ≠ .not) (members : List Clause) :
    (group op members).flat = combine op (members.flatMap fun c => c.flat.splice op) := by
  cases op with
  | not => exact absurd rfl hop
  | and | or => simp [flat, flatAll_eq_map, List.flatMap_map]

theorem flat_not (members : List Clause) :
    (group .not members).flat = group .not (members.map flat) := by
  rw [flat, flatAll_eq_map]

theorem flat_of_outer {c : Clause} (h : c.outer? = none) : c.flat = c := by
  cases c with
  | group op members => cases h
  | _ => rfl

theorem splice_group (op : Connective) (members : List Clause) :
    (group op members).splice op = members := if_pos rfl

theorem splice_of_outer {op : Connective} {c : Clause} (h : c.outer? ≠ some op) :
    c.splice op = [c] := by
  cases c with
  | group inner members => exact if_neg fun heq => h (congrArg some heq)
  | _ => rfl

theorem exists_group_of_outer {op : Connective} {c : Clause} (h : c.outer? = some op) :
    ∃ members, c = group op members := by
  cases c with
  | group inner members =>
    obtain rfl := Option.some.inj h
    exact ⟨members, rfl⟩
  | _ => cases h

/-- No group to merge and none to drop, at any depth. -/
inductive IsFlat : Clause → Prop
  | group {op : Connective} {members : List Clause}
    (merged : op ≠ .not → members.length ≠ 1 ∧ ∀ c ∈ members, c.outer? ≠ some op)
    (within : ∀ c ∈ members, IsFlat c) : IsFlat (group op members)
  | leaf {c : Clause} (h : c.outer? = none) : IsFlat c

theorem IsFlat.of_group {op : Connective} {members : List Clause}
    (h : IsFlat (.group op members)) :
    (op ≠ .not → members.length ≠ 1 ∧ ∀ c ∈ members, c.outer? ≠ some op) ∧
      ∀ c ∈ members, IsFlat c := by
  cases h with
  | group merged within => exact ⟨merged, within⟩
  | leaf h => cases h

theorem IsFlat.of_splice {op : Connective} (hop : op ≠ .not) {c d : Clause} (h : IsFlat c)
    (hd : d ∈ c.splice op) : IsFlat d ∧ d.outer? ≠ some op := by
  by_cases hout : c.outer? = some op
  · obtain ⟨members, rfl⟩ := exists_group_of_outer hout
    rw [splice_group] at hd
    exact ⟨h.of_group.2 d hd, (h.of_group.1 hop).2 d hd⟩
  · rw [splice_of_outer hout] at hd
    obtain rfl := List.mem_singleton.1 hd
    exact ⟨h, hout⟩

theorem isFlat_combine {op : Connective} {cs : List Clause}
    (h : ∀ c ∈ cs, IsFlat c ∧ c.outer? ≠ some op) : IsFlat (combine op cs) := by
  unfold combine
  split
  · exact (h _ List.mem_cons_self).1
  · rename_i hsingle
    refine .group (fun _ => ⟨fun hlen => ?_, fun c hc => (h c hc).2⟩) fun c hc => (h c hc).1
    obtain ⟨c, rfl⟩ := List.length_eq_one_iff.1 hlen
    exact hsingle c rfl

theorem isFlat_flat (c : Clause) : IsFlat c.flat := by
  induction c using induction_groups with
  | group op members ih =>
    by_cases hop : op = .not
    · subst hop
      rw [flat_not]
      exact .group (fun h => absurd rfl h) (List.forall_mem_map.2 ih)
    · rw [flat_group hop]
      refine isFlat_combine fun c hc => ?_
      obtain ⟨d, hd, hcd⟩ := List.mem_flatMap.1 hc
      exact (ih d hd).of_splice hop hcd
  | leaf c h =>
    rw [flat_of_outer h]
    exact .leaf h

theorem combine_of_length {op : Connective} {cs : List Clause} (h : cs.length ≠ 1) :
    combine op cs = group op cs := by
  unfold combine
  split
  · exact absurd rfl h
  · rfl

theorem IsFlat.combine_splice {op : Connective} (hop : op ≠ .not) {c : Clause} (h : IsFlat c) :
    combine op (c.splice op) = c := by
  by_cases hout : c.outer? = some op
  · obtain ⟨members, rfl⟩ := exists_group_of_outer hout
    rw [splice_group, combine_of_length (h.of_group.1 hop).1]
  · rw [splice_of_outer hout]
    rfl

/-- A form of clauses in which groups are merged and those of one member dropped. -/
structure Merges (form : Clause → Clause) : Prop where
  group {op : Connective} (hop : op ≠ .not) (members : List Clause) :
    form (.group op members) = combine op (members.flatMap fun c => (form c).splice op)
  negation (c : Clause) : form (.group .not [c]) = .group .not [form c]
  isFlat (c : Clause) : IsFlat (form c)

namespace Merges

variable {form : Clause → Clause} {op : Connective}

/-- Dropping a group of one member before merging changes nothing. -/
theorem combine (h : Merges form) (hop : op ≠ .not) (cs : List Clause) :
    form (combine op cs) = .combine op (cs.flatMap fun c => (form c).splice op) := by
  by_cases hlen : cs.length = 1
  · obtain ⟨c, rfl⟩ := List.length_eq_one_iff.1 hlen
    rw [List.flatMap_singleton]
    exact ((h.isFlat c).combine_splice hop).symm
  · rw [combine_of_length hlen, h.group hop]

theorem splice_group (h : Merges form) (hop : op ≠ .not) (members : List Clause) :
    (form (.group op members)).splice op = members.flatMap fun c => (form c).splice op := by
  have each : ∀ c ∈ members.flatMap fun c => (form c).splice op, c.outer? ≠ some op := by
    intro c hc
    obtain ⟨d, hd, hcd⟩ := List.mem_flatMap.1 hc
    exact ((h.isFlat d).of_splice hop hcd).2
  rw [h.group hop]
  generalize (members.flatMap fun c => (form c).splice op) = cs at each ⊢
  by_cases hlen : cs.length = 1
  · obtain ⟨c, rfl⟩ := List.length_eq_one_iff.1 hlen
    exact splice_of_outer (each c List.mem_cons_self)
  · rw [combine_of_length hlen, Clause.splice_group]

end Merges

theorem merges_flat : Merges flat where
  group := flat_group
  negation c := by rw [flat, flatAll_eq_map]; rfl
  isFlat := isFlat_flat

/-! ## Operands in flat form -/

mutual

/-- The operands of comparisons in flat form, and so on within them. -/
def settle : Clause → Clause
  | comparison op operands => comparison op (mergedAll operands)
  | group op members => group op (settleAll members)
  | c => c

def settleAll : List Clause → List Clause
  | [] => []
  | c :: cs => settle c :: settleAll cs

def mergedAll : List Clause → List Clause
  | [] => []
  | c :: cs => (settle c).flat :: mergedAll cs

end

/-- The flat form of a clause in which the operands of comparisons are in this form too. -/
def merged (c : Clause) : Clause := c.settle.flat

theorem settleAll_eq_map (cs : List Clause) : settleAll cs = cs.map settle :=
  eq_map_of_cons rfl (fun _ _ => rfl) cs

theorem mergedAll_eq_map (cs : List Clause) : mergedAll cs = cs.map merged :=
  eq_map_of_cons rfl (fun _ _ => rfl) cs

theorem merged_comparison (op : Operator) (operands : List Clause) :
    (comparison op operands).merged = comparison op (operands.map merged) := by
  rw [merged, settle, mergedAll_eq_map]
  rfl

theorem merges_merged : Merges merged where
  group hop members := by
    rw [merged, settle, flat_group hop, settleAll_eq_map, List.flatMap_map]
    rfl
  negation c := merges_flat.negation c.settle
  isFlat c := isFlat_flat c.settle

/-! ## What groups add up to -/

/-- What `f` says of a group is read off its members, and for `AND` and `OR` a group in a group
adds what its members add. -/
structure Measures {γ : Type} (f : Clause → γ) (g : Connective → List γ → γ) : Prop where
  group (op : Connective) (members : List Clause) : f (group op members) = g op (members.map f)
  single {op : Connective} (hop : op ≠ .not) (x : γ) : g op [x] = x
  flatten {op : Connective} (hop : op ≠ .not) (xss : List (List γ)) :
    g op xss.flatten = g op (xss.map (g op))

namespace Measures

variable {γ : Type} {f : Clause → γ} {g : Connective → List γ → γ} {op : Connective}

theorem combine (h : Measures f g) (hop : op ≠ .not) (cs : List Clause) :
    f (combine op cs) = g op (cs.map f) := by
  unfold Clause.combine
  split
  · exact (h.single hop _).symm
  · exact h.group op _

theorem splice (h : Measures f g) (hop : op ≠ .not) (c : Clause) :
    g op ((c.splice op).map f) = f c := by
  by_cases hout : c.outer? = some op
  · obtain ⟨members, rfl⟩ := exists_group_of_outer hout
    rw [splice_group, h.group]
  · rw [splice_of_outer hout, List.map_singleton, h.single hop]

/-- So merging groups and dropping those of one member changes nothing. -/
theorem flat (h : Measures f g) (c : Clause) : f c.flat = f c := by
  induction c using induction_groups with
  | group op members ih =>
    by_cases hop : op = .not
    · subst hop
      rw [flat_not, h.group, h.group, List.map_map]
      exact congrArg _ (List.map_congr_left ih)
    · have each : ∀ c ∈ members, g op ((c.flat.splice op).map f) = f c :=
        fun c hc => (h.splice hop c.flat).trans (ih c hc)
      rw [flat_group hop, h.combine hop, h.group, List.map_flatMap, List.flatMap_def,
        h.flatten hop, List.map_map]
      exact congrArg _ (List.map_congr_left each)
  | leaf c hout => rw [flat_of_outer hout]

end Measures

/-! ## Truth values -/

section Value

variable {β : Type} [Lattice β] [BoundedOrder β] (neg : β → β) (leaf : Clause → β)

/-- The value of a group from those of its members; a `NOT` is of their conjunction. -/
def groupValue (op : Connective) (values : List β) : β :=
  match op with
  | .and => values.foldr (· ⊓ ·) ⊤
  | .or => values.foldr (· ⊔ ·) ⊥
  | .not => neg (values.foldr (· ⊓ ·) ⊤)

mutual

/-- The truth value of a clause. The values may be two or, with the unknown, three: all that is
asked is that `AND` is their meet and `OR` their join. -/
def value : Clause → β
  | group op members => groupValue neg op (valueAll members)
  | c => leaf c

def valueAll : List Clause → List β
  | [] => []
  | c :: cs => value c :: valueAll cs

end

theorem valueAll_eq_map (cs : List Clause) : valueAll neg leaf cs = cs.map (value neg leaf) :=
  eq_map_of_cons rfl (fun _ _ => rfl) cs

theorem groupValue_append {op : Connective} (hop : op ≠ .not) (xs ys : List β) :
    groupValue neg op (xs ++ ys) =
      groupValue neg op [groupValue neg op xs, groupValue neg op ys] := by
  cases op with
  | not => exact absurd rfl hop
  | and => induction xs <;> simp_all [groupValue, inf_assoc]
  | or => induction xs <;> simp_all [groupValue, sup_assoc]

theorem groupValue_cons {op : Connective} (hop : op ≠ .not) (x : β) (ys : List β) :
    groupValue neg op (x :: ys) = groupValue neg op [x, groupValue neg op ys] := by
  cases op with
  | not => exact absurd rfl hop
  | and | or => simp [groupValue]

theorem groupValue_singleton {op : Connective} (hop : op ≠ .not) (x : β) :
    groupValue neg op [x] = x := by
  cases op with
  | not => exact absurd rfl hop
  | and | or => simp [groupValue]

theorem measures_value : Measures (value neg leaf) (groupValue neg) where
  group op members := by rw [value, valueAll_eq_map]
  single hop x := groupValue_singleton neg hop x
  flatten hop xss := by
    induction xss with
    | nil => rfl
    | cons xs xss ih =>
      rw [List.flatten_cons, groupValue_append neg hop, ih, List.map_cons,
        ← groupValue_cons neg hop]

/-- The flat form of a clause has its truth value. -/
theorem value_flat (c : Clause) : value neg leaf c.flat = value neg leaf c :=
  (measures_value neg leaf).flat c

end Value

end Clause

end JoinPath
