import JoinPath.Proofs.Criteria.Leaves
import JoinPath.Proofs.Lists
/-!
# What stands inside a condition

A condition contains its operands and members, and a subquery the conditions of its statement. What
holds everywhere inside a condition, at whatever depth, holds of it and everywhere inside its
contents (`everywhere_iff`).
-/

namespace JoinPath

/-- The conditions of a statement: its filter and those of its hops. -/
def Select.conditions (s : Select Criteria) : List Criteria :=
  s.filter.toList ++ s.joins.filterMap Hop.on

/-- The conditions of the hops of a statement, in the order of the hops. -/
def Select.ons (s : Select Criteria) : List Criteria := s.joins.filterMap Hop.on

/-- A function that goes along hops and collects from their conditions. -/
theorem eq_flatMap_ons_of_cons {α : Type} {f : Criteria → List α} {g : List (Hop Criteria) → List α}
    (nil : g [] = []) (cons : ∀ hop hops, g (hop :: hops) = hop.on.toList.flatMap f ++ g hops)
    (hops : List (Hop Criteria)) : g hops = (hops.filterMap Hop.on).flatMap f := by
  have hflat : g hops = hops.flatMap fun hop => hop.on.toList.flatMap f :=
    eq_flatMap_of_cons nil cons hops
  rw [hflat, List.filterMap_eq_flatMap_toList, List.flatMap_assoc]

theorem Select.forall_conditions {P : Criteria → Prop} {s : Select Criteria} :
    (∀ c ∈ s.conditions, P c) ↔ (∀ c ∈ s.filter, P c) ∧ ∀ h ∈ s.joins, ∀ c ∈ h.on, P c := by
  simp only [conditions, List.mem_append, Option.mem_toList, List.mem_filterMap, or_imp,
    forall_and, forall_exists_index, and_imp, Option.mem_def]
  exact and_congr_right fun _ => ⟨fun h hop hhop c hc => h c hop hhop hc,
    fun h c hop hhop hc => h hop hhop c hc⟩

/-- The numbers of operands with which the builders make a comparison. An `IN` may be without
values. -/
def Operator.Admits (op : Operator) (n : ℕ) : Prop :=
  match op with
  | .isNull | .isNotNull | .exist => n = 1
  | .isIn | .notIn => 1 ≤ n
  | _ => n = 2

namespace Criteria

/-- The operands of a comparison, the members of a group, and the conditions of a subquery. -/
def contents : Criteria → List Criteria
  | comparison _ operands => operands
  | group _ members => members
  | subquery select => select.conditions
  | _ => []

/-- The first condition is the second or stands in it, also in its subqueries. -/
inductive Inside (d : Criteria) : Criteria → Prop
  | self : Inside d d
  | under {c e : Criteria} : e ∈ c.contents → Inside d e → Inside d c

/-- The property holds of the condition and of all that stands in it. -/
def Everywhere (P : Criteria → Prop) (c : Criteria) : Prop := ∀ d, d.Inside c → P d

variable {P : Criteria → Prop} {c : Criteria}

theorem everywhere_iff : c.Everywhere P ↔ P c ∧ ∀ e ∈ c.contents, e.Everywhere P := by
  constructor
  · exact fun h => ⟨h c .self, fun e he d hd => h d (.under he hd)⟩
  · rintro ⟨hself, hunder⟩ d hd
    cases hd with
    | self => exact hself
    | under he hd => exact hunder _ he d hd

theorem Everywhere.here (h : c.Everywhere P) : P c := h c .self

theorem Everywhere.contents (h : c.Everywhere P) : ∀ e ∈ c.contents, e.Everywhere P :=
  (everywhere_iff.1 h).2

@[simp] theorem everywhere_comparison {op : Operator} {cs : List Criteria} :
    (comparison op cs).Everywhere P ↔ P (comparison op cs) ∧ ∀ c ∈ cs, c.Everywhere P :=
  everywhere_iff

@[simp] theorem everywhere_group {op : Connective} {cs : List Criteria} :
    (group op cs).Everywhere P ↔ P (group op cs) ∧ ∀ c ∈ cs, c.Everywhere P :=
  everywhere_iff

@[simp] theorem everywhere_subquery {select : Select Criteria} :
    (subquery select).Everywhere P ↔
      P (subquery select) ∧ ∀ c ∈ select.conditions, c.Everywhere P :=
  everywhere_iff

theorem everywhere_leaf (h : c.contents = []) : c.Everywhere P ↔ P c := by
  rw [everywhere_iff, h]
  exact and_iff_left fun _ he => absurd he List.not_mem_nil

@[simp] theorem everywhere_literal {value : Value} :
    (literal value).Everywhere P ↔ P (literal value) :=
  everywhere_leaf rfl

@[simp] theorem everywhere_param {name : String} :
    (param name).Everywhere P ↔ P (param name) :=
  everywhere_leaf rfl

@[simp] theorem everywhere_column {ref : ColumnRef} :
    (column ref).Everywhere P ↔ P (column ref) :=
  everywhere_leaf rfl

/-- A comparison has as many operands as the builders give it. -/
def HasArity : Criteria → Prop
  | comparison op operands => op.Admits operands.length
  | _ => True

/-- Induction that goes into subqueries. -/
@[elab_as_elim]
theorem induction_contents {P : Criteria → Prop}
    (comparison : ∀ op cs, (∀ c ∈ cs, P c) → P (comparison op cs))
    (group : ∀ op cs, (∀ c ∈ cs, P c) → P (group op cs))
    (literal : ∀ value, P (literal value)) (param : ∀ name, P (param name))
    (subquery : ∀ select : Select Criteria, (∀ c ∈ select.conditions, P c) → P (subquery select))
    (column : ∀ ref, P (column ref)) (c : Criteria) : P c := by
  refine @Criteria.rec P (fun cs => ∀ c ∈ cs, P c) (fun s => ∀ c ∈ s.conditions, P c)
    (fun hs => ∀ h ∈ hs, ∀ c ∈ h.on, P c) (fun o => ∀ c ∈ o, P c) (fun h => ∀ c ∈ h.on, P c)
    comparison group literal param subquery column ?_ ?_ ?_ ?_ ?_ ?_ ?_ ?_ c
  case refine_3 =>
    exact fun _ _ _ joins filter _ hjoins hfilter =>
      Select.forall_conditions.2 ⟨hfilter, hjoins⟩
  all_goals simp +contextual

/-! ## Structural properties -/

/-- A property that asks at most how many members a condition has. Leaves, equations and
conjunctions of some members have it. -/
structure IsStructural (P : Criteria → Prop) : Prop where
  comparison : ∀ op {cs ds : List Criteria}, ds.length = cs.length →
    P (.comparison op cs) → P (.comparison op ds)
  group : ∀ op {cs ds : List Criteria}, ds.length = cs.length → P (.group op cs) → P (.group op ds)
  equation : ∀ left right, P (.eq left right)
  conjunction : ∀ cs : List Criteria, cs ≠ [] → P (.group .and cs)
  literal : ∀ value, P (.literal value)
  param : ∀ name, P (.param name)
  column : ∀ ref, P (.column ref)

namespace IsStructural

theorem mapColumns (hP : IsStructural P) (f : ColumnRef → ColumnRef) (h : c.Everywhere P) :
    (c.mapColumns f).Everywhere P := by
  induction c using induction_members with
  | comparison op cs ih =>
    rw [mapColumns_comparison, everywhere_comparison, List.forall_mem_map]
    exact ⟨hP.comparison op (List.length_map _) h.here, fun c hc => ih c hc (h.contents c hc)⟩
  | group op cs ih =>
    rw [mapColumns_group, everywhere_group, List.forall_mem_map]
    exact ⟨hP.group op (List.length_map _) h.here, fun c hc => ih c hc (h.contents c hc)⟩
  | literal value => exact everywhere_literal.2 (hP.literal value)
  | param name => exact everywhere_param.2 (hP.param name)
  | subquery select => exact h
  | column ref => exact everywhere_column.2 (hP.column (f ref))

/-- Naming literals keeps a structural property. -/
theorem filled (hP : IsStructural P) {bound : String → Value → Prop} {d : Criteria}
    (hfilled : Filled bound c d) (h : c.Everywhere P) : d.Everywhere P := by
  have all {cs ds : List Criteria} (hds : FilledAll bound cs ds)
      (ih : ∀ c ∈ cs, ∀ d, Filled bound c d → d.Everywhere P) :
      ds.length = cs.length ∧ ∀ d ∈ ds, d.Everywhere P := by
    have hds := filledAll_iff.1 hds
    refine ⟨hds.length_eq.symm, fun d hd => ?_⟩
    obtain ⟨c, hc, hcd⟩ := exists_mem_of_forall₂ hds.flip hd
    exact ih c hc d hcd
  induction c using induction_members generalizing d with
  | comparison op cs ih =>
    obtain ⟨ds, rfl, hds⟩ := hfilled
    obtain ⟨hlength, hall⟩ := all hds fun c hc d hd => ih c hc hd (h.contents c hc)
    exact everywhere_comparison.2 ⟨hP.comparison op hlength h.here, hall⟩
  | group op cs ih =>
    obtain ⟨ds, rfl, hds⟩ := hfilled
    obtain ⟨hlength, hall⟩ := all hds fun c hc d hd => ih c hc hd (h.contents c hc)
    exact everywhere_group.2 ⟨hP.group op hlength h.here, hall⟩
  | literal value =>
    obtain ⟨name, rfl, -⟩ := hfilled
    exact everywhere_param.2 (hP.param name)
  | param name => exact (show d = _ from hfilled) ▸ h
  | subquery select => exact (show d = _ from hfilled) ▸ h
  | column ref => exact (show d = _ from hfilled) ▸ h

theorem and (hP : IsStructural P) {cs : List Criteria} (hne : cs ≠ [])
    (h : ∀ c ∈ cs, c.Everywhere P) : (Criteria.and cs).Everywhere P := by
  match cs, hne, h with
  | [c], _, h => exact h c List.mem_cons_self
  | c :: d :: cs, hne, h => exact everywhere_group.2 ⟨hP.conjunction _ hne, h⟩

end IsStructural

theorem isStructural_hasArity : IsStructural HasArity where
  comparison op cs ds hlength h := by
    show op.Admits ds.length
    rw [hlength]
    exact h
  group _ _ _ _ _ := trivial
  equation _ _ := rfl
  conjunction _ _ := trivial
  literal _ := trivial
  param _ := trivial
  column _ := trivial

end Criteria

end JoinPath
