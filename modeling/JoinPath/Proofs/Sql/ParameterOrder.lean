import JoinPath.Proofs.Criteria.Inside
import JoinPath.Proofs.Criteria.Slots
/-!
# The order of parameters

A condition lists the parameters that its text has placeholders for, each as often as the text
shows it. Of a subquery it lists those of the filter first, while the text has those of the joins
first. So the lists differ only in their order, and agree as soon as no subquery has parameters on
both sides (`names_render_perm_paramNames`).
-/

namespace JoinPath

namespace Criteria

open Fragment (names)

/-- A subquery has no parameters in its filter or none in the conditions of its joins. -/
def IsOneSided : Criteria → Prop
  | subquery select =>
    (∀ c ∈ select.filter, c.paramNames = []) ∨ ∀ c ∈ select.ons, c.paramNames = []
  | _ => True

/-! ## Parameters -/

theorem paramNamesOf_eq_flatMap (o : Option Criteria) :
    paramNamesOf o = o.toList.flatMap paramNames := by
  cases o with
  | none => rfl
  | some c => exact (List.flatMap_singleton _ _).symm

theorem paramNamesOfJoins_eq_flatMap (hops : List (Hop Criteria)) :
    paramNamesOfJoins hops = (hops.filterMap Hop.on).flatMap paramNames :=
  eq_flatMap_ons_of_cons rfl
    (fun hop hops => by cases hop; rw [paramNamesOfJoins, paramNamesOf_eq_flatMap]) hops

theorem paramNames_subquery (select : Select Criteria) :
    (subquery select).paramNames =
      select.filter.toList.flatMap paramNames ++ select.ons.flatMap paramNames := by
  obtain ⟨columns, table, tableAlias, joins, filter, parameters⟩ := select
  rw [paramNames, paramNamesOf_eq_flatMap, paramNamesOfJoins_eq_flatMap]
  rfl

/-! ## Placeholders -/

/-- The placeholders in the text of a condition. -/
def shownNames (c : Criteria) : List String := names c.fragments

theorem names_comparisonFragments {op : Operator} {parts : List Part}
    (h : op.Admits parts.length) :
    names (comparisonFragments op parts) = parts.flatMap fun part => names part.2 := by
  match parts, h with
  | [], h => cases op <;> simp [Operator.Admits] at h
  | [c], h =>
    cases op <;>
      simp [Operator.Admits, comparisonFragments, Fragment.names_append, names,
        names_valuesFragments] at h ⊢
  | [left, right], h =>
    cases op <;>
      simp [Operator.Admits, comparisonFragments, Fragment.names_append, names,
        names_valuesFragments] at h ⊢
  | left :: right :: more :: rest, h =>
    cases op <;>
      simp [Operator.Admits, comparisonFragments, Fragment.names_append, names,
        names_valuesFragments] at h ⊢

theorem shownNames_comparison {op : Operator} {cs : List Criteria}
    (h : (comparison op cs).HasArity) :
    (comparison op cs).shownNames = cs.flatMap shownNames := by
  have harity : op.Admits (parts cs).length := by
    rw [parts_eq_map, List.length_map]
    exact h
  rw [shownNames, fragments, names_comparisonFragments harity, parts_eq_map, List.flatMap_map]
  rfl

theorem shownNames_group (op : Connective) (cs : List Criteria) :
    (group op cs).shownNames = cs.flatMap shownNames := by
  rw [shownNames, fragments, names_groupFragments, parts_eq_map, List.flatMap_map]
  rfl

theorem names_hopsFragments (hops : List (Hop Criteria)) :
    names (hopsFragments hops) = (hops.filterMap Hop.on).flatMap shownNames := by
  refine eq_flatMap_ons_of_cons (g := fun hops => names (hopsFragments hops)) rfl ?_ hops
  rintro ⟨kind, table, tableAlias, conditions, on, fetch⟩ hops
  rw [hopsFragments, Fragment.names_append]
  cases on <;> simp [hopFragments, onFragments, names, names_memberFragments, shownNames]

theorem shownNames_subquery (select : Select Criteria) :
    (subquery select).shownNames =
      select.ons.flatMap shownNames ++ select.filter.toList.flatMap shownNames := by
  obtain ⟨columns, table, tableAlias, joins, filter, parameters⟩ := select
  have hfilter : names (filterFragments filter) = filter.toList.flatMap shownNames := by
    cases filter <;> simp [filterFragments, names, shownNames]
  simp [shownNames, fragments, parenthesized, selectFragments, names, Fragment.names_append,
    names_hopsFragments, hfilter, Select.ons]

/-! ## The two orders -/

/-- Lists that agree in one go agree piece by piece where the pieces are of equal length. -/
theorem eq_of_flatMap_eq {f g : Criteria → List String} {cs : List Criteria}
    (lengths : ∀ c ∈ cs, (f c).length = (g c).length) (h : cs.flatMap f = cs.flatMap g) :
    ∀ c ∈ cs, f c = g c := by
  induction cs with
  | nil => exact fun _ hc => absurd hc List.not_mem_nil
  | cons c cs ih =>
    obtain ⟨hlength, hlengths⟩ := List.forall_mem_cons.1 lengths
    obtain ⟨hfirst, hrest⟩ := List.append_inj h hlength
    exact List.forall_mem_cons.2 ⟨hfirst, ih hlengths hrest⟩

theorem shownNames_perm {c : Criteria} (arity : c.Everywhere HasArity) :
    c.shownNames.Perm c.paramNames := by
  induction c using induction_contents with
  | comparison op cs ih =>
    rw [shownNames_comparison arity.here, collects_paramNames.comparison]
    exact .flatMap_left _ fun c hc => ih c hc (arity.contents c hc)
  | group op cs ih =>
    rw [shownNames_group, collects_paramNames.group]
    exact .flatMap_left _ fun c hc => ih c hc (arity.contents c hc)
  | subquery select ih =>
    have hall : ∀ c ∈ select.filter.toList ++ select.ons, c.shownNames.Perm c.paramNames :=
      fun c hc => ih c hc (arity.contents c hc)
    obtain ⟨hfilter, hons⟩ := List.forall_mem_append.1 hall
    rw [shownNames_subquery, paramNames_subquery]
    exact List.perm_append_comm.trans
      ((List.Perm.flatMap_left _ hfilter).append (.flatMap_left _ hons))
  | _ => exact .refl _

theorem isOneSided_iff {select : Select Criteria} :
    (subquery select).IsOneSided ↔
      select.filter.toList.flatMap paramNames = [] ∨ select.ons.flatMap paramNames = [] := by
  simp [IsOneSided, List.flatMap_eq_nil_iff]

/-- Two lists one of which is empty may be put in either order. -/
theorem append_comm_of_eq_nil {xs ys : List String} (h : xs = [] ∨ ys = []) :
    xs ++ ys = ys ++ xs := by
  rcases h with rfl | rfl
  · exact (List.append_nil ys).symm
  · exact List.append_nil xs

/-- Where every subquery has its parameters on one side, the two orders are the same. -/
theorem shownNames_eq {c : Criteria} (arity : c.Everywhere HasArity)
    (sided : c.Everywhere IsOneSided) : c.shownNames = c.paramNames := by
  induction c using induction_contents with
  | comparison op cs ih =>
    rw [shownNames_comparison arity.here, collects_paramNames.comparison]
    exact List.flatMap_congr fun c hc => ih c hc (arity.contents c hc) (sided.contents c hc)
  | group op cs ih =>
    rw [shownNames_group, collects_paramNames.group]
    exact List.flatMap_congr fun c hc => ih c hc (arity.contents c hc) (sided.contents c hc)
  | subquery select ih =>
    have hall : ∀ c ∈ select.filter.toList ++ select.ons, c.shownNames = c.paramNames :=
      fun c hc => ih c hc (arity.contents c hc) (sided.contents c hc)
    obtain ⟨hfilter, hons⟩ := List.forall_mem_append.1 hall
    rw [shownNames_subquery, paramNames_subquery, List.flatMap_congr hfilter,
      List.flatMap_congr hons]
    exact append_comm_of_eq_nil (isOneSided_iff.1 sided.here).symm
  | _ => rfl

/-- Where nothing comes twice, two lists can be put in either order only if one of them is empty,
and then they are the same in both. -/
theorem sides_of_append_eq {xs xs' ys ys' : List String} (hxs : xs'.Perm xs) (hys : ys'.Perm ys)
    (nodup : (xs ++ ys).Nodup) (h : ys' ++ xs' = xs ++ ys) :
    (xs = [] ∨ ys = []) ∧ xs' ++ ys' = xs ++ ys := by
  have hempty : xs = [] ∨ ys' = [] := by
    by_contra hne
    obtain ⟨hne, hne'⟩ := not_or.1 hne
    obtain ⟨x, xs, rfl⟩ := List.exists_cons_of_ne_nil hne
    obtain ⟨y, ys', rfl⟩ := List.exists_cons_of_ne_nil hne'
    -- The two rows begin with the same name, which is on both sides then.
    obtain rfl : y = x := (List.cons.inj h).1
    exact List.disjoint_of_nodup_append nodup List.mem_cons_self
      (hys.mem_iff.1 List.mem_cons_self)
  rcases hempty with rfl | rfl
  · obtain rfl := List.perm_nil.1 hxs
    exact ⟨.inl rfl, (append_comm_of_eq_nil (.inl rfl)).trans h⟩
  · exact ⟨.inr (List.nil_perm.1 hys), (append_comm_of_eq_nil (.inr rfl)).trans h⟩

/-- Where no parameter comes twice, the two orders differ as soon as a subquery has parameters on
both sides. -/
theorem everywhere_isOneSided {c : Criteria} (arity : c.Everywhere HasArity)
    (nodup : c.paramNames.Nodup) (h : c.shownNames = c.paramNames) :
    c.Everywhere IsOneSided := by
  have all {cs : List Criteria}
      (ih : ∀ c ∈ cs, c.Everywhere HasArity → c.paramNames.Nodup → c.shownNames = c.paramNames →
        c.Everywhere IsOneSided)
      (arity : ∀ c ∈ cs, c.Everywhere HasArity) (nodup : (cs.flatMap paramNames).Nodup)
      (h : cs.flatMap shownNames = cs.flatMap paramNames) :
      ∀ c ∈ cs, c.Everywhere IsOneSided := by
    intro c hc
    have heq := eq_of_flatMap_eq (fun d hd => (shownNames_perm (arity d hd)).length_eq) h c hc
    exact ih c hc (arity c hc) (List.nodup_flatMap.1 nodup |>.1 c hc) heq
  induction c using induction_contents with
  | comparison op cs ih =>
    rw [collects_paramNames.comparison] at nodup
    rw [shownNames_comparison arity.here, collects_paramNames.comparison] at h
    exact everywhere_iff.2 ⟨trivial, all ih arity.contents nodup h⟩
  | group op cs ih =>
    rw [collects_paramNames.group] at nodup
    rw [shownNames_group, collects_paramNames.group] at h
    exact everywhere_iff.2 ⟨trivial, all ih arity.contents nodup h⟩
  | subquery select ih =>
    have hall : ∀ c ∈ select.filter.toList ++ select.ons, c.shownNames.Perm c.paramNames :=
      fun c hc => shownNames_perm (arity.contents c hc)
    obtain ⟨hfilter, hons⟩ := List.forall_mem_append.1 hall
    rw [paramNames_subquery] at nodup
    rw [shownNames_subquery, paramNames_subquery] at h
    obtain ⟨hsided, hsame⟩ := sides_of_append_eq (.flatMap_left _ hfilter) (.flatMap_left _ hons)
      nodup h
    rw [← List.flatMap_append] at nodup
    rw [← List.flatMap_append, ← List.flatMap_append] at hsame
    exact everywhere_iff.2 ⟨isOneSided_iff.2 hsided, all ih arity.contents nodup hsame⟩
  | _ => exact everywhere_iff.2 ⟨trivial, fun _ he => absurd he List.not_mem_nil⟩

/-- Where every comparison has the operands that the builders give it, the placeholders of a
condition are, in every dialect, its parameters in some order. The order is the same if no subquery
has parameters both in its filter and in the conditions of its joins; and where no parameter comes
twice it is the same only then. -/
theorem names_render_perm_paramNames (c : Criteria) (d : Dialect) (arity : c.Everywhere HasArity) :
    (c.render d).names.Perm c.paramNames ∧
    (c.Everywhere IsOneSided → (c.render d).names = c.paramNames) ∧
    (c.paramNames.Nodup → (c.render d).names = c.paramNames → c.Everywhere IsOneSided) :=
  ⟨shownNames_perm arity, shownNames_eq arity, everywhere_isOneSided arity⟩

/-! ## Lines with a note -/

/-- The lines with a note of this text that the filter lets through. -/
def notedLines (filter : Option Criteria) : Select Criteria where
  columns := [.unqualified "id"]
  table := "lines"
  tableAlias := "l"
  joins := [{
    kind := .inner
    table := "notes"
    tableAlias := "n"
    conditions := [⟨.qualified "l" "id", .qualified "n" "line_id"⟩]
    on := some (.eq (.column (.qualified "n" "text")) (.param "note"))
    fetch := false }]
  filter := filter
  parameters := .empty

/-- What belongs to those lines and is of some kind. -/
def ofNotedLines (filter : Option Criteria) : Criteria :=
  .and [.isIn (.col "line_id") [.subquery (notedLines filter)], .eq (.col "kind") (.param "kind")]

theorem hasArity_ofNotedLines {filter : Option Criteria}
    (h : ∀ c ∈ filter, c.Everywhere HasArity) : (ofNotedLines filter).Everywhere HasArity := by
  simpa [ofNotedLines, notedLines, and, combine, isIn, eq, compare, col, HasArity,
    Operator.Admits, Select.forall_conditions] using h

theorem names_render_perm_paramNames_notedLines :
    (ofNotedLines none).Everywhere HasArity ∧ (ofNotedLines none).Everywhere IsOneSided ∧
    ((ofNotedLines none).render .postgres).names = (ofNotedLines none).paramNames := by
  have arity : (ofNotedLines none).Everywhere HasArity :=
    hasArity_ofNotedLines fun _ h => nomatch h
  have sided : (ofNotedLines none).Everywhere IsOneSided := by
    simp [ofNotedLines, notedLines, and, combine, isIn, eq, compare, col, IsOneSided,
      Select.forall_conditions]
  exact ⟨arity, sided, (names_render_perm_paramNames _ .postgres arity).2.1 sided⟩

/-- The parameter of the filter is listed before that of the join, and shown after it. -/
theorem paramNames_out_of_order :
    let c := ofNotedLines (some (.eq (.column (.qualified "l" "sku")) (.param "sku")))
    c.Everywhere HasArity ∧ c.paramNames = ["sku", "note", "kind"] ∧
    ∀ d, (c.render d).names ≠ c.paramNames := by
  intro c
  have hparams : c.paramNames = ["sku", "note", "kind"] := by cbv
  refine ⟨hasArity_ofNotedLines fun on h => ?_, hparams, fun d => ?_⟩
  · obtain rfl := Option.some.inj h
    simp [eq, compare, HasArity, Operator.Admits]
  · have hnames : (c.render d).names = ["note", "sku", "kind"] := by cbv
    rw [hnames, hparams]
    decide

end Criteria

end JoinPath
