import JoinPath.Proofs.Criteria.Restored
import JoinPath.Sql.Render
/-!
# Placeholders of conditions

The placeholders of a condition are its parameters and those of the statements inside it. Its text
shows no others (`names_fragments_subset`), and naming the literals of a condition adds their names
and nothing else (`Filled.mem_slots`).
-/

namespace JoinPath

namespace Fragment

/-- A text between others has no placeholder. -/
theorem names_intercalate (between : String) (parts : List (List Fragment)) :
    names ([text between].intercalate parts) = parts.flatMap names := by
  match parts with
  | [] => rfl
  | [part] => simp [List.intercalate_singleton]
  | part :: next :: parts =>
    rw [List.intercalate_cons_cons, names_append, names_append,
      names_intercalate between (next :: parts), List.flatMap_cons]
    exact congrArg (· ++ _) (List.append_nil _)

end Fragment

namespace Criteria

open Fragment (names)

/-- The placeholders of a condition that has no members. -/
def leafSlots : Criteria → List String
  | param name => [name]
  | subquery select => names (selectFragments select)
  | _ => []

/-- The placeholders of a condition, those of statements inside it too. -/
def slots (c : Criteria) : List String := c.leaves.flatMap leafSlots

theorem mem_slots {c : Criteria} {name : String} :
    name ∈ c.slots ↔
      name ∈ c.params ∨ ∃ q ∈ c.subqueries, name ∈ names (selectFragments q) := by
  simp only [slots, List.mem_flatMap, mem_params, mem_subqueries]
  constructor
  · rintro ⟨leaf, hleaf, hname⟩
    cases leaf with
    | param other =>
      obtain rfl := List.mem_singleton.1 hname
      exact .inl hleaf
    | subquery q => exact .inr ⟨q, hleaf, hname⟩
    | _ => cases hname
  · rintro (hparam | ⟨q, hq, hname⟩)
    · exact ⟨param name, hparam, List.mem_singleton_self name⟩
    · exact ⟨subquery q, hq, hname⟩

theorem collects_slots : Collects slots := collects_leaves.flatMap leafSlots

/-! ## Texts -/

theorem names_memberFragments (parent : Connective) (part : Part) :
    names (memberFragments parent part) = names part.2 := by
  unfold memberFragments
  split
  · simp [parenthesized, names, Fragment.names_append]
  · rfl

theorem names_joined (between : String) (parent : Connective) (parts : List Part) :
    names (joined between parent parts) = parts.flatMap fun part => names part.2 := by
  rw [joined, Fragment.names_intercalate, List.flatMap_map]
  simp only [names_memberFragments]

theorem names_groupFragments (op : Connective) (parts : List Part) :
    names (groupFragments op parts) = parts.flatMap fun part => names part.2 := by
  cases op with
  | not => simp [groupFragments, names, Fragment.names_append, names_joined]
  | _ => exact names_joined _ _ parts

theorem names_valuesFragments (parts : List Part) :
    names (valuesFragments parts) = parts.flatMap fun part => names part.2 := by
  unfold valuesFragments
  split
  · simp
  · simp [parenthesized, names, Fragment.names_append, names_joined]

/-- A comparison shows some of its operands. -/
theorem names_comparisonFragments_subset (op : Operator) (parts : List Part) :
    names (comparisonFragments op parts) ⊆ parts.flatMap fun part => names part.2 := by
  intro name h
  unfold comparisonFragments at h
  split at h <;>
    simp only [Fragment.names_append, names, names_valuesFragments, List.append_nil,
      List.flatMap_cons, List.flatMap_nil, List.mem_append] at h ⊢
  all_goals tauto

theorem names_fragments_subset (c : Criteria) : names c.fragments ⊆ c.slots := by
  induction c using induction_members with
  | comparison op cs ih =>
    intro name h
    have hparts := names_comparisonFragments_subset op _ h
    rw [parts_eq_map, List.flatMap_map] at hparts
    obtain ⟨c, hc, hname⟩ := List.mem_flatMap.1 hparts
    rw [collects_slots.comparison]
    exact List.mem_flatMap.2 ⟨c, hc, ih c hc hname⟩
  | group op cs ih =>
    intro name h
    rw [fragments, names_groupFragments, parts_eq_map, List.flatMap_map] at h
    obtain ⟨c, hc, hname⟩ := List.mem_flatMap.1 h
    rw [collects_slots.group]
    exact List.mem_flatMap.2 ⟨c, hc, ih c hc hname⟩
  | literal value => exact List.nil_subset _
  | param name => exact List.Subset.refl _
  | subquery select =>
    intro name h
    simpa [fragments, parenthesized, names, Fragment.names_append, slots, leaves, leafSlots] using h
  | column ref => exact List.nil_subset _

theorem exists_of_mem_names_hops {hops : List (Hop Criteria)} {name : String}
    (h : name ∈ names (hopsFragments hops)) : ∃ hop ∈ hops, ∃ on ∈ hop.on, name ∈ on.slots := by
  induction hops with
  | nil => cases h
  | cons hop hops ih =>
    rw [hopsFragments, Fragment.names_append, List.mem_append] at h
    rcases h with h | h
    · obtain ⟨kind, table, tableAlias, conditions, on, fetch⟩ := hop
      cases on with
      | none => cases h
      | some on =>
        simp only [hopFragments, onFragments, names, names_memberFragments] at h
        exact ⟨_, List.mem_cons_self, on, rfl, names_fragments_subset on h⟩
    · obtain ⟨other, hmem, hon⟩ := ih h
      exact ⟨other, List.mem_cons_of_mem _ hmem, hon⟩

/-- The placeholders of a statement stand in the conditions of its hops or in its filter. -/
theorem exists_of_mem_names_select {select : Select Criteria} {name : String}
    (h : name ∈ names (selectFragments select)) :
    (∃ hop ∈ select.joins, ∃ on ∈ hop.on, name ∈ on.slots) ∨
      ∃ c ∈ select.filter, name ∈ c.slots := by
  obtain ⟨columns, table, tableAlias, joins, filter, parameters⟩ := select
  simp only [selectFragments, names, List.cons_append, Fragment.names_append,
    List.mem_append] at h
  rcases h with h | h
  · exact .inl (exists_of_mem_names_hops h)
  · cases filter with
    | none => cases h
    | some c => exact .inr ⟨c, rfl, names_fragments_subset c h⟩

/-! ## Named literals -/

/-- A placeholder stands there already or took the place of a literal. -/
theorem Filled.mem_slots {bound : String → Value → Prop} {c d : Criteria} (h : Filled bound c d)
    {name : String} (hname : name ∈ d.slots) : name ∈ c.slots ∨ ∃ v, bound name v := by
  obtain ⟨m, hm, hslot⟩ := List.mem_flatMap.1 hname
  obtain ⟨l, hl, hleaf⟩ := h.exists_leaf hm
  cases hleaf with
  | literal hbound => exact .inr ⟨_, List.mem_singleton.1 hslot ▸ hbound⟩
  | param other => exact .inl (List.mem_flatMap.2 ⟨_, hl, hslot⟩)
  | subquery select => exact .inl (List.mem_flatMap.2 ⟨_, hl, hslot⟩)
  | column ref => cases hslot

end Criteria

end JoinPath
