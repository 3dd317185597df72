import JoinPath.Criteria.Basic
import JoinPath.Proofs.Lists
import Mathlib.Tactic.Tauto
/-!
# Leaves of a condition

A condition is read from left to right by its leaves: literals, parameters, columns, and subqueries
as a whole. What is collected from a comparison or a group is what its members give, one after the
other (`Collects`), and so it is with all that is read off the leaves. Rewriting columns and naming
literals act leaf by leaf, so both are described by what they do to leaves (`leaves_mapColumns`,
`Filled.leaves`).
-/

namespace JoinPath.Criteria

/-- Induction outside subqueries: a subquery is a leaf. -/
@[elab_as_elim]
theorem induction_members {P : Criteria → Prop}
    (comparison : ∀ op cs, (∀ c ∈ cs, P c) → P (comparison op cs))
    (group : ∀ op cs, (∀ c ∈ cs, P c) → P (group op cs))
    (literal : ∀ value, P (literal value)) (param : ∀ name, P (param name))
    (subquery : ∀ select, P (subquery select)) (column : ∀ ref, P (column ref)) (c : Criteria) :
    P c := by
  refine @Criteria.rec P (fun cs => ∀ c ∈ cs, P c) (fun _ => True) (fun _ => True)
    (fun _ => True) (fun _ => True) comparison group literal param
    (fun select _ => subquery select) column ?_ ?_ ?_ ?_ ?_ ?_ ?_ ?_ c
  all_goals simp +contextual

@[simp] theorem mapColumns_comparison (f : ColumnRef → ColumnRef) (op : Operator)
    (cs : List Criteria) :
    mapColumns f (comparison op cs) = comparison op (cs.map (mapColumns f)) := by
  rw [mapColumns, mapColumnsAll_eq_map]

@[simp] theorem mapColumns_group (f : ColumnRef → ColumnRef) (op : Connective)
    (cs : List Criteria) : mapColumns f (group op cs) = group op (cs.map (mapColumns f)) := by
  rw [mapColumns, mapColumnsAll_eq_map]

/-! ## Rewriting

A rewrite that goes through comparisons and groups is known by what it does to leaves.
-/

/-- The rewrite keeps comparisons and groups, and acts on their operands and members. -/
structure Rewrites (t : Criteria → Criteria) : Prop where
  comparison : ∀ op cs, t (comparison op cs) = comparison op (cs.map t)
  group : ∀ op cs, t (group op cs) = group op (cs.map t)

/-- A condition without operands or members. -/
inductive IsLeaf : Criteria → Prop
  | literal (value : Value) : IsLeaf (literal value)
  | param (name : String) : IsLeaf (param name)
  | subquery (select : Select Criteria) : IsLeaf (subquery select)
  | column (ref : ColumnRef) : IsLeaf (column ref)

namespace Rewrites

variable {t u : Criteria → Criteria}

theorem and (ht : Rewrites t) (cs : List Criteria) :
    t (Criteria.and cs) = Criteria.and (cs.map t) := by
  match cs with
  | [] => exact ht.group .and []
  | [c] => rfl
  | c :: d :: cs => exact ht.group .and (c :: d :: cs)

theorem comp (ht : Rewrites t) (hu : Rewrites u) : Rewrites fun c => t (u c) where
  comparison op cs := by
    rw [hu.comparison, ht.comparison, List.map_map]
    rfl
  group op cs := by
    rw [hu.group, ht.group, List.map_map]
    rfl

/-- Rewrites that agree on leaves agree. -/
theorem ext (ht : Rewrites t) (hu : Rewrites u) (leaf : ∀ l, IsLeaf l → t l = u l) (c : Criteria) :
    t c = u c := by
  induction c using induction_members with
  | comparison op cs ih =>
    rw [ht.comparison, hu.comparison]
    exact congrArg _ (List.map_congr_left ih)
  | group op cs ih =>
    rw [ht.group, hu.group]
    exact congrArg _ (List.map_congr_left ih)
  | literal value => exact leaf _ (.literal value)
  | param name => exact leaf _ (.param name)
  | subquery select => exact leaf _ (.subquery select)
  | column ref => exact leaf _ (.column ref)

end Rewrites

theorem rewrites_mapColumns (f : ColumnRef → ColumnRef) : Rewrites (mapColumns f) :=
  ⟨mapColumns_comparison f, mapColumns_group f⟩

theorem mapColumns_mapColumns (f g : ColumnRef → ColumnRef) (c : Criteria) :
    mapColumns f (mapColumns g c) = mapColumns (fun ref => f (g ref)) c :=
  ((rewrites_mapColumns f).comp (rewrites_mapColumns g)).ext (rewrites_mapColumns _)
    (fun _ hl => by cases hl <;> rfl) c

/-- Columns that have an alias keep it. -/
theorem qualify_withAlias (a b : String) (c : Criteria) :
    (c.withAlias a).qualify b = c.withAlias a :=
  mapColumns_mapColumns _ _ c

/-! ## Leaves -/

mutual

/-- The leaves outside subqueries from left to right. -/
def leaves : Criteria → List Criteria
  | comparison _ operands => leavesAll operands
  | group _ members => leavesAll members
  | literal value => [literal value]
  | param name => [param name]
  | subquery select => [subquery select]
  | column ref => [column ref]

def leavesAll : List Criteria → List Criteria
  | [] => []
  | c :: cs => leaves c ++ leavesAll cs

end

theorem leavesAll_eq_flatMap (cs : List Criteria) : leavesAll cs = cs.flatMap leaves :=
  eq_flatMap_of_cons rfl (fun _ _ => rfl) cs

@[simp] theorem leaves_comparison (op : Operator) (cs : List Criteria) :
    leaves (comparison op cs) = cs.flatMap leaves := by
  rw [leaves, leavesAll_eq_flatMap]

@[simp] theorem leaves_group (op : Connective) (cs : List Criteria) :
    leaves (group op cs) = cs.flatMap leaves := by
  rw [leaves, leavesAll_eq_flatMap]

/-- What is collected from a comparison or a group is what its operands or members give, one after
the other. -/
structure Collects {α : Type} (f : Criteria → List α) : Prop where
  comparison : ∀ op cs, f (comparison op cs) = cs.flatMap f
  group : ∀ op cs, f (group op cs) = cs.flatMap f

theorem collects_leaves : Collects leaves := ⟨leaves_comparison, leaves_group⟩

namespace Collects

variable {α β : Type} {f : Criteria → List α}

/-- What is read off the parts is collected too. -/
theorem flatMap (h : Collects f) (g : α → List β) : Collects fun c => (f c).flatMap g where
  comparison op cs := by rw [h.comparison, List.flatMap_assoc]
  group op cs := by rw [h.group, List.flatMap_assoc]

theorem map (h : Collects f) (g : α → β) : Collects fun c => (f c).map g where
  comparison op cs := by rw [h.comparison, List.map_flatMap]
  group op cs := by rw [h.group, List.map_flatMap]

theorem filterMap (h : Collects f) (g : α → Option β) :
    Collects fun c => (f c).filterMap g where
  comparison op cs := by rw [h.comparison, List.filterMap_flatMap]
  group op cs := by rw [h.group, List.filterMap_flatMap]

theorem and (h : Collects f) (cs : List Criteria) : f (Criteria.and cs) = cs.flatMap f := by
  match cs with
  | [] => exact h.group .and []
  | [c] => exact (List.flatMap_singleton f c).symm
  | c :: d :: cs => exact h.group .and (c :: d :: cs)

/-- Two collections agree on a condition and its rewrite, if they do on leaves. -/
theorem rewrite {g : Criteria → List α} {t : Criteria → Criteria} (hf : Collects f)
    (hg : Collects g) (ht : Rewrites t) (leaf : ∀ l, IsLeaf l → f (t l) = g l) (c : Criteria) :
    f (t c) = g c := by
  induction c using induction_members with
  | comparison op cs ih =>
    rw [ht.comparison, hf.comparison, hg.comparison, List.flatMap_map]
    exact List.flatMap_congr ih
  | group op cs ih =>
    rw [ht.group, hf.group, hg.group, List.flatMap_map]
    exact List.flatMap_congr ih
  | literal value => exact leaf _ (.literal value)
  | param name => exact leaf _ (.param name)
  | subquery select => exact leaf _ (.subquery select)
  | column ref => exact leaf _ (.column ref)

/-- What is the same for all columns is collected from a condition with other columns as well. -/
theorem mapColumns (h : Collects f) (same : ∀ ref ref', f (column ref) = f (column ref'))
    (m : ColumnRef → ColumnRef) (c : Criteria) : f (c.mapColumns m) = f c := by
  refine h.rewrite h (rewrites_mapColumns m) (fun l hl => ?_) c
  cases hl with
  | column ref => exact same _ _
  | _ => rfl

end Collects

theorem leaves_mapColumns (f : ColumnRef → ColumnRef) (c : Criteria) :
    leaves (mapColumns f c) = (leaves c).map (mapColumns f) :=
  collects_leaves.rewrite (collects_leaves.map _) (rewrites_mapColumns f)
    (fun _ hl => by cases hl <;> rfl) c

def column? : Criteria → Option ColumnRef
  | column ref => some ref
  | _ => none

def subquery? : Criteria → Option (Select Criteria)
  | subquery select => some select
  | _ => none

/-- The columns outside subqueries. -/
def columns (c : Criteria) : List ColumnRef := c.leaves.filterMap column?

/-- The subqueries of a condition, those inside other subqueries apart. -/
def subqueries (c : Criteria) : List (Select Criteria) := c.leaves.filterMap subquery?

/-- What is picked from the leaves of one kind stands in a leaf of that kind. -/
theorem mem_filterMap_leaves {α : Type} {pick : Criteria → Option α} {leaf : α → Criteria}
    (h : ∀ l x, pick l = some x ↔ l = leaf x) {c : Criteria} {x : α} :
    x ∈ c.leaves.filterMap pick ↔ leaf x ∈ c.leaves := by
  simp only [List.mem_filterMap, h, exists_eq_right]

theorem mem_subqueries {c : Criteria} {select : Select Criteria} :
    select ∈ c.subqueries ↔ subquery select ∈ c.leaves :=
  mem_filterMap_leaves fun l _ => by cases l <;> simp [subquery?]

theorem collects_columns : Collects columns := collects_leaves.filterMap column?

theorem columns_mapColumns (f : ColumnRef → ColumnRef) (c : Criteria) :
    (mapColumns f c).columns = c.columns.map f := by
  rw [columns, columns, leaves_mapColumns, List.filterMap_map, List.map_filterMap]
  apply List.filterMap_congr
  intro l _
  cases l <;> rfl

/-- A column of a qualified condition has the alias, unless it was written with another. -/
theorem qualified_of_mem_columns {a : String} {c : Criteria} {ref : ColumnRef}
    (h : ref ∈ (c.qualify a).columns) :
    ∃ q, ref.qualifier = some q ∧ (q = a ∨ ref ∈ c.columns) := by
  rw [qualify, columns_mapColumns] at h
  obtain ⟨r, hr, rfl⟩ := List.mem_map.1 h
  cases hq : r.qualifier with
  | none => exact ⟨a, by rw [ColumnRef.orAlias, hq]; rfl, .inl rfl⟩
  | some q =>
    have hkept : r.orAlias a = r := by
      obtain ⟨_, _⟩ := r
      obtain rfl : _ = some q := hq
      rfl
    rw [hkept]
    exact ⟨q, hq, .inr hr⟩

/-! ## Parameters -/

theorem paramNamesAll_eq_flatMap (cs : List Criteria) :
    paramNamesAll cs = cs.flatMap paramNames :=
  eq_flatMap_of_cons rfl (fun _ _ => rfl) cs

theorem collects_paramNames : Collects paramNames where
  comparison op cs := by rw [paramNames, paramNamesAll_eq_flatMap]
  group op cs := by rw [paramNames, paramNamesAll_eq_flatMap]

/-! ## Filling in names -/

mutual

/-- The second condition is the first with a parameter for each literal outside subqueries, its
name `bound` to the literal. -/
def Filled (bound : String → Value → Prop) : Criteria → Criteria → Prop
  | comparison op cs, d => ∃ ds, d = comparison op ds ∧ FilledAll bound cs ds
  | group op cs, d => ∃ ds, d = group op ds ∧ FilledAll bound cs ds
  | literal value, d => ∃ name, d = param name ∧ bound name value
  | param name, d => d = param name
  | subquery select, d => d = subquery select
  | column ref, d => d = column ref

def FilledAll (bound : String → Value → Prop) : List Criteria → List Criteria → Prop
  | [], ds => ds = []
  | c :: cs, ds => ∃ d ds', ds = d :: ds' ∧ Filled bound c d ∧ FilledAll bound cs ds'

end

theorem filledAll_iff {bound : String → Value → Prop} {cs ds : List Criteria} :
    FilledAll bound cs ds ↔ List.Forall₂ (Filled bound) cs ds := by
  induction cs generalizing ds with
  | nil => simp [FilledAll]
  | cons c cs ih => simp only [FilledAll, List.forall₂_cons_left_iff, ih]; tauto

variable {bound bound' : String → Value → Prop}

theorem filledAll_mono {cs ds : List Criteria}
    (h : ∀ c ∈ cs, ∀ d, Filled bound c d → Filled bound' c d) (hds : FilledAll bound cs ds) :
    FilledAll bound' cs ds :=
  filledAll_iff.2 <| ((List.forall₂_and_left _ _).2 ⟨h, filledAll_iff.1 hds⟩).imp
    fun _ d hc => hc.1 d hc.2

theorem Filled.mono (h : ∀ name value, bound name value → bound' name value) {c d : Criteria}
    (hc : Filled bound c d) : Filled bound' c d := by
  induction c using induction_members generalizing d with
  | comparison op cs ih =>
    obtain ⟨ds, rfl, hds⟩ := hc
    exact ⟨ds, rfl, filledAll_mono (fun c hc _ => ih c hc) hds⟩
  | group op cs ih =>
    obtain ⟨ds, rfl, hds⟩ := hc
    exact ⟨ds, rfl, filledAll_mono (fun c hc _ => ih c hc) hds⟩
  | literal value =>
    obtain ⟨name, rfl, hb⟩ := hc
    exact ⟨name, rfl, h _ _ hb⟩
  | param name => exact hc
  | subquery select => exact hc
  | column ref => exact hc

/-- A leaf stays, or is a literal that makes way for a parameter. -/
inductive FilledLeaf (bound : String → Value → Prop) : Criteria → Criteria → Prop
  | literal {name : String} {value : Value} :
    bound name value → FilledLeaf bound (literal value) (param name)
  | param (name : String) : FilledLeaf bound (param name) (param name)
  | subquery (select : Select Criteria) : FilledLeaf bound (subquery select) (subquery select)
  | column (ref : ColumnRef) : FilledLeaf bound (column ref) (column ref)

/-- Naming literals acts leaf by leaf. -/
theorem Filled.leaves {c d : Criteria} (h : Filled bound c d) :
    List.Forall₂ (FilledLeaf bound) c.leaves d.leaves := by
  induction c using induction_members generalizing d with
  | comparison op cs ih =>
    obtain ⟨ds, rfl, hds⟩ := h
    rw [leaves_comparison, leaves_comparison]
    exact forall₂_flatMap (filledAll_iff.1 hds) fun c hc _ => ih c hc
  | group op cs ih =>
    obtain ⟨ds, rfl, hds⟩ := h
    rw [leaves_group, leaves_group]
    exact forall₂_flatMap (filledAll_iff.1 hds) fun c hc _ => ih c hc
  | literal value =>
    obtain ⟨name, rfl, hb⟩ := h
    exact .cons (.literal hb) .nil
  | param name =>
    obtain rfl : d = _ := h
    exact .cons (.param name) .nil
  | subquery select =>
    obtain rfl : d = _ := h
    exact .cons (.subquery select) .nil
  | column ref =>
    obtain rfl : d = _ := h
    exact .cons (.column ref) .nil

/-- A leaf that stands there comes from one that stood there. -/
theorem Filled.exists_leaf {c d m : Criteria} (h : Filled bound c d) (hm : m ∈ d.leaves) :
    ∃ l ∈ c.leaves, FilledLeaf bound l m :=
  exists_mem_of_forall₂ h.leaves.flip hm

/-- Naming literals keeps the columns. -/
theorem Filled.columns_eq {c d : Criteria} (h : Filled bound c d) : d.columns = c.columns := by
  have hleaves := h.leaves
  unfold columns
  generalize d.leaves = ds at hleaves ⊢
  generalize c.leaves = cs at hleaves ⊢
  induction hleaves with
  | nil => rfl
  | cons hleaf _ ih => cases hleaf <;> simp [List.filterMap_cons, column?, ih]

/-- Filling in a conjunction fills in its members. -/
theorem exists_of_filled_and {cs : List Criteria} {c : Criteria} (h : Filled bound (and cs) c) :
    ∃ ds, c = and ds ∧ List.Forall₂ (Filled bound) cs ds := by
  match cs, h with
  | [], h =>
    obtain ⟨ds, rfl, hds⟩ := h
    obtain rfl := hds
    exact ⟨[], rfl, .nil⟩
  | [x], h => exact ⟨[c], rfl, .cons h .nil⟩
  | x :: y :: cs, h =>
    obtain ⟨ds, rfl, hds⟩ := h
    cases filledAll_iff.1 hds with
    | cons hx hrest =>
      cases hrest with
      | cons hy hrest => exact ⟨_, rfl, .cons hx (.cons hy hrest)⟩

end JoinPath.Criteria
