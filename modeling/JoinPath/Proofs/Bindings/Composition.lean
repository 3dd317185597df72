import JoinPath.Proofs.Bindings.Capture
import JoinPath.Proofs.Criteria.Restored
import JoinPath.Proofs.Path.Attached
/-!
# Compositions

A session composes conditions in three places: for its filter, for the hop of a joined step, and
for the caller. A composition is a condition with its literals together with the same condition as
the session keeps it. Whatever a run composes names its literals (`IsComposition.isMade`), and
the names of all compositions are those that the parameters of the session went through
(`names_compositions`).
-/

namespace JoinPath

open Bindings (namedFrom)
open Criteria (namesAt)

namespace Criteria

/-- The conjunction of some conditions under an alias, if there are any. -/
def conjunction (tableAlias : String) : List Criteria → Option Criteria
  | [] => none
  | c :: cs => some ((and (c :: cs)).qualify tableAlias)

/-- What is collected from a conjunction is what the conditions give, whatever the alias. -/
theorem Collects.elim_conjunction {α : Type} {f : Criteria → List α} (h : Collects f)
    (same : ∀ ref ref', f (column ref) = f (column ref')) (tableAlias : String)
    (cs : List Criteria) : (conjunction tableAlias cs).elim [] f = cs.flatMap f := by
  cases cs with
  | nil => rfl
  | cons c cs =>
    rw [conjunction, Option.elim_some, qualify, h.mapColumns same, h.and]

theorem Collects.conjunction {α : Type} {f : Criteria → List α} (h : Collects f)
    (same : ∀ ref ref', f (column ref) = f (column ref')) {tableAlias : String}
    {cs : List Criteria} {o : Criteria} (ho : conjunction tableAlias cs = some o) :
    f o = cs.flatMap f := by
  rw [← h.elim_conjunction same tableAlias, ho, Option.elim_some]

end Criteria

/-- Where a composed condition goes. -/
inductive Place
  | filter
  /-- To the hop at which the placement ends. -/
  | hop (id : PlacementId)
  /-- Back to the caller. -/
  | caller
deriving DecidableEq

/-- A condition that a session composed. -/
structure Composition where
  place : Place
  /-- The condition under its alias, with the literals as they were given. -/
  original : Option Criteria
  /-- The condition as the session keeps it. -/
  composed : Option Criteria

namespace Composition

/-- The literals of the condition with the names of the parameters at their places. -/
def names (c : Composition) : List (String × Value) :=
  match c.original, c.composed with
  | some o, some d => namesAt o d
  | _, _ => []

/-- The literals of the condition outside subqueries. -/
def literals (c : Composition) : List Value := c.original.elim [] Criteria.literals

/-- The condition for a hop, with the placement that ends there. -/
def forHop (c : Composition) : Option (PlacementId × Option Criteria) :=
  match c.place with
  | .hop id => some (id, c.composed)
  | _ => none

/-- The condition was made by naming literals. -/
def NamedFrom (a : String) (b : Bindings) (c : Composition) : Prop :=
  c.composed = c.original.map fun o => (o.bindLiterals a b).1

/-- The condition was made so under some alias. -/
def IsMade (c : Composition) : Prop := ∃ a b, c.NamedFrom a b

theorem NamedFrom.names_eq {a : String} {b : Bindings} {c : Composition} (h : c.NamedFrom a b) :
    c.names = namedFrom b.literals (c.original.elim [] (Criteria.changes a)) := by
  unfold NamedFrom at h
  unfold names
  rw [h]
  cases c.original with
  | none => rfl
  | some o => exact Criteria.namesAt_bindLiterals a o b

end Composition

/-- A discriminator compares a column with its value. -/
theorem Association.exists_discriminator {a : Association} {originAlias : String} {c : Criteria}
    (h : c ∈ a.discriminatorCriteria originAlias) :
    ∃ d ∈ a.discriminators, ∃ ref, c = .eq (.column ref) (.literal d.value) := by
  unfold discriminatorCriteria at h
  dsimp only at h
  split at h
  · obtain ⟨d, hd, rfl⟩ := List.mem_map.1 h
    exact ⟨d, hd, _, rfl⟩
  · obtain ⟨e, he, rfl⟩ := List.mem_map.1 h
    obtain ⟨d, hd, rfl⟩ := List.mem_map.1 he
    exact ⟨d, hd, _, rfl⟩

namespace Session

/-! ## What a call composes -/

def attachCompositions (s : Session) (step : Step) (a : Addition) : List Composition :=
  match step.placement with
  | none => []
  | some id =>
    [{ place := .hop id
       original := Criteria.conjunction ((s.criteriaToAttach step a).2.terminalAlias id).1
         (s.criteriaToAttach step a).1
       composed := (s.attach step a).1.criteria }]

def attachAllCompositions (s : Session) (additions : List (Step × Addition)) : List Composition :=
  along attached (fun s x => s.attachCompositions x.1 x.2) s additions

/-- What joining along a path composes. -/
def joinCompositions (s : Session) (path : List Step) : List Composition :=
  if path.isEmpty then [] else (s.resolved path).attachAllCompositions (s.withAdditions path)

/-- What setting the filter composes. -/
def filterComposition (s : Session) (restrictions : List Criteria) : Composition where
  place := .filter
  original := Criteria.conjunction s.tableAlias (restrictions ++ (s.schema.table s.table).criteria)
  composed := (s.setFilter restrictions).filter

/-- What a call composes. -/
def compositionsOf (s : Session) : Call → List Composition
  | .joinPending _ => { s with pending := [] }.joinCompositions s.pending
  | .joinTo path _ => s.joinCompositions path
  | .setFilter restrictions => [s.filterComposition restrictions]
  | .bindLiterals criteria => [⟨.caller, some criteria, some (s.bindLiterals criteria).1⟩]
  | .select _ => if s.filterSet then [] else [s.filterComposition []]
  | .build _ _ => if s.filterSet then [] else [s.filterComposition []]
  | _ => []

/-- What the calls of a run compose, in the order in which it happens. -/
def compositions (s : Session) (calls : List Call) : List Composition :=
  along perform compositionsOf s calls

variable {s : Session}

/-! ## Compositions of hops -/

theorem criteria_attachColumns (s : Session) (step : Step) (columns : Option (List ColumnRef)) :
    (s.attachColumns step columns).1.criteria = step.criteria := by
  cases columns with
  | none => rfl
  | some columns =>
    simp only [attachColumns, applyColumns]
    split <;> rfl

/-- The condition of a step is the conjunction of what is attached to it. -/
theorem criteria_attachCriteria {step : Step} {id : PlacementId} (hid : step.placement = some id)
    {cs : List Criteria} (own : step.criteria.toList ⊆ cs) :
    (s.attachCriteria step cs).1.criteria =
      (Criteria.conjunction (s.terminalAlias id).1 cs).map fun o =>
        (o.bindLiterals s.tableAlias s.bindings).1 := by
  cases cs with
  | nil =>
    cases h : step.criteria with
    | none => exact h
    | some c => simp [h] at own
  | cons c cs =>
    obtain ⟨pool, hpool⟩ := s.terminalAlias_frame id
    simp only [attachCriteria, List.isEmpty_cons, Bool.false_eq_true, if_false, applyOn, hid,
      bindLiterals, hpool]
    rfl

/-- What is attached to a step contains what its caller adds. -/
theorem own_subset_criteriaToAttach {step : Step} {id : PlacementId}
    (hid : step.placement = some id) {a : Addition} (own : step.criteria.toList ⊆ a.criteria) :
    step.criteria.toList ⊆ (s.criteriaToAttach step a).1 := by
  simp only [criteriaToAttach, hid]
  split
  · exact List.Subset.refl _
  · exact own

theorem criteriaToAttach_subset {step : Step} {a : Addition}
    (own : step.criteria.toList ⊆ a.criteria) : (s.criteriaToAttach step a).1 ⊆ a.criteria := by
  unfold criteriaToAttach
  split
  · exact List.Subset.refl _
  · dsimp only
    split
    · exact own
    · exact List.Subset.refl _

theorem criteria_attach {step : Step} {id : PlacementId} (hid : step.placement = some id)
    {a : Addition} (own : step.criteria.toList ⊆ a.criteria) :
    (s.attach step a).1.criteria =
      (Criteria.conjunction ((s.criteriaToAttach step a).2.terminalAlias id).1
        (s.criteriaToAttach step a).1).map fun o => (o.bindLiterals s.tableAlias s.bindings).1 := by
  have hattached := criteria_attachCriteria (s := (s.criteriaToAttach step a).2) hid
    (own_subset_criteriaToAttach (s := s) hid own)
  obtain ⟨composed, hc⟩ := s.criteriaToAttach_frame step a
  have hbase : (s.criteriaToAttach step a).2.tableAlias = s.tableAlias ∧
      (s.criteriaToAttach step a).2.bindings = s.bindings := by rw [hc]; exact ⟨rfl, rfl⟩
  rw [hbase.1, hbase.2] at hattached
  unfold attach
  split
  · next hempty =>
    simp only [Addition.isEmpty, Bool.and_eq_true, List.isEmpty_iff] at hempty
    have hbrought : (s.criteriaToAttach step a).1 = [] :=
      List.subset_nil.1 (hempty.1 ▸ criteriaToAttach_subset own)
    rw [hbrought] at hattached ⊢
    exact hattached
  · exact (criteria_attachColumns _ _ _).trans hattached

/-! ## Literals of all compositions -/

/-- The steps of a path with what they add are attached to their callers' conditions. -/
theorem own_of_mem_withAdditions {path : List Step} :
    ∀ x ∈ s.withAdditions path, x.1.criteria.toList ⊆ x.2.criteria := by
  intro x hx
  obtain ⟨step, -, ⟨id, hid⟩, o, ha⟩ := exists_mem_of_forall₂ (s.withAdditions_steps path).flip hx
  intro c hc
  rw [ha]
  exact List.mem_append_left _ (List.mem_append_left _ hc)

/-- The steps of a resolved path are placed. -/
theorem placed_of_mem_withAdditions {path : List Step} :
    ∀ x ∈ s.withAdditions path, ∃ id, x.1.placement = some id := by
  intro x hx
  obtain ⟨step, -, ⟨id, hid⟩, -⟩ := exists_mem_of_forall₂ (s.withAdditions_steps path).flip hx
  exact ⟨id, by rw [hid]⟩

/-- Each step of a path adds what it has of its own and what its association brings. -/
theorem addition_of_mem_withAdditions {path : List Step} :
    ∀ x ∈ s.withAdditions path, x.1.criteria.toList ⊆ path.filterMap Step.criteria ∧
      ∃ o, x.2 = addition s.schema o x.1 := by
  intro x hx
  obtain ⟨step, hstep, ⟨id, hid⟩, o, ha⟩ :=
    exists_mem_of_forall₂ (s.withAdditions_steps path).flip hx
  refine ⟨fun d hd => ?_, o, ha⟩
  rw [hid] at hd
  exact List.mem_filterMap.2 ⟨step, hstep, Option.mem_toList.1 hd⟩

theorem namedFrom_attachCompositions {step : Step} {a : Addition}
    (own : step.criteria.toList ⊆ a.criteria) :
    ∀ c ∈ s.attachCompositions step a, c.NamedFrom s.tableAlias s.bindings := by
  intro c hc
  unfold attachCompositions at hc
  cases hid : step.placement with
  | none => simp [hid] at hc
  | some id =>
    simp only [hid, List.mem_singleton] at hc
    subst hc
    exact criteria_attach hid own

theorem names_attachCompositions {step : Step} {a : Addition}
    (own : step.criteria.toList ⊆ a.criteria) :
    (s.attachCompositions step a).flatMap Composition.names =
      namedFrom s.bindings.literals (s.attachChanges step a) := by
  have hnamed := namedFrom_attachCompositions (s := s) own
  unfold attachCompositions at hnamed ⊢
  unfold attachChanges
  cases hid : step.placement with
  | none => rfl
  | some id =>
    simp only [hid, List.mem_singleton, forall_eq] at hnamed
    dsimp only
    rw [List.flatMap_singleton, hnamed.names_eq,
      (Criteria.collects_changes _).elim_conjunction fun _ _ => rfl]
    split
    · next hempty =>
      simp only [Addition.isEmpty, Bool.and_eq_true, List.isEmpty_iff] at hempty
      have hbrought : (s.criteriaToAttach step a).1 = [] :=
        List.subset_nil.1 (hempty.1 ▸ criteriaToAttach_subset own)
      rw [hbrought]
      rfl
    · rfl

theorem names_attachAllCompositions {additions : List (Step × Addition)}
    (own : ∀ x ∈ additions, x.1.criteria.toList ⊆ x.2.criteria) :
    (s.attachAllCompositions additions).flatMap Composition.names =
      namedFrom s.bindings.literals (s.attachAllChanges additions) := by
  induction additions generalizing s with
  | nil => rfl
  | cons x additions ih =>
    have hrest := ih (s := s.attached x) fun x hx => own x (List.mem_cons_of_mem _ hx)
    rw [attached, bindings_attach, Bindings.literals_changed] at hrest
    rw [attachAllCompositions, attachAllChanges, along, along, List.flatMap_append,
      Bindings.namedFrom_append, names_attachCompositions (own _ List.mem_cons_self)]
    exact congrArg _ hrest

theorem names_joinCompositions (s : Session) (path : List Step) :
    (s.joinCompositions path).flatMap Composition.names =
      namedFrom s.bindings.literals (s.joinChanges path) := by
  unfold joinCompositions joinChanges
  obtain ⟨_, _, _, _, _, _, hr⟩ := s.resolved_frame path
  have hb : (s.resolved path).bindings = s.bindings := by rw [hr]
  split
  · rfl
  · rw [names_attachAllCompositions own_of_mem_withAdditions, hb]

theorem namedFrom_filterComposition (s : Session) (restrictions : List Criteria) :
    (s.filterComposition restrictions).NamedFrom s.tableAlias s.bindings := by
  unfold Composition.NamedFrom filterComposition setFilter
  dsimp only
  cases h : restrictions ++ (s.schema.table s.table).criteria with
  | nil => rfl
  | cons c cs =>
    dsimp only [Criteria.conjunction, bindLiterals, Option.map_some]
    rw [Criteria.qualify, Criteria.bindLiterals_mapColumns]

theorem names_filterComposition (s : Session) (restrictions : List Criteria) :
    (s.filterComposition restrictions).names =
      namedFrom s.bindings.literals (s.filterChanges restrictions) := by
  rw [(s.namedFrom_filterComposition restrictions).names_eq]
  exact congrArg _ ((Criteria.collects_changes _).elim_conjunction (fun _ _ => rfl) _ _)

theorem names_compositionsOf (s : Session) (call : Call) :
    (s.compositionsOf call).flatMap Composition.names =
      namedFrom s.bindings.literals (s.changesOf call) := by
  cases call with
  | joinPending fetch => exact names_joinCompositions _ _
  | joinTo path fetch => exact s.names_joinCompositions path
  | setFilter restrictions =>
    exact (List.flatMap_singleton _ _).trans (s.names_filterComposition restrictions)
  | bindLiterals c =>
    exact (List.flatMap_singleton _ _).trans (Criteria.namesAt_bindLiterals _ _ _)
  | select columns =>
    simp only [compositionsOf, changesOf]
    split
    · rfl
    · exact (List.flatMap_singleton _ _).trans (s.names_filterComposition [])
  | build columns d =>
    simp only [compositionsOf, changesOf]
    split
    · rfl
    · exact (List.flatMap_singleton _ _).trans (s.names_filterComposition [])
  | _ => rfl

/-- The literals of all compositions are those that received names along the run. -/
theorem names_compositions (s : Session) (calls : List Call) :
    (s.compositions calls).flatMap Composition.names =
      namedFrom s.bindings.literals (s.history calls) := by
  induction calls generalizing s with
  | nil => rfl
  | cons call calls ih =>
    have hrest := ih (s.perform call)
    rw [bindings_perform, Bindings.literals_changed] at hrest
    rw [compositions, history, along, along, List.flatMap_append, Bindings.namedFrom_append,
      names_compositionsOf]
    exact congrArg _ hrest

/-! ## How compositions come about -/

/-- A composition of a session over this schema, from conditions that were `passed` to it. -/
inductive IsComposition (schema : Schema) (passed : List Criteria) : Composition → Prop
  | filter {s : Session} {restrictions : List Criteria} :
    s.schema = schema → restrictions ⊆ passed →
      IsComposition schema passed (s.filterComposition restrictions)
  | hop {s : Session} {step : Step} {origin : String} {c : Composition} :
    s.schema = schema → step.criteria.toList ⊆ passed →
      c ∈ s.attachCompositions step (addition schema origin step) → IsComposition schema passed c
  | caller {s : Session} {c : Criteria} :
    IsComposition schema passed ⟨.caller, some c, some (s.bindLiterals c).1⟩

variable {schema : Schema} {passed : List Criteria} {c : Composition}

theorem IsComposition.mono {passed' : List Criteria} (h : passed ⊆ passed')
    (hc : IsComposition schema passed c) : IsComposition schema passed' c := by
  cases hc with
  | filter hs hr => exact .filter hs (List.Subset.trans hr h)
  | hop hs hstep hc => exact .hop hs (List.Subset.trans hstep h) hc
  | caller => exact .caller

theorem own_subset_addition (schema : Schema) (origin : String) (step : Step) :
    step.criteria.toList ⊆ (addition schema origin step).criteria :=
  own_subset_brought schema origin step true

/-- Every composition names the literals of its condition. -/
theorem IsComposition.isMade (hc : IsComposition schema passed c) : c.IsMade := by
  cases hc with
  | filter hs hr => exact ⟨_, _, namedFrom_filterComposition _ _⟩
  | hop hs hstep hc =>
    exact ⟨_, _, namedFrom_attachCompositions (own_subset_addition schema _ _) c hc⟩
  | caller => exact ⟨_, _, rfl⟩

theorem isComposition_of_mem_attachAll {additions : List (Step × Addition)}
    (hs : s.schema = schema)
    (h : ∀ x ∈ additions, x.1.criteria.toList ⊆ passed ∧ ∃ o, x.2 = addition schema o x.1)
    (hc : c ∈ s.attachAllCompositions additions) : IsComposition schema passed c := by
  obtain ⟨before, ⟨step, a⟩, after, rfl, hmade⟩ := mem_along.1 hc
  obtain ⟨hstep, o, ha⟩ := h _ (List.mem_append_right _ List.mem_cons_self)
  obtain rfl : a = addition schema o step := ha
  obtain ⟨_, _, _, _, hframe⟩ := s.foldl_attached_frame before
  have hschema : (before.foldl attached s).schema = s.schema := by rw [hframe]
  exact .hop (hschema.trans hs) hstep hmade

theorem isComposition_of_mem_join {path : List Step} (hc : c ∈ s.joinCompositions path) :
    IsComposition s.schema (path.filterMap Step.criteria) c := by
  unfold joinCompositions at hc
  split at hc
  · exact absurd hc List.not_mem_nil
  · obtain ⟨_, _, _, _, _, _, hr⟩ := s.resolved_frame path
    have hs : (s.resolved path).schema = s.schema := by rw [hr]
    exact isComposition_of_mem_attachAll hs addition_of_mem_withAdditions hc

theorem isComposition_of_mem_of {call : Call} (hc : c ∈ s.compositionsOf call) :
    IsComposition s.schema (s.passed call) c := by
  have hbase (h : c ∈ if s.filterSet then [] else [s.filterComposition []]) :
      IsComposition s.schema [] c := by
    split at h
    · exact absurd h List.not_mem_nil
    · obtain rfl := List.mem_singleton.1 h
      exact .filter rfl (List.nil_subset _)
  cases call with
  | joinPending fetch => exact isComposition_of_mem_join (s := { s with pending := [] }) hc
  | joinTo path fetch => exact isComposition_of_mem_join hc
  | setFilter restrictions =>
    obtain rfl := List.mem_singleton.1 hc
    exact .filter rfl (List.Subset.refl _)
  | bindLiterals d =>
    obtain rfl := List.mem_singleton.1 hc
    exact .caller
  | select columns => exact hbase hc
  | build columns d => exact hbase hc
  | _ => exact absurd hc List.not_mem_nil

theorem isComposition_of_mem {calls : List Call} (hc : c ∈ s.compositions calls) :
    IsComposition s.schema (s.passedIn calls) c := by
  obtain ⟨before, call, after, rfl, hmade⟩ := mem_along.1 hc
  have hschema : (s.run before).schema = s.schema := (s.sameTable_run before).1
  exact hschema ▸ (isComposition_of_mem_of hmade).mono (subset_along _ _ s before call after)

/-- A composition is the conjunction of conditions that were passed, that a table has, or that
discriminate an association. -/
theorem IsComposition.exists_parts (hc : IsComposition schema passed c) (hplace : c.place ≠ .caller)
    {o : Criteria} (ho : c.original = some o) :
    ∃ tableAlias cs, Criteria.conjunction tableAlias cs = some o ∧ ∀ d ∈ cs, d ∈ passed ∨
      (∃ t, d ∈ (schema.table t).criteria) ∨
        ∃ a : Association, ∃ origin, d ∈ a.discriminatorCriteria origin := by
  cases hc with
  | @filter s restrictions hs hr =>
    refine ⟨_, _, ho, fun d hd => ?_⟩
    rcases List.mem_append.1 hd with hd | hd
    · exact .inl (hr hd)
    · exact .inr (.inl ⟨s.table, hs ▸ hd⟩)
  | @hop s step origin _ hs hstep hc =>
    unfold attachCompositions at hc
    cases hid : step.placement with
    | none => simp [hid] at hc
    | some id =>
      simp only [hid, List.mem_singleton] at hc
      subst hc
      refine ⟨_, _, ho, fun d hd => ?_⟩
      have hadded := criteriaToAttach_subset (own_subset_addition schema origin step) hd
      rcases List.mem_append.1 hadded with hadded | hdiscriminator
      · exact (List.mem_append.1 hadded).imp (fun h => hstep h) fun h => .inl ⟨_, h⟩
      · exact .inr (.inr ⟨_, _, hdiscriminator⟩)
  | caller => exact absurd rfl hplace

/-- A parameter of a composition was written by the caller, or belongs to a table. -/
theorem IsComposition.mem_params (hc : IsComposition schema passed c) (hplace : c.place ≠ .caller)
    {o : Criteria} (ho : c.original = some o) {name : String} (hname : name ∈ o.params) :
    ∃ d, name ∈ d.params ∧ (d ∈ passed ∨ ∃ t, d ∈ (schema.table t).criteria) := by
  obtain ⟨tableAlias, cs, hconjunction, hparts⟩ := hc.exists_parts hplace ho
  rw [Criteria.collects_params.conjunction (fun _ _ => rfl) hconjunction] at hname
  obtain ⟨d, hd, hname⟩ := List.mem_flatMap.1 hname
  rcases hparts d hd with hpassed | htable | ⟨a, origin, hdiscriminator⟩
  · exact ⟨d, hname, .inl hpassed⟩
  · exact ⟨d, hname, .inr htable⟩
  · obtain ⟨_, -, _, rfl⟩ := Association.exists_discriminator hdiscriminator
    exact absurd hname List.not_mem_nil

end Session

end JoinPath
