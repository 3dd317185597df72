import JoinPath.Proofs.Bindings.Agreed
import JoinPath.Proofs.Criteria.Renamed
import JoinPath.Proofs.Session.Alike
import JoinPath.Session.Build
/-!
# Sessions under other names

Two sessions that resolve alike and record the same joins, but number their literals differently.
As long as the names of the one become those of the other, the same calls keep them so
(`IsRenamed.run`), and the hops of the one are those of the other under the new names
(`IsRenamed.placedHops`).
-/

namespace JoinPath

open Bindings (Change Shifts numbersUsed)
open Criteria (Fixed renamedHop renamedSelect)

abbrev Step.renamed (ρ : String → String) (step : Step) : Step :=
  step.mapCriteria (Criteria.renamed ρ)

def Join.renamed (ρ : String → String) (join : Join) : Join :=
  { join with path := join.path.map (Step.renamed ρ) }

theorem IsSource.mono {schema : Schema} {passed passed' : List Criteria} {c : Criteria}
    (h : IsSource schema passed c) (hsub : passed ⊆ passed') : IsSource schema passed' c := by
  cases h with
  | passed hc => exact .passed (hsub hc)
  | table id hc => exact .table id hc
  | association id origin hc => exact .association id origin hc

namespace Session

variable {ρ : String → String} {s t : Session}

/-- Over these changes the literals of the second session receive the new names of those of the
first. -/
def Follows (ρ : String → String) (s t : Session) (changes : List Change) : Prop :=
  Shifts ρ s.tableAlias s.bindings.literals t.bindings.literals (numbersUsed changes)

theorem Follows.left {cs ds : List Change} (h : Follows ρ s t (cs ++ ds)) : Follows ρ s t cs := by
  unfold Follows at h
  rw [Bindings.numbersUsed_append] at h
  exact h.left

/-- After the first changes the literals follow over the others. -/
theorem Follows.right {cs ds : List Change} (h : Follows ρ s t (cs ++ ds)) {s' t' : Session}
    (halias : s'.tableAlias = s.tableAlias) (hs : s'.bindings = s.bindings.changed cs)
    (ht : t'.bindings = t.bindings.changed cs) : Follows ρ s' t' ds := by
  unfold Follows at h ⊢
  rw [Bindings.numbersUsed_append] at h
  rw [halias, hs, ht, Bindings.literals_changed, Bindings.literals_changed]
  exact h.right

/-! ## Attaching -/

namespace Alike

theorem bindLiterals (h : s.Alike id t) {c : Criteria} (fixed : Fixed ρ c)
    (follows : Follows ρ s t (c.changes s.tableAlias)) :
    (t.bindLiterals c).1 = (s.bindLiterals c).1.renamed ρ ∧
      (s.bindLiterals c).2.Alike id (t.bindLiterals c).2 := by
  refine ⟨?_, { h with }⟩
  unfold Session.bindLiterals
  rw [h.tableAlias]
  exact Criteria.bindLiterals_renamed fixed follows

theorem applyOn (h : s.Alike id t) {step : Step} {p : PlacementId} (hp : step.placement = some p)
    {c : Criteria} (fixed : Fixed ρ c) (follows : Follows ρ s t (c.changes s.tableAlias)) :
    (t.applyOn step c).1 = (s.applyOn step c).1.renamed ρ ∧
      (s.applyOn step c).2.Alike id (t.applyOn step c).2 := by
  obtain ⟨halias, h₁⟩ := h.terminalAlias p
  obtain ⟨pool, hs⟩ := s.terminalAlias_frame p
  obtain ⟨pool', ht⟩ := t.terminalAlias_frame p
  have fixed' : Fixed ρ (c.qualify (s.terminalAlias p).1) := by
    rw [Fixed, Criteria.qualify, Criteria.collects_paramNames.mapColumns fun _ _ => rfl]
    exact fixed
  have follows' : Follows ρ (s.terminalAlias p).2 (t.terminalAlias p).2
      ((c.qualify (s.terminalAlias p).1).changes (s.terminalAlias p).2.tableAlias) := by
    rw [Criteria.qualify, (Criteria.collects_changes _).mapColumns fun _ _ => rfl, hs, ht]
    exact follows
  obtain ⟨hc, h₂⟩ := h₁.bindLiterals fixed' follows'
  unfold Session.applyOn
  rw [hp]
  dsimp only
  rw [halias, hc]
  exact ⟨rfl, { h₂ with }⟩

theorem attachCriteria (h : s.Alike id t) {step : Step} {p : PlacementId}
    (hp : step.placement = some p) {cs : List Criteria} (own : step.criteria.toList ⊆ cs)
    (fixed : ∀ c ∈ cs, Fixed ρ c)
    (follows : Follows ρ s t (cs.flatMap (Criteria.changes s.tableAlias))) :
    (t.attachCriteria step cs).1 = (s.attachCriteria step cs).1.renamed ρ ∧
      (s.attachCriteria step cs).2.Alike id (t.attachCriteria step cs).2 := by
  unfold Session.attachCriteria
  split
  · next hempty =>
    rw [List.isEmpty_iff.1 hempty] at own
    have hnone := Option.toList_eq_nil_iff.1 (List.subset_nil.1 own)
    exact ⟨(Step.mapCriteria_of_none hnone).symm, h⟩
  · refine h.applyOn hp (fun name hname => ?_) ?_
    · rw [Criteria.collects_paramNames.and] at hname
      obtain ⟨c, hc, hname⟩ := List.mem_flatMap.1 hname
      exact fixed c hc name hname
    · rw [(Criteria.collects_changes _).and]
      exact follows

theorem attachColumns (h : s.Alike id t) (step : Step) (columns : Option (List ColumnRef)) :
    (t.attachColumns (step.renamed ρ) columns).1 = (s.attachColumns step columns).1.renamed ρ ∧
      (s.attachColumns step columns).2.Alike id (t.attachColumns (step.renamed ρ) columns).2 := by
  cases columns with
  | none => exact ⟨rfl, h⟩
  | some columns =>
    simp only [Session.attachColumns, applyColumns]
    have hplacement : (step.renamed ρ).placement = step.placement := rfl
    rw [hplacement]
    cases step.placement with
    | none => exact ⟨rfl, h⟩
    | some p =>
      obtain ⟨halias, h₁⟩ := h.terminalAlias p
      dsimp only
      rw [halias]
      exact ⟨rfl, h₁⟩

/-- What a placed step does to the parameters. -/
theorem attachChanges_of_placed {step : Step} {p : PlacementId} (hp : step.placement = some p)
    {a : Addition} (own : step.criteria.toList ⊆ a.criteria) :
    s.attachChanges step a =
      (s.criteriaToAttach step a).1.flatMap (Criteria.changes s.tableAlias) := by
  simp only [Session.attachChanges, hp]
  split
  · next hempty =>
    simp only [Addition.isEmpty, Bool.and_eq_true, List.isEmpty_iff] at hempty
    have hnone : (s.criteriaToAttach step a).1 = [] :=
      List.subset_nil.1 (hempty.1 ▸ criteriaToAttach_subset own)
    rw [hnone]
    rfl
  · rfl

theorem attach (h : s.Alike id t) {step : Step} {p : PlacementId} (hp : step.placement = some p)
    {a : Addition} (own : step.criteria.toList ⊆ a.criteria) (fixed : ∀ c ∈ a.criteria, Fixed ρ c)
    (follows : Follows ρ s t (s.attachChanges step a)) :
    (t.attach step a).1 = (s.attach step a).1.renamed ρ ∧
      (s.attach step a).2.Alike id (t.attach step a).2 ∧
      t.attachChanges step a = s.attachChanges step a := by
  obtain ⟨hcriteria, h₁⟩ := h.criteriaToAttach_same step a
  have hchanges : t.attachChanges step a = s.attachChanges step a := by
    rw [attachChanges_of_placed hp own, attachChanges_of_placed hp own, hcriteria, h.tableAlias]
  rw [attachChanges_of_placed hp own] at follows
  unfold Session.attach
  split
  · next hempty =>
    simp only [Addition.isEmpty, Bool.and_eq_true, List.isEmpty_iff] at hempty
    rw [hempty.1] at own
    have hnone := Option.toList_eq_nil_iff.1 (List.subset_nil.1 own)
    exact ⟨(Step.mapCriteria_of_none hnone).symm, h, hchanges⟩
  · obtain ⟨_, hs⟩ := s.criteriaToAttach_frame step a
    obtain ⟨_, ht⟩ := t.criteriaToAttach_frame step a
    have follows' : Follows ρ (s.criteriaToAttach step a).2 (t.criteriaToAttach step a).2
        ((s.criteriaToAttach step a).1.flatMap
          (Criteria.changes (s.criteriaToAttach step a).2.tableAlias)) := by
      rw [hs, ht]
      exact follows
    obtain ⟨hstep, h₂⟩ := h₁.attachCriteria hp (own_subset_criteriaToAttach hp own)
      (fun c hc => fixed c (criteriaToAttach_subset own hc)) follows'
    dsimp only
    rw [hcriteria, hstep]
    obtain ⟨hcolumns, h₃⟩ := h₂.attachColumns
      ((s.criteriaToAttach step a).2.attachCriteria step (s.criteriaToAttach step a).1).1 a.columns
    exact ⟨hcolumns, h₃, hchanges⟩

theorem attachAll (h : s.Alike id t) {additions : List (Step × Addition)}
    (placed : ∀ x ∈ additions, ∃ id, x.1.placement = some id)
    (own : ∀ x ∈ additions, x.1.criteria.toList ⊆ x.2.criteria)
    (fixed : ∀ x ∈ additions, ∀ c ∈ x.2.criteria, Fixed ρ c)
    (follows : Follows ρ s t (s.attachAllChanges additions)) :
    (t.attachAll additions).1 = (s.attachAll additions).1.map (Step.renamed ρ) ∧
      (s.attachAll additions).2.Alike id (t.attachAll additions).2 ∧
      t.attachAllChanges additions = s.attachAllChanges additions := by
  induction additions generalizing s t with
  | nil => exact ⟨rfl, h, rfl⟩
  | cons x additions ih =>
    obtain ⟨step, a⟩ := x
    obtain ⟨id, hid⟩ := placed _ List.mem_cons_self
    obtain ⟨hstep, h₁, hchanges⟩ := h.attach hid (own _ List.mem_cons_self)
      (fixed _ List.mem_cons_self) follows.left
    obtain ⟨_, _, _, _, hframe⟩ := s.attach_frame step a
    have halias : (s.attach step a).2.tableAlias = s.tableAlias := by rw [hframe]
    have later := follows.right halias (s.bindings_attach step a)
      (hchanges ▸ t.bindings_attach step a)
    obtain ⟨hrest, h₂, hmore⟩ := ih h₁ (fun x hx => placed x (List.mem_cons_of_mem _ hx))
      (fun x hx => own x (List.mem_cons_of_mem _ hx))
      (fun x hx => fixed x (List.mem_cons_of_mem _ hx)) later
    refine ⟨congrArg₂ List.cons hstep hrest, h₂, ?_⟩
    exact congrArg₂ (· ++ ·) hchanges hmore

end Alike

/-! ## Calls -/

/-- The second session is the first with its literals under new names. -/
structure IsRenamed (ρ : String → String) (s t : Session) : Prop extends s.SameBase t where
  alike : s.Alike id t
  joins : t.joins = s.joins.map (Join.renamed ρ)

namespace IsRenamed

theorem joinTo (h : s.IsRenamed ρ t) {path : List Step} (fetch : Bool)
    (fixed : ∀ c, IsSource s.schema (path.filterMap Step.criteria) c → Fixed ρ c)
    (follows : Follows ρ s t (s.joinChanges path)) :
    (s.joinTo path fetch).IsRenamed ρ (t.joinTo path fetch) ∧
      t.joinChanges path = s.joinChanges path := by
  by_cases hne : path = []
  · subst hne
    exact ⟨h, rfl⟩
  have hjoined : ∀ u : Session, u.joinChanges path =
      (u.resolved path).attachAllChanges (u.withAdditions path) := fun u => by
    rw [joinChanges, if_neg (by simpa using hne)]
  obtain ⟨hadditions, h₁⟩ := h.alike.withAdditions_same path
  have fixed' : ∀ x ∈ s.withAdditions path, ∀ c ∈ x.2.criteria, Fixed ρ c := by
    intro x hx c hc
    obtain ⟨hstep, o, ha⟩ := addition_of_mem_withAdditions x hx
    rw [ha] at hc
    exact fixed c (isSource_of_mem_addition hstep hc)
  have follows' : Follows ρ (s.resolved path) (t.resolved path)
      ((s.resolved path).attachAllChanges (s.withAdditions path)) := by
    obtain ⟨_, _, _, _, _, _, hs⟩ := s.resolved_frame path
    obtain ⟨_, _, _, _, _, _, ht⟩ := t.resolved_frame path
    rw [← hjoined, hs, ht]
    exact follows
  obtain ⟨hpath, h₂, hchanges⟩ := h₁.attachAll placed_of_mem_withAdditions own_of_mem_withAdditions
    fixed' follows'
  refine ⟨?_, by rw [hjoined, hjoined, hadditions, hchanges]⟩
  have hjoins : ∀ u : Session, (u.compose path).2.joins = u.joins := fun u => by
    obtain ⟨_, _, _, _, hu⟩ := u.compose_frame path
    rw [hu]
    exact u.joins_resolve path
  rw [← hadditions, ← compose_eq, hadditions, ← compose_eq] at hpath h₂
  have hbase := (s.sameBase_joinTo path fetch).symm.trans
    (h.toSameBase.trans (t.sameBase_joinTo path fetch))
  rw [joinTo_of_ne_nil s hne, joinTo_of_ne_nil t hne] at hbase ⊢
  refine { hbase with alike := { h₂ with }, joins := ?_ }
  simp only [addResolved, hjoins, h.joins, hpath, List.map_append]
  rfl

theorem setParameter (h : s.IsRenamed ρ t) (name : String) (value : Value) :
    (s.setParameter name value).IsRenamed ρ (t.setParameter name value) :=
  { h with alike := { h.alike with } }

/-- Setting the filter of the first session alone keeps the relation. -/
theorem setFilter_left (h : s.IsRenamed ρ t) (restrictions : List Criteria) :
    (s.setFilter restrictions).IsRenamed ρ t := by
  obtain ⟨_, _, hs⟩ := s.setFilter_frame restrictions
  rw [hs]
  exact { h with alike := { h.alike with } }

theorem setFilter_right (h : s.IsRenamed ρ t) (restrictions : List Criteria) :
    s.IsRenamed ρ (t.setFilter restrictions) := by
  obtain ⟨_, _, ht⟩ := t.setFilter_frame restrictions
  rw [ht]
  exact { h with alike := { h.alike with } }

end IsRenamed

/-- A call that joins or sets a parameter. -/
def Call.joinsOrSets : Call → Bool
  | .joinTo _ _ => true
  | .setParameter _ _ => true
  | _ => false

theorem Call.keepsScope_of_joinsOrSets {call : Call} (h : call.joinsOrSets = true) :
    call.keepsScope = true := by
  cases call <;> first | rfl | cases h

theorem IsRenamed.perform (h : s.IsRenamed ρ t) {call : Call} (plain : call.joinsOrSets = true)
    (fixed : ∀ c, IsSource s.schema (s.passed call) c → Fixed ρ c)
    (follows : Follows ρ s t (s.changesOf call)) :
    (s.perform call).IsRenamed ρ (t.perform call) ∧ t.changesOf call = s.changesOf call := by
  cases call with
  | joinTo path fetch => exact h.joinTo fetch fixed follows
  | setParameter name value => exact ⟨h.setParameter name value, rfl⟩
  | _ => cases plain

theorem IsRenamed.run (h : s.IsRenamed ρ t) {calls : List Call}
    (plain : ∀ call ∈ calls, call.joinsOrSets = true)
    (fixed : ∀ c, IsSource s.schema (s.passedIn calls) c → Fixed ρ c)
    (follows : Follows ρ s t (s.history calls)) :
    (s.run calls).IsRenamed ρ (t.run calls) ∧ t.history calls = s.history calls := by
  induction calls generalizing s t with
  | nil => exact ⟨h, rfl⟩
  | cons call calls ih =>
    have hcall := plain call List.mem_cons_self
    obtain ⟨h₁, hchanges⟩ := h.perform hcall
      (fun c hc => fixed c (hc.mono (List.subset_append_left _ _))) follows.left
    have hbase := s.sameBase_perform (Call.keepsScope_of_joinsOrSets hcall)
    have later := follows.right hbase.tableAlias (s.bindings_perform call)
      (hchanges ▸ t.bindings_perform call)
    obtain ⟨h₂, hmore⟩ := ih h₁ (fun c hc => plain c (List.mem_cons_of_mem _ hc)) (fun c hc => by
      rw [hbase.schema] at hc
      exact fixed c (hc.mono (List.subset_append_right _ _))) later
    refine ⟨h₂, ?_⟩
    exact congrArg₂ (· ++ ·) hchanges hmore

/-! ## The statement -/

def PlacedHop.renamed (ρ : String → String) (x : PlacedHop) : PlacedHop := (x.1, renamedHop ρ x.2)

theorem restrict_renamed (inj : Function.Injective ρ) (hop : Hop Criteria) (extra : Criteria) :
    (renamedHop ρ hop).restrict (extra.renamed ρ) = renamedHop ρ (hop.restrict extra) := by
  obtain ⟨kind, table, tableAlias, conditions, on, fetch⟩ := hop
  simp only [renamedHop, Hop.restrict, Criteria.renamedOption_eq_map,
    Criteria.mergeCriteria_renamed inj, Option.map_some]

theorem modifyHop_renamed (inj : Function.Injective ρ) (id : PlacementId) (extra : Criteria)
    (hops : List PlacedHop) :
    modifyHop id (·.restrict (extra.renamed ρ)) (hops.map (PlacedHop.renamed ρ)) =
      (modifyHop id (·.restrict extra) hops).map (PlacedHop.renamed ρ) := by
  unfold modifyHop
  rw [List.map_map, List.map_map]
  apply List.map_congr_left
  intro x _
  by_cases howner : x.1 = some id
  · simp [PlacedHop.renamed, howner, restrict_renamed inj]
  · simp [PlacedHop.renamed, howner]

namespace IsRenamed

theorem newHops (h : s.IsRenamed ρ t) (step : Step) (id : PlacementId) (fetch : Bool) :
    t.newHops (step.renamed ρ) id fetch =
      (s.newHops step id fetch).map (PlacedHop.renamed ρ) := by
  have hhop (id : PlacementId) (on : Option Criteria) (fetch : Bool) :
      t.hopOf id step.kind (on.map (Criteria.renamed ρ)) fetch =
        renamedHop ρ (s.hopOf id step.kind on fetch) := by
    rw [hopOf, h.alike.placement, h.schema, ← Criteria.renamedOption_eq_map]
    rfl
  have hlast := hhop (s.placement id).terminal step.criteria fetch
  unfold Session.newHops
  rw [h.alike.placement]
  dsimp only
  split
  · next first _ _ =>
    have hfirst := hhop first none false
    rw [Option.map_none] at hfirst
    exact congrArg₂ (fun x y => [(none, x), (some id, y)]) hfirst hlast
  · exact congrArg (fun x => [(some id, x)]) hlast

theorem addHops (h : s.IsRenamed ρ t) (inj : Function.Injective ρ) (hops : List PlacedHop)
    (step : Step) (id : PlacementId) (fetch : Bool) :
    t.addHops (hops.map (PlacedHop.renamed ρ)) (step.renamed ρ) id fetch =
      (s.addHops hops step id fetch).map (PlacedHop.renamed ρ) := by
  have howned : (hops.map (PlacedHop.renamed ρ)).any (·.1 = some id) =
      hops.any (·.1 = some id) := by
    rw [List.any_map]
    rfl
  unfold Session.addHops
  rw [howned, h.newHops]
  split
  · cases hc : step.criteria with
    | none => simp only [Step.mapCriteria, hc, Option.map_none]
    | some c =>
      simpa only [Step.mapCriteria, hc, Option.map_some] using modifyHop_renamed inj id c hops
  · rw [List.map_append]

/-- Hops and columns under other names. -/
abbrev named (ρ : String → String) (acc : List PlacedHop × List ColumnRef) :
    List PlacedHop × List ColumnRef :=
  (acc.1.map (PlacedHop.renamed ρ), acc.2)

theorem addStep (h : s.IsRenamed ρ t) (inj : Function.Injective ρ) (fetch : Bool)
    (acc : List PlacedHop × List ColumnRef) (step : Step) :
    t.addStep fetch (named ρ acc) (step.renamed ρ) = named ρ (s.addStep fetch acc step) := by
  have hcolumns (id : PlacementId) :
      t.selectedColumns (step.renamed ρ) id fetch = s.selectedColumns step id fetch := by
    unfold selectedColumns
    rw [h.alike.terminal, h.alike.placement]
    rfl
  have hplacement : (step.renamed ρ).placement = step.placement := rfl
  unfold Session.addStep
  rw [hplacement]
  cases step.placement with
  | none => rfl
  | some id =>
    dsimp only
    rw [h.addHops inj, hcolumns]

/-- The hops are those of the first session under the new names, and select the same columns. -/
theorem placedHops (h : s.IsRenamed ρ t) (inj : Function.Injective ρ) :
    t.placedHops = named ρ s.placedHops := by
  have path (fetch : Bool) (steps : List Step) (acc : List PlacedHop × List ColumnRef) :
      (steps.map (Step.renamed ρ)).foldl (t.addStep fetch) (named ρ acc) =
        named ρ (steps.foldl (s.addStep fetch) acc) := by
    induction steps generalizing acc with
    | nil => rfl
    | cons step steps ih =>
      rw [List.map_cons, List.foldl_cons, List.foldl_cons, h.addStep inj, ih]
  have all (joins : List Join) (acc : List PlacedHop × List ColumnRef) :
      (joins.map (Join.renamed ρ)).foldl
          (fun acc join => join.path.foldl (t.addStep join.fetch) acc) (named ρ acc) =
        named ρ (joins.foldl (fun acc join => join.path.foldl (s.addStep join.fetch) acc) acc) := by
    induction joins generalizing acc with
    | nil => rfl
    | cons join joins ih =>
      rw [List.map_cons, List.foldl_cons, List.foldl_cons, ← ih, ← path]
      rfl
  unfold Session.placedHops
  rw [h.joins]
  exact all s.joins ([], [])

/-- The statement is the same under the new names, but for its parameters. -/
theorem statement (h : s.IsRenamed ρ t) (inj : Function.Injective ρ)
    (hfilter : t.filter = s.filter.map (Criteria.renamed ρ)) (columns : List String) :
    t.statement columns =
      { renamedSelect ρ (s.statement columns) with parameters := t.parameters } := by
  have hhops : t.hops = Criteria.renamedHops ρ s.hops := by
    rw [hops, h.placedHops inj, Criteria.renamedHops_eq_map, hops, List.map_map, List.map_map]
    rfl
  unfold Session.statement joinedColumns baseColumns
  rw [hhops, h.placedHops inj, h.schema, h.table, h.tableAlias, hfilter,
    ← Criteria.renamedOption_eq_map]
  rfl

end IsRenamed

end Session

end JoinPath
