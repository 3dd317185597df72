import JoinPath.Proofs.Bindings.Change
import JoinPath.Proofs.Path.Placed
import JoinPath.Proofs.Runs
import JoinPath.Proofs.Session.Frame
/-!
# The history of a session

Every call changes the parameters of a session by the leaves of the conditions that it composes,
from left to right (`Criteria.bindLiterals_snd`). The changes of all calls of a run, one after the
other, are its history, and the parameters at the end are what the history makes of those at the
beginning (`bindings_run`).
-/

namespace JoinPath

open Bindings (Change namedFrom)

namespace Criteria

/-- What a leaf does to the parameters. -/
def leafChanges (tableAlias : String) : Criteria → List Change
  | literal value => [.named tableAlias value]
  | subquery select => [.adopted select.parameters]
  | _ => []

/-- What composing a condition does to the parameters. -/
def changes (tableAlias : String) (c : Criteria) : List Change :=
  c.leaves.flatMap (leafChanges tableAlias)

theorem collects_changes (a : String) : Collects (changes a) := collects_leaves.flatMap _

theorem adopted_mem_changes {c : Criteria} {select : Select Criteria} (h : select ∈ c.subqueries)
    (a : String) : Change.adopted select.parameters ∈ changes a c :=
  List.mem_flatMap.2 ⟨subquery select, mem_subqueries.1 h, List.mem_singleton_self _⟩

/-- Composing a condition sets no parameter. -/
theorem assigned_not_mem_changes (a : String) (c : Criteria) (name : String) (value : Value) :
    Change.assigned name value ∉ changes a c := by
  intro h
  obtain ⟨l, -, hl⟩ := List.mem_flatMap.1 h
  cases l <;> simp [leafChanges] at hl

theorem bindLiteralsAll_snd {a : String} {cs : List Criteria}
    (h : ∀ c ∈ cs, ∀ b, (bindLiterals a c b).2 = b.changed (changes a c)) (b : Bindings) :
    (bindLiteralsAll a cs b).2 = b.changed (cs.flatMap (changes a)) := by
  induction cs generalizing b with
  | nil => rfl
  | cons c cs ih =>
    rw [List.flatMap_cons, Bindings.changed_append, ← h c List.mem_cons_self]
    exact ih (fun d hd => h d (List.mem_cons_of_mem _ hd)) _

theorem bindLiterals_snd (a : String) (c : Criteria) (b : Bindings) :
    (bindLiterals a c b).2 = b.changed (changes a c) := by
  induction c using induction_members generalizing b with
  | comparison op cs ih =>
    rw [(collects_changes a).comparison]
    exact bindLiteralsAll_snd ih b
  | group op cs ih =>
    rw [(collects_changes a).group]
    exact bindLiteralsAll_snd ih b
  | literal value => rfl
  | param name => rfl
  | subquery select => rfl
  | column ref => rfl

/-- The names that composing a condition gives to its literals. -/
abbrev NamedBy (used : ℕ) (cs : List Change) (name : String) (value : Value) : Prop :=
  (name, value) ∈ namedFrom used cs

theorem filled_bindLiteralsAll {a : String} {cs : List Criteria}
    (h : ∀ c ∈ cs, ∀ b, Filled (NamedBy b.literals (changes a c)) c (bindLiterals a c b).1)
    (b : Bindings) :
    FilledAll (NamedBy b.literals (cs.flatMap (changes a))) cs (bindLiteralsAll a cs b).1 := by
  induction cs generalizing b with
  | nil => rfl
  | cons c cs ih =>
    have rest := ih (fun d hd => h d (List.mem_cons_of_mem _ hd)) (bindLiterals a c b).2
    rw [bindLiterals_snd, Bindings.literals_changed, ← bindLiterals_snd] at rest
    refine ⟨_, _, rfl, (h c List.mem_cons_self b).mono fun name value hn => ?_,
      filledAll_mono (fun d _ e hd => hd.mono fun name value hn => ?_) rest⟩
    · rw [NamedBy, List.flatMap_cons, Bindings.namedFrom_append]
      exact List.mem_append_left _ hn
    · rw [NamedBy, List.flatMap_cons, Bindings.namedFrom_append]
      exact List.mem_append_right _ hn

/-- Composing a condition puts a parameter for each of its literals, and the literal takes the name
of that parameter. -/
theorem filled_bindLiterals (a : String) (c : Criteria) (b : Bindings) :
    Filled (NamedBy b.literals (changes a c)) c (bindLiterals a c b).1 := by
  induction c using induction_members generalizing b with
  | comparison op cs ih =>
    rw [(collects_changes a).comparison]
    exact ⟨_, rfl, filled_bindLiteralsAll ih b⟩
  | group op cs ih =>
    rw [(collects_changes a).group]
    exact ⟨_, rfl, filled_bindLiteralsAll ih b⟩
  | literal value => exact ⟨_, rfl, List.mem_singleton_self _⟩
  | param name => rfl
  | subquery select => rfl
  | column ref => rfl

end Criteria

namespace Session

/-! ## Joins -/

/-- What attaching a step's additions does to the parameters. -/
def attachChanges (s : Session) (step : Step) (a : Addition) : List Change :=
  match step.placement with
  | none => []
  | some _ =>
    if a.isEmpty then []
    else (s.criteriaToAttach step a).1.flatMap (Criteria.changes s.tableAlias)

/-- The session after a step's additions are attached. -/
def attached (s : Session) (x : Step × Addition) : Session := (s.attach x.1 x.2).2

theorem attachAll_snd (s : Session) (additions : List (Step × Addition)) :
    (s.attachAll additions).2 = additions.foldl attached s := by
  induction additions generalizing s with
  | nil => rfl
  | cons x additions ih => exact ih _

theorem foldl_attached_frame (s : Session) (additions : List (Step × Addition)) :
    ∃ pool bindings log composed, additions.foldl attached s =
      { s with joinAliases := pool, bindings := bindings, log := log, composed := composed } := by
  rw [← attachAll_snd]
  exact s.attachAll_frame additions

/-- What attaching the additions of all steps does to the parameters. -/
def attachAllChanges (s : Session) (additions : List (Step × Addition)) : List Change :=
  along attached (fun s x => s.attachChanges x.1 x.2) s additions

/-- What joining along a path does to the parameters. -/
def joinChanges (s : Session) (path : List Step) : List Change :=
  if path.isEmpty then [] else (s.resolved path).attachAllChanges (s.withAdditions path)

theorem bindings_applyOn {s : Session} {step : Step} {id : PlacementId}
    (h : step.placement = some id) (c : Criteria) :
    (s.applyOn step c).2.bindings = s.bindings.changed (c.changes s.tableAlias) := by
  obtain ⟨pool, hs⟩ := s.terminalAlias_frame id
  simp only [applyOn, h, hs, bindLiterals, report]
  rw [Criteria.bindLiterals_snd, Criteria.qualify,
    (Criteria.collects_changes _).mapColumns fun _ _ => rfl]

theorem applyOn_of_not_placed {s : Session} {step : Step} (h : step.placement = none)
    (c : Criteria) : s.applyOn step c = (step, s) := by
  simp only [applyOn, h]

theorem bindings_attachCriteria {s : Session} {step : Step} {id : PlacementId}
    (h : step.placement = some id) (cs : List Criteria) :
    (s.attachCriteria step cs).2.bindings =
      s.bindings.changed (cs.flatMap (Criteria.changes s.tableAlias)) := by
  unfold attachCriteria
  split
  · next he => rw [List.isEmpty_iff.1 he]; rfl
  · rw [bindings_applyOn h, (Criteria.collects_changes _).and]

theorem bindings_attach (s : Session) (step : Step) (a : Addition) :
    (s.attach step a).2.bindings = s.bindings.changed (s.attachChanges step a) := by
  obtain ⟨composed, hc⟩ := s.criteriaToAttach_frame step a
  unfold attach attachChanges
  split
  · cases step.placement <;> rfl
  · obtain ⟨pool, h⟩ := ((s.criteriaToAttach step a).2.attachCriteria step
      (s.criteriaToAttach step a).1).2.attachColumns_frame
      ((s.criteriaToAttach step a).2.attachCriteria step (s.criteriaToAttach step a).1).1 a.columns
    refine (congrArg bindings h).trans ?_
    cases hp : step.placement with
    | none =>
      simp only [attachCriteria, applyOn_of_not_placed hp, hc]
      split <;> rfl
    | some id => rw [bindings_attachCriteria hp, hc]

theorem bindings_attachAll (s : Session) (additions : List (Step × Addition)) :
    (s.attachAll additions).2.bindings = s.bindings.changed (s.attachAllChanges additions) := by
  rw [attachAll_snd]
  refine along_induction (P := fun changes (t : Session) => t.bindings = s.bindings.changed changes)
    (fun x _ changes t h => ?_) rfl
  rw [attached, bindings_attach, h, Bindings.changed_append]

theorem bindings_joinTo (s : Session) (path : List Step) (fetch : Bool) :
    (s.joinTo path fetch).bindings = s.bindings.changed (s.joinChanges path) := by
  by_cases h : path = []
  · subst h
    rfl
  · obtain ⟨_, _, _, _, _, _, hr⟩ := s.resolved_frame path
    have hb : (s.resolved path).bindings = s.bindings := by rw [hr]
    rw [joinTo_of_ne_nil s h, joinChanges, if_neg (by simpa using h), ← hb, compose_eq]
    exact bindings_attachAll _ _

/-! ## Calls -/

/-- What setting the filter does to the parameters. -/
def filterChanges (s : Session) (restrictions : List Criteria) : List Change :=
  (restrictions ++ (s.schema.table s.table).criteria).flatMap (Criteria.changes s.tableAlias)

/-- What a call does to the parameters. -/
def changesOf (s : Session) : Call → List Change
  | .joinPending _ => { s with pending := [] }.joinChanges s.pending
  | .joinTo path _ => s.joinChanges path
  | .setFilter restrictions => s.filterChanges restrictions
  | .setParameter name value => [.assigned name value]
  | .nextLiteral => [.skipped]
  | .bindLiterals criteria => criteria.changes s.tableAlias
  | .select _ => if s.filterSet then [] else s.filterChanges []
  | .build _ _ => if s.filterSet then [] else s.filterChanges []
  | _ => []

/-- What the calls of a run do to the parameters, in the order in which it happens. -/
def history (s : Session) (calls : List Call) : List Change := along perform changesOf s calls

theorem bindings_setFilter (s : Session) (restrictions : List Criteria) :
    (s.setFilter restrictions).bindings = s.bindings.changed (s.filterChanges restrictions) := by
  unfold setFilter filterChanges
  dsimp only
  split
  · next h => rw [h]; rfl
  · next all _ =>
    rw [← (Criteria.collects_changes _).and]
    exact Criteria.bindLiterals_snd _ _ _

theorem bindings_ensureFilter (s : Session) :
    s.ensureFilter.bindings =
      s.bindings.changed (if s.filterSet then [] else s.filterChanges []) := by
  unfold ensureFilter
  split
  · rfl
  · exact s.bindings_setFilter []

theorem bindings_perform (s : Session) (call : Call) :
    (s.perform call).bindings = s.bindings.changed (s.changesOf call) := by
  cases call with
  | setAlias a => simp only [perform, setAlias]; split <;> rfl
  | joinPending fetch => exact bindings_joinTo _ _ _
  | joinTo path fetch => exact bindings_joinTo _ _ _
  | addJoin path fetch =>
    obtain ⟨_, _, _, _, _, _, hr⟩ := s.resolve_frame path
    simp only [perform, addJoin]
    split
    · rfl
    · simp only [addResolved, hr]
      rfl
  | additions path =>
    obtain ⟨_, ha⟩ := s.additions_frame path
    simp only [perform, ha]
    rfl
  | setFilter restrictions => exact bindings_setFilter _ _
  | bindLiterals criteria => exact Criteria.bindLiterals_snd _ _ _
  | select columns => exact s.bindings_ensureFilter
  | build columns d =>
    obtain ⟨log, h⟩ := s.build_frame columns d
    exact (congrArg bindings h).trans s.bindings_ensureFilter
  | _ => rfl

/-- The parameters after a run are what its history makes of those before. -/
theorem bindings_run (s : Session) (calls : List Call) :
    (s.run calls).bindings = s.bindings.changed (s.history calls) :=
  along_induction (P := fun changes (t : Session) => t.bindings = s.bindings.changed changes)
    (fun call _ changes t h => by rw [bindings_perform, h, Bindings.changed_append]) rfl

/-! ## Parameters that are set -/

theorem assigned_not_mem_attachAllChanges (s : Session) (additions : List (Step × Addition))
    (name : String) (value : Value) :
    Change.assigned name value ∉ s.attachAllChanges additions := by
  intro h
  obtain ⟨_, ⟨step, a⟩, _, -, h⟩ := mem_along.1 h
  unfold attachChanges at h
  split at h
  · cases h
  · split at h
    · cases h
    · obtain ⟨c, -, hc⟩ := List.mem_flatMap.1 h
      exact Criteria.assigned_not_mem_changes _ c name value hc

theorem assigned_not_mem_joinChanges (s : Session) (path : List Step) (name : String)
    (value : Value) : Change.assigned name value ∉ s.joinChanges path := by
  unfold joinChanges
  split
  · exact List.not_mem_nil
  · exact assigned_not_mem_attachAllChanges _ _ name value

theorem assigned_not_mem_filterChanges (s : Session) (restrictions : List Criteria) (name : String)
    (value : Value) : Change.assigned name value ∉ s.filterChanges restrictions := by
  intro h
  obtain ⟨c, -, hc⟩ := List.mem_flatMap.1 h
  exact Criteria.assigned_not_mem_changes _ c name value hc

theorem eq_setParameter_of_assigned {s : Session} {call : Call} {name : String} {value : Value}
    (h : .assigned name value ∈ s.changesOf call) : call = .setParameter name value := by
  have hbase (h : .assigned name value ∈ if s.filterSet then [] else s.filterChanges []) :
      call = .setParameter name value := by
    split at h
    · cases h
    · exact absurd h (assigned_not_mem_filterChanges _ _ _ _)
  cases call with
  | setParameter n v =>
    obtain ⟨rfl, rfl⟩ := Change.assigned.inj (List.mem_singleton.1 h)
    rfl
  | joinPending fetch => exact absurd h (assigned_not_mem_joinChanges _ _ _ _)
  | joinTo path fetch => exact absurd h (assigned_not_mem_joinChanges _ _ _ _)
  | setFilter rs => exact absurd h (assigned_not_mem_filterChanges _ _ _ _)
  | nextLiteral => simp [changesOf] at h
  | bindLiterals c => exact absurd h (Criteria.assigned_not_mem_changes _ _ _ _)
  | select columns => exact hbase h
  | build columns d => exact hbase h
  | _ => cases h

/-- Only the caller sets a parameter. -/
theorem setParameter_mem_of_assigned (s : Session) {calls : List Call} {name : String}
    {value : Value} (h : .assigned name value ∈ s.history calls) :
    .setParameter name value ∈ calls := by
  obtain ⟨before, call, after, rfl, hcall⟩ := mem_along.1 h
  obtain rfl := eq_setParameter_of_assigned hcall
  exact List.mem_append_right _ List.mem_cons_self

end Session

end JoinPath
