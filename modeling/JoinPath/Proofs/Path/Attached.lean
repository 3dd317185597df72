import JoinPath.Proofs.Bindings.History
import JoinPath.Proofs.Path.Anchored
/-!
# Attached conditions

What a linked step is recorded with: its conditions as one, with the alias where the step ends on
the columns that had none and with a name for each literal, and its columns with that alias. The
conditions are all that it adds, or those of the caller alone if its placement was composed before.
-/

namespace JoinPath

open Criteria (Filled NamedBy)

/-- `on` is the conjunction of `cs`, if there are any, with open columns under the alias and each
literal under a name that is `bound` to it. -/
def IsConjunction (bound : String → Value → Prop) (tableAlias : String) (cs : List Criteria)
    (on : Option Criteria) : Prop :=
  match cs with
  | [] => on = none
  | cs => ∃ c, on = some c ∧ Filled bound ((Criteria.and cs).qualify tableAlias) c

/-- The second step is the first as it is recorded with the conditions `cs`. -/
structure Step.Attached (bound : String → Value → Prop) (tableAlias : String)
    (cs : List Criteria) (step recorded : Step) : Prop where
  same : recorded = { step with
    criteria := recorded.criteria
    columns := recorded.columns
    placement := recorded.placement }
  criteria : IsConjunction bound tableAlias cs recorded.criteria
  columns : recorded.columns = step.columns.map fun columns => columns.map (.withAlias tableAlias)

theorem IsConjunction.mono {bound bound' : String → Value → Prop}
    (h : ∀ name value, bound name value → bound' name value) {tableAlias : String}
    {cs : List Criteria} {on : Option Criteria} (hc : IsConjunction bound tableAlias cs on) :
    IsConjunction bound' tableAlias cs on := by
  unfold IsConjunction at hc ⊢
  split at hc
  · exact hc
  · obtain ⟨c, hon, hfilled⟩ := hc
    exact ⟨c, hon, hfilled.mono h⟩

theorem Step.Attached.mono {bound bound' : String → Value → Prop}
    (h : ∀ name value, bound name value → bound' name value) {tableAlias : String}
    {cs : List Criteria} {step recorded : Step} (hs : step.Attached bound tableAlias cs recorded) :
    step.Attached bound' tableAlias cs recorded :=
  ⟨hs.same, hs.criteria.mono h, hs.columns⟩

namespace Session

variable {s : Session} {step : Step} {id : PlacementId} {d : String}

theorem applyOn_of_linked (hid : step.placement = some id)
    (hget : s.joinAliases.get? (s.terminal id) = some d) (c : Criteria) :
    ∃ log, s.applyOn step c =
      ({ step with criteria := some ((c.qualify d).bindLiterals s.tableAlias s.bindings).1 },
        { s with
          bindings := ((c.qualify d).bindLiterals s.tableAlias s.bindings).2
          log := log }) := by
  simp only [applyOn, hid, terminalAlias_of_some hget]
  exact ⟨_, rfl⟩

theorem attachCriteria_of_linked (hid : step.placement = some id)
    (hget : s.joinAliases.get? (s.terminal id) = some d) {cs : List Criteria}
    (hcs : step.criteria.toList ⊆ cs) :
    ∃ on bindings log,
      s.attachCriteria step cs =
        ({ step with criteria := on }, { s with bindings := bindings, log := log }) ∧
      IsConjunction (NamedBy s.bindings.literals (cs.flatMap (Criteria.changes s.tableAlias))) d
        cs on := by
  cases cs with
  | nil =>
    have hnone : step.criteria = none := by
      cases h : step.criteria with
      | none => rfl
      | some c =>
        rw [h] at hcs
        exact absurd (hcs (List.mem_singleton_self c)) List.not_mem_nil
    refine ⟨none, s.bindings, s.log, ?_, rfl⟩
    rw [← hnone]
    rfl
  | cons c cs =>
    obtain ⟨log, happly⟩ := applyOn_of_linked hid hget (.and (c :: cs))
    refine ⟨_, _, log, happly, _, rfl, ?_⟩
    have hfilled := Criteria.filled_bindLiterals s.tableAlias ((Criteria.and (c :: cs)).qualify d)
      s.bindings
    rwa [Criteria.qualify, (Criteria.collects_changes _).mapColumns fun _ _ => rfl,
      (Criteria.collects_changes _).and] at hfilled

theorem attachColumns_of_linked (hid : step.placement = some id)
    (hget : s.joinAliases.get? (s.terminal id) = some d) :
    s.attachColumns step step.columns =
      ({ step with columns := step.columns.map fun columns => columns.map (.withAlias d) }, s) := by
  cases h : step.columns with
  | none =>
    rw [attachColumns]
    obtain ⟨_, _, _, _, _, _⟩ := step
    simp_all
  | some columns =>
    simp only [attachColumns, applyColumns, hid, terminalAlias_of_some hget, Option.map_some]

/-- The conditions that a step brings: all that it adds for the first join through its placement,
those of the caller for a later one. -/
def brought (schema : Schema) (origin : String) (step : Step) (first : Bool) : List Criteria :=
  if first then (addition schema origin step).criteria else step.criteria.toList

theorem criteriaToAttach_fst (hid : step.placement = some id) (origin : String) :
    (s.criteriaToAttach step (addition s.schema origin step)).1 =
      brought s.schema origin step (!s.composed.contains id) := by
  cases h : s.composed.contains id <;>
    simp only [criteriaToAttach, hid, markComposed, brought, h] <;> rfl

theorem criteriaToAttach_snd (hid : step.placement = some id) (a : Addition) :
    ∃ composed, (s.criteriaToAttach step a).2 = { s with composed := composed } ∧
      ∀ other, other ∈ composed ↔ other ∈ s.composed ∨ other = id := by
  by_cases h : s.composed.contains id
  · have hmem : id ∈ s.composed := List.contains_iff_mem.1 h
    refine ⟨s.composed, by simp only [criteriaToAttach, hid, markComposed, h, if_true],
      fun other => ?_⟩
    exact ⟨.inl, fun hor => hor.elim (fun hmem => hmem) fun heq => heq ▸ hmem⟩
  · refine ⟨id :: s.composed, by simp only [criteriaToAttach, hid, markComposed, h]; rfl,
      fun other => ?_⟩
    rw [List.mem_cons, or_comm]

theorem own_subset_brought (schema : Schema) (origin : String) (step : Step) (first : Bool) :
    step.criteria.toList ⊆ brought schema origin step first := by
  cases first with
  | false =>
    intro _ h
    exact h
  | true =>
    intro _ h
    exact List.mem_append_left _ (List.mem_append_left _ h)

theorem brought_eq_nil {schema : Schema} {origin : String}
    (h : (addition schema origin step).criteria = []) (first : Bool) :
    brought schema origin step first = [] := by
  cases first with
  | false =>
    have hown := own_subset_brought schema origin step true
    rw [brought, if_pos rfl, h] at hown
    exact List.subset_nil.1 hown
  | true => exact h

/-- Attaching records the step with what it brings and notes its placement as composed. -/
theorem attach_of_linked (hid : step.placement = some id)
    (hget : s.joinAliases.get? (s.terminal id) = some d) (origin : String) :
    step.Attached
        (NamedBy s.bindings.literals (s.attachChanges step (addition s.schema origin step))) d
        (brought s.schema origin step (!s.composed.contains id))
        (s.attach step (addition s.schema origin step)).1 ∧
      ∃ bindings log composed,
        (s.attach step (addition s.schema origin step)).2 =
          { s with bindings := bindings, log := log, composed := composed } ∧
        ∀ other, other ∈ composed ↔ other ∈ s.composed ∨
          other = id ∧ (addition s.schema origin step).isEmpty = false := by
  cases hempty : (addition s.schema origin step).isEmpty with
  | true =>
    obtain ⟨hcriteria, hcolumns⟩ : (addition s.schema origin step).criteria = [] ∧
        step.columns = none := by
      simpa [Addition.isEmpty, addition] using hempty
    have hnone : step.criteria = none := by
      have hown := brought_eq_nil hcriteria false
      cases h : step.criteria with
      | none => rfl
      | some c => simp [brought, h] at hown
    rw [attach, if_pos hempty, brought_eq_nil hcriteria]
    refine ⟨⟨rfl, hnone, by rw [hcolumns]; rfl⟩, s.bindings, s.log, s.composed, rfl, by simp⟩
  | false =>
    -- Only the first step through a placement brings the conditions of its table, and marks it.
    obtain ⟨composed, hmark, hmem⟩ := s.criteriaToAttach_snd hid (addition s.schema origin step)
    have hcs := criteriaToAttach_fst (s := s) hid origin
    have hchanges : s.attachChanges step (addition s.schema origin step) =
        (brought s.schema origin step (!s.composed.contains id)).flatMap
          (Criteria.changes s.tableAlias) := by
      rw [← hcs]
      simp only [attachChanges, hid, hempty, Bool.false_eq_true, if_false]
    obtain ⟨on, bindings, log, hattach, hon⟩ :=
      attachCriteria_of_linked (s := { s with composed := composed }) hid hget
        (own_subset_brought s.schema origin step (!s.composed.contains id))
    have hcolumns : attachColumns { s with bindings := bindings, log := log, composed := composed }
        { step with criteria := on } step.columns = _ := attachColumns_of_linked hid hget
    have hresult : s.attach step (addition s.schema origin step) =
        ({ step with
            criteria := on
            columns := step.columns.map fun columns => columns.map (.withAlias d) },
          { s with bindings := bindings, log := log, composed := composed }) := by
      rw [attach, hempty]
      simp only [Bool.false_eq_true, if_false, hcs, hmark, hattach]
      exact hcolumns
    rw [hresult, hchanges]
    refine ⟨⟨rfl, hon, rfl⟩, bindings, log, composed, rfl, fun other => ?_⟩
    rw [hmem, and_iff_left rfl]

/-! ## Whole paths -/

/-- Whether the placement of a step was composed before. -/
def composedBefore (s : Session) (step : Step) : Bool :=
  step.placement.any fun id => s.composed.contains id

/-- A step with what it adds where it stands. -/
def withAddition (s : Session) (step : Step) : Step × Addition :=
  (step, addition s.schema (s.startAlias step) step)

/-- How a step of a path is recorded. -/
def RecordedAs (s : Session) (bound : String → Value → Prop) (step recorded : Step) : Prop :=
  recorded.key = step.key ∧
    step.Attached bound (s.endAlias step)
      (brought s.schema (s.startAlias step) step (!s.composedBefore step)) recorded

theorem composedBefore_eq_of_mem_iff {t : Session} {step : Step}
    (h : ∀ other ∈ step.placement, other ∈ t.composed ↔ other ∈ s.composed) :
    t.composedBefore step = s.composedBefore step := by
  unfold composedBefore
  cases hid : step.placement with
  | none => rfl
  | some id =>
    have hmem := h id hid
    simp only [Option.any_some, List.contains_eq_mem, hmem]

theorem composedBefore_of_placement (hid : step.placement = some id) :
    s.composedBefore step = s.composed.contains id := by
  rw [composedBefore, hid, Option.any_some]

theorem RecordedAs.mono {bound bound' : String → Value → Prop}
    (h : ∀ name value, bound name value → bound' name value) {recorded : Step}
    (hr : s.RecordedAs bound step recorded) : s.RecordedAs bound' step recorded :=
  ⟨hr.1, hr.2.mono h⟩

theorem recordedAs_attach (hid : step.placement = some id)
    (hget : s.joinAliases.get? (s.terminal id) = some (s.endAlias step)) :
    s.RecordedAs (NamedBy s.bindings.literals (s.attachChanges step (s.withAddition step).2)) step
      (s.attach step (s.withAddition step).2).1 := by
  refine ⟨attach_key _ _ _, ?_⟩
  rw [composedBefore_of_placement hid]
  exact (attach_of_linked hid hget (s.startAlias step)).1

/-- The placements of other steps were composed before exactly if they were at first. -/
theorem composedBefore_of_not_mem {t : Session} {p : Prop}
    (hmem : ∀ other, other ∈ t.composed ↔ other ∈ s.composed ∨ other = id ∧ p) {path : List Step}
    (hnew : some id ∉ path.map Step.placement) :
    ∀ u ∈ path, t.composedBefore u = s.composedBefore u := by
  intro u hu
  apply composedBefore_eq_of_mem_iff
  intro other hother
  rw [hmem, or_iff_left]
  rintro ⟨rfl, -⟩
  exact hnew (hother ▸ List.mem_map_of_mem hu)

/-- The first step of a path is attached, and then the others. -/
theorem attachAll_map_cons {t : Session} (ht : (s.attach step (s.withAddition step).2).2 = t)
    (path : List Step) :
    s.attachAllChanges ((step :: path).map s.withAddition) =
        s.attachChanges step (s.withAddition step).2 ++
          t.attachAllChanges (path.map s.withAddition) ∧
      s.attachAll ((step :: path).map s.withAddition) =
        ((s.attach step (s.withAddition step).2).1 :: (t.attachAll (path.map s.withAddition)).1,
          (t.attachAll (path.map s.withAddition)).2) := by
  subst ht
  exact ⟨rfl, rfl⟩

/-- Attaching along a path of linked steps with different placements. -/
theorem attachAll_of_linked {path : List Step} (linked : ∀ step ∈ path, s.IsLinked step)
    (nodup : (path.map Step.placement).Nodup) :
    List.Forall₂
        (s.RecordedAs (NamedBy s.bindings.literals (s.attachAllChanges (path.map s.withAddition))))
        path (s.attachAll (path.map s.withAddition)).1 ∧
      ∃ bindings log composed,
        (s.attachAll (path.map s.withAddition)).2 =
          { s with bindings := bindings, log := log, composed := composed } ∧
        ∀ other, other ∈ composed ↔ other ∈ s.composed ∨ ∃ step ∈ path,
          step.placement = some other ∧ (s.withAddition step).2.isEmpty = false := by
  induction path generalizing s with
  | nil => exact ⟨.nil, s.bindings, s.log, s.composed, rfl, by simp⟩
  | cons step path ih =>
    obtain ⟨hfirst, hrest⟩ := List.nodup_cons.1 nodup
    obtain ⟨id, hid, -, hget⟩ := linked step List.mem_cons_self
    have hrecorded := recordedAs_attach hid hget
    have hbindings := s.bindings_attach step (s.withAddition step).2
    obtain ⟨bindings, log, composed, hframe, hmem⟩ :=
      (attach_of_linked hid hget (s.startAlias step)).2
    change (s.attach step (s.withAddition step).2).2 = _ at hframe
    obtain ⟨hpath, bindings', log', composed', hframe', hmem'⟩ :=
      ih (s := { s with bindings := bindings, log := log, composed := composed })
        (fun t ht => linked t (List.mem_cons_of_mem _ ht)) hrest
    -- A path has no placement twice, so the first step marks none of the others.
    have hbefore : ∀ u ∈ path, composedBefore
        { s with bindings := bindings, log := log, composed := composed } u =
          s.composedBefore u := composedBefore_of_not_mem hmem (hid ▸ hfirst)
    obtain ⟨hchanges, hresult⟩ := attachAll_map_cons hframe path
    have hliterals : bindings.literals = s.bindings.literals +
        Bindings.numbersUsed (s.attachChanges step (s.withAddition step).2) := by
      rw [← Bindings.literals_changed, ← hbindings, hframe]
    rw [hchanges, hresult]
    refine ⟨.cons (hrecorded.mono fun name value h => ?_) ?_, bindings', log', composed', hframe',
      fun other => ?_⟩
    · rw [NamedBy, Bindings.namedFrom_append]
      exact List.mem_append_left _ h
    · refine ((List.forall₂_and_left _ _).2 ⟨hbefore, hpath⟩).imp fun t recorded ht => ?_
      obtain ⟨hcomposed, hkey, hattached⟩ := ht
      rw [hcomposed] at hattached
      refine ⟨hkey, hattached.mono fun name value h => ?_⟩
      rw [NamedBy, Bindings.namedFrom_append, ← hliterals]
      exact List.mem_append_right _ h
    · have hid' : step.placement = some other ↔ other = id := by
        rw [hid, Option.some_inj, eq_comm]
      rw [hmem', List.exists_mem_cons_iff, hid', ← or_assoc]
      exact or_congr_left (hmem other)

end Session

end JoinPath
