import JoinPath.Proofs.Path.Attached
import JoinPath.Session.Run
/-!
# Recorded steps

The steps of all joins in a row, each attached to what was asked for: the first step through a
placement with everything that it brings, each later one with what the caller adds.
-/

namespace JoinPath

namespace Session

/-- The paths that the calls of a run ask to join, those without steps left out. -/
def requestedIn (s : Session) (calls : List Call) : List (List Step) :=
  along perform (fun s call => (s.requested call).toList.filter fun path => !path.isEmpty) s calls

/-- The steps of all joins in the order of the joins. -/
def recorded (s : Session) : List Step := s.joins.flatMap Join.path

/-- Neither the table that an association leads to nor its discriminators restrict anything. -/
def IsBare (schema : Schema) (id : AssociationId) : Prop :=
  (schema.table (schema.association id).destination).criteria = [] ∧
    (schema.association id).discriminators = []

/-- Each requested step is recorded with what it brings, the first one through a placement that is
not among `seen` with everything. -/
def AttachedFrom (s : Session) (bound : String → Value → Prop) :
    List PlacementId → List (Step × Step) → Prop
  | _, [] => True
  | seen, (step, placed) :: rest => ∃ id, placed.placement = some id ∧
      step.Attached bound (s.endAlias placed)
        (brought s.schema (s.startAlias placed) step (!seen.contains id)) placed ∧
      s.AttachedFrom bound (seen ++ [id]) rest

variable {s t : Session} {bound : String → Value → Prop}

theorem Routed.recorded_standing (hs : s.Routed) {step : Step} (hstep : step ∈ s.recorded) :
    s.IsStanding step := by
  obtain ⟨join, hjoin, hmem⟩ := List.mem_flatMap.1 hstep
  obtain ⟨c, hc, hbegins⟩ := hs.recorded join hjoin
  obtain ⟨step', hstep', hkey⟩ := List.mem_map.1 (hbegins.subset (List.mem_map_of_mem hmem))
  exact (hs.standing c hc step' hstep').of_key hkey.symm

/-! ## Attached steps -/

theorem attachedFrom_append {seen : List PlacementId} {l m : List (Step × Step)} :
    s.AttachedFrom bound seen (l ++ m) ↔ s.AttachedFrom bound seen l ∧
      s.AttachedFrom bound (seen ++ l.filterMap fun e => e.2.placement) m := by
  induction l generalizing seen with
  | nil => simp [AttachedFrom]
  | cons e l ih =>
    obtain ⟨step, placed⟩ := e
    have hids {id : PlacementId} (hid : placed.placement = some id) :
        seen ++ ((step, placed) :: l).filterMap (fun e => e.2.placement) =
          seen ++ [id] ++ l.filterMap fun e => e.2.placement := by
      rw [List.append_assoc]
      exact congrArg _ (List.filterMap_cons_some hid)
    rw [List.cons_append, AttachedFrom, AttachedFrom]
    constructor
    · rintro ⟨id, hid, hattached, hrest⟩
      obtain ⟨hl, hm⟩ := ih.1 hrest
      refine ⟨⟨id, hid, hattached, hl⟩, ?_⟩
      rwa [hids hid]
    · rintro ⟨⟨id, hid, hattached, hl⟩, hm⟩
      rw [hids hid] at hm
      exact ⟨id, hid, hattached, ih.2 ⟨hl, hm⟩⟩

/-- What was attached stays attached while the session grows and more literals receive names. -/
theorem AttachedFrom.extends {seen : List PlacementId} {l : List (Step × Step)}
    {bound' : String → Value → Prop} (h : s.AttachedFrom bound seen l) (hst : s.Extends t)
    (standing : ∀ e ∈ l, s.IsStanding e.2)
    (hbound : ∀ name value, bound name value → bound' name value) :
    t.AttachedFrom bound' seen l := by
  induction l generalizing seen with
  | nil => trivial
  | cons e l ih =>
    obtain ⟨step, placed⟩ := e
    obtain ⟨id, hid, hattached, hrest⟩ := h
    obtain ⟨id', origin, destination, hid', hstands⟩ := standing _ List.mem_cons_self
    have hstart : t.startAlias placed = s.startAlias placed := by
      rw [hstands.startAlias_eq hid', (hstands.extends hst).startAlias_eq hid']
    have hend : t.endAlias placed = s.endAlias placed := by
      rw [hstands.endAlias_eq hid', (hstands.extends hst).endAlias_eq hid']
    refine ⟨id, hid, ?_, ih hrest fun e he => standing e (List.mem_cons_of_mem _ he)⟩
    rw [hstart, hend, hst.schema]
    exact hattached.mono hbound

theorem AttachedFrom.exists_attached {seen : List PlacementId} {l : List (Step × Step)}
    (h : s.AttachedFrom bound seen l) :
    ∀ e ∈ l, ∃ cs, e.1.Attached bound (s.endAlias e.2) cs e.2 := by
  induction l generalizing seen with
  | nil =>
    intro e he
    exact absurd he List.not_mem_nil
  | cons e l ih =>
    obtain ⟨id, -, hattached, hrest⟩ := h
    intro e' he'
    rcases List.mem_cons.1 he' with rfl | he'
    · exact ⟨_, hattached⟩
    · exact ih hrest e' he'

/-- A step whose placement was seen is attached with what its caller adds. -/
theorem AttachedFrom.of_seen {seen : List PlacementId} {l : List (Step × Step)}
    (h : s.AttachedFrom bound seen l) {id : PlacementId} (hseen : id ∈ seen) :
    ∀ e ∈ l, e.2.placement = some id →
      e.1.Attached bound (s.endAlias e.2) e.1.criteria.toList e.2 := by
  induction l generalizing seen with
  | nil =>
    intro e he
    exact absurd he List.not_mem_nil
  | cons e l ih =>
    obtain ⟨id', hid', hattached, hrest⟩ := h
    intro e' he' hid
    rcases List.mem_cons.1 he' with rfl | he'
    · obtain rfl := Option.some.inj (hid.symm.trans hid')
      rw [List.contains_iff_mem.2 hseen] at hattached
      exact hattached
    · exact ih hrest (List.mem_append_left _ hseen) e' he' hid

/-- Of the steps with one placement the first is attached with everything, the others with what
their callers add. -/
theorem AttachedFrom.sharing {seen : List PlacementId} {l later : List (Step × Step)}
    (h : s.AttachedFrom bound seen l) {id : PlacementId} (hnew : id ∉ seen) {e : Step × Step}
    (hl : l.filter (fun e => e.2.placement = some id) = e :: later) :
    e.1.Attached bound (s.endAlias e.2) (addition s.schema (s.startAlias e.2) e.1).criteria e.2 ∧
      ∀ e' ∈ later, e'.1.Attached bound (s.endAlias e'.2) e'.1.criteria.toList e'.2 := by
  induction l generalizing seen with
  | nil => cases hl
  | cons first l ih =>
    obtain ⟨id', hid', hattached, hrest⟩ := h
    by_cases hid : id' = id
    · subst hid
      rw [List.filter_cons_of_pos (by simpa using hid')] at hl
      obtain ⟨rfl, rfl⟩ := List.cons.inj hl
      rw [List.contains_eq_mem, decide_eq_false hnew] at hattached
      refine ⟨hattached, fun e' he' => ?_⟩
      obtain ⟨hmem, hplaced⟩ := List.mem_filter.1 he'
      exact hrest.of_seen (List.mem_append_right _ (List.mem_singleton_self _)) e' hmem
        (of_decide_eq_true hplaced)
    · rw [List.filter_cons_of_neg (by simp [hid', hid])] at hl
      exact ih hrest (by simp [hnew, Ne.symm hid]) hl

theorem brought_of_bare {schema : Schema} {step : Step} (h : IsBare schema step.association)
    (origin : String) (first : Bool) :
    brought schema origin step first = step.criteria.toList := by
  obtain ⟨htable, hdiscriminators⟩ := h
  have hnone : (schema.association step.association).discriminatorCriteria origin = [] := by
    unfold Association.discriminatorCriteria
    rw [hdiscriminators]
    split <;> rfl
  cases first with
  | false => rfl
  | true =>
    rw [brought, if_pos rfl, addition]
    dsimp only
    rw [htable, hnone, List.append_nil, List.append_nil]

/-- Steps with different placements are attached as they are one by one. -/
theorem attachedFrom_of_forall {seen : List PlacementId} {l : List (Step × Step)}
    (nodup : (l.map fun e => e.2.placement).Nodup)
    (h : ∀ e ∈ l, ∃ id, e.2.placement = some id ∧ e.1.Attached bound (s.endAlias e.2)
      (brought s.schema (s.startAlias e.2) e.1 (!seen.contains id)) e.2) :
    s.AttachedFrom bound seen l := by
  induction l generalizing seen with
  | nil => trivial
  | cons e l ih =>
    obtain ⟨hfirst, hrest⟩ := List.nodup_cons.1 nodup
    obtain ⟨id, hid, hattached⟩ := h e List.mem_cons_self
    refine ⟨id, hid, hattached, ih hrest fun e' he' => ?_⟩
    obtain ⟨id', hid', hattached'⟩ := h e' (List.mem_cons_of_mem _ he')
    have hne : id' ≠ id := by
      rintro rfl
      exact hfirst (List.mem_map.2 ⟨e', he', hid'.trans hid.symm⟩)
    have hseen : (seen ++ [id]).contains id' = seen.contains id' := by
      simp [hne]
    refine ⟨id', hid', ?_⟩
    rw [hseen]
    exact hattached'

end Session

end JoinPath
