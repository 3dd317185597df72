import JoinPath.Proofs.Path.Routed
/-!
# Anchored sessions

As long as the base table keeps its alias, every traversed path stands in one chain from that alias
on: each step starts at the alias where the step before it ends, and the pool still has that alias.
So looking an alias up gives what was stamped on the placement, and changes nothing.
-/

namespace JoinPath.Session

/-- The alias that a placed step starts at. -/
def startAlias (s : Session) (step : Step) : String :=
  (step.placement.map fun id => (s.placement id).originAlias).getD ""

/-- The alias of the table that a placed step ends at. -/
def endAlias (s : Session) (step : Step) : String :=
  (step.placement.map fun id => (s.placement (s.terminal id)).destinationAlias).getD ""

/-- Every traversed path stands in a chain from the alias of the base table. -/
def Anchored (s : Session) : Prop := ∀ c ∈ s.traversed, s.Chained s.tableAlias c

variable {s t : Session} {a : AssociationId} {id : PlacementId} {origin destination : String}

theorem Stands.originAlias_eq (h : s.Stands a id origin destination) :
    (s.placement id).originAlias = origin := by
  obtain ⟨halves, hplacement⟩ := h.exists_placement
  rw [hplacement]
  rfl

theorem Stands.startAlias_eq {step : Step} (h : s.Stands a id origin destination)
    (hid : step.placement = some id) : s.startAlias step = origin := by
  rw [startAlias, hid]
  exact h.originAlias_eq

theorem Stands.endAlias_eq {step : Step} (h : s.Stands a id origin destination)
    (hid : step.placement = some id) : s.endAlias step = destination := by
  rw [endAlias, hid]
  exact h.destinationAlias_eq

/-- A step that stands between its aliases, with the alias where it ends in the pool. -/
def IsLinked (s : Session) (step : Step) : Prop :=
  ∃ id, step.placement = some id ∧
    s.Stands step.association id (s.startAlias step) (s.endAlias step) ∧
    s.joinAliases.get? (s.terminal id) = some (s.endAlias step)

theorem Chained.isLinked {path : List Step} (h : s.Chained origin path) {step : Step}
    (hstep : step ∈ path) : s.IsLinked step := by
  induction path generalizing origin with
  | nil => simp at hstep
  | cons first path ih =>
    obtain ⟨id, destination, hid, hstands, hget, hrest⟩ := h
    rcases List.mem_cons.1 hstep with rfl | hstep
    · refine ⟨id, hid, ?_, ?_⟩
      · rw [hstands.startAlias_eq hid, hstands.endAlias_eq hid]
        exact hstands
      · rw [hstands.endAlias_eq hid]
        exact hget
    · exact ih hrest hstep

/-- A chain is a matter of associations and placements, and so is every beginning of it. -/
theorem Chained.of_key {p q : List Step} (h : s.Chained origin q)
    (hkey : p.map Step.key <+: q.map Step.key) : s.Chained origin p := by
  induction p generalizing origin q with
  | nil => trivial
  | cons step p ih =>
    cases q with
    | nil => simp at hkey
    | cons step' q =>
      obtain ⟨hstep, hrest⟩ := List.cons_prefix_cons.1 hkey
      obtain ⟨ha, hp⟩ := Prod.mk.inj hstep
      obtain ⟨id, destination, hid, hstands, hget, hq⟩ := h
      exact ⟨id, destination, hp.trans hid, ha ▸ hstands, hget, ih hq hrest⟩

/-- In a chain a step starts at the alias where the step before it ends. -/
theorem Chained.startAlias_eq {before after : List Step} {step : Step}
    (h : s.Chained origin (before ++ step :: after)) :
    s.startAlias step = (before.getLast?.map s.endAlias).getD origin := by
  induction before generalizing origin with
  | nil =>
    obtain ⟨id, destination, hid, hstands, -, -⟩ := h
    exact hstands.startAlias_eq hid
  | cons first before ih =>
    obtain ⟨id, destination, hid, hstands, -, hrest⟩ := h
    rw [ih hrest]
    cases before with
    | nil => exact (hstands.endAlias_eq hid).symm
    | cons second before => rfl

/-! ## Resolving -/

theorem Anchored.reused_chained (hs : s.Routed) (ha : s.Anchored) (path : List Step) :
    s.Chained s.tableAlias (s.reused path) := by
  rcases hs.reused_begins path with hnil | ⟨c, hc, hbegins⟩
  · rw [hnil]
    trivial
  · exact (ha c hc).of_key hbegins

theorem placeRest_chained (s : Session) (path : List Step) :
    s.Extends (s.placeRest path).2 ∧
      (s.placeRest path).2.Chained (s.originAlias (s.endOf (s.reused path))).1
        (s.placeRest path).1 :=
  s.placeAll_chained _ _

/-- A path that is resolved stands in a chain from the base table. -/
theorem Anchored.resolve_chained (hs : s.Routed) (ha : s.Anchored) (path : List Step) :
    (s.resolve path).2.Chained s.tableAlias (s.resolve path).1 := by
  have hreused := ha.reused_chained hs path
  obtain ⟨hext, hadded⟩ := s.placeRest_chained path
  refine Chained.extends ?_ (s.extends_placeRest path)
  rw [resolve_fst]
  by_cases hne : s.reused path = []
  · have horigin : (s.originAlias (s.endOf (s.reused path))).1 = s.tableAlias := by
      rw [hne]
      rfl
    rw [horigin] at hadded
    rw [hne, List.nil_append]
    exact hadded
  · obtain ⟨id, middle, hend, hget, hcont⟩ := hreused.append hne
    have horigin : (s.originAlias (s.endOf (s.reused path))).1 = middle := by
      rw [hend]
      exact congrArg Prod.fst (takeAlias_of_some hget)
    rw [horigin] at hadded
    exact hcont _ _ hext hadded

theorem tableAlias_resolve (s : Session) (path : List Step) :
    (s.resolve path).2.tableAlias = s.tableAlias := by
  obtain ⟨_, _, _, _, _, _, h⟩ := s.resolve_frame path
  rw [h]

theorem Anchored.resolve (hs : s.Routed) (ha : s.Anchored) (path : List Step) :
    (s.resolve path).2.Anchored := by
  intro c hc
  rw [tableAlias_resolve]
  rw [traversed_resolve_eq] at hc
  have old (hc : c ∈ s.traversed) : (s.resolve path).2.Chained s.tableAlias c :=
    (ha c hc).extends (s.extends_resolve path)
  split at hc
  · exact old hc
  · rcases List.mem_append.1 hc with hc | hc
    · exact old hc
    · rw [List.mem_singleton.1 hc]
      exact ha.resolve_chained hs path

/-! ## Looking aliases up -/

theorem terminalAlias_of_some (hget : s.joinAliases.get? (s.terminal id) = some destination) :
    s.terminalAlias id = (destination, s) :=
  takeAlias_of_some hget

/-- What the steps of a chain add, each starting at its own alias. -/
theorem Chained.additionsFrom_eq {path : List Step} (h : s.Chained origin path) :
    s.additionsFrom origin path =
      (path.map fun step => addition s.schema (s.startAlias step) step, s) := by
  induction path generalizing origin with
  | nil => rfl
  | cons step path ih =>
    obtain ⟨id, destination, hid, hstands, hget, hrest⟩ := h
    unfold additionsFrom
    rw [hid]
    dsimp only
    rw [terminalAlias_of_some hget]
    dsimp only
    rw [ih hrest, List.map_cons, hstands.startAlias_eq hid]

end JoinPath.Session
