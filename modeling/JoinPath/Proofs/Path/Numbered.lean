import JoinPath.Proofs.Path.Anchored
import Mathlib.Data.List.Perm.Basic
/-!
# Numbered aliases

Every placement that a hop joins received its alias when it was placed: the preferred one, or the
next number of a pool. So the aliases of all placements are, in some order, the preferred ones and
the numbers that both pools gave out (`Numbered`).
-/

namespace JoinPath

/-- The aliases that a pool numbered. -/
def AliasPool.numbered (p : AliasPool) : List String :=
  (List.range p.count).map fun k => p.stem ++ (k + 1).repr

namespace AliasPool

theorem stem_take (p : AliasPool) (id : PlacementId) : (p.take id).2.stem = p.stem := by
  unfold take
  split <;> rfl

/-- A key without an alias receives the next number. -/
theorem numbered_take {p : AliasPool} {id : PlacementId} (h : p.get? id = none) :
    (p.take id).2.numbered = p.numbered ++ [(p.take id).1] := by
  unfold take
  rw [h]
  dsimp only [numbered, register]
  rw [List.range_succ, List.map_append]
  rfl

theorem get?_take_ne (p : AliasPool) {id other : PlacementId} (h : other ≠ id) :
    (p.take id).2.get? other = p.get? other := by
  unfold take
  split
  · rfl
  · exact (p.get?_register id _ other).trans (if_neg h)

end AliasPool

namespace Session

/-- The placements that hops join. A many-to-many step is left out, since its halves are there. -/
def joinedPlacements (s : Session) : List Placement :=
  s.placements.filter fun p => p.halves.isNone

/-- The aliases of those placements, in the order in which they were placed. -/
def joinedAliases (s : Session) : List String := s.joinedPlacements.map Placement.destinationAlias

/-- The aliases of the placements are the `preferred` ones and those of the pools, in some order. -/
structure Numbered (preferred : List String) (s : Session) : Prop where
  joinStem : s.joinAliases.stem = joinStem s.tableAlias
  junctionStem : s.junctionAliases.stem = junctionStem s.tableAlias
  joinKeys : ∀ id : PlacementId, s.placements.length ≤ id.index → s.joinAliases.get? id = none
  junctionKeys : ∀ id : PlacementId, s.placements.length ≤ id.index →
    s.junctionAliases.get? id = none
  aliases : s.joinedAliases.Perm
    (preferred ++ (s.joinAliases.numbered ++ s.junctionAliases.numbered))

variable {s t : Session} {preferred : List String}

/-- The invariant speaks of the placements, the pools and the alias of the base table alone. -/
theorem Numbered.congr (h : s.Numbered preferred) (hbase : t.tableAlias = s.tableAlias)
    (hjoins : t.joinAliases = s.joinAliases) (hjunctions : t.junctionAliases = s.junctionAliases)
    (hplacements : t.placements = s.placements) : t.Numbered preferred := by
  obtain ⟨hstem, hstem', hkeys, hkeys', haliases⟩ := h
  rw [← hplacements] at hkeys hkeys'
  rw [← hjoins, ← hbase] at hstem
  rw [← hjunctions, ← hbase] at hstem'
  refine ⟨hstem, hstem', ?_, ?_, ?_⟩
  · rw [hjoins]
    exact hkeys
  · rw [hjunctions]
    exact hkeys'
  · rw [joinedAliases, joinedPlacements, hplacements, hjoins, hjunctions]
    exact haliases

theorem numbered_setAlias_new (schema : Schema) (table : TableId) (tableAlias : String) :
    ((new schema table).setAlias tableAlias).Numbered [] := by
  unfold setAlias
  split
  · exact ⟨rfl, rfl, fun _ _ => rfl, fun _ _ => rfl, .refl _⟩
  · exact ⟨rfl, rfl, fun _ _ => rfl, fun _ _ => rfl, .refl _⟩

/-! ## Placing -/

theorem joinedAliases_addPlacements (s : Session) (ps : List Placement) :
    (s.addPlacements ps).joinedAliases =
      s.joinedAliases ++ (ps.filter fun p => p.halves.isNone).map Placement.destinationAlias := by
  rw [joinedAliases, joinedPlacements, addPlacements, List.filter_append, List.map_append]
  rfl

/-- What giving a destination its alias does to the pool of joins. -/
structure Assigned (s : Session) (id : PlacementId) (preferred : Option String)
    (r : String × Session) : Prop where
  frame : ∃ pool log, r.2 = { s with joinAliases := pool, log := log }
  stem : r.2.joinAliases.stem = s.joinAliases.stem
  others : ∀ other ≠ id, r.2.joinAliases.get? other = s.joinAliases.get? other
  aliases : (preferred.toList ++ r.2.joinAliases.numbered).Perm (s.joinAliases.numbered ++ [r.1])

theorem assigned_assignDestination {id : PlacementId} (free : s.joinAliases.get? id = none)
    (a : Association) (preferred : Option String) :
    s.Assigned id preferred (s.assignDestination a id preferred) := by
  cases preferred with
  | none =>
    refine ⟨⟨_, _, rfl⟩, s.joinAliases.stem_take id, fun other h => ?_, ?_⟩
    · exact s.joinAliases.get?_take_ne h
    · exact .of_eq (AliasPool.numbered_take free)
  | some name =>
    refine ⟨⟨_, _, rfl⟩, rfl, fun other h => ?_, ?_⟩
    · exact (s.joinAliases.get?_register id name other).trans (if_neg h)
    · exact List.perm_append_comm

/-- One more alias, from the pool of joins or preferred. -/
theorem perm_of_assigned {aliases preferred chosen joins joins' junctions : List String}
    {name : String}
    (h : aliases.Perm (preferred ++ (joins ++ junctions)))
    (hname : (chosen ++ joins').Perm (joins ++ [name])) :
    (aliases ++ [name]).Perm (preferred ++ chosen ++ (joins' ++ junctions)) := by
  rw [List.perm_iff_count] at h hname ⊢
  intro a
  have ha := h a
  have hnamed := hname a
  simp only [List.count_append] at ha hnamed ⊢
  omega

/-- One more alias from the pool of junctions. -/
theorem perm_of_junction {aliases preferred joins junctions : List String} {name : String}
    (h : aliases.Perm (preferred ++ (joins ++ junctions))) :
    (aliases ++ [name]).Perm (preferred ++ (joins ++ (junctions ++ [name]))) := by
  rw [← List.append_assoc joins, ← List.append_assoc preferred]
  exact h.append_right [name]

theorem Numbered.place_direct (h : s.Numbered preferred) {step : Step}
    {previous : Option PlacementId} (settled : (s.originAlias previous).2 = s)
    (hj : (s.schema.association step.association).junction = none) :
    (s.place step previous).2.Numbered (preferred ++ step.preferredAlias.toList) := by
  have hassigned := assigned_assignDestination (h.joinKeys ⟨s.placements.length⟩ (Nat.le_refl _))
    (s.schema.association step.association) step.preferredAlias
  simp only [place, hj, settled]
  generalize s.assignDestination _ _ _ = r at hassigned ⊢
  obtain ⟨name, r⟩ := r
  obtain ⟨⟨pool, log, rfl⟩, hstem, hothers, haliases⟩ := hassigned
  refine ⟨hstem.trans h.joinStem, h.junctionStem, fun id hid => ?_, fun id hid => ?_, ?_⟩
  · simp only [addPlacements, List.length_append, List.length_singleton] at hid
    rw [← h.joinKeys id (Nat.le_of_succ_le hid)]
    refine hothers id ?_
    rintro rfl
    exact absurd hid (Nat.not_succ_le_self _)
  · simp only [addPlacements, List.length_append, List.length_singleton] at hid
    exact h.junctionKeys id (Nat.le_of_succ_le hid)
  · rw [joinedAliases_addPlacements]
    exact perm_of_assigned h.aliases haliases

theorem Numbered.place_junction (h : s.Numbered preferred) {step : Step}
    {previous : Option PlacementId} (settled : (s.originAlias previous).2 = s) {j : Junction}
    (hj : (s.schema.association step.association).junction = some j) :
    (s.place step previous).2.Numbered (preferred ++ step.preferredAlias.toList) := by
  have hjunction := AliasPool.numbered_take
    (h.junctionKeys ⟨s.placements.length⟩ (Nat.le_refl _))
  have hassigned := assigned_assignDestination
    (s := (s.assignJunction (s.schema.association j.inward) ⟨s.placements.length⟩).2)
    (h.joinKeys ⟨s.placements.length + 1⟩ (Nat.le_succ _)) (s.schema.association j.outward)
    step.preferredAlias
  simp only [place, hj, settled]
  generalize (s.assignJunction _ _).2.assignDestination _ _ _ = r at hassigned ⊢
  obtain ⟨name, r⟩ := r
  obtain ⟨⟨pool, log, rfl⟩, hstem, hothers, haliases⟩ := hassigned
  refine ⟨hstem.trans h.joinStem, (AliasPool.stem_take _ _).trans h.junctionStem,
    fun id hid => ?_, fun id hid => ?_, ?_⟩
  · have hle : s.placements.length + 3 ≤ id.index := by
      simpa [addPlacements, assignJunction, reportAlias, report] using hid
    rw [← h.joinKeys id (by omega)]
    refine hothers id ?_
    rintro rfl
    exact absurd hle (by simp)
  · have hle : s.placements.length + 3 ≤ id.index := by
      simpa [addPlacements, assignJunction, reportAlias, report] using hid
    rw [← h.junctionKeys id (by omega)]
    refine AliasPool.get?_take_ne _ ?_
    rintro rfl
    exact absurd hle (by simp)
  · rw [joinedAliases_addPlacements]
    have hperm : (s.joinedAliases ++ [(s.junctionAliases.take ⟨s.placements.length⟩).1] ++
        [name]).Perm (preferred ++ step.preferredAlias.toList ++ (pool.numbered ++
          (s.junctionAliases.take ⟨s.placements.length⟩).2.numbered)) := by
      rw [hjunction]
      exact perm_of_assigned (perm_of_junction h.aliases) haliases
    rw [List.append_assoc] at hperm
    exact hperm

theorem Numbered.place (h : s.Numbered preferred) (step : Step) {previous : Option PlacementId}
    (settled : (s.originAlias previous).2 = s) :
    (s.place step previous).2.Numbered (preferred ++ step.preferredAlias.toList) := by
  cases hj : (s.schema.association step.association).junction with
  | none => exact h.place_direct settled hj
  | some j => exact h.place_junction settled hj

theorem Numbered.placeAll (h : s.Numbered preferred) (steps : List Step)
    {previous : Option PlacementId} (settled : (s.originAlias previous).2 = s) :
    (s.placeAll steps previous).2.Numbered (preferred ++ steps.filterMap Step.preferredAlias) := by
  induction steps generalizing s preferred previous with
  | nil =>
    rw [List.filterMap_nil, List.append_nil]
    exact h
  | cons step steps ih =>
    obtain ⟨destination, -, hget⟩ := (s.placedAfter_place step previous).stands
    have hcons : (step :: steps).filterMap Step.preferredAlias =
        step.preferredAlias.toList ++ steps.filterMap Step.preferredAlias := by
      rw [List.filterMap_eq_flatMap_toList, List.flatMap_cons, ← List.filterMap_eq_flatMap_toList]
    rw [placeAll_cons, hcons, ← List.append_assoc]
    exact ih (h.place step settled) (congrArg Prod.snd (takeAlias_of_some hget))

/-! ## Joining -/

/-- The steps of a path that are placed anew. -/
def newSteps (s : Session) (path : List Step) : List Step :=
  path.drop (s.sharedPlacements path).length

/-- In an anchored session what a path reuses ends at an alias that is there. -/
theorem Anchored.settled (hs : s.Routed) (ha : s.Anchored) (path : List Step) :
    (s.originAlias (s.endOf (s.reused path))).2 = s := by
  by_cases hne : s.reused path = []
  · rw [hne]
    rfl
  · obtain ⟨id, middle, hend, hget, -⟩ := (ha.reused_chained hs path).append hne
    rw [hend]
    exact congrArg Prod.snd (takeAlias_of_some hget)

theorem Numbered.placeRest (h : s.Numbered preferred) (hs : s.Routed) (ha : s.Anchored)
    (path : List Step) : (s.placeRest path).2.Numbered
      (preferred ++ (s.newSteps path).filterMap Step.preferredAlias) :=
  h.placeAll (s.newSteps path) (ha.settled hs path)

end Session

end JoinPath
