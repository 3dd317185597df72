import JoinPath.Proofs.Path.Placed
import JoinPath.Proofs.Session.Frame
/-!
# Standing paths

A resolved path stands in its session: each of its steps has a placement of its association that
starts at the alias where the step before it ends. Later calls add placements and keep aliases
(`Extends`), so what stands remains standing. Placing steps one after the other makes them stand
(`placeAll_chained`) on placements that were not there before.
-/

namespace JoinPath.Session

/-! ## Extension -/

/-- The second session has the placements of the first and keeps their aliases. -/
structure Extends (s t : Session) : Prop where
  schema : t.schema = s.schema
  placements : s.placements <+: t.placements
  aliases : ∀ id : PlacementId, id.index < s.placements.length → ∀ a,
    s.joinAliases.get? id = some a → t.joinAliases.get? id = some a

theorem Extends.refl (s : Session) : s.Extends s :=
  ⟨rfl, List.prefix_refl _, fun _ _ _ h => h⟩

theorem Extends.trans {s t u : Session} (hst : s.Extends t) (htu : t.Extends u) : s.Extends u where
  schema := htu.schema.trans hst.schema
  placements := hst.placements.trans htu.placements
  aliases id h a ha :=
    htu.aliases id (Nat.lt_of_lt_of_le h hst.placements.length_le) a (hst.aliases id h a ha)

theorem Extends.length_le {s t : Session} (h : s.Extends t) :
    s.placements.length ≤ t.placements.length :=
  h.placements.length_le

theorem get?_take_of_some {p : AliasPool} {id : PlacementId} {a : String}
    (h : p.get? id = some a) (other : PlacementId) : (p.take other).2.get? id = some a := by
  unfold AliasPool.take
  cases ho : p.get? other with
  | some name => exact h
  | none =>
    have hne : id ≠ other := by
      rintro rfl
      rw [ho] at h
      cases h
    exact (AliasPool.get?_register p other _ id).trans ((if_neg hne).trans h)

theorem extends_takeAlias (s : Session) (id : PlacementId) : s.Extends (s.takeAlias id).2 := by
  unfold takeAlias
  split
  · exact Extends.refl s
  · exact ⟨rfl, List.prefix_refl _, fun _ _ _ h => get?_take_of_some h id⟩

theorem extends_originAlias (s : Session) (previous : Option PlacementId) :
    s.Extends (s.originAlias previous).2 := by
  cases previous with
  | none => exact Extends.refl s
  | some id => exact s.extends_takeAlias id

/-- An alias that is there is taken as it is. -/
theorem takeAlias_of_some {s : Session} {id : PlacementId} {a : String}
    (h : s.joinAliases.get? id = some a) : s.takeAlias id = (a, s) := by
  simp only [takeAlias, aliasOf?, h, Option.some_or]

/-! ## Standing -/

/-- `id` is the association `a` between two aliases; one through a junction table stands with both
its halves, chained through an alias of the junction table. -/
def Stands (s : Session) (a : AssociationId) (id : PlacementId) (origin destination : String) :
    Prop :=
  match (s.schema.association a).junction with
  | none =>
    s.placements[id.index]? =
      some (placeBetween (s.schema.association a) id origin destination none)
  | some j =>
    ∃ n junction, id = ⟨n + 2⟩ ∧
      s.placements[n]? =
        some (placeBetween (s.schema.association j.inward) ⟨n⟩ origin junction none) ∧
      s.placements[n + 1]? =
        some (placeBetween (s.schema.association j.outward) ⟨n + 1⟩ junction destination none) ∧
      s.placements[n + 2]? =
        some (placeBetween (s.schema.association a) ⟨n + 2⟩ origin destination
          (some (⟨n⟩, ⟨n + 1⟩)))

variable {s t : Session} {a : AssociationId} {id : PlacementId} {origin destination : String}

theorem Stands.extends (h : s.Stands a id origin destination) (hst : s.Extends t) :
    t.Stands a id origin destination := by
  unfold Stands at h ⊢
  rw [hst.schema]
  split at h
  · exact getElem?_of_begins hst.placements h
  · obtain ⟨n, junction, hid, hfirst, hsecond, hwhole⟩ := h
    exact ⟨n, junction, hid, getElem?_of_begins hst.placements hfirst,
      getElem?_of_begins hst.placements hsecond, getElem?_of_begins hst.placements hwhole⟩

/-- A standing step is placed between its aliases. -/
theorem Stands.exists_getElem? (h : s.Stands a id origin destination) :
    ∃ halves, s.placements[id.index]? =
      some (placeBetween (s.schema.association a) id origin destination halves) := by
  unfold Stands at h
  split at h
  · exact ⟨none, h⟩
  · obtain ⟨n, junction, rfl, -, -, hwhole⟩ := h
    exact ⟨_, hwhole⟩

theorem Stands.index_lt (h : s.Stands a id origin destination) :
    id.index < s.placements.length := by
  obtain ⟨halves, hget⟩ := h.exists_getElem?
  exact (List.getElem?_eq_some_iff.1 hget).1

theorem placement_eq {s : Session} (id : PlacementId) {p : Placement}
    (h : s.placements[id.index]? = some p) : s.placement id = p := by
  rw [placement, h, Option.getD_some]

theorem Stands.exists_placement (h : s.Stands a id origin destination) :
    ∃ halves, s.placement id =
      placeBetween (s.schema.association a) id origin destination halves := by
  obtain ⟨halves, hget⟩ := h.exists_getElem?
  exact ⟨halves, placement_eq id hget⟩

/-- A placement stays what it is when others come after it. -/
theorem placement_of_begins (h : s.placements <+: t.placements)
    (hlt : id.index < s.placements.length) : t.placement id = s.placement id := by
  have hid : s.placements[id.index]? = some s.placements[id.index] := List.getElem?_eq_getElem hlt
  rw [placement_eq id hid, placement_eq id (getElem?_of_begins h hid)]

theorem Stands.placement_of_direct (h : s.Stands a id origin destination)
    (hj : (s.schema.association a).junction = none) :
    s.placement id = placeBetween (s.schema.association a) id origin destination none := by
  unfold Stands at h
  rw [hj] at h
  exact placement_eq id h

theorem Stands.placement_of_junction (h : s.Stands a id origin destination) {j : Junction}
    (hj : (s.schema.association a).junction = some j) :
    ∃ n junction, id = ⟨n + 2⟩ ∧
      s.placement ⟨n⟩ =
        placeBetween (s.schema.association j.inward) ⟨n⟩ origin junction none ∧
      s.placement ⟨n + 1⟩ =
        placeBetween (s.schema.association j.outward) ⟨n + 1⟩ junction destination none ∧
      s.placement ⟨n + 2⟩ =
        placeBetween (s.schema.association a) ⟨n + 2⟩ origin destination
          (some (⟨n⟩, ⟨n + 1⟩)) := by
  unfold Stands at h
  rw [hj] at h
  obtain ⟨n, junction, hid, hfirst, hsecond, hwhole⟩ := h
  exact ⟨n, junction, hid, placement_eq ⟨n⟩ hfirst, placement_eq ⟨n + 1⟩ hsecond,
    placement_eq ⟨n + 2⟩ hwhole⟩

theorem Stands.terminal_of_direct (h : s.Stands a id origin destination)
    (hj : (s.schema.association a).junction = none) : s.terminal id = id := by
  rw [terminal, h.placement_of_direct hj]
  rfl

/-- A placement through a junction table ends where its second half does. -/
theorem Stands.halves_of_junction (h : s.Stands a id origin destination) {j : Junction}
    (hj : (s.schema.association a).junction = some j) :
    ∃ first junction, (s.placement id).halves = some (first, s.terminal id) ∧
      s.placement first =
        placeBetween (s.schema.association j.inward) first origin junction none ∧
      s.placement (s.terminal id) =
        placeBetween (s.schema.association j.outward) (s.terminal id) junction destination
          none := by
  obtain ⟨n, junction, rfl, hfirst, hsecond, hwhole⟩ := h.placement_of_junction hj
  have hterminal : s.terminal ⟨n + 2⟩ = ⟨n + 1⟩ := by
    rw [terminal, hwhole]
    rfl
  refine ⟨⟨n⟩, junction, ?_, hfirst, ?_⟩
  · rw [hterminal, hwhole]
    rfl
  · rw [hterminal]
    exact hsecond

/-- A standing step ends where its terminal placement does. -/
theorem Stands.exists_terminal (h : s.Stands a id origin destination) :
    ∃ p, s.placements[(s.terminal id).index]? = some p ∧ p.destinationAlias = destination := by
  unfold Stands at h
  split at h
  · rw [terminal, placement_eq id h]
    exact ⟨_, h, rfl⟩
  · obtain ⟨n, junction, rfl, -, hsecond, hwhole⟩ := h
    rw [terminal, placement_eq ⟨n + 2⟩ hwhole]
    exact ⟨_, hsecond, rfl⟩

theorem Stands.terminal_index_lt (h : s.Stands a id origin destination) :
    (s.terminal id).index < s.placements.length := by
  obtain ⟨p, hget, -⟩ := h.exists_terminal
  exact (List.getElem?_eq_some_iff.1 hget).1

theorem Stands.destinationAlias_eq (h : s.Stands a id origin destination) :
    (s.placement (s.terminal id)).destinationAlias = destination := by
  obtain ⟨p, hget, halias⟩ := h.exists_terminal
  rw [placement_eq _ hget, halias]

theorem Stands.first_index_lt (h : s.Stands a id origin destination) {first second : PlacementId}
    (hhalves : (s.placement id).halves = some (first, second)) :
    first.index < s.placements.length := by
  cases hj : (s.schema.association a).junction with
  | none =>
    rw [h.placement_of_direct hj] at hhalves
    cases hhalves
  | some j =>
    have hlt := h.index_lt
    obtain ⟨n, junction, rfl, -, -, hplacement⟩ := h.placement_of_junction hj
    rw [hplacement] at hhalves
    obtain ⟨rfl, -⟩ := Prod.mk.inj (Option.some.inj hhalves)
    dsimp only at hlt ⊢
    omega

/-! ## Placing -/

theorem assignDestination_get? (s : Session) (a : Association) (id : PlacementId)
    (preferred : Option String) :
    (s.assignDestination a id preferred).2.joinAliases.get? id =
      some (s.assignDestination a id preferred).1 := by
  cases preferred with
  | some name => exact (AliasPool.get?_register _ _ _ _).trans (if_pos rfl)
  | none => exact AliasPool.get?_take _ _

theorem extends_assignDestination (s : Session) (a : Association) {id : PlacementId}
    (hid : s.placements.length ≤ id.index) (preferred : Option String) :
    s.Extends (s.assignDestination a id preferred).2 := by
  refine ⟨?_, ?_, fun other hother name h => ?_⟩
  · cases preferred <;> rfl
  · cases preferred <;> exact List.prefix_refl _
  · cases preferred with
    | some _ =>
      have hne : other ≠ id := by
        rintro rfl
        omega
      exact (AliasPool.get?_register _ _ _ _).trans ((if_neg hne).trans h)
    | none => exact get?_take_of_some h id

theorem extends_assignJunction (s : Session) (a : Association) (id : PlacementId) :
    s.Extends (s.assignJunction a id).2 :=
  ⟨rfl, List.prefix_refl _, fun _ _ _ h => h⟩

theorem extends_addPlacements (s : Session) (ps : List Placement) :
    s.Extends (s.addPlacements ps) :=
  ⟨rfl, List.prefix_append _ _, fun _ _ _ h => h⟩

/-- What placing a step after `previous` gives: the last place of the session, standing at the
alias of `previous`, with the alias where it ends in the pool. -/
structure PlacedAfter (s : Session) (step : Step) (previous : Option PlacementId)
    (r : PlacementId × Session) : Prop where
  larger : s.Extends r.2
  fresh : s.placements.length ≤ r.1.index
  last : r.1.index + 1 = r.2.placements.length
  stands : ∃ destination,
    r.2.Stands step.association r.1 (s.originAlias previous).1 destination ∧
      r.2.joinAliases.get? (r.2.terminal r.1) = some destination

theorem placements_originAlias (s : Session) (previous : Option PlacementId) :
    (s.originAlias previous).2.placements = s.placements := by
  obtain ⟨pool, h⟩ := s.originAlias_frame previous
  rw [h]

theorem placements_assignDestination (s : Session) (a : Association) (id : PlacementId)
    (preferred : Option String) :
    (s.assignDestination a id preferred).2.placements = s.placements := by
  cases preferred <;> rfl

theorem log_originAlias (s : Session) (previous : Option PlacementId) :
    (s.originAlias previous).2.log = s.log := by
  obtain ⟨pool, h⟩ := s.originAlias_frame previous
  rw [h]

theorem place_of_direct {s : Session} {step : Step}
    (h : (s.schema.association step.association).junction = none)
    (previous : Option PlacementId) :
    ∃ destination t, s.place step previous = (⟨s.placements.length⟩, t.addPlacements
        [placeBetween (s.schema.association step.association) ⟨s.placements.length⟩
          (s.originAlias previous).1 destination none]) ∧
      s.Extends t ∧ t.placements = s.placements ∧
      t.joinAliases.get? ⟨s.placements.length⟩ = some destination ∧
      t.log = s.log ++
        [.aliasAssigned (s.schema.association step.association).name destination] := by
  have hop := s.placements_originAlias previous
  refine ⟨((s.originAlias previous).2.assignDestination (s.schema.association step.association)
    ⟨s.placements.length⟩ step.preferredAlias).1, _, by simp only [place, h],
    (s.extends_originAlias previous).trans ?_, ?_, assignDestination_get? _ _ _ _,
    congrArg (· ++ _) (s.log_originAlias previous)⟩
  · exact extends_assignDestination _ _ (Nat.le_of_eq (congrArg List.length hop)) _
  · rw [placements_assignDestination, hop]

theorem place_of_junction {s : Session} {step : Step} {j : Junction}
    (h : (s.schema.association step.association).junction = some j)
    (previous : Option PlacementId) :
    ∃ junction destination t, s.place step previous = (⟨s.placements.length + 2⟩, t.addPlacements
        [placeBetween (s.schema.association j.inward) ⟨s.placements.length⟩
            (s.originAlias previous).1 junction none,
          placeBetween (s.schema.association j.outward) ⟨s.placements.length + 1⟩ junction
            destination none,
          placeBetween (s.schema.association step.association) ⟨s.placements.length + 2⟩
            (s.originAlias previous).1 destination
            (some (⟨s.placements.length⟩, ⟨s.placements.length + 1⟩))]) ∧
      s.Extends t ∧ t.placements = s.placements ∧
      t.joinAliases.get? ⟨s.placements.length + 1⟩ = some destination ∧
      t.log = s.log ++ [.aliasAssigned (s.schema.association j.inward).name junction,
        .aliasAssigned (s.schema.association j.outward).name destination] := by
  have hs : (s.originAlias previous).2.schema = s.schema := (s.extends_originAlias previous).schema
  have hop := s.placements_originAlias previous
  let middle := (s.originAlias previous).2.assignJunction (s.schema.association j.inward)
    ⟨s.placements.length⟩
  let ending := middle.2.assignDestination (s.schema.association j.outward)
    ⟨s.placements.length + 1⟩ step.preferredAlias
  have hmiddle : (s.originAlias previous).2.Extends middle.2 := extends_assignJunction _ _ _
  have hending : middle.2.Extends ending.2 := by
    apply extends_assignDestination
    exact Nat.le_succ_of_le (Nat.le_of_eq (congrArg List.length hop))
  refine ⟨middle.1, ending.1, ending.2, by simp only [place, h, hs, middle, ending],
    (s.extends_originAlias previous).trans (hmiddle.trans hending), ?_,
    assignDestination_get? _ _ _ _, ?_⟩
  · show (middle.2.assignDestination _ _ _).2.placements = _
    rw [placements_assignDestination]
    exact hop
  · show (s.originAlias previous).2.log ++ [_] ++ [_] = _
    rw [log_originAlias, List.append_assoc]
    rfl

theorem stands_of_direct (hs : t.schema = s.schema)
    (h : (s.schema.association a).junction = none)
    (hp : t.placements = s.placements ++
      [placeBetween (s.schema.association a) ⟨s.placements.length⟩ origin destination none]) :
    t.Stands a ⟨s.placements.length⟩ origin destination ∧
      t.terminal ⟨s.placements.length⟩ = ⟨s.placements.length⟩ := by
  have hget : t.placements[s.placements.length]? =
      some (placeBetween (s.schema.association a) ⟨s.placements.length⟩ origin destination
        none) := by
    rw [hp, List.getElem?_concat_length]
  constructor
  · unfold Stands
    rw [hs, h]
    exact hget
  · rw [terminal, placement_eq ⟨s.placements.length⟩ hget]
    rfl

theorem stands_of_junction {j : Junction} {junction : String} (hs : t.schema = s.schema)
    (h : (s.schema.association a).junction = some j)
    (hp : t.placements = s.placements ++
      [placeBetween (s.schema.association j.inward) ⟨s.placements.length⟩ origin junction none,
        placeBetween (s.schema.association j.outward) ⟨s.placements.length + 1⟩ junction destination
          none,
        placeBetween (s.schema.association a) ⟨s.placements.length + 2⟩ origin destination
          (some (⟨s.placements.length⟩, ⟨s.placements.length + 1⟩))]) :
    t.Stands a ⟨s.placements.length + 2⟩ origin destination ∧
      t.terminal ⟨s.placements.length + 2⟩ = ⟨s.placements.length + 1⟩ := by
  have hget (i : ℕ) : t.placements[s.placements.length + i]? =
      [placeBetween (s.schema.association j.inward) ⟨s.placements.length⟩ origin junction none,
        placeBetween (s.schema.association j.outward) ⟨s.placements.length + 1⟩ junction destination
          none,
        placeBetween (s.schema.association a) ⟨s.placements.length + 2⟩ origin destination
          (some (⟨s.placements.length⟩, ⟨s.placements.length + 1⟩))][i]? := by
    rw [hp, List.getElem?_append_right (Nat.le_add_right _ _), Nat.add_sub_cancel_left]
  constructor
  · unfold Stands
    rw [hs, h]
    exact ⟨s.placements.length, junction, rfl, hget 0, hget 1, hget 2⟩
  · rw [terminal, placement_eq ⟨s.placements.length + 2⟩ (hget 2)]
    rfl

theorem placedAfter_place (s : Session) (step : Step) (previous : Option PlacementId) :
    s.PlacedAfter step previous (s.place step previous) := by
  cases h : (s.schema.association step.association).junction with
  | none =>
    obtain ⟨destination, t, hplace, hst, hp, hget, -⟩ := place_of_direct h previous
    rw [hplace]
    obtain ⟨hstands, hterminal⟩ :=
      stands_of_direct (t := t.addPlacements _) hst.schema h (congrArg (· ++ _) hp)
    refine ⟨hst.trans (t.extends_addPlacements _), Nat.le_refl _, ?_, destination, hstands, ?_⟩
    · simp [addPlacements, hp]
    · rw [hterminal]
      exact hget
  | some j =>
    obtain ⟨junction, destination, t, hplace, hst, hp, hget, -⟩ := place_of_junction h previous
    rw [hplace]
    obtain ⟨hstands, hterminal⟩ :=
      stands_of_junction (t := t.addPlacements _) hst.schema h (congrArg (· ++ _) hp)
    refine ⟨hst.trans (t.extends_addPlacements _), Nat.le_add_right _ 2, ?_, destination,
      hstands, ?_⟩
    · simp [addPlacements, hp]
    · rw [hterminal]
      exact hget

/-! ## Chains -/

/-- The steps of a path stand one after the other, the first of them starting at `origin`, and the
aliases where they end are in the pool. -/
def Chained (s : Session) : String → List Step → Prop
  | _, [] => True
  | origin, step :: steps => ∃ id destination, step.placement = some id ∧
      s.Stands step.association id origin destination ∧
      s.joinAliases.get? (s.terminal id) = some destination ∧ s.Chained destination steps

theorem Stands.terminal_extends (h : s.Stands a id origin destination) (hst : s.Extends t) :
    t.terminal id = s.terminal id := by
  rw [terminal, terminal, placement_of_begins hst.placements h.index_lt]

/-- A step that stands before a chain begins a longer chain. -/
theorem Stands.chained_cons {step : Step} {path : List Step}
    (h : s.Stands step.association id origin destination) (hid : step.placement = some id)
    (hget : s.joinAliases.get? (s.terminal id) = some destination) (hst : s.Extends t)
    (hpath : t.Chained destination path) : t.Chained origin (step :: path) := by
  refine ⟨id, destination, hid, h.extends hst, ?_, hpath⟩
  rw [h.terminal_extends hst]
  exact hst.aliases _ h.terminal_index_lt _ hget

theorem Chained.extends {path : List Step} (h : s.Chained origin path) (hst : s.Extends t) :
    t.Chained origin path := by
  induction path generalizing origin with
  | nil => trivial
  | cons step path ih =>
    obtain ⟨id, destination, hid, hstands, hget, hrest⟩ := h
    exact hstands.chained_cons hid hget hst (ih hrest)

/-- What stands from the alias at which a chain ends continues the chain. -/
theorem Chained.append {p : List Step} (h : s.Chained origin p) (hne : p ≠ []) :
    ∃ id middle, s.endOf p = some id ∧ s.joinAliases.get? id = some middle ∧
      ∀ t q, s.Extends t → t.Chained middle q → t.Chained origin (p ++ q) := by
  induction p generalizing origin with
  | nil => exact absurd rfl hne
  | cons step p ih =>
    obtain ⟨id, destination, hid, hstands, hget, hrest⟩ := h
    by_cases hp : p = []
    · subst hp
      refine ⟨s.terminal id, destination, ?_, hget, fun t q hst hq => ?_⟩
      · simp [endOf, hid]
      · exact hstands.chained_cons hid hget hst hq
    · obtain ⟨last, middle, hend, hmiddle, hcont⟩ := ih hrest hp
      refine ⟨last, middle, ?_, hmiddle, fun t q hst hq => ?_⟩
      · rw [← hend, endOf, endOf, List.getLast?_cons_of_ne_nil hp]
      · exact hstands.chained_cons hid hget hst (hcont t q hst hq)

theorem placeAll_cons (s : Session) (step : Step) (steps : List Step)
    (previous : Option PlacementId) :
    s.placeAll (step :: steps) previous =
      ({ step with placement := some (s.place step previous).1 } ::
        ((s.place step previous).2.placeAll steps
          (some ((s.place step previous).2.terminal (s.place step previous).1))).1,
        ((s.place step previous).2.placeAll steps
          (some ((s.place step previous).2.terminal (s.place step previous).1))).2) := rfl

/-- Placing steps makes them stand on new places, one after the other. -/
theorem placeAll_chained (s : Session) (steps : List Step) (previous : Option PlacementId) :
    s.Extends (s.placeAll steps previous).2 ∧
      (s.placeAll steps previous).2.Chained (s.originAlias previous).1
        (s.placeAll steps previous).1 := by
  induction steps generalizing s previous with
  | nil => exact ⟨Extends.refl s, trivial⟩
  | cons step steps ih =>
    have hplaced := s.placedAfter_place step previous
    obtain ⟨destination, hstands, hget⟩ := hplaced.stands
    obtain ⟨hext, hchained⟩ := ih (s.place step previous).2
      (some ((s.place step previous).2.terminal (s.place step previous).1))
    have horigin : ((s.place step previous).2.originAlias
        (some ((s.place step previous).2.terminal (s.place step previous).1))).1 = destination :=
      congrArg Prod.fst (takeAlias_of_some hget)
    rw [horigin] at hchained
    rw [placeAll_cons]
    refine ⟨hplaced.larger.trans hext, Stands.chained_cons ?_ rfl hget hext hchained⟩
    exact hstands

/-- The places that steps receive are new and all different. -/
theorem placeAll_fresh (s : Session) (steps : List Step) (previous : Option PlacementId) :
    (∀ step ∈ (s.placeAll steps previous).1, ∀ id ∈ step.placement,
      s.placements.length ≤ id.index) ∧
      ((s.placeAll steps previous).1.map Step.placement).Nodup := by
  induction steps generalizing s previous with
  | nil => exact ⟨by simp [placeAll], List.nodup_nil⟩
  | cons step steps ih =>
    have hplaced := s.placedAfter_place step previous
    obtain ⟨hfresh, hnodup⟩ := ih (s.place step previous).2
      (some ((s.place step previous).2.terminal (s.place step previous).1))
    rw [placeAll_cons]
    constructor
    · intro placed hmem id hid
      rcases List.mem_cons.1 hmem with rfl | hmem
      · obtain rfl := Option.some.inj hid
        exact hplaced.fresh
      · exact Nat.le_trans hplaced.larger.length_le (hfresh placed hmem id hid)
    · refine List.nodup_cons.2 ⟨fun hmem => ?_, hnodup⟩
      obtain ⟨placed, hmem, hid⟩ := List.mem_map.1 hmem
      have hle := hfresh placed hmem _ hid
      have hlast := hplaced.last
      omega

end JoinPath.Session
