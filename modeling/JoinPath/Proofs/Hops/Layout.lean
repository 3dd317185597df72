import JoinPath.Proofs.Lists
import JoinPath.Session.Hops
/-!
# The layout of hops

The hops of a session come in groups, one for each placement in the order in which the placements
are first visited by the recorded joins. The first visit makes the hops of its group; each later
visit adds its condition to the hop that the placement ends at (`placedHops_eq`).
-/

namespace JoinPath

/-- A placed step of a recorded join. -/
structure Visit where
  id : PlacementId
  step : Step
  fetch : Bool

def Join.visits (join : Join) : List Visit :=
  join.path.filterMap fun step => step.placement.map fun id => ⟨id, step, join.fetch⟩

/-- Adds the condition of a visit to a hop. -/
def Hop.restrictBy (h : Hop Criteria) (v : Visit) : Hop Criteria :=
  match v.step.criteria with
  | some criteria => h.restrict criteria
  | none => h

/-- The visits of a placement. -/
def Visit.sharing (visits : List Visit) (id : PlacementId) : List Visit :=
  visits.filter fun v => v.id = id

namespace Session

/-- The placed steps of all joins in the order of the joins. -/
def visits (s : Session) : List Visit := s.joins.flatMap Join.visits

/-- The hops after a visit. -/
def visit (s : Session) (hops : List PlacedHop) (v : Visit) : List PlacedHop :=
  s.addHops hops v.step v.id v.fetch

/-- The columns that are selected after a visit. -/
def selectMore (s : Session) (columns : List ColumnRef) (v : Visit) : List ColumnRef :=
  addColumns columns (s.selectedColumns v.step v.id v.fetch)

/-- The hops that the visits of one placement make. -/
def groupOf (s : Session) : List Visit → List PlacedHop
  | [] => []
  | v :: later => modifyHop v.id (later.foldl Hop.restrictBy) (s.newHops v.step v.id v.fetch)

/-! ## Visits -/

theorem foldl_addStep (s : Session) (join : Join) (acc : List PlacedHop × List ColumnRef) :
    join.path.foldl (s.addStep join.fetch) acc =
      (join.visits.foldl s.visit acc.1, join.visits.foldl s.selectMore acc.2) := by
  unfold Join.visits
  induction join.path generalizing acc with
  | nil => rfl
  | cons step path ih =>
    rw [List.foldl_cons, ih]
    cases h : step.placement with
    | none => simp [addStep, h]
    | some id => simp [addStep, h, visit, selectMore]

/-- The hops and the columns of a session come from its visits. -/
theorem placedHops_of_visits (s : Session) :
    s.placedHops = (s.visits.foldl s.visit [], s.visits.foldl s.selectMore []) := by
  have each (joins : List Join) (acc : List PlacedHop × List ColumnRef) :
      joins.foldl (fun acc join => join.path.foldl (s.addStep join.fetch) acc) acc =
        ((joins.flatMap Join.visits).foldl s.visit acc.1,
          (joins.flatMap Join.visits).foldl s.selectMore acc.2) := by
    induction joins generalizing acc with
    | nil => rfl
    | cons join joins ih =>
      rw [List.foldl_cons, ih, foldl_addStep, List.flatMap_cons, List.foldl_append,
        List.foldl_append]
  exact each s.joins ([], [])

theorem placedHops_fst (s : Session) : s.placedHops.1 = s.visits.foldl s.visit [] :=
  congrArg Prod.fst s.placedHops_of_visits

theorem joinedColumns_eq (s : Session) : s.joinedColumns = s.visits.foldl s.selectMore [] :=
  congrArg Prod.snd s.placedHops_of_visits

/-! ## Changing the hop of a placement -/

theorem modifyHop_modifyHop (id : PlacementId) (f g : Hop Criteria → Hop Criteria)
    (hops : List PlacedHop) :
    modifyHop id f (modifyHop id g hops) = modifyHop id (fun h => f (g h)) hops := by
  unfold modifyHop
  rw [List.map_map]
  apply List.map_congr_left
  intro x _
  by_cases h : x.1 = some id <;> simp [h]

theorem modifyHop_of_not_owned {id : PlacementId} {hops : List PlacedHop}
    (h : ∀ x ∈ hops, x.1 ≠ some id) (f : Hop Criteria → Hop Criteria) :
    modifyHop id f hops = hops := by
  unfold modifyHop
  refine (List.map_congr_left fun x hx => ?_).trans (List.map_id hops)
  obtain ⟨owner, hop⟩ := x
  exact if_neg (h _ hx)

theorem modifyHop_self (id : PlacementId) (hops : List PlacedHop) :
    modifyHop id (fun h => h) hops = hops := by
  unfold modifyHop
  refine (List.map_congr_left fun x _ => ?_).trans (List.map_id hops)
  obtain ⟨owner, hop⟩ := x
  exact ite_self _

theorem modifyHop_flatMap {α : Type} (id : PlacementId) (f : Hop Criteria → Hop Criteria)
    (l : List α) (g : α → List PlacedHop) :
    modifyHop id f (l.flatMap g) = l.flatMap fun x => modifyHop id f (g x) :=
  List.map_flatMap

theorem modifyHop_owners (id : PlacementId) (f : Hop Criteria → Hop Criteria)
    (hops : List PlacedHop) : (modifyHop id f hops).map Prod.fst = hops.map Prod.fst := by
  unfold modifyHop
  rw [List.map_map]
  apply List.map_congr_left
  intro x _
  simp only [Function.comp_apply]
  split <;> rfl

variable {s : Session}

/-- A visit of a placement that has hops changes them. -/
theorem visit_of_owned {hops : List PlacedHop} {v : Visit} (h : some v.id ∈ hops.map Prod.fst) :
    s.visit hops v = modifyHop v.id (·.restrictBy v) hops := by
  have hany : hops.any (·.1 = some v.id) = true := by simpa using h
  unfold visit addHops Hop.restrictBy
  rw [if_pos hany]
  cases v.step.criteria with
  | none => exact (modifyHop_self _ _).symm
  | some criteria => rfl

theorem visit_of_not_owned {hops : List PlacedHop} {v : Visit}
    (h : some v.id ∉ hops.map Prod.fst) :
    s.visit hops v = hops ++ s.newHops v.step v.id v.fetch := by
  have hany : hops.any (·.1 = some v.id) = false := by
    rw [List.any_eq_false]
    intro x hx howner
    exact h (of_decide_eq_true howner ▸ List.mem_map_of_mem hx)
  unfold visit addHops
  rw [hany]
  rfl

/-! ## Groups -/

theorem newHops_owners (step : Step) (id : PlacementId) (fetch : Bool) :
    (s.newHops step id fetch).map Prod.fst = [some id] ∨
      (s.newHops step id fetch).map Prod.fst = [none, some id] := by
  unfold newHops
  dsimp only
  split
  · exact .inr rfl
  · exact .inl rfl

/-- The owner of a group is the placement that its visits share. -/
theorem groupOf_owners {id : PlacementId} {vs : List Visit} (h : ∀ v ∈ vs, v.id = id)
    (hne : vs ≠ []) :
    (s.groupOf vs).map Prod.fst = [some id] ∨ (s.groupOf vs).map Prod.fst = [none, some id] := by
  cases vs with
  | nil => exact absurd rfl hne
  | cons v later =>
    have hid : v.id = id := h v List.mem_cons_self
    rw [groupOf, modifyHop_owners, ← hid]
    exact newHops_owners _ _ _

theorem mem_groupOf_owners {id owner : PlacementId} {vs : List Visit} (h : ∀ v ∈ vs, v.id = id) :
    some owner ∈ (s.groupOf vs).map Prod.fst ↔ vs ≠ [] ∧ owner = id := by
  by_cases hne : vs = []
  · subst hne
    simp [groupOf]
  · rcases groupOf_owners (s := s) h hne with ho | ho <;> simp [ho, hne]

theorem groupOf_concat {vs : List Visit} {v : Visit} (hne : vs ≠ []) (h : ∀ w ∈ vs, w.id = v.id) :
    s.groupOf (vs ++ [v]) = modifyHop v.id (·.restrictBy v) (s.groupOf vs) := by
  cases vs with
  | nil => exact absurd rfl hne
  | cons w later =>
    have hid : w.id = v.id := h w List.mem_cons_self
    rw [List.cons_append, groupOf, groupOf, ← hid, modifyHop_modifyHop]
    simp only [List.foldl_append, List.foldl_cons, List.foldl_nil]

/-- The hop at which a placement ends. -/
def endHop (s : Session) (v : Visit) (later : List Visit) : Hop Criteria :=
  later.foldl Hop.restrictBy
    (s.hopOf (s.terminal v.id) v.step.kind v.step.criteria v.fetch)

/-- The alias of the table that a placement ends at. -/
def finalAlias (s : Session) (id : PlacementId) : String :=
  (s.placement (s.terminal id)).destinationAlias

/-- Further visits leave all of a hop but its condition. -/
theorem foldl_restrictBy (h : Hop Criteria) (later : List Visit) :
    later.foldl Hop.restrictBy h = { h with on := (later.foldl Hop.restrictBy h).on } := by
  induction later generalizing h with
  | nil => rfl
  | cons v later ih =>
    have hv : h.restrictBy v = { h with on := (h.restrictBy v).on } := by
      unfold Hop.restrictBy
      cases v.step.criteria <;> rfl
    rw [List.foldl_cons, ih, hv]

theorem tableAlias_endHop (s : Session) (v : Visit) (later : List Visit) :
    (s.endHop v later).tableAlias = s.finalAlias v.id :=
  congrArg Hop.tableAlias (foldl_restrictBy _ later)

theorem groupOf_of_direct {v : Visit} (h : (s.placement v.id).halves = none)
    (later : List Visit) : s.groupOf (v :: later) = [(some v.id, s.endHop v later)] := by
  simp only [groupOf, newHops, h, modifyHop, List.map_cons, List.map_nil, if_true]
  rfl

theorem groupOf_of_halves {v : Visit} {first second : PlacementId}
    (h : (s.placement v.id).halves = some (first, second)) (later : List Visit) :
    s.groupOf (v :: later) =
      [(none, s.hopOf first v.step.kind none false), (some v.id, s.endHop v later)] := by
  simp only [groupOf, newHops, h, modifyHop, List.map_cons, List.map_nil, if_true, reduceCtorEq,
    if_false]
  rfl

theorem id_of_mem_sharing {visits : List Visit} {id : PlacementId} :
    ∀ v ∈ Visit.sharing visits id, v.id = id := by
  intro v hv
  simpa using (List.mem_filter.1 hv).2

theorem sharing_ne_nil {visits : List Visit} {id : PlacementId} :
    Visit.sharing visits id ≠ [] ↔ id ∈ visits.map Visit.id := by
  simp [Visit.sharing, List.filter_eq_nil_iff]

/-- The first visit of a visited placement, and the later ones. -/
theorem exists_first_visit {visits : List Visit} {id : PlacementId}
    (h : id ∈ visits.map Visit.id) :
    ∃ v later, Visit.sharing visits id = v :: later ∧ v.id = id := by
  obtain ⟨v, later, hv⟩ := List.exists_cons_of_ne_nil (sharing_ne_nil.2 h)
  exact ⟨v, later, hv, id_of_mem_sharing v (hv ▸ List.mem_cons_self)⟩

theorem sharing_concat_self (visits : List Visit) (v : Visit) :
    Visit.sharing (visits ++ [v]) v.id = Visit.sharing visits v.id ++ [v] := by
  simp [Visit.sharing]

theorem sharing_concat_of_ne {visits : List Visit} {v : Visit} {id : PlacementId} (h : v.id ≠ id) :
    Visit.sharing (visits ++ [v]) id = Visit.sharing visits id := by
  simp [Visit.sharing, h]

/-- The groups of the placements that were visited, in the order of the first visits. -/
def groups (s : Session) (visits : List Visit) : List PlacedHop :=
  (visits.map Visit.id).eraseDups.flatMap fun id => s.groupOf (Visit.sharing visits id)

theorem mem_groups_owners {visits : List Visit} {owner : PlacementId} :
    some owner ∈ (s.groups visits).map Prod.fst ↔ owner ∈ visits.map Visit.id := by
  unfold groups
  rw [List.map_flatMap, List.mem_flatMap]
  constructor
  · rintro ⟨id, hid, hmem⟩
    obtain ⟨-, rfl⟩ := (mem_groupOf_owners id_of_mem_sharing).1 hmem
    exact List.mem_eraseDups.1 hid
  · intro h
    exact ⟨owner, List.mem_eraseDups.2 h,
      (mem_groupOf_owners id_of_mem_sharing).2 ⟨sharing_ne_nil.2 h, rfl⟩⟩

/-- A visit keeps the groups of all other placements. -/
theorem groupOf_sharing_concat {visits : List Visit} {v : Visit} {id : PlacementId}
    (h : id ∈ visits.map Visit.id) :
    s.groupOf (Visit.sharing (visits ++ [v]) id) =
      modifyHop v.id (·.restrictBy v) (s.groupOf (Visit.sharing visits id)) := by
  by_cases hid : v.id = id
  · subst hid
    rw [sharing_concat_self, groupOf_concat (sharing_ne_nil.2 h) id_of_mem_sharing]
  · rw [sharing_concat_of_ne hid, modifyHop_of_not_owned]
    intro x hx howner
    have hmem : some v.id ∈ (s.groupOf (Visit.sharing visits id)).map Prod.fst :=
      howner ▸ List.mem_map_of_mem hx
    exact hid ((mem_groupOf_owners id_of_mem_sharing).1 hmem).2

theorem groups_concat (visits : List Visit) (v : Visit) :
    s.groups (visits ++ [v]) = s.visit (s.groups visits) v := by
  by_cases h : v.id ∈ visits.map Visit.id
  · rw [visit_of_owned (mem_groups_owners.2 h), groups, List.map_append, List.map_singleton,
      eraseDups_concat_of_mem h, groups, modifyHop_flatMap]
    apply List.flatMap_congr
    intro id hid
    exact groupOf_sharing_concat (List.mem_eraseDups.1 hid)
  · have hfirst : Visit.sharing visits v.id = [] := by
      by_contra hne
      exact h (sharing_ne_nil.1 hne)
    have hothers : ∀ id ∈ (visits.map Visit.id).eraseDups,
        s.groupOf (Visit.sharing (visits ++ [v]) id) = s.groupOf (Visit.sharing visits id) := by
      intro id hid
      have hne : v.id ≠ id := by
        rintro rfl
        exact h (List.mem_eraseDups.1 hid)
      rw [sharing_concat_of_ne hne]
    rw [visit_of_not_owned (mt mem_groups_owners.1 h), groups, List.map_append, List.map_singleton,
      eraseDups_concat_of_not_mem h, List.flatMap_append, List.flatMap_congr hothers,
      List.flatMap_singleton, sharing_concat_self, hfirst]
    exact congrArg _ (modifyHop_self _ _)

/-- The hops of a session are the groups of its placements. -/
theorem placedHops_eq (s : Session) : s.placedHops.1 = s.groups s.visits := by
  rw [placedHops_fst]
  generalize s.visits = visits
  induction visits using List.reverseRecOn with
  | nil => rfl
  | append_singleton visits v ih => rw [List.foldl_append, ih, groups_concat]; rfl

/-- Every hop comes from the visits of one placement: it is the hop that the placement ends at, or
that of the junction table on the way, which takes no condition. -/
theorem placedHops_cases {owner : Option PlacementId} {hop : Hop Criteria}
    (h : (owner, hop) ∈ s.placedHops.1) :
    ∃ v later, Visit.sharing s.visits v.id = v :: later ∧
      ((owner = some v.id ∧ hop = s.endHop v later) ∨
        (owner = none ∧ ∃ first, hop = s.hopOf first v.step.kind none false)) := by
  rw [placedHops_eq] at h
  obtain ⟨id, hid, hgroup⟩ := List.mem_flatMap.1 h
  obtain ⟨v, later, hsharing, rfl⟩ := exists_first_visit (List.mem_eraseDups.1 hid)
  rw [hsharing] at hgroup
  refine ⟨v, later, hsharing, ?_⟩
  cases hhalves : (s.placement v.id).halves with
  | none =>
    rw [groupOf_of_direct hhalves, List.mem_singleton] at hgroup
    obtain ⟨rfl, rfl⟩ := Prod.mk.inj hgroup
    exact .inl ⟨rfl, rfl⟩
  | some halves =>
    rw [groupOf_of_halves hhalves] at hgroup
    rcases List.mem_cons.1 hgroup with hgroup | hgroup
    · obtain ⟨rfl, rfl⟩ := Prod.mk.inj hgroup
      exact .inr ⟨rfl, _, rfl⟩
    · obtain ⟨rfl, rfl⟩ := Prod.mk.inj (List.mem_singleton.1 hgroup)
      exact .inl ⟨rfl, rfl⟩

/-- The hops of a placement. -/
def hopsOf (s : Session) (id : PlacementId) : List (Hop Criteria) :=
  (s.groupOf (Visit.sharing s.visits id)).map Prod.snd

theorem hops_eq_flatMap (s : Session) :
    s.hops = (s.visits.map Visit.id).eraseDups.flatMap s.hopsOf := by
  rw [hops, placedHops_eq, groups, List.map_flatMap]
  rfl

end Session

end JoinPath
