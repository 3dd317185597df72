import JoinPath.Proofs.Path.Additions
import JoinPath.Proofs.Path.Routes
import JoinPath.Proofs.Path.Standing
/-!
# Routed sessions

In a routed session the steps of the traversed paths are matched: one placement for each route, one
route for each placement. Resolving another path keeps that, since the steps that some traversed
path shares with it are taken from the deepest such path and the others are placed anew
(`Routed.resolve`). So every run of calls from a new session ends in a routed one.
-/

namespace JoinPath.Session

/-- A step that was placed stands in the session. -/
def IsStanding (s : Session) (step : Step) : Prop :=
  ∃ id origin destination, step.placement = some id ∧
    s.Stands step.association id origin destination

structure Routed (s : Session) : Prop where
  matched : Step.Matched (s.traversed.flatMap (Step.routes []))
  standing : ∀ path ∈ s.traversed, ∀ step ∈ path, s.IsStanding step
  recorded : ∀ join ∈ s.joins, ∃ path ∈ s.traversed,
    join.path.map Step.key <+: path.map Step.key

theorem IsStanding.extends {s t : Session} {step : Step} (h : s.IsStanding step)
    (hst : s.Extends t) : t.IsStanding step := by
  obtain ⟨id, origin, destination, hid, hstands⟩ := h
  exact ⟨id, origin, destination, hid, hstands.extends hst⟩

theorem Chained.isStanding {s : Session} {origin : String} {path : List Step}
    (h : s.Chained origin path) {step : Step} (hstep : step ∈ path) : s.IsStanding step := by
  induction path generalizing origin with
  | nil => simp at hstep
  | cons first path ih =>
    obtain ⟨id, destination, hid, hstands, -, hrest⟩ := h
    rcases List.mem_cons.1 hstep with rfl | hstep
    · exact ⟨id, origin, destination, hid, hstands⟩
    · exact ih hrest hstep

/-- The steps of a path that begins a traversed one, with their routes. -/
theorem mem_traversed_routes {s : Session} {c p : List Step} (hc : c ∈ s.traversed)
    (hp : p.map Step.key <+: c.map Step.key) {i : ℕ} (hi : i < p.length) :
    (Step.associations (p.take (i + 1)), p[i].placement) ∈
      s.traversed.flatMap (Step.routes []) :=
  List.mem_flatMap.2 ⟨c, hc, Step.routes_subset hp (Step.mem_routes.2 ⟨i, hi, rfl⟩)⟩

/-- Steps with one placement go along one association. -/
theorem Routed.association_eq {s : Session} (hs : s.Routed) {c c' : List Step}
    (hc : c ∈ s.traversed) (hc' : c' ∈ s.traversed) {step step' : Step} (hstep : step ∈ c)
    (hstep' : step' ∈ c') (h : step.placement = step'.placement) :
    step.association = step'.association := by
  obtain ⟨i, hi, rfl⟩ := List.mem_iff_getElem.1 hstep
  obtain ⟨j, hj, rfl⟩ := List.mem_iff_getElem.1 hstep'
  have hm := mem_traversed_routes hc (List.prefix_refl _) hi
  have hn := mem_traversed_routes hc' (List.prefix_refl _) hj
  have hlast := congrArg List.getLast? ((hs.matched _ hm _ hn).1 h)
  rw [Step.getLast?_route hi, Step.getLast?_route hj] at hlast
  exact Option.some.inj hlast

/-- The steps of one path have different placements. -/
theorem Routed.nodup_placements {s : Session} (hs : s.Routed) {c p : List Step}
    (hc : c ∈ s.traversed) (hp : p.map Step.key <+: c.map Step.key) :
    (p.map Step.placement).Nodup := by
  apply List.pairwise_iff_getElem.2
  intro i j hi hj hlt heq
  rw [List.length_map] at hi hj
  rw [List.getElem_map, List.getElem_map] at heq
  have hm := mem_traversed_routes hc hp hi
  have hn := mem_traversed_routes hc hp hj
  have hlen := congrArg List.length ((hs.matched _ hm _ hn).1 heq)
  rw [Step.length_associations, Step.length_associations, List.length_take,
    List.length_take] at hlen
  omega

/-! ## The steps that are reused -/

theorem zipWith_placement_key {path shared : List Step}
    (h : Step.associations shared = Step.associations (path.take shared.length))
    (placed : ∀ step ∈ shared, step.placement.isSome) :
    (path.zipWith (fun step id => { step with placement := some id })
      (shared.filterMap Step.placement)).map Step.key = shared.map Step.key := by
  induction shared generalizing path with
  | nil => simp
  | cons step shared ih =>
    cases path with
    | nil => simp [Step.associations] at h
    | cons first path =>
      obtain ⟨ha, hrest⟩ := List.cons.inj h
      obtain ⟨id, hid⟩ := Option.isSome_iff_exists.1 (placed step List.mem_cons_self)
      have hshared := ih hrest fun t ht => placed t (List.mem_cons_of_mem _ ht)
      rw [List.filterMap_cons_some hid, List.zipWith_cons_cons, List.map_cons, List.map_cons,
        hshared]
      simp only [Step.key, ha, hid]

variable {s : Session}

/-- The shared steps are those of a traversed path. -/
theorem mem_traversed_of_shared {path : List Step} {step : Step}
    (h : step ∈ Step.deepestShared s.traversed path) : ∃ c ∈ s.traversed, step ∈ c := by
  rcases Step.deepestShared_eq_take s.traversed path with hnil | ⟨c, hc, htake⟩
  · rw [hnil] at h
    simp at h
  · rw [htake] at h
    exact ⟨c, hc, List.mem_of_mem_take h⟩

theorem Routed.shared_placed (hs : s.Routed) (path : List Step) :
    ∀ step ∈ Step.deepestShared s.traversed path, step.placement.isSome := by
  intro step hstep
  obtain ⟨c, hc, hmem⟩ := mem_traversed_of_shared hstep
  obtain ⟨id, _, _, hid, -⟩ := hs.standing c hc step hmem
  rw [hid]
  rfl

theorem Routed.reused_key (hs : s.Routed) (path : List Step) :
    (s.reused path).map Step.key = (Step.deepestShared s.traversed path).map Step.key :=
  zipWith_placement_key (Step.associations_deepestShared s.traversed path) (hs.shared_placed path)

theorem Routed.length_reused (hs : s.Routed) (path : List Step) :
    (s.reused path).length = (Step.deepestShared s.traversed path).length := by
  have h := congrArg List.length (hs.reused_key path)
  rwa [List.length_map, List.length_map] at h

theorem Routed.length_sharedPlacements (hs : s.Routed) (path : List Step) :
    (s.sharedPlacements path).length = (Step.deepestShared s.traversed path).length := by
  have hzip : (s.reused path).length = min path.length (s.sharedPlacements path).length :=
    List.length_zipWith
  have hle := s.length_sharedPlacements_le path
  have hlen := hs.length_reused path
  omega

theorem associations_reused (s : Session) (path : List Step) :
    Step.associations (s.reused path) =
      Step.associations (path.take (s.sharedPlacements path).length) :=
  Step.associations_of_isPlaced (s.reused_steps path)

/-- The reused steps begin a traversed path, if there are any. -/
theorem Routed.reused_begins (hs : s.Routed) (path : List Step) :
    s.reused path = [] ∨
      ∃ c ∈ s.traversed, (s.reused path).map Step.key <+: c.map Step.key := by
  rcases Step.deepestShared_eq_take s.traversed path with h | ⟨c, hc, h⟩
  · left
    have hkey := hs.reused_key path
    rw [h] at hkey
    exact List.map_eq_nil_iff.1 hkey
  · right
    refine ⟨c, hc, ?_⟩
    rw [hs.reused_key, h, List.map_take]
    exact List.take_prefix _ _

/-! ## The steps that are added -/

theorem placeRest_traversed (s : Session) (path : List Step) :
    (s.placeRest path).2.traversed = s.traversed := by
  obtain ⟨_, _, _, _, h⟩ := s.placeAll_frame (path.drop (s.sharedPlacements path).length)
    (s.endOf (s.reused path))
  rw [placeRest, h]

theorem traversed_resolve_eq (s : Session) (path : List Step) :
    (s.resolve path).2.traversed =
      if (s.placeRest path).1.isEmpty then s.traversed
      else s.traversed ++ [(s.resolve path).1] := by
  rw [← s.placeRest_traversed path]
  unfold resolve
  dsimp only
  split <;> rfl

theorem length_placeRest (s : Session) (path : List Step) :
    (s.placeRest path).1.length = path.length - (s.sharedPlacements path).length := by
  rw [← (s.placeRest_steps path).length_eq, List.length_drop]

/-- Steps are added unless a traversed path goes along all associations of the path. -/
theorem Routed.placeRest_eq_nil_iff (hs : s.Routed) {path : List Step} (hne : path ≠ []) :
    (s.placeRest path).1 = [] ↔
      ∃ c ∈ s.traversed, Step.associations path <+: Step.associations c := by
  have hpos : 0 < path.length := List.length_pos_iff.2 hne
  have hle := Step.length_deepestShared_le s.traversed path
  have hlen := s.length_placeRest path
  rw [hs.length_sharedPlacements] at hlen
  rw [← List.length_eq_zero_iff, hlen]
  constructor
  · intro hzero
    have hfull : (Step.deepestShared s.traversed path).length = path.length := by omega
    rcases Step.deepestShared_eq_take s.traversed path with hnil | ⟨c, hc, htake⟩
    · rw [hnil, List.length_nil] at hfull
      omega
    · refine ⟨c, hc, ?_⟩
      have ha := Step.associations_deepestShared s.traversed path
      rw [hfull, List.take_length, htake, Step.associations_take] at ha
      rw [← ha]
      exact List.take_prefix _ _
  · rintro ⟨c, hc, hbegins⟩
    have hcl : path.length ≤ c.length := by
      simpa only [Step.length_associations] using hbegins.length_le
    have hsame : Step.associations (c.take path.length) =
        Step.associations (path.take path.length) := by
      rw [Step.associations_take, List.take_length, ← Step.length_associations path]
      exact (List.prefix_iff_eq_take.1 hbegins).symm
    have hshare := Step.le_sharedLength hcl (Nat.le_refl _) hsame
    have hdeep := Step.sharedLength_le_deepestShared hc path
    omega

/-- The route of an added step is a beginning of the path that is longer than the shared one. -/
theorem Routed.added_route (hs : s.Routed) {path : List Step} {n}
    (h : n ∈ Step.routes (Step.associations (s.reused path)) (s.placeRest path).1) :
    ∃ k, (Step.deepestShared s.traversed path).length < k ∧ k ≤ path.length ∧
      n.1 = Step.associations (path.take k) := by
  obtain ⟨j, hj, rfl⟩ := Step.mem_routes.1 h
  have hlen := s.length_placeRest path
  have hshared := hs.length_sharedPlacements path
  refine ⟨(s.sharedPlacements path).length + (j + 1), by omega, by omega, ?_⟩
  have hadded := Step.associations_of_isPlaced (s.placeRest_steps path)
  rw [Step.associations_take, hadded, associations_reused, ← Step.associations_take,
    ← Step.associations_append, ← List.take_add]

/-- No traversed path goes along the route of an added step. -/
theorem Routed.added_route_ne (hs : s.Routed) {path : List Step} {m n}
    (hm : m ∈ s.traversed.flatMap (Step.routes []))
    (hn : n ∈ Step.routes (Step.associations (s.reused path)) (s.placeRest path).1) :
    m.1 ≠ n.1 := by
  obtain ⟨c, hc, hm⟩ := List.mem_flatMap.1 hm
  obtain ⟨i, hi, rfl⟩ := Step.mem_routes.1 hm
  obtain ⟨k, hlt, hle, hk⟩ := hs.added_route hn
  rw [hk, List.nil_append]
  intro heq
  have hlen := congrArg List.length heq
  rw [Step.length_associations, Step.length_associations, List.length_take,
    List.length_take] at hlen
  obtain rfl : i + 1 = k := by omega
  have hshare := Step.le_sharedLength hi hle heq
  have hdeep := Step.sharedLength_le_deepestShared hc path
  omega

/-- No traversed path has the placement of an added step. -/
theorem Routed.added_placement_ne (hs : s.Routed) {path : List Step} {m n}
    (hm : m ∈ s.traversed.flatMap (Step.routes []))
    (hn : n ∈ Step.routes (Step.associations (s.reused path)) (s.placeRest path).1) :
    m.2 ≠ n.2 := by
  obtain ⟨c, hc, hm⟩ := List.mem_flatMap.1 hm
  obtain ⟨i, hi, rfl⟩ := Step.mem_routes.1 hm
  obtain ⟨j, hj, rfl⟩ := Step.mem_routes.1 hn
  obtain ⟨id, _, _, hid, hstands⟩ := hs.standing c hc (c.get ⟨i, hi⟩) (List.getElem_mem hi)
  intro heq
  have hnew : (s.placeRest path).1[j].placement = some id := heq.symm.trans hid
  have hfresh := (s.placeAll_fresh _ _).1 _ (List.getElem_mem hj) id hnew
  have hold := hstands.index_lt
  omega

/-! ## Resolving -/

theorem extends_placeRest (s : Session) (path : List Step) :
    (s.placeRest path).2.Extends (s.resolve path).2 := by
  unfold resolve
  dsimp only
  split <;> exact ⟨rfl, List.prefix_refl _, fun _ _ _ h => h⟩

theorem extends_resolve (s : Session) (path : List Step) : s.Extends (s.resolve path).2 :=
  (s.placeAll_chained _ _).1.trans (s.extends_placeRest path)

theorem Routed.resolve_matched (hs : s.Routed) (path : List Step) :
    Step.Matched ((s.resolve path).2.traversed.flatMap (Step.routes [])) := by
  have hnew : Step.Matched
      (Step.routes (Step.associations (s.reused path)) (s.placeRest path).1) :=
    Step.matched_routes _ (s.placeAll_fresh _ _).2
  have hall := hs.matched.append hnew fun m hm n hn =>
    ⟨hs.added_placement_ne hm hn, hs.added_route_ne hm hn⟩
  refine hall.subset ?_
  rw [traversed_resolve_eq]
  split
  · exact List.subset_append_left _ _
  · have hreused : Step.routes [] (s.reused path) ⊆ s.traversed.flatMap (Step.routes []) := by
      rcases hs.reused_begins path with hnil | ⟨c, hc, hbegins⟩
      · simp [hnil, Step.routes]
      · intro m hm
        exact List.mem_flatMap.2 ⟨c, hc, Step.routes_subset hbegins hm⟩
    rw [List.flatMap_append, List.flatMap_singleton, resolve_fst, Step.routes_append,
      List.nil_append, ← List.append_assoc]
    refine List.append_subset.2 ⟨List.append_subset.2 ⟨?_, ?_⟩, List.subset_append_right _ _⟩
    · exact List.subset_append_left _ _
    · exact List.subset_append_of_subset_left _ hreused

theorem IsStanding.of_key {step step' : Step} (h : s.IsStanding step)
    (hkey : step'.key = step.key) : s.IsStanding step' := by
  obtain ⟨ha, hp⟩ := Prod.mk.inj hkey
  obtain ⟨id, origin, destination, hid, hstands⟩ := h
  exact ⟨id, origin, destination, hp.trans hid, ha ▸ hstands⟩

theorem Routed.resolve_standing (hs : s.Routed) {path : List Step} {step : Step}
    (hstep : step ∈ (s.resolve path).1) : (s.resolve path).2.IsStanding step := by
  rcases List.mem_append.1 hstep with hstep | hstep
  · have hkey : step.key ∈ (Step.deepestShared s.traversed path).map Step.key := by
      rw [← hs.reused_key]
      exact List.mem_map_of_mem hstep
    obtain ⟨shared, hmem, hkey⟩ := List.mem_map.1 hkey
    obtain ⟨c, hc, hmem⟩ := mem_traversed_of_shared hmem
    exact ((hs.standing c hc shared hmem).of_key hkey.symm).extends (s.extends_resolve path)
  · have hadded : (s.placeRest path).2.Chained _ (s.placeRest path).1 := (s.placeAll_chained _ _).2
    exact (hadded.isStanding hstep).extends (s.extends_placeRest path)

theorem joins_resolve (s : Session) (path : List Step) :
    (s.resolve path).2.joins = s.joins := by
  obtain ⟨_, _, _, _, _, _, h⟩ := s.resolve_frame path
  rw [h]

/-- A resolved path is remembered, or begins a path that is. -/
theorem Routed.resolve_recorded (hs : s.Routed) {path : List Step} (hne : path ≠ []) :
    ∃ c ∈ (s.resolve path).2.traversed, (s.resolve path).1.map Step.key <+: c.map Step.key := by
  rw [traversed_resolve_eq]
  split
  · next h =>
    have hnil := List.isEmpty_iff.1 h
    have hpath : (s.resolve path).1 = s.reused path := by rw [resolve_fst, hnil, List.append_nil]
    rw [hpath]
    rcases hs.reused_begins path with hreused | h
    · have hlen := s.length_resolve path
      rw [hpath, hreused, List.length_nil] at hlen
      exact absurd (List.length_eq_zero_iff.1 hlen.symm) hne
    · exact h
  · exact ⟨_, List.mem_append_right _ (List.mem_singleton_self _), List.prefix_refl _⟩

theorem subset_traversed_resolve (s : Session) (path : List Step) :
    s.traversed ⊆ (s.resolve path).2.traversed := by
  rw [traversed_resolve_eq]
  split
  · intro _ h
    exact h
  · exact List.subset_append_left _ _

theorem Routed.resolve (hs : s.Routed) (path : List Step) : (s.resolve path).2.Routed where
  matched := hs.resolve_matched path
  standing := by
    intro c hc step hstep
    rw [traversed_resolve_eq] at hc
    have old (hc : c ∈ s.traversed) : (s.resolve path).2.IsStanding step :=
      (hs.standing c hc step hstep).extends (s.extends_resolve path)
    split at hc
    · exact old hc
    · rcases List.mem_append.1 hc with hc | hc
      · exact old hc
      · rw [List.mem_singleton.1 hc] at hstep
        exact hs.resolve_standing hstep
  recorded := by
    intro join hjoin
    rw [joins_resolve] at hjoin
    obtain ⟨c, hc, hbegins⟩ := hs.recorded join hjoin
    exact ⟨c, s.subset_traversed_resolve path hc, hbegins⟩

theorem Routed.addResolved (hs : s.Routed) {path : List Step}
    (h : ∃ c ∈ s.traversed, path.map Step.key <+: c.map Step.key) (fetch : Bool) :
    (s.addResolved path fetch).Routed where
  matched := hs.matched
  standing := hs.standing
  recorded := by
    intro join hjoin
    rcases List.mem_append.1 hjoin with hjoin | hjoin
    · exact hs.recorded join hjoin
    · rw [List.mem_singleton.1 hjoin]
      exact h

/-! ## Joining -/

theorem Routed.compose (hs : s.Routed) (path : List Step) : (s.compose path).2.Routed := by
  obtain ⟨_, _, _, _, h⟩ := s.compose_frame path
  have hr := hs.resolve path
  rw [h]
  exact ⟨hr.matched, hr.standing, hr.recorded⟩

theorem traversed_compose (s : Session) (path : List Step) :
    (s.compose path).2.traversed = (s.resolve path).2.traversed := by
  obtain ⟨_, _, _, _, h⟩ := s.compose_frame path
  rw [h]

theorem traversed_joinTo {path : List Step} (hne : path ≠ []) (fetch : Bool) :
    (s.joinTo path fetch).traversed = (s.resolve path).2.traversed := by
  rw [joinTo_of_ne_nil s hne, ← s.traversed_compose path]
  rfl

theorem Routed.joinTo (hs : s.Routed) (path : List Step) (fetch : Bool) :
    (s.joinTo path fetch).Routed := by
  by_cases hne : path = []
  · rw [hne, joinTo_nil]
    exact hs
  · rw [joinTo_of_ne_nil s hne]
    refine (hs.compose path).addResolved ?_ fetch
    rw [compose_key, traversed_compose]
    exact hs.resolve_recorded hne

theorem Routed.addJoin (hs : s.Routed) (path : List Step) (fetch : Bool) :
    (s.addJoin path fetch).2.Routed := by
  unfold Session.addJoin
  split
  · exact hs
  · next h =>
    have hne : path ≠ [] := by simpa using h
    exact (hs.resolve path).addResolved (hs.resolve_recorded hne) fetch

theorem Routed.setFilter (hs : s.Routed) (restrictions : List Criteria) :
    (s.setFilter restrictions).Routed := by
  obtain ⟨_, _, hframe⟩ := s.setFilter_frame restrictions
  rw [hframe]
  exact ⟨hs.matched, hs.standing, hs.recorded⟩

theorem Routed.ensureFilter (hs : s.Routed) : s.ensureFilter.Routed := by
  obtain ⟨_, _, hframe⟩ := s.ensureFilter_frame
  rw [hframe]
  exact ⟨hs.matched, hs.standing, hs.recorded⟩

theorem Routed.perform (hs : s.Routed) (call : Call) : (s.perform call).Routed := by
  cases call with
  | setAlias a =>
    unfold Session.perform setAlias
    dsimp only
    split
    · exact hs
    · exact ⟨hs.matched, hs.standing, hs.recorded⟩
  | joinPending fetch =>
    have hs' : { s with pending := [] }.Routed := ⟨hs.matched, hs.standing, hs.recorded⟩
    exact hs'.joinTo s.pending fetch
  | joinTo path fetch => exact hs.joinTo path fetch
  | addJoin path fetch => exact hs.addJoin path fetch
  | additions path =>
    obtain ⟨_, h⟩ := s.additions_frame path
    simp only [Session.perform, h]
    exact ⟨hs.matched, hs.standing, hs.recorded⟩
  | setFilter restrictions => exact hs.setFilter restrictions
  | select columns => exact hs.ensureFilter
  | build columns d =>
    obtain ⟨_, h⟩ := s.build_frame columns d
    have hf := hs.ensureFilter
    simp only [Session.perform, h]
    exact ⟨hf.matched, hf.standing, hf.recorded⟩
  | _ => exact ⟨hs.matched, hs.standing, hs.recorded⟩

theorem routed_new (schema : Schema) (table : TableId) : (new schema table).Routed where
  matched := by simp [new, Step.Matched]
  standing := by simp [new]
  recorded := by simp [new]

/-- Every session is routed, whatever was called before. -/
theorem routed_run (schema : Schema) (table : TableId) (calls : List Call) :
    ((new schema table).run calls).Routed :=
  run_induction (fun _ call _ hs => hs.perform call) (routed_new schema table)

end JoinPath.Session
