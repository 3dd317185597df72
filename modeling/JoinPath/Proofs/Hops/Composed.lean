import JoinPath.Proofs.Bindings.Composition
import JoinPath.Proofs.Hops.Conjunction
import JoinPath.Proofs.Session.Filter
/-!
# What a statement is composed of

The compositions of a run tell what stands in the statement. The filter is the last one made for it
(`FilterFrom.run`), and the condition of a hop is made of those for its placement, in their order
(`on_of_mem_placedHops`).
-/

namespace JoinPath.Session

variable {s : Session} {c : Composition}

/-! ## The filter -/

/-- The filter is the conjunction of its conditions with the literals named. -/
theorem filter_eq_bindLiterals (s : Session) (restrictions : List Criteria) :
    (s.setFilter restrictions).filter =
      (Criteria.conjunction s.tableAlias (restrictions ++ (s.schema.table s.table).criteria)).map
        fun o => (o.bindLiterals s.tableAlias s.bindings).1 :=
  s.namedFrom_filterComposition restrictions

/-- If the filter was set, it is the last one composed. -/
def FilterFrom (s : Session) (cs : List Composition) : Prop :=
  s.filterSet = true → ∃ c, (cs.filter fun c => c.place = .filter).getLast? = some c ∧
    s.filter = c.composed

theorem place_of_mem_attachAll {additions : List (Step × Addition)}
    (h : c ∈ s.attachAllCompositions additions) : ∃ id, c.place = .hop id := by
  obtain ⟨_, ⟨step, a⟩, _, -, h⟩ := mem_along.1 h
  unfold attachCompositions at h
  cases hid : step.placement with
  | none => simp [hid] at h
  | some id =>
    simp only [hid, List.mem_singleton] at h
    exact ⟨id, by rw [h]⟩

theorem place_of_mem_join {path : List Step} (h : c ∈ s.joinCompositions path) :
    ∃ id, c.place = .hop id := by
  unfold joinCompositions at h
  split at h
  · exact absurd h List.not_mem_nil
  · exact place_of_mem_attachAll h

theorem FilterFrom.of_not_filter {t : Session} {cs ds : List Composition} (h : s.FilterFrom cs)
    (set : t.filterSet = s.filterSet) (same : t.filter = s.filter)
    (others : ∀ c ∈ ds, c.place ≠ .filter) : t.FilterFrom (cs ++ ds) := by
  have hnone : ds.filter (fun c => c.place = .filter) = [] := by
    rw [List.filter_eq_nil_iff]
    intro c hc heq
    exact others c hc (of_decide_eq_true heq)
  unfold FilterFrom
  rw [List.filter_append, hnone, List.append_nil, set, same]
  exact h

theorem filterFrom_setFilter (s : Session) (cs : List Composition) (restrictions : List Criteria) :
    (s.setFilter restrictions).FilterFrom (cs ++ [s.filterComposition restrictions]) := by
  intro _
  refine ⟨s.filterComposition restrictions, ?_, rfl⟩
  rw [List.filter_append, List.filter_cons_of_pos (by rfl), List.filter_nil,
    List.getLast?_concat]

theorem filterSet_ensureFilter (s : Session) : s.ensureFilter.filterSet = true := by
  obtain ⟨_, _, h⟩ := s.ensureFilter_frame
  rw [h]

theorem FilterFrom.ensureFilter {cs : List Composition} (h : s.FilterFrom cs) :
    s.ensureFilter.FilterFrom (cs ++ if s.filterSet then [] else [s.filterComposition []]) := by
  unfold Session.ensureFilter
  split
  · rw [List.append_nil]
    exact h
  · exact s.filterFrom_setFilter cs []

theorem FilterFrom.perform {cs : List Composition} (h : s.FilterFrom cs) (call : Call) :
    (s.perform call).FilterFrom (cs ++ s.compositionsOf call) := by
  have leaves (hnone : s.restrictionsOf call = none)
      (others : ∀ c ∈ s.compositionsOf call, c.place ≠ .filter) :
      (s.perform call).FilterFrom (cs ++ s.compositionsOf call) := by
    obtain ⟨hfilter, hset⟩ := s.filter_perform call
    rw [hnone] at hfilter hset
    exact h.of_not_filter (hset.trans (Bool.or_false _)) hfilter others
  have hhop {d : Composition} (hd : ∃ id, d.place = .hop id) : d.place ≠ .filter := by
    obtain ⟨id, hid⟩ := hd
    rw [hid]
    exact nofun
  cases call with
  | joinPending fetch => exact leaves rfl fun c hc => hhop (place_of_mem_join hc)
  | joinTo path fetch => exact leaves rfl fun c hc => hhop (place_of_mem_join hc)
  | setFilter restrictions => exact s.filterFrom_setFilter cs restrictions
  | bindLiterals d =>
    refine leaves rfl fun c hc => ?_
    obtain rfl := List.mem_singleton.1 hc
    exact nofun
  | select columns => exact h.ensureFilter
  | build columns d =>
    obtain ⟨log, hb⟩ := s.build_frame columns d
    rw [Session.perform, hb]
    exact h.ensureFilter
  | _ => exact leaves rfl fun c hc => absurd hc List.not_mem_nil

theorem FilterFrom.run {cs : List Composition} (h : s.FilterFrom cs) (calls : List Call) :
    (s.run calls).FilterFrom (cs ++ s.compositions calls) :=
  along_induction_from (P := fun cs (t : Session) => t.FilterFrom cs)
    (fun call _ _ _ ht => ht.perform call) h

/-! ## The conditions of hops -/

/-- The conditions of all visits with their placements. -/
def visitConditions (s : Session) : List (PlacementId × Option Criteria) :=
  s.visits.map fun v => (v.id, v.step.criteria)

theorem visits_attachAll (additions : List (Step × Addition)) (fetch : Bool) :
    (Join.visits ⟨(s.attachAll additions).1, fetch⟩).map (fun v => (v.id, v.step.criteria)) =
      (s.attachAllCompositions additions).filterMap Composition.forHop := by
  induction additions generalizing s with
  | nil => rfl
  | cons x additions ih =>
    obtain ⟨step, a⟩ := x
    have hplacement : (s.attach step a).1.placement = step.placement :=
      congrArg Prod.snd (s.attach_key step a)
    rw [attachAllCompositions, along, List.filterMap_append]
    refine Eq.trans ?_ (congrArg _ ih)
    unfold Join.visits attachCompositions
    dsimp only [attachAll]
    cases hid : step.placement with
    | none => rw [List.filterMap_cons_none (by rw [hplacement, hid]; rfl)]; rfl
    | some id => rw [List.filterMap_cons_some (by rw [hplacement, hid]; rfl)]; rfl

theorem visits_joinTo (s : Session) (path : List Step) (fetch : Bool) :
    (s.joinTo path fetch).visitConditions =
      s.visitConditions ++ (s.joinCompositions path).filterMap Composition.forHop := by
  by_cases hne : path = []
  · subst hne
    exact (List.append_nil _).symm
  · obtain ⟨_, _, _, _, hframe⟩ := s.compose_frame path
    have hjoins : (s.joinTo path fetch).joins = s.joins ++ [⟨(s.compose path).1, fetch⟩] := by
      rw [joinTo_of_ne_nil s hne, addResolved, hframe]
      exact congrArg (· ++ _) (s.joins_resolve path)
    rw [visitConditions, visits, hjoins, List.flatMap_append, List.flatMap_singleton,
      List.map_append, compose_eq, visits_attachAll, joinCompositions, if_neg (by simpa using hne)]
    rfl

theorem visits_perform (s : Session) {call : Call} (h : ∀ path fetch, call ≠ .addJoin path fetch) :
    (s.perform call).visitConditions =
      s.visitConditions ++ (s.compositionsOf call).filterMap Composition.forHop := by
  have hsame {t : Session} {cs : List Composition} (hjoins : t.joins = s.joins)
      (hcs : ∀ c ∈ cs, c.place = .filter ∨ c.place = .caller) :
      t.visitConditions = s.visitConditions ++ cs.filterMap Composition.forHop := by
    have hnone : cs.filterMap Composition.forHop = [] := by
      rw [List.filterMap_eq_nil_iff]
      intro c hc
      unfold Composition.forHop
      rcases hcs c hc with hplace | hplace <;> rw [hplace]
    rw [hnone, List.append_nil, visitConditions, visits, hjoins]
    rfl
  have hbase : ∀ c ∈ if s.filterSet then [] else [s.filterComposition []],
      c.place = .filter ∨ c.place = .caller := by
    intro c hc
    split at hc
    · exact absurd hc List.not_mem_nil
    · obtain rfl := List.mem_singleton.1 hc
      exact .inl rfl
  cases call with
  | setAlias a =>
    refine hsame ?_ fun c hc => absurd hc List.not_mem_nil
    simp only [perform, setAlias]
    split <;> rfl
  | joinPending fetch => exact visits_joinTo { s with pending := [] } s.pending fetch
  | joinTo path fetch => exact s.visits_joinTo path fetch
  | addJoin path fetch => exact absurd rfl (h path fetch)
  | additions path =>
    exact hsame (s.sameJoins_additions path).joins fun c hc => absurd hc List.not_mem_nil
  | setFilter restrictions =>
    obtain ⟨_, _, hframe⟩ := s.setFilter_frame restrictions
    refine hsame (by rw [perform, hframe]) fun c hc => ?_
    obtain rfl := List.mem_singleton.1 hc
    exact .inl rfl
  | bindLiterals d =>
    refine hsame rfl fun c hc => ?_
    obtain rfl := List.mem_singleton.1 hc
    exact .inr rfl
  | select columns => exact hsame s.sameJoins_ensureFilter.joins hbase
  | build columns d =>
    obtain ⟨log, hb⟩ := s.build_frame columns d
    refine hsame ?_ hbase
    rw [perform, hb]
    exact s.sameJoins_ensureFilter.joins
  | _ => exact hsame rfl fun c hc => absurd hc List.not_mem_nil

theorem visits_run (s : Session) {calls : List Call}
    (composed : ∀ path fetch, .addJoin path fetch ∉ calls) :
    (s.run calls).visitConditions =
      s.visitConditions ++ (s.compositions calls).filterMap Composition.forHop := by
  refine along_induction (P := fun cs (t : Session) =>
    t.visitConditions = s.visitConditions ++ cs.filterMap Composition.forHop)
    (fun call hcall cs t ht => ?_) (List.append_nil _).symm
  have hcomposed : ∀ path fetch, call ≠ .addJoin path fetch := fun path fetch heq =>
    composed path fetch (heq ▸ hcall)
  rw [t.visits_perform hcomposed, ht, List.filterMap_append, List.append_assoc]

/-- The compositions for the hop of a placement. -/
def madeFor (cs : List Composition) (id : PlacementId) : List Composition :=
  cs.filter fun c => c.place = .hop id

theorem filterMap_forHop (cs : List Composition) (id : PlacementId) :
    ((cs.filterMap Composition.forHop).filter fun x => x.1 = id).map Prod.snd =
      (madeFor cs id).map Composition.composed := by
  induction cs with
  | nil => rfl
  | cons c cs ih =>
    unfold madeFor at ih ⊢
    cases hplace : c.place with
    | hop other =>
      have hfor : c.forHop = some (other, c.composed) := by rw [Composition.forHop, hplace]
      by_cases heq : other = id <;> simp [hfor, hplace, heq, ih]
    | filter => simp [Composition.forHop, hplace, ih]
    | caller => simp [Composition.forHop, hplace, ih]

/-- The visits of a placement have the conditions that were composed for its hop. -/
theorem criteria_sharing {cs : List Composition}
    (h : s.visitConditions = cs.filterMap Composition.forHop) (id : PlacementId) :
    (Visit.sharing s.visits id).map (fun v => v.step.criteria) =
      (madeFor cs id).map Composition.composed := by
  rw [← filterMap_forHop, ← h, visitConditions, List.filter_map, List.map_map]
  rfl

/-- Every hop is that of a junction table, without a condition, or it has the conditions that were
composed for it. -/
theorem on_of_mem_placedHops {cs : List Composition}
    (h : s.visitConditions = cs.filterMap Composition.forHop) {owner : Option PlacementId}
    {hop : Hop Criteria} (hmem : (owner, hop) ∈ s.placedHops.1) :
    (owner = none ∧ hop.on = none) ∨
      ∃ id, owner = some id ∧
        Criteria.Conjoined [] ((madeFor cs id).filterMap Composition.composed)
          (Criteria.conjunctsOf hop.on) := by
  obtain ⟨v, later, hsharing, hcase⟩ := placedHops_cases hmem
  obtain ⟨rfl, rfl⟩ | ⟨rfl, first, rfl⟩ := hcase
  · have hcriteria := criteria_sharing h v.id
    rw [hsharing] at hcriteria
    have hlist : (madeFor cs v.id).filterMap Composition.composed =
        v.step.criteria.toList ++ later.filterMap fun w => w.step.criteria := by
      rw [List.filterMap_eq_flatMap_toList, ← List.flatMap_map, ← hcriteria, List.flatMap_map,
        List.flatMap_cons, List.filterMap_eq_flatMap_toList]
    have hlater := Hop.conjoined_restrictBy
      (s.hopOf (s.terminal v.id) v.step.kind v.step.criteria v.fetch) later
    refine .inr ⟨v.id, rfl, ?_⟩
    rw [hlist]
    cases hfirst : v.step.criteria with
    | none =>
      rw [hfirst] at hlater
      rw [endHop, hfirst]
      exact hlater
    | some c =>
      rw [hfirst] at hlater
      rw [endHop, hfirst]
      exact .add hlater
  · exact .inl ⟨rfl, rfl⟩

/-- A condition that was composed for a hop has that hop. -/
theorem exists_hop_of_composition {cs : List Composition}
    (h : s.visitConditions = cs.filterMap Composition.forHop) {c : Composition} (hc : c ∈ cs)
    {id : PlacementId} (hplace : c.place = .hop id) : ∃ hop, (some id, hop) ∈ s.placedHops.1 := by
  have hfor : c.forHop = some (id, c.composed) := by rw [Composition.forHop, hplace]
  have hmem : (id, c.composed) ∈ s.visitConditions := by
    rw [h]
    exact List.mem_filterMap.2 ⟨c, hc, hfor⟩
  obtain ⟨v, hv, heq⟩ := List.mem_map.1 hmem
  have hvisited : id ∈ s.visits.map Visit.id :=
    List.mem_map.2 ⟨v, hv, congrArg Prod.fst heq⟩
  rw [← mem_groups_owners (s := s), ← placedHops_eq] at hvisited
  obtain ⟨⟨owner, hop⟩, hhop, rfl⟩ := List.mem_map.1 hvisited
  exact ⟨hop, hhop⟩

end JoinPath.Session
