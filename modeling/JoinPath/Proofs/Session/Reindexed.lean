import JoinPath.Proofs.Path.Shared
import JoinPath.Proofs.Path.Standing
import JoinPath.Proofs.Schema.Reindexed
import JoinPath.Session.Request
/-!
# Sessions over a reindexed schema

A session compares the positions of associations and looks up what stands at them, and that is all
it does with them. So a session over the reindexed schema that is asked for the same joins runs
along: it is the first session with the new positions at every moment (`Carries.joinTo`), and what
it shows is the same.
-/

namespace JoinPath

namespace Reindexing

def step (r : Reindexing) (step : Step) : Step :=
  { step with association := r.association step.association }

def join (r : Reindexing) (join : Join) : Join := { join with path := join.path.map r.step }

def placement (r : Reindexing) (p : Placement) : Placement :=
  { p with
    association := r.association p.association
    origin := r.table p.origin
    destination := r.table p.destination }

/-- A session with everything at its new position in the schema `t`. -/
def session (r : Reindexing) (t : Schema) (s : Session) : Session :=
  { s with
    schema := t
    table := r.table s.table
    joins := s.joins.map r.join
    traversed := s.traversed.map (List.map r.step)
    pending := s.pending.map r.step
    placements := s.placements.map r.placement }

open Session (placeBetween addition)

variable (r : Reindexing) (t : Schema) (s : Session)

/-! ## Aliases -/

theorem terminal (p : PlacementId) : (r.session t s).terminal p = s.terminal p := by
  unfold Session.terminal Session.placement
  simp only [session, List.getElem?_map]
  cases s.placements[p.index]? <;> rfl

theorem takeAlias (p : PlacementId) :
    (r.session t s).takeAlias p = Prod.map id (r.session t) (s.takeAlias p) := by
  have halias : (r.session t s).aliasOf? p = s.aliasOf? p := rfl
  unfold Session.takeAlias
  rw [halias]
  cases s.aliasOf? p <;> rfl

theorem terminalAlias (p : PlacementId) :
    (r.session t s).terminalAlias p = Prod.map id (r.session t) (s.terminalAlias p) := by
  rw [Session.terminalAlias, terminal, takeAlias]
  rfl

theorem originAlias (previous : Option PlacementId) :
    (r.session t s).originAlias previous = Prod.map id (r.session t) (s.originAlias previous) := by
  cases previous with
  | none => rfl
  | some p => exact r.takeAlias t s p

theorem assignDestination (a : Association) (p : PlacementId) (preferred : Option String) :
    (r.session t s).assignDestination (r.moved a) p preferred =
      Prod.map id (r.session t) (s.assignDestination a p preferred) := by
  cases preferred <;> rfl

theorem assignJunction (a : Association) (p : PlacementId) :
    (r.session t s).assignJunction (r.moved a) p =
      Prod.map id (r.session t) (s.assignJunction a p) := rfl

/-! ## Resolving -/

theorem placeBetween_moved (a : Association) (p : PlacementId) (origin destination : String)
    (halves : Option (PlacementId × PlacementId)) :
    placeBetween (r.moved a) p origin destination halves =
      r.placement (placeBetween a p origin destination halves) := rfl

theorem addPlacements (ps : List Placement) :
    (r.session t s).addPlacements (ps.map r.placement) = r.session t (s.addPlacements ps) := by
  simp only [Session.addPlacements, session, List.map_append]

variable {r t s}

theorem Carries.place (h : r.Carries s.schema t) (step : Step) (previous : Option PlacementId) :
    (r.session t s).place (r.step step) previous =
      Prod.map id (r.session t) (s.place step previous) := by
  have hschema : (s.originAlias previous).2.schema = s.schema :=
    (s.extends_originAlias previous).schema
  have hassociation : (r.session t s).schema.association (r.step step).association =
      r.moved (s.schema.association step.association) := h.association step.association
  have hlength : (r.session t s).placements.length = s.placements.length := List.length_map _
  have hpreferred : (r.step step).preferredAlias = step.preferredAlias := rfl
  cases hj : (s.schema.association step.association).junction with
  | none =>
    have hmoved : (r.moved (s.schema.association step.association)).junction = none := by
      rw [moved, hj, Option.map_none]
    simp only [Session.place, hassociation, hlength, hpreferred, hj, hmoved, originAlias,
      assignDestination, Prod.map, id, placeBetween_moved]
    exact congrArg (Prod.mk _) (r.addPlacements t _ [_])
  | some j =>
    have hmoved : (r.moved (s.schema.association step.association)).junction =
        some ⟨r.association j.inward, r.association j.outward⟩ := by
      rw [moved, hj, Option.map_some]
    have hhalf (a : AssociationId) :
        (r.session t (s.originAlias previous).2).schema.association (r.association a) =
          r.moved (s.schema.association a) := h.association a
    simp only [Session.place, hassociation, hlength, hpreferred, hj, hmoved, originAlias, hhalf,
      hschema, assignJunction, assignDestination, Prod.map, id, placeBetween_moved]
    exact congrArg (Prod.mk _) (r.addPlacements t _ [_, _, _])

theorem Carries.placeAll (h : r.Carries s.schema t) (steps : List Step)
    (previous : Option PlacementId) :
    (r.session t s).placeAll (steps.map r.step) previous =
      Prod.map (List.map r.step) (r.session t) (s.placeAll steps previous) := by
  induction steps generalizing s previous with
  | nil => rfl
  | cons step steps ih =>
    have hschema : (s.place step previous).2.schema = s.schema :=
      (s.placedAfter_place step previous).larger.schema
    rw [List.map_cons, Session.placeAll_cons, Session.placeAll_cons, h.place, Prod.map_snd,
      Prod.map_fst, terminal, ih (hschema ▸ h)]
    rfl

theorem sharedPlacements (path : List Step) :
    (r.session t s).sharedPlacements (path.map r.step) = s.sharedPlacements path := by
  have same (x y : Step) :
      (r.step x).association = (r.step y).association ↔ x.association = y.association :=
    r.association.injective.eq_iff
  unfold Session.sharedPlacements
  rw [session, Step.deepestShared_map same, List.filterMap_map]
  rfl

theorem endOf (path : List Step) : (r.session t s).endOf (path.map r.step) = s.endOf path := by
  unfold Session.endOf
  rw [List.getLast?_map, Option.bind_map, funext (terminal r t s)]
  rfl

theorem reused (path : List Step) :
    (r.session t s).reused (path.map r.step) = (s.reused path).map r.step := by
  unfold Session.reused
  rw [sharedPlacements, List.map_zipWith, List.zipWith_map_left]
  rfl

theorem Carries.placeRest (h : r.Carries s.schema t) (path : List Step) :
    (r.session t s).placeRest (path.map r.step) =
      Prod.map (List.map r.step) (r.session t) (s.placeRest path) := by
  unfold Session.placeRest
  rw [sharedPlacements, reused, endOf, ← List.map_drop, h.placeAll]

theorem Carries.resolve (h : r.Carries s.schema t) (path : List Step) :
    (r.session t s).resolve (path.map r.step) =
      Prod.map (List.map r.step) (r.session t) (s.resolve path) := by
  unfold Session.resolve
  rw [reused, h.placeRest]
  obtain ⟨added, s₁⟩ := s.placeRest path
  -- the path is remembered, then the alias of its end is kept
  have remembered : { r.session t s₁ with
      traversed := (r.session t s₁).traversed ++ [(s.reused path ++ added).map r.step] } =
      r.session t { s₁ with traversed := s₁.traversed ++ [s.reused path ++ added] } := by
    simp only [session, List.map_append, List.map_cons, List.map_nil]
  have ended (s₂ : Session) (p : List Step) : { r.session t s₂ with
      lastAlias := ((r.session t s₂).endOf (p.map r.step)).bind (r.session t s₂).aliasOf? } =
      r.session t { s₂ with lastAlias := (s₂.endOf p).bind s₂.aliasOf? } := by
    rw [endOf]
    rfl
  simp only [Prod.map, ← List.map_append, List.isEmpty_map]
  refine congrArg (Prod.mk _) ?_
  split
  · exact ended s₁ _
  · rw [remembered]
    exact ended _ _

/-! ## Composing -/

theorem discriminatorCriteria_moved (a : Association) (origin : String) :
    (r.moved a).discriminatorCriteria origin = a.discriminatorCriteria origin := by
  have same : (r.moved a).discriminatorTable = some (r.moved a).destination ↔
      a.discriminatorTable = some a.destination :=
    (Option.map_injective r.table.injective).eq_iff (a := a.discriminatorTable)
      (b := some a.destination)
  unfold Association.discriminatorCriteria
  simp only [same]
  rfl

theorem Carries.addition {u : Schema} (h : r.Carries u t) (origin : String) (step : Step) :
    Session.addition t origin (r.step step) = Session.addition u origin step := by
  have hassociation : t.association (r.step step).association =
      r.moved (u.association step.association) := h.association step.association
  have hcriteria : (t.table (r.moved (u.association step.association)).destination).criteria =
      (u.table (u.association step.association).destination).criteria := h.criteria _
  simp only [Session.addition, hassociation, hcriteria, discriminatorCriteria_moved]
  rfl

theorem Carries.additionsFrom (h : r.Carries s.schema t) (origin : String) (path : List Step) :
    (r.session t s).additionsFrom origin (path.map r.step) =
      Prod.map id (r.session t) (s.additionsFrom origin path) := by
  induction path generalizing s origin with
  | nil => rfl
  | cons step path ih =>
    have hadded : Session.addition (r.session t s).schema origin (r.step step) =
        Session.addition s.schema origin step := h.addition origin step
    have hplacement : (r.step step).placement = step.placement := rfl
    rw [List.map_cons]
    unfold Session.additionsFrom
    rw [hadded, hplacement]
    cases step.placement with
    | none =>
      dsimp only
      rw [ih h]
      rfl
    | some p =>
      obtain ⟨pool, hs⟩ := s.terminalAlias_frame p
      have hschema : (s.terminalAlias p).2.schema = s.schema := by rw [hs]
      dsimp only
      rw [terminalAlias, Prod.map_fst, Prod.map_snd, ih (hschema ▸ h)]
      rfl

theorem Carries.additions (h : r.Carries s.schema t) (path : List Step) :
    (r.session t s).additions (path.map r.step) =
      Prod.map id (r.session t) (s.additions path) :=
  h.additionsFrom s.tableAlias path

theorem applyOn (step : Step) (criteria : Criteria) :
    (r.session t s).applyOn (r.step step) criteria =
      Prod.map r.step (r.session t) (s.applyOn step criteria) := by
  have hplacement : (r.step step).placement = step.placement := rfl
  unfold Session.applyOn
  rw [hplacement]
  cases step.placement with
  | none => rfl
  | some p =>
    dsimp only
    rw [terminalAlias]
    rfl

theorem applyColumns (step : Step) (columns : List ColumnRef) :
    (r.session t s).applyColumns (r.step step) columns =
      Prod.map r.step (r.session t) (s.applyColumns step columns) := by
  have hplacement : (r.step step).placement = step.placement := rfl
  unfold Session.applyColumns
  rw [hplacement]
  cases step.placement with
  | none => rfl
  | some p =>
    dsimp only
    rw [terminalAlias]
    rfl

theorem attachCriteria (step : Step) (criteria : List Criteria) :
    (r.session t s).attachCriteria (r.step step) criteria =
      Prod.map r.step (r.session t) (s.attachCriteria step criteria) := by
  unfold Session.attachCriteria
  split
  · rfl
  · exact applyOn step (.and criteria)

theorem attachColumns (step : Step) (columns : Option (List ColumnRef)) :
    (r.session t s).attachColumns (r.step step) columns =
      Prod.map r.step (r.session t) (s.attachColumns step columns) := by
  cases columns with
  | none => rfl
  | some columns => exact applyColumns step columns

theorem criteriaToAttach (step : Step) (a : Addition) :
    (r.session t s).criteriaToAttach (r.step step) a =
      Prod.map id (r.session t) (s.criteriaToAttach step a) := by
  have hplacement : (r.step step).placement = step.placement := rfl
  have hcomposed : (r.session t s).composed = s.composed := rfl
  unfold Session.criteriaToAttach Session.markComposed
  rw [hplacement, hcomposed]
  cases step.placement with
  | none => rfl
  | some p =>
    dsimp only
    split <;> rfl

theorem attach (step : Step) (a : Addition) :
    (r.session t s).attach (r.step step) a =
      Prod.map r.step (r.session t) (s.attach step a) := by
  unfold Session.attach
  split
  · rfl
  · simp only [criteriaToAttach, attachCriteria, attachColumns, Prod.map, id]

theorem attachAll (additions : List (Step × Addition)) :
    (r.session t s).attachAll (additions.map (Prod.map r.step id)) =
      Prod.map (List.map r.step) (r.session t) (s.attachAll additions) := by
  induction additions generalizing s with
  | nil => rfl
  | cons x additions ih =>
    simp only [List.map_cons, Session.attachAll, Prod.map, id, attach]
    rw [ih]
    rfl

theorem Carries.compose (h : r.Carries s.schema t) (path : List Step) :
    (r.session t s).compose (path.map r.step) =
      Prod.map (List.map r.step) (r.session t) (s.compose path) := by
  obtain ⟨_, _, _, _, _, _, hframe⟩ := s.resolve_frame path
  have hschema : (s.resolve path).2.schema = s.schema := by rw [hframe]
  have h₁ : r.Carries (s.resolve path).2.schema t := hschema ▸ h
  simp only [Session.compose, h.resolve, Prod.map, id, h₁.additions, List.zip_map_left]
  exact attachAll _

theorem Carries.joinTo (h : r.Carries s.schema t) (path : List Step) (fetch : Bool) :
    (r.session t s).joinTo (path.map r.step) fetch = r.session t (s.joinTo path fetch) := by
  unfold Session.joinTo
  rw [List.isEmpty_map, h.compose]
  split
  · rfl
  · simp only [Session.addResolved, session, Prod.map, List.map_append]
    rfl

/-! ## The statement -/

theorem Carries.placement (h : r.Carries s.schema t) (p : PlacementId) :
    (r.session t s).placement p = r.placement (s.placement p) := by
  unfold Session.placement
  simp only [session, List.getElem?_map]
  cases s.placements[p.index]? with
  | none => simp only [Option.map_none, Option.getD_none, Reindexing.placement, h.noTable,
      h.noAssociation]
  | some q => rfl

theorem Carries.hopOf (h : r.Carries s.schema t) (p : PlacementId) (kind : JoinKind)
    (on : Option Criteria) (fetch : Bool) :
    (r.session t s).hopOf p kind on fetch = s.hopOf p kind on fetch := by
  have hname : (t.table (r.placement (s.placement p)).destination).name =
      (s.schema.table (s.placement p).destination).name := h.name _
  unfold Session.hopOf
  rw [h.placement]
  dsimp only
  rw [← hname]
  rfl

theorem Carries.addStep (h : r.Carries s.schema t) (fetch : Bool)
    (acc : List Session.PlacedHop × List ColumnRef) (step : Step) :
    (r.session t s).addStep fetch acc (r.step step) = s.addStep fetch acc step := by
  have hterminal (p : Placement) : (r.placement p).terminal = p.terminal := rfl
  have hhalves (p : Placement) : (r.placement p).halves = p.halves := rfl
  have halias (p : Placement) : (r.placement p).destinationAlias = p.destinationAlias := rfl
  have hplacement : (r.step step).placement = step.placement := rfl
  have hcriteria : (r.step step).criteria = step.criteria := rfl
  have hcolumns : (r.step step).columns = step.columns := rfl
  have hkind : (r.step step).kind = step.kind := rfl
  unfold Session.addStep Session.addHops Session.newHops Session.selectedColumns
  simp only [hplacement, hcriteria, hcolumns, hkind, h.placement, h.hopOf, terminal, hterminal,
    hhalves, halias]

theorem Carries.placedHops (h : r.Carries s.schema t) :
    (r.session t s).placedHops = s.placedHops := by
  have hpath (fetch : Bool) (acc : List Session.PlacedHop × List ColumnRef) (path : List Step) :
      (path.map r.step).foldl ((r.session t s).addStep fetch) acc =
        path.foldl (s.addStep fetch) acc := by
    rw [List.foldl_map]
    simp only [h.addStep]
  unfold Session.placedHops
  rw [session, List.foldl_map]
  exact congrArg (fun f => List.foldl f ([], []) s.joins)
    (funext fun acc => funext fun join => hpath join.fetch acc join.path)

theorem Carries.statement (h : r.Carries s.schema t) (columns : List String) :
    (r.session t s).statement columns = s.statement columns := by
  have hname : (t.table (r.table s.table)).name = (s.schema.table s.table).name := h.name _
  unfold Session.statement Session.hops Session.joinedColumns
  rw [h.placedHops]
  rw [← hname]
  rfl

theorem setAlias (tableAlias : String) :
    (r.session t s).setAlias tableAlias = r.session t (s.setAlias tableAlias) := by
  unfold Session.setAlias
  split <;> rfl

theorem Carries.setFilter (h : r.Carries s.schema t) (restrictions : List Criteria) :
    (r.session t s).setFilter restrictions = r.session t (s.setFilter restrictions) := by
  have hcriteria : (t.table (r.table s.table)).criteria = (s.schema.table s.table).criteria :=
    h.criteria _
  unfold Session.setFilter
  dsimp only [session]
  rw [hcriteria]
  cases restrictions ++ (s.schema.table s.table).criteria <;> rfl

theorem Carries.ensureFilter (h : r.Carries s.schema t) :
    (r.session t s).ensureFilter = r.session t s.ensureFilter := by
  have hset : (r.session t s).filterSet = s.filterSet := rfl
  unfold Session.ensureFilter
  rw [hset, h.setFilter]
  split <;> rfl

theorem Carries.build (h : r.Carries s.schema t) (columns : List String) (d : Dialect) :
    (r.session t s).build columns d = Prod.map id (r.session t) (s.build columns d) := by
  have h₁ : r.Carries s.ensureFilter.schema t := s.sameTable_ensureFilter.1 ▸ h
  have hassemble (s : Session) (select : Select Criteria) :
      (r.session t s).assemble select d = s.assemble select d := rfl
  simp only [Session.build, Session.select, h.ensureFilter, h₁.statement, hassemble]
  cases s.ensureFilter.assemble (s.ensureFilter.statement columns) d <;> rfl

/-! ## Requests -/

theorem along (q : JoinRequest) (associations : List AssociationId) :
    q.along (associations.map r.association) = (q.along associations).map r.step := by
  refine List.ext_getElem? fun i => ?_
  simp only [JoinRequest.along, List.getElem?_mapIdx, List.getElem?_map, Option.map_map]
  rfl

theorem Carries.joinAlong (h : r.Carries s.schema t) (q : JoinRequest) :
    (r.session t s).joinAlong q = (s.joinAlong q).map (r.session t) := by
  have hpath : (r.session t s).schema.resolvePath (r.session t s).table q.path =
      (s.schema.resolvePath s.table q.path).map (List.map r.association) :=
    h.resolvePath s.table q.path
  unfold Session.joinAlong
  rw [hpath]
  cases s.schema.resolvePath s.table q.path with
  | error e => rfl
  | ok associations => exact congrArg Except.ok (along q associations ▸ h.joinTo _ q.fetch)

theorem schema_joinAlong {q : JoinRequest} {s' : Session} (h : s.joinAlong q = .ok s') :
    s'.schema = s.schema := by
  unfold Session.joinAlong at h
  cases hpath : s.schema.resolvePath s.table q.path with
  | error e =>
    rw [hpath] at h
    cases h
  | ok associations =>
    rw [hpath] at h
    obtain rfl := Except.ok.inj h
    exact (s.sameTable_perform (.joinTo (q.along associations) q.fetch)).1

theorem Carries.joinAlongAll (h : r.Carries s.schema t) (qs : List JoinRequest) :
    qs.foldlM Session.joinAlong (r.session t s) =
      (qs.foldlM Session.joinAlong s).map (r.session t) := by
  induction qs generalizing s with
  | nil => rfl
  | cons q qs ih =>
    rw [List.foldlM_cons, List.foldlM_cons, h.joinAlong]
    cases hq : s.joinAlong q with
    | error e => rfl
    | ok s' => exact ih (schema_joinAlong hq ▸ h)

theorem schema_joinAlongAll {qs : List JoinRequest} {s' : Session}
    (h : qs.foldlM Session.joinAlong s = .ok s') : s'.schema = s.schema := by
  induction qs generalizing s with
  | nil =>
    obtain rfl := Except.ok.inj h
    rfl
  | cons q qs ih =>
    rw [List.foldlM_cons] at h
    cases hq : s.joinAlong q with
    | error e =>
      rw [hq] at h
      cases h
    | ok s₁ =>
      rw [hq] at h
      exact (ih h).trans (schema_joinAlong hq)

theorem bindAll (parameters : List (String × Value)) :
    (r.session t s).bindAll parameters = r.session t (s.bindAll parameters) := by
  induction parameters generalizing s with
  | nil => rfl
  | cons p parameters ih => exact ih (s := s.setParameter p.1 p.2)

theorem schema_bindAll (s : Session) (parameters : List (String × Value)) :
    (s.bindAll parameters).schema = s.schema := by
  induction parameters generalizing s with
  | nil => rfl
  | cons p parameters ih => exact ih (s.setParameter p.1 p.2)

/-- What a session shows is the same over the reindexed schema. -/
theorem Carries.answer (h : r.Carries s.schema t) (columns : List String) (d : Dialect) :
    (r.session t s).answer columns d = s.answer columns d := by
  have h₁ : r.Carries (s.build columns d).2.schema t :=
    (s.sameTable_perform (.build columns d)).1 ▸ h
  unfold Session.answer
  rw [h.build]
  simp only [Prod.map, id, Session.hops, h₁.placedHops]
  rfl

theorem Carries.respondFrom (h : r.Carries s.schema t) (q : Request) :
    (r.session t s).respond q = s.respond q := by
  unfold Session.respond
  rw [h.joinAlongAll]
  cases hjoins : q.joins.foldlM Session.joinAlong s with
  | error e => rfl
  | ok s' =>
    have h₁ : r.Carries s'.schema t := schema_joinAlongAll hjoins ▸ h
    have h₂ : r.Carries ((s'.setFilter q.restrictions).bindAll q.parameters).schema t := by
      rw [schema_bindAll]
      exact (s'.sameTable_perform (.setFilter q.restrictions)).1 ▸ h₁
    simp only [Except.map, bind, Except.bind, pure, Except.pure, h₁.setFilter, bindAll, h₂.answer]

/-- A request is answered in the same way by the reindexed schema. -/
theorem Carries.respond {u : Schema} (h : r.Carries u t) (q : Request) :
    t.respond q = u.respond q := by
  unfold Schema.respond
  rw [h.tableByName]
  cases u.tableByName q.table with
  | error e => rfl
  | ok id =>
    have hstart : (Session.new t (r.table id)).setAlias q.tableAlias =
        r.session t ((Session.new u id).setAlias q.tableAlias) :=
      setAlias (s := Session.new u id) q.tableAlias
    have hschema : ((Session.new u id).setAlias q.tableAlias).schema = u :=
      ((Session.new u id).sameTable_perform (.setAlias q.tableAlias)).1
    simp only [Except.map, bind, Except.bind, hstart]
    exact Carries.respondFrom (hschema.symm ▸ h) q

end Reindexing

end JoinPath
