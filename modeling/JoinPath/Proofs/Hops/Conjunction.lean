import JoinPath.Proofs.Criteria.Conjuncts
import JoinPath.Proofs.Hops.OnePerRoute
import JoinPath.Proofs.Session.Traced
import JoinPath.Schema.Declaration
/-!
# The conditions of a hop

The condition of a hop is the conjunction of what its steps bring: the first step brings what its
caller adds, the conditions of the table and the discriminators of the association, each later one
only what its caller adds (`conditions_land_once`).
-/

namespace JoinPath

open Bindings (Change)
open Criteria (Conjoined Filled NamedBy conjuncts conjunctsOf)

/-- What restricts the end of an association between two aliases, whoever joins along it: the
conditions of its table and its discriminators. -/
def Association.restrictions (a : Association) (schema : Schema)
    (originAlias destinationAlias : String) : List Criteria :=
  (schema.table a.destination).criteria.map (.qualify destinationAlias) ++
    a.discriminators.map fun d =>
      if a.discriminatorTable = some a.destination then d.criteria.qualify destinationAlias
      else d.criteria.withAlias originAlias

/-- The condition of a hop is what its first step brings, and then what the callers of later ones
add to it. -/
structure Hop.RestrictedBy (bound : String → Value → Prop) (schema : Schema) (originAlias : String)
    (h : Hop Criteria) (first : Step) (later : List Step) : Prop where
  conjoined : ∃ own more,
    List.Forall₂ (Filled bound)
      (first.criteria.toList.map (.qualify h.tableAlias) ++
        (schema.association first.association).restrictions schema originAlias h.tableAlias)
      own ∧
    List.Forall₂ (Filled bound) ((later.filterMap Step.criteria).map (.qualify h.tableAlias)) more ∧
    Conjoined (own.flatMap conjuncts) more (conjunctsOf h.on)

theorem Hop.RestrictedBy.mono {bound bound' : String → Value → Prop}
    (hb : ∀ name value, bound name value → bound' name value) {schema : Schema}
    {originAlias : String} {h : Hop Criteria} {first : Step} {later : List Step}
    (hr : h.RestrictedBy bound schema originAlias first later) :
    h.RestrictedBy bound' schema originAlias first later := by
  obtain ⟨own, more, hown, hmore, hon⟩ := hr.conjoined
  exact ⟨own, more, hown.imp fun _ _ h => h.mono hb, hmore.imp fun _ _ h => h.mono hb, hon⟩

/-! ## Attached conditions as conjuncts -/

theorem addition_qualified (schema : Schema) (originAlias destinationAlias : String)
    (step : Step) :
    (Session.addition schema originAlias step).criteria.map (.qualify destinationAlias) =
      step.criteria.toList.map (.qualify destinationAlias) ++
        (schema.association step.association).restrictions schema originAlias destinationAlias := by
  have hdiscriminators (a : Association) :
      (a.discriminatorCriteria originAlias).map (.qualify destinationAlias) =
        a.discriminators.map fun d =>
          if a.discriminatorTable = some a.destination then d.criteria.qualify destinationAlias
          else d.criteria.withAlias originAlias := by
    unfold Association.discriminatorCriteria
    dsimp only
    split
    · rw [List.map_map]
      rfl
    · rw [List.map_map, List.map_map]
      exact List.map_congr_left fun d _ => Criteria.qualify_withAlias _ _ _
  unfold Session.addition Association.restrictions
  rw [List.map_append, List.map_append, hdiscriminators, List.append_assoc]

theorem IsConjunction.exists_conjuncts {bound : String → Value → Prop} {tableAlias : String}
    {cs : List Criteria} {on : Option Criteria} (h : IsConjunction bound tableAlias cs on) :
    ∃ ds, List.Forall₂ (Filled bound) (cs.map (.qualify tableAlias)) ds ∧
      conjunctsOf on = ds.flatMap conjuncts := by
  cases cs with
  | nil =>
    obtain rfl : on = none := h
    exact ⟨[], .nil, rfl⟩
  | cons c cs =>
    obtain ⟨d, rfl, hfilled⟩ := h
    rw [Criteria.qualify, (Criteria.rewrites_mapColumns _).and] at hfilled
    obtain ⟨ds, rfl, hds⟩ := Criteria.exists_of_filled_and hfilled
    exact ⟨ds, hds, Criteria.conjuncts_and ds⟩

theorem IsConjunction.filled_caller {bound : String → Value → Prop} {tableAlias : String}
    {c on : Option Criteria} (h : IsConjunction bound tableAlias c.toList on) :
    List.Forall₂ (Filled bound) (c.toList.map (.qualify tableAlias)) on.toList := by
  cases c with
  | none =>
    obtain rfl : on = none := h
    exact .nil
  | some c =>
    obtain ⟨d, rfl, hfilled⟩ := h
    exact .cons hfilled .nil

/-- The conditions of further visits are added to that of a hop. -/
theorem Hop.conjoined_restrictBy (h : Hop Criteria) (later : List Visit) :
    Conjoined (conjunctsOf h.on) (later.filterMap fun v => v.step.criteria)
      (conjunctsOf (later.foldl Hop.restrictBy h).on) := by
  induction later generalizing h with
  | nil => exact .nil _
  | cons v later ih =>
    cases hv : v.step.criteria with
    | none =>
      have hkept : h.restrictBy v = h := by rw [restrictBy, hv]
      simp only [List.filterMap_cons, hv, List.foldl_cons, hkept]
      exact ih h
    | some extra =>
      have hon : h.restrictBy v = h.restrict extra := by rw [restrictBy, hv]
      simp only [List.filterMap_cons, hv, List.foldl_cons, hon]
      have hrest := ih (h.restrict extra)
      rcases Criteria.conjuncts_mergeCriteria h.on extra with happended | ⟨hkept, hstands⟩
      · exact .add (happended ▸ hrest)
      · exact .keep hstands (hkept ▸ hrest)

namespace Session

variable {s : Session}

/-! ## The steps of a placement -/

theorem steps_of_sharing (s : Session) (id : PlacementId) :
    (Visit.sharing s.visits id).map Visit.step =
      s.recorded.filter fun step => step.placement = some id := by
  have each (path : List Step) (fetch : Bool) :
      ((Join.visits ⟨path, fetch⟩).filter fun v => v.id = id).map Visit.step =
        path.filter fun step => step.placement = some id := by
    unfold Join.visits
    dsimp only
    induction path with
    | nil => rfl
    | cons step path ih =>
      cases hid : step.placement with
      | none => simp [hid, ih]
      | some other =>
        by_cases heq : other = id <;> simp [hid, heq, ih]
  unfold Visit.sharing visits recorded
  rw [List.filter_flatMap, List.map_flatMap, List.filter_flatMap]
  exact List.flatMap_congr fun join _ => each join.path join.fetch

/-- Of the hops one is owned by a visited placement: that at which it ends. -/
theorem owned_hops {id : PlacementId} {v : Visit} {later : List Visit}
    (h : Visit.sharing s.visits id = v :: later) :
    s.placedHops.1.filter (fun x => x.1 = some id) = [(some id, s.endHop v later)] := by
  have hmem : v ∈ Visit.sharing s.visits id := h ▸ List.mem_cons_self
  obtain rfl : v.id = id := id_of_mem_sharing v hmem
  have hvisited : v.id ∈ s.visits.map Visit.id := sharing_ne_nil.1 (by rw [h]; simp)
  rw [placedHops_eq, groups, filter_flatMap_of_nodup (nodup_eraseDups _)
    (List.mem_eraseDups.2 hvisited), h]
  · cases hhalves : (s.placement v.id).halves with
    | none =>
      rw [groupOf_of_direct hhalves]
      simp
    | some halves =>
      rw [groupOf_of_halves hhalves]
      simp
  · intro other hother hne
    rw [List.filter_eq_nil_iff]
    intro x hx howner
    have howned : some v.id ∈ (s.groupOf (Visit.sharing s.visits other)).map Prod.fst :=
      of_decide_eq_true howner ▸ List.mem_map_of_mem hx
    exact hne ((mem_groupOf_owners id_of_mem_sharing).1 howned).2.symm

theorem filled_callers {bound : String → Value → Prop} {tableAlias : String}
    {pairs : List (Step × Step)}
    (h : ∀ e ∈ pairs, e.1.Attached bound tableAlias e.1.criteria.toList e.2) :
    List.Forall₂ (Filled bound)
      (((pairs.map Prod.fst).filterMap Step.criteria).map (.qualify tableAlias))
      ((pairs.map Prod.snd).filterMap Step.criteria) := by
  rw [List.filterMap_eq_flatMap_toList, List.filterMap_eq_flatMap_toList]
  induction pairs with
  | nil => exact .nil
  | cons e pairs ih =>
    rw [List.map_cons, List.map_cons, List.flatMap_cons, List.flatMap_cons, List.map_append]
    exact List.rel_append (h e List.mem_cons_self).criteria.filled_caller
      (ih fun e he => h e (List.mem_cons_of_mem _ he))

theorem endAlias_eq_finalAlias {step : Step} {id : PlacementId}
    (h : step.placement = some id) : s.endAlias step = s.finalAlias id := by
  rw [endAlias, h]
  rfl

/-- The pairs of requested and recorded steps, as far as they are placed at `id`. -/
theorem Traced.sharing_eq {requests : List (List Step)} {changes : List Change}
    (h : Traced requests changes s) (id : PlacementId) :
    ((requests.flatten.zip s.recorded).filter fun e => e.2.placement = some id).map Prod.snd =
      (Visit.sharing s.visits id).map Visit.step := by
  rw [steps_of_sharing, ← h.zip_snd, List.filter_map, h.zip_snd]
  rfl

theorem Traced.restrictedBy {requests : List (List Step)} {changes : List Change}
    (h : Traced requests changes s) {id : PlacementId} {v : Visit} {later : List Visit}
    (hv : Visit.sharing s.visits id = v :: later) :
    ∃ first others,
      ((requests.flatten.zip s.recorded).filter fun e => e.2.placement = some id).map Prod.fst =
        first :: others ∧
      (s.endHop v later).RestrictedBy (NamedBy 0 changes) s.schema (s.placement id).originAlias
        first others := by
  have hsteps := h.sharing_eq id
  rw [hv] at hsteps
  obtain ⟨e, pairs, hpairs, hfirst, hlater⟩ := List.map_eq_cons_iff.1 hsteps
  obtain ⟨hown, hmore⟩ := h.attached.sharing List.not_mem_nil hpairs
  have hplaced : ∀ e' ∈ e :: pairs, e'.2.placement = some id := by
    intro e' he'
    rw [← hpairs] at he'
    exact of_decide_eq_true (List.mem_filter.1 he').2
  have hid : v.id = id := id_of_mem_sharing v (hv ▸ List.mem_cons_self)
  have hend : ∀ e' ∈ e :: pairs, s.endAlias e'.2 = (s.endHop v later).tableAlias := by
    intro e' he'
    rw [endAlias_eq_finalAlias (hplaced e' he'), tableAlias_endHop, hid]
  have hstart : s.startAlias e.2 = (s.placement id).originAlias := by
    rw [startAlias, hplaced e List.mem_cons_self]
    rfl
  rw [hstart, hend e List.mem_cons_self] at hown
  -- The first step brings the conditions of its table and association besides its own.
  obtain ⟨own, hfilled, hconjuncts⟩ := hown.criteria.exists_conjuncts
  rw [addition_qualified] at hfilled
  rw [hpairs]
  refine ⟨e.1, pairs.map Prod.fst, rfl, own, (pairs.map Prod.snd).filterMap Step.criteria, hfilled,
    filled_callers fun e' he' => ?_, ?_⟩
  · rw [← hend e' (List.mem_cons_of_mem _ he')]
    exact hmore e' he'
  · rw [← hconjuncts, hfirst, hlater, List.filterMap_map]
    exact Hop.conjoined_restrictBy
      (s.hopOf (s.terminal v.id) v.step.kind v.step.criteria v.fetch) later

/-- However a session whose base table keeps its alias joins: each step of a join has one hop that
ends at its placement, and the condition of that hop is what the first step through the placement
brings, with what the callers of later ones add. The conditions of the table and the discriminators
come once, those of the origin under the alias where the step before ends, and a parameter that
stands for a literal has its value unless the caller sets it. -/
theorem conditions_land_once (schema : Schema) (table : TableId) (tableAlias : String)
    (calls : List Call) (keeps : ∀ call ∈ calls, call.keepsScope = true) :
    let start := (new schema table).setAlias tableAlias
    let s := start.run calls
    let requests := start.requestedIn calls
    let bound name value :=
      (∀ v, .setParameter name v ∉ calls) → s.parameters.get? name = some value
    List.Forall₂
      (fun request (join : Join) => Step.associations request = Step.associations join.path)
      requests s.joins ∧
    ∀ join ∈ s.joins, ∀ before step after, join.path = before ++ step :: after →
      ∃ id h first later, step.placement = some id ∧
        ((requests.flatten.zip s.recorded).filter fun e => e.2.placement = some id).map Prod.fst =
          first :: later ∧
        s.placedHops.1.filter (fun x => x.1 = some id) = [(some id, h)] ∧
        h.tableAlias = s.endAlias step ∧
        h.RestrictedBy bound schema ((before.getLast?.map s.endAlias).getD s.tableAlias) first
          later := by
  intro start s requests bound
  have htraced : Traced requests (start.history calls) s :=
    (traced_setAlias_new schema table tableAlias).run keeps
  have hbound : ∀ name value, NamedBy 0 (start.history calls) name value → bound name value := by
    intro name value hnamed unset
    exact htraced.get?_of_namedBy hnamed fun v hv =>
      unset v (start.setParameter_mem_of_assigned hv)
  have hschema : s.schema = schema := by
    have hstart : start.schema = schema := by
      unfold start setAlias
      split <;> rfl
    rw [← hstart]
    exact (start.sameBase_run keeps).schema
  refine ⟨htraced.aligned, fun join hjoin before step after hpath => ?_⟩
  have hstep : step ∈ join.path := by
    rw [hpath]
    exact List.mem_append_right _ List.mem_cons_self
  have hchain := htraced.join_chained hjoin
  rw [hpath] at hchain
  obtain ⟨id, _, _, hid, -⟩ := htraced.routed.joined_standing hjoin hstep
  have hvisited := mem_visits_iff.2 ⟨join, hjoin, step, hstep, hid⟩
  obtain ⟨v, later, hv, hvid⟩ := exists_first_visit hvisited
  -- The step starts where the one before it ends.
  have horigin : (s.placement id).originAlias =
      (before.getLast?.map s.endAlias).getD s.tableAlias := by
    rw [← hchain.startAlias_eq, startAlias, hid]
    rfl
  obtain ⟨first, others, hsteps, hrestricted⟩ := htraced.restrictedBy hv
  refine ⟨id, s.endHop v later, first, others, hid, hsteps, owned_hops hv, ?_, ?_⟩
  · rw [tableAlias_endHop, endAlias_eq_finalAlias hid, hvid]
  · rw [← horigin, ← hschema]
    exact hrestricted.mono hbound

/-! ## Lines of two kinds -/

/-- Orders with lines, which may be deleted. -/
def ordersWithLines : Schema := .declared [
  .table "orders" ["id"],
  .table "lines" ["order_id", "sku", "deleted"],
  .tableDiscriminator ⟨1⟩ (.isNull (.col "deleted")),
  .association "lines" ⟨0⟩ ⟨1⟩ [⟨"id", "order_id"⟩]]

/-- A step to the lines of one kind. -/
def linesOf (sku : String) : Step :=
  { association := ⟨0⟩
    kind := .inner
    criteria := some (.eq (.col "sku") (.literal (.string sku))) }

/-- Joins the same lines twice. -/
def joinBothKinds : List Call := [.joinTo [linesOf "A"] false, .joinTo [linesOf "B"] true]

/-- Orders whose lines are of both kinds. -/
def bothKinds : Session := ((new ordersWithLines ⟨0⟩).setAlias "o").run joinBothKinds

example : bothKinds.hops.map Hop.on =
    [some (.group .and [
      .eq (.column (.qualified "o_j1" "sku")) (.param "o_R1"),
      .isNull (.column (.qualified "o_j1" "deleted")),
      .eq (.column (.qualified "o_j1" "sku")) (.param "o_R2")])] := by
  cbv

theorem conditions_land_once_bothKinds :
    (∀ call ∈ joinBothKinds, call.keepsScope = true) ∧
    ∃ h, bothKinds.placedHops.1.filter (fun x => x.1 = some ⟨0⟩) = [(some ⟨0⟩, h)] ∧
      h.tableAlias = "o_j1" ∧
      h.RestrictedBy
        (fun name value => (∀ v, .setParameter name v ∉ joinBothKinds) →
          bothKinds.parameters.get? name = some value)
        ordersWithLines "o" (linesOf "A") [linesOf "B"] := by
  have keeps : ∀ call ∈ joinBothKinds, call.keepsScope = true := by
    simp [joinBothKinds, Call.keepsScope]
  obtain ⟨-, lands⟩ := conditions_land_once ordersWithLines ⟨0⟩ "o" joinBothKinds keeps
  have hjoin : bothKinds.joins[0]? = some
      ⟨[{ linesOf "A" with
          criteria := some (.and [
            .eq (.column (.qualified "o_j1" "sku")) (.param "o_R1"),
            .isNull (.column (.qualified "o_j1" "deleted"))])
          placement := some ⟨0⟩ }], false⟩ := by cbv
  obtain ⟨id, h, first, later, hid, hsteps, howned, halias, hrestricted⟩ :=
    lands _ (List.mem_of_getElem? hjoin) [] _ [] rfl
  obtain rfl := Option.some.inj hid
  have hrequested : (((((new ordersWithLines ⟨0⟩).setAlias "o").requestedIn
      joinBothKinds).flatten.zip bothKinds.recorded).filter fun e =>
        e.2.placement = some ⟨0⟩).map Prod.fst = [linesOf "A", linesOf "B"] := by cbv
  have horigin : bothKinds.tableAlias = "o" := by cbv
  obtain ⟨rfl, rfl⟩ := List.cons.inj (hsteps.symm.trans hrequested)
  refine ⟨keeps, h, howned, halias.trans (by cbv), ?_⟩
  rw [← horigin]
  exact hrestricted

end Session

end JoinPath
