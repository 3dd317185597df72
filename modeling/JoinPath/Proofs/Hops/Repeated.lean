import JoinPath.Proofs.Hops.Fetched
import JoinPath.Proofs.Hops.Revisited
import JoinPath.Proofs.Hops.Scoped
/-!
# Repeated joins

Joining again along a path selects no further columns and makes no further hops; whatever it adds to
the condition of a hop is said there already. The hops are the same exactly if the conditions of the
steps are still parts of those of their hops, which they are unless one of them is an `AND` itself
(`repeated_join`).
-/

namespace JoinPath

open Bindings (Change)
open Criteria (HasPart conjunctsOf)

/-- The second step asks for what the first one does. The kind of the join and the alias count only
where nothing is joined yet. -/
structure Step.Repeats (step again : Step) : Prop where
  association : again.association = step.association
  criteria : again.criteria = step.criteria
  columns : again.columns = step.columns

/-- What is the conjunction of a settled condition and others has it as a part. -/
theorem IsConjunction.hasPart {bound : String → Value → Prop} {tableAlias : String} {c : Criteria}
    {cs : List Criteria} {on : Option Criteria} (h : IsConjunction bound tableAlias cs on)
    (hc : c ∈ cs) (settled : c.IsSettled) :
    HasPart on (c.qualify tableAlias) ∧ (c.qualify tableAlias).conjuncts ⊆ conjunctsOf on := by
  cases cs with
  | nil => cases hc
  | cons first cs =>
    obtain ⟨d, rfl, hfilled⟩ := h
    rw [Criteria.qualify, (Criteria.rewrites_mapColumns _).and] at hfilled
    obtain ⟨ds, rfl, hds⟩ := Criteria.exists_of_filled_and hfilled
    obtain ⟨e, he, hfilled⟩ := exists_mem_of_forall₂ hds (List.mem_map_of_mem hc)
    obtain rfl := hfilled.eq_of_isSettled (settled.mapColumns _)
    refine ⟨Criteria.hasPart_and he, ?_⟩
    change _ ⊆ (Criteria.and ds).conjuncts
    rw [Criteria.conjuncts_and]
    exact fun x hx => List.mem_flatMap.2 ⟨_, he, hx⟩

/-- A settled condition alone stands there as it was, with the alias. -/
theorem IsConjunction.eq_of_isSettled {bound : String → Value → Prop} {tableAlias : String}
    {c on : Option Criteria} (h : IsConjunction bound tableAlias c.toList on)
    (settled : ∀ d ∈ c, d.IsSettled) : on = c.map (.qualify tableAlias) := by
  cases c with
  | none => exact h
  | some c =>
    obtain ⟨d, rfl, hfilled⟩ := h
    exact congrArg some (hfilled.eq_of_isSettled ((settled c rfl).mapColumns _))

theorem Criteria.qualify_ne_and {c : Criteria} (h : ∀ cs, c ≠ .group .and cs) (tableAlias : String)
    (cs : List Criteria) : c.qualify tableAlias ≠ .group .and cs := by
  intro heq
  cases c with
  | group op ds =>
    rw [qualify, mapColumns_group] at heq
    obtain ⟨rfl, -⟩ := Criteria.group.inj heq
    exact h ds rfl
  | _ => simp [qualify, mapColumns] at heq

namespace Session

variable {s t : Session} {requests : List (List Step)} {changes : List Change} {c : Criteria}
  {id : PlacementId} {join : Join}

/-! ## What was brought before -/

/-- What the caller of a recorded step brought is in the condition of its hop: all conjuncts, and
the condition itself as a part if it is no `AND`. -/
theorem Traced.brought_before (h : Traced requests changes s) {e : Step × Step}
    (he : e ∈ requests.flatten.zip s.recorded) (hid : e.2.placement = some id)
    (hc : e.1.criteria = some c) (settled : c.IsSettled) {hop : Hop Criteria}
    (hhop : (some id, hop) ∈ s.placedHops.1) :
    (c.qualify hop.tableAlias).conjuncts ⊆ conjunctsOf hop.on ∧
      ((∀ cs, c ≠ .group .and cs) → HasPart hop.on (c.qualify hop.tableAlias)) := by
  obtain ⟨v, later, hsharing, ⟨howner, rfl⟩ | ⟨hnone, -⟩⟩ := placedHops_cases hhop
  · obtain rfl := Option.some.inj howner
    have hend : s.endAlias e.2 = (s.endHop v later).tableAlias := by
      rw [endAlias_eq_finalAlias hid, tableAlias_endHop]
    have hsteps := h.sharing_eq v.id
    rw [hsharing] at hsteps
    obtain ⟨first, pairs, hpairs, hfirst, hlater⟩ := List.map_eq_cons_iff.1 hsteps
    obtain ⟨hown, hmore⟩ := h.attached.sharing List.not_mem_nil hpairs
    have hmem : e ∈ first :: pairs := hpairs ▸ List.mem_filter.2 ⟨he, decide_eq_true hid⟩
    rcases List.mem_cons.1 hmem with rfl | hmem
    · -- The first step brought the condition with those of its table.
      have hmember : c ∈ (addition s.schema (s.startAlias e.2) e.1).criteria :=
        List.mem_append_left _ (List.mem_append_left _ (Option.mem_toList.2 hc))
      obtain ⟨hpart, hconjuncts⟩ := hown.criteria.hasPart hmember settled
      rw [hend, hfirst] at hpart hconjuncts
      refine ⟨fun x hx => (Hop.grown_foldl _ later).conjuncts.subset (hconjuncts hx),
        fun hand => ?_⟩
      exact Hop.hasPart_foldl hpart (Criteria.qualify_ne_and hand _) later
    · have hcriteria := (hmore e hmem).criteria.eq_of_isSettled fun d hd => by
        obtain rfl := Option.some.inj (hc.symm.trans hd)
        exact settled
      obtain ⟨w, hw, hstep⟩ := List.mem_map.1 (hlater ▸ List.mem_map_of_mem hmem)
      rw [hend, hc, ← hstep] at hcriteria
      have hsettled := settled.mapColumns (.orAlias (s.endHop v later).tableAlias)
      exact ⟨Hop.conjuncts_foldl_of_mem _ hw hcriteria hsettled, fun hand =>
        Hop.hasPart_foldl_of_mem _ hw hcriteria hsettled (Criteria.qualify_ne_and hand _)⟩
  · cases hnone

/-! ## Earlier joins -/

/-- Joins along the same associations have the same placements. -/
theorem Routed.placements_eq (hs : s.Routed) {p q : Join} (hp : p ∈ s.joins) (hq : q ∈ s.joins)
    (h : Step.associations p.path = Step.associations q.path) :
    p.path.map Step.placement = q.path.map Step.placement := by
  have hlength := congrArg List.length h
  rw [Step.length_associations, Step.length_associations] at hlength
  refine List.ext_getElem (by simpa using hlength) fun i hi hi' => ?_
  rw [List.getElem_map, List.getElem_map, hs.same_placement_iff hp hq]
  exact ⟨rfl, by rw [Step.associations_take, Step.associations_take, h]⟩

/-- The steps of a requested path stand with those that were recorded for them. -/
theorem zip_subset_of_aligned {joins : List Join} {path : List Step}
    (aligned : List.Forall₂
      (fun request (join : Join) => Step.associations request = Step.associations join.path)
      requests joins) (h : (path, join) ∈ requests.zip joins) :
    path.zip join.path ⊆ requests.flatten.zip (joins.flatMap Join.path) := by
  induction aligned with
  | nil => cases h
  | @cons request first requests joins hfirst _ ih =>
    have hlength := congrArg List.length hfirst
    rw [Step.length_associations, Step.length_associations] at hlength
    rw [List.flatten_cons, List.flatMap_cons, List.zip_append hlength]
    rcases List.mem_cons.1 h with heq | h
    · obtain ⟨rfl, rfl⟩ := Prod.mk.inj heq
      exact List.subset_append_left _ _
    · exact fun e he => List.mem_append_right _ (ih h he)

theorem exists_mem_zip_of_repeats {path again placed placed' : List Step}
    (same : List.Forall₂ Step.Repeats path again)
    (h : placed.map Step.placement = placed'.map Step.placement) {e : Step × Step}
    (he : e ∈ again.zip placed') :
    ∃ e₀ ∈ path.zip placed, e₀.1.Repeats e.1 ∧ e₀.2.placement = e.2.placement := by
  induction same generalizing placed placed' with
  | nil => cases he
  | cons hfirst _ ih =>
    cases placed' with
    | nil => cases he
    | cons step' placed' =>
      cases placed with
      | nil => cases h
      | cons step placed =>
        obtain ⟨hstep, hrest⟩ := List.cons.inj h
        rcases List.mem_cons.1 he with rfl | he
        · exact ⟨_, List.mem_cons_self, hfirst, hstep⟩
        · obtain ⟨e₀, he₀, hsame⟩ := ih hrest he
          exact ⟨e₀, List.mem_cons_of_mem _ he₀, hsame⟩

theorem associations_of_repeats {path again : List Step}
    (same : List.Forall₂ Step.Repeats path again) :
    Step.associations again = Step.associations path := by
  induction same with
  | nil => rfl
  | cons hfirst _ ih =>
    rw [Step.associations, List.map_cons, hfirst.association]
    exact congrArg _ ih

/-- The second session has joined along `again`, which repeats the path of an earlier join. -/
structure JoinedAgain (s t : Session) (requests : List (List Step)) (changes : List Change)
    (path again : List Step) (first join : Join) : Prop where
  before : Traced requests changes s
  after : ∃ more, Traced (requests ++ [again]) (changes ++ more) t
  continues : s.Continues t [join]
  earlier : (path, first) ∈ requests.zip s.joins
  fetch : join.fetch = first.fetch
  repeats : List.Forall₂ Step.Repeats path again
  associations : Step.associations join.path = Step.associations again

theorem Traced.joinedAgain (h : Traced requests changes s) {path again : List Step}
    (hne : again ≠ []) {first : Join} (hfirst : (path, first) ∈ requests.zip s.joins)
    (same : List.Forall₂ Step.Repeats path again) :
    s.JoinedAgain (s.joinTo again first.fetch) requests changes path again first
      ⟨(s.compose again).1, first.fetch⟩ where
  before := h
  after := ⟨_, h.joinTo hne first.fetch⟩
  continues :=
    ⟨(s.adds_joinTo hne first.fetch).schema, (s.adds_joinTo hne first.fetch).extends,
      (h.anchored.joinedAlong h.routed hne first.fetch).joins⟩
  earlier := hfirst
  fetch := rfl
  repeats := same
  associations := s.associations_compose again

namespace JoinedAgain

variable {path again : List Step} {first : Join}

theorem placements_eq (h : s.JoinedAgain t requests changes path again first join) :
    first.path.map Step.placement = join.path.map Step.placement := by
  obtain ⟨more, hafter⟩ := h.after
  have hold : first ∈ s.joins := (List.of_mem_zip h.earlier).2
  have hassociations : Step.associations path = Step.associations first.path :=
    List.forall₂_zip h.before.aligned h.earlier
  refine hafter.routed.placements_eq ?_ ?_ ?_
  · rw [h.continues.joins]
    exact List.mem_append_left _ hold
  · rw [h.continues.joins]
    exact List.mem_append_right _ (List.mem_singleton_self _)
  · rw [h.associations, associations_of_repeats h.repeats, hassociations]

theorem ids_visits (h : s.JoinedAgain t requests changes path again first join) :
    join.visits.map Visit.id = first.visits.map Visit.id := by
  have hids (path : List Step) :
      path.filterMap Step.placement = (path.map Step.placement).filterMap id := by
    rw [List.filterMap_map]
    rfl
  rw [map_id_visits, map_id_visits, hids, hids, h.placements_eq]

theorem visited (h : s.JoinedAgain t requests changes path again first join) :
    join.visits.map Visit.id ⊆ s.visits.map Visit.id := by
  rw [h.ids_visits]
  intro id hid
  obtain ⟨v, hv, rfl⟩ := List.mem_map.1 hid
  exact List.mem_map_of_mem (List.mem_flatMap.2 ⟨first, (List.of_mem_zip h.earlier).2, hv⟩)

theorem nodup (h : s.JoinedAgain t requests changes path again first join) :
    (join.visits.map Visit.id).Nodup := by
  obtain ⟨c, hc, hbegins⟩ := h.before.routed.recorded first (List.of_mem_zip h.earlier).2
  have hplacements := h.before.routed.nodup_placements hc hbegins
  have hids := hplacements.filterMap (f := id) fun a b x ha hb => ha.trans hb.symm
  rw [List.filterMap_map] at hids
  rw [h.ids_visits, map_id_visits]
  exact hids

/-- Each visit of the join is that of a repeated step, and stands where the step stood before. -/
theorem exists_earlier (h : s.JoinedAgain t requests changes path again first join) {v : Visit}
    (hv : v ∈ join.visits) :
    ∃ e ∈ again.zip join.path, e.2 = v.step ∧ ∃ e₀ ∈ path.zip first.path,
      e₀ ∈ requests.flatten.zip s.recorded ∧ e₀.1.Repeats e.1 ∧ e₀.2.placement = some v.id := by
  obtain ⟨hstep, hid, -⟩ := Join.mem_visits.1 hv
  have hlength := congrArg List.length h.associations
  rw [Step.length_associations, Step.length_associations] at hlength
  rw [← List.map_snd_zip (Nat.le_of_eq hlength)] at hstep
  obtain ⟨e, he, hstep⟩ := List.mem_map.1 hstep
  obtain ⟨e₀, he₀, hrepeats, hplaced⟩ := exists_mem_zip_of_repeats h.repeats h.placements_eq he
  exact ⟨e, he, hstep, e₀, he₀, zip_subset_of_aligned h.before.aligned h.earlier he₀, hrepeats,
    hplaced.trans (hstep ▸ hid)⟩

theorem finalAlias_eq (h : s.JoinedAgain t requests changes path again first join) {v : Visit}
    (hv : v ∈ join.visits) : t.endAlias v.step = s.finalAlias v.id := by
  obtain ⟨_, _, _, hstands⟩ :=
    h.before.routed.stands_visited (h.visited (List.mem_map_of_mem hv))
  rw [endAlias_eq_finalAlias (Join.mem_visits.1 hv).2.1, finalAlias, finalAlias,
    h.continues.placement_terminal hstands]

/-- A repeated step is recorded with what its caller adds. -/
theorem attached (h : s.JoinedAgain t requests changes path again first join) {v : Visit}
    (hv : v ∈ join.visits) {e : Step × Step} (he : e ∈ again.zip join.path) (hstep : e.2 = v.step) :
    ∃ bound, e.1.Attached bound (s.finalAlias v.id) e.1.criteria.toList v.step := by
  obtain ⟨more, hafter⟩ := h.after
  have hattached := hafter.attached
  have hrecorded : t.recorded = s.recorded ++ join.path := by
    rw [recorded, h.continues.joins, List.flatMap_append, List.flatMap_singleton]
    rfl
  rw [hrecorded, List.flatten_append, List.flatten_singleton,
    List.zip_append h.before.length_recorded, attachedFrom_append, List.nil_append,
    h.before.seen_eq] at hattached
  have hid := (Join.mem_visits.1 hv).2.1
  have hseen : v.id ∈ s.recorded.filterMap Step.placement := by
    obtain ⟨join', hjoin', step, hplaced, hid'⟩ :=
      mem_visits_iff.1 (h.visited (List.mem_map_of_mem hv))
    exact List.mem_filterMap.2 ⟨step, List.mem_flatMap.2 ⟨join', hjoin', hplaced⟩, hid'⟩
  have hown := hattached.2.of_seen hseen e he (hstep ▸ hid)
  rw [hstep, h.finalAlias_eq hv] at hown
  exact ⟨_, hown⟩

theorem joinedColumns_eq (h : s.JoinedAgain t requests changes path again first join) :
    t.joinedColumns = s.joinedColumns := by
  rw [h.continues.joinedColumns_eq h.before.routed, List.flatMap_singleton]
  refine foldl_selectMore_of_subset fun v hv => ?_
  obtain ⟨e, he, hstep, e₀, he₀, hold, hrepeats, hplaced⟩ := h.exists_earlier hv
  obtain ⟨-, hid, hfetch⟩ := Join.mem_visits.1 hv
  obtain ⟨_, _, _, hstands⟩ := h.before.routed.stands_visited (h.visited (List.mem_map_of_mem hv))
  have hvisit : (⟨v.id, e₀.2, first.fetch⟩ : Visit) ∈ s.visits :=
    List.mem_flatMap.2 ⟨first, (List.of_mem_zip h.earlier).2,
      Join.mem_visits.2 ⟨(List.of_mem_zip he₀).2, hplaced, rfl⟩⟩
  obtain ⟨_, hattached⟩ := h.attached hv he hstep
  obtain ⟨_, hattached₀⟩ := h.before.attached.exists_attached e₀ hold
  have hcolumns : v.step.columns = e₀.2.columns := by
    rw [hattached.columns, hattached₀.columns, hrepeats.columns, endAlias_eq_finalAlias hplaced]
  have hselected : s.selectedColumns v.step v.id v.fetch =
      s.selectedColumns e₀.2 v.id first.fetch := by
    rw [selectedColumns, selectedColumns, hcolumns, hfetch, h.fetch]
  rw [h.continues.selectedColumns hstands, hselected]
  exact fun ref href => mem_joinedColumns hvisit href

/-- A settled condition is repeated under the alias of its hop. -/
theorem criteria_eq (h : s.JoinedAgain t requests changes path again first join)
    (settled : ∀ step ∈ path, ∀ c ∈ step.criteria, c.IsSettled) {v : Visit}
    (hv : v ∈ join.visits) {e : Step × Step} (he : e ∈ again.zip join.path) (hstep : e.2 = v.step) :
    v.step.criteria = e.1.criteria.map (.qualify (s.finalAlias v.id)) := by
  obtain ⟨e₀, he₀, hrepeats, -⟩ := exists_mem_zip_of_repeats h.repeats h.placements_eq he
  obtain ⟨_, hattached⟩ := h.attached hv he hstep
  refine hattached.criteria.eq_of_isSettled ?_
  rw [hrepeats.criteria]
  exact settled e₀.1 (List.of_mem_zip he₀).1

/-- What is repeated was brought before. -/
theorem brought_before (h : s.JoinedAgain t requests changes path again first join)
    (settled : ∀ step ∈ path, ∀ c ∈ step.criteria, c.IsSettled) {v : Visit}
    (hv : v ∈ join.visits) {hop : Hop Criteria} (hhop : (some v.id, hop) ∈ s.placedHops.1)
    (hc : c ∈ v.step.criteria) :
    c.IsSettled ∧ c.conjuncts ⊆ conjunctsOf hop.on ∧
      ((∀ step ∈ path, ∀ d ∈ step.criteria, ∀ cs, d ≠ .group .and cs) → HasPart hop.on c) := by
  obtain ⟨e, he, hstep, e₀, he₀, hold, hrepeats, hplaced⟩ := h.exists_earlier hv
  rw [h.criteria_eq settled hv he hstep, hrepeats.criteria,
    ← tableAlias_of_mem_placedHops hhop] at hc
  obtain ⟨own, hown, rfl⟩ := Option.map_eq_some_iff.1 hc
  have hmem : e₀.1 ∈ path := (List.of_mem_zip he₀).1
  have hsettled := settled e₀.1 hmem own hown
  obtain ⟨hconjuncts, hpart⟩ := h.before.brought_before hold hplaced hown hsettled hhop
  exact ⟨hsettled.mapColumns _, hconjuncts, fun hand => hpart (hand e₀.1 hmem own hown)⟩

theorem settled_visits (h : s.JoinedAgain t requests changes path again first join)
    (settled : ∀ step ∈ path, ∀ c ∈ step.criteria, c.IsSettled) :
    ∀ v ∈ join.visits, ∀ c ∈ v.step.criteria, c.IsSettled := by
  intro v hv c hc
  obtain ⟨u, later, hsharing, -⟩ := exists_first_visit (h.visited (List.mem_map_of_mem hv))
  exact (h.brought_before settled hv ((mem_placedHops_iff hsharing).2 rfl) hc).1

theorem hops_restated (h : s.JoinedAgain t requests changes path again first join)
    (settled : ∀ step ∈ path, ∀ c ∈ step.criteria, c.IsSettled) :
    List.Forall₂ Hop.Restated s.hops t.hops :=
  h.continues.hops_restated h.before.routed h.visited h.nodup fun _ hv _ hhop _ hc =>
    (h.brought_before settled hv hhop hc).2.1

theorem hops_eq (h : s.JoinedAgain t requests changes path again first join)
    (settled : ∀ step ∈ path, ∀ c ∈ step.criteria, c.IsSettled)
    (hand : ∀ step ∈ path, ∀ c ∈ step.criteria, ∀ cs, c ≠ .group .and cs) : t.hops = s.hops :=
  (h.continues.hops_eq_iff h.before.routed h.visited h.nodup (h.settled_visits settled)).2
    fun _ hv _ hhop _ hc => (h.brought_before settled hv hhop hc).2.2 hand

/-- The hops stay the same exactly if the repeated conditions are still parts of those of their
hops. -/
theorem hops_eq_iff (h : s.JoinedAgain t requests changes path again first join)
    (settled : ∀ step ∈ path, ∀ c ∈ step.criteria, c.IsSettled) :
    t.hops = s.hops ↔ ∀ e ∈ again.zip join.path, ∀ c ∈ e.1.criteria,
      ∃ hop, (e.2.placement, hop) ∈ s.placedHops.1 ∧ HasPart hop.on (c.qualify hop.tableAlias) := by
  obtain ⟨more, hafter⟩ := h.after
  rw [h.continues.hops_eq_iff h.before.routed h.visited h.nodup (h.settled_visits settled)]
  constructor
  · intro hpart e he c hc
    have hstep : e.2 ∈ join.path := (List.of_mem_zip he).2
    have hjoin : join ∈ t.joins := by
      rw [h.continues.joins]
      exact List.mem_append_right _ (List.mem_singleton_self _)
    obtain ⟨id, _, _, hid, -⟩ := hafter.routed.joined_standing hjoin hstep
    have hv : (⟨id, e.2, join.fetch⟩ : Visit) ∈ join.visits := Join.mem_visits.2 ⟨hstep, hid, rfl⟩
    obtain ⟨u, later, hsharing, -⟩ := exists_first_visit (h.visited (List.mem_map_of_mem hv))
    have hhop := (mem_placedHops_iff hsharing).2 rfl
    refine ⟨_, hid ▸ hhop, hpart _ hv _ hhop _ ?_⟩
    rw [h.criteria_eq settled hv he rfl, tableAlias_of_mem_placedHops hhop]
    exact Option.mem_map_of_mem _ hc
  · intro hpart v hv hop hhop c hc
    obtain ⟨e, he, hstep, -⟩ := h.exists_earlier hv
    rw [h.criteria_eq settled hv he hstep, ← tableAlias_of_mem_placedHops hhop] at hc
    obtain ⟨own, hown, rfl⟩ := Option.map_eq_some_iff.1 hc
    obtain ⟨hop', hhop', hpart'⟩ := hpart e he own hown
    obtain ⟨u, later, hsharing, -⟩ := exists_first_visit (h.visited (List.mem_map_of_mem hv))
    rw [hstep, (Join.mem_visits.1 hv).2.1, mem_placedHops_iff hsharing] at hhop'
    rw [mem_placedHops_iff hsharing] at hhop
    rwa [hhop, ← hhop']

end JoinedAgain

/-- In a run that joins along a path, that join is recorded for it. -/
theorem exists_recorded_of_joinTo (schema : Schema) (table : TableId) (tableAlias : String)
    {before between : List Call} {path : List Step} (hne : path ≠ []) (fetch : Bool)
    (keeps : ∀ call ∈ before ++ between, call.keepsScope = true) :
    let s := ((new schema table).setAlias tableAlias).run (before ++ .joinTo path fetch :: between)
    ∃ requests changes first, Traced requests changes s ∧ (path, first) ∈ requests.zip s.joins ∧
      first.fetch = fetch := by
  intro s
  set start := (new schema table).setAlias tableAlias with hstart
  have hbefore := (traced_setAlias_new schema table tableAlias).run fun call hcall =>
    keeps call (List.mem_append_left _ hcall)
  rw [← hstart, List.nil_append, List.nil_append] at hbefore
  have hjoined := (hbefore.anchored.joinedAlong hbefore.routed hne fetch).joins
  have hafter := (hbefore.joinTo hne fetch).run fun call hcall =>
    keeps call (List.mem_append_right before hcall)
  have hs : s = ((start.run before).joinTo path fetch).run between := run_append _ _ _
  obtain ⟨more, hmore⟩ := ((start.run before).joinTo path fetch).prefix_joins_run between
  rw [← hs] at hafter hmore
  refine ⟨_, _, ⟨((start.run before).compose path).1, fetch⟩, hafter, ?_, rfl⟩
  have hlength := hbefore.aligned.length_eq
  rw [← hmore, hjoined, List.append_assoc, List.append_assoc, List.zip_append hlength]
  exact List.mem_append_right _ List.mem_cons_self

/-- Joining again along a path whose conditions have neither literals nor subqueries, after any
other calls that keep the base table: the selected columns are the same, and so are the hops, each
with its kind, table, alias and column pairs and perhaps with conjuncts that it has once more. No
condition changes exactly if those of the path, under the aliases of their hops, are all of the
condition there or members of its `AND`; that is so if none of them is an `AND` itself. -/
theorem repeated_join (schema : Schema) (table : TableId) (tableAlias : String)
    (before between : List Call) (path again : List Step) (fetch : Bool)
    (keeps : ∀ call ∈ before ++ between, call.keepsScope = true)
    (same : List.Forall₂ Step.Repeats path again)
    (settled : ∀ step ∈ path, ∀ c ∈ step.criteria, c.IsSettled) :
    let s := ((new schema table).setAlias tableAlias).run (before ++ .joinTo path fetch :: between)
    let t := s.joinTo again fetch
    t.joinedColumns = s.joinedColumns ∧
    List.Forall₂ Hop.Restated s.hops t.hops ∧
    (t.hops = s.hops ↔ ∀ e ∈ again.zip (s.compose again).1, ∀ c ∈ e.1.criteria,
      ∃ h, (e.2.placement, h) ∈ s.placedHops.1 ∧ HasPart h.on (c.qualify h.tableAlias)) ∧
    ((∀ step ∈ path, ∀ c ∈ step.criteria, ∀ cs, c ≠ .group .and cs) → t.hops = s.hops) := by
  intro s t
  by_cases hne : again = []
  · subst hne
    obtain rfl := List.forall₂_nil_right_iff.1 same
    have hsame : t = s := s.joinTo_nil fetch
    rw [hsame]
    refine ⟨rfl, List.forall₂_same.2 fun h _ => .refl h, iff_of_true rfl ?_, fun _ => rfl⟩
    intro e he
    cases he
  have hpath : path ≠ [] := by
    rintro rfl
    exact hne (List.forall₂_nil_left_iff.1 same)
  obtain ⟨requests, changes, first, htraced, hfirst, rfl⟩ :=
    exists_recorded_of_joinTo schema table tableAlias hpath fetch keeps
  have hagain := htraced.joinedAgain hne hfirst same
  exact ⟨hagain.joinedColumns_eq, hagain.hops_restated settled, hagain.hops_eq_iff settled,
    hagain.hops_eq settled⟩

/-! ## Tags that are joined again -/

/-- A step to the tags that meet a condition. -/
def tagsWith (c : Criteria) : Step := { association := ⟨2⟩, kind := .left, criteria := some c }

/-- The tags without a name, and then the others of them that have a number. -/
def joinUnnamed : List Call := [
  .joinTo [tagsWith (.isNull (.col "name"))] true,
  .joinTo [tagsWith (.isNotNull (.col "id"))] false]

theorem repeated_join_unnamed :
    (∀ call ∈ joinUnnamed.tail, call.keepsScope = true) ∧
    List.Forall₂ Step.Repeats [tagsWith (.isNull (.col "name"))]
      [tagsWith (.isNull (.col "name"))] ∧
    (∀ step ∈ [tagsWith (.isNull (.col "name"))], ∀ c ∈ step.criteria, c.IsSettled) ∧
    let s := ((new (.declared booksAndTags) ⟨0⟩).setAlias "b").run joinUnnamed
    let t := s.joinTo [tagsWith (.isNull (.col "name"))] true
    t.joinedColumns = s.joinedColumns ∧ t.hops = s.hops := by
  have keeps : ∀ call ∈ joinUnnamed.tail, call.keepsScope = true := by
    simp [joinUnnamed, Call.keepsScope]
  have same : List.Forall₂ Step.Repeats [tagsWith (.isNull (.col "name"))]
      [tagsWith (.isNull (.col "name"))] := .cons ⟨rfl, rfl, rfl⟩ .nil
  have each {P : Criteria → Prop} (h : P (.isNull (.col "name"))) :
      ∀ step ∈ [tagsWith (.isNull (.col "name"))], ∀ c ∈ step.criteria, P c := by
    intro step hstep c hc
    rw [List.mem_singleton.1 hstep] at hc
    rwa [← Option.some.inj hc]
  have settled := each (P := Criteria.IsSettled) ⟨rfl, rfl⟩
  have single := each (P := fun c => ∀ cs, c ≠ .group .and cs) (by rintro cs ⟨⟩)
  obtain ⟨hcolumns, -, -, hops⟩ := repeated_join (.declared booksAndTags) ⟨0⟩ "b" []
    joinUnnamed.tail [tagsWith (.isNull (.col "name"))] [tagsWith (.isNull (.col "name"))] true
    keeps same settled
  exact ⟨keeps, same, settled, hcolumns, hops single⟩

/-- A condition of tags that is an `AND` itself. -/
def blankTags : Step := tagsWith (.and [.isNull (.col "name"), .isNull (.col "id")])

/-- An `AND` that was the whole condition is not found in it any more once it was extended. -/
theorem repeated_and_added :
    let s := (new (.declared booksAndTags) ⟨0⟩).run [
      .joinTo [blankTags] false,
      .joinTo [tagsWith (.isNotNull (.col "name"))] false]
    let name := Criteria.column (.qualified "t0_j1" "name")
    let number := Criteria.column (.qualified "t0_j1" "id")
    s.hops.map Hop.on =
      [none, some (.group .and [.isNull name, .isNull number, .isNotNull name])] ∧
    (s.joinTo [blankTags] false).hops.map Hop.on =
      [none, some (.group .and [.isNull name, .isNull number, .isNotNull name,
        .group .and [.isNull name, .isNull number]])] := by
  cbv

end Session

end JoinPath
