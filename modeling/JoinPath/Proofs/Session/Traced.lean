import JoinPath.Proofs.Session.Recorded
import JoinPath.Proofs.Session.Scope
/-!
# Traced sessions

A session is traced by the paths that its calls asked to join: they are recorded in that order,
each step with the conditions that it brings, and the first step through a placement brings those
of the table and the discriminators too. While the base table keeps its alias and every join is
composed, all runs are traced (`Traced.run`).
-/

namespace JoinPath

open Bindings (Change)
open Criteria (NamedBy)

namespace Session

/-- The session records the requests in their order; `changes` made its parameters. -/
structure Traced (requests : List (List Step)) (changes : List Change) (s : Session) : Prop where
  routed : s.Routed
  anchored : s.Anchored
  bindings : s.bindings = Bindings.empty.changed changes
  aligned : List.Forall₂
    (fun request (join : Join) => Step.associations request = Step.associations join.path)
    requests s.joins
  attached : s.AttachedFrom (NamedBy 0 changes) [] (requests.flatten.zip s.recorded)
  composed : ∀ id ∈ s.composed, ∃ step ∈ s.recorded, step.placement = some id
  bare : ∀ step ∈ s.recorded, ∀ id ∈ step.placement, id ∉ s.composed →
    IsBare s.schema step.association

variable {s t : Session} {bound : String → Value → Prop}

/-! ## Joining -/

/-- In an anchored session the steps of a resolved path add what they do where they stand. -/
theorem Anchored.withAdditions_eq (hs : s.Routed) (ha : s.Anchored) (path : List Step) :
    s.resolved path = (s.resolve path).2 ∧
      s.withAdditions path = (s.resolve path).1.map (s.resolve path).2.withAddition := by
  have hchain := ha.resolve_chained hs path
  rw [← tableAlias_resolve] at hchain
  have hadditions := hchain.additionsFrom_eq
  change (s.resolve path).2.additions (s.resolve path).1 = _ at hadditions
  rw [resolved, withAdditions, hadditions]
  refine ⟨rfl, ?_⟩
  rw [← List.map_id (s.resolve path).1, List.map_map, List.zip_map', List.map_map]
  rfl

/-- What composing a path records: every step with what it brings. -/
theorem Anchored.compose_recordedAs (hs : s.Routed) (ha : s.Anchored) {path : List Step}
    (hne : path ≠ []) :
    List.Forall₂
        ((s.resolve path).2.RecordedAs (NamedBy s.bindings.literals (s.joinChanges path)))
        (s.resolve path).1 (s.compose path).1 ∧
      ∃ bindings log composed,
        (s.compose path).2 =
          { (s.resolve path).2 with bindings := bindings, log := log, composed := composed } ∧
        ∀ id, id ∈ composed ↔ id ∈ s.composed ∨ ∃ step ∈ (s.resolve path).1,
          step.placement = some id ∧ ((s.resolve path).2.withAddition step).2.isEmpty = false := by
  obtain ⟨hresolved, hadditions⟩ := ha.withAdditions_eq hs path
  obtain ⟨c, hc, hbegins⟩ := hs.resolve_recorded hne
  obtain ⟨_, _, _, _, _, _, hframe⟩ := s.resolve_frame path
  have hbindings : (s.resolve path).2.bindings = s.bindings := by rw [hframe]
  have hcomposed : (s.resolve path).2.composed = s.composed := by rw [hframe]
  have h := attachAll_of_linked
    (fun step hstep => (ha.resolve_chained hs path).isLinked hstep)
    ((hs.resolve path).nodup_placements hc hbegins)
  have hchanges : s.joinChanges path = (s.resolve path).2.attachAllChanges
      ((s.resolve path).1.map (s.resolve path).2.withAddition) := by
    rw [joinChanges, if_neg (by simpa using hne), hresolved, hadditions]
  rw [hchanges, compose_eq, hresolved, hadditions, ← hbindings, ← hcomposed]
  exact h

theorem RecordedAs.attached {step placed recorded : Step} (h : s.RecordedAs bound placed recorded)
    (hplaced : step.IsPlaced placed) :
    recorded.placement = placed.placement ∧
      step.Attached bound (s.endAlias recorded)
        (brought s.schema (s.startAlias recorded) step (!s.composedBefore recorded)) recorded := by
  obtain ⟨id, rfl⟩ := hplaced
  obtain ⟨hkey, hattached⟩ := h
  have hplacement := congrArg Prod.snd hkey
  refine ⟨hplacement, ?_⟩
  unfold endAlias startAlias composedBefore
  rw [show recorded.placement = some id from hplacement]
  exact ⟨hattached.same, hattached.criteria, hattached.columns⟩

theorem Traced.length_recorded {requests : List (List Step)} {changes : List Change}
    (h : Traced requests changes s) : requests.flatten.length = s.recorded.length := by
  have haligned := h.aligned
  unfold recorded
  clear h
  generalize s.joins = joins at haligned ⊢
  induction haligned with
  | nil => rfl
  | cons hfirst _ ih =>
    have hlen := congrArg List.length hfirst
    rw [Step.length_associations, Step.length_associations] at hlen
    rw [List.flatten_cons, List.flatMap_cons, List.length_append, List.length_append, hlen, ih]

theorem Traced.zip_snd {requests : List (List Step)} {changes : List Change}
    (h : Traced requests changes s) :
    (requests.flatten.zip s.recorded).map Prod.snd = s.recorded :=
  List.map_snd_zip (Nat.le_of_eq h.length_recorded.symm)

/-- The placements that the recorded steps have. -/
theorem Traced.seen_eq {requests : List (List Step)} {changes : List Change}
    (h : Traced requests changes s) :
    (requests.flatten.zip s.recorded).filterMap (fun e => e.2.placement) =
      s.recorded.filterMap Step.placement := by
  rw [← h.zip_snd, List.filterMap_map, h.zip_snd]
  rfl

/-- A step brings the same whether its placement counts as composed or as recorded. -/
theorem Traced.brought_eq {requests : List (List Step)} {changes : List Change}
    (h : Traced requests changes s) {step : Step} {id : PlacementId}
    (hsame : ∀ old ∈ s.recorded, old.placement = some id → old.association = step.association)
    (origin : String) :
    brought s.schema origin step (!s.composed.contains id) =
      brought s.schema origin step (!(s.recorded.filterMap Step.placement).contains id) := by
  by_cases hcomposed : id ∈ s.composed
  · obtain ⟨old, hold, hid⟩ := h.composed id hcomposed
    have hseen : id ∈ s.recorded.filterMap Step.placement := List.mem_filterMap.2 ⟨old, hold, hid⟩
    simp only [List.contains_eq_mem, hcomposed, hseen]
  · by_cases hseen : id ∈ s.recorded.filterMap Step.placement
    · obtain ⟨old, hold, hid⟩ := List.mem_filterMap.1 hseen
      have hbare := h.bare old hold id hid hcomposed
      rw [hsame old hold hid] at hbare
      rw [brought_of_bare hbare, brought_of_bare hbare]
    · simp only [List.contains_eq_mem, hcomposed, hseen]

theorem Traced.namedBy_left {changes : List Change} (more : List Change) (name : String)
    (value : Value) (h : NamedBy 0 changes name value) :
    NamedBy 0 (changes ++ more) name value := by
  rw [NamedBy, Bindings.namedFrom_append]
  exact List.mem_append_left _ h

theorem Traced.namedBy_right {requests : List (List Step)} {changes : List Change}
    (h : Traced requests changes s) {more : List Change} (name : String) (value : Value)
    (hmore : NamedBy s.bindings.literals more name value) :
    NamedBy 0 (changes ++ more) name value := by
  rw [h.bindings, Bindings.literals_changed] at hmore
  rw [NamedBy, Bindings.namedFrom_append]
  exact List.mem_append_right _ hmore

/-- A resolved step goes along the association of every recorded step with its placement. -/
theorem Routed.association_eq_resolved (hs : s.Routed) {path : List Step} (hne : path ≠ [])
    {old step : Step} (hold : old ∈ s.recorded) (hstep : step ∈ (s.resolve path).1)
    (h : old.placement = step.placement) : old.association = step.association := by
  obtain ⟨join, hjoin, hmem⟩ := List.mem_flatMap.1 hold
  obtain ⟨c, hc, hbegins⟩ := hs.recorded join hjoin
  obtain ⟨old', hold', hkey⟩ := List.mem_map.1 (hbegins.subset (List.mem_map_of_mem hmem))
  obtain ⟨c', hc', hbegins'⟩ := hs.resolve_recorded hne
  obtain ⟨step', hstep', hkey'⟩ := List.mem_map.1 (hbegins'.subset (List.mem_map_of_mem hstep))
  obtain ⟨ha, hp⟩ := Prod.mk.inj hkey
  obtain ⟨ha', hp'⟩ := Prod.mk.inj hkey'
  rw [← ha, ← ha']
  refine (hs.resolve path).association_eq (s.subset_traversed_resolve path hc) hc' hold' hstep' ?_
  rw [hp, hp', h]

theorem associations_compose (s : Session) (path : List Step) :
    Step.associations (s.compose path).1 = Step.associations path := by
  rw [← s.associations_resolve path]
  have h := congrArg (List.map Prod.fst) (s.compose_key path)
  rw [List.map_map, List.map_map] at h
  exact h

theorem placements_compose (s : Session) (path : List Step) :
    (s.compose path).1.map Step.placement = (s.resolve path).1.map Step.placement := by
  have h := congrArg (List.map Prod.snd) (s.compose_key path)
  rw [List.map_map, List.map_map] at h
  exact h

theorem length_compose (s : Session) (path : List Step) :
    (s.compose path).1.length = path.length := by
  have h := congrArg List.length (s.associations_compose path)
  rwa [Step.length_associations, Step.length_associations] at h

/-- The steps of a composed path, as they are attached after those recorded before. -/
theorem Traced.attachedFrom_compose {requests : List (List Step)} {changes : List Change}
    (h : Traced requests changes s) {path : List Step} (hne : path ≠ []) :
    (s.resolve path).2.AttachedFrom (NamedBy 0 (changes ++ s.joinChanges path))
      (s.recorded.filterMap Step.placement) (path.zip (s.compose path).1) := by
  obtain ⟨c, hc, hbegins⟩ := h.routed.resolve_recorded hne
  obtain ⟨_, _, _, _, _, _, hresolve⟩ := s.resolve_frame path
  have hsteps := forall₂_trans (s.resolve_steps path)
    (h.anchored.compose_recordedAs h.routed hne).1
  refine attachedFrom_of_forall ?_ fun e he => ?_
  · have hsnd : (path.zip (s.compose path).1).map Prod.snd = (s.compose path).1 :=
      List.map_snd_zip (Nat.le_of_eq (s.length_compose path))
    have hnodup := (h.routed.resolve path).nodup_placements hc hbegins
    rw [← placements_compose, ← hsnd, List.map_map] at hnodup
    exact hnodup
  · obtain ⟨q, hq, ⟨id, hid⟩, hrecorded⟩ := List.forall₂_zip hsteps he
    obtain ⟨hplacement, hattached⟩ := hrecorded.attached ⟨id, hid⟩
    have hqid : q.placement = some id := by rw [hid]
    refine ⟨id, hplacement.trans hqid, ?_⟩
    have hsame : ∀ old ∈ s.recorded, old.placement = some id →
        old.association = e.1.association := by
      intro old hold holdid
      rw [h.routed.association_eq_resolved hne hold hq (holdid.trans hqid.symm), hid]
    have hbrought := h.brought_eq hsame ((s.resolve path).2.startAlias e.2)
    have hbefore : (s.resolve path).2.composedBefore e.2 = s.composed.contains id := by
      rw [composedBefore_of_placement (hplacement.trans hqid), hresolve]
    have hschema : (s.resolve path).2.schema = s.schema := by rw [hresolve]
    rw [hbefore, hschema, hbrought] at hattached
    rw [hschema]
    exact hattached.mono h.namedBy_right

/-- Each composed step keeps the key of a resolved one. -/
theorem exists_resolved_of_composed {path : List Step} {recorded : Step}
    (h : recorded ∈ (s.compose path).1) :
    ∃ step ∈ (s.resolve path).1, step.key = recorded.key := by
  have hmem : recorded.key ∈ (s.resolve path).1.map Step.key := by
    rw [← compose_key]
    exact List.mem_map_of_mem h
  exact List.mem_map.1 hmem

theorem isBare_of_isEmpty {schema : Schema} (origin : String) {step : Step}
    (h : (addition schema origin step).isEmpty = true) : IsBare schema step.association := by
  obtain ⟨⟨-, htable, hdiscriminators⟩, -⟩ : ((step.criteria = none) ∧
      (schema.table (schema.association step.association).destination).criteria = [] ∧
      (schema.association step.association).discriminatorCriteria origin = []) ∧
      step.columns = none := by
    simpa [Addition.isEmpty, addition, and_assoc] using h
  refine ⟨htable, ?_⟩
  unfold Association.discriminatorCriteria at hdiscriminators
  dsimp only at hdiscriminators
  split at hdiscriminators
  · exact List.map_eq_nil_iff.1 hdiscriminators
  · exact List.map_eq_nil_iff.1 (List.map_eq_nil_iff.1 hdiscriminators)

/-- The session after a join along a path, as far as its steps go. -/
structure JoinedAlong (s : Session) (path : List Step) (fetch : Bool) (t : Session) : Prop where
  larger : (s.resolve path).2.Extends t
  tableAlias : t.tableAlias = (s.resolve path).2.tableAlias
  joins : t.joins = s.joins ++ [⟨(s.compose path).1, fetch⟩]
  composed : ∀ id, id ∈ t.composed ↔ id ∈ s.composed ∨ ∃ step ∈ (s.resolve path).1,
    step.placement = some id ∧ ((s.resolve path).2.withAddition step).2.isEmpty = false

theorem Anchored.joinedAlong (hs : s.Routed) (ha : s.Anchored) {path : List Step} (hne : path ≠ [])
    (fetch : Bool) : s.JoinedAlong path fetch (s.joinTo path fetch) := by
  obtain ⟨-, bindings, log, composed, hframe, hmem⟩ := ha.compose_recordedAs hs hne
  obtain ⟨_, _, _, _, _, _, hresolve⟩ := s.resolve_frame path
  have hjoins : (s.resolve path).2.joins = s.joins := by rw [hresolve]
  rw [joinTo_of_ne_nil s hne, hframe]
  refine ⟨⟨rfl, List.prefix_refl _, fun _ _ _ h => h⟩, rfl, ?_, hmem⟩
  rw [← hjoins]
  rfl

theorem JoinedAlong.recorded_eq {path : List Step} {fetch : Bool}
    (hj : s.JoinedAlong path fetch t) : t.recorded = s.recorded ++ (s.compose path).1 := by
  rw [recorded, hj.joins, List.flatMap_append]
  exact congrArg _ (List.flatMap_singleton _ _)

theorem Traced.attachedFrom_joined {requests : List (List Step)} {changes : List Change}
    (h : Traced requests changes s) {path : List Step} (hne : path ≠ []) {fetch : Bool}
    (hj : s.JoinedAlong path fetch t) :
    t.AttachedFrom (NamedBy 0 (changes ++ s.joinChanges path)) []
      ((requests ++ [path]).flatten.zip t.recorded) := by
  rw [hj.recorded_eq, List.flatten_append, List.flatten_singleton,
    List.zip_append h.length_recorded, attachedFrom_append, List.nil_append, h.seen_eq]
  constructor
  · refine h.attached.extends ((s.extends_resolve path).trans hj.larger) (fun e he => ?_)
      (Traced.namedBy_left _)
    exact h.routed.recorded_standing (List.of_mem_zip he).2
  · refine (h.attachedFrom_compose hne).extends hj.larger (fun e he => ?_) fun _ _ h => h
    obtain ⟨q, hq, hkey⟩ := exists_resolved_of_composed (List.of_mem_zip he).2
    exact (h.routed.resolve_standing hq).of_key hkey.symm

theorem Traced.recorded_of_composed {requests : List (List Step)} {changes : List Change}
    (h : Traced requests changes s) {path : List Step} {fetch : Bool}
    (hj : s.JoinedAlong path fetch t) :
    ∀ id ∈ t.composed, ∃ step ∈ t.recorded, step.placement = some id := by
  intro id hid
  rw [hj.composed] at hid
  rw [hj.recorded_eq]
  rcases hid with hid | ⟨q, hq, hid, -⟩
  · obtain ⟨step, hstep, hplaced⟩ := h.composed id hid
    exact ⟨step, List.mem_append_left _ hstep, hplaced⟩
  · have hplaced : some id ∈ (s.compose path).1.map Step.placement := by
      rw [placements_compose]
      exact List.mem_map.2 ⟨q, hq, hid⟩
    obtain ⟨step, hstep, hplaced⟩ := List.mem_map.1 hplaced
    exact ⟨step, List.mem_append_right _ hstep, hplaced⟩

theorem Traced.bare_joined {requests : List (List Step)} {changes : List Change}
    (h : Traced requests changes s) {path : List Step} {fetch : Bool}
    (hj : s.JoinedAlong path fetch t) :
    ∀ step ∈ t.recorded, ∀ id ∈ step.placement, id ∉ t.composed →
      IsBare t.schema step.association := by
  intro step hstep id hid hnot
  rw [hj.composed, not_or] at hnot
  rw [hj.larger.schema]
  rw [hj.recorded_eq, List.mem_append] at hstep
  rcases hstep with hstep | hstep
  · rw [(s.extends_resolve path).schema]
    exact h.bare step hstep id hid hnot.1
  · obtain ⟨q, hq, hkey⟩ := exists_resolved_of_composed hstep
    obtain ⟨ha, hp⟩ := Prod.mk.inj hkey
    rw [← ha]
    apply isBare_of_isEmpty ((s.resolve path).2.startAlias q)
    by_contra hfull
    exact hnot.2 ⟨q, hq, hp.trans hid, Bool.eq_false_iff.2 hfull⟩

theorem Anchored.joinTo (hs : s.Routed) (ha : s.Anchored) {path : List Step} (hne : path ≠ [])
    (fetch : Bool) : (s.joinTo path fetch).Anchored := by
  have hj := ha.joinedAlong hs hne fetch
  intro c hc
  rw [traversed_joinTo hne] at hc
  rw [hj.tableAlias]
  exact (ha.resolve hs path c hc).extends hj.larger

/-- Joining along a path records it with what its steps bring. -/
theorem Traced.joinTo {requests : List (List Step)} {changes : List Change}
    (h : Traced requests changes s) {path : List Step} (hne : path ≠ []) (fetch : Bool) :
    Traced (requests ++ [path]) (changes ++ s.joinChanges path) (s.joinTo path fetch) := by
  have hj := h.anchored.joinedAlong h.routed hne fetch
  constructor
  · exact h.routed.joinTo path fetch
  · exact h.anchored.joinTo h.routed hne fetch
  · rw [bindings_joinTo, h.bindings, Bindings.changed_append]
  · rw [hj.joins]
    refine List.rel_append h.aligned (.cons ?_ .nil)
    exact (s.associations_compose path).symm
  · exact h.attachedFrom_joined hne hj
  · exact h.recorded_of_composed hj
  · exact h.bare_joined hj

/-! ## Runs -/

theorem Anchored.of_sameJoins (ha : s.Anchored) (hst : s.SameJoins t) : t.Anchored := by
  intro c hc
  rw [hst.traversed] at hc
  rw [hst.tableAlias]
  exact (ha c hc).extends hst.extends

theorem Traced.of_sameJoins {requests : List (List Step)} {changes more : List Change}
    (h : Traced requests changes s) (hst : s.SameJoins t)
    (hb : t.bindings = s.bindings.changed more) : Traced requests (changes ++ more) t := by
  have hrecorded : t.recorded = s.recorded := by rw [recorded, recorded, hst.joins]
  refine ⟨h.routed.of_sameJoins hst, h.anchored.of_sameJoins hst, ?_, ?_, ?_, ?_, ?_⟩
  · rw [hb, h.bindings, Bindings.changed_append]
  · rw [hst.joins]
    exact h.aligned
  · rw [hrecorded]
    refine h.attached.extends hst.extends (fun e he => ?_) (Traced.namedBy_left more)
    exact h.routed.recorded_standing (List.of_mem_zip he).2
  · rw [hst.composed, hrecorded]
    exact h.composed
  · rw [hst.composed, hrecorded, hst.schema]
    exact h.bare

theorem Traced.perform {requests : List (List Step)} {changes : List Change}
    (h : Traced requests changes s) {call : Call} (keeps : call.keepsScope = true) :
    Traced (requests ++ (s.requested call).toList.filter fun path => !path.isEmpty)
      (changes ++ s.changesOf call) (s.perform call) := by
  have join {s : Session} (h : Traced requests changes s) (path : List Step) (fetch : Bool) :
      Traced (requests ++ [path].filter fun path => !path.isEmpty)
        (changes ++ s.joinChanges path) (s.joinTo path fetch) := by
    by_cases hne : path = []
    · subst hne
      rw [joinTo_nil]
      simpa [joinChanges] using h
    · rw [List.filter_cons_of_pos (by simpa using hne), List.filter_nil]
      exact h.joinTo hne fetch
  cases hrequest : s.requested call with
  | none =>
    rw [Option.toList_none, List.filter_nil, List.append_nil]
    exact h.of_sameJoins (s.sameJoins_perform keeps hrequest) (s.bindings_perform call)
  | some path =>
    cases call with
    | joinTo p fetch =>
      obtain rfl : p = path := Option.some.inj hrequest
      exact join h p fetch
    | joinPending fetch =>
      obtain rfl : s.pending = path := Option.some.inj hrequest
      have hs : s.SameJoins { s with pending := [] } :=
        ⟨rfl, rfl, rfl, rfl, rfl, rfl, fun _ _ h => h⟩
      have hpending := h.of_sameJoins hs (show _ = s.bindings.changed [] from rfl)
      rw [List.append_nil] at hpending
      exact join hpending s.pending fetch
    | addJoin p fetch => cases keeps
    | _ => cases hrequest

/-- A run that keeps the alias of the base table and composes its joins is traced by what it asks
to join. -/
theorem Traced.run {requests : List (List Step)} {changes : List Change}
    (h : Traced requests changes s) {calls : List Call}
    (keeps : ∀ call ∈ calls, call.keepsScope = true) :
    Traced (requests ++ s.requestedIn calls) (changes ++ s.history calls) (s.run calls) := by
  induction calls generalizing s requests changes with
  | nil =>
    rw [requestedIn, history, along, along, List.append_nil, List.append_nil]
    exact h
  | cons call calls ih =>
    have hcall := h.perform (keeps call List.mem_cons_self)
    have hcalls := ih hcall fun c hc => keeps c (List.mem_cons_of_mem _ hc)
    rwa [List.append_assoc, List.append_assoc] at hcalls

/-- Nothing was joined yet, and no path was resolved. -/
structure IsUnjoined (s : Session) : Prop where
  joins : s.joins = []
  traversed : s.traversed = []
  composed : s.composed = []

theorem Traced.of_isUnjoined {changes : List Change} (hs : s.Routed) (h : s.IsUnjoined)
    (hb : s.bindings = Bindings.empty.changed changes) : Traced [] changes s := by
  have hrecorded : s.recorded = [] := by
    rw [recorded, h.joins]
    rfl
  refine ⟨hs, fun c hc => ?_, hb, ?_, ?_, ?_, ?_⟩
  · rw [h.traversed] at hc
    cases hc
  · rw [h.joins]
    exact .nil
  · trivial
  · rw [h.composed]
    intro id hid
    exact absurd hid List.not_mem_nil
  · rw [hrecorded]
    intro step hstep
    exact absurd hstep List.not_mem_nil

theorem IsUnjoined.setAlias (h : s.IsUnjoined) (tableAlias : String) :
    (s.setAlias tableAlias).IsUnjoined := by
  unfold Session.setAlias
  split <;> exact ⟨h.joins, h.traversed, h.composed⟩

theorem bindings_setAlias (s : Session) (tableAlias : String) :
    (s.setAlias tableAlias).bindings = s.bindings := by
  unfold Session.setAlias
  split <;> rfl

/-- A session whose base table has just received its alias is traced by nothing. -/
theorem traced_setAlias_new (schema : Schema) (table : TableId) (tableAlias : String) :
    Traced [] [] ((new schema table).setAlias tableAlias) :=
  .of_isUnjoined ((routed_new schema table).perform (.setAlias tableAlias))
    (IsUnjoined.setAlias ⟨rfl, rfl, rfl⟩ tableAlias) (bindings_setAlias _ tableAlias)

/-! ## What a traced session has -/

/-- Every join stands in a chain from the base table. -/
theorem Traced.join_chained {requests : List (List Step)} {changes : List Change}
    (h : Traced requests changes s) {join : Join} (hjoin : join ∈ s.joins) :
    s.Chained s.tableAlias join.path := by
  obtain ⟨c, hc, hbegins⟩ := h.routed.recorded join hjoin
  exact (h.anchored c hc).of_key hbegins

/-- Literals have the parameters that they were named by, unless the caller sets these. -/
theorem Traced.get?_of_namedBy {requests : List (List Step)} {changes : List Change}
    (h : Traced requests changes s) {name : String} {value : Value}
    (hnamed : NamedBy 0 changes name value) (unset : ∀ v, Change.assigned name v ∉ changes) :
    s.parameters.get? name = some value := by
  rw [parameters, h.bindings]
  exact Bindings.get?_changed_of_named hnamed unset

end Session

end JoinPath
