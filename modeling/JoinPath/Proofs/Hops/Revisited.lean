import JoinPath.Proofs.Criteria.Recognized
import JoinPath.Proofs.Hops.Grown
/-!
# Hops that are visited again

A join that visits no further placement leaves the hops where they are: each visit adds its
condition to the hop of its placement. What was said there already comes in once more at most
(`Continues.hops_restated`), and nothing changes exactly if the conditions of all visits are parts
of those of their hops (`Continues.hops_eq_iff`).
-/

namespace JoinPath

open Criteria (HasPart conjunctsOf)

namespace Hop

/-- The second hop is the first, perhaps with conjuncts that it has once more at the end of its
condition. -/
structure Restated (h h' : Hop Criteria) : Prop where
  grown : h.Grown h'
  conjuncts : conjunctsOf h'.on ⊆ conjunctsOf h.on

variable {c : Criteria} {later : List Visit} {v : Visit}

theorem Restated.refl (h : Hop Criteria) : h.Restated h := ⟨.refl h, List.Subset.refl _⟩

theorem restated_restrictBy {h : Hop Criteria}
    (said : ∀ c ∈ v.step.criteria, c.conjuncts ⊆ conjunctsOf h.on) :
    h.Restated (h.restrictBy v) := by
  refine ⟨h.grown_restrictBy v, ?_⟩
  unfold restrictBy
  cases hv : v.step.criteria with
  | none => exact List.Subset.refl _
  | some c =>
    change (mergeCriteria h.on c).conjuncts ⊆ _
    rcases Criteria.conjuncts_mergeCriteria h.on c with happended | ⟨hkept, -⟩
    · rw [happended]
      exact List.append_subset.2 ⟨List.Subset.refl _, said c hv⟩
    · rw [hkept]
      exact List.Subset.refl _

theorem restrictBy_eq_iff {h : Hop Criteria} (settled : ∀ c ∈ v.step.criteria, c.IsSettled) :
    h.restrictBy v = h ↔ ∀ c ∈ v.step.criteria, HasPart h.on c := by
  unfold restrictBy
  cases hv : v.step.criteria with
  | none => exact iff_of_true rfl fun c hc => by cases hc
  | some c =>
    rw [hv] at settled
    have hmerge : some (mergeCriteria h.on c) = h.on ↔ HasPart h.on c :=
      (settled c rfl).some_mergeCriteria_eq_iff
    constructor
    · intro heq c' hc'
      obtain rfl := Option.some.inj hc'
      exact hmerge.1 (congrArg Hop.on heq)
    · intro hpart
      change { h with on := some (mergeCriteria h.on c) } = h
      rw [hmerge.2 (hpart c rfl)]

theorem hasPart_foldl {h : Hop Criteria} (hpart : HasPart h.on c) (hc : ∀ cs, c ≠ .group .and cs)
    (later : List Visit) : HasPart (later.foldl restrictBy h).on c := by
  induction later generalizing h with
  | nil => exact hpart
  | cons v later ih =>
    refine ih ?_
    unfold restrictBy
    cases v.step.criteria with
    | none => exact hpart
    | some extra => exact hpart.merge hc extra

/-- What a later visit adds is a part of the condition in the end. -/
theorem hasPart_foldl_of_mem (h : Hop Criteria) (hv : v ∈ later)
    (hcriteria : v.step.criteria = some c) (settled : c.IsSettled)
    (hc : ∀ cs, c ≠ .group .and cs) :
    HasPart (later.foldl restrictBy h).on c := by
  obtain ⟨before, after, rfl⟩ := List.append_of_mem hv
  rw [List.foldl_append, List.foldl_cons]
  refine hasPart_foldl ?_ hc after
  rw [restrictBy, hcriteria]
  exact settled.hasPart_mergeCriteria _

theorem conjuncts_foldl_of_mem (h : Hop Criteria) (hv : v ∈ later)
    (hcriteria : v.step.criteria = some c) (settled : c.IsSettled) :
    c.conjuncts ⊆ conjunctsOf (later.foldl restrictBy h).on := fun _ hx =>
  (h.conjoined_restrictBy later).mem_of_isSettled (List.mem_filterMap.2 ⟨v, hv, hcriteria⟩) hx
    (settled.of_mem_conjuncts hx)

end Hop

namespace Session

variable {s t : Session} {id : PlacementId} {join : Join}

/-! ## One more join -/

/-- Of different placements each is visited once. -/
theorem sharing_of_nodup {visits : List Visit} (nodup : (visits.map Visit.id).Nodup) {v : Visit}
    (hv : v ∈ visits) : Visit.sharing visits v.id = [v] := by
  obtain ⟨w, later, hsharing, hid⟩ := exists_first_visit (List.mem_map_of_mem hv)
  have hnodup : ((Visit.sharing visits v.id).map Visit.id).Nodup :=
    (List.filter_sublist.map Visit.id).nodup nodup
  have hmem : v ∈ Visit.sharing visits v.id := List.mem_filter.2 ⟨hv, decide_eq_true rfl⟩
  rw [hsharing] at hnodup hmem ⊢
  cases later with
  | nil => rw [List.mem_singleton.1 hmem]
  | cons u later =>
    have hu : u.id = v.id :=
      id_of_mem_sharing u (hsharing ▸ List.mem_cons_of_mem _ List.mem_cons_self)
    refine absurd ?_ (List.nodup_cons.1 hnodup).1
    rw [List.map_cons, hid, hu]
    exact List.mem_cons_self

theorem tableAlias_of_mem_placedHops {hop : Hop Criteria} (h : (some id, hop) ∈ s.placedHops.1) :
    hop.tableAlias = s.finalAlias id := by
  obtain ⟨v, later, -, ⟨howner, rfl⟩ | ⟨hnone, -⟩⟩ := placedHops_cases h
  · obtain rfl := Option.some.inj howner
    exact s.tableAlias_endHop v later
  · cases hnone

/-- A visited placement has one hop that ends at it. -/
theorem mem_placedHops_iff {v : Visit} {later : List Visit}
    (h : Visit.sharing s.visits id = v :: later) {hop : Hop Criteria} :
    (some id, hop) ∈ s.placedHops.1 ↔ hop = s.endHop v later := by
  have hfilter : (some id, hop) ∈ s.placedHops.1.filter (fun x => x.1 = some id) ↔
      (some id, hop) ∈ s.placedHops.1 := by
    rw [List.mem_filter]
    exact and_iff_left (decide_eq_true rfl)
  rw [← hfilter, owned_hops h, List.mem_singleton, Prod.mk.injEq]
  exact and_iff_right rfl

/-- Joins that visit no further placement leave the hops where they are, and each takes the
conditions of the visits of its placement. -/
theorem Continues.placedHops_eq {more : List Join} (h : s.Continues t more) (hs : s.Routed)
    (visited : (more.flatMap Join.visits).map Visit.id ⊆ s.visits.map Visit.id) :
    t.placedHops.1 = s.placedHops.1.map fun x =>
      (x.1, (x.1.elim [] (Visit.sharing (more.flatMap Join.visits))).foldl Hop.restrictBy x.2) := by
  rw [Session.placedHops_eq, Session.placedHops_eq, groups, groups]
  have hids : (t.visits.map Visit.id).eraseDups = (s.visits.map Visit.id).eraseDups := by
    rw [visits_of_joins h.joins, List.map_append, eraseDups_append_of_subset visited]
  rw [hids, List.map_flatMap]
  refine List.flatMap_congr fun id hid => ?_
  rw [h.groupOf_sharing hs (List.mem_eraseDups.1 hid), modifyHop]
  refine List.map_congr_left fun x hx => ?_
  obtain ⟨owner, hop⟩ := x
  cases owner with
  | none => rfl
  | some owner =>
    obtain ⟨-, rfl⟩ := (mem_groupOf_owners (s := s) id_of_mem_sharing).1 (List.mem_map_of_mem hx)
    exact if_pos rfl

/-- The hops after a join that visits no further placement: each visit adds its condition to the hop
of its placement. -/
theorem Continues.hops_of_visited (h : s.Continues t [join]) (hs : s.Routed)
    (visited : join.visits.map Visit.id ⊆ s.visits.map Visit.id)
    (nodup : (join.visits.map Visit.id).Nodup) :
    ∃ f : PlacedHop → Hop Criteria, t.hops = s.placedHops.1.map f ∧
      ∀ x, (f x = x.2 ∧ ∀ v ∈ join.visits, x.1 ≠ some v.id) ∨
        ∃ v ∈ join.visits, x.1 = some v.id ∧ f x = x.2.restrictBy v := by
  have hplaced := h.placedHops_eq hs (by rwa [List.flatMap_singleton])
  rw [List.flatMap_singleton] at hplaced
  refine ⟨fun x => (x.1.elim [] (Visit.sharing join.visits)).foldl Hop.restrictBy x.2, ?_,
    fun x => ?_⟩
  · rw [Session.hops, hplaced, List.map_map]
    rfl
  obtain ⟨owner, hop⟩ := x
  cases owner with
  | none => exact .inl ⟨rfl, fun _ _ heq => Option.some_ne_none _ heq.symm⟩
  | some id =>
    by_cases hid : id ∈ join.visits.map Visit.id
    · obtain ⟨v, hv, rfl⟩ := List.mem_map.1 hid
      refine .inr ⟨v, hv, rfl, ?_⟩
      change (Visit.sharing join.visits v.id).foldl Hop.restrictBy hop = _
      rw [sharing_of_nodup nodup hv]
      rfl
    · refine .inl ⟨?_, fun v hv heq => hid ?_⟩
      · change (Visit.sharing join.visits id).foldl Hop.restrictBy hop = _
        rw [not_not.1 (mt sharing_ne_nil.1 hid)]
        rfl
      · rw [Option.some.inj heq]
        exact List.mem_map_of_mem hv

/-- Where all that the visits of a join add is said already, no conjunct comes in. -/
theorem Continues.hops_restated (h : s.Continues t [join]) (hs : s.Routed)
    (visited : join.visits.map Visit.id ⊆ s.visits.map Visit.id)
    (nodup : (join.visits.map Visit.id).Nodup)
    (said : ∀ v ∈ join.visits, ∀ hop, (some v.id, hop) ∈ s.placedHops.1 →
      ∀ c ∈ v.step.criteria, c.conjuncts ⊆ conjunctsOf hop.on) :
    List.Forall₂ Hop.Restated s.hops t.hops := by
  obtain ⟨f, hf, hcases⟩ := h.hops_of_visited hs visited nodup
  rw [hf, Session.hops, List.forall₂_map_left_iff, List.forall₂_map_right_iff]
  refine List.forall₂_same.2 fun x hx => ?_
  rcases hcases x with ⟨heq, -⟩ | ⟨v, hv, howner, heq⟩
  · rw [heq]
    exact .refl _
  · rw [heq]
    exact Hop.restated_restrictBy (said v hv x.2 (howner ▸ hx))

/-- The hops stay the same exactly if the conditions of all visits are parts already. -/
theorem Continues.hops_eq_iff (h : s.Continues t [join]) (hs : s.Routed)
    (visited : join.visits.map Visit.id ⊆ s.visits.map Visit.id)
    (nodup : (join.visits.map Visit.id).Nodup)
    (settled : ∀ v ∈ join.visits, ∀ c ∈ v.step.criteria, c.IsSettled) :
    t.hops = s.hops ↔ ∀ v ∈ join.visits, ∀ hop, (some v.id, hop) ∈ s.placedHops.1 →
      ∀ c ∈ v.step.criteria, HasPart hop.on c := by
  obtain ⟨f, hf, hcases⟩ := h.hops_of_visited hs visited nodup
  rw [hf, Session.hops, List.map_inj_left]
  constructor
  · intro heq v hv hop hhop
    obtain ⟨-, hnone⟩ | ⟨w, hw, howner, hwhop⟩ := hcases (some v.id, hop)
    · exact absurd rfl (hnone v hv)
    · obtain rfl := List.inj_on_of_nodup_map nodup hv hw (Option.some.inj howner)
      exact (Hop.restrictBy_eq_iff (settled v hv)).1 (hwhop.symm.trans (heq _ hhop))
  · intro hpart x hx
    rcases hcases x with ⟨heq, -⟩ | ⟨v, hv, howner, heq⟩
    · exact heq
    · rw [heq]
      exact (Hop.restrictBy_eq_iff (settled v hv)).2 (hpart v hv x.2 (howner ▸ hx))

/-! ## Selected columns -/

theorem addColumns_of_subset {columns more : List ColumnRef} (h : more ⊆ columns) :
    addColumns columns more = columns := by
  induction more with
  | nil => rfl
  | cons c more ih =>
    obtain ⟨hc, hmore⟩ := List.cons_subset.1 h
    unfold addColumns
    rw [List.foldl_cons, if_pos (List.contains_iff_mem.2 hc)]
    exact ih hmore

theorem foldl_selectMore_of_subset {columns : List ColumnRef} {visits : List Visit}
    (h : ∀ v ∈ visits, s.selectedColumns v.step v.id v.fetch ⊆ columns) :
    visits.foldl s.selectMore columns = columns := by
  induction visits with
  | nil => rfl
  | cons v visits ih =>
    rw [List.foldl_cons, selectMore, addColumns_of_subset (h v List.mem_cons_self)]
    exact ih fun w hw => h w (List.mem_cons_of_mem _ hw)

end Session

end JoinPath
