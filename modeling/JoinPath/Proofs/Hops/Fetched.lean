import JoinPath.Proofs.Hops.Grown
/-!
# Fetched hops

A hop that several joins lead through is made by the first of them, with the flag of that join; the
later ones still add columns to the select list. So the flag says what the first join asked for
(`fetch_of_first_join`), and a fetch join that comes later leaves it as it was
(`later_fetch_unmarked`).
-/

namespace JoinPath

/-- A step of the join was placed here. -/
def Join.LeadsThrough (join : Join) (id : PlacementId) : Prop :=
  ∃ step ∈ join.path, step.placement = some id

namespace Join

variable {join : Join} {id : PlacementId} {v : Visit}

theorem mem_visits : v ∈ join.visits ↔
    v.step ∈ join.path ∧ v.step.placement = some v.id ∧ v.fetch = join.fetch := by
  unfold visits
  rw [List.mem_filterMap]
  constructor
  · rintro ⟨step, hstep, hv⟩
    obtain ⟨id, hid, rfl⟩ := Option.map_eq_some_iff.1 hv
    exact ⟨hstep, hid, rfl⟩
  · rintro ⟨hstep, hid, hfetch⟩
    exact ⟨v.step, hstep, Option.map_eq_some_iff.2 ⟨v.id, hid, by rw [← hfetch]⟩⟩

theorem leadsThrough_iff : join.LeadsThrough id ↔ id ∈ join.visits.map Visit.id := by
  rw [List.mem_map]
  constructor
  · rintro ⟨step, hstep, hid⟩
    exact ⟨⟨id, step, join.fetch⟩, mem_visits.2 ⟨hstep, hid, rfl⟩, rfl⟩
  · rintro ⟨v, hv, rfl⟩
    obtain ⟨hstep, hid, -⟩ := mem_visits.1 hv
    exact ⟨v.step, hstep, hid⟩

end Join

/-- The first visit of a placement belongs to the first join that leads through it. -/
theorem Visit.exists_first_join {joins : List Join} {id : PlacementId} {v : Visit}
    {later : List Visit} (h : sharing (joins.flatMap Join.visits) id = v :: later) :
    ∃ before join after, joins = before ++ join :: after ∧ v ∈ join.visits ∧
      ∀ j ∈ before, ¬ j.LeadsThrough id := by
  induction joins with
  | nil => cases h
  | cons join joins ih =>
    rw [List.flatMap_cons, sharing, List.filter_append] at h
    by_cases hfirst : join.LeadsThrough id
    · obtain ⟨w, ws, hws⟩ := List.exists_cons_of_ne_nil
        (Session.sharing_ne_nil.2 (Join.leadsThrough_iff.1 hfirst))
      have hmem : w ∈ sharing join.visits id := hws ▸ List.mem_cons_self
      rw [sharing] at hws
      rw [hws] at h
      obtain ⟨rfl, -⟩ := List.cons.inj h
      exact ⟨[], join, joins, rfl, (List.mem_filter.1 hmem).1,
        fun _ hj => absurd hj List.not_mem_nil⟩
    · have hnone : sharing join.visits id = [] := by
        by_contra hne
        exact hfirst (Join.leadsThrough_iff.2 (Session.sharing_ne_nil.1 hne))
      rw [sharing] at hnone
      rw [hnone, List.nil_append] at h
      obtain ⟨before, first, after, rfl, hv, hbefore⟩ := ih h
      exact ⟨join :: before, first, after, rfl, hv, List.forall_mem_cons.2 ⟨hfirst, hbefore⟩⟩

/-- The first join through a placement speaks for all of them unless a later one alone is a fetch
join. -/
theorem Join.first_speaks_iff {before after : List Join} {join : Join} {id : PlacementId}
    (through : join.LeadsThrough id) (first : ∀ j ∈ before, ¬ j.LeadsThrough id) :
    (join.fetch = true ↔
        ∃ j ∈ before ++ join :: after, j.LeadsThrough id ∧ j.fetch = true) ↔
      join.fetch = true ∨ ∀ j ∈ after, j.LeadsThrough id → j.fetch = false := by
  have hmem : join ∈ before ++ join :: after := List.mem_append_right _ List.mem_cons_self
  constructor
  · intro h
    refine or_iff_not_imp_left.2 fun hplain j hj hthrough => Bool.eq_false_iff.2 fun hfetch => ?_
    exact hplain (h.2 ⟨j, List.mem_append_right _ (List.mem_cons_of_mem _ hj), hthrough, hfetch⟩)
  · intro h
    refine ⟨fun hfetch => ⟨join, hmem, through, hfetch⟩, ?_⟩
    rintro ⟨j, hj, hthrough, hfetch⟩
    rcases List.mem_append.1 hj with hj | hj
    · exact absurd hthrough (first j hj)
    · rcases List.mem_cons.1 hj with rfl | hj
      · exact hfetch
      · exact h.resolve_right fun hplain => by simp [hplain j hj hthrough] at hfetch

namespace Session

variable {s : Session} {v : Visit}

theorem fetch_endHop (s : Session) (v : Visit) (later : List Visit) :
    (s.endHop v later).fetch = v.fetch :=
  (Hop.grown_foldl _ later).fetch

theorem subset_addColumns (columns more : List ColumnRef) : more ⊆ addColumns columns more := by
  induction more generalizing columns with
  | nil => exact List.nil_subset _
  | cons c more ih =>
    refine List.cons_subset.2 ⟨(prefix_addColumns _ more).subset ?_, ih _⟩
    dsimp only
    split
    · next hc => exact List.contains_iff_mem.1 hc
    · exact List.mem_append_right _ (List.mem_singleton_self c)

/-- What a visit selects is selected in the end. -/
theorem mem_joinedColumns (hv : v ∈ s.visits) {ref : ColumnRef}
    (href : ref ∈ s.selectedColumns v.step v.id v.fetch) : ref ∈ s.joinedColumns := by
  obtain ⟨before, after, hvisits⟩ := List.append_of_mem hv
  rw [joinedColumns_eq, hvisits, List.foldl_append, List.foldl_cons]
  exact (s.prefix_foldl_selectMore after _).subset (subset_addColumns _ _ href)

/-- The hop at which a placement ends is marked as fetched if the first join that leads through the
placement is a fetch join. All columns of the hop are selected as soon as any fetch join leads
through it by a step without columns of its own. So a mark means that some fetch join leads
through the hop, and the converse fails where only later joins are fetch joins. The hop of a
junction table is never marked. -/
theorem fetch_of_first_join (s : Session) :
    (∀ id h, (some id, h) ∈ s.placedHops.1 →
      (∃ before join after, s.joins = before ++ join :: after ∧ join.LeadsThrough id ∧
        (∀ j ∈ before, ¬ j.LeadsThrough id) ∧ h.fetch = join.fetch ∧
        ((h.fetch = true ↔ ∃ j ∈ s.joins, j.LeadsThrough id ∧ j.fetch = true) ↔
          join.fetch = true ∨ ∀ j ∈ after, j.LeadsThrough id → j.fetch = false)) ∧
      ∀ j ∈ s.joins, j.fetch = true → ∀ step ∈ j.path, step.placement = some id →
        step.columns = none → .qualified h.tableAlias "*" ∈ s.joinedColumns) ∧
    ∀ h, (none, h) ∈ s.placedHops.1 → h.fetch = false := by
  refine ⟨fun id h hmem => ?_, fun h hmem => ?_⟩
  · obtain ⟨v, later, hsharing, hcase⟩ := placedHops_cases hmem
    obtain ⟨hid, rfl⟩ | ⟨hnone, -⟩ := hcase
    · obtain rfl := Option.some.inj hid
      refine ⟨?_, fun j hj hfetch step hstep hplaced hcolumns => ?_⟩
      · obtain ⟨before, join, after, hjoins, hv, hbefore⟩ := Visit.exists_first_join hsharing
        obtain ⟨hstep, hplaced, hfetch⟩ := Join.mem_visits.1 hv
        have hthrough : join.LeadsThrough v.id := ⟨v.step, hstep, hplaced⟩
        refine ⟨before, join, after, hjoins, hthrough, hbefore, ?_, ?_⟩
        · rw [fetch_endHop, hfetch]
        · rw [fetch_endHop, hfetch, hjoins]
          exact Join.first_speaks_iff hthrough hbefore
      · have hvisit : (⟨v.id, step, j.fetch⟩ : Visit) ∈ s.visits :=
          List.mem_flatMap.2 ⟨j, hj, Join.mem_visits.2 ⟨hstep, hplaced, rfl⟩⟩
        refine mem_joinedColumns hvisit ?_
        rw [selectedColumns, hcolumns, hfetch, tableAlias_endHop]
        exact List.mem_singleton_self _
    · cases hnone
  · obtain ⟨v, later, -, hcase⟩ := placedHops_cases hmem
    obtain ⟨hid, -⟩ | ⟨-, first, rfl⟩ := hcase
    · cases hid
    · rfl

/-- Orders with their lines, joined first without and then with the columns of the lines. -/
def linesFetchedLater : Session := (new ordersWithLines ⟨0⟩).run [
  .joinTo [linesOf "A"] false,
  .joinTo [linesOf "B"] true]

/-- The hop of the lines has all its columns selected through a fetch join and is not marked. -/
theorem later_fetch_unmarked :
    ∃ id h, (some id, h) ∈ linesFetchedLater.placedHops.1 ∧
      .qualified h.tableAlias "*" ∈ linesFetchedLater.joinedColumns ∧
      ¬ (h.fetch = true ↔ ∃ j ∈ linesFetchedLater.joins, j.LeadsThrough id ∧ j.fetch = true) := by
  have hhop : (linesFetchedLater.placedHops.1[0]?).map
      (fun x => (x.1, x.2.tableAlias, x.2.fetch)) = some (some ⟨0⟩, "t0_j1", false) := by cbv
  have hcolumns : linesFetchedLater.joinedColumns = [.qualified "t0_j1" "*"] := by cbv
  have hjoin : (linesFetchedLater.joins[1]?).map
      (fun j => (j.path.map Step.placement, j.fetch)) = some ([some ⟨0⟩], true) := by cbv
  obtain ⟨⟨owner, h⟩, hmem, hh⟩ := Option.map_eq_some_iff.1 hhop
  obtain ⟨howner, hh⟩ := Prod.mk.inj hh
  obtain ⟨halias, hfetch⟩ := Prod.mk.inj hh
  obtain ⟨j, hj, hjoin⟩ := Option.map_eq_some_iff.1 hjoin
  obtain ⟨hpath, hfetched⟩ := Prod.mk.inj hjoin
  dsimp only at howner halias hfetch
  refine ⟨⟨0⟩, h, howner ▸ List.mem_of_getElem? hmem, ?_, fun heq => ?_⟩
  · rw [halias, hcolumns]
    exact List.mem_singleton_self _
  · have hplaced : some ⟨0⟩ ∈ j.path.map Step.placement := hpath ▸ List.mem_singleton_self _
    obtain ⟨step, hstep, hstepped⟩ := List.mem_map.1 hplaced
    have hmarked := heq.2 ⟨j, List.mem_of_getElem? hj, ⟨step, hstep, hstepped⟩, hfetched⟩
    rw [hfetch] at hmarked
    cases hmarked

end Session

end JoinPath
