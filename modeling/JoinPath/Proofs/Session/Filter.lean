import JoinPath.Proofs.Bindings.History
import JoinPath.Proofs.Session.Scope
/-!
# The filter of a session

The filter restricts the base table, so its columns have the alias of that table, except where the
caller or the table's own conditions name another.
-/

namespace JoinPath.Session

/-- Every column of the filter has an alias: that of the base table, or the one it was `written`
with. -/
def IsFiltered (written : ColumnRef → Prop) (s : Session) : Prop :=
  ∀ on ∈ s.filter, ∀ ref ∈ on.columns,
    ∃ a, ref.qualifier = some a ∧ (a = s.tableAlias ∨ written ref)

variable {s : Session} {written : ColumnRef → Prop}

theorem filter_setFilter (s : Session) (restrictions : List Criteria) :
    (s.setFilter restrictions).filter = none ∨
      ∃ bindings, (s.setFilter restrictions).filter =
        some ((((Criteria.and (restrictions ++ (s.schema.table s.table).criteria)).bindLiterals
          s.tableAlias bindings).1).qualify s.tableAlias) := by
  unfold setFilter
  dsimp only
  split
  · exact .inl rfl
  · exact .inr ⟨_, rfl⟩

theorem isFiltered_setFilter {restrictions : List Criteria}
    (own : ∀ c ∈ restrictions, ∀ ref ∈ c.columns, written ref)
    (base : ∀ c ∈ (s.schema.table s.table).criteria, ∀ ref ∈ c.columns, written ref) :
    (s.setFilter restrictions).IsFiltered written := by
  intro on hon ref href
  have halias : (s.setFilter restrictions).tableAlias = s.tableAlias := by
    obtain ⟨_, _, hframe⟩ := s.setFilter_frame restrictions
    rw [hframe]
  rcases s.filter_setFilter restrictions with hnone | ⟨bindings, hsome⟩
  · rw [hnone] at hon
    cases hon
  · rw [hsome] at hon
    obtain rfl := Option.some.inj hon
    obtain ⟨q, hq, hor⟩ := Criteria.qualified_of_mem_columns href
    rw [(Criteria.filled_bindLiterals _ _ bindings).columns_eq,
      Criteria.collects_columns.and] at hor
    refine ⟨q, hq, hor.imp (fun h => h.trans halias.symm) fun hmem => ?_⟩
    obtain ⟨c, hc, hmem⟩ := List.mem_flatMap.1 hmem
    rcases List.mem_append.1 hc with hc | hc
    · exact own c hc ref hmem
    · exact base c hc ref hmem

theorem IsFiltered.ensureFilter (h : s.IsFiltered written)
    (base : ∀ c ∈ (s.schema.table s.table).criteria, ∀ ref ∈ c.columns, written ref) :
    s.ensureFilter.IsFiltered written := by
  unfold Session.ensureFilter
  split
  · exact h
  · exact isFiltered_setFilter (fun c hc => absurd hc List.not_mem_nil) base

/-- The restrictions that a call sets the filter to. A statement that is asked for before any filter
was set has none. -/
def restrictionsOf (s : Session) : Call → Option (List Criteria)
  | .setFilter restrictions => some restrictions
  | .select _ => if s.filterSet then none else some []
  | .build _ _ => if s.filterSet then none else some []
  | _ => none

theorem restrictionsOf_cases {call : Call} {restrictions : List Criteria}
    (h : s.restrictionsOf call = some restrictions) :
    call = .setFilter restrictions ∨ restrictions = [] ∧ s.filterSet = false := by
  have base (h : (if s.filterSet then none else some []) = some restrictions) :
      restrictions = [] ∧ s.filterSet = false := by
    cases hset : s.filterSet with
    | true => rw [hset] at h; cases h
    | false => rw [hset] at h; exact ⟨(Option.some.inj h).symm, rfl⟩
  cases call with
  | setFilter rs => exact .inl (congrArg _ (Option.some.inj h))
  | select columns => exact .inr (base h)
  | build columns d => exact .inr (base h)
  | _ => cases h

theorem filterSet_setFilter (s : Session) (restrictions : List Criteria) :
    (s.setFilter restrictions).filterSet = true := by
  obtain ⟨_, _, hframe⟩ := s.setFilter_frame restrictions
  rw [hframe]

/-- A call sets the filter to its restrictions, or leaves it. -/
theorem filter_perform (s : Session) (call : Call) :
    (s.perform call).filter =
        ((s.restrictionsOf call).elim s fun rs => s.setFilter rs).filter ∧
      (s.perform call).filterSet = (s.filterSet || (s.restrictionsOf call).isSome) := by
  have base : s.ensureFilter.filter =
        ((if s.filterSet then none else some []).elim s fun rs => s.setFilter rs).filter ∧
      s.ensureFilter.filterSet =
        (s.filterSet || (if s.filterSet then none else some ([] : List Criteria)).isSome) := by
    unfold Session.ensureFilter
    cases hset : s.filterSet with
    | true => exact ⟨rfl, hset⟩
    | false => exact ⟨rfl, s.filterSet_setFilter []⟩
  cases call with
  | setAlias a => simp only [perform, setAlias]; split <;> exact ⟨rfl, (Bool.or_false _).symm⟩
  | joinPending fetch =>
    obtain ⟨_, _, _, _, _, _, _, _, _, hframe⟩ :=
      joinTo_frame { s with pending := [] } s.pending fetch
    rw [Session.perform, joinPending, hframe]
    exact ⟨rfl, (Bool.or_false _).symm⟩
  | joinTo path fetch =>
    obtain ⟨_, _, _, _, _, _, _, _, _, hframe⟩ := s.joinTo_frame path fetch
    rw [Session.perform, hframe]
    exact ⟨rfl, (Bool.or_false _).symm⟩
  | addJoin path fetch =>
    obtain ⟨_, _, _, _, _, _, hframe⟩ := s.resolve_frame path
    simp only [Session.perform, addJoin]
    split
    · exact ⟨rfl, (Bool.or_false _).symm⟩
    · simp only [addResolved, hframe]
      exact ⟨rfl, (Bool.or_false _).symm⟩
  | additions path =>
    obtain ⟨_, hframe⟩ := s.additions_frame path
    rw [Session.perform, hframe]
    exact ⟨rfl, (Bool.or_false _).symm⟩
  | setFilter restrictions =>
    exact ⟨rfl, (s.filterSet_setFilter restrictions).trans (Bool.or_true _).symm⟩
  | select columns => exact base
  | build columns d =>
    obtain ⟨log, hb⟩ := s.build_frame columns d
    rw [Session.perform, hb]
    exact base
  | _ => exact ⟨rfl, (Bool.or_false _).symm⟩

theorem IsFiltered.perform (h : s.IsFiltered written) {call : Call}
    (keeps : call.keepsScope = true)
    (own : ∀ restrictions, call = .setFilter restrictions →
      ∀ c ∈ restrictions, ∀ ref ∈ c.columns, written ref)
    (base : ∀ c ∈ (s.schema.table s.table).criteria, ∀ ref ∈ c.columns, written ref) :
    (s.perform call).IsFiltered written := by
  have halias : (s.perform call).tableAlias = s.tableAlias := (s.sameBase_perform keeps).tableAlias
  have hset {restrictions : List Criteria}
      (own : ∀ c ∈ restrictions, ∀ ref ∈ c.columns, written ref) :
      ∀ on ∈ (s.setFilter restrictions).filter, ∀ ref ∈ on.columns,
        ∃ a, ref.qualifier = some a ∧ (a = s.tableAlias ∨ written ref) := by
    have hsame : (s.setFilter restrictions).tableAlias = s.tableAlias := by
      obtain ⟨_, _, hframe⟩ := s.setFilter_frame restrictions
      rw [hframe]
    rw [← hsame]
    exact isFiltered_setFilter own base
  unfold IsFiltered
  rw [halias, (s.filter_perform call).1]
  cases hcall : s.restrictionsOf call with
  | none => exact h
  | some restrictions =>
    refine hset fun c hc => ?_
    rcases restrictionsOf_cases hcall with rfl | ⟨rfl, -⟩
    · exact own restrictions rfl c hc
    · cases hc

/-- Along a run the filter stays about the base table. -/
theorem IsFiltered.run (h : s.IsFiltered written) {calls : List Call}
    (keeps : ∀ call ∈ calls, call.keepsScope = true)
    (own : ∀ restrictions, .setFilter restrictions ∈ calls →
      ∀ c ∈ restrictions, ∀ ref ∈ c.columns, written ref)
    (base : ∀ c ∈ (s.schema.table s.table).criteria, ∀ ref ∈ c.columns, written ref) :
    (s.run calls).IsFiltered written := by
  induction calls generalizing s with
  | nil => exact h
  | cons call calls ih =>
    have hcall := keeps call List.mem_cons_self
    have hsame := s.sameBase_perform hcall
    refine ih (h.perform hcall (fun rs heq => own rs (heq ▸ List.mem_cons_self)) base)
      (fun c hc => keeps c (List.mem_cons_of_mem _ hc))
      (fun rs hrs => own rs (List.mem_cons_of_mem _ hrs)) ?_
    rw [hsame.schema, hsame.table]
    exact base

end JoinPath.Session
