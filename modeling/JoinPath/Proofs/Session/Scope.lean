import JoinPath.Proofs.Path.Routed
/-!
# Calls that keep the scope

As long as no call renames the base table or joins without composing, the base of a session stays
the same (`sameBase_run`), and only a call that asks for a join changes the joins
(`sameJoins_perform`).
-/

namespace JoinPath

/-- A call that keeps the alias of the base table and composes what it joins. -/
def Session.Call.keepsScope : Session.Call → Bool
  | .setAlias _ => false
  | .addJoin _ _ => false
  | _ => true

/-- A call that leaves the naming to the session: it renames nothing, sets no parameter, asks for no
name, and composes what it joins. -/
def Session.Call.leavesNames : Session.Call → Bool
  | .setAlias _ => false
  | .addJoin _ _ => false
  | .additions _ => false
  | .setParameter _ _ => false
  | .nextLiteral => false
  | .bindLiterals _ => false
  | _ => true

/-- A call that takes no alias but for what it joins: it does not rename the base table, and does
not ask what a path would add. -/
def Session.Call.keepsPools : Session.Call → Bool
  | .setAlias _ => false
  | .additions _ => false
  | _ => true

theorem Session.Call.keepsScope_of_leavesNames {call : Session.Call} (h : call.leavesNames = true) :
    call.keepsScope = true := by
  cases call <;> first | rfl | cases h

theorem Session.Call.keepsPools_of_leavesNames {call : Session.Call} (h : call.leavesNames = true) :
    call.keepsPools = true := by
  cases call <;> first | rfl | cases h

namespace Session

variable {s t : Session}

/-! ## The base table -/

/-- The second session is about the same table of the same schema, under the same alias. -/
structure SameBase (s t : Session) : Prop where
  schema : t.schema = s.schema
  table : t.table = s.table
  tableAlias : t.tableAlias = s.tableAlias

theorem SameBase.trans {u : Session} (hst : s.SameBase t) (htu : t.SameBase u) : s.SameBase u :=
  ⟨htu.schema.trans hst.schema, htu.table.trans hst.table, htu.tableAlias.trans hst.tableAlias⟩

theorem SameBase.symm (h : s.SameBase t) : t.SameBase s :=
  ⟨h.schema.symm, h.table.symm, h.tableAlias.symm⟩

theorem sameBase_joinTo (s : Session) (path : List Step) (fetch : Bool) :
    s.SameBase (s.joinTo path fetch) := by
  obtain ⟨_, _, _, _, _, _, _, _, _, hframe⟩ := s.joinTo_frame path fetch
  rw [hframe]
  exact ⟨rfl, rfl, rfl⟩

theorem sameBase_ensureFilter (s : Session) : s.SameBase s.ensureFilter := by
  obtain ⟨_, _, h⟩ := s.ensureFilter_frame
  rw [h]
  exact ⟨rfl, rfl, rfl⟩

theorem sameBase_perform (s : Session) {call : Call} (keeps : call.keepsScope = true) :
    s.SameBase (s.perform call) := by
  cases call with
  | setAlias a => cases keeps
  | addJoin path fetch => cases keeps
  | joinPending fetch =>
    have hs : s.SameBase { s with pending := [] } := ⟨rfl, rfl, rfl⟩
    exact hs.trans (sameBase_joinTo _ s.pending fetch)
  | joinTo path fetch => exact s.sameBase_joinTo path fetch
  | additions path =>
    obtain ⟨pool, hframe⟩ := s.additions_frame path
    rw [perform, hframe]
    exact ⟨rfl, rfl, rfl⟩
  | setFilter restrictions =>
    obtain ⟨_, _, h⟩ := s.setFilter_frame restrictions
    rw [perform, h]
    exact ⟨rfl, rfl, rfl⟩
  | select columns => exact s.sameBase_ensureFilter
  | build columns d =>
    obtain ⟨log, hb⟩ := s.build_frame columns d
    have hf := s.sameBase_ensureFilter
    rw [perform, hb]
    exact ⟨hf.schema, hf.table, hf.tableAlias⟩
  | _ => exact ⟨rfl, rfl, rfl⟩

theorem sameBase_run (s : Session) {calls : List Call}
    (keeps : ∀ call ∈ calls, call.keepsScope = true) : s.SameBase (s.run calls) :=
  run_induction (fun _ call hcall h => h.trans (sameBase_perform _ (keeps call hcall)))
    ⟨rfl, rfl, rfl⟩

/-! ## The joins -/

/-- The second session has the joins of the first, and keeps their aliases. -/
structure SameJoins (s t : Session) : Prop where
  schema : t.schema = s.schema
  tableAlias : t.tableAlias = s.tableAlias
  joins : t.joins = s.joins
  traversed : t.traversed = s.traversed
  placements : t.placements = s.placements
  composed : t.composed = s.composed
  aliases : ∀ id a, s.joinAliases.get? id = some a → t.joinAliases.get? id = some a

theorem SameJoins.extends (h : s.SameJoins t) : s.Extends t :=
  ⟨h.schema, h.placements ▸ List.prefix_refl _, fun id _ a => h.aliases id a⟩

theorem Routed.of_sameJoins (hs : s.Routed) (h : s.SameJoins t) : t.Routed where
  matched := by
    rw [h.traversed]
    exact hs.matched
  standing := by
    rw [h.traversed]
    intro c hc step hstep
    exact (hs.standing c hc step hstep).extends h.extends
  recorded := by
    rw [h.traversed, h.joins]
    exact hs.recorded

theorem sameJoins_ensureFilter (s : Session) : s.SameJoins s.ensureFilter := by
  obtain ⟨_, _, h⟩ := s.ensureFilter_frame
  rw [h]
  exact ⟨rfl, rfl, rfl, rfl, rfl, rfl, fun _ _ h => h⟩

theorem get?_takeAlias {id : PlacementId} {a : String} (h : s.joinAliases.get? id = some a)
    (other : PlacementId) : (s.takeAlias other).2.joinAliases.get? id = some a := by
  unfold takeAlias
  split
  · exact h
  · exact get?_take_of_some h other

theorem get?_additionsFrom {id : PlacementId} {a : String} (h : s.joinAliases.get? id = some a)
    (origin : String) (path : List Step) :
    (s.additionsFrom origin path).2.joinAliases.get? id = some a := by
  induction path generalizing s origin with
  | nil => exact h
  | cons step path ih =>
    unfold additionsFrom
    cases step.placement with
    | none => exact ih h origin
    | some other => exact ih (get?_takeAlias h (s.terminal other)) _

theorem sameJoins_additions (s : Session) (path : List Step) :
    s.SameJoins (s.additions path).2 := by
  obtain ⟨pool, hframe⟩ := s.additions_frame path
  have haliases : ∀ id a, s.joinAliases.get? id = some a →
      (s.additions path).2.joinAliases.get? id = some a :=
    fun id a h => get?_additionsFrom h s.tableAlias path
  rw [hframe] at haliases ⊢
  exact ⟨rfl, rfl, rfl, rfl, rfl, rfl, haliases⟩

/-- A call that asks for no join leaves the joins alone. -/
theorem sameJoins_perform (s : Session) {call : Call} (keeps : call.keepsScope = true)
    (h : s.requested call = none) : s.SameJoins (s.perform call) := by
  cases call with
  | setAlias a => cases keeps
  | joinPending fetch => cases h
  | joinTo path fetch => cases h
  | addJoin path fetch => cases h
  | additions path => exact s.sameJoins_additions path
  | setFilter restrictions =>
    obtain ⟨_, _, h⟩ := s.setFilter_frame restrictions
    rw [perform, h]
    exact ⟨rfl, rfl, rfl, rfl, rfl, rfl, fun _ _ h => h⟩
  | select columns => exact s.sameJoins_ensureFilter
  | build columns d =>
    obtain ⟨log, hb⟩ := s.build_frame columns d
    have hf := s.sameJoins_ensureFilter
    rw [perform, hb]
    exact ⟨hf.schema, hf.tableAlias, hf.joins, hf.traversed, hf.placements, hf.composed, hf.aliases⟩
  | _ => exact ⟨rfl, rfl, rfl, rfl, rfl, rfl, fun _ _ h => h⟩

end Session

end JoinPath
