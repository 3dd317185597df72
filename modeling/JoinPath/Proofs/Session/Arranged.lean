import JoinPath.Proofs.Hops.Ordered
import JoinPath.Proofs.Path.Pools
/-!
# Arranged sessions

A session is arranged when its hops join its placements in their order and the aliases of these are
the preferred ones and the numbered ones. All calls that take no alias but for what they join keep
it arranged (`Arranged.perform`).
-/

namespace JoinPath.Session

open Text (numberedName numberedName_inj)

/-- The aliases that a call wants for the tables that it joins anew. -/
def preferredOf (s : Session) (call : Call) : List String :=
  (s.requested call).elim [] fun path => (s.newSteps path).filterMap Step.preferredAlias

/-- The aliases that the pools of a session numbered. -/
def numberedAliases (s : Session) : List String :=
  s.joinAliases.numbered ++ s.junctionAliases.numbered

/-- The aliases of a session are its own, the `preferred` ones, and the numbered ones. -/
structure Arranged (preferred : List String) (s : Session) : Prop where
  routed : s.Routed
  anchored : s.Anchored
  numbered : s.Numbered preferred
  ordered : s.Ordered

variable {s t : Session} {preferred : List String}

theorem Numbered.kind_of_mem (h : s.Numbered preferred) {name : String}
    (hname : name ∈ s.numberedAliases) :
    ∃ kind n, (kind.isDigit = false ∧ kind ≠ 's') ∧ name = numberedName s.tableAlias kind n := by
  rcases List.mem_append.1 hname with hname | hname
  · obtain ⟨n, rfl⟩ := AliasPool.mem_numbered 'j' h.joinStem hname
    exact ⟨'j', n, by decide, rfl⟩
  · obtain ⟨n, rfl⟩ := AliasPool.mem_numbered 'm' h.junctionStem hname
    exact ⟨'m', n, by decide, rfl⟩

theorem Numbered.nodup (h : s.Numbered preferred) : s.numberedAliases.Nodup := by
  refine List.Nodup.append s.joinAliases.nodup_numbered s.junctionAliases.nodup_numbered
    fun name hj hm => ?_
  obtain ⟨m, rfl⟩ := AliasPool.mem_numbered 'j' h.joinStem hj
  obtain ⟨n, heq⟩ := AliasPool.mem_numbered 'm' h.junctionStem hm
  exact absurd (numberedName_inj (by decide) (by decide) heq).2.1 (by decide)

theorem arranged_setAlias_new (schema : Schema) (table : TableId) (tableAlias : String) :
    ((new schema table).setAlias tableAlias).Arranged [] := by
  have htraced := traced_setAlias_new schema table tableAlias
  refine ⟨htraced.routed, htraced.anchored, numbered_setAlias_new schema table tableAlias, ?_⟩
  unfold setAlias
  split
  · exact ⟨fun c hc => absurd hc List.not_mem_nil, rfl⟩
  · exact ⟨fun c hc => absurd hc List.not_mem_nil, rfl⟩

theorem Numbered.joinTo (h : s.Numbered preferred) (hs : s.Routed) (ha : s.Anchored)
    {path : List Step} (hne : path ≠ []) (fetch : Bool) :
    (s.joinTo path fetch).Numbered
      (preferred ++ (s.newSteps path).filterMap Step.preferredAlias) := by
  obtain ⟨_, _, _, _, heq⟩ := ha.joinTo_eq hs hne fetch
  rw [heq]
  exact (h.placeRest hs ha path).congr rfl rfl rfl rfl

theorem Arranged.joinTo (h : s.Arranged preferred) (path : List Step) (fetch : Bool) :
    (s.joinTo path fetch).Arranged
      (preferred ++ (s.newSteps path).filterMap Step.preferredAlias) := by
  by_cases hne : path = []
  · subst hne
    rw [joinTo_nil, newSteps, List.drop_nil, List.filterMap_nil, List.append_nil]
    exact h
  · exact ⟨h.routed.joinTo path fetch, h.anchored.joinTo h.routed hne fetch,
      h.numbered.joinTo h.routed h.anchored hne fetch,
      h.ordered.joinTo h.routed hne fetch⟩

theorem Arranged.addJoin (h : s.Arranged preferred) (path : List Step) (fetch : Bool) :
    (s.addJoin path fetch).2.Arranged
      (preferred ++ (s.newSteps path).filterMap Step.preferredAlias) := by
  by_cases hne : path = []
  · subst hne
    rw [newSteps, List.drop_nil, List.filterMap_nil, List.append_nil]
    exact h
  · obtain ⟨last, hresolve⟩ := s.resolve_snd path
    have hplaced := h.numbered.placeRest h.routed h.anchored path
    have hadd :
        (s.addJoin path fetch).2 = (s.resolve path).2.addResolved (s.resolve path).1 fetch := by
      rw [Session.addJoin, if_neg (by simpa using hne)]
    refine ⟨h.routed.addJoin path fetch, ?_, ?_, h.ordered.adds h.routed (s.adds_addJoin hne fetch)⟩
    · rw [hadd]
      exact fun c hc => (h.anchored.resolve h.routed path c hc).extends
        ⟨rfl, List.prefix_refl _, fun _ _ _ h => h⟩
    · rw [hadd, addResolved, hresolve]
      exact hplaced.congr rfl rfl rfl rfl

/-! ## Calls -/

/-- The second session has the aliases of the first as well as its joins. -/
structure SameAliases (s t : Session) : Prop extends s.SameJoins t where
  joinAliases : t.joinAliases = s.joinAliases
  junctionAliases : t.junctionAliases = s.junctionAliases

theorem Arranged.of_sameAliases (h : s.Arranged preferred) (hst : s.SameAliases t) :
    t.Arranged preferred where
  routed := h.routed.of_sameJoins hst.toSameJoins
  anchored := h.anchored.of_sameJoins hst.toSameJoins
  numbered := h.numbered.congr hst.tableAlias hst.joinAliases hst.junctionAliases hst.placements
  ordered := by
    have hvisits : t.visits = s.visits := by rw [visits, visits, hst.joins]
    constructor
    · rw [hst.traversed, hvisits]
      exact h.ordered.visited
    · rw [joinedTables, hvisits, tablesOf_congr hst.schema hst.placements, joinedPlacements,
        hst.placements]
      exact h.ordered.joined

theorem keepsScope_of_requested_none {call : Call} (keeps : call.keepsPools = true)
    (h : s.requested call = none) : call.keepsScope = true := by
  cases call with
  | setAlias a => cases keeps
  | addJoin path fetch => cases h
  | _ => rfl

theorem pools_perform (s : Session) {call : Call} (keeps : call.keepsPools = true)
    (h : s.requested call = none) :
    (s.perform call).joinAliases = s.joinAliases ∧
      (s.perform call).junctionAliases = s.junctionAliases := by
  cases call with
  | setAlias a => cases keeps
  | additions path => cases keeps
  | addJoin path fetch => cases h
  | joinPending fetch => cases h
  | joinTo path fetch => cases h
  | setFilter restrictions =>
    obtain ⟨_, _, hf⟩ := s.setFilter_frame restrictions
    rw [perform, hf]
    exact ⟨rfl, rfl⟩
  | select columns =>
    obtain ⟨_, _, hf⟩ := s.ensureFilter_frame
    rw [perform, select, hf]
    exact ⟨rfl, rfl⟩
  | build columns d =>
    obtain ⟨log, hb⟩ := s.build_frame columns d
    obtain ⟨_, _, hf⟩ := s.ensureFilter_frame
    rw [perform, hb, hf]
    exact ⟨rfl, rfl⟩
  | _ => exact ⟨rfl, rfl⟩

/-- A call that asks for no join changes no alias. -/
theorem sameAliases_perform (s : Session) {call : Call} (keeps : call.keepsPools = true)
    (h : s.requested call = none) : s.SameAliases (s.perform call) :=
  ⟨s.sameJoins_perform (keepsScope_of_requested_none keeps h) h, (s.pools_perform keeps h).1,
    (s.pools_perform keeps h).2⟩

theorem Arranged.perform (h : s.Arranged preferred) {call : Call}
    (keeps : call.keepsPools = true) :
    (s.perform call).Arranged (preferred ++ s.preferredOf call) := by
  cases hrequest : s.requested call with
  | none =>
    rw [preferredOf, hrequest, Option.elim_none, List.append_nil]
    exact h.of_sameAliases (s.sameAliases_perform keeps hrequest)
  | some path =>
    rw [preferredOf, hrequest, Option.elim_some]
    cases call with
    | joinTo p fetch =>
      obtain rfl : p = path := Option.some.inj hrequest
      exact h.joinTo p fetch
    | joinPending fetch =>
      obtain rfl : s.pending = path := Option.some.inj hrequest
      have hpending : s.SameAliases { s with pending := [] } :=
        ⟨⟨rfl, rfl, rfl, rfl, rfl, rfl, fun _ _ h => h⟩, rfl, rfl⟩
      exact (h.of_sameAliases hpending).joinTo s.pending fetch
    | addJoin p fetch =>
      obtain rfl : p = path := Option.some.inj hrequest
      exact h.addJoin p fetch
    | _ => cases hrequest

/-- The aliases that the callers want along a run. -/
def preferredIn (s : Session) (calls : List Call) : List String := along perform preferredOf s calls

theorem Arranged.run (h : s.Arranged preferred) {calls : List Call}
    (keeps : ∀ call ∈ calls, call.keepsPools = true) :
    (s.run calls).Arranged (preferred ++ s.preferredIn calls) :=
  along_induction_from (P := fun preferred (t : Session) => t.Arranged preferred)
    (fun call hcall _ _ ht => ht.perform (keeps call hcall)) h

end JoinPath.Session
