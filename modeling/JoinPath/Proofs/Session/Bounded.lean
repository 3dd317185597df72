import JoinPath.Proofs.Path.Routed
import JoinPath.Proofs.Schema.WellFormed
/-!
# Bounded sessions

A call is in range if it names tables and associations that the schema has and placements that the
session has. From a new session on a table of a well-formed schema such calls lead to bounded
sessions alone (`Bounded.run`): whatever the session names in turn is there, and a placement comes
after its halves.
-/

namespace JoinPath

namespace Schema

def HasTable (s : Schema) (id : TableId) : Prop := id.index < s.tables.length

def HasAssociation (s : Schema) (id : AssociationId) : Prop := id.index < s.associations.length

instance (s : Schema) (id : TableId) : Decidable (s.HasTable id) :=
  inferInstanceAs (Decidable (_ < _))

instance (s : Schema) (id : AssociationId) : Decidable (s.HasAssociation id) :=
  inferInstanceAs (Decidable (_ < _))

variable {s : Schema}

theorem WellFormed.isSound (hs : s.WellFormed) {id : AssociationId} (h : s.HasAssociation id) :
    s.IsSound id.index (s.association id) :=
  hs.associations _ _ (getElem?_association h)

/-- The halves of an association are associations of the schema that have no halves. -/
theorem WellFormed.halves (hs : s.WellFormed) {id : AssociationId} (h : s.HasAssociation id)
    {j : Junction} (hj : (s.association id).junction = some j) :
    (s.HasAssociation j.inward ∧ (s.association j.inward).junction = none) ∧
      s.HasAssociation j.outward ∧ (s.association j.outward).junction = none := by
  obtain ⟨-, -, -, first, second, hfirst, hsecond, hdirect, hdirect', -⟩ :=
    (hs.isSound h).through j hj
  rw [association_of_getElem? hfirst, association_of_getElem? hsecond]
  exact ⟨⟨(List.getElem?_eq_some_iff.1 hfirst).1, hdirect⟩,
    (List.getElem?_eq_some_iff.1 hsecond).1, hdirect'⟩

end Schema

/-- The steps go along associations of the schema. -/
def Step.AllAlong (schema : Schema) (path : List Step) : Prop :=
  ∀ step ∈ path, schema.HasAssociation step.association

instance (schema : Schema) (path : List Step) : Decidable (Step.AllAlong schema path) :=
  inferInstanceAs (Decidable (∀ step ∈ path, _))

/-- A placement at its position: it leads to a table of the schema, its halves come before, and
without halves it pairs columns. -/
structure Placement.IsSettled (schema : Schema) (i : ℕ) (p : Placement) : Prop where
  id : p.id = ⟨i⟩
  destination : schema.HasTable p.destination
  halves : ∀ h ∈ p.halves, h.1.index < i ∧ h.2.index < i
  paired : p.halves = none → p.conditions ≠ []

namespace Session

/-- Whatever the session names is there. -/
structure Bounded (s : Session) : Prop where
  schema : s.schema.WellFormed
  table : s.schema.HasTable s.table
  pending : Step.AllAlong s.schema s.pending
  placements : Positioned (Placement.IsSettled s.schema) s.placements
  routed : s.Routed

/-- What a call names is there. The placements of a path that is still to be resolved do not
count. -/
def Call.InRange (s : Session) : Call → Prop
  | .subquery table => s.schema.HasTable table
  | .inner associations => ∀ a ∈ associations, s.schema.HasAssociation a
  | .outer associations => ∀ a ∈ associations, s.schema.HasAssociation a
  | .joinTo path _ => Step.AllAlong s.schema path
  | .addJoin path _ => Step.AllAlong s.schema path
  | .additions path => Step.AllAlong s.schema path ∧
    ∀ step ∈ path, ∀ id ∈ step.placement, id.index < s.placements.length
  | _ => True

/-- Each call is in range when its turn comes. -/
def AllInRange (s : Session) : List Call → Prop
  | [] => True
  | call :: calls => call.InRange s ∧ (s.perform call).AllInRange calls

instance (s : Session) : (call : Call) → Decidable (call.InRange s)
  | .subquery table => inferInstanceAs (Decidable (s.schema.HasTable table))
  | .inner associations => inferInstanceAs (Decidable (∀ a ∈ associations, _))
  | .outer associations => inferInstanceAs (Decidable (∀ a ∈ associations, _))
  | .joinTo path _ => inferInstanceAs (Decidable (Step.AllAlong s.schema path))
  | .addJoin path _ => inferInstanceAs (Decidable (Step.AllAlong s.schema path))
  | .additions path => inferInstanceAs (Decidable (Step.AllAlong s.schema path ∧
    ∀ step ∈ path, ∀ id ∈ step.placement, id.index < s.placements.length))
  | .setAlias _ | .named _ | .on _ | .includeColumns _ | .joinPending _ | .setFilter _
  | .setParameter _ _ | .nextLiteral | .bindLiterals _ | .select _ | .build _ _ => .isTrue trivial

instance decidableAllInRange : (s : Session) → (calls : List Call) → Decidable (s.AllInRange calls)
  | _, [] => .isTrue trivial
  | s, call :: calls =>
    have := decidableAllInRange (s.perform call) calls
    inferInstanceAs (Decidable (call.InRange s ∧ (s.perform call).AllInRange calls))

variable {s : Session}

/-! ## Placements -/

/-- The session has the placement and the one where it ends. -/
theorem Bounded.settled (hs : s.Bounded) {id : PlacementId} (h : id.index < s.placements.length) :
    (s.placement id).IsSettled s.schema id.index := by
  have hget := List.getElem?_eq_getElem h
  rw [placement_eq id hget]
  exact hs.placements _ _ hget

theorem Bounded.terminal_lt (hs : s.Bounded) {id : PlacementId}
    (h : id.index < s.placements.length) : (s.terminal id).index < s.placements.length := by
  have hsettled := hs.settled h
  unfold terminal Placement.terminal
  split
  · next first second hhalves => exact Nat.lt_trans (hsettled.halves _ hhalves).2 h
  · rw [hsettled.id]
    exact h

theorem schema_place (s : Session) (step : Step) (previous : Option PlacementId) :
    (s.place step previous).2.schema = s.schema :=
  (s.placedAfter_place step previous).larger.schema

/-- The placement of an association that goes through no junction table. -/
theorem isSettled_placeBetween {schema : Schema} {j : ℕ} {a : Association}
    (sound : schema.IsSound j a) (direct : a.junction = none) (i : ℕ)
    (origin destination : String) :
    (placeBetween a ⟨i⟩ origin destination none).IsSettled schema i := by
  refine ⟨rfl, sound.destination, fun _ h => (nomatch h), fun _ hnil => ?_⟩
  exact (sound.direct direct).1 (List.map_eq_nil_iff.1 hnil)

theorem settled_place (schema : s.schema.WellFormed)
    (h : Positioned (Placement.IsSettled s.schema) s.placements) {step : Step}
    (there : s.schema.HasAssociation step.association) (previous : Option PlacementId) :
    Positioned (Placement.IsSettled s.schema) (s.place step previous).2.placements := by
  have sound := schema.isSound there
  cases hj : (s.schema.association step.association).junction with
  | none =>
    obtain ⟨destination, t, hplace, -, hp, -⟩ := place_of_direct hj previous
    rw [hplace]
    dsimp only [addPlacements]
    rw [hp]
    exact h.concat (isSettled_placeBetween sound hj _ _ _)
  | some j =>
    obtain ⟨⟨hinward, hfirst⟩, houtward, hsecond⟩ := schema.halves there hj
    obtain ⟨junction, destination, t, hplace, -, hp, -⟩ := place_of_junction hj previous
    rw [hplace]
    dsimp only [addPlacements]
    rw [hp, List.append_cons, List.append_cons]
    refine Positioned.concat (Positioned.concat (h.concat ?_) ?_) ?_
    · exact isSettled_placeBetween (schema.isSound hinward) hfirst _ _ _
    · rw [List.length_append, List.length_singleton]
      exact isSettled_placeBetween (schema.isSound houtward) hsecond _ _ _
    · rw [List.length_append, List.length_append, List.length_singleton, List.length_singleton]
      refine ⟨rfl, sound.destination, fun halves hhalves => ?_, fun hnone => (nomatch hnone)⟩
      obtain rfl := Option.some.inj hhalves
      exact ⟨Nat.lt_succ_of_lt (Nat.lt_succ_self _), Nat.lt_succ_self _⟩

theorem settled_placeAll (schema : s.schema.WellFormed)
    (h : Positioned (Placement.IsSettled s.schema) s.placements) {steps : List Step}
    (there : Step.AllAlong s.schema steps) (previous : Option PlacementId) :
    Positioned (Placement.IsSettled s.schema) (s.placeAll steps previous).2.placements := by
  induction steps generalizing s previous with
  | nil => exact h
  | cons step steps ih =>
    obtain ⟨hstep, hsteps⟩ := List.forall_mem_cons.1 there
    have hplace := settled_place schema h hstep previous
    have hs := s.schema_place step previous
    rw [← hs] at hplace hsteps schema ⊢
    exact ih schema hplace hsteps _

theorem Bounded.settled_resolve (hs : s.Bounded) {path : List Step}
    (there : Step.AllAlong s.schema path) :
    Positioned (Placement.IsSettled s.schema) (s.resolve path).2.placements := by
  obtain ⟨last, h⟩ := s.resolve_snd path
  rw [h]
  exact settled_placeAll hs.schema hs.placements
    (fun step hstep => there step (List.mem_of_mem_drop hstep)) _

theorem Bounded.settled_joinTo (hs : s.Bounded) {path : List Step}
    (there : Step.AllAlong s.schema path) (fetch : Bool) :
    Positioned (Placement.IsSettled s.schema) (s.joinTo path fetch).placements := by
  by_cases hne : path = []
  · rw [hne, joinTo_nil]
    exact hs.placements
  · obtain ⟨_, _, _, _, h⟩ := s.compose_frame path
    rw [s.joinTo_of_ne_nil hne, addResolved, h]
    exact hs.settled_resolve there

/-! ## Calls -/

theorem Bounded.settled_perform (hs : s.Bounded) {call : Call} (there : call.InRange s) :
    Positioned (Placement.IsSettled s.schema) (s.perform call).placements := by
  cases call with
  | joinPending fetch =>
    have hs' : { s with pending := [] }.Bounded :=
      ⟨hs.schema, hs.table, fun _ h => (nomatch h), hs.placements,
        hs.routed.matched, hs.routed.standing, hs.routed.recorded⟩
    exact hs'.settled_joinTo hs.pending fetch
  | joinTo path fetch => exact hs.settled_joinTo there fetch
  | addJoin path fetch =>
    unfold perform addJoin
    dsimp only
    split
    · exact hs.placements
    · exact hs.settled_resolve there
  | setAlias a =>
    unfold perform setAlias
    dsimp only
    split <;> exact hs.placements
  | additions path =>
    obtain ⟨_, h⟩ := s.additions_frame path
    rw [perform, h]
    exact hs.placements
  | setFilter restrictions =>
    obtain ⟨_, _, h⟩ := s.setFilter_frame restrictions
    rw [perform, h]
    exact hs.placements
  | select columns =>
    obtain ⟨_, _, h⟩ := s.ensureFilter_frame
    simp only [perform, select, h]
    exact hs.placements
  | build columns d =>
    obtain ⟨_, h⟩ := s.build_frame columns d
    obtain ⟨_, _, hf⟩ := s.ensureFilter_frame
    rw [perform, h, hf]
    exact hs.placements
  | _ => exact hs.placements

/-- Naming, restricting or selecting from the last pending step leaves its association. -/
theorem allAlong_modifyPending (there : Step.AllAlong s.schema s.pending) {f : Step → Step}
    (keeps : ∀ step, (f step).association = step.association) :
    Step.AllAlong s.schema (s.modifyPending f).pending := by
  intro step hstep
  have hstep' : step.association ∈ ((s.pending.modify (s.pending.length - 1) f).map
      Step.association) := List.mem_map_of_mem hstep
  rw [map_modify (g := id) keeps, List.modify_id] at hstep'
  obtain ⟨old, hold, heq⟩ := List.mem_map.1 hstep'
  rw [← heq]
  exact there old hold

theorem allAlong_push (there : Step.AllAlong s.schema s.pending) (kind : JoinKind)
    {associations : List AssociationId} (more : ∀ a ∈ associations, s.schema.HasAssociation a) :
    Step.AllAlong s.schema (s.push kind associations).pending := by
  intro step hstep
  rcases List.mem_append.1 hstep with hstep | hstep
  · exact there step hstep
  · obtain ⟨a, ha, rfl⟩ := List.mem_map.1 hstep
    exact more a ha

theorem Bounded.pending_perform (hs : s.Bounded) {call : Call} (there : call.InRange s) :
    Step.AllAlong s.schema (s.perform call).pending := by
  cases call with
  | inner associations => exact allAlong_push hs.pending .inner there
  | outer associations => exact allAlong_push hs.pending .left there
  | named a => exact allAlong_modifyPending hs.pending fun _ => rfl
  | on c => exact allAlong_modifyPending hs.pending fun _ => rfl
  | includeColumns columns => exact allAlong_modifyPending hs.pending fun _ => rfl
  | joinPending fetch =>
    obtain ⟨_, _, _, _, _, _, _, _, _, h⟩ := joinTo_frame { s with pending := [] } s.pending fetch
    rw [perform, joinPending, h]
    exact List.forall_mem_nil _
  | joinTo path fetch =>
    obtain ⟨_, _, _, _, _, _, _, _, _, h⟩ := s.joinTo_frame path fetch
    rw [perform, h]
    exact hs.pending
  | addJoin path fetch =>
    obtain ⟨_, _, _, _, _, _, h⟩ := s.resolve_frame path
    simp only [perform, addJoin]
    split
    · exact hs.pending
    · simp only [addResolved, h]
      exact hs.pending
  | setAlias a =>
    unfold perform setAlias
    dsimp only
    split <;> exact hs.pending
  | additions path =>
    obtain ⟨_, h⟩ := s.additions_frame path
    rw [perform, h]
    exact hs.pending
  | setFilter restrictions =>
    obtain ⟨_, _, h⟩ := s.setFilter_frame restrictions
    rw [perform, h]
    exact hs.pending
  | select columns =>
    obtain ⟨_, _, h⟩ := s.ensureFilter_frame
    simp only [perform, select, h]
    exact hs.pending
  | build columns d =>
    obtain ⟨_, h⟩ := s.build_frame columns d
    obtain ⟨_, _, hf⟩ := s.ensureFilter_frame
    rw [perform, h, hf]
    exact hs.pending
  | _ => exact hs.pending

theorem Bounded.perform (hs : s.Bounded) {call : Call} (there : call.InRange s) :
    (s.perform call).Bounded := by
  obtain ⟨hschema, htable⟩ := s.sameTable_perform call
  have hpending := hs.pending_perform there
  have hplacements := hs.settled_perform there
  rw [← hschema] at hpending hplacements
  refine ⟨?_, ?_, hpending, hplacements, hs.routed.perform call⟩
  · rw [hschema]
    exact hs.schema
  · rw [hschema, htable]
    exact hs.table

theorem Bounded.run (hs : s.Bounded) {calls : List Call} (there : s.AllInRange calls) :
    (s.run calls).Bounded := by
  induction calls generalizing s with
  | nil => exact hs
  | cons call calls ih => exact ih (hs.perform there.1) there.2

theorem bounded_new {schema : Schema} (made : schema.WellFormed) {table : TableId}
    (there : schema.HasTable table) : (new schema table).Bounded where
  schema := made
  table := there
  pending _ h := nomatch h
  placements i p h := by simp [new] at h
  routed := routed_new schema table

/-- What a bounded session recorded has its placements there. -/
theorem Bounded.standing_lt (hs : s.Bounded) {path : List Step} (hpath : path ∈ s.traversed)
    {step : Step} (hstep : step ∈ path) :
    ∃ id, step.placement = some id ∧ id.index < s.placements.length := by
  obtain ⟨id, _, _, hid, hstands⟩ := hs.routed.standing path hpath step hstep
  exact ⟨id, hid, hstands.index_lt⟩

end Session

end JoinPath
