import JoinPath.Proofs.Hops.Typed
/-!
# The conditions of joined tables

A table that is joined as the end of a step brings its own conditions to the hop. A junction table
is joined too, but its hop takes no condition, so those of a junction table are lost on the way
(`table_conditions_carried`, `junction_condition_lost`).
-/

namespace JoinPath

open Bindings (Change)
open Criteria (Filled conjuncts conjunctsOf)

/-- The condition stands in a row among the conjuncts of the hop: its open columns have the alias of
the hop, and its literals have names that are `bound` to them. -/
def Hop.Carries (bound : String → Value → Prop) (h : Hop Criteria) (c : Criteria) : Prop :=
  ∃ d, Filled bound (c.qualify h.tableAlias) d ∧ d.conjuncts <:+: conjunctsOf h.on

/-- A hop carries the conditions of the table that its association leads to. -/
theorem Hop.RestrictedBy.carries {bound : String → Value → Prop} {schema : Schema}
    {originAlias : String} {h : Hop Criteria} {first : Step} {later : List Step}
    (hr : h.RestrictedBy bound schema originAlias first later) {c : Criteria}
    (hc : c ∈ (schema.table (schema.association first.association).destination).criteria) :
    h.Carries bound c := by
  obtain ⟨own, more, hown, -, hconjoined⟩ := hr.conjoined
  have hmem : c.qualify h.tableAlias ∈ first.criteria.toList.map (.qualify h.tableAlias) ++
      (schema.association first.association).restrictions schema originAlias h.tableAlias :=
    List.mem_append_right _ (List.mem_append_left _ (List.mem_map_of_mem hc))
  obtain ⟨d, hd, hfilled⟩ := exists_mem_of_forall₂ hown hmem
  obtain ⟨before, after, rfl⟩ := List.append_of_mem hd
  refine ⟨d, hfilled, List.IsInfix.trans ?_ hconjoined.present_prefix.isInfix⟩
  refine ⟨before.flatMap conjuncts, after.flatMap conjuncts, ?_⟩
  rw [List.flatMap_append, List.flatMap_cons, List.append_assoc]

namespace Session

variable {s : Session} {requests : List (List Step)} {changes : List Change} {id : PlacementId}
  {origin destination : String}

/-- In a typed schema a standing placement leads to the table of its association. -/
theorem Stands.destination_of_typed {a : AssociationId} (h : s.Stands a id origin destination)
    (typed : s.schema.Typed) :
    (s.placement (s.terminal id)).destination = (s.schema.association a).destination := by
  cases hget : s.schema.associations[a.index]? with
  | some b =>
    have ha : s.schema.IsTyped a.index (s.schema.association a) := by
      rw [Schema.association_of_getElem? hget]
      exact typed _ b hget
    exact congrArg Prod.snd (h.destination_eq ha)
  | none =>
    -- An association that the schema does not have goes through no junction table.
    have hj : (s.schema.association a).junction = none := by
      rw [Schema.association, hget, Option.getD_none]
    rw [h.terminal_of_direct hj, h.placement_of_direct hj]
    rfl

/-- What was asked for first at a placement goes along the association that stands there. -/
theorem Traced.first_stands (h : Traced requests changes s) {first : Step} {others : List Step}
    (hsteps : ((requests.flatten.zip s.recorded).filter fun e => e.2.placement = some id).map
      Prod.fst = first :: others) :
    ∃ origin destination, s.Stands first.association id origin destination := by
  have hfirst : first ∈ ((requests.flatten.zip s.recorded).filter
      fun e => e.2.placement = some id).map Prod.fst := hsteps ▸ List.mem_cons_self
  obtain ⟨e, he, rfl⟩ := List.mem_map.1 hfirst
  obtain ⟨hpair, hplaced⟩ := List.mem_filter.1 he
  obtain ⟨cs, hattached⟩ := h.attached.exists_attached e hpair
  have hassociation : e.2.association = e.1.association := by rw [hattached.same]
  obtain ⟨id', origin, destination, hid, hstands⟩ :=
    h.routed.recorded_standing (List.of_mem_zip hpair).2
  obtain rfl := Option.some.inj (hid.symm.trans (of_decide_eq_true hplaced))
  exact ⟨origin, destination, hassociation ▸ hstands⟩

/-- The hop at which a placement ends carries the conditions of its table. -/
theorem Traced.endHop_carries (h : Traced requests changes s) (typed : s.schema.Typed) {v : Visit}
    {later : List Visit} (hv : Visit.sharing s.visits id = v :: later) {c : Criteria}
    (hc : c ∈ (s.schema.table (s.placement (s.terminal id)).destination).criteria) :
    (s.endHop v later).Carries (Criteria.NamedBy 0 changes) c := by
  obtain ⟨first, others, hsteps, hrestricted⟩ := h.restrictedBy hv
  obtain ⟨origin, destination, hstands⟩ := h.first_stands hsteps
  rw [hstands.destination_of_typed typed] at hc
  exact hrestricted.carries hc

/-- The hop joins the table under its alias. If a step ends there it carries the conditions of the
table; if it is that of a junction table it has no condition. -/
structure BringsTable (bound : String → Value → Prop) (schema : Schema) (x : PlacedHop)
    (e : String × TableId) : Prop where
  named : Matches schema x.2 e
  carries : x.1.isSome = true → ∀ c ∈ (schema.table e.2).criteria, x.2.Carries bound c
  junction : x.1 = none → x.2.on = none

theorem Traced.group_brings (h : Traced requests changes s) (typed : s.schema.Typed)
    (hid : id ∈ s.visits.map Visit.id) :
    List.Forall₂ (BringsTable (Criteria.NamedBy 0 changes) s.schema)
      (s.groupOf (Visit.sharing s.visits id)) (s.tablesOf id) := by
  obtain ⟨v, later, hv, rfl⟩ := exists_first_visit hid
  have hlast : BringsTable (Criteria.NamedBy 0 changes) s.schema (some v.id, s.endHop v later)
      (s.placement (s.terminal v.id)).joined :=
    ⟨s.matches_endHop v later, fun _ c hc => h.endHop_carries typed hv hc,
      fun hnone => absurd hnone (Option.some_ne_none _)⟩
  rw [hv, tablesOf]
  cases hhalves : (s.placement v.id).halves with
  | none =>
    rw [groupOf_of_direct hhalves]
    exact .cons hlast .nil
  | some halves =>
    rw [groupOf_of_halves hhalves]
    exact .cons ⟨⟨rfl, rfl⟩, fun hsome => absurd hsome Bool.false_ne_true, fun _ => rfl⟩
      (.cons hlast .nil)

/-- However a session on a schema that was made joins: a hop at which a step ends carries every
condition of its table, under its own alias and with each literal under a name that has its value,
unless the caller sets that. The hop of a junction table has no condition, whatever the table
asks for. -/
theorem table_conditions_carried {schema : Schema} (made : schema.IsMade) (table : TableId)
    (tableAlias : String) (calls : List Call) (keeps : ∀ call ∈ calls, call.keepsScope = true) :
    let s := ((new schema table).setAlias tableAlias).run calls
    let bound name value :=
      (∀ v, .setParameter name v ∉ calls) → s.parameters.get? name = some value
    List.Forall₂ (BringsTable bound schema) s.placedHops.1 s.joinedTables := by
  intro s bound
  have hstart : ((new schema table).setAlias tableAlias).schema = schema := by
    unfold setAlias
    split <;> rfl
  have hschema : s.schema = schema :=
    (((new schema table).setAlias tableAlias).sameBase_run keeps).schema.trans hstart
  have htyped : s.schema.Typed := by
    rw [hschema]
    exact made.typed
  have htraced := (traced_setAlias_new schema table tableAlias).run keeps
  have hbound : ∀ name value,
      Criteria.NamedBy 0 (((new schema table).setAlias tableAlias).history calls) name value →
        bound name value := by
    intro name value hnamed unset
    exact htraced.get?_of_namedBy hnamed fun v hv =>
      unset v (setParameter_mem_of_assigned _ hv)
  have hbrings : List.Forall₂ (BringsTable (Criteria.NamedBy 0 _) s.schema)
      (s.groups s.visits) s.joinedTables :=
    forall₂_flatMap_same fun id hid =>
      htraced.group_brings htyped (List.mem_eraseDups.1 hid)
  rw [hschema, ← placedHops_eq] at hbrings
  refine hbrings.imp fun x e hx => ⟨hx.named, fun hsome c hc => ?_, hx.junction⟩
  obtain ⟨d, hfilled, hinfix⟩ := hx.carries hsome c hc
  exact ⟨d, hfilled.mono hbound, hinfix⟩

/-! ## Tags that were taken off -/

/-- Books with tags that may be retired, through pairs that may be deleted. -/
def retiredTags : List Declaration := booksAndTags ++ [
  .tableDiscriminator ⟨1⟩ (.eq (.col "state") (.literal (.string "used"))),
  .tableDiscriminator ⟨2⟩ (.isNull (.col "deleted"))]

def joinRed : List Call := [.joinTo [tagged "red"] false]

def redBooks : Session := ((new (.declared retiredTags) ⟨0⟩).setAlias "b").run joinRed

example : redBooks.hops.map (fun h => (h.table, h.on)) =
    [("book_tags", none),
      ("tags", some (.group .and [
        .eq (.column (.qualified "b_j1" "name")) (.param "b_R1"),
        .eq (.column (.qualified "b_j1" "state")) (.param "b_R2")]))] := by
  cbv

theorem table_conditions_carried_redBooks :
    (Schema.declared retiredTags).IsMade ∧
    (∀ call ∈ joinRed, call.keepsScope = true) ∧
    ∃ h, redBooks.placedHops.1[1]? = some (some ⟨2⟩, h) ∧
      h.Carries (fun name value =>
        (∀ v, .setParameter name v ∉ joinRed) → redBooks.parameters.get? name = some value)
        (.eq (.col "state") (.literal (.string "used"))) := by
  have made : (Schema.declared retiredTags).IsMade := .declared retiredTags
  have keeps : ∀ call ∈ joinRed, call.keepsScope = true := by simp [joinRed, Call.keepsScope]
  have brings := table_conditions_carried made ⟨0⟩ "b" joinRed keeps
  have htables : redBooks.joinedTables = [("b_m1", ⟨2⟩), ("b_j1", ⟨1⟩)] := by cbv
  have howners : redBooks.placedHops.1.map Prod.fst = [none, some ⟨2⟩] := by cbv
  have hcriteria : ((Schema.declared retiredTags).table ⟨1⟩).criteria =
      [.eq (.col "state") (.literal (.string "used"))] := by cbv
  change List.Forall₂ _ redBooks.placedHops.1 redBooks.joinedTables at brings
  rw [htables] at brings
  obtain ⟨junction, rest, -, hrest, hhops⟩ := List.forall₂_cons_right_iff.1 brings
  obtain ⟨⟨owner, h⟩, rest, hlast, -, rfl⟩ := List.forall₂_cons_right_iff.1 hrest
  rw [hhops] at howners
  obtain rfl : owner = some ⟨2⟩ := (List.cons.inj (List.cons.inj howners).2).1
  refine ⟨made, keeps, h, ?_, hlast.carries rfl _ ?_⟩
  · rw [hhops]
    rfl
  · rw [hcriteria]
    exact List.mem_singleton_self _

/-- The hop of a junction table does not ask for what the table asks for wherever it is
referenced. -/
theorem junction_condition_lost :
    let schema := Schema.declared retiredTags
    (schema.table ⟨2⟩).name = "book_tags" ∧
    .isNull (.col "deleted") ∈ (schema.table ⟨2⟩).criteria ∧
    ∃ h ∈ redBooks.hops, h.table = "book_tags" ∧
      ∀ bound, ¬ h.Carries bound (.isNull (.col "deleted")) := by
  have hcriteria : ((Schema.declared retiredTags).table ⟨2⟩).criteria =
      [.isNull (.col "deleted")] := by cbv
  have hhop : (redBooks.hops[0]?).map (fun h => (h.table, h.on)) = some ("book_tags", none) := by
    cbv
  obtain ⟨h, hmem, hh⟩ := Option.map_eq_some_iff.1 hhop
  obtain ⟨htable, hon⟩ := Prod.mk.inj hh
  refine ⟨by cbv, hcriteria ▸ List.mem_singleton_self _, h, List.mem_of_getElem? hmem, htable, ?_⟩
  rintro bound ⟨d, ⟨ds, rfl, -⟩, hinfix⟩
  rw [hon] at hinfix
  exact absurd (List.infix_nil.1 hinfix) (List.cons_ne_nil _ _)

end Session

end JoinPath
