import JoinPath.Proofs.Lists
import JoinPath.Schema.Declaration
/-!
# Accepted declarations

What a declaration has checked when it is not refused, and the schema that it makes then. Each of
the calls is read off once (`associate_eq_ok_iff` and those beside it), so what a declaration keeps
is shown of the schemas that declarations make (`declare_induction`).
-/

namespace JoinPath

namespace Schema

variable {s t : Schema}

/-! ## Checks -/

theorem requireColumn_eq_ok_iff (u : Table) (column : String) :
    (∃ c, u.requireColumn column = .ok c) ↔ column ∈ u.columns.map Column.name := by
  unfold Table.requireColumn Table.column?
  cases h : u.columns.find? fun c => c.name == column with
  | none =>
    have hnone : ∀ c ∈ u.columns, c.name ≠ column := by simpa using List.find?_eq_none.1 h
    simp only [reduceCtorEq, exists_false, List.mem_map, false_iff]
    rintro ⟨c, hc, hname⟩
    exact hnone c hc hname
  | some c =>
    have hname : c.name = column := by simpa using List.find?_some h
    exact ⟨fun _ => List.mem_map.2 ⟨c, List.mem_of_find?_eq_some h, hname⟩, fun _ => ⟨c, rfl⟩⟩

theorem checkRelations_eq_ok_iff (o d : Table) (relations : List Relation) :
    checkRelations o d relations = .ok () ↔ relations ≠ [] ∧ ∀ r ∈ relations,
      r.origin ∈ o.columns.map Column.name ∧ r.destination ∈ d.columns.map Column.name := by
  have one (r : Relation) : checkRelation o d r = .ok () ↔
      r.origin ∈ o.columns.map Column.name ∧ r.destination ∈ d.columns.map Column.name := by
    simp only [checkRelation, bind_eq_ok_iff, ← requireColumn_eq_ok_iff]
    exact ⟨fun ⟨c, hc, c', hc', _⟩ => ⟨⟨c, hc⟩, ⟨c', hc'⟩⟩,
      fun ⟨⟨c, hc⟩, ⟨c', hc'⟩⟩ => ⟨c, hc, c', hc', rfl⟩⟩
  have each (rs : List Relation) : forM rs (checkRelation o d) = .ok () ↔ ∀ r ∈ rs,
      r.origin ∈ o.columns.map Column.name ∧ r.destination ∈ d.columns.map Column.name := by
    induction rs with
    | nil => exact ⟨fun _ r hr => absurd hr List.not_mem_nil, fun _ => rfl⟩
    | cons r rs ih =>
      rw [List.forM_cons, bind_eq_ok_iff, List.forall_mem_cons, ← ih, ← one]
      exact ⟨fun ⟨_, hr, hrs⟩ => ⟨hr, hrs⟩, fun ⟨hr, hrs⟩ => ⟨(), hr, hrs⟩⟩
  unfold checkRelations
  split
  · next h => simp [h]
  · next h => exact (each relations).trans (and_iff_right h).symm

theorem relations_ne_nil_of_checkRelations {origin destination : Table} {relations : List Relation}
    (h : checkRelations origin destination relations = .ok ()) : relations ≠ [] :=
  ((checkRelations_eq_ok_iff origin destination relations).1 h).1

/-- What is checked of the table of a discriminator: it is an end. -/
theorem isEnd_iff (a : Association) (id : TableId) :
    (id = a.origin ∨ id = a.destination) ↔ ¬ (id ≠ a.origin ∧ id ≠ a.destination) := by
  rw [not_and_or, not_not, not_not]

/-- The end of the discriminators before it, if there are any. -/
theorem isSameEnd_iff (a : Association) (id : TableId) :
    (∀ x ∈ a.discriminatorTable, x = id) ↔
      ¬ (a.discriminatorTable.any (· ≠ id)) = true := by
  cases a.discriminatorTable <;> simp

/-! ## Calls -/

theorem setColumnParameter_eq_ok_iff {id : TableId} {column parameter : String} :
    s.setColumnParameter id column parameter = .ok t ↔
      column ∈ (s.table id).columns.map Column.name ∧
        t = s.modifyTable id fun u =>
          { u with columns := bindColumn column parameter u.columns } := by
  rw [setColumnParameter, bind_eq_ok_iff, ← requireColumn_eq_ok_iff]
  exact ⟨fun ⟨c, hc, ht⟩ => ⟨⟨c, hc⟩, (Except.ok.inj ht).symm⟩,
    fun ⟨⟨c, hc⟩, ht⟩ => ⟨c, hc, congrArg Except.ok ht.symm⟩⟩

theorem associate_eq_ok_iff {name : String} {origin destination : TableId}
    {relations : List Relation} {r : AssociationId × Schema} :
    s.associate name origin destination relations = .ok r ↔
      checkRelations (s.table origin) (s.table destination) relations = .ok () ∧
        r = s.pushAssociation name origin destination relations none := by
  rw [associate, bind_eq_ok_iff]
  exact ⟨fun ⟨_, hc, hr⟩ => ⟨hc, (Except.ok.inj hr).symm⟩,
    fun ⟨hc, hr⟩ => ⟨(), hc, congrArg Except.ok hr.symm⟩⟩

/-- Adds an association through a junction table, its halves before it, without a check. -/
def pushThrough (s : Schema) (name : String) (origin junction destination : TableId)
    (inward outward : List Relation) : AssociationId × Schema :=
  let first := s.pushAssociation (name ++ "_from") origin junction inward none
  let second := first.2.pushAssociation (name ++ "_to") junction destination outward none
  second.2.pushAssociation name origin destination [] (some ⟨first.1, second.1⟩)

theorem pushThrough_snd (s : Schema) (name : String) (origin junction destination : TableId)
    (inward outward : List Relation) :
    (s.pushThrough name origin junction destination inward outward).2 =
      { s with associations := s.associations ++
        [⟨⟨s.associations.length⟩, name ++ "_from", origin, junction, inward, none, none, []⟩] ++
        [⟨⟨s.associations.length + 1⟩, name ++ "_to", junction, destination, outward, none, none,
          []⟩] ++
        [⟨⟨s.associations.length + 2⟩, name, origin, destination, [],
          some ⟨⟨s.associations.length⟩, ⟨s.associations.length + 1⟩⟩, none, []⟩] } := by
  simp [pushThrough, pushAssociation]

theorem associateThrough_eq_ok_iff {name : String} {origin junction destination : TableId}
    {inward outward : List Relation} {r : AssociationId × Schema} :
    s.associateThrough name origin junction destination inward outward = .ok r ↔
      checkRelations (s.table origin) (s.table junction) inward = .ok () ∧
        checkRelations (s.table junction) (s.table destination) outward = .ok () ∧
        r = s.pushThrough name origin junction destination inward outward := by
  simp only [associateThrough, bind_eq_ok_iff]
  exact ⟨fun ⟨_, hi, _, ho, hr⟩ => ⟨hi, ho, (Except.ok.inj hr).symm⟩,
    fun ⟨hi, ho, hr⟩ => ⟨(), hi, (), ho, congrArg Except.ok hr.symm⟩⟩

theorem addDiscriminator_eq_ok_iff {id : AssociationId} {table : TableId} {column : String}
    {value : Value} :
    s.addDiscriminator id table column value = .ok t ↔
      (table = (s.association id).origin ∨ table = (s.association id).destination) ∧
        column ∈ (s.table table).columns.map Column.name ∧
        (∀ x ∈ (s.association id).discriminatorTable, x = table) ∧
        t = { s with associations := s.associations.modify id.index fun a => { a with
          discriminatorTable := some table
          discriminators := a.discriminators ++ [⟨column, value⟩] } } := by
  rw [isEnd_iff, isSameEnd_iff, ← requireColumn_eq_ok_iff]
  unfold addDiscriminator
  dsimp only
  by_cases hend : table ≠ (s.association id).origin ∧ table ≠ (s.association id).destination
  · simp [hend, throw, throwThe, MonadExceptOf.throw, bind, Except.bind]
  rw [if_neg hend, bind_eq_ok_iff]
  by_cases hother : (s.association id).discriminatorTable.any (· ≠ table) = true
  · simp only [if_pos hother]
    exact ⟨fun ⟨_, _, h⟩ => (nomatch h), fun ⟨_, _, h, _⟩ => absurd hother h⟩
  · simp only [if_neg hother]
    exact ⟨fun ⟨c, hc, ht⟩ => ⟨hend, ⟨c, hc⟩, hother, (Except.ok.inj ht).symm⟩,
      fun ⟨_, ⟨c, hc⟩, _, ht⟩ => ⟨c, hc, congrArg Except.ok ht.symm⟩⟩

/-! ## Declarations -/

/-- What holds of a schema and of all that an accepted declaration can make of it holds after any
declaration. -/
theorem declare_induction {P : Schema → Prop} (refused : P s)
    (table : ∀ name columns, P (s.addTable name columns).2)
    (parameter : ∀ id column parameter, P (s.modifyTable id fun u =>
      { u with columns := bindColumn column parameter u.columns }))
    (restriction : ∀ id criteria, P (s.addTableDiscriminator id criteria))
    (association : ∀ name origin destination relations,
      checkRelations (s.table origin) (s.table destination) relations = .ok () →
      P (s.pushAssociation name origin destination relations none).2)
    (through : ∀ name origin junction destination inward outward,
      checkRelations (s.table origin) (s.table junction) inward = .ok () →
      checkRelations (s.table junction) (s.table destination) outward = .ok () →
      P (s.pushThrough name origin junction destination inward outward).2)
    (discriminator : ∀ id table column value,
      (table = (s.association id).origin ∨ table = (s.association id).destination) →
      column ∈ (s.table table).columns.map Column.name →
      (∀ x ∈ (s.association id).discriminatorTable, x = table) →
      P { s with associations := s.associations.modify id.index fun a => { a with
        discriminatorTable := some table
        discriminators := a.discriminators ++ [⟨column, value⟩] } })
    (d : Declaration) : P (s.declare d) := by
  cases d with
  | table name columns => exact table name columns
  | tableDiscriminator id criteria => exact restriction id criteria
  | columnParameter id column value =>
    unfold declare
    dsimp only
    split
    · next t h =>
      obtain ⟨-, rfl⟩ := setColumnParameter_eq_ok_iff.1 h
      exact parameter id column value
    · exact refused
  | association name origin destination relations =>
    unfold declare
    dsimp only
    split
    · next id t h =>
      obtain ⟨hc, hr⟩ := associate_eq_ok_iff.1 h
      obtain rfl : t = _ := congrArg Prod.snd hr
      exact association name origin destination relations hc
    · exact refused
  | manyToMany name origin junction destination inward outward =>
    unfold declare
    dsimp only
    split
    · next id t h =>
      obtain ⟨hi, ho, hr⟩ := associateThrough_eq_ok_iff.1 h
      obtain rfl : t = _ := congrArg Prod.snd hr
      exact through name origin junction destination inward outward hi ho
    · exact refused
  | discriminator id owner column value =>
    unfold declare
    dsimp only
    split
    · next t h =>
      obtain ⟨hend, hcolumn, hsame, rfl⟩ := addDiscriminator_eq_ok_iff.1 h
      exact discriminator id owner column value hend hcolumn hsame
    · exact refused

end Schema

end JoinPath
