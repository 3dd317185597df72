import JoinPath.Config.Basic
import JoinPath.Proofs.Schema.Related
/-!
# Typed schemas

In a schema that was declared every association leads from a table to a table: the columns that it
pairs belong to its ends, a many-to-many association has halves that meet in the junction table,
and its discriminators speak of columns of one end (`typed_declared`). A schema that a
configuration makes was declared (`declared_of_toSchema`).
-/

namespace JoinPath.Schema

/-- The table has a column of this name. -/
def Declares (s : Schema) (id : TableId) (column : String) : Prop :=
  column ∈ (s.table id).columns.map Column.name

/-- The `i`-th association is well typed. -/
structure IsTyped (s : Schema) (i : ℕ) (a : Association) : Prop where
  id : a.id = ⟨i⟩
  origin : a.origin.index < s.tables.length
  destination : a.destination.index < s.tables.length
  relations : ∀ r ∈ a.relations,
    s.Declares a.origin r.origin ∧ s.Declares a.destination r.destination
  /-- The halves of a many-to-many association meet in the junction table. -/
  halves : ∀ j ∈ a.junction, ∃ first second, s.associations[j.inward.index]? = some first ∧
    s.associations[j.outward.index]? = some second ∧ first.origin = a.origin ∧
    second.origin = first.destination ∧ second.destination = a.destination
  /-- The discriminators speak of one end. -/
  discriminators : ∀ d ∈ a.discriminators, ∃ t ∈ a.discriminatorTable,
    (t = a.origin ∨ t = a.destination) ∧ s.Declares t d.column

def Typed (s : Schema) : Prop := ∀ i a, s.associations[i]? = some a → s.IsTyped i a

theorem association_of_getElem? {s : Schema} {id : AssociationId} {a : Association}
    (h : s.associations[id.index]? = some a) : s.association id = a := by
  rw [association, h, Option.getD_some]

/-- An association that leaves a table of the schema is one of its associations. -/
theorem Typed.isTyped {s : Schema} (hs : s.Typed) {id : AssociationId}
    (h : (s.association id).origin.index < s.tables.length) :
    s.IsTyped id.index (s.association id) := by
  cases hget : s.associations[id.index]? with
  | none =>
    rw [association, hget, Option.getD_none] at h
    exact absurd h (Nat.lt_irrefl _)
  | some a =>
    rw [association_of_getElem? hget]
    exact hs _ a hget

/-! ## Growth -/

/-- The second schema has the tables of the first with their columns, and its associations between
the same columns. -/
structure Grows (s t : Schema) : Prop where
  tables : s.tables.length ≤ t.tables.length
  columns : ∀ id column, s.Declares id column → t.Declares id column
  associations : ∀ (i : ℕ) (a : Association), s.associations[i]? = some a → ∃ b : Association,
    t.associations[i]? = some b ∧ b = { a with
      discriminatorTable := b.discriminatorTable
      discriminators := b.discriminators }

variable {s t : Schema} {i : ℕ} {a : Association}

theorem Grows.of_associations (tables : s.tables.length ≤ t.tables.length)
    (columns : ∀ id column, s.Declares id column → t.Declares id column)
    (associations : s.associations <+: t.associations) : s.Grows t := by
  refine ⟨tables, columns, fun i a ha => ⟨a, ?_, rfl⟩⟩
  obtain ⟨rest, hrest⟩ := associations
  rw [← hrest, List.getElem?_append_left (List.getElem?_eq_some_iff.1 ha).1, ha]

theorem IsTyped.grow (h : s.IsTyped i a) (hst : s.Grows t) : t.IsTyped i a where
  id := h.id
  origin := Nat.lt_of_lt_of_le h.origin hst.tables
  destination := Nat.lt_of_lt_of_le h.destination hst.tables
  relations r hr := ⟨hst.columns _ _ (h.relations r hr).1, hst.columns _ _ (h.relations r hr).2⟩
  halves j hj := by
    obtain ⟨first, second, hfirst, hsecond, ho, hm, hd⟩ := h.halves j hj
    obtain ⟨first', hfirst', heq⟩ := hst.associations _ _ hfirst
    obtain ⟨second', hsecond', heq'⟩ := hst.associations _ _ hsecond
    exact ⟨first', second', hfirst', hsecond', by rw [heq]; exact ho, by rw [heq, heq']; exact hm,
      by rw [heq']; exact hd⟩
  discriminators d hd := by
    obtain ⟨t', ht', hend, hcolumn⟩ := h.discriminators d hd
    exact ⟨t', ht', hend, hst.columns _ _ hcolumn⟩

/-- A schema with the same associations stays typed as its tables grow. -/
theorem Typed.of_same (hs : s.Typed) (hst : s.Grows t) (same : t.associations = s.associations) :
    t.Typed := by
  intro i a ha
  rw [same] at ha
  exact (hs i a ha).grow hst

/-- One more association that is typed keeps the schema typed. -/
theorem Typed.concat (hs : s.Typed)
    (ha : IsTyped { s with associations := s.associations ++ [a] } s.associations.length a) :
    Typed { s with associations := s.associations ++ [a] } := by
  have hgrows : s.Grows { s with associations := s.associations ++ [a] } :=
    .of_associations (Nat.le_refl _) (fun _ _ h => h) (List.prefix_append _ _)
  intro i b hb
  by_cases hi : i < s.associations.length
  · rw [List.getElem?_append_left hi] at hb
    exact (hs i b hb).grow hgrows
  · rw [List.getElem?_append_right (Nat.le_of_not_lt hi)] at hb
    rw [List.getElem?_singleton] at hb
    split at hb
    · next hzero =>
      obtain rfl := Option.some.inj hb
      obtain rfl : i = s.associations.length := by omega
      exact ha
    · cases hb

/-! ## Tables -/

theorem Declares.lt {id : TableId} {column : String} (h : s.Declares id column) :
    id.index < s.tables.length := by
  by_contra hge
  unfold Declares table at h
  rw [List.getElem?_eq_none (Nat.le_of_not_lt hge)] at h
  exact absurd h List.not_mem_nil

theorem grows_addTable (s : Schema) (name : String) (columns : List String) :
    s.Grows (s.addTable name columns).2 := by
  refine .of_associations (by simp [addTable]) (fun id column h => ?_) (List.prefix_refl _)
  have hlt := h.lt
  unfold Declares table at h ⊢
  rwa [addTable, List.getElem?_append_left hlt]

/-- Changing a table without renaming its columns. -/
theorem grows_modifyTable (s : Schema) (id : TableId) {f : Table → Table}
    (hf : ∀ t, (f t).columns.map Column.name = t.columns.map Column.name) :
    s.Grows (s.modifyTable id f) := by
  refine .of_associations (by simp [modifyTable]) (fun other column h => ?_) (List.prefix_refl _)
  unfold Declares table modifyTable at *
  rw [List.getElem?_modify]
  cases hget : s.tables[other.index]? with
  | none => simp [hget] at h
  | some t =>
    simp only [hget, Option.getD_some] at h
    by_cases hi : id.index = other.index
    · simpa [hi, hf] using h
    · simpa [hi] using h

theorem map_name_bindColumn (column parameter : String) (cs : List Column) :
    (bindColumn column parameter cs).map Column.name = cs.map Column.name := by
  induction cs with
  | nil => rfl
  | cons c cs ih =>
    unfold bindColumn
    split
    · rfl
    · rw [List.map_cons, List.map_cons, ih]

/-! ## Checked columns -/

theorem declares_of_checkRelations {origin destination : TableId} {relations : List Relation}
    (h : checkRelations (s.table origin) (s.table destination) relations = .ok ()) :
    ∀ r ∈ relations, s.Declares origin r.origin ∧ s.Declares destination r.destination :=
  ((checkRelations_eq_ok_iff _ _ relations).1 h).2

/-- Tables whose columns are paired are there. -/
theorem lt_of_checkRelations {origin destination : TableId} {relations : List Relation}
    (h : checkRelations (s.table origin) (s.table destination) relations = .ok ()) :
    origin.index < s.tables.length ∧ destination.index < s.tables.length := by
  obtain ⟨r, hr⟩ := List.exists_mem_of_ne_nil _ (relations_ne_nil_of_checkRelations h)
  obtain ⟨ho, hd⟩ := declares_of_checkRelations h r hr
  exact ⟨ho.lt, hd.lt⟩

/-! ## Declarations -/

theorem Typed.pushDirect (hs : s.Typed) {origin destination : TableId} {relations : List Relation}
    (h : checkRelations (s.table origin) (s.table destination) relations = .ok ()) (name : String) :
    (s.pushAssociation name origin destination relations none).2.Typed := by
  obtain ⟨horigin, hdestination⟩ := lt_of_checkRelations h
  exact hs.concat ⟨rfl, horigin, hdestination, declares_of_checkRelations h,
    fun j hj => (by cases hj), fun d hd => (by cases hd)⟩

theorem Typed.pushThrough (hs : s.Typed) {origin junction destination : TableId}
    {inward outward : List Relation}
    (hi : checkRelations (s.table origin) (s.table junction) inward = .ok ())
    (ho : checkRelations (s.table junction) (s.table destination) outward = .ok ())
    (name : String) :
    (s.pushThrough name origin junction destination inward outward).2.Typed := by
  have hfirst := hs.pushDirect hi (name ++ "_from")
  have hsecond : ((s.pushAssociation (name ++ "_from") origin junction inward none).2
      |>.pushAssociation (name ++ "_to") junction destination outward none).2.Typed :=
    hfirst.pushDirect ho (name ++ "_to")
  refine hsecond.concat ⟨rfl, (lt_of_checkRelations hi).1, (lt_of_checkRelations ho).2,
    fun r hr => (by cases hr), fun j hj => ?_, fun d hd => (by cases hd)⟩
  obtain rfl := Option.some.inj hj
  refine ⟨⟨⟨s.associations.length⟩, name ++ "_from", origin, junction, inward, none, none, []⟩,
    ⟨⟨s.associations.length + 1⟩, name ++ "_to", junction, destination, outward, none, none, []⟩,
    ?_, ?_, rfl, rfl, rfl⟩
  · simp [pushAssociation]
  · simp [pushAssociation]

/-- One more discriminator that speaks of the end that the others speak of. -/
theorem Typed.modifyDiscriminators (hs : s.Typed) {id : AssociationId} {table : TableId}
    {column : String} {value : Value}
    (hend : table = (s.association id).origin ∨ table = (s.association id).destination)
    (hcolumn : s.Declares table column)
    (same : ∀ u ∈ (s.association id).discriminatorTable, u = table) :
    Typed { s with associations := s.associations.modify id.index fun a => { a with
      discriminatorTable := some table
      discriminators := a.discriminators ++ [⟨column, value⟩] } } := by
  have hgrows : s.Grows { s with associations := s.associations.modify id.index fun a => { a with
      discriminatorTable := some table
      discriminators := a.discriminators ++ [⟨column, value⟩] } } := by
    refine ⟨Nat.le_refl _, fun _ _ h => h, fun i a ha => ?_⟩
    dsimp only
    rw [List.getElem?_modify, ha, Option.map_eq_map, Option.map_some]
    refine ⟨_, rfl, ?_⟩
    split <;> rfl
  intro i b hb
  rw [List.getElem?_modify] at hb
  obtain ⟨a, ha, hb⟩ := Option.map_eq_some_iff.1 hb
  have htyped := (hs i a ha).grow hgrows
  by_cases hi : id.index = i
  · rw [if_pos hi] at hb
    have hassociation : s.association id = a := by rw [association, hi, ha, Option.getD_some]
    rw [hassociation] at hend same
    subst hb
    refine ⟨htyped.id, htyped.origin, htyped.destination, htyped.relations, htyped.halves, ?_⟩
    intro d hd
    rcases List.mem_append.1 hd with hd | hd
    · obtain ⟨u, hu, hmem, hdeclares⟩ := htyped.discriminators d hd
      obtain rfl := same u hu
      exact ⟨u, rfl, hmem, hdeclares⟩
    · obtain rfl := List.mem_singleton.1 hd
      exact ⟨table, rfl, hend, hgrows.columns _ _ hcolumn⟩
  · rw [if_neg hi] at hb
    subst hb
    exact htyped

theorem Typed.declare (hs : s.Typed) (d : Declaration) : (s.declare d).Typed := by
  refine s.declare_induction hs (fun name columns => ?_) (fun id column parameter => ?_)
    (fun id criteria => ?_) (fun name origin destination relations h => ?_)
    (fun name origin junction destination inward outward hi ho => ?_)
    (fun id table column value hend hcolumn same => ?_) d
  · exact hs.of_same (s.grows_addTable name columns) rfl
  · exact hs.of_same
      (s.grows_modifyTable id fun t => map_name_bindColumn column parameter t.columns) rfl
  · exact hs.of_same (s.grows_modifyTable id fun _ => rfl) rfl
  · exact hs.pushDirect h name
  · exact hs.pushThrough hi ho name
  · exact hs.modifyDiscriminators hend hcolumn same

theorem typed_declared (declarations : List Declaration) : (declared declarations).Typed := by
  induction declarations using List.reverseRecOn with
  | nil => exact fun i a ha => by simp [declared, empty] at ha
  | append_singleton ds d ih =>
    rw [declared, List.foldl_append]
    exact Typed.declare ih d

/-! ## Configurations -/

/-- The second schema comes from the first by declarations. -/
def Develops (s t : Schema) : Prop := ∃ ds : List Declaration, t = ds.foldl declare s

theorem Develops.refl (s : Schema) : s.Develops s := ⟨[], rfl⟩

theorem Develops.trans {u : Schema} (hst : s.Develops t) (htu : t.Develops u) : s.Develops u := by
  obtain ⟨ds, rfl⟩ := hst
  obtain ⟨es, rfl⟩ := htu
  exact ⟨ds ++ es, List.foldl_append.symm⟩

theorem Develops.one {d : Declaration} (h : s.declare d = t) : s.Develops t := ⟨[d], h.symm⟩

/-- Steps that each make declarations make declarations in a row. -/
theorem develops_of_foldlM {α : Type} {f : Schema → α → Except Error Schema}
    (hf : ∀ s x t, f s x = .ok t → s.Develops t) {xs : List α}
    (h : xs.foldlM f s = .ok t) : s.Develops t := by
  induction xs generalizing s with
  | nil =>
    obtain rfl := Except.ok.inj h
    exact .refl s
  | cons x xs ih =>
    rw [List.foldlM_cons] at h
    obtain ⟨u, hx, hxs⟩ := bind_eq_ok_iff.1 h
    exact (hf s x u hx).trans (ih hxs)

theorem develops_setColumnParameter {id : TableId} {column parameter : String}
    (h : s.setColumnParameter id column parameter = .ok t) : s.Develops t := by
  refine .one (d := .columnParameter id column parameter) ?_
  rw [declare, h]

theorem develops_declareTable {c : TableConfig} (h : s.declareTable c = .ok t) : s.Develops t := by
  have conditions (id : TableId) (ds : List ColumnValue) (u : Schema) : u.Develops
      (ds.foldl (fun s d =>
        s.addTableDiscriminator id (.eq (.col d.column) (.literal d.value))) u) := by
    induction ds generalizing u with
    | nil => exact .refl u
    | cons d ds ih =>
      have hfirst : u.Develops
          (u.addTableDiscriminator id (.eq (.col d.column) (.literal d.value))) :=
        .one (d := .tableDiscriminator id (.eq (.col d.column) (.literal d.value))) rfl
      exact hfirst.trans (ih _)
  have table : s.Develops (s.addTable c.name c.columns).2 :=
    .one (d := .table c.name c.columns) rfl
  obtain ⟨u, hp, ht⟩ := bind_eq_ok_iff.1 h
  obtain rfl := Except.ok.inj ht
  have parameters := develops_of_foldlM (fun _ _ _ => develops_setColumnParameter) hp
  exact (table.trans parameters).trans (conditions _ _ u)

theorem develops_declareRelations {c : AssociationConfig} {id : AssociationId}
    (h : s.declareRelations c = .ok (id, t)) : s.Develops t := by
  obtain ⟨origin, -, h⟩ := bind_eq_ok_iff.1 h
  obtain ⟨destination, -, h⟩ := bind_eq_ok_iff.1 h
  split at h
  · refine .one (d := .association c.name origin destination c.relations) ?_
    rw [declare, h]
  · next j _ =>
    obtain ⟨junction, -, h⟩ := bind_eq_ok_iff.1 h
    refine .one (d := .manyToMany c.name origin junction destination c.relations j.relations) ?_
    rw [declare, h]

theorem develops_declareAssociation {c : AssociationConfig} (h : s.declareAssociation c = .ok t) :
    s.Develops t := by
  obtain ⟨⟨id, u⟩, hr, h⟩ := bind_eq_ok_iff.1 h
  refine (develops_declareRelations hr).trans (develops_of_foldlM (fun v d w hv => ?_) h)
  obtain ⟨table, -, hv⟩ := bind_eq_ok_iff.1 hv
  refine .one (d := .discriminator id table d.column d.value) ?_
  rw [declare, hv]

/-- What a configuration makes is a schema that was declared. -/
theorem declared_of_toSchema {c : SchemaConfig} (h : c.toSchema = .ok s) :
    ∃ ds, s = declared ds := by
  obtain ⟨u, htables, hassociations⟩ := bind_eq_ok_iff.1 h
  exact (develops_of_foldlM (fun _ _ _ => develops_declareTable) htables).trans
    (develops_of_foldlM (fun _ _ _ => develops_declareAssociation) hassociations)

/-- A schema as it is made: declaration by declaration, or from a configuration. -/
inductive IsMade : Schema → Prop
  | declared (declarations : List Declaration) : IsMade (declared declarations)
  | configured {c : SchemaConfig} {s : Schema} : c.toSchema = .ok s → IsMade s

theorem IsMade.typed (h : s.IsMade) : s.Typed := by
  cases h with
  | declared ds => exact typed_declared ds
  | configured h =>
    obtain ⟨ds, rfl⟩ := declared_of_toSchema h
    exact typed_declared ds

/-! ## Chains -/

/-- Each association leaves the table that the one before leads to. -/
def Chains (s : Schema) : TableId → List AssociationId → Prop
  | _, [] => True
  | origin, id :: ids =>
    (s.association id).origin = origin ∧ s.Chains (s.association id).destination ids

end JoinPath.Schema
