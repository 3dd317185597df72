import JoinPath.Proofs.Schema.Dotted
import JoinPath.Proofs.Schema.Reindexed
import JoinPath.Proofs.Schema.WellFormed
/-!
# Schemas by name

What a schema says when every position is replaced by the name of what stands there. If the names
tell its tables apart, and names with origins its associations, then two well-formed schemas that
say the same in another order differ by a reindexing (`exists_carries`).
-/

namespace JoinPath

/-- A table without positions. -/
structure NamedTable where
  name : String
  columns : List String
  criteria : List Criteria

/-- What tells the associations of a schema apart. -/
structure AssociationName where
  origin : String
  name : String
deriving DecidableEq, Repr

/-- An association without positions. -/
structure NamedAssociation where
  key : AssociationName
  destination : String
  relations : List Relation
  halves : Option (AssociationName × AssociationName)
  discriminatorTable : Option String
  discriminators : List Discriminator

def Table.named (t : Table) : NamedTable := ⟨t.name, t.columns.map Column.name, t.criteria⟩

namespace Schema

/-- The name of an association with that of the table that it leaves. -/
def keyOf (s : Schema) (a : Association) : AssociationName := ⟨(s.table a.origin).name, a.name⟩

def named (s : Schema) (a : Association) : NamedAssociation where
  key := s.keyOf a
  destination := (s.table a.destination).name
  relations := a.relations
  halves := a.junction.map fun j =>
    (s.keyOf (s.association j.inward), s.keyOf (s.association j.outward))
  discriminatorTable := a.discriminatorTable.map fun id => (s.table id).name
  discriminators := a.discriminators

def namedTables (s : Schema) : List NamedTable := s.tables.map Table.named

def namedAssociations (s : Schema) : List NamedAssociation := s.associations.map s.named

/-- Names tell the tables apart, and names with origins the associations. -/
structure IsUnambiguous (s : Schema) : Prop where
  tables : (s.tables.map Table.name).Nodup
  associations : (s.associations.map s.keyOf).Nodup

variable {s t : Schema}

theorem IsUnambiguous.table_eq (h : s.IsUnambiguous) {x y : TableId}
    (hx : x.index < s.tables.length) (hy : y.index < s.tables.length)
    (hname : (s.table x).name = (s.table y).name) : x = y :=
  congrArg TableId.mk
    (index_eq_of_key_eq h.tables (getElem?_table hx) (getElem?_table hy) hname)

theorem IsUnambiguous.association_eq (h : s.IsUnambiguous) {x y : AssociationId}
    (hx : x.index < s.associations.length) (hy : y.index < s.associations.length)
    (hkey : s.keyOf (s.association x) = s.keyOf (s.association y)) : x = y :=
  congrArg AssociationId.mk
    (index_eq_of_key_eq h.associations (getElem?_association hx) (getElem?_association hy) hkey)

/-- What an association says by name does not change when others are added. -/
theorem named_of_begins (hs : s.WellFormed) (htables : t.tables = s.tables)
    (h : s.associations <+: t.associations) {a : Association} (ha : a ∈ s.associations) :
    t.named a = s.named a := by
  have htable : t.table = s.table := by
    funext id
    rw [table, table, htables]
  have hkey : t.keyOf = s.keyOf := by
    funext b
    rw [keyOf, keyOf, htable]
  have hhalf {id : AssociationId} {b : Association}
      (hb : s.associations[id.index]? = some b) : t.association id = s.association id := by
    rw [association_of_getElem? hb, association_of_getElem? (getElem?_of_begins h hb)]
  obtain ⟨i, hi⟩ := List.mem_iff_getElem?.1 ha
  have hsound := hs.associations i a hi
  unfold named
  rw [htable, hkey]
  cases hj : a.junction with
  | none => rfl
  | some j =>
    obtain ⟨-, -, -, _, _, hfirst, hsecond, -⟩ := hsound.through j hj
    rw [Option.map_some, Option.map_some, hhalf hfirst, hhalf hsecond]

/-! ## Other positions -/

/-- A reindexing that leads to what has the same names. -/
structure Matches (s t : Schema) (r : Reindexing) : Prop where
  tables : ∀ id, t.tables[(r.table id).index]?.map Table.named =
    s.tables[id.index]?.map Table.named
  associations : ∀ id, t.associations[(r.association id).index]?.map t.named =
    s.associations[id.index]?.map s.named
  noTable : r.table ⟨s.tables.length⟩ = ⟨t.tables.length⟩
  noAssociation : ∀ id : AssociationId, s.associations.length ≤ id.index → r.association id = id

theorem exists_matches (tables : s.namedTables.Perm t.namedTables)
    (associations : s.namedAssociations.Perm t.namedAssociations) : ∃ r, s.Matches t r := by
  obtain ⟨σ, hσ, htables, hbeyond⟩ := exists_positions tables
  obtain ⟨ρ, hρ, hassociations, hbeyond'⟩ := exists_positions associations
  refine ⟨⟨⟨fun id => ⟨σ id.index⟩, fun x y h => ?_⟩, ⟨fun id => ⟨ρ id.index⟩, fun x y h => ?_⟩⟩,
    ?_, ?_, ?_, ?_⟩
  · cases x
    exact congrArg TableId.mk (hσ (congrArg TableId.index h))
  · cases x
    exact congrArg AssociationId.mk (hρ (congrArg AssociationId.index h))
  · intro id
    have := htables id.index
    rwa [namedTables, namedTables, List.getElem?_map, List.getElem?_map] at this
  · intro id
    have := hassociations id.index
    rwa [namedAssociations, namedAssociations, List.getElem?_map, List.getElem?_map] at this
  · have hlength := tables.length_eq
    simp only [namedTables, List.length_map] at hlength hbeyond
    rw [← hlength]
    exact congrArg TableId.mk (hbeyond _ (Nat.le_refl _))
  · intro id hid
    refine congrArg AssociationId.mk (hbeyond' id.index ?_)
    rwa [namedAssociations, List.length_map]

namespace Matches

variable {r : Reindexing}

theorem named_table (h : s.Matches t r) (id : TableId) :
    (t.table (r.table id)).named = (s.table id).named := by
  have hget := h.tables id
  unfold table
  cases hs : s.tables[id.index]? with
  | none =>
    rw [hs, Option.map_none, Option.map_eq_none_iff] at hget
    rw [hget]
    rfl
  | some u =>
    rw [hs, Option.map_some, Option.map_eq_some_iff] at hget
    obtain ⟨v, hv, hvu⟩ := hget
    rw [hv]
    exact hvu

theorem name_table (h : s.Matches t r) (id : TableId) :
    (t.table (r.table id)).name = (s.table id).name :=
  congrArg NamedTable.name (h.named_table id)

theorem lt_tables_iff (h : s.Matches t r) (id : TableId) :
    (r.table id).index < t.tables.length ↔ id.index < s.tables.length :=
  lt_length_iff_of_map_eq (h.tables id)

theorem named_association (h : s.Matches t r) (id : AssociationId) :
    t.named (t.association (r.association id)) = s.named (s.association id) := by
  have hget := h.associations id
  have hname : (t.table ⟨t.tables.length⟩).name = (s.table ⟨s.tables.length⟩).name := by
    rw [← h.noTable, h.name_table]
  unfold association
  cases hs : s.associations[id.index]? with
  | none =>
    rw [hs, Option.map_none, Option.map_eq_none_iff] at hget
    rw [hget, Option.getD_none, Option.getD_none, named, named, keyOf, keyOf, hname]
    rfl
  | some a =>
    rw [hs, Option.map_some, Option.map_eq_some_iff] at hget
    obtain ⟨b, hb, hba⟩ := hget
    rw [hb]
    exact hba

theorem keyOf_association (h : s.Matches t r) (id : AssociationId) :
    t.keyOf (t.association (r.association id)) = s.keyOf (s.association id) :=
  congrArg NamedAssociation.key (h.named_association id)

theorem lt_associations_iff (h : s.Matches t r) (id : AssociationId) :
    (r.association id).index < t.associations.length ↔ id.index < s.associations.length :=
  lt_length_iff_of_map_eq (h.associations id)

/-- A table of the second schema is where the table of that name went. -/
theorem table_eq (h : s.Matches t r) (ht : t.IsUnambiguous) {x y : TableId}
    (hx : x.index < s.tables.length) (hy : y.index < t.tables.length)
    (hname : (t.table y).name = (s.table x).name) : y = r.table x :=
  ht.table_eq hy ((h.lt_tables_iff x).2 hx) (hname.trans (h.name_table x).symm)

theorem association_eq (h : s.Matches t r) (ht : t.IsUnambiguous) {x y : AssociationId}
    (hx : x.index < s.associations.length) (hy : y.index < t.associations.length)
    (hkey : t.keyOf (t.association y) = s.keyOf (s.association x)) : y = r.association x :=
  ht.association_eq hy ((h.lt_associations_iff x).2 hx) (hkey.trans (h.keyOf_association x).symm)

theorem junction_eq (h : s.Matches t r) (hu : t.IsUnambiguous) {i k : ℕ} {a b : Association}
    (ha : s.IsSound i a) (hb : t.IsSound k b) (hnamed : (t.named b).halves = (s.named a).halves) :
    b.junction = a.junction.map fun j => ⟨r.association j.inward, r.association j.outward⟩ := by
  unfold named at hnamed
  cases hj : a.junction with
  | none =>
    rw [hj, Option.map_none, Option.map_eq_none_iff] at hnamed
    rw [hnamed, Option.map_none]
  | some j =>
    rw [hj, Option.map_some, Option.map_eq_some_iff] at hnamed
    obtain ⟨j', hj', hkeys⟩ := hnamed
    obtain ⟨hinward, houtward⟩ := Prod.mk.inj hkeys
    obtain ⟨-, -, -, _, _, hfirst, hsecond, -⟩ := ha.through j hj
    obtain ⟨-, -, -, _, _, hfirst', hsecond', -⟩ := hb.through j' hj'
    have hi := h.association_eq hu (List.getElem?_eq_some_iff.1 hfirst).1
      (List.getElem?_eq_some_iff.1 hfirst').1 hinward
    have ho := h.association_eq hu (List.getElem?_eq_some_iff.1 hsecond).1
      (List.getElem?_eq_some_iff.1 hsecond').1 houtward
    rw [hj', Option.map_some, ← hi, ← ho]

theorem discriminatorTable_eq (h : s.Matches t r) (hu : t.IsUnambiguous) {i k : ℕ}
    {a b : Association} (ha : s.IsSound i a) (hb : t.IsSound k b)
    (hnamed : (t.named b).discriminatorTable = (s.named a).discriminatorTable) :
    b.discriminatorTable = a.discriminatorTable.map r.table := by
  have hend {u : Schema} {n : ℕ} {c : Association} (hc : u.IsSound n c) {id : TableId}
      (hid : c.discriminatorTable = some id) : id.index < u.tables.length := by
    rcases (hc.discriminators id hid).1 with rfl | rfl
    · exact hc.origin
    · exact hc.destination
  unfold named at hnamed
  cases hx : a.discriminatorTable with
  | none =>
    rw [hx, Option.map_none, Option.map_eq_none_iff] at hnamed
    rw [hnamed, Option.map_none]
  | some x =>
    rw [hx, Option.map_some, Option.map_eq_some_iff] at hnamed
    obtain ⟨y, hy, hname⟩ := hnamed
    rw [hy, Option.map_some, h.table_eq hu (hend ha hx) (hend hb hy) hname]

/-- A sound association that says the same by name is the one that was moved. -/
theorem eq_moved (h : s.Matches t r) (hu : t.IsUnambiguous) {i k : ℕ} {a b : Association}
    (ha : s.IsSound i a) (hb : t.IsSound k b) (hid : b.id = r.association a.id)
    (hnamed : t.named b = s.named a) : b = r.moved a := by
  have hkey := congrArg NamedAssociation.key hnamed
  have horigin := h.table_eq hu ha.origin hb.origin (congrArg AssociationName.origin hkey)
  have hdestination := h.table_eq hu ha.destination hb.destination
    (congrArg NamedAssociation.destination hnamed)
  have hjunction := h.junction_eq hu ha hb (congrArg NamedAssociation.halves hnamed)
  have htable := h.discriminatorTable_eq hu ha hb
    (congrArg NamedAssociation.discriminatorTable hnamed)
  have hname : b.name = a.name := congrArg AssociationName.name hkey
  have hrelations : b.relations = a.relations := congrArg NamedAssociation.relations hnamed
  have hdiscriminators : b.discriminators = a.discriminators :=
    congrArg NamedAssociation.discriminators hnamed
  cases b
  simp only at hid horigin hdestination hjunction htable hname hrelations hdiscriminators
  rw [Reindexing.moved, ← hid, ← horigin, ← hdestination, ← hjunction, ← htable, ← hname,
    ← hrelations, ← hdiscriminators]

theorem moved_association (h : s.Matches t r) (hs : s.WellFormed) (ht : t.WellFormed)
    (hu : t.IsUnambiguous) (id : AssociationId) :
    t.association (r.association id) = r.moved (s.association id) := by
  by_cases hid : id.index < s.associations.length
  · have hget := List.getElem?_eq_getElem hid
    have hget' := List.getElem?_eq_getElem ((h.lt_associations_iff id).2 hid)
    have ha := hs.associations _ _ hget
    have hb := ht.associations _ _ hget'
    rw [← association_of_getElem? hget] at ha
    rw [← association_of_getElem? hget'] at hb
    refine h.eq_moved hu ha hb ?_ (h.named_association id)
    rw [ha.id, hb.id]
  · have hget := List.getElem?_eq_none (Nat.le_of_not_lt hid)
    have hget' := List.getElem?_eq_none
      (Nat.le_of_not_lt fun hlt => hid ((h.lt_associations_iff id).1 hlt))
    rw [association, association, hget, hget', Option.getD_none, Option.getD_none,
      Reindexing.moved, h.noTable]
    rfl

end Matches

/-! ## Looking up names -/

theorem IsUnambiguous.tableByName_eq (h : s.IsUnambiguous) {u : Table} (hu : u ∈ s.tables) :
    s.tableByName u.name = .ok u.id := by
  have unique : ∀ v ∈ s.tables, (v.name == u.name) = true → v = u := fun v hv hname =>
    List.inj_on_of_nodup_map h.tables hv hu (by simpa using hname)
  rw [tableByName, find?_eq_some_of_unique hu (by simp) unique]

theorem tableByName_eq_error {name : String} (h : ∀ u ∈ s.tables, u.name ≠ name) :
    s.tableByName name = .error (.unknownTable name) := by
  have hnone : s.tables.find? (fun u => u.name == name) = none :=
    List.find?_eq_none.2 fun u hu => by simpa using h u hu
  rw [tableByName, hnone]

theorem IsUnambiguous.associationByName_eq (h : s.IsUnambiguous) {a : Association}
    (ha : a ∈ s.associations) : s.associationByName a.origin a.name = .ok a.id := by
  have unique : (s.associations.map fun a => (a.origin, a.name)).Nodup := by
    refine List.Nodup.of_map (fun x => (⟨(s.table x.1).name, x.2⟩ : AssociationName)) ?_
    rw [List.map_map]
    exact h.associations
  exact associationByName_eq_ok_iff.2 ⟨a, firstNamed_of_mem unique ha, rfl⟩

/-- The columns of the table that a name stands for. -/
def columnsOf (s : Schema) (name : String) : Option (List String) :=
  (s.tables.find? fun t => t.name == name).map fun t => t.columns.map Column.name

theorem table_of_tableByName (hs : Positioned IsPlaced s.tables) {name : String} {id : TableId}
    (h : s.tableByName name = .ok id) :
    (s.table id).name = name ∧ s.columnsOf name = some ((s.table id).columns.map Column.name) := by
  unfold tableByName at h
  unfold columnsOf
  cases hfind : s.tables.find? fun t => t.name == name with
  | none => rw [hfind] at h; cases h
  | some u =>
    rw [hfind] at h
    obtain rfl := Except.ok.inj h
    obtain ⟨i, hi⟩ := List.mem_iff_getElem?.1 (List.mem_of_find?_eq_some hfind)
    have htable : s.table u.id = u := by
      rw [table, (hs i u hi).1, hi, Option.getD_some]
    rw [htable]
    exact ⟨by simpa using List.find?_some hfind, rfl⟩

theorem exists_tableByName {name : String} {columns : List String}
    (h : s.columnsOf name = some columns) : ∃ id, s.tableByName name = .ok id := by
  unfold columnsOf at h
  obtain ⟨u, hu, -⟩ := Option.map_eq_some_iff.1 h
  exact ⟨u.id, by rw [tableByName, hu]⟩

/-- Two tables that are looked up by different names are different. -/
theorem tableByName_inj (hs : Positioned IsPlaced s.tables) {name name' : String} {id : TableId}
    (h : s.tableByName name = .ok id) (h' : s.tableByName name' = .ok id) : name = name' :=
  (table_of_tableByName hs h).1.symm.trans (table_of_tableByName hs h').1

/-! ## Reordered schemas -/

/-- Two well-formed schemas that say the same by name, in some order, where names tell apart what
they speak of. -/
structure SaysTheSame (s t : Schema) : Prop where
  left : s.WellFormed
  right : t.WellFormed
  unambiguous : s.IsUnambiguous
  tables : s.namedTables.Perm t.namedTables
  associations : s.namedAssociations.Perm t.namedAssociations

namespace SaysTheSame

variable {r : Reindexing}

theorem unambiguous_right (h : s.SaysTheSame t) : t.IsUnambiguous where
  tables := by
    have hnames := (h.tables.map NamedTable.name).nodup_iff.1
    simp only [namedTables, List.map_map] at hnames
    exact hnames h.unambiguous.tables
  associations := by
    have hkeys := (h.associations.map NamedAssociation.key).nodup_iff.1
    simp only [namedAssociations, List.map_map] at hkeys
    exact hkeys h.unambiguous.associations

theorem tableByName (h : s.SaysTheSame t) (hr : s.Matches t r) (name : String) :
    t.tableByName name = (s.tableByName name).map r.table := by
  by_cases hname : ∃ u ∈ s.tables, u.name = name
  · obtain ⟨u, hu, rfl⟩ := hname
    obtain ⟨i, hi⟩ := List.mem_iff_getElem?.1 hu
    have hget := hr.tables u.id
    rw [(h.left.tables i u hi).1, hi, Option.map_some, Option.map_eq_some_iff] at hget
    obtain ⟨v, hv, hnamed⟩ := hget
    have hid : v.id = r.table u.id := by
      rw [(h.right.tables _ v hv).1, (h.left.tables i u hi).1]
    have hvu : v.name = u.name := congrArg NamedTable.name hnamed
    rw [h.unambiguous.tableByName_eq hu, ← hvu,
      h.unambiguous_right.tableByName_eq (List.mem_of_getElem? hv), hid]
    rfl
  · have hs : ∀ u ∈ s.tables, u.name ≠ name := fun u hu hun => hname ⟨u, hu, hun⟩
    have ht : ∀ v ∈ t.tables, v.name ≠ name := by
      intro v hv hvn
      obtain ⟨u, hu, hnamed⟩ := List.mem_map.1 (h.tables.mem_iff.2 (List.mem_map_of_mem hv))
      exact hs u hu ((congrArg NamedTable.name hnamed).trans hvn)
    rw [tableByName_eq_error hs, tableByName_eq_error ht]
    rfl

/-- An association of the second schema says what one of the first says. -/
theorem exists_named (h : s.SaysTheSame t) {b : Association} (hb : b ∈ t.associations) :
    ∃ a ∈ s.associations, s.named a = t.named b :=
  List.mem_map.1 (h.associations.mem_iff.2 (List.mem_map_of_mem hb))

theorem associationByName (h : s.SaysTheSame t) (hr : s.Matches t r) (origin : TableId)
    (name : String) :
    t.associationByName (r.table origin) name =
      (s.associationByName origin name).map r.association := by
  by_cases hname : ∃ a ∈ s.associations, a.origin = origin ∧ a.name = name
  · obtain ⟨a, ha, rfl, rfl⟩ := hname
    obtain ⟨i, hi⟩ := List.mem_iff_getElem?.1 ha
    have hid := (h.left.associations i a hi).id
    have hmoved := hr.moved_association h.left h.right h.unambiguous_right a.id
    have hlt : (r.association a.id).index < t.associations.length := by
      rw [hr.lt_associations_iff, hid]
      exact (List.getElem?_eq_some_iff.1 hi).1
    have hmem : r.moved a ∈ t.associations := by
      have ha' : s.association a.id = a := association_of_getElem? (by rw [hid]; exact hi)
      rw [← ha', ← hmoved, association, List.getElem?_eq_getElem hlt]
      exact List.getElem_mem hlt
    rw [h.unambiguous.associationByName_eq ha]
    exact h.unambiguous_right.associationByName_eq hmem
  · have hs : ∀ a ∈ s.associations, a.origin = origin → a.name ≠ name :=
      fun a ha ho hn => hname ⟨a, ha, ho, hn⟩
    have ht : ∀ b ∈ t.associations, b.origin = r.table origin → b.name ≠ name := by
      intro b hb ho hn
      obtain ⟨a, ha, hnamed⟩ := h.exists_named hb
      obtain ⟨i, hi⟩ := List.mem_iff_getElem?.1 ha
      obtain ⟨k, hk⟩ := List.mem_iff_getElem?.1 hb
      have hkey := congrArg NamedAssociation.key hnamed
      have horigin : a.origin = origin := by
        have hrange := (h.right.associations k b hk).origin
        rw [ho, hr.lt_tables_iff] at hrange
        refine h.unambiguous.table_eq (h.left.associations i a hi).origin hrange ?_
        rw [← hr.name_table origin, ← ho]
        exact congrArg AssociationName.origin hkey
      exact hs a ha horigin ((congrArg AssociationName.name hkey).trans hn)
    rw [associationByName_eq_error_iff.2 ⟨hs, rfl⟩, associationByName_eq_error_iff.2 ⟨ht, rfl⟩,
      hr.name_table]
    rfl

/-- Schemas that say the same differ by a reindexing. -/
theorem exists_carries (h : s.SaysTheSame t) : ∃ r : Reindexing, r.Carries s t := by
  obtain ⟨r, hr⟩ := exists_matches h.tables h.associations
  exact ⟨r, {
    noTable := hr.noTable
    noAssociation := by
      rw [hr.noAssociation _ (Nat.le_refl _)]
      have hlength := h.associations.length_eq
      simp only [namedAssociations, List.length_map] at hlength
      rw [hlength]
    name := hr.name_table
    criteria := fun id => congrArg NamedTable.criteria (hr.named_table id)
    association := hr.moved_association h.left h.right h.unambiguous_right
    tableByName := h.tableByName hr
    associationByName := h.associationByName hr }⟩

end SaysTheSame

end Schema

end JoinPath
