import JoinPath.Proofs.Config.Associations
import JoinPath.Proofs.Config.Tables
/-!
# What a configuration declares

A configuration makes a schema if and only if each of its tables and associations is sound by
itself, given the columns that the names of tables stand for (`exists_toSchema_iff`). The schema
then says by name what the configuration says, in the order in which it is written
(`named_of_toSchema`).
-/

namespace JoinPath

namespace SchemaConfig

open Schema

/-- The columns that the name of a table stands for. -/
def columnsOf (c : SchemaConfig) (name : String) : Option (List String) :=
  (c.tables.find? fun t => t.name == name).map TableConfig.columns

variable {c : SchemaConfig} {s t : Schema}

theorem toSchema_eq_ok_iff : c.toSchema = .ok t ↔
    ∃ s, c.tables.foldlM declareTable empty = .ok s ∧
      c.associations.foldlM declareAssociation s = .ok t :=
  bind_eq_ok_iff

theorem wellFormed_of_develops (h : empty.Develops s) : s.WellFormed := by
  obtain ⟨ds, rfl⟩ := h
  exact wellFormed_declared ds

theorem exists_declareTables_iff :
    (∃ s, c.tables.foldlM declareTable empty = .ok s) ↔ ∀ t ∈ c.tables, t.IsSound := by
  refine exists_foldlM_eq_ok_iff (I := fun _ => True) (fun _ _ _ _ _ => trivial)
    (fun s d _ => ?_) trivial
  simp only [declareTable_eq_ok_iff]
  exact ⟨fun ⟨_, hd, _⟩ => hd, fun hd => ⟨_, hd, rfl⟩⟩

theorem named_of_declareTables (h : c.tables.foldlM declareTable empty = .ok s) :
    s.associations = [] ∧ s.namedTables = c.tables.map TableConfig.named := by
  have step (u : Schema) (d : TableConfig) (v : Schema) (hu : u.associations = [])
      (hv : u.declareTable d = .ok v) :
      v.associations = [] ∧ v.namedTables = u.namedTables ++ [d.named] := by
    obtain ⟨-, rfl⟩ := declareTable_eq_ok_iff.1 hv
    refine ⟨hu, ?_⟩
    rw [namedTables, List.map_append, List.map_singleton, named_declaredTable]
    rfl
  rw [List.map_eq_flatMap]
  exact of_foldlM_eq_ok step rfl h

theorem columnsOf_eq (h : s.namedTables = c.tables.map TableConfig.named) :
    s.columnsOf = c.columnsOf := by
  have hfind (name : String) :
      (s.namedTables.find? fun t => t.name == name).map NamedTable.columns = s.columnsOf name := by
    rw [namedTables, List.find?_map, Option.map_map]
    rfl
  funext name
  rw [← hfind, h, List.find?_map, Option.map_map]
  rfl

theorem columnsOf_congr (h : t.tables = s.tables) : t.columnsOf = s.columnsOf := by
  funext name
  rw [Schema.columnsOf, Schema.columnsOf, h]

/-- While associations are declared the tables stay. -/
theorem tables_of_declareAssociation {u v : Schema} {a : AssociationConfig}
    (hu : empty.Develops u ∧ u.tables = s.tables) (hv : u.declareAssociation a = .ok v) :
    empty.Develops v ∧ v.tables = s.tables := by
  obtain ⟨htables, -⟩ := named_of_declareAssociation (wellFormed_of_develops hu.1) hv
  exact ⟨hu.1.trans (develops_declareAssociation hv), htables.trans hu.2⟩

theorem exists_declareAssociations_iff (hs : empty.Develops s) :
    (∃ t, c.associations.foldlM declareAssociation s = .ok t) ↔
      ∀ a ∈ c.associations, a.IsSound s.columnsOf := by
  refine exists_foldlM_eq_ok_iff (I := fun u => empty.Develops u ∧ u.tables = s.tables)
    (fun u a v => tables_of_declareAssociation) (fun u a hu => ?_) ⟨hs, rfl⟩
  rw [← columnsOf_congr hu.2]
  exact exists_declareAssociation_iff (wellFormed_of_develops hu.1).tables a

theorem named_of_declareAssociations (hs : empty.Develops s)
    (h : c.associations.foldlM declareAssociation s = .ok t) :
    t.tables = s.tables ∧ t.namedAssociations =
      s.namedAssociations ++ c.associations.flatMap AssociationConfig.named := by
  have step (u : Schema) (a : AssociationConfig) (v : Schema)
      (hu : empty.Develops u ∧ u.tables = s.tables) (hv : u.declareAssociation a = .ok v) :
      (empty.Develops v ∧ v.tables = s.tables) ∧
        v.namedAssociations = u.namedAssociations ++ a.named :=
    ⟨tables_of_declareAssociation hu hv,
      (named_of_declareAssociation (wellFormed_of_develops hu.1) hv).2⟩
  obtain ⟨⟨-, htables⟩, hnamed⟩ := of_foldlM_eq_ok step ⟨hs, rfl⟩ h
  exact ⟨htables, hnamed⟩

theorem develops_declareTables (h : c.tables.foldlM declareTable empty = .ok s) :
    empty.Develops s :=
  develops_of_foldlM (fun _ _ _ => develops_declareTable) h

/-- A configuration makes a schema just if all that it declares is sound. -/
theorem exists_toSchema_iff (c : SchemaConfig) : (∃ s, c.toSchema = .ok s) ↔
    (∀ t ∈ c.tables, t.IsSound) ∧ ∀ a ∈ c.associations, a.IsSound c.columnsOf := by
  simp only [toSchema_eq_ok_iff]
  constructor
  · rintro ⟨t, s, hs, ht⟩
    rw [← columnsOf_eq (named_of_declareTables hs).2]
    exact ⟨exists_declareTables_iff.1 ⟨s, hs⟩,
      (exists_declareAssociations_iff (develops_declareTables hs)).1 ⟨t, ht⟩⟩
  · rintro ⟨htables, hassociations⟩
    obtain ⟨s, hs⟩ := exists_declareTables_iff.2 htables
    rw [← columnsOf_eq (named_of_declareTables hs).2] at hassociations
    obtain ⟨t, ht⟩ := (exists_declareAssociations_iff (develops_declareTables hs)).2 hassociations
    exact ⟨t, s, hs, ht⟩

/-- The schema of a configuration says by name what the configuration says. -/
theorem named_of_toSchema (h : c.toSchema = .ok t) :
    t.namedTables = c.tables.map TableConfig.named ∧
      t.namedAssociations = c.associations.flatMap AssociationConfig.named := by
  obtain ⟨s, hs, ht⟩ := toSchema_eq_ok_iff.1 h
  obtain ⟨hempty, htables⟩ := named_of_declareTables hs
  obtain ⟨hsame, hnamed⟩ := named_of_declareAssociations (develops_declareTables hs) ht
  constructor
  · rw [namedTables, hsame]
    exact htables
  · rw [hnamed, namedAssociations, hempty]
    rfl

end SchemaConfig

end JoinPath
