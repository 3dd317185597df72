import JoinPath.Proofs.Schema.Named
/-!
# Tables of a configuration

A table of a configuration is declared if and only if only columns of it have parameters of their
own, and then it is added behind the others (`declareTable_eq_ok_iff`).
-/

namespace JoinPath

namespace TableConfig

def named (c : TableConfig) : NamedTable :=
  ⟨c.name, c.columns, c.discriminators.map fun d => .eq (.col d.column) (.literal d.value)⟩

/-- Only columns of the table have parameters of their own. -/
def IsSound (c : TableConfig) : Prop := ∀ e ∈ c.aliases.entries, e.1 ∈ c.columns

/-- The table that is declared at a position. -/
def table (c : TableConfig) (id : TableId) : Table where
  id := id
  name := c.name
  columns := c.aliases.entries.foldl (fun cs e => Schema.bindColumn e.1 e.2 cs)
    (c.columns.map fun column => ⟨id, column, column⟩)
  criteria := c.discriminators.map fun d => .eq (.col d.column) (.literal d.value)

end TableConfig

namespace Schema

variable {s t : Schema}

theorem table_last {ts : List Table} {u : Table} (h : s.tables = ts ++ [u]) :
    s.table ⟨ts.length⟩ = u := by
  rw [table, h, List.getElem?_concat_length]
  rfl

theorem modifyTable_last {ts : List Table} {u : Table} (h : s.tables = ts ++ [u])
    (f : Table → Table) :
    s.modifyTable ⟨ts.length⟩ f = { s with tables := ts ++ [f u] } := by
  rw [modifyTable, h, modify_concat_length]

theorem setColumnParameter_last {ts : List Table} {u : Table} (h : s.tables = ts ++ [u])
    {column parameter : String} :
    s.setColumnParameter ⟨ts.length⟩ column parameter = .ok t ↔
      column ∈ u.columns.map Column.name ∧ t = { s with
        tables := ts ++ [{ u with columns := bindColumn column parameter u.columns }] } := by
  rw [setColumnParameter_eq_ok_iff, table_last h, modifyTable_last h]

/-- All parameters of the table that was added last. -/
theorem setColumnParameters_last {ts : List Table} {u : Table} (h : s.tables = ts ++ [u])
    {entries : List (String × String)} :
    entries.foldlM (fun s e => s.setColumnParameter ⟨ts.length⟩ e.1 e.2) s = .ok t ↔
      (∀ e ∈ entries, e.1 ∈ u.columns.map Column.name) ∧ t = { s with
        tables := ts ++ [{ u with
          columns := entries.foldl (fun cs e => bindColumn e.1 e.2 cs) u.columns }] } := by
  induction entries generalizing s u with
  | nil =>
    simp only [List.foldlM_nil, List.foldl_nil, List.not_mem_nil, false_implies, implies_true,
      true_and, ← h]
    exact ⟨fun ht => (Except.ok.inj ht).symm, fun ht => congrArg Except.ok ht.symm⟩
  | cons e entries ih =>
    simp only [List.foldlM_cons, bind_eq_ok_iff, setColumnParameter_last h, List.forall_mem_cons,
      List.foldl_cons]
    constructor
    · rintro ⟨v, ⟨he, rfl⟩, hrest⟩
      have := (ih rfl).1 hrest
      rw [map_name_bindColumn] at this
      exact ⟨⟨he, this.1⟩, this.2⟩
    · rintro ⟨⟨he, hall⟩, rfl⟩
      refine ⟨_, ⟨he, rfl⟩, (ih rfl).2 ⟨?_, rfl⟩⟩
      rwa [map_name_bindColumn]

theorem addTableDiscriminators_last {ts : List Table} {u : Table} (h : s.tables = ts ++ [u])
    (ds : List ColumnValue) :
    ds.foldl (fun s d =>
        s.addTableDiscriminator ⟨ts.length⟩ (.eq (.col d.column) (.literal d.value))) s =
      { s with tables := ts ++ [{ u with
        criteria := u.criteria ++ ds.map fun d => .eq (.col d.column) (.literal d.value) }] } := by
  induction ds generalizing s u with
  | nil => rw [List.foldl_nil, List.map_nil, List.append_nil, ← h]
  | cons d ds ih =>
    rw [List.foldl_cons, addTableDiscriminator, modifyTable_last h, ih rfl, List.map_cons]
    simp only [List.append_assoc, List.singleton_append]

theorem declareTable_eq_ok_iff {c : TableConfig} :
    s.declareTable c = .ok t ↔
      c.IsSound ∧ t = { s with tables := s.tables ++ [c.table ⟨s.tables.length⟩] } := by
  have hlast : (s.addTable c.name c.columns).2.tables = s.tables ++ [⟨⟨s.tables.length⟩, c.name,
      c.columns.map fun n => ⟨⟨s.tables.length⟩, n, n⟩, []⟩] := rfl
  have hnames : (c.columns.map fun n => Column.mk ⟨s.tables.length⟩ n n).map Column.name =
      c.columns := by
    rw [List.map_map]
    exact List.map_id _
  have hid : (s.addTable c.name c.columns).1 = ⟨s.tables.length⟩ := rfl
  simp only [declareTable, hid, bind_eq_ok_iff, setColumnParameters_last hlast, hnames]
  constructor
  · rintro ⟨v, ⟨hsound, rfl⟩, ht⟩
    rw [addTableDiscriminators_last rfl] at ht
    exact ⟨hsound, (Except.ok.inj ht).symm⟩
  · rintro ⟨hsound, rfl⟩
    refine ⟨_, ⟨hsound, rfl⟩, ?_⟩
    rw [addTableDiscriminators_last rfl]
    rfl

theorem map_name_bindColumns (entries : List (String × String)) (cs : List Column) :
    (entries.foldl (fun cs e => bindColumn e.1 e.2 cs) cs).map Column.name =
      cs.map Column.name := by
  induction entries generalizing cs with
  | nil => rfl
  | cons e entries ih => exact (ih _).trans (map_name_bindColumn ..)

theorem named_declaredTable (c : TableConfig) (id : TableId) : (c.table id).named = c.named := by
  rw [Table.named, TableConfig.table, TableConfig.named, map_name_bindColumns, List.map_map]
  exact congrArg (NamedTable.mk c.name · _) (List.map_id _)

end Schema

end JoinPath
