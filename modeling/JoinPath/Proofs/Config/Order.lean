import JoinPath.Proofs.Config.Declared
import JoinPath.Proofs.Session.Reindexed
/-!
# The order of declarations

A configuration may list its tables and its associations in any order. As long as names tell them
apart, another order makes a schema if and only if this one does, and both schemas answer every
request in the same way, although everything stands at other positions in them.
-/

namespace JoinPath.SchemaConfig

open Schema

/-- The same declarations in some other order. -/
structure Reorders (c d : SchemaConfig) : Prop where
  tables : c.tables.Perm d.tables
  associations : c.associations.Perm d.associations

/-- Names tell the tables apart, and names with origins the associations; the halves of those that
go through a junction table count too. -/
structure IsUnambiguous (c : SchemaConfig) : Prop where
  tables : (c.tables.map TableConfig.name).Nodup
  associations : (c.associations.flatMap AssociationConfig.names).Nodup

variable {c d : SchemaConfig} {s t : Schema}

theorem Reorders.columnsOf_eq (h : c.Reorders d) (hc : c.IsUnambiguous) :
    d.columnsOf = c.columnsOf := by
  funext name
  unfold columnsOf
  cases hfind : c.tables.find? fun t => t.name == name with
  | none =>
    have hnone : d.tables.find? (fun t => t.name == name) = none :=
      List.find?_eq_none.2 fun t ht => List.find?_eq_none.1 hfind t (h.tables.mem_iff.2 ht)
    rw [hnone]
  | some x =>
    have hx := List.mem_of_find?_eq_some hfind
    have hname : x.name = name := by simpa using List.find?_some hfind
    have unique : ∀ y ∈ d.tables, (y.name == name) = true → y = x := fun y hy hyname =>
      List.inj_on_of_nodup_map hc.tables (h.tables.mem_iff.2 hy) hx
        ((beq_iff_eq.1 hyname).trans hname.symm)
    have hfound : d.tables.find? (fun t => t.name == name) = some x :=
      find?_eq_some_of_unique (h.tables.mem_iff.1 hx) (by simpa using hname) unique
    rw [hfound]

theorem Reorders.exists_toSchema_iff (h : c.Reorders d) (hc : c.IsUnambiguous) :
    (∃ s, c.toSchema = .ok s) ↔ ∃ t, d.toSchema = .ok t := by
  rw [SchemaConfig.exists_toSchema_iff, SchemaConfig.exists_toSchema_iff, h.columnsOf_eq hc]
  exact and_congr (forall_congr' fun t => by rw [h.tables.mem_iff])
    (forall_congr' fun a => by rw [h.associations.mem_iff])

theorem IsUnambiguous.schema (hc : c.IsUnambiguous) (hs : c.toSchema = .ok s) :
    s.IsUnambiguous := by
  obtain ⟨htables, hassociations⟩ := named_of_toSchema hs
  constructor
  · have hnames : s.tables.map Table.name = c.tables.map TableConfig.name := by
      have := congrArg (List.map NamedTable.name) htables
      rwa [namedTables, List.map_map, List.map_map] at this
    rw [hnames]
    exact hc.tables
  · have hkeys : s.associations.map s.keyOf = c.associations.flatMap AssociationConfig.names := by
      have := congrArg (List.map NamedAssociation.key) hassociations
      rw [namedAssociations, List.map_map, List.map_flatMap] at this
      simp only [AssociationConfig.map_key_named] at this
      exact this
    rw [hkeys]
    exact hc.associations

theorem Reorders.saysTheSame (h : c.Reorders d) (hc : c.IsUnambiguous) (hs : c.toSchema = .ok s)
    (ht : d.toSchema = .ok t) : s.SaysTheSame t where
  left := wellFormed_of_develops (declared_of_toSchema hs)
  right := wellFormed_of_develops (declared_of_toSchema ht)
  unambiguous := hc.schema hs
  tables := by
    rw [(named_of_toSchema hs).1, (named_of_toSchema ht).1]
    exact h.tables.map _
  associations := by
    rw [(named_of_toSchema hs).2, (named_of_toSchema ht).2]
    exact h.associations.flatMap_right _

/-- The order of declarations does not matter. Where names tell tables and associations apart, a
reordered configuration makes a schema if and only if the first does; and whatever is asked by
names, along any paths and with any aliases, kinds, restrictions and parameters, in any dialect,
both schemas give the same statement or the same error, with the same joined tables and the same
reports on the way. -/
theorem declaration_order_free (h : c.Reorders d) (unambiguous : c.IsUnambiguous) :
    ((∃ s, c.toSchema = .ok s) ↔ ∃ t, d.toSchema = .ok t) ∧
      ∀ s t, c.toSchema = .ok s → d.toSchema = .ok t →
        ∀ q : Request, s.respond q = t.respond q := by
  refine ⟨h.exists_toSchema_iff unambiguous, fun s t hs ht q => ?_⟩
  obtain ⟨r, hr⟩ := (h.saysTheSame unambiguous hs ht).exists_carries
  exact (hr.respond q).symm

/-! ## A shop -/

/-- Orders with their lines, and through them with the products of one kind. -/
def shop : SchemaConfig where
  tables := [⟨"orders", ["id"], .empty, []⟩, ⟨"lines", ["order_id", "sku"], .empty, []⟩,
    ⟨"products", ["sku", "kind"], .empty, []⟩]
  associations := [⟨"lines", "orders", "lines", [⟨"id", "order_id"⟩], none, []⟩,
    ⟨"products", "orders", "products", [⟨"id", "order_id"⟩],
      some ⟨"lines", [⟨"sku", "sku"⟩]⟩, [⟨"products", "kind", .string "A"⟩]⟩]

def reversed (c : SchemaConfig) : SchemaConfig := ⟨c.tables.reverse, c.associations.reverse⟩

theorem reorders_reversed (c : SchemaConfig) : c.Reorders c.reversed :=
  ⟨(List.reverse_perm _).symm, (List.reverse_perm _).symm⟩

/-- Orders with the products in them, as far as there are any. -/
def productsOfOrders : Request where
  table := "orders"
  tableAlias := "o"
  joins := [⟨"products", [{ kind := .left, preferredAlias := some "p" }], true⟩]
  restrictions := [.eq (.col "id") (.literal (.int 7))]
  parameters := []
  columns := ["id"]
  dialect := .postgres

example : (do
      let s ← shop.reversed.toSchema
      let answer ← s.respond productsOfOrders
      return (← answer.result).rendering.text) =
    (.ok ("SELECT o.id, p.* FROM orders o LEFT OUTER JOIN lines o_m1 ON o.id = o_m1.order_id " ++
      "LEFT OUTER JOIN products p ON o_m1.sku = p.sku AND p.kind = $1 WHERE o.id = $2") :
      Except Error String) := by
  cbv

theorem declaration_order_free_shop :
    shop.Reorders shop.reversed ∧ shop.IsUnambiguous ∧ ∃ s t, shop.toSchema = .ok s ∧
      shop.reversed.toSchema = .ok t ∧ s.tableByName "orders" ≠ t.tableByName "orders" ∧
      ∀ q : Request, s.respond q = t.respond q := by
  have unambiguous : shop.IsUnambiguous := ⟨by decide, by decide⟩
  have same := declaration_order_free shop.reorders_reversed unambiguous
  refine ⟨shop.reorders_reversed, unambiguous, _, _, rfl, rfl, ?_, same.2 _ _ rfl rfl⟩
  decide

end JoinPath.SchemaConfig
