import JoinPath.Proofs.Session.Arranged
/-!
# Distinct aliases

A pool does not look at what was registered with it before it numbers an alias. So the tables of a
statement have different aliases if and only if the preferred aliases are different ones, none of
them that of the base table and none numbered by the session as well (`aliases_distinct_iff`). One
that is numbered as well ends up on two tables (`preferred_alias_numbered_again`).
-/

namespace JoinPath.Session

open Text (under_numberedName not_under_self)

variable {s : Session} {preferred : List String}

theorem Numbered.base_notMem (h : s.Numbered preferred) : s.tableAlias ∉ s.numberedAliases := by
  intro hmem
  obtain ⟨kind, n, -, heq⟩ := h.kind_of_mem hmem
  have hunder := under_numberedName s.tableAlias kind n
  rw [← heq] at hunder
  exact not_under_self _ hunder

/-- The tables of an arranged session have different aliases exactly if the preferred ones are
different from each other, from that of the base table and from the numbered ones. -/
theorem Arranged.nodup_iff (h : s.Arranged preferred) :
    (s.tableAlias :: s.hops.map Hop.tableAlias).Nodup ↔
      s.tableAlias ∉ preferred ∧ preferred.Nodup ∧ ∀ a ∈ preferred, a ∉ s.numberedAliases := by
  have haliases : (s.hops.map Hop.tableAlias).Perm (preferred ++ s.numberedAliases) :=
    h.ordered.hops_eq ▸ h.numbered.aliases
  have hbase : s.tableAlias ∉ s.hops.map Hop.tableAlias ↔ s.tableAlias ∉ preferred := by
    rw [haliases.mem_iff, List.mem_append, not_or, and_iff_left h.numbered.base_notMem]
  rw [List.nodup_cons, hbase, haliases.nodup_iff, List.nodup_append',
    and_iff_right h.numbered.nodup]
  rfl

/-- A key of a pool keeps the alias that was taken for it until another one is registered. An alias
that is numbered for a key differs from all that were numbered before, and another key has it
exactly if it was registered under that very text. So the aliases of the base table and of the hops
are different if and only if the preferred ones that were used are different from each other, from
the alias of the base table and from those that the session numbered. -/
theorem aliases_distinct_iff (schema : Schema) (table : TableId) (tableAlias : String)
    (calls : List Call) (keeps : ∀ call ∈ calls, call.keepsPools = true) :
    let start := (new schema table).setAlias tableAlias
    let s := start.run calls
    (∀ (stem : String) (requests : List AliasPool.Request) (id : PlacementId),
      let p := (AliasPool.new stem).run requests
      (∀ later : List AliasPool.Request, (∀ r ∈ later, r.registered id = none) →
        ((p.take id).2.run later).get? id = some (p.take id).1 ∧
        (((p.take id).2.run later).take id).1 = (p.take id).1) ∧
      (p.get? id = none → (p.take id).1 ∉ p.numbered ∧ ∀ other,
        p.get? other = some (p.take id).1 ↔
          AliasPool.registered other requests = some (p.take id).1)) ∧
    ((s.tableAlias :: s.hops.map Hop.tableAlias).Nodup ↔
      s.tableAlias ∉ start.preferredIn calls ∧ (start.preferredIn calls).Nodup ∧
        ∀ a ∈ start.preferredIn calls, a ∉ s.numberedAliases) := by
  intro start s
  refine ⟨fun stem requests id => ⟨fun later kept => ?_, fun hnone => ?_⟩, ?_⟩
  · have hget := ((AliasPool.new stem).run requests).get?_take_run id kept
    exact ⟨hget, by rw [AliasPool.take_of_some hget]⟩
  · rw [AliasPool.fst_take hnone]
    exact ⟨AliasPool.next_notMem_numbered _,
      (AliasPool.accounted_run stem requests).get?_eq_next_iff⟩
  · exact ((arranged_setAlias_new schema table tableAlias).run keeps).nodup_iff

/-! ## Orders with lines and notes -/

def ordersWithNotes : Schema := .declared [
  .table "orders" ["id"],
  .table "lines" ["order_id"],
  .table "notes" ["order_id"],
  .association "lines" ⟨0⟩ ⟨1⟩ [⟨"id", "order_id"⟩],
  .association "notes" ⟨0⟩ ⟨2⟩ [⟨"id", "order_id"⟩]]

/-- Joins the lines under an alias of the caller's choice, and then the notes. -/
def joinLinesAs (tableAlias : String) : List Call := [
  .joinTo [{ association := ⟨0⟩, kind := .inner, preferredAlias := some tableAlias }] false,
  .joinTo [{ association := ⟨1⟩, kind := .left }] false]

/-- Orders that are joined so. -/
def linesAs (tableAlias : String) : Session :=
  ((new ordersWithNotes ⟨0⟩).setAlias "o").run (joinLinesAs tableAlias)

theorem aliases_distinct_iff_lines :
    let preferred := ((new ordersWithNotes ⟨0⟩).setAlias "o").preferredIn (joinLinesAs "lines")
    (∀ call ∈ joinLinesAs "lines", call.keepsPools = true) ∧
    ((linesAs "lines").tableAlias ∉ preferred ∧ preferred.Nodup ∧
      ∀ a ∈ preferred, a ∉ (linesAs "lines").numberedAliases) ∧
    ((linesAs "lines").tableAlias :: (linesAs "lines").hops.map Hop.tableAlias).Nodup := by
  intro preferred
  have keeps : ∀ call ∈ joinLinesAs "lines", call.keepsPools = true := by
    simp [joinLinesAs, Call.keepsPools]
  have hpreferred : preferred = ["lines"] := by cbv
  have hbase : (linesAs "lines").tableAlias = "o" := by cbv
  have hnumbered : (linesAs "lines").numberedAliases = ["o_j1"] := by cbv
  have hdistinct : (linesAs "lines").tableAlias ∉ preferred ∧ preferred.Nodup ∧
      ∀ a ∈ preferred, a ∉ (linesAs "lines").numberedAliases := by
    rw [hpreferred, hbase, hnumbered]
    decide
  exact ⟨keeps, hdistinct,
    (aliases_distinct_iff ordersWithNotes ⟨0⟩ "o" (joinLinesAs "lines") keeps).2.2 hdistinct⟩

/-- A pool numbers an alias that another key was registered under, and so the notes have the alias
that the caller chose for the lines. -/
theorem preferred_alias_numbered_again :
    (let p := (AliasPool.new "o_j").register ⟨0⟩ "o_j1";
      p.get? ⟨1⟩ = none ∧ p.get? ⟨0⟩ = some (p.take ⟨1⟩).1) ∧
    (∀ call ∈ joinLinesAs "o_j1", call.keepsPools = true) ∧
    ((new ordersWithNotes ⟨0⟩).setAlias "o").preferredIn (joinLinesAs "o_j1") = ["o_j1"] ∧
    (linesAs "o_j1").tableAlias = "o" ∧
    ¬ ((linesAs "o_j1").hops.map Hop.tableAlias).Nodup := by
  have haliases : (linesAs "o_j1").hops.map Hop.tableAlias = ["o_j1", "o_j1"] := by cbv
  refine ⟨by cbv, by simp [joinLinesAs, Call.keepsPools], by cbv, by cbv, ?_⟩
  rw [haliases]
  decide

end JoinPath.Session
