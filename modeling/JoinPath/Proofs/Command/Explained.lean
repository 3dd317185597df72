import JoinPath.Command.Run
import JoinPath.Proofs.Command.Typed
import JoinPath.Proofs.Config.Order
/-!
# Explanations

The program looks up typed paths by name, so what it explains of a configuration does not depend on
the order in which that is written (`explain_order_free`).
-/

namespace JoinPath

namespace Reindexing.Carries

open Command

variable {r : Reindexing} {s : Session} {u t : Schema}

theorem followSteps (h : r.Carries u t) (origin : TableId) (kind : JoinKind)
    (named : List (String × Option String)) :
    Command.followSteps t (r.table origin) kind named =
      (Command.followSteps u origin kind named).map (List.map r.step) := by
  have hsteps (ids : List AssociationId) (aliases : List (Option String)) :
      List.zipWith (typedStep kind) (ids.map r.association) aliases =
        (List.zipWith (typedStep kind) ids aliases).map r.step := by
    rw [List.zipWith_map_left, List.map_zipWith]
    rfl
  rw [followSteps_eq, followSteps_eq, h.follow]
  cases u.follow origin (named.map Prod.fst) with
  | error e => rfl
  | ok ids => exact congrArg Except.ok (hsteps ids _)

theorem joinPaths (h : r.Carries s.schema t) (kind : JoinKind) (fetch : Bool)
    (paths : List String) :
    Command.joinPaths (r.session t s) kind fetch paths =
      (Command.joinPaths s kind fetch paths).map (r.session t) := by
  induction paths generalizing s with
  | nil => rfl
  | cons path paths ih =>
    have hsteps : typedPath (r.session t s).schema (r.session t s).table kind path =
        (typedPath s.schema s.table kind path).map (List.map r.step) :=
      h.followSteps s.table kind _
    rw [Command.joinPaths, Command.joinPaths, hsteps]
    cases typedPath s.schema s.table kind path with
    | error e => rfl
    | ok steps =>
      have hschema : (s.joinTo steps fetch).schema = s.schema :=
        (s.sameTable_perform (.joinTo steps fetch)).1
      simp only [Except.map, Except.mapError, bind, Except.bind, h.joinTo]
      exact ih (hschema ▸ h)

theorem schema_joinPaths {kind : JoinKind} {fetch : Bool} {paths : List String} {s' : Session}
    (h : Command.joinPaths s kind fetch paths = .ok s') : s'.schema = s.schema := by
  induction paths generalizing s with
  | nil =>
    obtain rfl := Except.ok.inj h
    rfl
  | cons path paths ih =>
    obtain ⟨steps, -, hrest⟩ := bind_eq_ok_iff.1 h
    exact (ih hrest).trans (s.sameTable_perform (.joinTo steps fetch)).1

theorem statementText (h : r.Carries s.schema t) (st : Statement) :
    Command.statementText (r.session t s) st = Command.statementText s st := by
  have hname : (t.table (r.table s.table)).name = (s.schema.table s.table).name := h.name _
  unfold Command.statementText Session.hops
  rw [h.placedHops, ← hname]
  rfl

theorem statementJson (h : r.Carries s.schema t) (st : Statement) :
    Command.statementJson (r.session t s) st = Command.statementJson s st := by
  unfold Command.statementJson Session.hops
  rw [h.placedHops]

/-- What is printed at the end: the statement of a session whose joins are declared. -/
def printed (s : Session) (criteria : List Criteria) (d : Dialect) (format : Format) :
    Except Failure String := do
  let (result, s) := (s.setFilter criteria).build [] d
  let st ← result.mapError .statement
  match format with
  | .table => return Command.statementText s st
  | .json => return (Command.statementJson s st).pretty ++ "\n"

theorem printed_eq (h : r.Carries s.schema t) (criteria : List Criteria) (d : Dialect)
    (format : Format) :
    printed (r.session t s) criteria d format = printed s criteria d format := by
  have h₁ : r.Carries (s.setFilter criteria).schema t :=
    (s.sameTable_perform (.setFilter criteria)).1 ▸ h
  have h₂ : r.Carries ((s.setFilter criteria).build [] d).2.schema t :=
    ((s.setFilter criteria).sameTable_perform (.build [] d)).1 ▸ h₁
  unfold printed
  rw [h.setFilter, h₁.build]
  simp only [Prod.map, id, h₂.statementText, h₂.statementJson]

theorem explain (h : r.Carries u t) (settings : Settings) (o : ExplainOptions) :
    Command.explain t settings o = Command.explain u settings o := by
  unfold Command.explain
  rw [h.tableByName]
  cases u.tableByName o.table with
  | error e => rfl
  | ok id =>
    have hstart (a : String) : (Session.new t (r.table id)).setAlias a =
        r.session t ((Session.new u id).setAlias a) := setAlias (s := Session.new u id) a
    have hschema (a : String) : ((Session.new u id).setAlias a).schema = u :=
      ((Session.new u id).sameTable_perform (.setAlias a)).1
    simp only [Except.map, Except.mapError, bind, Except.bind, hstart,
      Carries.joinPaths ((hschema _).symm ▸ h)]
    cases hjoins : Command.joinPaths ((Session.new u id).setAlias
        (o.tableAlias.getD settings.tableAlias)) (if o.outer then .left else .inner) o.fetch
        o.paths with
    | error e => rfl
    | ok s =>
      have hs : r.Carries s.schema t := ((schema_joinPaths hjoins).trans (hschema _)).symm ▸ h
      cases restrictions o.filters with
      | error e => rfl
      | ok criteria => exact hs.printed_eq criteria (o.dialect.getD settings.dialect) o.format

end Reindexing.Carries

/-- What the program explains of a configuration does not depend on the order in which its tables
and associations are written: a reordered configuration is accepted if the first one is, and prints
the same for every base table, all typed paths, filters and options. -/
theorem SchemaConfig.explain_order_free {c d : SchemaConfig} (h : c.Reorders d)
    (unambiguous : c.IsUnambiguous) {s : Schema} (hs : c.toSchema = .ok s) :
    ∃ t, d.toSchema = .ok t ∧ ∀ settings options,
      Command.explain t settings options = Command.explain s settings options := by
  obtain ⟨t, ht⟩ := (h.exists_toSchema_iff unambiguous).1 ⟨s, hs⟩
  obtain ⟨r, hr⟩ := (h.saysTheSame unambiguous hs ht).exists_carries
  exact ⟨t, ht, hr.explain⟩

end JoinPath
