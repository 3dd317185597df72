import JoinPath.Proofs.Family.Literals
/-!
# Names of a family

However the sessions of a family take turns, the names that they make never collide: no two tables
have the same alias and no two literals the same parameter, so a statement that embeds others is
never refused for a conflict, and every placeholder has the literal that it was made from
(`names_apart`).
-/

namespace JoinPath.Family

open Text (Under)

variable {f : Family} {moves : List Move}

theorem AdmitsAll.leaves (h : f.AdmitsAll moves) : ∀ m ∈ moves, m.call.leavesNames = true := by
  induction moves generalizing f with
  | nil => exact fun _ hm => absurd hm List.not_mem_nil
  | cons m moves ih =>
    intro n hn
    rcases List.mem_cons.1 hn with rfl | hn
    · exact h.1.leaves
    · exact ih h.2 n hn

theorem AdmitsAll.of_append {first second : List Move} (h : f.AdmitsAll (first ++ second)) :
    f.AdmitsAll first := by
  induction first generalizing f with
  | nil => trivial
  | cons m first ih => exact ⟨h.1, ih h.2⟩

/-- The sessions of a family keep their names apart, whichever of them takes which call at which
time: where no caller prefers an alias twice, or one that is that of the root or goes on after it
with an underscore, all tables have different aliases and all literals different parameters. A build
finds no conflict, and gives each placeholder, also within subqueries, the one literal that has its
name. -/
theorem names_apart (schema : Schema) (table : TableId) (tableAlias : String) (moves : List Move)
    (nonempty : tableAlias ≠ "") (plain : schema.Plain)
    (admits : (new schema table tableAlias).AdmitsAll moves)
    (preferred : ((new schema table tableAlias).preferredIn moves).Nodup)
    (free : ∀ a ∈ (new schema table tableAlias).preferredIn moves,
      a ≠ tableAlias ∧ ¬ Under tableAlias a) :
    let f := new schema table tableAlias
    ((f.run moves).members.flatMap fun s => s.tableAlias :: s.hops.map Hop.tableAlias).Nodup ∧
    ((f.literalsIn moves).map Prod.fst).Nodup ∧
    ∀ before after i columns d, moves = before ++ ⟨i, .build columns d⟩ :: after →
      ∀ s, (f.run before).members[i]? = some s →
        (∀ name, (s.build columns d).1 ≠ .error (.conflictingParameter name)) ∧
        ∀ st, (s.build columns d).1 = .ok st →
          List.Forall₂ (fun name v => (name, v) ∈ f.literalsIn moves ∧
            ∀ w, (name, w) ∈ f.literalsIn moves → w = v) st.rendering.names st.values := by
  intro f
  have harranged := arranged_new schema table nonempty
  have hledgered := ledgered_new schema table tableAlias
  have hledger := (hledgered.run plain harranged admits).ledger
  refine ⟨(harranged.run admits.leaves).nodup_aliases preferred free, hledger.nodup, ?_⟩
  rintro before after i columns d rfl s hs
  have hlater : f.literalsIn (before ++ [⟨i, .build columns d⟩]) ⊆
      f.literalsIn (before ++ ⟨i, .build columns d⟩ :: after) := by
    have hsplit := List.append_cons before ⟨i, .build columns d⟩ after
    rw [hsplit, literalsIn, literalsIn, along_append _ _ f _ after]
    exact List.subset_append_left _ _
  -- The parameters that a build reads are those that it leaves.
  have hagreed : s.ensureFilter.bindings.Agreed
      (f.literalsIn (before ++ ⟨i, .build columns d⟩ :: after)) := by
    have hbuilt : s.perform (.build columns d) ∈
        (f.run (before ++ [⟨i, .build columns d⟩])).members := by
      rw [run_append]
      exact (moved_of_getElem? (m := ⟨i, .build columns d⟩) hs).moved
    rw [List.append_cons] at admits
    obtain ⟨log, hframe⟩ := s.build_frame columns d
    rw [Session.perform, hframe] at hbuilt
    exact ((hledgered.run plain harranged admits.of_append).agreed _ hbuilt).mono hlater
  obtain ⟨hconflict, hvalues⟩ := Session.build_of_agreed hagreed columns d
  refine ⟨hconflict, fun st hst => (hvalues st hst).imp fun name v hv => ⟨hv, fun w hw => ?_⟩⟩
  exact hledger.eq_of_mem hw hv

/-! ## Orders with a subquery -/

/-- The orders with a line of one kind, as the session for the subquery selects them. -/
def ordersOfLines : Select Criteria :=
  ((((Session.new Session.ordersWithLines ⟨1⟩).setAlias "o_s1").setFilter
    [.eq (.col "sku") (.literal (.string "A"))]).select ["order_id"]).1

/-- Joins lines of another kind, and restricts the orders by the subquery. -/
def withSubquery : List Move := [
  ⟨0, .subquery ⟨1⟩⟩,
  ⟨1, .setFilter [.eq (.col "sku") (.literal (.string "A"))]⟩,
  ⟨1, .select ["order_id"]⟩,
  ⟨0, .joinTo [{ Session.linesOf "B" with preferredAlias := some "l" }] false⟩,
  ⟨0, .setFilter [.isIn (.col "id") [.subquery ordersOfLines]]⟩]

/-- Orders whose family goes on to build the statement. -/
abbrev ordersFamily : Family := new Session.ordersWithLines ⟨0⟩ "o"

example : ((ordersFamily.run withSubquery).members[0]?.bind fun s =>
    (s.build ["id"] .postgres).1.toOption).map (fun st => (st.rendering.names, st.values)) =
      some (["o_R1", "o_s1_R1"], [.string "B", .string "A"]) := by
  cbv

theorem names_apart_withSubquery :
    let moves := withSubquery ++ [⟨0, .build ["id"] .postgres⟩]
    "o" ≠ "" ∧ Session.ordersWithLines.Plain ∧ ordersFamily.AdmitsAll moves ∧
    (ordersFamily.preferredIn moves).Nodup ∧
    (∀ a ∈ ordersFamily.preferredIn moves, a ≠ "o" ∧ ¬ Under "o" a) ∧
    ((ordersFamily.literalsIn moves).map Prod.fst).Nodup ∧
    ∃ s, (ordersFamily.run withSubquery).members[0]? = some s ∧
      ∀ st, (s.build ["id"] .postgres).1 = .ok st →
        List.Forall₂ (fun name v => (name, v) ∈ ordersFamily.literalsIn moves ∧
          ∀ w, (name, w) ∈ ordersFamily.literalsIn moves → w = v) st.rendering.names st.values := by
  intro moves
  have plain : Session.ordersWithLines.Plain := by
    have hsubqueries : (Session.ordersWithLines.tables.flatMap Table.criteria).flatMap
        Criteria.subqueries = [] := by cbv
    have hliterals : (Session.ordersWithLines.tables.flatMap Table.criteria).flatMap
        Criteria.literals = [] := by cbv
    have hdiscriminators : Session.ordersWithLines.associations.flatMap
        Association.discriminators = [] := by cbv
    rw [List.flatMap_eq_nil_iff] at hsubqueries hliterals hdiscriminators
    refine ⟨fun t ht c hc => ?_, fun t ht c hc v hv => ?_, fun a ha d hd => ?_⟩
    · exact hsubqueries c (List.mem_flatMap.2 ⟨t, ht, hc⟩)
    · simp [hliterals c (List.mem_flatMap.2 ⟨t, ht, hc⟩)] at hv
    · simp [hdiscriminators a ha] at hd
  have admits : ordersFamily.AdmitsAll moves := by
    have hnone {l m : List (Select Criteria)} (h : l = []) : l ⊆ m := h ▸ List.nil_subset m
    refine ⟨⟨rfl, by cbv, hnone (by cbv)⟩, ⟨rfl, by cbv, hnone (by cbv)⟩,
      ⟨rfl, by cbv, hnone (by cbv)⟩, ⟨rfl, by cbv, hnone (by cbv)⟩, ⟨rfl, by cbv, ?_⟩,
      ⟨rfl, by cbv, hnone (by cbv)⟩, trivial⟩
    -- The subquery is what the second session selected.
    have hissued : (ordersFamily.run (withSubquery.take 4)).issued = [ordersOfLines] := by cbv
    have hembedded : ((ordersFamily.run (withSubquery.take 4)).atMove Session.passed
        ⟨0, .setFilter [.isIn (.col "id") [.subquery ordersOfLines]]⟩).flatMap
          Criteria.subqueries = [ordersOfLines] := by cbv
    exact fun select hselect => hissued ▸ hembedded ▸ hselect
  have hpreferred : ordersFamily.preferredIn moves = ["l"] := by cbv
  have nodup : (ordersFamily.preferredIn moves).Nodup := hpreferred ▸ List.nodup_singleton _
  have free : ∀ a ∈ ordersFamily.preferredIn moves, a ≠ "o" ∧ ¬ Under "o" a := by
    rw [hpreferred]
    simp [Under]
  obtain ⟨-, hliterals, hbuilds⟩ :=
    names_apart Session.ordersWithLines ⟨0⟩ "o" moves (by decide) plain admits nodup free
  have hroot : (ordersFamily.run withSubquery).members[0]?.isSome = true := by cbv
  obtain ⟨s, hs⟩ := Option.isSome_iff_exists.1 hroot
  obtain ⟨-, hvalues⟩ := hbuilds withSubquery [] 0 ["id"] .postgres rfl s hs
  exact ⟨by decide, plain, admits, nodup, free, hliterals, s, hs, hvalues⟩

end JoinPath.Family
