import JoinPath.Proofs.Hops.Restrictions
import JoinPath.Proofs.Session.Bounded
import JoinPath.Proofs.Session.Carried
import JoinPath.Proofs.Sql.Whole
/-!
# Whole statements

A session guards its own lists: it writes no `WHERE` without restrictions and no `ON` without pairs
of columns. Lists inside the conditions that it was handed are written as they are. So the text of a
statement is whole as long as none of these is empty (`build_whole_iff`); an empty one leaves a hole
(`empty_conjunction_dangles`).
-/

namespace JoinPath

namespace Session

open Criteria (HasArity)

variable {s : Session}

/-- The hops of a bounded session pair columns. -/
theorem Bounded.conditions_ne_nil (hs : s.Bounded) : ∀ h ∈ s.hops, h.conditions ≠ [] := by
  intro h hh
  rw [hops_eq_flatMap] at hh
  obtain ⟨id, hid, hh⟩ := List.mem_flatMap.1 hh
  have hvisited := List.mem_eraseDups.1 hid
  obtain ⟨a, origin, destination, hstands⟩ := hs.routed.stands_visited hvisited
  obtain ⟨v, later, hsharing, rfl⟩ := exists_first_visit hvisited
  rw [hopsOf, hsharing] at hh
  have hlast := (hs.settled hstands.terminal_index_lt).paired
  cases hj : (s.schema.association a).junction with
  | none =>
    obtain ⟨hgroup, -, -, hconditions⟩ := hstands.group_of_direct hj later
    rw [hgroup, List.mem_singleton] at hh
    rw [hh, hconditions]
    refine hlast ?_
    rw [hstands.terminal_of_direct hj, hstands.placement_of_direct hj]
    rfl
  | some j =>
    obtain ⟨first, m, junction, hhalves, hfirst, hsecond, hgroup, -, ⟨-, -, hinward⟩, -, -,
      houtward⟩ := hstands.group_of_junction hj later
    rw [hgroup, List.mem_pair] at hh
    rcases hh with rfl | rfl
    · rw [hinward]
      refine (hs.settled (hstands.first_index_lt hhalves)).paired ?_
      rw [hfirst]
      rfl
    · rw [houtward]
      refine hlast ?_
      rw [hsecond]
      rfl

/-- Whatever was called on a session over a declared schema, with conditions whose comparisons have
the operands that the builders give them: the text of a statement that is built is whole exactly if
nothing inside the conditions of the statement is empty, and then each word and sign of it has the
expressions that it needs. It is whole if nothing was empty in what was handed over or written for a
table. -/
theorem build_whole_iff (declarations : List Declaration) (table : TableId)
    (there : (Schema.declared declarations).HasTable table) (calls : List Call)
    (inRange : (new (.declared declarations) table).AllInRange calls)
    (arity : ∀ c, IsWritten (.declared declarations)
      ((new (.declared declarations) table).handedIn calls) c → c.Everywhere HasArity)
    (columns : List String) (d : Dialect) :
    let s := (new (.declared declarations) table).run calls
    let select := (s.select columns).1
    (∀ st, (s.build columns d).1 = .ok st →
      st.rendering = .ofFragments d (select.lexemes.map Lexeme.fragment)) ∧
    (Lexeme.IsWhole select.lexemes ↔ ∀ c ∈ select.conditions, c.IsFull) ∧
    (Lexeme.IsWhole select.lexemes → Lexeme.Supplied select.lexemes) ∧
    ((∀ c, IsWritten (.declared declarations)
        ((new (.declared declarations) table).handedIn calls) c → c.IsFull) →
      Lexeme.IsWhole select.lexemes) := by
  intro s select
  have hs : s.Bounded := (bounded_new (Schema.wellFormed_declared declarations) there).run inRange
  have hselected : (s.perform (.select columns)).Bounded := hs.perform trivial
  have hpaired : ∀ h ∈ select.joins, h.conditions ≠ [] := hselected.conditions_ne_nil
  have hiff : Lexeme.IsWhole select.lexemes ↔ ∀ c ∈ select.conditions, c.IsFull := by
    rw [Select.isWhole_iff
      (everywhere_of_mem_conditions Criteria.isStructural_hasArity arity columns)]
    exact and_iff_right hpaired
  refine ⟨fun st hst => ?_, hiff, Lexeme.IsWhole.supplied, fun full => hiff.2 ?_⟩
  · rw [rendering_of_build_ok hst]
    exact Select.render_eq_lexemes select d
  · exact everywhere_of_mem_conditions Criteria.isStructural_isPopulated full columns

/-! ## Books under conditions -/

/-- Joins the red tags of the books and restricts these. -/
def redUnder (restriction : Criteria) : List Call :=
  [.joinTo [tagged "red"] false, .setFilter [restriction]]

/-- A property of what such calls hand over and what the tables ask for. -/
theorem forall_written_redUnder {P : Criteria → Prop} {restriction : Criteria}
    (hname : P (.eq (.col "name") (.literal (.string "red")))) (hrestriction : P restriction)
    (hstate : P (.eq (.col "state") (.literal (.string "used"))))
    (hdeleted : P (.isNull (.col "deleted"))) :
    ∀ c, IsWritten (.declared retiredTags)
      ((new (.declared retiredTags) ⟨0⟩).handedIn (redUnder restriction)) c → P c := by
  have htables : (Schema.declared retiredTags).tables.flatMap Table.criteria =
      [.eq (.col "state") (.literal (.string "used")), .isNull (.col "deleted")] := by cbv
  have hhanded : (new (.declared retiredTags) ⟨0⟩).handedIn (redUnder restriction) =
      [.eq (.col "name") (.literal (.string "red")), restriction] := rfl
  rintro c (hc | ⟨t, hc⟩)
  · rw [hhanded] at hc
    simp only [List.mem_cons, List.not_mem_nil, or_false] at hc
    rcases hc with rfl | rfl
    · exact hname
    · exact hrestriction
  · obtain ⟨u, hu, hc⟩ := Schema.exists_of_mem_criteria hc
    have hmem := List.mem_flatMap.2 ⟨u, hu, hc⟩
    rw [htables] at hmem
    simp only [List.mem_cons, List.not_mem_nil, or_false] at hmem
    rcases hmem with rfl | rfl
    · exact hstate
    · exact hdeleted

/-- Books of two shelves, or with a number. -/
def shelvedOrNumbered : Criteria :=
  .or [.isIn (.col "shelf") [.literal (.string "A1"), .literal (.string "B2")],
    .not (.isNull (.col "id"))]

theorem build_whole_iff_redUnder :
    let handed := (new (.declared retiredTags) ⟨0⟩).handedIn (redUnder shelvedOrNumbered)
    (Schema.declared retiredTags).HasTable ⟨0⟩ ∧
    (new (.declared retiredTags) ⟨0⟩).AllInRange (redUnder shelvedOrNumbered) ∧
    (∀ c, IsWritten (.declared retiredTags) handed c → c.Everywhere HasArity) ∧
    (∀ c, IsWritten (.declared retiredTags) handed c → c.IsFull) ∧
    Lexeme.IsWhole
      (((new (.declared retiredTags) ⟨0⟩).run (redUnder shelvedOrNumbered)).select
        ["id"]).1.lexemes := by
  intro handed
  have there : (Schema.declared retiredTags).HasTable ⟨0⟩ := by decide
  have inRange : (new (.declared retiredTags) ⟨0⟩).AllInRange (redUnder shelvedOrNumbered) := by
    decide
  have arity : ∀ c, IsWritten (.declared retiredTags) handed c → c.Everywhere HasArity := by
    apply forall_written_redUnder <;>
      simp [shelvedOrNumbered, Criteria.or, Criteria.combine, Criteria.not, Criteria.isIn,
        Criteria.isNull, Criteria.eq, Criteria.compare, Criteria.col, HasArity, Operator.Admits]
  have full : ∀ c, IsWritten (.declared retiredTags) handed c → c.IsFull := by
    apply forall_written_redUnder <;>
      simp [shelvedOrNumbered, Criteria.IsFull, Criteria.or, Criteria.combine, Criteria.not,
        Criteria.isIn, Criteria.isNull, Criteria.eq, Criteria.compare, Criteria.col,
        Criteria.IsPopulated]
  have whole := build_whole_iff retiredTags ⟨0⟩ there _ inRange arity ["id"] .postgres
  exact ⟨there, inRange, arity, full, whole.2.2.2 full⟩

/-- A conjunction of no conditions leaves a `WHERE` with nothing behind it. -/
theorem empty_conjunction_dangles :
    let s := (new (.declared retiredTags) ⟨0⟩).run [.setFilter [.and []]]
    (Criteria.and []).Everywhere HasArity ∧
    (∃ st, (s.build ["id"] .postgres).1 = .ok st ∧
      st.rendering.text = "SELECT t0.id FROM books t0 WHERE ") ∧
    ¬ Lexeme.IsWhole (s.select ["id"]).1.lexemes := by
  intro s
  have hbuilt : (s.build ["id"] .postgres).1.map (fun st => st.rendering.text) =
      .ok "SELECT t0.id FROM books t0 WHERE " := by cbv
  have hlexemes : (s.select ["id"]).1.lexemes =
      [.select [.qualified "t0" "id"] "books" "t0", .filter] := by cbv
  refine ⟨by simp [Criteria.and, Criteria.combine, HasArity], ?_, ?_⟩
  · cases hbuild : (s.build ["id"] .postgres).1 with
    | error e =>
      rw [hbuild] at hbuilt
      cases hbuilt
    | ok st =>
      rw [hbuild] at hbuilt
      exact ⟨st, rfl, Except.ok.inj hbuilt⟩
  · rw [hlexemes]
    decide

end Session

end JoinPath
