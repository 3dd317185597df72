import JoinPath.Proofs.Lists
import JoinPath.Proofs.Sql.Writer
import JoinPath.Sql.Bind
/-!
# Placeholders

All texts of a tree come from one text with holes, and the list of names runs along the holes
(`placeholders_in_step`). A dialect only chooses what stands in a hole, so binding finds the values
in the order in which any of the texts asks for them.
-/

namespace JoinPath

/-- A text with holes for placeholders: the text before the first hole, then for each hole the name
of its parameter and the text up to the next one. -/
structure Template where
  head : String
  tail : List (String × String)

namespace Template

def names (t : Template) : List String := t.tail.map Prod.fst

/-- The text with `mark name k` in the `k`-th hole, counted from one. -/
def spell (mark : String → ℕ → String) (t : Template) : String :=
  t.head ++ String.join (t.tail.mapIdx fun k hole => mark hole.1 (k + 1) ++ hole.2)

/-- The fragments with the texts between two slots in one piece. -/
def ofFragments : List Fragment → Template
  | [] => ⟨"", []⟩
  | .text s :: rest => ⟨s ++ (ofFragments rest).head, (ofFragments rest).tail⟩
  | .slot name :: rest => ⟨"", (name, (ofFragments rest).head) :: (ofFragments rest).tail⟩

theorem names_ofFragments (fragments : List Fragment) :
    (ofFragments fragments).names = Fragment.names fragments := by
  induction fragments with
  | nil => rfl
  | cons x rest ih => cases x <;> simp_all [ofFragments, names, Fragment.names]

/-- The induction needs the number of placeholders to the left, which the position counts. -/
theorem renderFrom_eq_spell (d : Dialect) (fragments : List Fragment) (filled : ℕ) :
    Fragment.renderFrom d filled fragments =
      (ofFragments fragments).spell fun name k => d.placeholder name (filled + k) := by
  induction fragments generalizing filled with
  | nil => rfl
  | cons x rest ih =>
    cases x with
    | text s => simp [Fragment.renderFrom, ofFragments, spell, ih, String.append_assoc]
    | slot name =>
      have shift : ∀ k, filled + 1 + (k + 1) = filled + (k + 1 + 1) := fun k => by omega
      simp [Fragment.renderFrom, ofFragments, spell, ih, shift, List.mapIdx_cons,
        String.append_assoc]

/-- The renderings of a tree have the text and the holes of `t`: in each of them the names are
those of the holes, and binding gives one value for each hole, in their order, unless one of the
holes has none. -/
structure Spells (t : Template) (render : Dialect → Rendering) : Prop where
  names (d : Dialect) : (render d).names = t.names
  original (d : Dialect) : (render d).named = t.spell fun name _ => ":" ++ name
  named : (render .named).text = t.spell fun name _ => ":" ++ name
  postgres : (render .postgres).text = t.spell fun _ k => "$" ++ k.repr
  mysql : (render .mysql).text = t.spell fun _ _ => "?"
  sqlite : (render .sqlite).text = t.spell fun _ _ => "?"
  values (d : Dialect) (p : Parameters) (vs : List Value) :
    (render d).bind p = .ok vs ↔ List.Forall₂ (fun name v => p.get? name = some v) t.names vs
  missing (d : Dialect) (p : Parameters) (e : Error) :
    (render d).bind p = .error e ↔
      ∃ before name after, t.names = before ++ name :: after ∧
        (∀ other ∈ before, ∃ v, p.get? other = some v) ∧ p.get? name = none ∧
        e = .unboundParameter name (t.spell fun name _ => ":" ++ name)

end Template

namespace Rendering

theorem valueOf_eq_ok_iff {r : Rendering} {p : Parameters} {name : String} {v : Value} :
    r.valueOf p name = .ok v ↔ p.get? name = some v := by
  unfold valueOf
  cases p.get? name <;> simp

theorem valueOf_eq_error_iff {r : Rendering} {p : Parameters} {name : String} {e : Error} :
    r.valueOf p name = .error e ↔
      p.get? name = none ∧ e = .unboundParameter name r.named := by
  unfold valueOf
  cases p.get? name <;> simp [eq_comm]

theorem bind_eq_ok_iff {r : Rendering} {p : Parameters} {values : List Value} :
    r.bind p = .ok values ↔
      List.Forall₂ (fun name v => p.get? name = some v) r.names values := by
  simp only [bind, mapM_eq_ok_iff, valueOf_eq_ok_iff]

theorem bind_eq_error_iff {r : Rendering} {p : Parameters} {e : Error} :
    r.bind p = .error e ↔
      ∃ before name after, r.names = before ++ name :: after ∧
        (∀ other ∈ before, ∃ v, p.get? other = some v) ∧ p.get? name = none ∧
        e = .unboundParameter name r.named := by
  simp only [bind, mapM_eq_error_iff, valueOf_eq_ok_iff, valueOf_eq_error_iff]

end Rendering

theorem Template.spells_ofFragments (fragments : List Fragment) :
    (Template.ofFragments fragments).Spells fun d => .ofFragments d fragments := by
  have text : ∀ d, Fragment.render d fragments =
      (ofFragments fragments).spell fun name k => d.placeholder name k := by
    intro d
    simp only [Fragment.render, renderFrom_eq_spell d fragments 0, Nat.zero_add]
  have named := text .named
  refine ⟨fun d => (names_ofFragments fragments).symm, fun _ => named, named, text .postgres,
    text .mysql, text .sqlite, fun d p vs => ?_, fun d p e => ?_⟩
  · rw [Rendering.bind_eq_ok_iff, names_ofFragments]
    rfl
  · rw [Rendering.bind_eq_error_iff, names_ofFragments]
    simp only [Rendering.ofFragments, named]
    rfl

/-- The named text, the text of a dialect and the list of names never drift apart: the two walks
that write them share one text with holes, whatever the dialect. -/
theorem placeholders_in_step :
    (∀ c : Criteria, (∀ d, c.render d = Writer.rendering c.write d) ∧
      ∃ t : Template, t.Spells c.render) ∧
    (∀ h : Hop Criteria, (∀ d, h.render d = Writer.rendering (Criteria.writeHop h) d) ∧
      ∃ t : Template, t.Spells h.render) ∧
    ∀ s : Select Criteria, (∀ d, s.render d = Writer.rendering (Criteria.writeSelect s) d) ∧
      ∃ t : Template, t.Spells s.render := by
  refine ⟨fun c => ⟨fun d => ?_, _, Template.spells_ofFragments c.fragments⟩,
    fun h => ⟨fun d => ?_, _, Template.spells_ofFragments (Criteria.hopFragments h)⟩,
    fun s => ⟨fun d => ?_, _, Template.spells_ofFragments (Criteria.selectFragments s)⟩⟩
  · exact (Writer.rendering_of_after (Criteria.write_eq c) d).symm
  · exact (Writer.rendering_of_after (Criteria.writeHop_eq h) d).symm
  · exact (Writer.rendering_of_after (Criteria.writeSelect_eq s) d).symm

end JoinPath
