import JoinPath.Proofs.Criteria.Inside
import JoinPath.Proofs.Text.Numbered
import JoinPath.Proofs.Text.Scanned
import JoinPath.Sql.Render
/-!
# Literals in a text

No string leaves its quotes: a scanner reads from the text of a condition the very strings that are
its literals, in their order, whatever apostrophes they have (`literals_read_back`). That takes
names without apostrophes, as plain identifiers are, and a word or sign of SQL behind each literal
that another one follows.
-/

namespace JoinPath

open Text (Unquoted Holds unquoted_append unquoted_intercalate)

/-! ## Names -/

def ColumnRef.names (c : ColumnRef) : List String := c.qualifier.toList ++ [c.name]

def Condition.names (c : Condition) : List String := c.origin.names ++ c.destination.names

/-- The names in the text of a join up to its further condition. -/
def Hop.names {γ : Type} (hop : Hop γ) : List String :=
  hop.table :: hop.tableAlias :: hop.conditions.flatMap Condition.names

/-- The names that a statement writes, apart from those in its conditions. -/
def Select.names {γ : Type} (select : Select γ) : List String :=
  select.table :: select.tableAlias ::
    (select.columns.flatMap ColumnRef.names ++ select.joins.flatMap Hop.names)

theorem ColumnRef.unquoted_sql {c : ColumnRef} (h : ∀ name ∈ c.names, Unquoted name) :
    Unquoted c.sql := by
  obtain ⟨qualifier, name⟩ := c
  cases qualifier with
  | none => exact h name List.mem_cons_self
  | some tableAlias =>
    obtain ⟨halias, h⟩ := List.forall_mem_cons.1 h
    have hname := h name List.mem_cons_self
    exact unquoted_append.2 ⟨unquoted_append.2 ⟨halias, by decide⟩, hname⟩

theorem Condition.unquoted_pair {c : Condition} (h : ∀ name ∈ c.names, Unquoted name) :
    Unquoted (c.origin.sql ++ " = " ++ c.destination.sql) := by
  obtain ⟨horigin, hdestination⟩ := List.forall_mem_append.1 h
  exact unquoted_append.2 ⟨unquoted_append.2 ⟨ColumnRef.unquoted_sql horigin, by decide⟩,
    ColumnRef.unquoted_sql hdestination⟩

namespace Criteria

theorem unquoted_joinHead {hop : Hop Criteria} (h : ∀ name ∈ hop.names, Unquoted name) :
    Unquoted (joinHead hop.kind hop.table hop.tableAlias hop.conditions) := by
  obtain ⟨htable, h⟩ := List.forall_mem_cons.1 h
  obtain ⟨halias, hconditions⟩ := List.forall_mem_cons.1 h
  have hpairs : Unquoted (" AND ".intercalate
      (hop.conditions.map fun c => c.origin.sql ++ " = " ++ c.destination.sql)) := by
    refine unquoted_intercalate (by decide) _ (List.forall_mem_map.2 fun c hc => ?_)
    exact Condition.unquoted_pair fun name hname =>
      hconditions name (List.mem_flatMap.2 ⟨c, hc, hname⟩)
  simp only [joinHead, unquoted_append]
  refine ⟨⟨⟨⟨⟨⟨⟨by decide, ?_⟩, by decide⟩, htable⟩, by decide⟩, halias⟩, by decide⟩, hpairs⟩
  cases hop.kind <;> decide

theorem unquoted_selectList {tableAlias : String} {columns : List ColumnRef}
    (halias : Unquoted tableAlias) (h : ∀ name ∈ columns.flatMap ColumnRef.names, Unquoted name) :
    Unquoted (selectList tableAlias columns) := by
  unfold selectList
  split
  · exact unquoted_append.2 ⟨halias, by decide⟩
  · refine unquoted_intercalate (by decide) _ (List.forall_mem_map.2 fun c hc => ?_)
    exact ColumnRef.unquoted_sql fun name hname => h name (List.mem_flatMap.2 ⟨c, hc, hname⟩)

end Criteria

/-! ## Literals of fragments -/

namespace Fragment

variable {vs ws : List Value} {xs ys : List Fragment} {s : String}

/-- In every dialect, and wherever they stand, the fragments hold these strings. -/
def Shows (vs : List Value) (xs : List Fragment) : Prop :=
  ∃ ss : List String, ss.map Value.string = vs ∧ ∀ d filled, Holds ss (renderFrom d filled xs)

/-- A word or sign of SQL, which keeps what stands around it apart. -/
def Separates (s : String) : Prop := s ≠ "" ∧ Unquoted s

instance (s : String) : Decidable (Separates s) := inferInstanceAs (Decidable (_ ∧ _))

/-- The fragments do not begin with an apostrophe. -/
def Apart (xs : List Fragment) : Prop :=
  ∀ d filled, (renderFrom d filled xs).toList.head? ≠ some '\''

theorem apart_nil : Apart [] := fun _ _ => nofun

theorem apart_text (h : Separates s) : Apart (.text s :: xs) := by
  intro d filled
  obtain ⟨c, cs, hs⟩ := List.exists_cons_of_ne_nil (mt String.toList_eq_nil_iff.1 h.1)
  rw [renderFrom, String.toList_append, hs]
  intro hc
  obtain rfl := Option.some.inj hc
  exact h.2 (hs ▸ List.mem_cons_self)

theorem Apart.append (hx : Apart xs) (hy : Apart ys) : Apart (xs ++ ys) := by
  intro d filled
  have hxs := hx d filled
  rw [renderFrom_append, String.toList_append]
  cases h : (renderFrom d filled xs).toList with
  | nil => exact hy d _
  | cons c cs => rwa [h] at hxs

theorem unquoted_placeholder (d : Dialect) (h : Unquoted s) (position : ℕ) :
    Unquoted (d.placeholder s position) := by
  cases d with
  | named => exact unquoted_append.2 ⟨by decide, h⟩
  | postgres =>
    refine unquoted_append.2 ⟨by decide, fun hmem => ?_⟩
    exact absurd (Text.isDigit_of_mem_repr hmem) (by decide)
  | _ => exact (by decide : Unquoted "?")

namespace Shows

theorem nil : Shows [] [] := ⟨[], rfl, fun _ _ => .unquoted List.not_mem_nil⟩

theorem slot (h : Unquoted s) : Shows [] [.slot s] := by
  refine ⟨[], rfl, fun d filled => .unquoted ?_⟩
  exact unquoted_append.2 ⟨unquoted_placeholder d h _, List.not_mem_nil⟩

theorem literal (s : String) : Shows [.string s] [.text (Value.string s).sqlText] :=
  ⟨[s], rfl, fun _ _ => by
    rw [renderFrom, renderFrom, String.append_empty]
    exact .quoted s⟩

theorem cons (hs : Unquoted s) (h : Shows vs xs) : Shows vs (.text s :: xs) := by
  obtain ⟨ss, hss, h⟩ := h
  exact ⟨ss, hss, fun d filled => (h d filled).prepend hs⟩

theorem append (hx : Shows vs xs) (hy : Shows ws ys) (h : Apart ys) :
    Shows (vs ++ ws) (xs ++ ys) := by
  obtain ⟨ss, rfl, hx⟩ := hx
  obtain ⟨ts, rfl, hy⟩ := hy
  refine ⟨ss ++ ts, List.map_append, fun d filled => ?_⟩
  rw [renderFrom_append]
  exact (hx d _).append (hy d _) (h d _)

theorem text (h : Unquoted s) : Shows [] [.text s] := nil.cons h

/-- A word may follow a literal. -/
theorem snoc (h : Shows vs xs) (hs : Separates s) : Shows vs (xs ++ [.text s]) :=
  List.append_nil vs ▸ h.append (text hs.2) (apart_text hs)

theorem between (hx : Shows vs xs) (hy : Shows ws ys) (hs : Separates s) :
    Shows (vs ++ ws) (xs ++ .text s :: ys) :=
  hx.append (hy.cons hs.2) (apart_text hs)

theorem intercalate (hs : Separates s) {α : Type} {f : α → List Value} {g : α → List Fragment} :
    ∀ as : List α, (∀ a ∈ as, Shows (f a) (g a)) →
      Shows (as.flatMap f) ([.text s].intercalate (as.map g))
  | [], _ => nil
  | [a], h => by
    simpa only [List.map_singleton, List.intercalate_singleton, List.flatMap_singleton]
      using h a List.mem_cons_self
  | a :: b :: as, h => by
    obtain ⟨ha, has⟩ := List.forall_mem_cons.1 h
    rw [List.map_cons, List.map_cons, List.intercalate_cons_cons, List.flatMap_cons,
      List.append_assoc]
    exact ha.between (intercalate hs (b :: as) has) hs

theorem parenthesized (h : Shows vs xs) : Shows vs (Criteria.parenthesized xs) :=
  (h.cons (by decide)).snoc (by decide)

end Shows

end Fragment

/-! ## Literals of conditions -/

/-- The operands that are written for an operator. -/
def Operator.written {α : Type} (op : Operator) (operands : List α) : List α :=
  match op with
  | .isNull | .isNotNull | .exist => operands.take 1
  | .isIn | .notIn => operands
  | _ => operands.take 2

/-- An operator with the operands that the builders give it takes all of them. -/
theorem Operator.Admits.written_eq {α : Type} {op : Operator} {operands : List α}
    (h : op.Admits operands.length) : op.written operands = operands := by
  cases op with
  | isIn | notIn => rfl
  | _ => exact List.take_of_length_le (le_of_eq h)

namespace Criteria

mutual

/-- The literals of a condition from left to right, where `counted` chooses the operands that count.
Of a subquery the conditions of the joins come first. -/
def literalsBy (counted : Operator → List (List Value) → List (List Value)) :
    Criteria → List Value
  | comparison op operands => (counted op (literalsByAll counted operands)).flatten
  | group _ members => (literalsByAll counted members).flatten
  | literal value => [value]
  | param _ => []
  | subquery ⟨_, _, _, joins, filter, _⟩ =>
    literalsByJoins counted joins ++ literalsByOption counted filter
  | column _ => []

def literalsByAll (counted : Operator → List (List Value) → List (List Value)) :
    List Criteria → List (List Value)
  | [] => []
  | c :: cs => literalsBy counted c :: literalsByAll counted cs

def literalsByOption (counted : Operator → List (List Value) → List (List Value)) :
    Option Criteria → List Value
  | none => []
  | some c => literalsBy counted c

def literalsByJoins (counted : Operator → List (List Value) → List (List Value)) :
    List (Hop Criteria) → List Value
  | [] => []
  | ⟨_, _, _, _, on, _⟩ :: hops => literalsByOption counted on ++ literalsByJoins counted hops

end

/-- The literals of the operands that are written. -/
def writtenLiterals : Criteria → List Value := literalsBy Operator.written

/-- The literals of all operands, those of subqueries too. -/
def everyLiteral : Criteria → List Value := literalsBy fun _ operands => operands

section

variable {counted : Operator → List (List Value) → List (List Value)}

theorem literalsByAll_eq_map (cs : List Criteria) :
    literalsByAll counted cs = cs.map (literalsBy counted) :=
  eq_map_of_cons rfl (fun _ _ => rfl) cs

theorem literalsBy_comparison (op : Operator) (cs : List Criteria) :
    literalsBy counted (comparison op cs) = (counted op (cs.map (literalsBy counted))).flatten := by
  rw [literalsBy, literalsByAll_eq_map]

theorem literalsBy_group (op : Connective) (cs : List Criteria) :
    literalsBy counted (group op cs) = cs.flatMap (literalsBy counted) := by
  rw [literalsBy, literalsByAll_eq_map, ← List.flatMap_def]

theorem literalsByOption_eq_flatMap (o : Option Criteria) :
    literalsByOption counted o = o.toList.flatMap (literalsBy counted) := by
  cases o with
  | none => rfl
  | some c => exact (List.flatMap_singleton _ _).symm

theorem literalsByJoins_eq_flatMap (hops : List (Hop Criteria)) :
    literalsByJoins counted hops = (hops.filterMap Hop.on).flatMap (literalsBy counted) :=
  eq_flatMap_ons_of_cons rfl
    (fun hop hops => by cases hop; rw [literalsByJoins, literalsByOption_eq_flatMap]) hops

theorem literalsBy_subquery (select : Select Criteria) :
    literalsBy counted (subquery select) =
      select.ons.flatMap (literalsBy counted) ++
        select.filter.toList.flatMap (literalsBy counted) := by
  obtain ⟨columns, table, tableAlias, joins, filter, parameters⟩ := select
  rw [literalsBy, literalsByOption_eq_flatMap, literalsByJoins_eq_flatMap]
  rfl

end

theorem writtenLiterals_eq {c : Criteria} (arity : c.Everywhere HasArity) :
    c.writtenLiterals = c.everyLiteral := by
  induction c using induction_contents with
  | comparison op cs ih =>
    -- The operands have the same literals one by one, and all of them are written.
    have hall : cs.map writtenLiterals = cs.map everyLiteral :=
      List.map_congr_left fun c hc => ih c hc (arity.contents c hc)
    have hop : op.Admits (cs.map everyLiteral).length := (List.length_map _).symm ▸ arity.here
    rw [writtenLiterals, everyLiteral, literalsBy_comparison, literalsBy_comparison]
    exact congrArg List.flatten ((congrArg op.written hall).trans hop.written_eq)
  | group op cs ih =>
    rw [writtenLiterals, everyLiteral, literalsBy_group, literalsBy_group]
    exact List.flatMap_congr fun c hc => ih c hc (arity.contents c hc)
  | subquery select ih =>
    have hall : ∀ c ∈ select.filter.toList ++ select.ons, c.writtenLiterals = c.everyLiteral :=
      fun c hc => ih c hc (arity.contents c hc)
    obtain ⟨hfilter, hons⟩ := List.forall_mem_append.1 hall
    rw [writtenLiterals, everyLiteral, literalsBy_subquery, literalsBy_subquery]
    exact congrArg₂ _ (List.flatMap_congr hons) (List.flatMap_congr hfilter)
  | _ => rfl

/-! ## The text of a condition -/

/-- The names that stand at this place, those of the conditions in it apart. -/
def namesHere : Criteria → List String
  | param name => [name]
  | column ref => ref.names
  | subquery select => select.names
  | _ => []

def HasUnquotedNames (c : Criteria) : Prop := ∀ name ∈ c.namesHere, Unquoted name

/-- A literal is a string. -/
def IsText : Criteria → Prop
  | literal value => ∃ s, value = .string s
  | _ => True

open Fragment (Shows Separates Apart apart_nil apart_text)

variable {f : Criteria → List Value}

theorem shows_memberFragments {vs : List Value} {part : Part} (h : Shows vs part.2)
    (parent : Connective) : Shows vs (memberFragments parent part) := by
  unfold memberFragments
  split
  · exact h.parenthesized
  · exact h

theorem shows_joined {sep : String} (hs : Separates sep) (parent : Connective) {parts : List Part}
    (h : ∀ part ∈ parts, Shows (f part.1) part.2) :
    Shows (parts.flatMap fun part => f part.1) (joined sep parent parts) :=
  .intercalate hs parts fun part hpart => shows_memberFragments (h part hpart) parent

theorem shows_groupFragments (op : Connective) {parts : List Part}
    (h : ∀ part ∈ parts, Shows (f part.1) part.2) :
    Shows (parts.flatMap fun part => f part.1) (groupFragments op parts) := by
  cases op with
  | and => exact shows_joined (by decide) .and h
  | or => exact shows_joined (by decide) .or h
  | not => exact ((shows_joined (by decide) .and h).cons (by decide)).snoc (by decide)

theorem shows_valuesFragments {parts : List Part} (h : ∀ part ∈ parts, Shows (f part.1) part.2) :
    Shows (parts.flatMap fun part => f part.1) (valuesFragments parts) := by
  unfold valuesFragments
  split
  · next select fragments =>
    rw [List.flatMap_singleton]
    exact h _ List.mem_cons_self
  · exact (shows_joined (by decide) .and h).parenthesized

theorem separates_sign (op : Operator) : Separates (" " ++ op.sql ++ " ") := by
  cases op <;> decide

theorem shows_comparisonFragments (op : Operator) {parts : List Part}
    (h : ∀ part ∈ parts, Shows (f part.1) part.2) :
    Shows (op.written (parts.map fun part => f part.1)).flatten
      (comparisonFragments op parts) := by
  match parts with
  | [] => cases op <;> exact .nil
  | left :: rest =>
    obtain ⟨hleft, hrest⟩ := List.forall_mem_cons.1 h
    have hone : [f left.1].flatten = f left.1 := List.flatten_singleton
    cases op with
    | isNull | isNotNull => exact hone ▸ hleft.snoc (by decide)
    | exist => exact hone ▸ hleft.cons (by decide)
    | isIn | notIn => exact hleft.between (shows_valuesFragments hrest) (by decide)
    | _ =>
      match rest with
      | [] => exact hone ▸ hleft
      | right :: rest =>
        have hright := hrest right List.mem_cons_self
        have htwo : [f left.1, f right.1].flatten = f left.1 ++ f right.1 := by
          rw [List.flatten_cons, List.flatten_singleton]
        exact htwo ▸ hleft.between hright (separates_sign _)

/-- Each hop begins with a blank, so it may follow a literal. -/
theorem apart_hopsFragments {hops : List (Hop Criteria)}
    (names : ∀ hop ∈ hops, ∀ name ∈ hop.names, Unquoted name) : Apart (hopsFragments hops) := by
  induction hops with
  | nil => exact apart_nil
  | cons hop hops ih =>
    obtain ⟨hhop, hhops⟩ := List.forall_mem_cons.1 names
    have hhead := unquoted_joinHead hhop
    obtain ⟨kind, table, tableAlias, conditions, on, fetch⟩ := hop
    have hne : joinHead kind table tableAlias conditions ≠ "" := by simp [joinHead]
    exact (apart_text ⟨hne, hhead⟩).append (ih hhops)

theorem shows_hopsFragments {hops : List (Hop Criteria)}
    (names : ∀ hop ∈ hops, ∀ name ∈ hop.names, Unquoted name)
    (h : ∀ c ∈ hops.filterMap Hop.on, Shows (f c) c.fragments) :
    Shows ((hops.filterMap Hop.on).flatMap f) (hopsFragments hops) := by
  induction hops with
  | nil => exact .nil
  | cons hop hops ih =>
    obtain ⟨hhop, hhops⟩ := List.forall_mem_cons.1 names
    have hhead := unquoted_joinHead hhop
    obtain ⟨kind, table, tableAlias, conditions, on, fetch⟩ := hop
    cases on with
    | none => exact (Shows.text hhead).append (ih hhops h) (apart_hopsFragments hhops)
    | some on =>
      obtain ⟨hon, hons⟩ := List.forall_mem_cons.1 h
      have hmember : Shows (f on) (memberFragments .and (on, fragments on)) :=
        shows_memberFragments hon .and
      exact ((hmember.cons (by decide)).cons hhead).append (ih hhops hons)
        (apart_hopsFragments hhops)

theorem shows_filterFragments {filter : Option Criteria}
    (h : ∀ c ∈ filter, Shows (f c) c.fragments) :
    Shows (filter.toList.flatMap f) (filterFragments filter) ∧ Apart (filterFragments filter) := by
  cases filter with
  | none => exact ⟨.nil, apart_nil⟩
  | some c =>
    have hc := (h c rfl).cons (s := " WHERE ") (by decide)
    exact ⟨(List.flatMap_singleton f c).symm ▸ hc, apart_text (by decide)⟩

theorem shows_selectFragments {select : Select Criteria}
    (names : ∀ name ∈ select.names, Unquoted name)
    (h : ∀ c ∈ select.conditions, Shows (f c) c.fragments) :
    Shows (select.ons.flatMap f ++ select.filter.toList.flatMap f) (selectFragments select) := by
  obtain ⟨columns, table, tableAlias, joins, filter, parameters⟩ := select
  obtain ⟨hfilter, hons⟩ := List.forall_mem_append.1 h
  obtain ⟨htable, names⟩ := List.forall_mem_cons.1 names
  obtain ⟨halias, names⟩ := List.forall_mem_cons.1 names
  obtain ⟨hcolumns, hjoins⟩ := List.forall_mem_append.1 names
  have hhops : ∀ hop ∈ joins, ∀ name ∈ hop.names, Unquoted name :=
    fun hop hhop name hname => hjoins name (List.mem_flatMap.2 ⟨hop, hhop, hname⟩)
  have hhead : Unquoted ("SELECT " ++ selectList tableAlias columns ++ " FROM " ++ table ++ " " ++
      tableAlias) := by
    simp only [unquoted_append]
    exact ⟨⟨⟨⟨⟨by decide, unquoted_selectList halias hcolumns⟩, by decide⟩, htable⟩, by decide⟩,
      halias⟩
  obtain ⟨hshown, hapart⟩ := shows_filterFragments fun c hc => hfilter c (Option.mem_toList.2 hc)
  exact ((shows_hopsFragments hhops hons).cons hhead).append hshown hapart

theorem map_parts (f : Criteria → List Value) (cs : List Criteria) :
    ((parts cs).map fun part => f part.1) = cs.map f := by
  rw [parts_eq_map, List.map_map]
  rfl

theorem forall_parts {P : Criteria → List Fragment → Prop} {cs : List Criteria}
    (h : ∀ c ∈ cs, P c c.fragments) : ∀ part ∈ parts cs, P part.1 part.2 := by
  rw [parts_eq_map]
  exact List.forall_mem_map.2 h

/-- The text of a condition holds its literals. -/
theorem shows_fragments {c : Criteria} (names : c.Everywhere HasUnquotedNames)
    (texts : c.Everywhere IsText) : Shows c.writtenLiterals c.fragments := by
  induction c using induction_contents with
  | comparison op cs ih =>
    rw [writtenLiterals, literalsBy_comparison, ← map_parts]
    exact shows_comparisonFragments op (forall_parts fun c hc =>
      ih c hc (names.contents c hc) (texts.contents c hc))
  | group op cs ih =>
    rw [writtenLiterals, literalsBy_group, List.flatMap_def, ← map_parts]
    exact shows_groupFragments op (forall_parts fun c hc =>
      ih c hc (names.contents c hc) (texts.contents c hc))
  | literal value =>
    obtain ⟨s, rfl⟩ := texts.here
    exact .literal s
  | param name => exact .slot (names.here name List.mem_cons_self)
  | subquery select ih =>
    rw [writtenLiterals, literalsBy_subquery]
    exact (shows_selectFragments names.here fun c hc =>
      ih c hc (names.contents c hc) (texts.contents c hc)).parenthesized
  | column ref => exact .text (ColumnRef.unquoted_sql names.here)

/-- A scanner that meets the text of a string reads exactly that string from it and stops behind
it, unless an apostrophe follows. So it reads from both texts of a condition, in every dialect, the
strings that are the literals of its written operands, in their order, if the condition has no
other literals and no apostrophe stands in its names. Where every comparison has the operands that
the builders give it, those are all literals of the condition. -/
theorem literals_read_back :
    (∀ s t : String, t.toList.head? ≠ some '\'' →
      Text.literal? ((Value.string s).sqlText ++ t).toList = some (s, t.toList)) ∧
    ∀ (c : Criteria) (d : Dialect), c.Everywhere HasUnquotedNames →
      c.Everywhere IsText →
      (∀ text ∈ [(c.render d).named, (c.render d).text],
        (Text.literals? text.toList).map (List.map Value.string) = some c.writtenLiterals) ∧
      (c.Everywhere HasArity → c.writtenLiterals = c.everyLiteral) := by
  refine ⟨fun s t h => ?_, fun c d names texts => ⟨?_, writtenLiterals_eq⟩⟩
  · rw [String.toList_append]
    exact Text.literal?_sqlQuoted s h
  · obtain ⟨ss, hss, holds⟩ := shows_fragments names texts
    have read (d : Dialect) : (Text.literals? (Fragment.render d c.fragments).toList).map
        (List.map Value.string) = some c.writtenLiterals := by
      rw [Fragment.render, (holds d 0).literals?, Option.map_some, hss]
    exact List.forall_mem_cons.2 ⟨read .named, List.forall_mem_singleton.2 (read d)⟩

/-- Lines by an author with a marked note of some text, as strings that try to leave their
quotes. -/
def ofQuotedNotes : Criteria :=
  .and [.eq (.col "author") (.literal (.string "O'Brien")), .eq (.col "kind") (.param "kind"),
    .isIn (.col "id") [.subquery {
      columns := [.unqualified "line_id"]
      table := "notes"
      tableAlias := "n"
      joins := [{
        kind := .inner
        table := "marks"
        tableAlias := "m"
        conditions := [⟨.qualified "n" "id", .qualified "m" "note_id"⟩]
        on := some (.eq (.column (.qualified "m" "sign")) (.literal (.string "'")))
        fetch := false }]
      filter := some (.eq (.col "text") (.literal (.string "' OR ''='")))
      parameters := .empty }]]

theorem literals_read_back_ofQuotedNotes :
    (Text.literal? "'O''Brien' AND name = 'it''s'".toList =
      some ("O'Brien", " AND name = 'it''s'".toList)) ∧
    ofQuotedNotes.Everywhere HasUnquotedNames ∧ ofQuotedNotes.Everywhere IsText ∧
    ofQuotedNotes.Everywhere HasArity ∧
    (Text.literals? (ofQuotedNotes.render .postgres).text.toList).map (List.map Value.string) =
      some [.string "O'Brien", .string "'", .string "' OR ''='"] := by
  have names : ofQuotedNotes.Everywhere HasUnquotedNames := by
    simp [ofQuotedNotes, and, combine, isIn, eq, compare, col, HasUnquotedNames, namesHere,
      ColumnRef.unqualified, ColumnRef.qualified, ColumnRef.names, Condition.names, Hop.names,
      Select.names, Unquoted, Select.forall_conditions]
  have texts : ofQuotedNotes.Everywhere IsText := by
    simp [ofQuotedNotes, and, combine, isIn, eq, compare, col, IsText, Select.forall_conditions]
  have arity : ofQuotedNotes.Everywhere HasArity := by
    simp [ofQuotedNotes, and, combine, isIn, eq, compare, col, HasArity, Operator.Admits,
      Select.forall_conditions]
  obtain ⟨hread, hwritten⟩ := literals_read_back.2 ofQuotedNotes .postgres names texts
  have hfirst := literals_read_back.1 "O'Brien" " AND name = 'it''s'" (by decide)
  refine ⟨hfirst, names, texts, arity, ?_⟩
  have hliterals : ofQuotedNotes.everyLiteral =
      [.string "O'Brien", .string "'", .string "' OR ''='"] := by cbv
  rw [← hliterals, ← hwritten arity]
  exact hread _ (List.mem_cons_of_mem _ List.mem_cons_self)

end Criteria

end JoinPath
