import JoinPath.Proofs.Sql.Balanced
/-!
# Conditions read back

The text of a condition means its tree (`conditions_read_back`). Parentheses are written only around
a group of the other connective, but a reader with the precedence of SQL finds the same tree in it,
up to groups in a group of the same connective and groups of one member; so the truth value is the
same. What follows the `ON` of a join reads as its column pairs and its whole further condition, and
what follows the `WHERE` of a statement as its whole filter.
-/

namespace JoinPath

open Item (word paren bare selects pieces)

/-! ## Joins -/

namespace Criteria

/-- The clause of everything that follows the `ON` of a join. -/
def joinClause (conditions : List Condition) (on : Option Criteria) : Clause :=
  .group .and (conditions.map Condition.clause ++ on.toList.map clause)

theorem exists_shown_joinBack {conditions : List Condition} {on : Option Criteria}
    (hne : conditions ≠ [])
    (hconditions : ∀ c ∈ conditions, c.origin.IsPlain ∧ c.destination.IsPlain)
    (hon : ∀ c ∈ on, ∃ is, Shown c.level c.sql c.clause is) :
    ∃ is, Shown .and (joinBack conditions on) (joinClause conditions on) is := by
  have hand : Connective.and ≠ .not := by decide
  have hsep : Connective.and.separator = " AND " := rfl
  have pairs : List.Forall₂ (fun s c => ∃ is, Shown .and s c is)
      (conditions.map fun c => c.origin.sql ++ " = " ++ c.destination.sql)
      (conditions.map Condition.clause) := by
    rw [List.forall₂_map_left_iff, List.forall₂_map_right_iff, List.forall₂_same]
    exact fun c hc => Condition.exists_shown (hconditions c hc)
  have hpairs : (conditions.map fun c => c.origin.sql ++ " = " ++ c.destination.sql) ≠ [] := by
    simpa using hne
  cases on with
  | none =>
    have := Shown.exists_group hand pairs hpairs
    simpa [joinBack, joinClause, onFragments, hsep] using this
  | some c =>
    have member := levelled_shown.member hand (hon c rfl)
    have := Shown.exists_group hand (List.rel_append pairs (.cons member .nil)) (by simp)
    rw [String.intercalate_append_of_ne_nil hpairs (by simp), String.intercalate_singleton] at this
    simpa [joinBack, joinClause, onFragments, hsep, String.append_assoc] using this

/-- Without column pairs the text is no condition, but still balanced. -/
theorem exists_clear_joinBack {conditions : List Condition} {on : Option Criteria}
    (hconditions : ∀ c ∈ conditions, c.origin.IsPlain ∧ c.destination.IsPlain)
    (hon : ∀ c ∈ on, ∃ is, Shown c.level c.sql c.clause is) :
    ∃ is, Clear ["where"] (joinBack conditions on) is ∧
      (conditions ≠ [] → Clause.Reads .and (pieces is) (joinClause conditions on)) := by
  by_cases hne : conditions = []
  · obtain ⟨is, clear⟩ := balanced_joinBack hconditions fun c hc => .of_shown (hon c hc)
    exact ⟨is, clear, fun h => absurd hne h⟩
  · obtain ⟨is, h⟩ := exists_shown_joinBack hne hconditions hon
    exact ⟨is, .of_shown h, fun _ => h.reads⟩

/-- A join by its items: what stands before the `ON` and after it. -/
theorem exists_clear_hop {hop : Hop Criteria} (names : hop.HasPlainNames)
    (hon : ∀ c ∈ hop.on, ∃ is, Shown c.level c.sql c.clause is) :
    ∃ front back, (∀ i ∈ front, i.key ≠ "on") ∧
      Clear ["where"] (Fragment.render .named (hopFragments hop)) (front ++ word "ON" :: back) ∧
      (hop.conditions ≠ [] →
        Clause.Reads .and (pieces back) (joinClause hop.conditions hop.on)) := by
  obtain ⟨kind, table, tableAlias, conditions, on, fetch⟩ := hop
  obtain ⟨front, hfront⟩ := exists_clear_joinFront kind names.table names.tableAlias
  obtain ⟨back, hback, reads⟩ := exists_clear_joinBack names.conditions hon
  have hword : Clear ["where"] " ON " ([" ", "ON", " "].map word) :=
    ⟨.of_tokens _ (by decide) (by decide) (by decide), by decide⟩
  have hhop := (hfront.mono (by decide)).between hword hback (by decide) rfl rfl
  refine ⟨front ++ [word " "], word " " :: back, ?_, ?_, reads⟩
  · intro i hi
    rcases List.mem_append.1 hi with hi | hi
    · have := hfront.clear i hi
      simp only [List.mem_cons, not_or] at this
      exact this.1
    · obtain rfl := List.mem_singleton.1 hi
      decide
  · rw [render_hop]
    simpa using hhop

/-! ## Statements -/

/-- A statement by its items: it begins with `SELECT`, and what follows the first `WHERE` is its
filter. -/
structure ShownSelect (s : String) (filter : Option Criteria) (is : List Item) : Prop where
  scanned : Scanned s is
  selects : selects is = true
  filters : match filter with
    | none => ∀ i ∈ is, i.key ≠ "where"
    | some c => ∃ front back, is = front ++ word "WHERE" :: back ∧ (∀ i ∈ front, i.key ≠ "where") ∧
        Clause.Reads .or (pieces back) c.clause

theorem exists_shown_select {s : Select Criteria} (names : s.HasPlainNames)
    (h : ∀ c ∈ s.conditions, ∃ is, Shown c.level c.sql c.clause is) :
    ∃ is, ShownSelect (Fragment.render .named (selectFragments s)) s.filter is := by
  obtain ⟨rest, hkeys, bare, filtered⟩ :=
    exists_scanned_select names fun c hc => .of_shown (h c hc)
  cases hfilter : s.filter with
  | none => exact ⟨_, bare hfilter, selects_word rest, hkeys⟩
  | some c =>
    obtain ⟨is, hc⟩ := (Select.forall_conditions.1 h).1 c hfilter
    refine ⟨_, filtered c hfilter is hc.scanned, selects_word _,
      word "SELECT" :: rest ++ [word " "], word " " :: is, by simp, ?_, hc.or.reads⟩
    intro i hi
    rcases List.mem_append.1 hi with hi | hi
    · exact hkeys i hi
    · obtain rfl := List.mem_singleton.1 hi
      decide

/-! ## Leaves -/

theorem exists_shown_param {name : String} (h : isName name = true) :
    ∃ is, ShownOperand (param name).sql (param name).clause is := by
  rw [sql_param]
  exact ⟨_, .of_param h⟩

theorem exists_shown_column {ref : ColumnRef} (h : ref.IsPlain) :
    ∃ is, ShownOperand (column ref).sql (column ref).clause is := by
  rw [sql_column]
  exact h.exists_shown

theorem exists_shown_subquery {select : Select Criteria}
    (h : ∃ is, ShownSelect (Fragment.render .named (selectFragments select)) select.filter is) :
    ∃ is, ShownOperand (subquery select).sql (subquery select).clause is := by
  obtain ⟨is, hs⟩ := h
  rw [clause, sql, fragments, render_parenthesized]
  exact ⟨_, .of_subquery hs.scanned hs.selects⟩

/-! ## Trees -/

/-- The text of a plain condition is one, and an operand where it may stand as one. -/
theorem exists_shown_and_operand {c : Criteria} (h : c.IsPlain) :
    (∃ is, Shown c.level c.sql c.clause is) ∧
      (c.IsOperand → ∃ is, ShownOperand c.sql c.clause is) := by
  have leaf {c : Criteria} (hlevel : c.level = .not) (h : ∃ is, ShownOperand c.sql c.clause is) :
      (∃ is, Shown c.level c.sql c.clause is) ∧
        (c.IsOperand → ∃ is, ShownOperand c.sql c.clause is) := by
    obtain ⟨is, hc⟩ := h
    exact ⟨⟨is, hlevel ▸ .of_operand hc⟩, fun _ => ⟨is, hc⟩⟩
  induction c using induction_contents with
  | comparison op operands ih =>
    refine ⟨exists_shown_comparison h.1 fun c hc => ⟨h.2.1 c hc, ?_⟩, fun hop => hop.elim⟩
    exact (ih c hc (arePlain_iff.1 h.2.2 c hc)).2 (h.2.1 c hc)
  | group op members ih =>
    refine ⟨levelled_shown.members h.1 h.2.1 fun c hc => ?_, fun hop => hop.elim⟩
    exact (ih c hc (arePlain_iff.1 h.2.2 c hc)).1
  | literal value => exact h.elim
  | param name => exact leaf rfl (exists_shown_param h)
  | subquery select ih =>
    obtain ⟨names, conditions⟩ := isPlainSelect_iff.1 h
    refine leaf rfl (exists_shown_subquery (exists_shown_select names fun c hc => ?_))
    exact (ih c hc (conditions c hc)).1
  | column ref => exact leaf rfl (exists_shown_column h)

theorem exists_shown {c : Criteria} (h : c.IsPlain) : ∃ is, Shown c.level c.sql c.clause is :=
  (exists_shown_and_operand h).1

end Criteria

/-! ## Reading -/

/-- A text, read by `reader`, is the clause `c` up to groups in a group of the same connective and
groups of one member. So it has the truth value of `c`, whatever the leaves are. -/
def ReadsAs (reader : String → Option Clause) (s : String) (c : Clause) : Prop :=
  ∃ x, reader s = some x ∧ x.flat = c.flat ∧
    ∀ {β : Type} [Lattice β] [BoundedOrder β] (neg : β → β) (leaf : Clause → β),
      x.value neg leaf = c.value neg leaf

theorem readsAs_of_reads {reader : String → Option Clause} {s : String} {op : Connective}
    {is : List Item} {c : Clause} (hreader : reader s = Clause.readOr (pieces is))
    (h : Clause.Reads op (pieces is) c) : ReadsAs reader s c := by
  obtain ⟨x, hx, hflat⟩ := h.readOr
  refine ⟨x, hreader.trans hx, hflat, ?_⟩
  intro β _ _ neg leaf
  rw [← Clause.value_flat neg leaf x, hflat, Clause.value_flat]

theorem readAfter_eq {key s : String} {i : Item} {front back : List Item}
    (h : Scanned s (front ++ i :: back)) (hfront : ∀ j ∈ front, j.key ≠ key) (hkey : i.key = key) :
    Clause.readAfter key s = Clause.readOr (pieces back) := by
  have drop : (front ++ i :: back).dropWhile (fun j => j.key != key) = i :: back := by
    rw [List.dropWhile_append_of_pos fun j hj => bne_iff_ne.2 (hfront j hj)]
    simp [hkey]
  rw [Clause.readAfter, h.nest_eq, Option.bind_some, drop]

theorem readAfter_eq_none {key s : String} {is : List Item} (h : Scanned s is)
    (hkey : ∀ i ∈ is, i.key ≠ key) : Clause.readAfter key s = none := by
  have drop : is.dropWhile (fun i => i.key != key) = [] := by
    rw [← List.append_nil is, List.dropWhile_append_of_pos fun i hi => bne_iff_ne.2 (hkey i hi)]
    rfl
  rw [Clause.readAfter, h.nest_eq, Option.bind_some, drop]

/-- The text of a plain condition reads as its tree. What follows the `ON` of a join with column
pairs reads as the conjunction of the pairs and the further condition, and what follows the `WHERE`
of a statement as its filter. -/
theorem conditions_read_back :
    (∀ c : Criteria, c.IsPlain → ∀ d, ReadsAs Clause.read (c.render d).named c.clause) ∧
    (∀ h : Hop Criteria, Criteria.IsPlainHop h → h.conditions ≠ [] → ∀ d,
      ReadsAs (Clause.readAfter "on") (h.render d).named
        (Criteria.joinClause h.conditions h.on)) ∧
    ∀ s : Select Criteria, Criteria.IsPlainSelect s → ∀ d,
      match s.filter with
      | none => Clause.readAfter "where" (s.render d).named = none
      | some c => ReadsAs (Clause.readAfter "where") (s.render d).named c.clause := by
  refine ⟨fun c hc d => ?_, fun h hh hne d => ?_, fun s hs d => ?_⟩
  · obtain ⟨is, shown⟩ := Criteria.exists_shown hc
    refine readsAs_of_reads ?_ shown.reads
    show (Item.nest (tokens c.sql)).bind _ = _
    rw [shown.scanned.nest_eq, Option.bind_some]
  · obtain ⟨names, hon⟩ := Criteria.isPlainHop_iff.1 hh
    obtain ⟨front, back, hfront, hhop, reads⟩ :=
      Criteria.exists_clear_hop names fun c hc => Criteria.exists_shown (hon c hc)
    exact readsAs_of_reads (readAfter_eq hhop.scanned hfront (by decide)) (reads hne)
  · obtain ⟨names, conditions⟩ := Criteria.isPlainSelect_iff.1 hs
    obtain ⟨is, shown⟩ :=
      Criteria.exists_shown_select names fun c hc => Criteria.exists_shown (conditions c hc)
    have filters := shown.filters
    cases hfilter : s.filter with
    | none =>
      rw [hfilter] at filters
      exact readAfter_eq_none shown.scanned filters
    | some c =>
      rw [hfilter] at filters
      obtain ⟨front, back, rfl, hfront, reads⟩ := filters
      exact readsAs_of_reads (readAfter_eq shown.scanned hfront (by decide)) reads

namespace Criteria

/-- Orders that are neither paid nor without a date, of a customer of a region or with a note. -/
def openOrders : Criteria :=
  .group .and [
    .group .not [.group .or [
      .eq (.column (.qualified "t0" "state")) (.param "paid"),
      .isNull (.column (.qualified "t0" "due"))]],
    .group .or [
      .isIn (.column (.qualified "t0" "customer_id"))
        [.subquery ⟨[.qualified "c" "id"], "customers", "c", [],
          some (.eq (.column (.qualified "c" "region")) (.param "region")), .empty⟩],
      .group .and [.isNotNull (.column (.unqualified "note"))]]]

/-- The lines of an order, for the open orders or without a sku. -/
def linesOfOpen : Hop Criteria :=
  ⟨.left, "lines", "t0_j1", [⟨.qualified "t0" "id", .qualified "t0_j1" "order_id"⟩],
    some (.group .or [openOrders, .isNull (.column (.qualified "t0_j1" "sku"))]), true⟩

/-- The open orders with their lines. -/
def selectOpen : Select Criteria := ⟨[], "orders", "t0", [linesOfOpen], some openOrders, .empty⟩

theorem isPlain_openOrders : openOrders.IsPlain := by
  simp +decide [openOrders, IsPlain, ArePlain, IsPlainSelect, ArePlainHops, IsPlainOption,
    IsOperand, Operator.HasArity, ColumnRef.IsPlain, ColumnRef.IsSelectable, Criteria.eq, compare,
    isNull, isNotNull, isIn, ColumnRef.qualified, ColumnRef.unqualified]

theorem isPlain_linesOfOpen : IsPlainHop linesOfOpen := by
  simp +decide [linesOfOpen, IsPlainHop, IsPlainOption, IsPlain, ArePlain, isPlain_openOrders,
    IsOperand, Operator.HasArity, ColumnRef.IsPlain, isNull, ColumnRef.qualified]

theorem isPlain_selectOpen : IsPlainSelect selectOpen := by
  simp +decide [selectOpen, IsPlainSelect, ArePlainHops, IsPlainOption, isPlain_openOrders,
    isPlain_linesOfOpen]

end Criteria

theorem conditions_read_back_openOrders :
    Criteria.openOrders.IsPlain ∧ Criteria.IsPlainHop Criteria.linesOfOpen ∧
    Criteria.linesOfOpen.conditions ≠ [] ∧ Criteria.IsPlainSelect Criteria.selectOpen ∧
    (Criteria.openOrders.render .mysql).named =
      "NOT ((t0.state = :paid OR t0.due IS NULL)) AND (t0.customer_id IN (SELECT c.id FROM " ++
        "customers c WHERE c.region = :region) OR (note IS NOT NULL))" ∧
    ReadsAs Clause.read (Criteria.openOrders.render .mysql).named Criteria.openOrders.clause ∧
    ReadsAs (Clause.readAfter "on") (Criteria.linesOfOpen.render .mysql).named
      (Criteria.joinClause Criteria.linesOfOpen.conditions Criteria.linesOfOpen.on) ∧
    ReadsAs (Clause.readAfter "where") (Criteria.selectOpen.render .mysql).named
      Criteria.openOrders.clause := by
  have hne : Criteria.linesOfOpen.conditions ≠ [] := List.cons_ne_nil _ _
  exact ⟨Criteria.isPlain_openOrders, Criteria.isPlain_linesOfOpen, hne,
    Criteria.isPlain_selectOpen,
    by decide +kernel,
    conditions_read_back.1 _ Criteria.isPlain_openOrders .mysql,
    conditions_read_back.2.1 _ Criteria.isPlain_linesOfOpen hne .mysql,
    conditions_read_back.2.2 _ Criteria.isPlain_selectOpen .mysql⟩

end JoinPath
