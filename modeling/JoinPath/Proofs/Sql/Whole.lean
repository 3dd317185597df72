import JoinPath.Proofs.Sql.Lexemes
/-!
# Whole texts

A text is whole if an expression stands wherever one is called for: after `WHERE` and `ON`, on both
sides of every operator, of `AND`, of `OR` and of every comma, and inside every pair of parentheses.
A scanner that goes over the lexemes tells so. Of a condition with the operands that the builders
give, the text is whole exactly if no list inside it is empty (`wholeIff_lexemes`).
-/

namespace JoinPath

namespace Lexeme

/-- One lexeme further. The first component tells whether an expression was read; where none was
read, one is called for. The second counts the parentheses that are open. -/
def scan : Bool × ℕ → Lexeme → Option (Bool × ℕ)
  | (false, n), operand _ => some (true, n)
  | (false, n), select _ _ _ => some (true, n)
  | (false, n), exist => some (false, n)
  | (false, n), not => some (false, n + 1)
  | (false, n), opening => some (false, n + 1)
  | (true, n), filter => some (false, n)
  | (true, n), and => some (false, n)
  | (true, n), or => some (false, n)
  | (true, n), comma => some (false, n)
  | (true, n), sign _ => some (false, n)
  | (true, n), test _ => some (true, n)
  | (true, n), join _ _ _ conditions => some (!conditions.isEmpty, n)
  | (true, n + 1), closing => some (true, n)
  | _, _ => none

/-- An expression is read in the end, and stands wherever one is called for. -/
def IsWhole (lexemes : List Lexeme) : Prop := lexemes.foldlM scan (false, 0) = some (true, 0)

instance (lexemes : List Lexeme) : Decidable (IsWhole lexemes) :=
  inferInstanceAs (Decidable (_ = _))

/-! ## Neighbours -/

/-- An expression begins with the lexeme. -/
def Begins : Lexeme → Prop
  | operand _ | select _ _ _ | exist | not | opening => True
  | _ => False

/-- An expression ends with the lexeme. -/
def Ends : Lexeme → Prop
  | operand _ | select _ _ _ | test _ | closing => True
  | join _ _ _ conditions => conditions ≠ []
  | _ => False

/-- An expression has to come after the lexeme. -/
def CallsFor : Lexeme → Prop
  | filter | and | or | comma | sign _ | exist | not | opening => True
  | join _ _ _ conditions => conditions = []
  | _ => False

/-- An expression has to come before the lexeme. -/
def Follows : Lexeme → Prop
  | filter | and | or | comma | sign _ | test _ | closing | join _ _ _ _ => True
  | _ => False

/-- Every lexeme has the expressions next to it that it needs. -/
def Supplied (lexemes : List Lexeme) : Prop :=
  ∀ before l after, lexemes = before ++ l :: after →
    (l.CallsFor → ∃ next rest, after = next :: rest ∧ next.Begins) ∧
    (l.Follows → ∃ rest last, before = rest ++ [last] ∧ last.Ends)

theorem begins_of_scan {l : Lexeme} {n : ℕ} {t : Bool × ℕ} (h : l.scan (false, n) = some t) :
    l.Begins := by
  cases l <;> simp [scan, Begins] at h ⊢

theorem ends_of_scan {l : Lexeme} {s : Bool × ℕ} {n : ℕ} (h : l.scan s = some (true, n)) :
    l.Ends := by
  obtain ⟨_ | _, _ | m⟩ := s <;> cases l <;> simp_all [scan, Ends]

theorem CallsFor.scan_eq {l : Lexeme} (hl : l.CallsFor) {s t : Bool × ℕ} (h : l.scan s = some t) :
    t.1 = false := by
  obtain ⟨_ | _, _ | m⟩ := s <;> cases l <;> simp_all [scan, CallsFor] <;> simp [← h]

theorem Follows.scan_eq {l : Lexeme} (hl : l.Follows) {s t : Bool × ℕ} (h : l.scan s = some t) :
    s.1 = true := by
  obtain ⟨_ | _, _ | m⟩ := s <;> cases l <;> simp_all [scan, Follows]

/-- Where an expression is called for and read in the end, one begins. -/
theorem exists_begins {lexemes : List Lexeme} {n m : ℕ}
    (h : lexemes.foldlM scan (false, n) = some (true, m)) :
    ∃ next rest, lexemes = next :: rest ∧ next.Begins := by
  cases lexemes with
  | nil => cases h
  | cons next rest =>
    rw [List.foldlM_cons] at h
    obtain ⟨t, hnext, -⟩ := Option.bind_eq_some_iff.1 h
    exact ⟨next, rest, rfl, begins_of_scan hnext⟩

/-- Where an expression is called for and read in the end, one ends. -/
theorem exists_ends {lexemes : List Lexeme} {n m : ℕ}
    (h : lexemes.foldlM scan (false, n) = some (true, m)) :
    ∃ rest last, lexemes = rest ++ [last] ∧ last.Ends := by
  cases lexemes using List.reverseRecOn with
  | nil => cases h
  | append_singleton rest last =>
    rw [List.foldlM_append] at h
    obtain ⟨s, -, hlast⟩ := Option.bind_eq_some_iff.1 h
    rw [List.foldlM_cons] at hlast
    obtain ⟨t, hlast, hend⟩ := Option.bind_eq_some_iff.1 hlast
    obtain rfl := Option.some.inj hend
    exact ⟨rest, last, rfl, ends_of_scan hlast⟩

theorem IsWhole.supplied {lexemes : List Lexeme} (h : IsWhole lexemes) : Supplied lexemes := by
  rintro before l after rfl
  rw [IsWhole, List.foldlM_append] at h
  obtain ⟨⟨read, n⟩, hbefore, h⟩ := Option.bind_eq_some_iff.1 h
  rw [List.foldlM_cons] at h
  obtain ⟨⟨read', n'⟩, hl, hafter⟩ := Option.bind_eq_some_iff.1 h
  constructor
  · intro hcalls
    obtain rfl : read' = false := hcalls.scan_eq hl
    exact exists_begins hafter
  · intro hfollows
    obtain rfl : read = true := hfollows.scan_eq hl
    exact exists_ends hbefore

/-! ## Whole parts -/

/-- From `start` on the lexemes add up to an expression exactly if `P` holds. If it does not, they
are refused or leave an expression to be called for. -/
def WholeIff (start : Bool) (P : Prop) (lexemes : List Lexeme) : Prop :=
  ∀ n, (P → lexemes.foldlM scan (start, n) = some (true, n)) ∧
    (¬P → lexemes.foldlM scan (start, n) = none ∨ lexemes.foldlM scan (start, n) = some (false, n))

/-- Where an expression is called for, the lexemes do not bring it. -/
def BringNone (lexemes : List Lexeme) : Prop :=
  ∀ n, lexemes.foldlM scan (false, n) = none ∨ lexemes.foldlM scan (false, n) = some (false, n)

/-- The lexeme stands between two expressions. -/
def IsBetween (l : Lexeme) : Prop :=
  ∀ n, l.scan (true, n) = some (false, n) ∧ l.scan (false, n) = none

variable {start : Bool} {P Q : Prop} {xs ys : List Lexeme} {l : Lexeme}

theorem WholeIff.congr (h : WholeIff start P xs) (hPQ : P ↔ Q) : WholeIff start Q xs :=
  propext hPQ ▸ h

theorem WholeIff.isWhole_iff (h : WholeIff false P xs) : IsWhole xs ↔ P := by
  refine ⟨fun hwhole => ?_, (h 0).1⟩
  by_contra hP
  rcases (h 0).2 hP with hnone | hcalled
  · cases hnone.symm.trans hwhole
  · cases hcalled.symm.trans hwhole

theorem wholeIff_nil : WholeIff false False [] := fun _ => ⟨fun h => h.elim, fun _ => .inr rfl⟩

theorem wholeIff_nothing : WholeIff true True [] :=
  fun _ => ⟨fun _ => rfl, fun h => (h trivial).elim⟩

theorem wholeIff_operand (f : Fragment) : WholeIff false True [operand f] :=
  fun _ => ⟨fun _ => rfl, fun h => (h trivial).elim⟩

theorem WholeIff.append (hx : WholeIff start P xs) (hy : WholeIff true Q ys)
    (none_ys : BringNone ys) : WholeIff start (P ∧ Q) (xs ++ ys) := by
  intro n
  rw [List.foldlM_append]
  constructor
  · rintro ⟨hp, hq⟩
    rw [(hx n).1 hp]
    exact (hy n).1 hq
  · intro hnot
    by_cases hp : P
    · rw [(hx n).1 hp]
      exact (hy n).2 fun hq => hnot ⟨hp, hq⟩
    · rcases (hx n).2 hp with h | h
      · rw [h]
        exact .inl rfl
      · rw [h]
        exact none_ys n

theorem IsBetween.bringNone (h : l.IsBetween) (ys : List Lexeme) : BringNone (l :: ys) := by
  intro n
  rw [List.foldlM_cons, (h n).2]
  exact .inl rfl

theorem IsBetween.wholeIff (h : l.IsBetween) (hy : WholeIff false Q ys) :
    WholeIff true Q (l :: ys) := by
  intro n
  rw [List.foldlM_cons, (h n).1]
  exact hy n

/-- Two expressions with a lexeme between them. -/
theorem IsBetween.join (h : l.IsBetween) (hx : WholeIff start P xs) (hy : WholeIff false Q ys) :
    WholeIff start (P ∧ Q) (xs ++ l :: ys) :=
  hx.append (h.wholeIff hy) (h.bringNone ys)

/-- An expression in parentheses. -/
theorem WholeIff.close (opens : ∀ n, l.scan (false, n) = some (false, n + 1))
    (h : WholeIff false P xs) : WholeIff false P (l :: xs ++ [closing]) := by
  intro n
  rw [List.foldlM_append, List.foldlM_cons, opens n, Option.bind_eq_bind, Option.bind_some]
  constructor
  · intro hp
    rw [(h (n + 1)).1 hp]
    rfl
  · intro hnot
    rcases (h (n + 1)).2 hnot with heq | heq <;> rw [heq] <;> exact .inl rfl

theorem WholeIff.enclosed (h : WholeIff false P xs) : WholeIff false P (Criteria.enclosed xs) :=
  h.close fun _ => rfl

theorem WholeIff.select (h : WholeIff true P xs) (columns : List ColumnRef)
    (table tableAlias : String) :
    WholeIff false P (Lexeme.select columns table tableAlias :: xs) := by
  intro n
  rw [List.foldlM_cons]
  exact h n

theorem WholeIff.exist (h : WholeIff false P xs) : WholeIff false P (Lexeme.exist :: xs) := by
  intro n
  rw [List.foldlM_cons]
  exact h n

theorem WholeIff.test (h : WholeIff start P xs) (op : Operator) :
    WholeIff start P (xs ++ [.test op]) := by
  have htest : WholeIff true True [Lexeme.test op] :=
    fun _ => ⟨fun _ => rfl, fun hnot => (hnot trivial).elim⟩
  exact (h.append htest fun _ => .inl rfl).congr (and_iff_left trivial)

/-- A row of expressions needs at least one. -/
theorem WholeIff.intercalate {α : Type} {Q : α → Prop} {row : α → List Lexeme}
    (between : l.IsBetween) {items : List α} (h : ∀ x ∈ items, WholeIff false (Q x) (row x)) :
    WholeIff false (items ≠ [] ∧ ∀ x ∈ items, Q x) ([l].intercalate (items.map row)) := by
  match items, h with
  | [], _ => exact wholeIff_nil.congr (by simp)
  | [x], h =>
    rw [List.map_singleton, List.intercalate_singleton]
    exact (h x List.mem_cons_self).congr (by simp)
  | x :: y :: items, h =>
    obtain ⟨hx, hrest⟩ := List.forall_mem_cons.1 h
    have ih := WholeIff.intercalate between hrest
    rw [List.map_cons, List.map_cons, List.intercalate_cons_cons, List.append_assoc]
    exact (between.join hx ih).congr (by simp)

end Lexeme

namespace Criteria

open Lexeme (WholeIff BringNone IsBetween)

/-- A group has members, an `IN` has values, and the hops of a subquery pair columns. -/
def IsPopulated : Criteria → Prop
  | comparison op operands => op = .isIn ∨ op = .notIn → 2 ≤ operands.length
  | group _ members => members ≠ []
  | subquery select => ∀ h ∈ select.joins, h.conditions ≠ []
  | _ => True

theorem isStructural_isPopulated : IsStructural IsPopulated where
  comparison op cs ds hlength h := by
    show op = .isIn ∨ op = .notIn → 2 ≤ ds.length
    rw [hlength]
    exact h
  group op cs ds hlength h := by
    show ds ≠ []
    rw [← List.length_pos_iff, hlength]
    exact List.length_pos_iff.2 h
  equation _ _ := fun h => by simp at h
  conjunction _ hne := hne
  literal _ := trivial
  param _ := trivial
  column _ := trivial

/-- Nothing inside the condition is empty. -/
def IsFull (c : Criteria) : Prop := c.Everywhere IsPopulated

theorem isFull_comparison {op : Operator} {cs : List Criteria} :
    (comparison op cs).IsFull ↔
      (op = .isIn ∨ op = .notIn → 2 ≤ cs.length) ∧ ∀ c ∈ cs, c.IsFull :=
  everywhere_iff

theorem isFull_group {op : Connective} {cs : List Criteria} :
    (group op cs).IsFull ↔ cs ≠ [] ∧ ∀ c ∈ cs, c.IsFull :=
  everywhere_iff

theorem isFull_subquery {select : Select Criteria} :
    (subquery select).IsFull ↔
      (∀ h ∈ select.joins, h.conditions ≠ []) ∧ ∀ c ∈ select.conditions, c.IsFull :=
  everywhere_iff

variable {cs : List Criteria}

theorem wholeIff_member {P : Prop} {c : Criteria} {lexemes : List Lexeme}
    (h : WholeIff false P lexemes) (parent : Connective) :
    WholeIff false P (memberLexemes parent (c, lexemes)) := by
  unfold memberLexemes
  split
  · exact h.enclosed
  · exact h

theorem wholeIff_joined {between : Lexeme} (hbetween : between.IsBetween) (parent : Connective)
    (h : ∀ c ∈ cs, WholeIff false c.IsFull c.lexemes) :
    WholeIff false (cs ≠ [] ∧ ∀ c ∈ cs, c.IsFull)
      (joinedLexemes between parent (phrases cs)) := by
  rw [joinedLexemes, phrases_eq_map, List.map_map]
  exact WholeIff.intercalate hbetween fun c hc => wholeIff_member (h c hc) parent

theorem wholeIff_group (op : Connective) (h : ∀ c ∈ cs, WholeIff false c.IsFull c.lexemes) :
    WholeIff false (group op cs).IsFull (groupLexemes op (phrases cs)) := by
  rw [isFull_group]
  cases op with
  | and => exact wholeIff_joined (fun _ => ⟨rfl, rfl⟩) .and h
  | or => exact wholeIff_joined (fun _ => ⟨rfl, rfl⟩) .or h
  | not => exact (wholeIff_joined (fun _ => ⟨rfl, rfl⟩) .and h).close fun _ => rfl

theorem wholeIff_values (h : ∀ c ∈ cs, WholeIff false c.IsFull c.lexemes) :
    WholeIff false (cs ≠ [] ∧ ∀ c ∈ cs, c.IsFull) (valuesLexemes (phrases cs)) := by
  have comma : Lexeme.comma.IsBetween := fun _ => ⟨rfl, rfl⟩
  have several := (wholeIff_joined comma .and h).enclosed
  match cs, h with
  | [], _ => exact several
  | [c], h =>
    cases c with
    | subquery select => exact (h _ List.mem_cons_self).congr (by simp)
    | _ => exact several
  | c :: d :: cs, _ => cases c <;> exact several

theorem wholeIff_sign (op : Operator) {P Q : Prop} {xs ys : List Lexeme}
    (hx : WholeIff false P xs) (hy : WholeIff false Q ys) :
    WholeIff false (P ∧ Q) (xs ++ .sign op :: ys) :=
  IsBetween.join (fun _ => ⟨rfl, rfl⟩) hx hy

theorem wholeIff_comparison {op : Operator} (arity : op.Admits cs.length)
    (h : ∀ c ∈ cs, WholeIff false c.IsFull c.lexemes) :
    WholeIff false (comparison op cs).IsFull (comparisonLexemes op (phrases cs)) := by
  rw [isFull_comparison]
  cases op with
  | isNull | isNotNull =>
    obtain ⟨c, rfl⟩ := List.length_eq_one_iff.1 arity
    exact ((h c List.mem_cons_self).test _).congr (by simp)
  | exist =>
    obtain ⟨c, rfl⟩ := List.length_eq_one_iff.1 arity
    exact (h c List.mem_cons_self).exist.congr (by simp)
  | isIn | notIn =>
    obtain ⟨left, values, rfl⟩ := List.exists_cons_of_length_pos arity
    obtain ⟨hleft, hvalues⟩ := List.forall_mem_cons.1 h
    have htwo : 2 ≤ (left :: values).length ↔ values ≠ [] := by cases values <;> simp
    refine (wholeIff_sign _ hleft (wholeIff_values hvalues)).congr ?_
    rw [List.forall_mem_cons, htwo]
    simp [and_left_comm]
  | _ =>
    obtain ⟨left, right, rfl⟩ := List.length_eq_two.1 arity
    obtain ⟨hleft, hright⟩ := List.forall_mem_cons.1 h
    exact (wholeIff_sign _ hleft (hright right List.mem_cons_self)).congr (by simp)

/-! ## Statements -/

theorem bringNone_hops (hops : List (Hop Criteria)) : BringNone (hopsLexemes hops) := by
  cases hops with
  | nil => exact fun _ => .inr rfl
  | cons hop hops =>
    obtain ⟨kind, table, tableAlias, conditions, on, fetch⟩ := hop
    exact fun _ => .inl rfl

theorem wholeIff_hop {hop : Hop Criteria}
    (h : ∀ c ∈ hop.on, WholeIff false c.IsFull c.lexemes) :
    WholeIff true (hop.conditions ≠ [] ∧ ∀ c ∈ hop.on, c.IsFull) (hopLexemes hop) := by
  obtain ⟨kind, table, tableAlias, conditions, on, fetch⟩ := hop
  have hjoin : WholeIff true (conditions ≠ []) [.join kind table tableAlias conditions] := by
    intro n
    cases conditions with
    | nil => exact ⟨fun hne => absurd rfl hne, fun _ => .inr rfl⟩
    | cons c conditions => exact ⟨fun _ => rfl, fun hnil => absurd (List.cons_ne_nil _ _) hnil⟩
  cases on with
  | none => exact hjoin.congr (by simp)
  | some c =>
    have hand := wholeIff_member (c := c) (h c rfl) .and
    exact (IsBetween.join (fun _ => ⟨rfl, rfl⟩) hjoin hand).congr (by simp)

theorem wholeIff_hops {hops : List (Hop Criteria)}
    (h : ∀ hop ∈ hops, ∀ c ∈ hop.on, WholeIff false c.IsFull c.lexemes) :
    WholeIff true (∀ hop ∈ hops, hop.conditions ≠ [] ∧ ∀ c ∈ hop.on, c.IsFull)
      (hopsLexemes hops) := by
  induction hops with
  | nil => exact Lexeme.wholeIff_nothing.congr (by simp)
  | cons hop hops ih =>
    obtain ⟨hhop, hrest⟩ := List.forall_mem_cons.1 h
    exact ((wholeIff_hop hhop).append (ih hrest) (bringNone_hops hops)).congr (by simp)

theorem wholeIff_select {select : Select Criteria}
    (h : ∀ c ∈ select.conditions, WholeIff false c.IsFull c.lexemes) :
    WholeIff false (subquery select).IsFull (selectLexemes select) := by
  obtain ⟨columns, table, tableAlias, joins, filter, parameters⟩ := select
  obtain ⟨hfilter, hjoins⟩ := Select.forall_conditions.1 h
  have hfilters : WholeIff true (∀ c ∈ filter, c.IsFull) (filterLexemes filter) ∧
      BringNone (filterLexemes filter) := by
    cases filter with
    | none => exact ⟨Lexeme.wholeIff_nothing.congr (by simp), fun _ => .inr rfl⟩
    | some c =>
      have between : Lexeme.filter.IsBetween := fun _ => ⟨rfl, rfl⟩
      exact ⟨(between.wholeIff (hfilter c rfl)).congr (by simp), between.bringNone _⟩
  have hall := (wholeIff_hops hjoins).append hfilters.1 hfilters.2
  rw [isFull_subquery, Select.forall_conditions, selectLexemes]
  refine (hall.select columns table tableAlias).congr ?_
  simp only [forall_and]
  tauto

/-- The text of a condition with the operands that the builders give is whole exactly if nothing
inside it is empty. -/
theorem wholeIff_lexemes {c : Criteria} (arity : c.Everywhere HasArity) :
    WholeIff false c.IsFull c.lexemes := by
  induction c using induction_contents with
  | comparison op cs ih =>
    rw [lexemes]
    exact wholeIff_comparison arity.here fun c hc => ih c hc (arity.contents c hc)
  | group op cs ih =>
    rw [lexemes]
    exact wholeIff_group op fun c hc => ih c hc (arity.contents c hc)
  | subquery select ih =>
    rw [lexemes]
    exact (wholeIff_select fun c hc => ih c hc (arity.contents c hc)).enclosed
  | _ =>
    rw [lexemes]
    exact (Lexeme.wholeIff_operand _).congr (by simp [IsFull, IsPopulated])

end Criteria

/-- The text of a statement is whole exactly if its hops pair columns and nothing inside its
conditions is empty. -/
theorem Select.isWhole_iff {select : Select Criteria}
    (arity : ∀ c ∈ select.conditions, c.Everywhere Criteria.HasArity) :
    Lexeme.IsWhole select.lexemes ↔
      (∀ h ∈ select.joins, h.conditions ≠ []) ∧ ∀ c ∈ select.conditions, c.IsFull := by
  rw [← Criteria.isFull_subquery]
  exact (Criteria.wholeIff_select fun c hc => Criteria.wholeIff_lexemes (arity c hc)).isWhole_iff

end JoinPath
