import JoinPath.Proofs.Sql.Marks
import JoinPath.Proofs.Sql.Balanced
/-!
# Text that reads back with any operands

Text by its marks (`Marked`), and what it then is: an operand that nothing around it can enter, a
comparison about which more can be said behind it, or a condition at one of the three levels
(`Legible`). Each lemma puts one construct of SQL around texts that are legible already.
-/

namespace JoinPath

open Item (word paren bare selects)
open Mark (put pieces grammar isConnective readUnit readChain readRow readList operand? values?)

/-! ## Marks of texts -/

/-- No point comes first, so a name may stand before. -/
def Mark.Free (ms : List Mark) : Prop := ∀ name, ms.head? ≠ some (.dotted name)

theorem Mark.Free.append {ms ns : List Mark} (hm : Free ms) (hn : Free ns) : Free (ms ++ ns) := by
  cases ms with
  | nil => exact hn
  | cons m ms => exact hm

/-- `s` is balanced text that comes to the marks `ms`, whatever marks follow. -/
structure Marked (s : String) (ms : List Mark) (is : List Item) : Prop
    extends Clear ["select"] s is where
  commas : ∀ i ∈ is, i.isToken "," = false
  free : Mark.Free ms
  puts (rest : List Mark) (h : Mark.Free rest) : (pieces is).foldrM put rest = some (ms ++ rest)

namespace Marked

variable {s t w : String} {ms ns : List Mark} {is ks : List Item}

theorem empty : Marked "" [] [] where
  scanned := .empty
  clear := by simp
  commas := by simp
  free := by simp [Mark.Free]
  puts _ _ := rfl

theorem append (hs : Marked s ms is) (ht : Marked t ns ks) (seam : Seam s t) :
    Marked (s ++ t) (ms ++ ns) (is ++ ks) where
  toClear := hs.toClear.append ht.toClear seam
  commas i hi := (List.mem_append.1 hi).elim (hs.commas i) (ht.commas i)
  free := hs.free.append ht.free
  puts rest hrest := by
    rw [Mark.pieces_append, List.foldrM_append, ht.puts rest hrest]
    show (pieces is).foldrM put (ns ++ rest) = _
    rw [hs.puts _ (ht.free.append hrest), List.append_assoc]

/-- Words before a text, which may join its marks. -/
theorem after_words {ts : List String} (ht : Marked t ms ks) (htokens : tokens w = ts)
    (seam : Seam w t)
    (words : ∀ u ∈ ts, u ≠ "(" ∧ u ≠ ")" ∧ u ≠ "," ∧ asciiLower u ≠ "select")
    (free : Mark.Free ns)
    (puts : ∀ rest, (pieces (ts.map word)).foldrM put (ms ++ rest) = some (ns ++ rest)) :
    Marked (w ++ t) ns (ts.map word ++ ks) := by
  have scanned : Scanned w (ts.map word) :=
    .of_tokens ts htokens (fun h => (words _ h).1 rfl) (fun h => (words _ h).2.1 rfl)
  have clear : Clear ["select"] w (ts.map word) := by
    refine ⟨scanned, fun i hi => ?_⟩
    obtain ⟨u, hu, rfl⟩ := List.mem_map.1 hi
    simpa [Item.key] using (words u hu).2.2.2
  refine { clear.append ht.toClear seam with commas := ?_, free, puts := ?_ }
  · intro i hi
    rcases List.mem_append.1 hi with hi | hi
    · obtain ⟨u, hu, rfl⟩ := List.mem_map.1 hi
      exact beq_false_of_ne (words u hu).2.2.1
    · exact ht.commas i hi
  · intro rest hrest
    rw [Mark.pieces_append, List.foldrM_append, ht.puts rest hrest]
    exact puts rest

theorem of_words {ts : List String} (htokens : tokens w = ts)
    (words : ∀ u ∈ ts, u ≠ "(" ∧ u ≠ ")" ∧ u ≠ "," ∧ asciiLower u ≠ "select")
    (free : Mark.Free ns)
    (puts : ∀ rest, (pieces (ts.map word)).foldrM put rest = some (ns ++ rest)) :
    Marked w ns (ts.map word) := by
  have seam : Seam w "" := fun _ _ _ h => nomatch h
  have := after_words empty htokens seam words free puts
  rwa [String.append_empty, List.append_nil] at this

/-- An operand is one mark. -/
theorem of_operand {c : Clause} (h : ShownOperand s c is)
    (puts : ∀ rest, Mark.Free rest →
      (is.map fun i => (i, Mark.contents i)).foldrM put rest = some (.operand c :: rest)) :
    Marked s [.operand c] is where
  scanned := h.scanned
  clear i hi hmem := h.keys i hi (List.mem_singleton.1 hmem ▸ by decide)
  commas := h.comma
  free := by simp [Mark.Free]
  puts rest hrest := by
    rw [Mark.pieces_eq, h.bare_eq, puts rest hrest]
    rfl

theorem put_name {name : String} (h : isName name = true) (contents : Option (List Clause))
    (ms : List Mark) : put (word name, contents) ms = some (Mark.putName name ms) := by
  simp [put, h]

theorem putName_of_free (name : String) (h : Mark.Free ms) :
    Mark.putName name ms = .operand (.column (.unqualified name)) :: ms := by
  unfold Mark.putName
  split
  · exact absurd rfl (h _)
  · rfl

theorem param {name : String} (h : isName name = true) :
    Marked (":" ++ name) [.operand (.param name)] ([":", name].map word) := by
  refine of_operand (.of_param h) fun rest hrest => ?_
  simp only [List.map_cons, List.map_nil, List.foldrM_cons, List.foldrM_nil, pure_bind, put_name h,
    putName_of_free name hrest]
  rfl

theorem unqualified {name : String} (h : isName name = true) :
    Marked name [.operand (.column (.unqualified name))] ([name].map word) := by
  refine of_operand (.of_unqualified h) fun rest hrest => ?_
  simp only [List.map_cons, List.map_nil, List.foldrM_cons, List.foldrM_nil, pure_bind, put_name h,
    putName_of_free name hrest]

theorem qualified {tableAlias name : String} (ha : isName tableAlias = true)
    (hn : isName name = true) :
    Marked (tableAlias ++ "." ++ name) [.operand (.column (.qualified tableAlias name))]
      ([tableAlias, ".", name].map word) := by
  refine of_operand (.of_qualified ha hn) fun rest hrest => ?_
  have point (contents : Option (List Clause)) :
      put (word ".", contents) (.operand (.column (.unqualified name)) :: rest) =
        some (.dotted name :: rest) := rfl
  simp only [List.map_cons, List.map_nil, List.foldrM_cons, List.foldrM_nil, pure_bind,
    Option.bind_eq_bind, Option.bind_some, put_name hn, putName_of_free name hrest, point,
    put_name ha]
  rfl

theorem subquery {inner : List Item} (h : Scanned s inner) (hselects : selects inner = true) :
    Marked ("(" ++ s ++ ")") [.operand (.subquery ("(" ++ s ++ ")"))] [paren inner] := by
  refine of_operand (.of_subquery h hselects) fun rest _ => ?_
  simp [put, hselects, Item.text, h.text]

/-- Conditions in parentheses, with commas between. -/
theorem list {xs : List Clause} (h : Clear ["select"] s is)
    (reads : readList (pieces is) = some xs) :
    Marked ("(" ++ s ++ ")") [.list xs] [paren is] where
  scanned := h.scanned.parens
  clear := by simp [Item.key]
  commas := by simp [Item.isToken]
  free := by simp [Mark.Free]
  puts rest _ := by
    have hselects : selects is = false := by
      rw [selects]
      cases hhead : (bare is).head? with
      | none => rfl
      | some i =>
        have hi : i ∈ is := (List.mem_filter.1 (List.mem_of_mem_head? hhead)).1
        simpa using h.clear i hi
    have hcontents : Mark.contents (paren is) = some xs := reads
    simp [Mark.pieces_eq, bare, Item.isToken, put, hselects, hcontents]

end Marked

/-! ## Operands and comparisons -/

/-- `s` is an operand that nothing around it can enter. -/
def LegibleOperand (s : String) (c : Clause) : Prop :=
  ∃ m is x, Marked s [m] is ∧ operand? m = some x ∧ x.merged = c.merged

/-- `s` is a comparison, or an operand, about which more can be said behind it. -/
def LegibleChain (s : String) (c : Clause) : Prop :=
  ∃ m ns is left x, Marked s (m :: ns) is ∧ operand? m = some left ∧
    (∀ n ∈ ns, isConnective .and n = false ∧ isConnective .or n = false) ∧
    (∀ more, readChain left (ns ++ more) = readChain x more) ∧ x.merged = c.merged

/-- `s` is a condition, and nothing binds looser than `level` in it outside parentheses. -/
def Legible (level : Connective) (s : String) (c : Clause) : Prop :=
  ∃ ms is, Marked s ms is ∧ grammar.Reads Clause.merged level ms c

/-- `s` is what an `IN` takes for the values `cs`. -/
def LegibleValues (s : String) (cs : List Clause) : Prop :=
  ∃ m is xs, Marked s [m] is ∧ values? m = some xs ∧ xs.map Clause.merged = cs.map Clause.merged

variable {s t : String} {c d : Clause} {cs : List Clause} {op : Operator}

theorem Mark.isConnective_of_operand {m : Mark} {x : Clause} (h : operand? m = some x)
    (inner : Connective) : isConnective inner m = false := by
  cases m with
  | connective => cases h
  | _ => rfl

theorem Mark.readUnit_of_operand {m : Mark} {x : Clause} (h : operand? m = some x)
    (ms : List Mark) : readUnit (m :: ms) = readChain x ms := by
  cases m with
  | operand | list => simp [readUnit, h]
  | _ => cases h

theorem LegibleOperand.chain (h : LegibleOperand s c) : LegibleChain s c := by
  obtain ⟨m, is, x, marked, hm, hx⟩ := h
  exact ⟨m, [], is, x, x, marked, hm, by simp, fun _ => rfl, hx⟩

theorem LegibleOperand.of_marked {is : List Item} (h : Marked s [.operand c] is) :
    LegibleOperand s c := ⟨_, is, c, h, rfl, rfl⟩

/-- A text behind a comparison makes another one of it. -/
theorem LegibleChain.append {ns : List Mark} {ks : List Item} {ys : List Clause}
    (h : LegibleChain s c) (ht : Marked t ns ks) (hbegins : beginsLone t = true)
    (apart : ∀ m ∈ ns, isConnective .and m = false ∧ isConnective .or m = false)
    (reads : ∀ x more, readChain x (ns ++ more) = readChain (.comparison op (x :: ys)) more)
    (hys : ys.map Clause.merged = cs.map Clause.merged) :
    LegibleChain (s ++ t) (.comparison op (c :: cs)) := by
  obtain ⟨m, ms, is, left, x, marked, hm, within, chain, hx⟩ := h
  refine ⟨m, ms ++ ns, _, left, .comparison op (x :: ys),
    marked.append ht (seam_of_begins hbegins s), hm, ?_, fun more => ?_, ?_⟩
  · exact fun n hn => (List.mem_append.1 hn).elim (within n) (apart n)
  · rw [List.append_assoc, chain, reads]
  · rw [Clause.merged_comparison, Clause.merged_comparison, List.map_cons, List.map_cons, hx, hys]

theorem LegibleChain.test (hop : op = .isNull ∨ op = .isNotNull) (h : LegibleChain s c) :
    LegibleChain (s ++ (" " ++ op.sql)) (.comparison op [c]) := by
  have words : Marked (" " ++ op.sql) [.test op] ((tokens (" " ++ op.sql)).map word) := by
    rcases hop with rfl | rfl <;>
      exact .of_words rfl (by decide) (by simp [Mark.Free]) fun _ => rfl
  have begins : beginsLone (" " ++ op.sql) = true := beginsLone_append rfl (by decide) _
  exact h.append words begins (by simp [isConnective]) (fun _ _ => rfl) rfl

theorem LegibleChain.between (hop : Operator.between? (asciiLower op.sql) = some op)
    (h : LegibleChain s c) (ht : LegibleOperand t d) :
    LegibleChain (s ++ (" " ++ op.sql ++ " " ++ t)) (.comparison op [c, d]) := by
  obtain ⟨m, is, y, marked, hm, hy⟩ := ht
  have sign : Marked (" " ++ op.sql ++ " " ++ t) [.between op, m]
      ([" ", op.sql, " "].map word ++ is) := by
    refine marked.after_words ?_ (seam_of_ends ?_ t) ?_ (by simp [Mark.Free]) fun rest => ?_
    all_goals
      cases op with
      | isIn | notIn | isNull | isNotNull | exist => exact absurd hop (by decide)
      | _ => first | decide | rfl
  have begins : beginsLone (" " ++ op.sql ++ " " ++ t) = true := by
    rw [String.append_assoc, String.append_assoc]
    exact beginsLone_append rfl (by decide) _
  have right : [y].map Clause.merged = [d].map Clause.merged := by simp [hy]
  refine h.append sign begins ?_ (fun x more => ?_) right
  · have apart := Mark.isConnective_of_operand hm
    exact List.forall_mem_cons.2 ⟨⟨rfl, rfl⟩, by simp [apart]⟩
  · show (operand? m).bind _ = _
    rw [hm]
    rfl

/-- A word that is no name, and blanks. -/
theorem Mark.puts_word {w key : String} {ts : List String} (hbare : bare (ts.map word) = [word w])
    (hw : isName w = false) (hkey : asciiLower w = key) (ms : List Mark) :
    (pieces (ts.map word)).foldrM put ms = putKey key ms := by
  simp [pieces_eq, hbare, put, hw, hkey]

theorem Mark.putKey_not {m : Mark} (h : (operand? m).isSome = true) (ms : List Mark) :
    putKey "not" (m :: ms) = some (connective .not :: m :: ms) := by
  cases m with
  | operand | list => rfl
  | _ => cases h

theorem Mark.putKey_in (m : Mark) (ms : List Mark) :
    putKey "in" (m :: ms) = (values? m).map fun values => among .isIn values :: ms := by
  rcases m with (_ | _ | _ | _ | _ | ⟨_ | _, _⟩) | _ | _ | _ | _ | _ | _ | (_ | _ | _) <;> rfl

theorem Mark.puts_membership {m : Mark} {xs : List Clause} (hop : op = .isIn ∨ op = .notIn)
    (hm : values? m = some xs) (rest : List Mark) :
    (pieces ((tokens (" " ++ op.sql ++ " ")).map word)).foldrM put (m :: rest) =
      some (among op xs :: rest) := by
  have hkey : asciiLower "IN" = "in" := by decide
  have puts : (pieces ([" ", "IN", " "].map word)).foldrM put (m :: rest) =
      some (among .isIn xs :: rest) := by
    rw [Mark.puts_word rfl (by decide) hkey, Mark.putKey_in, hm]
    rfl
  rcases hop with rfl | rfl
  · exact puts
  · show (pieces ([" ", "NOT"].map word ++ [" ", "IN", " "].map word)).foldrM put (m :: rest) = _
    rw [Mark.pieces_append, List.foldrM_append, puts]
    rfl

theorem LegibleChain.membership (hop : op = .isIn ∨ op = .notIn) (h : LegibleChain s c)
    (hv : LegibleValues t cs) :
    LegibleChain (s ++ (" " ++ op.sql ++ " " ++ t)) (.comparison op (c :: cs)) := by
  obtain ⟨m, is, xs, marked, hm, hxs⟩ := hv
  have words : Marked (" " ++ op.sql ++ " " ++ t) [.among op xs]
      ((tokens (" " ++ op.sql ++ " ")).map word ++ is) := by
    refine marked.after_words rfl (seam_of_ends (endsLone_append rfl (by decide) _) t) ?_
      (by simp [Mark.Free]) (Mark.puts_membership hop hm)
    rcases hop with rfl | rfl <;> decide
  have begins : beginsLone (" " ++ op.sql ++ " " ++ t) = true := by
    rw [String.append_assoc, String.append_assoc]
    exact beginsLone_append rfl (by decide) _
  exact h.append words begins (by simp [isConnective]) (fun _ _ => rfl) hxs

theorem LegibleOperand.exist {inner : List Item} (h : Scanned s inner)
    (hselects : selects inner = true) :
    LegibleOperand ("EXISTS " ++ ("(" ++ s ++ ")"))
      (.comparison .exist [.subquery ("(" ++ s ++ ")")]) :=
  have htokens : tokens "EXISTS " = ["EXISTS", " "] := by decide
  .of_marked ((Marked.subquery h hselects).after_words htokens (seam_of_ends rfl _) (by decide)
    (by simp [Mark.Free]) fun _ => rfl)

/-! ## Rows and lists -/

theorem Marked.readRow_eq {ms : List Mark} {is : List Item} (h : Marked s ms is) :
    readRow (pieces is) = grammar.readOr ms := by
  have hfree : Mark.Free [] := by simp [Mark.Free]
  rw [readRow, Mark.marks, h.puts [] hfree, List.append_nil]
  rfl

/-- Text that reads as one condition, without a comma outside parentheses. -/
structure IsRow (s : String) (is : List Item) (x : Clause) : Prop
    extends Clear ["select"] s is where
  commas : ∀ i ∈ is, i.isToken "," = false
  reads : readRow (pieces is) = some x

theorem Legible.exists_isRow {level : Connective} (h : Legible level s c) :
    ∃ is x, IsRow s is x ∧ x.merged = c.merged := by
  obtain ⟨ms, is, marked, reads⟩ := h
  obtain ⟨x, hx, hmerged⟩ := reads.exists_readOr Clause.merges_merged
  exact ⟨is, x, ⟨marked.toClear, marked.commas, marked.readRow_eq.trans hx⟩, hmerged⟩

theorem IsRow.pieces_ne_nil {is : List Item} {x : Clause} (h : IsRow s is x) : pieces is ≠ [] := by
  intro hnil
  have reads := h.reads
  rw [hnil] at reads
  cases reads

theorem IsRow.split {is : List Item} {x : Clause} (h : IsRow s is x) :
    (pieces is).splitOnP (fun p => p.1.isToken ",") = [pieces is] := by
  refine List.splitOnP_eq_singleton fun p hp => ?_
  rw [Mark.pieces_eq] at hp
  obtain ⟨i, hi, rfl⟩ := List.mem_map.1 hp
  exact h.commas i (List.mem_filter.1 hi).1

theorem IsRow.readList {is : List Item} {x : Clause} (h : IsRow s is x) :
    Mark.readList (pieces is) = some [x] := by
  rw [Mark.readList, if_neg (by simpa using h.pieces_ne_nil), h.split]
  simp [h.reads]

theorem IsRow.readList_cons {is ks : List Item} {x : Clause} {ys : List Clause} (h : IsRow s is x)
    (hne : pieces ks ≠ []) (hks : Mark.readList (pieces ks) = some ys) :
    Mark.readList (pieces (is ++ [",", " "].map word ++ ks)) = some (x :: ys) := by
  have hpieces : pieces (is ++ [",", " "].map word ++ ks) =
      pieces is ++ (word ",", none) :: pieces ks := by
    simp [Mark.pieces_eq, bare, Item.isToken, Mark.contents]
  rw [Mark.readList, if_neg (by simpa using hne)] at hks
  rw [Mark.readList, hpieces, if_neg (by simp), List.splitOnP_append_cons _ _ rfl, h.split,
    List.mapM_append, hks]
  simp [h.reads]

/-- Conditions with commas between them. -/
theorem exists_readList {ss : List String} (h : List.Forall₂ (Legible .or) ss cs) :
    ∃ is xs, Clear ["select"] (", ".intercalate ss) is ∧ (ss ≠ [] → pieces is ≠ []) ∧
      readList (pieces is) = some xs ∧ xs.map Clause.merged = cs.map Clause.merged := by
  induction h with
  | nil => exact ⟨[], [], ⟨.empty, by simp⟩, fun h => absurd rfl h, rfl, rfl⟩
  | @cons s c ss cs hs hss ih =>
    obtain ⟨is, x, row, hx⟩ := hs.exists_isRow
    cases hss with
    | nil =>
      exact ⟨is, [x], by simpa using row.toClear, fun _ => row.pieces_ne_nil, row.readList,
        by simp [hx]⟩
    | @cons t d ss cs ht hss =>
      obtain ⟨ks, ys, clear, hne, reads, hys⟩ := ih
      have hne := hne (List.cons_ne_nil _ _)
      have comma : Clear ["select"] ", " ([",", " "].map word) :=
        ⟨.of_tokens _ (by decide) (by decide) (by decide), by decide⟩
      refine ⟨_, x :: ys, ?_, ?_, row.readList_cons hne reads, by simp [hx, hys]⟩
      · rw [String.intercalate_cons_cons]
        exact row.toClear.between comma clear (by decide) rfl rfl
      · intro _ hnil
        rw [Mark.pieces_append, List.append_eq_nil_iff] at hnil
        exact hne hnil.2

theorem LegibleValues.of_list {ss : List String} (h : List.Forall₂ (Legible .or) ss cs) :
    LegibleValues ("(" ++ ", ".intercalate ss ++ ")") cs := by
  obtain ⟨is, xs, clear, -, reads, hxs⟩ := exists_readList h
  exact ⟨.list xs, _, xs, .list clear reads, rfl, hxs⟩

theorem LegibleValues.of_subquery {inner : List Item} (h : Scanned s inner)
    (hselects : selects inner = true) :
    LegibleValues ("(" ++ s ++ ")") [.subquery ("(" ++ s ++ ")")] :=
  ⟨_, _, _, .subquery h hselects, rfl, rfl⟩

/-! ## Conditions -/

theorem LegibleChain.reads (h : LegibleChain s c) :
    ∃ m ns is x, Marked s (m :: ns) is ∧ (operand? m).isSome = true ∧
      (∀ n ∈ m :: ns, isConnective .and n = false ∧ isConnective .or n = false) ∧
      readUnit (m :: ns) = some x ∧ x.merged = c.merged := by
  obtain ⟨m, ns, is, left, x, marked, hm, apart, chain, hx⟩ := h
  have first := Mark.isConnective_of_operand hm
  have whole := chain []
  rw [List.append_nil] at whole
  exact ⟨m, ns, is, x, marked, by rw [hm]; rfl,
    List.forall_mem_cons.2 ⟨⟨first .and, first .or⟩, apart⟩,
    (Mark.readUnit_of_operand hm ns).trans whole, hx⟩

theorem LegibleChain.legible (h : LegibleChain s c) : Legible .not s c := by
  obtain ⟨m, ns, is, x, marked, -, apart, reads, hx⟩ := h.reads
  exact ⟨m :: ns, is, marked, apart, x, reads, hx⟩

/-- Parentheses make a condition an operand. -/
theorem Legible.operand {level : Connective} (h : Legible level s c) :
    LegibleOperand ("(" ++ s ++ ")") c := by
  obtain ⟨is, x, row, hx⟩ := h.exists_isRow
  exact ⟨.list [x], _, x, .list row.toClear row.readList, rfl, hx⟩

/-- A `NOT` is about all the comparisons behind it. -/
theorem LegibleChain.negation (h : LegibleChain s c) :
    Legible .not ("NOT " ++ s) (.group .not [c]) := by
  obtain ⟨m, ns, is, x, marked, hm, apart, reads, hx⟩ := h.reads
  have htokens : tokens "NOT " = ["NOT", " "] := by decide
  have puts (rest : List Mark) : (pieces (["NOT", " "].map word)).foldrM put (m :: ns ++ rest) =
      some (.connective .not :: m :: ns ++ rest) := by
    have hkey : asciiLower "NOT" = "not" := by decide
    rw [Mark.puts_word rfl (by decide) hkey]
    exact Mark.putKey_not hm (ns ++ rest)
  have words : Marked ("NOT " ++ s) (.connective .not :: m :: ns) _ :=
    marked.after_words htokens (seam_of_ends rfl _) (by decide) (by simp [Mark.Free]) puts
  refine ⟨_, _, words, List.forall_mem_cons.2 ⟨⟨rfl, rfl⟩, apart⟩, .group .not [x], ?_, ?_⟩
  · show (readUnit (m :: ns)).map _ = _
    rw [reads]
    rfl
  · rw [Clause.merges_merged.negation, Clause.merges_merged.negation, hx]

/-- What stands between the members of a group, before a text. -/
theorem Marked.after_separator {inner : Connective} (hop : inner ≠ .not) {ms : List Mark}
    {ks : List Item} (h : Marked t ms ks) :
    ∃ is, Marked (inner.separator ++ t) (.connective inner :: ms) (is ++ ks) := by
  have free : Mark.Free (.connective inner :: ms) := by simp [Mark.Free]
  cases inner with
  | not => exact absurd rfl hop
  | and =>
    have htokens : tokens " AND " = [" ", "AND", " "] := by decide
    exact ⟨_, h.after_words htokens (seam_of_ends rfl _) (by decide) free fun _ => rfl⟩
  | or =>
    have htokens : tokens " OR " = [" ", "OR", " "] := by decide
    exact ⟨_, h.after_words htokens (seam_of_ends rfl _) (by decide) free fun _ => rfl⟩

theorem legible_group {inner : Connective} (hop : inner ≠ .not) {ss : List String}
    (h : List.Forall₂ (Legible inner) ss cs) (hne : ss ≠ []) :
    Legible inner (inner.separator.intercalate ss) (.group inner cs) := by
  induction h with
  | nil => exact absurd rfl hne
  | @cons s c ss cs hs hss ih =>
    obtain ⟨ms, is, marked, reads⟩ := hs
    cases hss with
    | nil =>
      rw [String.intercalate_singleton]
      exact ⟨ms, is, marked, Grammar.reads_group_singleton Clause.merges_merged hop reads⟩
    | @cons t d ss cs ht hss =>
      obtain ⟨ns, ks, more, moreReads⟩ := ih (List.cons_ne_nil _ _)
      obtain ⟨-, -, -, -, hsep, hbegins, -⟩ := Shown.scanned_separator hop
      obtain ⟨js, words⟩ := more.after_separator hop
      have begins := beginsLone_append hbegins hsep (inner.separator.intercalate (t :: ss))
      have word : grammar.isWord inner (.connective inner) = true := beq_self_eq_true inner
      refine ⟨_, is ++ (js ++ ks), ?_,
        Grammar.reads_group_cons Clause.merges_merged hop word ?_ reads moreReads⟩
      · rw [String.intercalate_cons_cons, String.append_assoc]
        exact marked.append words (seam_of_begins begins s)
      · rintro rfl
        rfl

theorem levelled_legible : Criteria.Levelled Legible where
  and := fun ⟨ms, is, marked, reads⟩ hop => ⟨ms, is, marked, reads.and hop⟩
  or := fun ⟨ms, is, marked, reads⟩ => ⟨ms, is, marked, reads.or Clause.merges_merged⟩
  paren h := h.operand.chain.legible
  negation h := by
    rw [Shown.not_parens]
    exact h.operand.chain.negation
  group hop _ _ := legible_group hop

end JoinPath
