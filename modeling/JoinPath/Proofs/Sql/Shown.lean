import JoinPath.Proofs.Sql.Operand
import Mathlib.Data.List.Forall2
/-!
# Text that reads as a condition

Comparisons and groups by their text: `Shown` is a condition with the loosest level of its text.
Each lemma puts one construct of SQL around texts that are shown already.
-/

namespace JoinPath

open Item (word paren bare selects pieces)

/-! ## Conditions -/

/-- `s` is a condition: its items read as `c` where nothing binds looser than `level` around
them. -/
structure Shown (level : Connective) (s : String) (c : Clause) (is : List Item) : Prop where
  scanned : Scanned s is
  opens : ∃ i ∈ (bare is).head?, i.key ≠ "select"
  noFilter : ∀ i ∈ is, i.key ≠ "where"
  reads : Clause.Reads level (pieces is) c

namespace Shown

variable {s t : String} {c d : Clause} {is ks : List Item} {op : Connective}

theorem selects_eq (h : Shown op s c is) : selects is = false := by
  obtain ⟨i, hi, hkey⟩ := h.opens
  rw [selects, Option.mem_def.1 hi]
  simpa using hkey

theorem or (h : Shown op s c is) : Shown .or s c is := { h with reads := h.reads.or }

theorem and (h : Shown op s c is) (hop : op ≠ .or) : Shown .and s c is := by
  cases op with
  | not => exact { h with reads := h.reads.and_of_not }
  | and => exact h
  | or => exact absurd rfl hop

theorem paren (h : Shown op s c is) : Shown .not ("(" ++ s ++ ")") c [.paren is] where
  scanned := h.scanned.parens
  opens := ⟨.paren is, rfl, by simp [Item.key]⟩
  noFilter := by simp [Item.key]
  reads := Clause.reads_paren h.selects_eq h.reads

/-- An operand alone is a condition. -/
theorem of_operand (h : ShownOperand s c is) : Shown .not s c is := by
  obtain ⟨i, rest, rfl, hblank, hkey⟩ := h.exists_cons
  have keys : ∀ k ∈ keywords, ∀ j ∈ i :: rest, j.key ≠ k := by
    rintro k hk j hj rfl
    exact h.keys j hj hk
  refine ⟨h.scanned, ⟨i, by rw [h.bare_eq]; rfl, keys _ (by decide) i List.mem_cons_self⟩,
    keys _ (by decide), ?_, c, ?_, rfl⟩
  · exact Item.forall_mem_pieces (P := fun j => j.key ≠ "and" ∧ j.key ≠ "or") fun j hj =>
      ⟨keys _ (by decide) j hj, keys _ (by decide) j hj⟩
  · have hnot : i.key ≠ "not" := keys _ (by decide) i List.mem_cons_self
    have hunit := h.unit
    rw [Item.pieces_cons hblank] at hunit ⊢
    rwa [Clause.readNot, if_neg hnot]

/-- Two items or more that read as a comparison are a condition. -/
theorem of_comparison {i j : Item} {rest : List Item} (scanned : Scanned s is)
    (hbare : bare is = i :: j :: rest) (hfirst : i.key ≠ "select" ∧ i.key ≠ "not")
    (keys : ∀ i ∈ is, i.key ∉ breaks)
    (reads : Clause.readComparison (bare is) = some c) : Shown .not s c is := by
  have hkeys : ∀ i ∈ is, i.key ≠ "and" ∧ i.key ≠ "or" ∧ i.key ≠ "where" := by
    simpa [breaks] using keys
  refine ⟨scanned, ⟨i, by rw [hbare]; rfl, hfirst.1⟩, fun i hi => (hkeys i hi).2.2, ?_, c, ?_, rfl⟩
  · exact Item.forall_mem_pieces (P := fun i => i.key ≠ "and" ∧ i.key ≠ "or") fun i hi =>
      ⟨(hkeys i hi).1, (hkeys i hi).2.1⟩
  · rw [← Item.map_fst_pieces] at hbare reads
    generalize pieces is = ps at hbare reads ⊢
    obtain _ | ⟨p, _ | ⟨q, ps⟩⟩ := ps
    · cases hbare
    · simp at hbare
    · obtain ⟨rfl, rfl, rfl⟩ : p.1 = i ∧ q.1 = j ∧ ps.map Prod.fst = rest := by simpa using hbare
      rw [Clause.readNot, if_neg hfirst.2, Clause.readUnit]
      · exact reads
      · rintro inner condition ⟨⟩

/-- An operand and text that says something about it. -/
theorem of_predicate (h : ShownOperand s c is) (ht : Scanned t ks) (hbegins : beginsLone t = true)
    (hne : bare ks ≠ []) (hdot : beginsWithDot (bare ks) = false)
    (keys : ∀ i ∈ ks, i.key ∉ breaks)
    (reads : Clause.readPredicate c (bare ks) = some d) : Shown .not (s ++ t) d (is ++ ks) := by
  obtain ⟨j, more, hks⟩ := List.exists_cons_of_ne_nil hne
  obtain ⟨i, rest, heq, -, hkey⟩ := h.exists_cons
  have notKeyword : ∀ k ∈ keywords, i.key ≠ k := by
    rintro k hk rfl
    exact hkey hk
  have hbare : bare (is ++ ks) = is ++ bare ks := by rw [Item.bare_append, h.bare_eq]
  have hlong : ∃ k rest, bare (is ++ ks) = i :: k :: rest := by
    rw [hbare, heq, hks]
    cases rest with
    | nil => exact ⟨j, more, rfl⟩
    | cons k rest => exact ⟨k, _, rfl⟩
  obtain ⟨k, rest, hlong⟩ := hlong
  refine of_comparison (h.scanned.append ht (seam_of_begins hbegins s)) hlong
    ⟨notKeyword _ (by decide), notKeyword _ (by decide)⟩ ?_ ?_
  · intro k hk
    rcases List.mem_append.1 hk with hk | hk
    · exact h.not_breaks k hk
    · exact keys k hk
  · rw [hbare, h.readComparison _ hdot, reads]

end Shown

/-! ## Comparisons -/

namespace Shown

variable {s t : String} {c d : Clause} {is ks : List Item}

/-- `IS NULL` or `IS NOT NULL` behind an operand. -/
theorem test {op : Operator} (hop : op = .isNull ∨ op = .isNotNull) (h : ShownOperand s c is) :
    Shown .not (s ++ (" " ++ op.sql)) (.comparison op [c])
      (is ++ (tokens (" " ++ op.sql)).map word) := by
  rcases hop with rfl | rfl
  all_goals
    exact of_predicate h (.of_tokens _ rfl (by decide) (by decide)) rfl (by decide) rfl (by decide)
      rfl

/-- What a comparison of two operands needs of its operator. -/
theorem sign_of_between {op : Operator} (h : Operator.between? (asciiLower op.sql) = some op) :
    Scanned (" " ++ op.sql ++ " ") ([" ", op.sql, " "].map word) ∧
      (word op.sql).isToken " " = false ∧ (word op.sql).isToken "." = false ∧
      (∀ i ∈ [" ", op.sql, " "].map word, i.key ∉ breaks) ∧ (word op.sql).key ≠ "is" := by
  cases op with
  | isIn | notIn | isNull | isNotNull | exist => exact absurd h (by decide)
  | _ =>
    exact ⟨.of_tokens _ (by decide) (by decide) (by decide), by decide, by decide, by decide,
      by decide⟩

theorem between {op : Operator} (hop : Operator.between? (asciiLower op.sql) = some op)
    (hs : ShownOperand s c is) (ht : ShownOperand t d ks) :
    Shown .not (s ++ (" " ++ op.sql ++ " " ++ t)) (.comparison op [c, d])
      (is ++ ([" ", op.sql, " "].map word ++ ks)) := by
  obtain ⟨scanned, hblank, hdot, keys, his⟩ := sign_of_between hop
  have seam : Seam (" " ++ op.sql ++ " ") t :=
    seam_of_ends (endsLone_append rfl (by decide) (" " ++ op.sql)) t
  have begins : beginsLone (" " ++ op.sql ++ " " ++ t) = true := by
    rw [String.append_assoc, String.append_assoc]
    exact beginsLone_append rfl (by decide) _
  have hbare : bare ([" ", op.sql, " "].map word ++ ks) = word op.sql :: ks := by
    rw [Item.bare_append, ht.bare_eq]
    simp [bare, hblank]
  have hread : Clause.readPredicate c (word op.sql :: ks) = some (.comparison op [c, d]) := by
    have hne : ∀ keys, (word op.sql :: ks).map Item.key ≠ "is" :: keys := by
      intro keys heq
      exact his (List.cons.inj heq).1
    simp only [Clause.readPredicate, if_neg (hne _), Item.key, hop, ht.readOnly, Option.map_some]
  refine of_predicate hs (scanned.append ht.scanned seam) begins ?_ ?_ ?_ (hbare ▸ hread)
  · rw [hbare]
    exact List.cons_ne_nil _ _
  · rw [hbare]
    exact hdot
  · intro i hi
    rcases List.mem_append.1 hi with hi | hi
    · exact keys i hi
    · exact ht.not_breaks i hi

theorem exist (h : ShownOperand s c is) :
    Shown .not ("EXISTS " ++ s) (.comparison .exist [c]) (["EXISTS", " "].map word ++ is) := by
  have scanned : Scanned "EXISTS " (["EXISTS", " "].map word) :=
    .of_tokens _ (by decide) (by decide) (by decide)
  have hbare : bare (["EXISTS", " "].map word ++ is) = word "EXISTS" :: is := by
    rw [Item.bare_append, h.bare_eq]
    rfl
  obtain ⟨i, rest, rfl, -⟩ := h.exists_cons
  refine of_comparison (scanned.append h.scanned (seam_of_ends rfl s)) hbare (by decide) ?_ ?_
  · intro j hj
    have words : ∀ j ∈ ["EXISTS", " "].map word, j.key ∉ breaks := by decide
    rcases List.mem_append.1 hj with hj | hj
    · exact words j hj
    · exact h.not_breaks j hj
  · rw [hbare]
    have hexists : (word "EXISTS").key = "exists" := by decide
    simp [Clause.readComparison, hexists, h.readOnly]

end Shown

/-! ## Values of an `IN` -/

/-- `s` is what an `IN` takes for the values `cs`. -/
structure ShownValues (s : String) (cs : List Clause) (inner : List Item) : Prop where
  scanned : Scanned s [paren inner]
  reads : Clause.readValues [paren inner] = some cs

namespace ShownValues

variable {s t : String} {c : Clause} {cs : List Clause} {is inner : List Item}

/-- An operand, the words `ts` and values. -/
theorem of_words {sep : String} {ts : List String} {d : Clause} (h : ShownOperand s c is)
    (hv : ShownValues t cs inner) (hsep : Scanned sep (ts.map word)) (hsepne : sep ≠ "")
    (hbegins : beginsLone sep = true) (hends : endsLone sep = true) (hne : bare (ts.map word) ≠ [])
    (hdot : beginsWithDot (bare (ts.map word)) = false) (keys : ∀ i ∈ ts.map word, i.key ∉ breaks)
    (reads : Clause.readPredicate c (bare (ts.map word) ++ [paren inner]) = some d) :
    Shown .not (s ++ (sep ++ t)) d (is ++ (ts.map word ++ [paren inner])) := by
  have hbare : bare (ts.map word ++ [paren inner]) = bare (ts.map word) ++ [paren inner] := by
    rw [Item.bare_append]
    rfl
  obtain ⟨i, more, hcons⟩ := List.exists_cons_of_ne_nil hne
  refine .of_predicate h (hsep.append hv.scanned (seam_of_ends hends t))
    (beginsLone_append hbegins hsepne t) (by simp [hbare]) ?_ ?_ (hbare ▸ reads)
  · rw [hbare, hcons]
    rw [hcons] at hdot
    exact hdot
  · intro i hi
    rcases List.mem_append.1 hi with hi | hi
    · exact keys i hi
    · obtain rfl := List.mem_singleton.1 hi
      show "" ∉ breaks
      decide

/-- `IN` or `NOT IN` between an operand and values. -/
theorem membership {op : Operator} (hop : op = .isIn ∨ op = .notIn) (h : ShownOperand s c is)
    (hv : ShownValues t cs inner) :
    Shown .not (s ++ (" " ++ op.sql ++ " " ++ t)) (.comparison op (c :: cs))
      (is ++ ((tokens (" " ++ op.sql ++ " ")).map word ++ [paren inner])) := by
  rcases hop with rfl | rfl
  all_goals
    refine hv.of_words h (.of_tokens _ rfl (by decide) (by decide)) (by decide) rfl rfl (by decide)
      rfl (by decide) ?_
    show (Clause.readValues [paren inner]).map _ = _
    rw [hv.reads]
    rfl

/-- An operand that reads as a subquery is in parentheses, and so it is the values of an `IN`. -/
theorem exists_of_operand {u : String} (h : ShownOperand s (.subquery u) is) :
    ∃ inner, ShownValues s [.subquery u] inner := by
  have reads := h.reads [] rfl
  obtain ⟨i, rest, rfl⟩ := List.exists_cons_of_ne_nil h.nonempty
  rw [List.append_nil] at reads
  cases i with
  | word w =>
    simp only [Clause.readOperand] at reads
    split at reads
    · split at reads
      · split at reads <;> cases reads
      · cases reads
    · split at reads
      · split at reads
        · split at reads
          · split at reads <;> cases reads
          · cases reads
        · cases reads
      · cases reads
  | paren inner =>
    by_cases hselects : selects inner = true
    · obtain ⟨rfl, rfl⟩ : (paren inner).text = u ∧ rest = [] := by
        simpa [Clause.readOperand, hselects] using reads
      exact ⟨inner, h.scanned, by simp [Clause.readValues, hselects]⟩
    · simp [Clause.readOperand, hselects] at reads

/-- Operands with commas between them. -/
theorem exists_list {ss : List String} {cs : List Clause}
    (h : List.Forall₂ (fun s c => ∃ is, ShownOperand s c is) ss cs) (hne : ss ≠ []) :
    ∃ is, Scanned (", ".intercalate ss) is ∧ (∃ i ∈ (bare is).head?, i.key ≠ "select") ∧
      ((bare is).splitOnP fun i => i.isToken ",").mapM Clause.readOnly = some cs := by
  induction h with
  | nil => exact absurd rfl hne
  | @cons s c ss cs hs hss ih =>
    obtain ⟨is, his⟩ := hs
    obtain ⟨i, rest, heq, -, hkey⟩ := his.exists_cons
    have hopen : i.key ≠ "select" := by
      intro hk
      rw [hk] at hkey
      exact hkey (by decide)
    cases hss with
    | nil =>
      refine ⟨is, by simpa using his.scanned, ⟨i, by rw [his.bare_eq, heq]; rfl, hopen⟩, ?_⟩
      rw [his.bare_eq, List.splitOnP_eq_singleton his.comma]
      simp [his.readOnly]
    | @cons t d ss cs ht hss =>
      obtain ⟨ks, hks, -, hread⟩ := ih (List.cons_ne_nil _ _)
      have comma : Scanned ", " ([",", " "].map word) :=
        .of_tokens _ (by decide) (by decide) (by decide)
      have hbare : bare (is ++ [",", " "].map word ++ ks) = is ++ word "," :: bare ks := by
        rw [Item.bare_append, Item.bare_append, his.bare_eq, List.append_assoc]
        rfl
      refine ⟨is ++ [",", " "].map word ++ ks, ?_, ⟨i, by rw [hbare, heq]; rfl, hopen⟩, ?_⟩
      · rw [String.intercalate_cons_cons]
        exact his.scanned.between comma hks (by decide) rfl rfl
      · rw [hbare, List.splitOnP_append_cons _ _ rfl, List.mapM_append,
          List.splitOnP_eq_singleton his.comma, hread]
        simp [his.readOnly]

/-- A list of values in parentheses. -/
theorem exists_of_list {ss : List String} {cs : List Clause}
    (h : List.Forall₂ (fun s c => ∃ is, ShownOperand s c is) ss cs) (hne : ss ≠ []) :
    ∃ is, ShownValues ("(" ++ ", ".intercalate ss ++ ")") cs is := by
  obtain ⟨is, scanned, ⟨i, hi, hkey⟩, reads⟩ := exists_list h hne
  have hselects : selects is = false := by
    rw [selects, Option.mem_def.1 hi]
    simpa using hkey
  exact ⟨is, scanned.parens, by rw [Clause.readValues, hselects, ← reads]; rfl⟩

end ShownValues

/-! ## Groups -/

namespace Shown

variable {s : String} {c : Clause} {is : List Item} {op : Connective}

/-- What stands between the members of a group is its word between blanks. -/
theorem scanned_separator (hop : op ≠ .not) :
    ∃ w, Scanned op.separator ([" ", w, " "].map word) ∧ (word w).isToken " " = false ∧
      (word w).key = op.key ∧ op.separator ≠ "" ∧ beginsLone op.separator = true ∧
      endsLone op.separator = true := by
  cases op with
  | not => exact absurd rfl hop
  | and =>
    exact ⟨"AND", .of_tokens _ (by decide) (by decide) (by decide), by decide, by decide, by decide,
      rfl, rfl⟩
  | or =>
    exact ⟨"OR", .of_tokens _ (by decide) (by decide) (by decide), by decide, by decide, by decide,
      rfl, rfl⟩

/-- Members that are conditions at the level of a group are the group when they are written with its
word between them. -/
theorem exists_group (hop : op ≠ .not) {ss : List String} {cs : List Clause}
    (h : List.Forall₂ (fun s c => ∃ is, Shown op s c is) ss cs) (hne : ss ≠ []) :
    ∃ is, Shown op (op.separator.intercalate ss) (.group op cs) is := by
  induction h with
  | nil => exact absurd rfl hne
  | @cons s c ss cs hs hss ih =>
    obtain ⟨is, his⟩ := hs
    cases hss with
    | nil =>
      refine ⟨is, ?_⟩
      rw [String.intercalate_singleton]
      exact { his with reads := Clause.reads_group_singleton hop his.reads }
    | @cons t d ss cs ht hss =>
      obtain ⟨ks, hks⟩ := ih (List.cons_ne_nil _ _)
      obtain ⟨w, scanned, hblank, hkey, hsep, hbegins, hends⟩ := scanned_separator hop
      obtain ⟨i, hi, hopen⟩ := his.opens
      refine ⟨is ++ [" ", w, " "].map word ++ ks, ?_, ⟨i, ?_, hopen⟩, ?_, ?_⟩
      · rw [String.intercalate_cons_cons]
        exact his.scanned.between scanned hks.scanned hsep hbegins hends
      · rw [Item.bare_append, Item.bare_append, List.append_assoc, List.head?_append,
          Option.mem_def.1 hi]
        rfl
      · have hblankKey : (word " ").key ≠ "where" := by decide
        have hword : (word w).key ≠ "where" := by
          rw [hkey]
          cases op <;> decide
        intro j hj
        simp only [List.mem_append, List.map_cons, List.map_nil, List.mem_cons, List.not_mem_nil,
          or_false] at hj
        rcases hj with (hj | rfl | rfl | rfl) | hj
        · exact his.noFilter j hj
        · exact hblankKey
        · exact hword
        · exact hblankKey
        · exact hks.noFilter j hj
      · have hsep : pieces ([" ", w, " "].map word) = [(word w, none)] := by
          simp [pieces, hblank, Item.read]
        rw [Item.pieces_append, Item.pieces_append, hsep, List.append_assoc]
        exact Clause.reads_group_cons hop hkey his.reads hks.reads

theorem not_parens (s : String) : "NOT (" ++ s ++ ")" = "NOT " ++ ("(" ++ s ++ ")") := by
  rw [← String.append_assoc, ← String.append_assoc]
  rfl

/-- A `NOT` before parentheses. -/
theorem negation (h : Shown op s c is) :
    Shown .not ("NOT (" ++ s ++ ")") (.group .not [c]) ([word "NOT", word " "] ++ [.paren is]) := by
  have scanned : Scanned "NOT " (["NOT", " "].map word) :=
    .of_tokens _ (by decide) (by decide) (by decide)
  rw [not_parens]
  refine ⟨scanned.append h.paren.scanned (seam_of_ends rfl _), ⟨word "NOT", rfl, by decide⟩, ?_, ?_⟩
  · have words : ∀ i ∈ [word "NOT", word " "], i.key ≠ "where" := by decide
    intro i hi
    rcases List.mem_append.1 hi with hi | hi
    · exact words i hi
    · exact h.paren.noFilter i hi
  · have hkey : (word "NOT").key = "not" := by decide
    exact Clause.reads_not hkey h.paren.reads

end Shown

end JoinPath
