import JoinPath.Proofs.Sql.Plain
/-!
# Balanced text

Text that closes its parentheses and in which a word does not stand outside them (`Clear`). The text
of a join and of a statement is of this kind as soon as the conditions in it are, so a statement is
one unit in parentheses whatever its conditions mean.
-/

namespace JoinPath

open Item (word paren bare selects)

/-! ## Text without a word -/

/-- `s` is balanced text without these words outside parentheses. -/
structure Clear (keys : List String) (s : String) (is : List Item) : Prop where
  scanned : Scanned s is
  clear : ∀ i ∈ is, i.key ∉ keys

namespace Clear

variable {keys : List String} {s t : String} {is ks : List Item}

theorem append (hs : Clear keys s is) (ht : Clear keys t ks) (seam : Seam s t) :
    Clear keys (s ++ t) (is ++ ks) where
  scanned := hs.scanned.append ht.scanned seam
  clear i hi := (List.mem_append.1 hi).elim (hs.clear i) (ht.clear i)

theorem between {sep : String} {ms : List Item} (hs : Clear keys s is) (hsep : Clear keys sep ms)
    (ht : Clear keys t ks) (hne : sep ≠ "") (hbegins : beginsLone sep = true)
    (hends : endsLone sep = true) : Clear keys (s ++ sep ++ t) (is ++ ms ++ ks) where
  scanned := hs.scanned.between hsep.scanned ht.scanned hne hbegins hends
  clear i hi := by
    rcases List.mem_append.1 hi with hi | hi
    · exact (List.mem_append.1 hi).elim (hs.clear i) (hsep.clear i)
    · exact ht.clear i hi

theorem mono {more : List String} (h : Clear more s is) (hsub : keys ⊆ more) : Clear keys s is :=
  ⟨h.scanned, fun i hi hkey => h.clear i hi (hsub hkey)⟩

theorem of_isName (h : isName s = true) : Clear keywords s [.word s] :=
  ⟨.of_isName h, by simpa using key_of_isName h⟩

theorem of_shown {op : Connective} {c : Clause} (h : Shown op s c is) : Clear ["where"] s is :=
  ⟨h.scanned, by simpa using h.noFilter⟩

theorem exists_intercalate {sep : String} {ms : List Item} (hsep : Clear keys sep ms)
    (hne : sep ≠ "") (hbegins : beginsLone sep = true) (hends : endsLone sep = true)
    {ss : List String} (h : ∀ s ∈ ss, ∃ is, Clear keys s is) :
    ∃ is, Clear keys (sep.intercalate ss) is := by
  induction ss with
  | nil => exact ⟨[], .empty, by simp⟩
  | cons s ss ih =>
    obtain ⟨is, his⟩ := h s List.mem_cons_self
    cases ss with
    | nil => exact ⟨is, by simpa using his⟩
    | cons t ss =>
      obtain ⟨ks, hks⟩ := ih fun t ht => h t (List.mem_cons_of_mem _ ht)
      rw [String.intercalate_cons_cons]
      exact ⟨_, his.between hsep hks hne hbegins hends⟩

end Clear

/-! ## Conditions -/

namespace Criteria

/-- Balanced text without a `WHERE` outside parentheses. -/
abbrev Balanced (s : String) : Prop := ∃ is, Clear ["where"] s is

theorem Balanced.of_words {s : String} {ts : List String} (htokens : tokens s = ts)
    (words : ∀ t ∈ ts, t ≠ "(" ∧ t ≠ ")" ∧ asciiLower t ≠ "where") : Balanced s := by
  refine ⟨ts.map word, .of_tokens ts htokens (fun h => (words _ h).1 rfl)
    (fun h => (words _ h).2.1 rfl), fun i hi => ?_⟩
  obtain ⟨t, ht, rfl⟩ := List.mem_map.1 hi
  simpa [Item.key] using (words t ht).2.2

theorem Balanced.of_shown {op : Connective} {s : String} {c : Clause} (h : ∃ is, Shown op s c is) :
    Balanced s := by
  obtain ⟨is, h⟩ := h
  exact ⟨is, .of_shown h⟩

theorem Balanced.append {s t : String} (hs : Balanced s) (ht : Balanced t) (seam : Seam s t) :
    Balanced (s ++ t) :=
  ⟨_, hs.choose_spec.append ht.choose_spec seam⟩

theorem Balanced.parens {s : String} (h : Balanced s) : Balanced ("(" ++ s ++ ")") := by
  obtain ⟨is, h⟩ := h
  exact ⟨_, h.scanned.parens, by simp [Item.key]⟩

theorem balanced_member (parent : Connective) {c : Criteria} (h : Balanced c.sql) :
    Balanced (Fragment.render .named (memberFragments parent (c, c.fragments))) := by
  rw [memberFragments]
  split
  · rw [render_parenthesized]
    exact h.parens
  · exact h

theorem balanced_joined {sep : String} {ts : List String} (htokens : tokens sep = ts)
    (words : ∀ t ∈ ts, t ≠ "(" ∧ t ≠ ")" ∧ asciiLower t ≠ "where") (hne : sep ≠ "")
    (hbegins : beginsLone sep = true) (hends : endsLone sep = true) (parent : Connective)
    {cs : List Criteria} (h : ∀ c ∈ cs, Balanced c.sql) :
    Balanced (Fragment.render .named (joined sep parent (parts cs))) := by
  obtain ⟨ms, hsep⟩ := Balanced.of_words htokens words
  rw [render_joined]
  refine Clear.exists_intercalate hsep hne hbegins hends ?_
  intro s hs
  obtain ⟨c, hc, rfl⟩ := List.mem_map.1 hs
  exact balanced_member parent (h c hc)

end Criteria

/-! ## Joins -/

theorem ColumnRef.IsPlain.exists_shown {c : ColumnRef} (h : c.IsPlain) :
    ∃ is, ShownOperand c.sql (.column c) is := by
  obtain ⟨qualifier, name⟩ := c
  obtain ⟨hqualifier, hname⟩ := h
  cases qualifier with
  | none => exact ⟨_, .of_unqualified hname⟩
  | some tableAlias => exact ⟨_, .of_qualified (hqualifier tableAlias rfl) hname⟩

/-- The column pairs of a join. -/
theorem Condition.exists_shown {c : Condition} (h : c.origin.IsPlain ∧ c.destination.IsPlain) :
    ∃ is, Shown .and (c.origin.sql ++ " = " ++ c.destination.sql) c.clause is := by
  obtain ⟨is, ho⟩ := h.1.exists_shown
  obtain ⟨ks, hd⟩ := h.2.exists_shown
  have hop : Operator.between? (asciiLower Operator.eq.sql) = some .eq := by decide
  have shown := (Shown.between hop ho hd).and (by decide)
  rw [String.append_assoc]
  exact ⟨_, shown⟩

namespace Criteria

/-- The text of a join up to its `ON`. -/
def joinFront (kind : JoinKind) (table tableAlias : String) : String :=
  let word := match kind with
    | .inner => "INNER JOIN"
    | .left => "LEFT OUTER JOIN"
  " " ++ word ++ " " ++ table ++ " " ++ tableAlias

/-- The text of a join after its `ON`. -/
def joinBack (conditions : List Condition) (on : Option Criteria) : String :=
  " AND ".intercalate (conditions.map fun c => c.origin.sql ++ " = " ++ c.destination.sql) ++
    Fragment.render .named (onFragments on)

theorem render_hop (kind : JoinKind) (table tableAlias : String) (conditions : List Condition)
    (on : Option Criteria) (fetch : Bool) :
    Fragment.render .named (hopFragments ⟨kind, table, tableAlias, conditions, on, fetch⟩) =
      joinFront kind table tableAlias ++ " ON " ++ joinBack conditions on := by
  cases kind <;> simp [hopFragments, joinHead, joinFront, joinBack, String.append_assoc]

theorem exists_clear_joinFront (kind : JoinKind) {table tableAlias : String}
    (htable : isName table = true) (halias : isName tableAlias = true) :
    ∃ is, Clear ["on", "where"] (joinFront kind table tableAlias) is := by
  have blank : Clear ["on", "where"] " " [word " "] :=
    ⟨.of_tokens [" "] (by decide) (by decide) (by decide), by decide⟩
  have names : ∀ {s}, isName s = true → Clear ["on", "where"] s [word s] :=
    fun h => (Clear.of_isName h).mono (by decide)
  have back := (names htable).between blank (names halias) (by decide) rfl rfl
  cases kind with
  | inner =>
    have front : Clear ["on", "where"] " INNER JOIN " ([" ", "INNER", " ", "JOIN", " "].map word) :=
      ⟨.of_tokens _ (by decide) (by decide) (by decide), by decide⟩
    have hseam : Seam " INNER JOIN " (table ++ " " ++ tableAlias) := seam_of_ends rfl _
    have := front.append back hseam
    exact ⟨_, by simpa [joinFront, String.append_assoc] using this⟩
  | left =>
    have front : Clear ["on", "where"] " LEFT OUTER JOIN "
        ([" ", "LEFT", " ", "OUTER", " ", "JOIN", " "].map word) :=
      ⟨.of_tokens _ (by decide) (by decide) (by decide), by decide⟩
    have hseam : Seam " LEFT OUTER JOIN " (table ++ " " ++ tableAlias) := seam_of_ends rfl _
    have := front.append back hseam
    exact ⟨_, by simpa [joinFront, String.append_assoc] using this⟩

theorem balanced_joinBack {conditions : List Condition} {on : Option Criteria}
    (hconditions : ∀ c ∈ conditions, c.origin.IsPlain ∧ c.destination.IsPlain)
    (hon : ∀ c ∈ on, Balanced c.sql) : Balanced (joinBack conditions on) := by
  have htokens : tokens " AND " = [" ", "AND", " "] := by decide
  have word : Balanced " AND " := .of_words htokens (by decide)
  have pairs : Balanced (" AND ".intercalate
      (conditions.map fun c => c.origin.sql ++ " = " ++ c.destination.sql)) := by
    refine Clear.exists_intercalate word.choose_spec (by decide) rfl rfl fun s hs => ?_
    obtain ⟨c, hc, rfl⟩ := List.mem_map.1 hs
    obtain ⟨is, shown⟩ := Condition.exists_shown (hconditions c hc)
    exact ⟨is, .of_shown shown⟩
  cases on with
  | none => simpa [joinBack, onFragments] using pairs
  | some c =>
    have member := balanced_member .and (hon c rfl)
    have hbegins := beginsLone_append (s := " AND ") rfl (by decide)
      (Fragment.render .named (memberFragments .and (c, c.fragments)))
    have back := word.append member (seam_of_ends rfl _)
    simpa [joinBack, onFragments] using pairs.append back (seam_of_begins hbegins _)

theorem balanced_hop {hop : Hop Criteria} (names : hop.HasPlainNames)
    (hon : ∀ c ∈ hop.on, Balanced c.sql) :
    Balanced (Fragment.render .named (hopFragments hop)) := by
  obtain ⟨kind, table, tableAlias, conditions, on, fetch⟩ := hop
  have htokens : tokens " ON " = [" ", "ON", " "] := by decide
  obtain ⟨is, front⟩ := exists_clear_joinFront kind names.table names.tableAlias
  obtain ⟨ms, word⟩ := Balanced.of_words htokens (by decide)
  obtain ⟨ks, back⟩ := balanced_joinBack names.conditions hon
  rw [render_hop]
  exact ⟨_, (front.mono (by decide)).between word back (by decide) rfl rfl⟩

theorem beginsLone_hop (hop : Hop Criteria) :
    beginsLone (Fragment.render .named (hopFragments hop)) = true := by
  obtain ⟨kind, table, tableAlias, conditions, on, fetch⟩ := hop
  have hblank : ∀ rest, beginsLone (" " ++ rest) = true := beginsLone_append rfl (by decide)
  rw [render_hop]
  simp only [joinFront, String.append_assoc]
  exact hblank _

theorem beginsLone_hops (hop : Hop Criteria) {s : String} (h : beginsLone s = true) :
    beginsLone (Fragment.render .named (hopFragments hop) ++ s) = true := by
  by_cases hempty : Fragment.render .named (hopFragments hop) = ""
  · rwa [hempty, String.empty_append]
  · exact beginsLone_append (beginsLone_hop hop) hempty s

theorem balanced_hops {hops : List (Hop Criteria)}
    (h : ∀ hop ∈ hops, Balanced (Fragment.render .named (hopFragments hop))) :
    Balanced (Fragment.render .named (hopsFragments hops)) ∧
      beginsLone (Fragment.render .named (hopsFragments hops)) = true := by
  induction hops with
  | nil => exact ⟨⟨[], .empty, by simp⟩, rfl⟩
  | cons hop hops ih =>
    obtain ⟨first, hmore⟩ := List.forall_mem_cons.1 h
    obtain ⟨more, hbegins⟩ := ih hmore
    rw [hopsFragments, Fragment.render_named_append]
    exact ⟨first.append more (seam_of_begins hbegins _), beginsLone_hops hop hbegins⟩

/-! ## Statements -/

theorem exists_clear_column {c : ColumnRef} (h : c.IsSelectable) :
    ∃ is, Clear ["where"] c.sql is := by
  obtain ⟨qualifier, name⟩ := c
  obtain ⟨hqualifier, hname⟩ := h
  have names : ∀ {s}, isName s = true → Clear ["where"] s [word s] :=
    fun h => (Clear.of_isName h).mono (by decide)
  have star : Clear ["where"] "*" [word "*"] :=
    ⟨.of_tokens ["*"] (by decide) (by decide) (by decide), by decide⟩
  have column : Clear ["where"] name [word name] := by
    rcases hname with hname | rfl
    · exact names hname
    · exact star
  cases qualifier with
  | none => exact ⟨_, column⟩
  | some tableAlias =>
    have dot : Clear ["where"] "." [word "."] :=
      ⟨.of_tokens ["."] (by decide) (by decide) (by decide), by decide⟩
    exact ⟨_, (names (hqualifier tableAlias rfl)).between dot column (by decide) rfl rfl⟩

theorem exists_clear_selectList {tableAlias : String} {columns : List ColumnRef}
    (halias : isName tableAlias = true) (hcolumns : ∀ c ∈ columns, c.IsSelectable) :
    ∃ is, Clear ["where"] (selectList tableAlias columns) is := by
  rw [selectList]
  split
  · have star : Clear ["where"] ".*" ([".", "*"].map word) :=
      ⟨.of_tokens _ (by decide) (by decide) (by decide), by decide⟩
    have hname : Clear ["where"] tableAlias [word tableAlias] :=
      (Clear.of_isName halias).mono (by decide)
    exact ⟨_, hname.append star (seam_of_begins rfl _)⟩
  · have comma : Clear ["where"] ", " ([",", " "].map word) :=
      ⟨.of_tokens _ (by decide) (by decide) (by decide), by decide⟩
    refine Clear.exists_intercalate comma (by decide) rfl rfl ?_
    intro s hs
    obtain ⟨c, hc, rfl⟩ := List.mem_map.1 hs
    exact exists_clear_column (hcolumns c hc)

/-- The text of a statement over balanced conditions, up to its filter. -/
theorem exists_clear_front {s : Select Criteria} (names : s.HasPlainNames)
    (h : ∀ c ∈ s.conditions, Balanced c.sql) :
    ∃ rest, Clear ["where"]
      ("SELECT " ++ selectList s.tableAlias s.columns ++ " FROM " ++ s.table ++ " " ++
        s.tableAlias ++ Fragment.render .named (hopsFragments s.joins))
      (word "SELECT" :: rest) := by
  obtain ⟨-, hjoins⟩ := Select.forall_conditions.1 h
  obtain ⟨⟨js, hjs⟩, hbegins⟩ :=
    balanced_hops fun hop hhop => balanced_hop (names.joins hop hhop) (hjoins hop hhop)
  obtain ⟨cs, hcs⟩ := exists_clear_selectList names.tableAlias names.columns
  have name : ∀ {s}, isName s = true → Clear ["where"] s [word s] :=
    fun h => (Clear.of_isName h).mono (by decide)
  have hselect : Clear ["where"] "SELECT " [word "SELECT", word " "] :=
    ⟨.of_tokens ["SELECT", " "] (by decide) (by decide) (by decide), by decide⟩
  have hfrom : Clear ["where"] " FROM " ([" ", "FROM", " "].map word) :=
    ⟨.of_tokens _ (by decide) (by decide) (by decide), by decide⟩
  have blank : Clear ["where"] " " [word " "] :=
    ⟨.of_tokens [" "] (by decide) (by decide) (by decide), by decide⟩
  have source := (name names.table).between blank (name names.tableAlias) (by decide) rfl rfl
  have list := hcs.between hfrom source (by decide) rfl rfl
  have front := (hselect.append list (seam_of_ends rfl _)).append hjs (seam_of_begins hbegins _)
  exact ⟨_, by simpa [String.append_assoc] using front⟩

theorem selects_word (rest : List Item) : selects (word "SELECT" :: rest) = true := by
  have hkey : (word "SELECT").key = "select" := by decide
  simp [selects, bare, Item.isToken, hkey]

/-- A statement over balanced conditions by its items: it begins with its `SELECT`, and no `WHERE`
stands before that of its filter. -/
theorem exists_scanned_select {s : Select Criteria} (names : s.HasPlainNames)
    (h : ∀ c ∈ s.conditions, Balanced c.sql) :
    ∃ rest, (∀ i ∈ word "SELECT" :: rest, i.key ≠ "where") ∧
      (s.filter = none →
        Scanned (Fragment.render .named (selectFragments s)) (word "SELECT" :: rest)) ∧
      ∀ c ∈ s.filter, ∀ is, Scanned c.sql is →
        Scanned (Fragment.render .named (selectFragments s))
          (word "SELECT" :: rest ++ [word " ", word "WHERE", word " "] ++ is) := by
  obtain ⟨rest, front⟩ := exists_clear_front names h
  obtain ⟨columns, table, tableAlias, joins, filter, parameters⟩ := s
  refine ⟨rest, by simpa using front.clear, ?_, ?_⟩
  · rintro ⟨⟩
    simpa [selectFragments, filterFragments] using front.scanned
  · rintro c ⟨⟩ is hc
    have hwhere : Scanned " WHERE " ([" ", "WHERE", " "].map word) :=
      .of_tokens _ (by decide) (by decide) (by decide)
    have scanned := front.scanned.between hwhere hc (by decide) rfl rfl
    simpa [selectFragments, filterFragments, sql, String.append_assoc] using scanned

theorem exists_selects {s : Select Criteria} (names : s.HasPlainNames)
    (h : ∀ c ∈ s.conditions, Balanced c.sql) :
    ∃ is, Scanned (Fragment.render .named (selectFragments s)) is ∧ selects is = true := by
  obtain ⟨rest, -, bare, filtered⟩ := exists_scanned_select names h
  cases hfilter : s.filter with
  | none => exact ⟨_, bare hfilter, selects_word rest⟩
  | some c =>
    obtain ⟨is, hc⟩ := (Select.forall_conditions.1 h).1 c hfilter
    exact ⟨_, filtered c hfilter is hc.scanned, selects_word _⟩

end Criteria

end JoinPath
