import JoinPath.Proofs.Schema.Named
/-!
# Associations of a configuration

An association of a configuration is declared if and only if the columns that it pairs are there and
its discriminators speak of columns of one of its ends (`exists_declareAssociation_iff`). Then the
schema says of it by name what the configuration says (`named_of_declareAssociation`).
-/

namespace JoinPath

/-! ## What is declared -/

/-- Two names of tables with a pairing of their columns. -/
def Relation.Pairs (columnsOf : String → Option (List String)) (origin destination : String)
    (relations : List Relation) : Prop :=
  ∃ o ∈ columnsOf origin, ∃ d ∈ columnsOf destination, relations ≠ [] ∧
    ∀ r ∈ relations, r.origin ∈ o ∧ r.destination ∈ d

namespace AssociationConfig

/-- What an association is declared under, its halves before it. -/
def names (c : AssociationConfig) : List AssociationName :=
  (c.junction.elim [] fun j => [⟨c.origin, c.name ++ "_from"⟩, ⟨j.table, c.name ++ "_to"⟩]) ++
    [⟨c.origin, c.name⟩]

/-- What is declared with these discriminators: the association itself, after its halves if it goes
through a junction table. -/
def namedWith (c : AssociationConfig) (discriminatorTable : Option String)
    (discriminators : List Discriminator) : List NamedAssociation :=
  match c.junction with
  | none =>
    [⟨⟨c.origin, c.name⟩, c.destination, c.relations, none, discriminatorTable, discriminators⟩]
  | some j =>
    let inward : AssociationName := ⟨c.origin, c.name ++ "_from"⟩
    let outward : AssociationName := ⟨j.table, c.name ++ "_to"⟩
    [⟨inward, j.table, c.relations, none, none, []⟩,
      ⟨outward, c.destination, j.relations, none, none, []⟩,
      ⟨⟨c.origin, c.name⟩, c.destination, [], some (inward, outward), discriminatorTable,
        discriminators⟩]

def named (c : AssociationConfig) : List NamedAssociation :=
  c.namedWith (c.discriminators.head?.map EndValue.table)
    (c.discriminators.map fun d => ⟨d.column, d.value⟩)

theorem map_key_named (c : AssociationConfig) : c.named.map NamedAssociation.key = c.names := by
  unfold named namedWith names
  cases c.junction <;> rfl

/-- The columns that an association pairs are there, also those of its halves. -/
def PairsColumns (columnsOf : String → Option (List String)) (c : AssociationConfig) : Prop :=
  match c.junction with
  | none => Relation.Pairs columnsOf c.origin c.destination c.relations
  | some j => Relation.Pairs columnsOf c.origin j.table c.relations ∧
    Relation.Pairs columnsOf j.table c.destination j.relations

/-- An association pairs columns that are there, and its discriminators speak of columns of one of
its ends. -/
structure IsSound (columnsOf : String → Option (List String)) (c : AssociationConfig) : Prop where
  pairs : c.PairsColumns columnsOf
  ends : ∀ d ∈ c.discriminators, (d.table = c.origin ∨ d.table = c.destination) ∧
    ∃ columns ∈ columnsOf d.table, d.column ∈ columns
  oneEnd : ∀ d ∈ c.discriminators, ∀ e ∈ c.discriminators, d.table = e.table

end AssociationConfig

namespace Schema

variable {s t : Schema}

theorem pairs_iff (hs : Positioned IsPlaced s.tables) {origin destination : String} {o d : TableId}
    (ho : s.tableByName origin = .ok o) (hd : s.tableByName destination = .ok d)
    {relations : List Relation} :
    Relation.Pairs s.columnsOf origin destination relations ↔
      checkRelations (s.table o) (s.table d) relations = .ok () := by
  rw [Relation.Pairs, (table_of_tableByName hs ho).2, (table_of_tableByName hs hd).2,
    checkRelations_eq_ok_iff]
  simp

theorem exists_tableByName_of_pairs {origin destination : String} {relations : List Relation}
    (h : Relation.Pairs s.columnsOf origin destination relations) :
    (∃ o, s.tableByName origin = .ok o) ∧ ∃ d, s.tableByName destination = .ok d := by
  obtain ⟨_, ho, _, hd, -⟩ := h
  exact ⟨exists_tableByName ho, exists_tableByName hd⟩

theorem exists_declareRelations_iff (hs : Positioned IsPlaced s.tables) (c : AssociationConfig) :
    (∃ r, s.declareRelations c = .ok r) ↔ c.PairsColumns s.columnsOf := by
  unfold declareRelations AssociationConfig.PairsColumns
  cases c.junction with
  | none =>
    simp only [associate_eq_ok_iff, bind_eq_ok_iff]
    constructor
    · rintro ⟨r, o, ho, d, hd, hc, -⟩
      exact (pairs_iff hs ho hd).2 hc
    · intro h
      obtain ⟨⟨o, ho⟩, d, hd⟩ := exists_tableByName_of_pairs h
      exact ⟨_, o, ho, d, hd, (pairs_iff hs ho hd).1 h, rfl⟩
  | some j =>
    simp only [associateThrough_eq_ok_iff, bind_eq_ok_iff]
    constructor
    · rintro ⟨r, o, ho, d, hd, m, hm, hi, hc, -⟩
      exact ⟨(pairs_iff hs ho hm).2 hi, (pairs_iff hs hm hd).2 hc⟩
    · rintro ⟨hinward, houtward⟩
      obtain ⟨⟨o, ho⟩, m, hm⟩ := exists_tableByName_of_pairs hinward
      obtain ⟨-, d, hd⟩ := exists_tableByName_of_pairs houtward
      exact ⟨_, o, ho, d, hd, m, hm, (pairs_iff hs ho hm).1 hinward,
        (pairs_iff hs hm hd).1 houtward, rfl⟩

/-- An association without discriminators was declared after its halves, and will say what the
configuration says, whatever its discriminators will be. -/
structure Relates (s : Schema) (c : AssociationConfig) (halves : List Association)
    (main : Association) : Prop where
  origin : s.tableByName c.origin = .ok main.origin
  destination : s.tableByName c.destination = .ok main.destination
  discriminatorTable : main.discriminatorTable = none
  discriminators : main.discriminators = []
  named : ∀ id ds,
    (halves ++ [{ main with discriminatorTable := id, discriminators := ds }]).map
      (Schema.named { s with associations := s.associations ++ halves ++
        [{ main with discriminatorTable := id, discriminators := ds }] }) =
    c.namedWith (id.map fun id => (s.table id).name) ds

theorem relates_direct (hs : Positioned IsPlaced s.tables) {c : AssociationConfig}
    (hj : c.junction = none) {o d : TableId} (ho : s.tableByName c.origin = .ok o)
    (hd : s.tableByName c.destination = .ok d) (id : AssociationId) :
    s.Relates c [] ⟨id, c.name, o, d, c.relations, none, none, []⟩ where
  origin := ho
  destination := hd
  discriminatorTable := rfl
  discriminators := rfl
  named id ds := by
    have horigin := (table_of_tableByName hs ho).1
    have hdestination := (table_of_tableByName hs hd).1
    simp only [List.nil_append, List.map_cons, List.map_nil, AssociationConfig.namedWith, hj,
      ← horigin, ← hdestination]
    rfl

/-- The halves of an association stand right behind what was there before. -/
theorem association_halves (s : Schema) (first second main : Association) :
    let t : Schema := { s with associations := s.associations ++ [first, second] ++ [main] }
    t.association ⟨s.associations.length⟩ = first ∧
      t.association ⟨s.associations.length + 1⟩ = second := by
  have hget (i : ℕ) : (s.associations ++ [first, second] ++ [main])[s.associations.length + i]? =
      [first, second, main][i]? := by
    rw [List.append_assoc, List.getElem?_append_right (Nat.le_add_right _ _),
      Nat.add_sub_cancel_left]
    rfl
  exact ⟨association_of_getElem? (hget 0), association_of_getElem? (hget 1)⟩

theorem relates_through (hs : Positioned IsPlaced s.tables) {c : AssociationConfig}
    {j : JunctionConfig} (hj : c.junction = some j) {o m d : TableId}
    (ho : s.tableByName c.origin = .ok o) (hm : s.tableByName j.table = .ok m)
    (hd : s.tableByName c.destination = .ok d) (id : AssociationId) :
    s.Relates c
      [⟨⟨s.associations.length⟩, c.name ++ "_from", o, m, c.relations, none, none, []⟩,
        ⟨⟨s.associations.length + 1⟩, c.name ++ "_to", m, d, j.relations, none, none, []⟩]
      ⟨id, c.name, o, d, [], some ⟨⟨s.associations.length⟩, ⟨s.associations.length + 1⟩⟩, none,
        []⟩ where
  origin := ho
  destination := hd
  discriminatorTable := rfl
  discriminators := rfl
  named id ds := by
    have horigin := (table_of_tableByName hs ho).1
    have hjunction := (table_of_tableByName hs hm).1
    have hdestination := (table_of_tableByName hs hd).1
    simp only [AssociationConfig.namedWith, hj, List.cons_append, List.nil_append, List.map_cons,
      List.map_nil, named, Option.map_some, Option.map_none, association_halves, ← horigin,
      ← hjunction, ← hdestination]
    rfl

theorem relates_of_declareRelations (hs : Positioned IsPlaced s.tables) {c : AssociationConfig}
    {id : AssociationId} (h : s.declareRelations c = .ok (id, t)) :
    ∃ halves main, s.Relates c halves main ∧ id = ⟨(s.associations ++ halves).length⟩ ∧
      t = { s with associations := s.associations ++ halves ++ [main] } := by
  unfold declareRelations at h
  cases hj : c.junction with
  | none =>
    simp only [hj, associate_eq_ok_iff, bind_eq_ok_iff] at h
    obtain ⟨o, ho, d, hd, -, hr⟩ := h
    obtain ⟨rfl, rfl⟩ := Prod.mk.inj hr
    refine ⟨[], _, relates_direct hs hj ho hd ⟨s.associations.length⟩, ?_, ?_⟩
    · rw [List.append_nil]
    · rw [List.append_nil]
  | some j =>
    simp only [hj, associateThrough_eq_ok_iff, bind_eq_ok_iff] at h
    obtain ⟨o, ho, d, hd, m, hm, -, -, hr⟩ := h
    obtain ⟨rfl, rfl⟩ := Prod.mk.inj hr
    refine ⟨_, _, relates_through hs hj ho hm hd ⟨s.associations.length + 2⟩, ?_, ?_⟩
    · simp [pushAssociation]
    · simp [pushAssociation]

/-! ## Discriminators -/

theorem association_last {pre : List Association} {a : Association}
    (h : s.associations = pre ++ [a]) : s.association ⟨pre.length⟩ = a :=
  association_of_getElem? (by rw [h, List.getElem?_concat_length])

/-- The association with one more discriminator. -/
def discriminated (a : Association) (id : TableId) (column : String) (value : Value) :
    Association :=
  { a with
    discriminatorTable := some id
    discriminators := a.discriminators ++ [⟨column, value⟩] }

theorem addDiscriminator_last {pre : List Association} {a : Association}
    (h : s.associations = pre ++ [a]) {id : TableId} {column : String} {value : Value} :
    s.addDiscriminator ⟨pre.length⟩ id column value = .ok t ↔
      (id = a.origin ∨ id = a.destination) ∧ s.Declares id column ∧
        (∀ x ∈ a.discriminatorTable, x = id) ∧
        t = { s with associations := pre ++ [discriminated a id column value] } := by
  rw [addDiscriminator_eq_ok_iff, association_last h, h, modify_concat_length]
  exact Iff.rfl

/-- The step that declares a discriminator of the association `id`. -/
def addEndValue (id : AssociationId) (s : Schema) (d : EndValue) : Except Error Schema := do
  let table ← s.tableByName d.table
  s.addDiscriminator id table d.column d.value

/-- A discriminator may be added whose table is an end of the association, the same end as that of
the ones before. -/
def Admits (s : Schema) (a : Association) (d : EndValue) : Prop :=
  ∃ id, s.tableByName d.table = .ok id ∧ (id = a.origin ∨ id = a.destination) ∧
    s.Declares id d.column ∧ ∀ x ∈ a.discriminatorTable, x = id

theorem addEndValue_last {pre : List Association} {a : Association}
    (h : s.associations = pre ++ [a]) {d : EndValue} :
    addEndValue ⟨pre.length⟩ s d = .ok t ↔ s.Admits a d ∧ ∃ id, s.tableByName d.table = .ok id ∧
      t = { s with associations := pre ++ [discriminated a id d.column d.value] } := by
  unfold addEndValue
  simp only [bind_eq_ok_iff, addDiscriminator_last h]
  constructor
  · rintro ⟨id, hid, hend, hcolumn, hsame, ht⟩
    exact ⟨⟨id, hid, hend, hcolumn, hsame⟩, id, hid, ht⟩
  · rintro ⟨⟨id, hid, hend, hcolumn, hsame⟩, id', hid', ht⟩
    obtain rfl := Except.ok.inj (hid.symm.trans hid')
    exact ⟨id, hid, hend, hcolumn, hsame, ht⟩

/-- After a discriminator, those of the same table may be added. -/
theorem admits_discriminated_iff (hs : Positioned IsPlaced s.tables) {a : Association}
    {d : EndValue} (hd : s.Admits a d) {id : TableId} (hid : s.tableByName d.table = .ok id)
    (e : EndValue) :
    s.Admits (discriminated a id d.column d.value) e ↔ s.Admits a e ∧ d.table = e.table := by
  obtain ⟨_, hid', -, -, hsame⟩ := hd
  obtain rfl := Except.ok.inj (hid.symm.trans hid')
  constructor
  · rintro ⟨id', he, hend, hcolumn, heq⟩
    obtain rfl := heq id rfl
    exact ⟨⟨id, he, hend, hcolumn, hsame⟩, tableByName_inj hs hid he⟩
  · rintro ⟨⟨id', he, hend, hcolumn, -⟩, heq⟩
    rw [← heq, hid] at he
    obtain rfl := Except.ok.inj he
    exact ⟨id, heq ▸ hid, hend, hcolumn, fun x hx => (Option.some.inj hx).symm⟩

/-- The association with more discriminators, all of which speak of the first one's table. -/
def discriminatedAll (s : Schema) (a : Association) (ds : List EndValue) : Association :=
  { a with
    discriminatorTable :=
      (ds.head?.bind fun d => (s.tableByName d.table).toOption).or a.discriminatorTable
    discriminators := a.discriminators ++ ds.map fun d => ⟨d.column, d.value⟩ }

theorem discriminatedAll_cons {a : Association} {d : EndValue} {ds : List EndValue} {id : TableId}
    (hid : s.tableByName d.table = .ok id) (same : ∀ e ∈ ds, d.table = e.table) :
    s.discriminatedAll (discriminated a id d.column d.value) ds =
      s.discriminatedAll a (d :: ds) := by
  have hrest : (ds.head?.bind fun e => (s.tableByName e.table).toOption).or (some id) =
      some id := by
    cases ds with
    | nil => rfl
    | cons e ds =>
      rw [List.head?_cons, Option.bind_some, ← same e List.mem_cons_self, hid]
      rfl
  have hall : ((d :: ds).head?.bind fun e => (s.tableByName e.table).toOption).or
      a.discriminatorTable = some id := by
    rw [List.head?_cons, Option.bind_some, hid]
    rfl
  simp only [discriminatedAll, hall, discriminated, hrest, List.map_cons, List.append_assoc,
    List.singleton_append]

/-- All discriminators of the association that was added last. -/
theorem addEndValues_last (hs : Positioned IsPlaced s.tables) {pre : List Association}
    {a : Association} (h : s.associations = pre ++ [a]) {ds : List EndValue} :
    ds.foldlM (addEndValue ⟨pre.length⟩) s = .ok t ↔
      (∀ d ∈ ds, s.Admits a d) ∧ (∀ d ∈ ds, ∀ e ∈ ds, d.table = e.table) ∧
        t = { s with associations := pre ++ [s.discriminatedAll a ds] } := by
  induction ds generalizing s a with
  | nil =>
    have hsame : s.discriminatedAll a [] = a := by
      rw [discriminatedAll, List.map_nil, List.append_nil]
      rfl
    simp only [List.foldlM_nil, List.not_mem_nil, false_implies, implies_true, true_and, hsame,
      ← h]
    exact ⟨fun ht => (Except.ok.inj ht).symm, fun ht => congrArg Except.ok ht.symm⟩
  | cons d ds ih =>
    have rest (id : TableId) := ih (s := { s with
      associations := pre ++ [discriminated a id d.column d.value] }) hs rfl
    simp only [List.foldlM_cons, bind_eq_ok_iff, addEndValue_last h]
    constructor
    · rintro ⟨_, ⟨hd, id, hid, rfl⟩, hrest⟩
      obtain ⟨hall, -, ht⟩ := (rest id).1 hrest
      have hboth : ∀ e ∈ ds, s.Admits a e ∧ d.table = e.table := fun e he =>
        (admits_discriminated_iff hs hd hid e).1 (hall e he)
      have hone : ∀ e ∈ d :: ds, d.table = e.table :=
        List.forall_mem_cons.2 ⟨rfl, fun e he => (hboth e he).2⟩
      refine ⟨List.forall_mem_cons.2 ⟨hd, fun e he => (hboth e he).1⟩,
        fun e he f hf => (hone e he).symm.trans (hone f hf), ?_⟩
      rw [ht, ← discriminatedAll_cons hid fun e he => (hboth e he).2]
      rfl
    · rintro ⟨hall, hpair, rfl⟩
      obtain ⟨hd, hds⟩ := List.forall_mem_cons.1 hall
      obtain ⟨id, hid⟩ : ∃ id, s.tableByName d.table = .ok id := hd.imp fun _ h => h.1
      have hone : ∀ e ∈ ds, d.table = e.table := fun e he =>
        hpair d List.mem_cons_self e (List.mem_cons_of_mem _ he)
      refine ⟨_, ⟨hd, id, hid, rfl⟩, (rest id).2 ⟨fun e he =>
        (admits_discriminated_iff hs hd hid e).2 ⟨hds e he, hone e he⟩, fun e he f hf =>
          hpair e (List.mem_cons_of_mem _ he) f (List.mem_cons_of_mem _ hf), ?_⟩⟩
      rw [← discriminatedAll_cons hid hone]
      rfl

/-! ## Whole associations -/

theorem Relates.admits_iff (hs : Positioned IsPlaced s.tables) {c : AssociationConfig}
    {halves : List Association} {main : Association} (h : s.Relates c halves main) (d : EndValue) :
    s.Admits main d ↔ (d.table = c.origin ∨ d.table = c.destination) ∧
      ∃ columns ∈ s.columnsOf d.table, d.column ∈ columns := by
  have hcolumns {id : TableId} (hid : s.tableByName d.table = .ok id) :
      s.Declares id d.column ↔ ∃ columns ∈ s.columnsOf d.table, d.column ∈ columns := by
    rw [(table_of_tableByName hs hid).2]
    simp [Declares]
  constructor
  · rintro ⟨id, hid, hend, hcolumn, -⟩
    refine ⟨hend.imp ?_ ?_, (hcolumns hid).1 hcolumn⟩
    · rintro rfl
      exact tableByName_inj hs hid h.origin
    · rintro rfl
      exact tableByName_inj hs hid h.destination
  · rintro ⟨hend, hcolumn⟩
    have hnone : ∀ id, ∀ x ∈ main.discriminatorTable, x = id := by
      rw [h.discriminatorTable]
      exact fun _ _ hx => nomatch hx
    rcases hend with hend | hend
    · have hid : s.tableByName d.table = .ok main.origin := hend ▸ h.origin
      exact ⟨_, hid, .inl rfl, (hcolumns hid).2 hcolumn, hnone _⟩
    · have hid : s.tableByName d.table = .ok main.destination := hend ▸ h.destination
      exact ⟨_, hid, .inr rfl, (hcolumns hid).2 hcolumn, hnone _⟩

/-- An association is declared as its columns are, and then its discriminators are. -/
theorem declareAssociation_eq_ok_iff {c : AssociationConfig} :
    s.declareAssociation c = .ok t ↔ ∃ id u, s.declareRelations c = .ok (id, u) ∧
      c.discriminators.foldlM (addEndValue id) u = .ok t := by
  unfold declareAssociation
  rw [bind_eq_ok_iff]
  exact ⟨fun ⟨⟨id, u⟩, hr, ht⟩ => ⟨id, u, hr, ht⟩, fun ⟨id, u, hr, ht⟩ => ⟨(id, u), hr, ht⟩⟩

theorem exists_declareAssociation_iff (hs : Positioned IsPlaced s.tables) (c : AssociationConfig) :
    (∃ t, s.declareAssociation c = .ok t) ↔ c.IsSound s.columnsOf := by
  simp only [declareAssociation_eq_ok_iff]
  constructor
  · rintro ⟨t, id, u, hr, ht⟩
    obtain ⟨halves, main, hmain, rfl, rfl⟩ := relates_of_declareRelations hs hr
    obtain ⟨hall, hone, -⟩ := (addEndValues_last (s := { s with
      associations := s.associations ++ halves ++ [main] }) hs rfl).1 ht
    exact ⟨(exists_declareRelations_iff hs c).1 ⟨_, hr⟩,
      fun d hd => (hmain.admits_iff hs d).1 (hall d hd), hone⟩
  · intro h
    obtain ⟨⟨id, u⟩, hr⟩ := (exists_declareRelations_iff hs c).2 h.pairs
    obtain ⟨halves, main, hmain, rfl, rfl⟩ := relates_of_declareRelations hs hr
    exact ⟨_, _, _, hr, (addEndValues_last (s := { s with
      associations := s.associations ++ halves ++ [main] }) hs rfl).2
      ⟨fun d hd => (hmain.admits_iff hs d).2 (h.ends d hd), h.oneEnd, rfl⟩⟩

/-- With all its discriminators an association says what the configuration says. -/
theorem Relates.named_discriminatedAll (hs : Positioned IsPlaced s.tables) {c : AssociationConfig}
    {halves : List Association} {main : Association} (h : s.Relates c halves main)
    (hall : ∀ d ∈ c.discriminators, s.Admits main d) :
    (halves ++ [s.discriminatedAll main c.discriminators]).map
      (Schema.named { s with
        associations := s.associations ++ halves ++
          [s.discriminatedAll main c.discriminators] }) = c.named := by
  have htable : (c.discriminators.head?.bind fun d => (s.tableByName d.table).toOption).map
      (fun id => (s.table id).name) = c.discriminators.head?.map EndValue.table := by
    cases hds : c.discriminators with
    | nil => rfl
    | cons d ds =>
      obtain ⟨id, hid, -⟩ := hall d (hds ▸ List.mem_cons_self)
      rw [List.head?_cons, Option.bind_some, Option.map_some, hid,
        ← (table_of_tableByName hs hid).1]
      rfl
  rw [discriminatedAll, h.discriminatorTable, h.discriminators, Option.or_none, List.nil_append,
    h.named, htable]
  rfl

theorem named_of_declareAssociation (hs : s.WellFormed) {c : AssociationConfig}
    (h : s.declareAssociation c = .ok t) :
    t.tables = s.tables ∧ t.namedAssociations = s.namedAssociations ++ c.named := by
  obtain ⟨id, u, hr, ht⟩ := declareAssociation_eq_ok_iff.1 h
  obtain ⟨halves, main, hmain, rfl, rfl⟩ := relates_of_declareRelations hs.tables hr
  obtain ⟨hall, -, heq⟩ := (addEndValues_last (s := { s with
      associations := s.associations ++ halves ++ [main] }) hs.tables rfl).1 ht
  have hnamed := hmain.named_discriminatedAll hs.tables hall
  have htables : t.tables = s.tables := by rw [heq]
  have hassociations : t.associations = s.associations ++
      (halves ++ [s.discriminatedAll main c.discriminators]) := by
    rw [heq, ← List.append_assoc]
    rfl
  have hbefore : ∀ a ∈ s.associations, t.named a = s.named a := fun a ha =>
    named_of_begins hs htables (hassociations ▸ List.prefix_append _ _) ha
  refine ⟨htables, ?_⟩
  rw [namedAssociations, hassociations, List.map_append, List.map_congr_left hbefore, ← hnamed,
    heq]
  rfl

end Schema

end JoinPath
