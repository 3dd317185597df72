import JoinPath.Proofs.Config.Declared
/-!
# Faults of a configuration

What is wrong with a configuration, told from its text in the order in which it is written. Loading
stops at the first fault, and there is no other reason to refuse a configuration
(`stopsAt_toSchema`). The columns of parameters, of relations and of an association's
discriminators are all asked for, those of a table's discriminators are not (`columns_checked`).
-/

namespace JoinPath

/-! ## Stopping at the first error -/

/-- A call fails with the first of these errors, and succeeds if there is none. -/
def StopsAt {α : Type} (x : Except Error α) (faults : List Error) : Prop :=
  match x with
  | .ok _ => faults = []
  | .error e => faults.head? = some e

namespace StopsAt

variable {α β σ : Type} {x : Except Error α} {faults more : List Error}

theorem error_iff (h : StopsAt x faults) (e : Error) : x = .error e ↔ faults.head? = some e := by
  cases x with
  | ok a =>
    obtain rfl : faults = [] := h
    simp
  | error d =>
    have hd : faults.head? = some d := h
    simp [hd]

theorem ok_iff (h : StopsAt x faults) : (∃ a, x = .ok a) ↔ faults = [] := by
  cases x with
  | ok a => exact ⟨fun _ => h, fun _ => ⟨a, rfl⟩⟩
  | error d =>
    have hd : faults.head? = some d := h
    constructor
    · rintro ⟨a, ha⟩
      cases ha
    · rintro rfl
      cases hd

protected theorem bind {f : α → Except Error β} (h : StopsAt x faults)
    (hf : ∀ a, x = .ok a → StopsAt (f a) more) : StopsAt (x >>= f) (faults ++ more) := by
  cases x with
  | ok a =>
    obtain rfl : faults = [] := h
    exact hf a rfl
  | error d =>
    have hd : faults.head? = some d := h
    change (faults ++ more).head? = some d
    rw [List.head?_append, hd, Option.some_or]

/-- Steps one after the other stop at the first fault of the first that has one. -/
protected theorem foldlM {I : σ → Prop} {f : σ → β → Except Error σ} {g : β → List Error}
    (keeps : ∀ s b t, I s → f s b = .ok t → I t) (step : ∀ s b, I s → StopsAt (f s b) (g b))
    {s : σ} (hs : I s) (xs : List β) : StopsAt (xs.foldlM f s) (xs.flatMap g) := by
  induction xs generalizing s with
  | nil => exact (rfl : List.flatMap g [] = [])
  | cons b xs ih =>
    rw [List.foldlM_cons, List.flatMap_cons]
    exact (step s b hs).bind fun t ht => ih (keeps s b t hs ht)

protected theorem forM {f : β → Except Error Unit} {g : β → List Error}
    (each : ∀ b, StopsAt (f b) (g b)) (xs : List β) :
    StopsAt (xs.forM f) (xs.flatMap g) := by
  induction xs with
  | nil => exact (rfl : List.flatMap g [] = [])
  | cons b xs ih =>
    rw [List.flatMap_cons]
    exact (each b).bind fun _ _ => ih

end StopsAt

/-! ## What is named -/

/-- Where a configuration names columns. -/
inductive MentionPlace
  | parameter
  | tableDiscriminator
  | relation
  | junctionRelation
  | associationDiscriminator
deriving DecidableEq, Repr

/-- A column that is named as one of a table. -/
structure Mention where
  place : MentionPlace
  table : String
  /-- The columns that the table has. -/
  columns : List String
  column : String
deriving DecidableEq, Repr

namespace Mention

def IsDeclared (m : Mention) : Prop := m.column ∈ m.columns

instance (m : Mention) : Decidable m.IsDeclared :=
  inferInstanceAs (Decidable (m.column ∈ m.columns))

/-- A mention of a column of the table of this name. -/
def byName (place : MentionPlace) (columnsOf : String → Option (List String))
    (table column : String) : Mention :=
  ⟨place, table, (columnsOf table).getD [], column⟩

def faults (m : Mention) : List Error :=
  if m.IsDeclared then [] else [.unknownColumn m.table m.column]

theorem faults_eq_nil_iff {m : Mention} : m.faults = [] ↔ m.IsDeclared := by
  unfold faults
  split <;> simp [*]

theorem faults_of_not_declared {m : Mention} (h : ¬m.IsDeclared) :
    m.faults = [.unknownColumn m.table m.column] := if_neg h

end Mention

/-- The columns of both ends, that of the origin first. -/
def Relation.mentions (place : MentionPlace) (columnsOf : String → Option (List String))
    (origin destination : String) (r : Relation) : List Mention :=
  [.byName place columnsOf origin r.origin, .byName place columnsOf destination r.destination]

namespace TableConfig

def checkedMentions (t : TableConfig) : List Mention :=
  t.aliases.entries.map fun e => ⟨.parameter, t.name, t.columns, e.1⟩

def mentions (t : TableConfig) : List Mention :=
  t.checkedMentions ++ t.discriminators.map fun d =>
    ⟨.tableDiscriminator, t.name, t.columns, d.column⟩

def faults (t : TableConfig) : List Error := t.checkedMentions.flatMap Mention.faults

end TableConfig

namespace AssociationConfig

variable (columnsOf : String → Option (List String)) (a : AssociationConfig)

/-- The table that the relations of the association lead to. -/
def next : String := a.junction.elim a.destination JunctionConfig.table

def relationMentions : List Mention :=
  a.relations.flatMap (Relation.mentions .relation columnsOf a.origin a.next)

def junctionMentions : List Mention :=
  a.junction.elim [] fun j =>
    j.relations.flatMap (Relation.mentions .junctionRelation columnsOf j.table a.destination)

def discriminatorMentions : List Mention :=
  a.discriminators.map fun d => .byName .associationDiscriminator columnsOf d.table d.column

def mentions : List Mention :=
  a.relationMentions columnsOf ++ a.junctionMentions columnsOf ++ a.discriminatorMentions columnsOf

/-- The tables that the association names. -/
def references : List String :=
  [a.origin, a.destination] ++ a.junction.toList.map JunctionConfig.table ++
    a.discriminators.map EndValue.table

end AssociationConfig

/-! ## What is wrong -/

/-- No table has this name. -/
def tableFaults (columnsOf : String → Option (List String)) (name : String) : List Error :=
  if (columnsOf name).isSome then [] else [.unknownTable name]

/-- The relations of an association, or of one of its halves. -/
def pairingFaults (origin destination : String) (relations : List Relation)
    (mentions : List Mention) : List Error :=
  (if relations = [] then [.declaration (.noPairing origin destination)] else []) ++
    mentions.flatMap Mention.faults

namespace AssociationConfig

variable (columnsOf : String → Option (List String)) (a : AssociationConfig)

/-- A discriminator speaks of a column of an end, the same end as the first one. -/
def discriminatorFaults (d : EndValue) : List Error :=
  tableFaults columnsOf d.table ++
    ((if d.table = a.origin ∨ d.table = a.destination then []
      else [.declaration (.notAnEnd d.table a.name)]) ++
    ((Mention.byName .associationDiscriminator columnsOf d.table d.column).faults ++
    (if ∀ e ∈ a.discriminators.head?, e.table = d.table then []
      else [.declaration (.otherEnd a.name)])))

def relationFaults : List Error :=
  tableFaults columnsOf a.origin ++ (tableFaults columnsOf a.destination ++
    match a.junction with
    | none => pairingFaults a.origin a.destination a.relations (a.relationMentions columnsOf)
    | some j => tableFaults columnsOf j.table ++
      (pairingFaults a.origin j.table a.relations (a.relationMentions columnsOf) ++
        pairingFaults j.table a.destination j.relations (a.junctionMentions columnsOf)))

def faults : List Error :=
  a.relationFaults columnsOf ++ a.discriminators.flatMap (a.discriminatorFaults columnsOf)

end AssociationConfig

namespace SchemaConfig

variable (c : SchemaConfig)

/-- Every column that is named, at whatever place. -/
def mentions : List Mention :=
  c.tables.flatMap TableConfig.mentions ++
    c.associations.flatMap (AssociationConfig.mentions c.columnsOf)

/-- Every table that an association names. -/
def references : List String := c.associations.flatMap AssociationConfig.references

/-- What is wrong with the configuration, in the order in which it is asked. -/
def faults : List Error :=
  c.tables.flatMap TableConfig.faults ++
    c.associations.flatMap (AssociationConfig.faults c.columnsOf)

/-- The configuration without the conditions for the rows of its tables. -/
def undiscriminated : SchemaConfig :=
  { c with tables := c.tables.map fun t => { t with discriminators := [] } }

end SchemaConfig

/-! ## One question after the other -/

namespace Schema

variable {s t : Schema}

theorem requireColumn_eq_error {u : Table} {column : String}
    (h : column ∉ u.columns.map Column.name) :
    u.requireColumn column = .error (.unknownColumn u.name column) := by
  have hnone : u.column? column = none :=
    List.find?_eq_none.2 fun c hc hname => h (List.mem_map.2 ⟨c, hc, by simpa using hname⟩)
  rw [Table.requireColumn, hnone]

theorem stopsAt_requireColumn (place : MentionPlace) (u : Table) (column : String) :
    StopsAt (u.requireColumn column)
      (Mention.faults ⟨place, u.name, u.columns.map Column.name, column⟩) := by
  by_cases h : column ∈ u.columns.map Column.name
  · obtain ⟨found, hfound⟩ := (requireColumn_eq_ok_iff u column).2 h
    rw [hfound]
    exact Mention.faults_eq_nil_iff.2 h
  · rw [requireColumn_eq_error h]
    exact congrArg List.head? (Mention.faults_of_not_declared (m := ⟨place, _, _, column⟩) h)

theorem stopsAt_tableByName (s : Schema) (name : String) :
    StopsAt (s.tableByName name) (tableFaults s.columnsOf name) := by
  unfold tableFaults columnsOf tableByName
  cases s.tables.find? fun t => t.name == name <;> exact rfl

/-- The table of a name has the columns of that name. -/
theorem stopsAt_requireColumn_byName (hs : Positioned IsPlaced s.tables) {place : MentionPlace}
    {name column : String} {id : TableId} (hid : s.tableByName name = .ok id) :
    StopsAt ((s.table id).requireColumn column)
      (Mention.byName place s.columnsOf name column).faults := by
  obtain ⟨hname, hcolumns⟩ := table_of_tableByName hs hid
  have h := stopsAt_requireColumn place (s.table id) column
  rw [hname] at h
  rwa [Mention.byName, hcolumns, Option.getD_some]

theorem stopsAt_checkRelations (hs : Positioned IsPlaced s.tables) {place : MentionPlace}
    {origin destination : String} {o d : TableId} (ho : s.tableByName origin = .ok o)
    (hd : s.tableByName destination = .ok d) (relations : List Relation) :
    StopsAt (checkRelations (s.table o) (s.table d) relations)
      (pairingFaults origin destination relations
        (relations.flatMap (Relation.mentions place s.columnsOf origin destination))) := by
  have each (r : Relation) : StopsAt (checkRelation (s.table o) (s.table d) r)
      ((r.mentions place s.columnsOf origin destination).flatMap Mention.faults) := by
    refine (stopsAt_requireColumn_byName hs ho).bind fun _ _ => ?_
    exact (stopsAt_requireColumn_byName hs hd).bind fun _ _ => rfl
  unfold checkRelations pairingFaults
  by_cases h : relations = []
  · subst h
    rw [if_pos rfl, (table_of_tableByName hs ho).1, (table_of_tableByName hs hd).1]
    rfl
  · rw [if_neg h, if_neg h, List.nil_append, List.flatMap_assoc]
    exact StopsAt.forM each relations

/-! ## Tables -/

theorem stopsAt_setColumnParameter {ts : List Table} {u : Table} (h : s.tables = ts ++ [u])
    (column parameter : String) :
    StopsAt (s.setColumnParameter ⟨ts.length⟩ column parameter)
      (Mention.faults ⟨.parameter, u.name, u.columns.map Column.name, column⟩) := by
  have hcolumn := stopsAt_requireColumn .parameter (s.table ⟨ts.length⟩) column
  rw [table_last h] at hcolumn
  rw [← List.append_nil (Mention.faults _)]
  unfold setColumnParameter
  rw [table_last h]
  exact hcolumn.bind fun _ _ => rfl

/-- The table was added last. Its parameters change it, but not its name and its columns. -/
def HasAdded (s : Schema) (t : TableConfig) (u : Schema) : Prop :=
  ∃ last, u.tables = s.tables ++ [last] ∧ last.name = t.name ∧
    last.columns.map Column.name = t.columns

theorem hasAdded_addTable (s : Schema) (t : TableConfig) :
    s.HasAdded t (s.addTable t.name t.columns).2 := by
  refine ⟨_, rfl, rfl, ?_⟩
  rw [List.map_map]
  exact List.map_id _

section HasAdded

variable {t : TableConfig} {u v : Schema} {column parameter : String}

theorem HasAdded.setColumnParameter (hu : s.HasAdded t u)
    (h : u.setColumnParameter ⟨s.tables.length⟩ column parameter = .ok v) : s.HasAdded t v := by
  obtain ⟨last, htables, hname, hcolumns⟩ := hu
  obtain ⟨-, rfl⟩ := (setColumnParameter_last htables).1 h
  exact ⟨_, rfl, hname, (map_name_bindColumn ..).trans hcolumns⟩

theorem HasAdded.stopsAt (hu : s.HasAdded t u) (column parameter : String) :
    StopsAt (u.setColumnParameter ⟨s.tables.length⟩ column parameter)
      (Mention.faults ⟨.parameter, t.name, t.columns, column⟩) := by
  obtain ⟨last, htables, hname, hcolumns⟩ := hu
  have h := stopsAt_setColumnParameter htables column parameter
  rwa [hname, hcolumns] at h

end HasAdded

theorem stopsAt_declareTable (s : Schema) (t : TableConfig) :
    StopsAt (s.declareTable t) t.faults := by
  have rest (u : Schema) : StopsAt (.ok (t.discriminators.foldl (fun s' d =>
      s'.addTableDiscriminator ⟨s.tables.length⟩ (.eq (.col d.column) (.literal d.value))) u)) [] :=
    rfl
  have parameters := StopsAt.foldlM (fun _ _ _ => HasAdded.setColumnParameter)
    (fun _ e hu => hu.stopsAt e.1 e.2) (s.hasAdded_addTable t) t.aliases.entries
  have hall := parameters.bind fun u _ => rest u
  rw [List.append_nil] at hall
  rw [TableConfig.faults, TableConfig.checkedMentions, List.flatMap_map]
  exact hall

/-! ## Associations -/

theorem stopsAt_declareRelations (hs : Positioned IsPlaced s.tables) (a : AssociationConfig) :
    StopsAt (s.declareRelations a) (a.relationFaults s.columnsOf) := by
  unfold declareRelations AssociationConfig.relationFaults
  refine (stopsAt_tableByName s a.origin).bind fun o ho => ?_
  refine (stopsAt_tableByName s a.destination).bind fun d hd => ?_
  unfold AssociationConfig.relationMentions AssociationConfig.junctionMentions
    AssociationConfig.next
  cases a.junction with
  | none =>
    rw [← List.append_nil (pairingFaults ..)]
    exact (stopsAt_checkRelations hs ho hd _).bind fun _ _ => rfl
  | some j =>
    refine (stopsAt_tableByName s j.table).bind fun m hm => ?_
    refine (stopsAt_checkRelations hs ho hm _).bind fun _ _ => ?_
    rw [← List.append_nil (pairingFaults ..)]
    exact (stopsAt_checkRelations hs hm hd _).bind fun _ _ => rfl

/-- The association that was added last stands for one of the configuration. -/
structure StandsFor (s : Schema) (a : Association) (c : AssociationConfig) : Prop where
  name : a.name = c.name
  origin : s.tableByName c.origin = .ok a.origin
  destination : s.tableByName c.destination = .ok a.destination

theorem StandsFor.push {a : Association} {c : AssociationConfig} (h : s.StandsFor a c)
    (l : List Association) : StandsFor { s with associations := l } a c :=
  ⟨h.name, h.origin, h.destination⟩

theorem Relates.standsFor {c : AssociationConfig} {halves : List Association} {main : Association}
    (h : s.Relates c halves main) : s.StandsFor main c where
  name := by
    have hlast := congrArg List.getLast? (h.named main.discriminatorTable main.discriminators)
    unfold AssociationConfig.namedWith at hlast
    rw [List.map_append, List.map_singleton, List.getLast?_concat] at hlast
    cases hj : c.junction <;> rw [hj] at hlast <;>
      exact congrArg (fun a : NamedAssociation => a.key.name) (Option.some.inj hlast)
  origin := h.origin
  destination := h.destination

theorem stopsAt_addDiscriminator {pre : List Association} {a : Association}
    (h : s.associations = pre ++ [a]) (id : TableId) (column : String) (value : Value) :
    StopsAt (s.addDiscriminator ⟨pre.length⟩ id column value)
      ((if id = a.origin ∨ id = a.destination then []
        else [.declaration (.notAnEnd (s.table id).name a.name)]) ++
      (Mention.faults ⟨.associationDiscriminator, (s.table id).name,
        (s.table id).columns.map Column.name, column⟩ ++
      (if ∀ x ∈ a.discriminatorTable, x = id then [] else [.declaration (.otherEnd a.name)]))) := by
  unfold addDiscriminator
  rw [association_last h]
  simp only [isEnd_iff, isSameEnd_iff]
  by_cases hends : id ≠ a.origin ∧ id ≠ a.destination
  · rw [if_pos hends, if_neg (not_not_intro hends)]
    exact rfl
  rw [if_neg hends, if_pos hends, List.nil_append]
  refine (stopsAt_requireColumn .associationDiscriminator (s.table id) column).bind fun _ _ => ?_
  by_cases hsame : a.discriminatorTable.any (· ≠ id) = true
  · rw [if_pos hsame, if_neg (not_not_intro hsame)]
    exact rfl
  · rw [if_neg hsame, if_pos hsame]
    exact rfl

/-- A discriminator after others; `same` says that the table of the others is that of the first. -/
theorem stopsAt_addEndValue (hs : Positioned IsPlaced s.tables) {c : AssociationConfig}
    {pre : List Association} {a : Association} (h : s.associations = pre ++ [a])
    (ha : s.StandsFor a c) {d : EndValue}
    (same : ∀ id, s.tableByName d.table = .ok id →
      ((∀ x ∈ a.discriminatorTable, x = id) ↔ ∀ e ∈ c.discriminators.head?, e.table = d.table)) :
    StopsAt (addEndValue ⟨pre.length⟩ s d) (c.discriminatorFaults s.columnsOf d) := by
  refine (stopsAt_tableByName s d.table).bind fun id hid => ?_
  obtain ⟨hname, hcolumns⟩ := table_of_tableByName hs hid
  have hends : (id = a.origin ∨ id = a.destination) ↔
      (d.table = c.origin ∨ d.table = c.destination) := by
    refine or_congr ?_ ?_
    · exact ⟨fun h => tableByName_inj hs hid (h ▸ ha.origin),
        fun h => Except.ok.inj (hid.symm.trans (h ▸ ha.origin))⟩
    · exact ⟨fun h => tableByName_inj hs hid (h ▸ ha.destination),
        fun h => Except.ok.inj (hid.symm.trans (h ▸ ha.destination))⟩
  have hadd := stopsAt_addDiscriminator h id d.column d.value
  simp only [hends, same id hid, hname, ha.name] at hadd
  rw [Mention.byName, hcolumns, Option.getD_some]
  exact hadd

/-- After the `first` discriminator: the association at the end stands for the configured one and
has discriminators of one table, that of the first. -/
def Discriminated (s : Schema) (pre : List Association) (c : AssociationConfig) (first : EndValue)
    (u : Schema) : Prop :=
  ∃ a id, u = { s with associations := pre ++ [a] } ∧ s.StandsFor a c ∧
    s.tableByName first.table = .ok id ∧ a.discriminatorTable = some id

section Discriminated

variable {c : AssociationConfig} {pre : List Association} {a : Association} {first d : EndValue}
  {u v : Schema}

theorem discriminated_of_addEndValue (ha : s.StandsFor a c) (hd : d.table = first.table)
    (h : addEndValue ⟨pre.length⟩ { s with associations := pre ++ [a] } d = .ok v) :
    s.Discriminated pre c first v := by
  obtain ⟨-, id, hid, rfl⟩ := (addEndValue_last rfl).1 h
  exact ⟨_, id, rfl, ⟨ha.name, ha.origin, ha.destination⟩, hd ▸ hid, rfl⟩

theorem Discriminated.addEndValue (hs : Positioned IsPlaced s.tables)
    (hu : s.Discriminated pre c first u) (h : addEndValue ⟨pre.length⟩ u d = .ok v) :
    s.Discriminated pre c first v := by
  obtain ⟨b, id, rfl, hb, hid, htable⟩ := hu
  obtain ⟨⟨id', hid', -, -, hsame⟩, -⟩ := (addEndValue_last rfl).1 h
  obtain rfl := hsame id htable
  exact discriminated_of_addEndValue hb (tableByName_inj hs hid' hid) h

theorem Discriminated.stopsAt (hs : Positioned IsPlaced s.tables)
    (hfirst : c.discriminators.head? = some first) (hu : s.Discriminated pre c first u)
    (d : EndValue) :
    StopsAt (Schema.addEndValue ⟨pre.length⟩ u d) (c.discriminatorFaults s.columnsOf d) := by
  obtain ⟨b, id, rfl, hb, hid, htable⟩ := hu
  refine stopsAt_addEndValue (s := { s with associations := pre ++ [b] }) hs rfl
    (hb.push _) fun id' hid' => ?_
  simp only [htable, hfirst, Option.mem_some_iff, forall_eq']
  exact ⟨fun h => tableByName_inj hs hid (h ▸ hid'),
    fun h => Except.ok.inj (hid.symm.trans (h ▸ hid'))⟩

end Discriminated

theorem stopsAt_addEndValues (hs : Positioned IsPlaced s.tables) {c : AssociationConfig}
    {pre : List Association} {a : Association} (h : s.associations = pre ++ [a])
    (ha : s.StandsFor a c) (hnone : a.discriminatorTable = none) :
    StopsAt (c.discriminators.foldlM (addEndValue ⟨pre.length⟩) s)
      (c.discriminators.flatMap (c.discriminatorFaults s.columnsOf)) := by
  cases hds : c.discriminators with
  | nil => exact rfl
  | cons first rest =>
    have hfirst : c.discriminators.head? = some first := by rw [hds, List.head?_cons]
    have hsame : s = { s with associations := pre ++ [a] } := by rw [← h]
    rw [List.foldlM_cons, List.flatMap_cons]
    refine (stopsAt_addEndValue hs h ha fun id _ => by simp [hnone, hfirst]).bind fun u hu => ?_
    rw [hsame] at hu
    exact StopsAt.foldlM (fun _ _ _ => Discriminated.addEndValue hs)
      (fun _ d hu => hu.stopsAt hs hfirst d) (discriminated_of_addEndValue ha rfl hu) rest

theorem stopsAt_declareAssociation (hs : Positioned IsPlaced s.tables) (c : AssociationConfig) :
    StopsAt (s.declareAssociation c) (c.faults s.columnsOf) := by
  refine (stopsAt_declareRelations hs c).bind fun ⟨id, u⟩ hr => ?_
  obtain ⟨halves, main, hmain, rfl, rfl⟩ := relates_of_declareRelations hs hr
  exact stopsAt_addEndValues (s := { s with
    associations := s.associations ++ halves ++ [main] }) hs rfl
    (hmain.standsFor.push _) hmain.discriminatorTable

end Schema

/-! ## Whole configurations -/

namespace SchemaConfig

open Schema

variable {c : SchemaConfig}

/-- Loading a configuration stops at its first fault. -/
theorem stopsAt_toSchema (c : SchemaConfig) : StopsAt c.toSchema c.faults := by
  have tables :
      StopsAt (c.tables.foldlM declareTable empty) (c.tables.flatMap TableConfig.faults) :=
    StopsAt.foldlM (I := fun _ => True) (fun _ _ _ _ _ => trivial)
      (fun s t _ => stopsAt_declareTable s t) trivial c.tables
  refine tables.bind fun s hs => ?_
  have hdevelops := develops_declareTables hs
  have hcolumns : s.columnsOf = c.columnsOf := columnsOf_eq (named_of_declareTables hs).2
  refine StopsAt.foldlM (I := fun u => empty.Develops u ∧ u.tables = s.tables)
    (fun u a v => tables_of_declareAssociation) (fun u a hu => ?_) ⟨hdevelops, rfl⟩ c.associations
  rw [← hcolumns, ← columnsOf_congr hu.2]
  exact stopsAt_declareAssociation (wellFormed_of_develops hu.1).tables a

end SchemaConfig

/-! ## Every mention has its question -/

theorem mem_pairingFaults {origin destination : String} {relations : List Relation}
    {mentions : List Mention} {m : Mention} {e : Error} (hm : m ∈ mentions) (he : e ∈ m.faults) :
    e ∈ pairingFaults origin destination relations mentions :=
  List.mem_append_right _ (List.mem_flatMap.2 ⟨m, hm, he⟩)

theorem TableConfig.mem_checkedMentions {t : TableConfig} {m : Mention} (hm : m ∈ t.mentions)
    (h : m.place ≠ .tableDiscriminator) : m ∈ t.checkedMentions := by
  rcases List.mem_append.1 hm with hm | hm
  · exact hm
  · obtain ⟨d, -, rfl⟩ := List.mem_map.1 hm
    exact absurd rfl h

namespace AssociationConfig

variable {columnsOf : String → Option (List String)} {a : AssociationConfig} {e : Error}

theorem mem_faults_of_mention {m : Mention} (hm : m ∈ a.mentions columnsOf) (he : e ∈ m.faults) :
    e ∈ a.faults columnsOf := by
  rw [mentions, List.append_assoc] at hm
  rcases List.mem_append.1 hm with hm | hm
  · refine List.mem_append_left _ (List.mem_append_right _ (List.mem_append_right _ ?_))
    cases a.junction with
    | none => exact mem_pairingFaults hm he
    | some j => exact List.mem_append_right _ (List.mem_append_left _ (mem_pairingFaults hm he))
  rcases List.mem_append.1 hm with hm | hm
  · refine List.mem_append_left _ (List.mem_append_right _ (List.mem_append_right _ ?_))
    cases hj : a.junction with
    | none =>
      rw [junctionMentions, hj] at hm
      cases hm
    | some j => exact List.mem_append_right _ (List.mem_append_right _ (mem_pairingFaults hm he))
  · obtain ⟨d, hd, rfl⟩ := List.mem_map.1 hm
    refine List.mem_append_right _ (List.mem_flatMap.2 ⟨d, hd, ?_⟩)
    exact List.mem_append_right _ (List.mem_append_right _ (List.mem_append_left _ he))

theorem mem_faults_of_reference {name : String} (h : name ∈ a.references)
    (he : e ∈ tableFaults columnsOf name) : e ∈ a.faults columnsOf := by
  simp only [references, List.mem_append, List.mem_cons, List.not_mem_nil, or_false,
    List.mem_map, Option.mem_toList] at h
  rcases h with ((rfl | rfl) | ⟨j, hj, rfl⟩) | ⟨d, hd, rfl⟩
  · exact List.mem_append_left _ (List.mem_append_left _ he)
  · exact List.mem_append_left _ (List.mem_append_right _ (List.mem_append_left _ he))
  · refine List.mem_append_left _ (List.mem_append_right _ (List.mem_append_right _ ?_))
    rw [Option.mem_def.1 hj]
    exact List.mem_append_left _ he
  · exact List.mem_append_right _ (List.mem_flatMap.2 ⟨d, hd, List.mem_append_left _ he⟩)

end AssociationConfig

namespace SchemaConfig

variable {c : SchemaConfig}

theorem mem_faults_of_mention {m : Mention} (hm : m ∈ c.mentions)
    (hplace : m.place ≠ .tableDiscriminator) (h : ¬m.IsDeclared) :
    .unknownColumn m.table m.column ∈ c.faults := by
  have he : .unknownColumn m.table m.column ∈ m.faults := by
    rw [Mention.faults_of_not_declared h]
    exact List.mem_singleton_self _
  rcases List.mem_append.1 hm with hm | hm
  · obtain ⟨t, ht, hm⟩ := List.mem_flatMap.1 hm
    have hchecked := TableConfig.mem_checkedMentions hm hplace
    exact List.mem_append_left _
      (List.mem_flatMap.2 ⟨t, ht, List.mem_flatMap.2 ⟨m, hchecked, he⟩⟩)
  · obtain ⟨a, ha, hm⟩ := List.mem_flatMap.1 hm
    exact List.mem_append_right _
      (List.mem_flatMap.2 ⟨a, ha, AssociationConfig.mem_faults_of_mention hm he⟩)

theorem mem_faults_of_reference {name : String} (hname : name ∈ c.references)
    (h : c.columnsOf name = none) : .unknownTable name ∈ c.faults := by
  obtain ⟨a, ha, hname⟩ := List.mem_flatMap.1 hname
  have he : .unknownTable name ∈ tableFaults c.columnsOf name := by
    simp [tableFaults, h]
  exact List.mem_append_right _
    (List.mem_flatMap.2 ⟨a, ha, AssociationConfig.mem_faults_of_reference hname he⟩)

theorem faults_undiscriminated (c : SchemaConfig) : c.undiscriminated.faults = c.faults := by
  have hcolumns : c.undiscriminated.columnsOf = c.columnsOf := by
    funext name
    rw [columnsOf, undiscriminated, List.find?_map, Option.map_map]
    rfl
  rw [faults, faults, hcolumns, undiscriminated, List.flatMap_map]
  rfl

/-- A configuration is refused for its first fault, and every table that it names and every column
that it names, other than for a discriminator of a table, is a fault unless it is declared. What
the discriminators of its tables say is no reason to refuse it. -/
theorem columns_checked (c : SchemaConfig) :
    (∀ s, c.toSchema = .ok s →
      (∀ name ∈ c.references, ∃ columns, c.columnsOf name = some columns) ∧
        ∀ m ∈ c.mentions, m.place ≠ .tableDiscriminator → m.IsDeclared) ∧
      (∀ e, c.toSchema = .error e ↔ c.faults.head? = some e) ∧
      (∀ name ∈ c.references, c.columnsOf name = none → .unknownTable name ∈ c.faults) ∧
      (∀ m ∈ c.mentions, m.place ≠ .tableDiscriminator → ¬m.IsDeclared →
        .unknownColumn m.table m.column ∈ c.faults) ∧
      ∀ e, c.toSchema = .error e ↔ c.undiscriminated.toSchema = .error e := by
  have stops := stopsAt_toSchema c
  refine ⟨fun s hs => ?_, stops.error_iff, fun name hname => mem_faults_of_reference hname,
    fun m hm hplace => mem_faults_of_mention hm hplace, fun e => ?_⟩
  · have hnone : c.faults = [] := stops.ok_iff.1 ⟨s, hs⟩
    constructor
    · intro name hname
      cases hcolumns : c.columnsOf name with
      | some columns => exact ⟨columns, rfl⟩
      | none => exact absurd (mem_faults_of_reference hname hcolumns) (by simp [hnone])
    · intro m hm hplace
      by_contra h
      exact absurd (mem_faults_of_mention hm hplace h) (by simp [hnone])
  · rw [stops.error_iff, (stopsAt_toSchema c.undiscriminated).error_iff, faults_undiscriminated]

/-- The discriminator of a table may name a column that the table does not have. -/
theorem discriminator_column_unchecked :
    ¬ ∀ (c : SchemaConfig) (s : Schema), c.toSchema = .ok s → ∀ m ∈ c.mentions, m.IsDeclared := by
  intro h
  let c : SchemaConfig := ⟨[⟨"orders", ["id"], .empty, [⟨"status", .string "open"⟩]⟩], []⟩
  have accepted : ∃ s, c.toSchema = .ok s := ⟨_, rfl⟩
  obtain ⟨s, hs⟩ := accepted
  exact absurd (h c s hs ⟨.tableDiscriminator, "orders", ["id"], "status"⟩ (by decide)) (by decide)

end SchemaConfig

end JoinPath
