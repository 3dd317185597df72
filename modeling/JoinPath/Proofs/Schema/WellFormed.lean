import JoinPath.Proofs.Lists
import JoinPath.Proofs.Schema.Typed
import JoinPath.Schema.Building
/-!
# Well-formed schemas

Whatever is declared, in whatever order and however often a declaration is refused, the schema under
construction is well-formed: what it names is there, by position, and what an association pairs,
goes through or requires fits its ends. A refused call leaves no trace, although it works on the
schema itself (`execute_cases`), and what was handed out once means the same ever after
(`keeps_built`).
-/

namespace JoinPath

namespace Building

/-- A question that is answered goes on with the same schema, else the call ends with it. -/
theorem ask_bind {α β : Type} (question : Schema → Except Error α) (next : α → Building β)
    (s : Schema) :
    (ask question >>= next) s =
      match question s with
      | .ok answer => next answer s
      | .error e => .error e s := by
  show EStateM.bind (ask question) next s = _
  unfold EStateM.bind ask
  cases question s <;> rfl

theorem modifyAssociation_bind {β : Type} (id : AssociationId) (f : Association → Association)
    (next : PUnit → Building β) (s : Schema) :
    (modifyAssociation id f >>= next) s =
      next ⟨⟩ { s with associations := s.associations.modify id.index f } :=
  rfl

end Building

namespace Schema

/-! ## What a declaration changes -/

/-- The schemas that one declaration can make of a schema. -/
inductive Changes (s : Schema) : Schema → Prop
  | nothing : Changes s s
  | table (name : String) (columns : List String) : Changes s (s.addTable name columns).2
  | parameter (id : TableId) (column parameter : String) :
    Changes s (s.modifyTable id fun t =>
      { t with columns := bindColumn column parameter t.columns })
  | restriction (id : TableId) (criteria : Criteria) :
    Changes s (s.addTableDiscriminator id criteria)
  | association (name : String) (origin destination : TableId) (relations : List Relation) :
    Changes s (s.pushAssociation name origin destination relations none).2
  | through (name : String) (origin junction destination : TableId)
    (inward outward : List Relation) :
    Changes s { s with associations := s.associations ++
      [⟨⟨s.associations.length⟩, name ++ "_from", origin, junction, inward, none, none, []⟩] ++
      [⟨⟨s.associations.length + 1⟩, name ++ "_to", junction, destination, outward, none, none,
        []⟩] ++
      [⟨⟨s.associations.length + 2⟩, name, origin, destination, [],
        some ⟨⟨s.associations.length⟩, ⟨s.associations.length + 1⟩⟩, none, []⟩] }
  | discriminator (id : AssociationId) (owner : TableId) (column : String) (value : Value) :
    Changes s { s with associations := s.associations.modify id.index fun a => { a with
      discriminatorTable := some owner
      discriminators := a.discriminators ++ [⟨column, value⟩] } }

variable {s t : Schema}

theorem changes_declare (s : Schema) (d : Declaration) : s.Changes (s.declare d) := by
  refine s.declare_induction .nothing .table .parameter .restriction
    (fun name origin destination relations _ => .association name origin destination relations)
    (fun name origin junction destination inward outward _ _ => ?_)
    (fun id owner column value _ _ _ => .discriminator id owner column value) d
  rw [pushThrough_snd]
  exact .through name origin junction destination inward outward

/-! ## Positions -/

/-- A table is named by its position, and its columns name it. -/
def IsPlaced (i : ℕ) (t : Table) : Prop := t.id = ⟨i⟩ ∧ ∀ c ∈ t.columns, c.table = ⟨i⟩

/-- An association through a junction table pairs no columns itself and comes after its halves;
one with a discriminated end has discriminators. -/
structure IsTidy (i : ℕ) (a : Association) : Prop where
  through : ∀ j ∈ a.junction, a.relations = [] ∧ j.inward.index < i ∧ j.outward.index < i
  discriminated : a.discriminatorTable.isSome ↔ a.discriminators ≠ []

theorem table_of_mem_bindColumn {column parameter : String} {cs : List Column} {c : Column}
    (h : c ∈ bindColumn column parameter cs) : ∃ d ∈ cs, c.table = d.table := by
  induction cs with
  | nil => cases h
  | cons d cs ih =>
    unfold bindColumn at h
    split at h
    · rcases List.mem_cons.1 h with rfl | h
      · exact ⟨d, List.mem_cons_self, rfl⟩
      · exact ⟨c, List.mem_cons_of_mem _ h, rfl⟩
    · rcases List.mem_cons.1 h with rfl | h
      · exact ⟨c, List.mem_cons_self, rfl⟩
      · obtain ⟨e, he, htable⟩ := ih h
        exact ⟨e, List.mem_cons_of_mem _ he, htable⟩

theorem Changes.placed (h : s.Changes t) (hs : Positioned IsPlaced s.tables) :
    Positioned IsPlaced t.tables := by
  cases h with
  | table name columns =>
    refine hs.concat ⟨rfl, fun c hc => ?_⟩
    obtain ⟨column, -, rfl⟩ := List.mem_map.1 hc
    rfl
  | parameter id column parameter =>
    refine hs.modify fun u _ hu => ⟨hu.1, fun c hc => ?_⟩
    obtain ⟨d, hd, htable⟩ := table_of_mem_bindColumn hc
    rw [htable]
    exact hu.2 d hd
  | restriction id criteria => exact hs.modify fun u _ hu => hu
  | _ => exact hs

theorem isTidy_direct (i : ℕ) (id : AssociationId) (name : String) (origin destination : TableId)
    (relations : List Relation) :
    IsTidy i ⟨id, name, origin, destination, relations, none, none, []⟩ :=
  ⟨fun _ h => (nomatch h), by simp⟩

theorem Changes.tidy (h : s.Changes t) (hs : Positioned IsTidy s.associations) :
    Positioned IsTidy t.associations := by
  cases h with
  | association name origin destination relations => exact hs.concat (isTidy_direct ..)
  | through name origin junction destination inward outward =>
    refine ((hs.concat (isTidy_direct ..)).concat (isTidy_direct ..)).concat ⟨fun j hj => ?_, ?_⟩
    · obtain rfl := Option.some.inj hj
      refine ⟨rfl, ?_, ?_⟩ <;> simp only [List.length_append, List.length_singleton] <;> omega
    · simp
  | discriminator id owner column value =>
    exact hs.modify fun a _ ha => ⟨ha.through, by simp⟩
  | _ => exact hs

/-! ## Lasting names -/

/-- What the first schema names, the second names too: tables with the same columns, associations
with the same ends, pairs and halves. -/
structure Keeps (s t : Schema) : Prop where
  tables : ∀ (i : ℕ) (u : Table), s.tables[i]? = some u → ∃ v : Table, t.tables[i]? = some v ∧
    v.id = u.id ∧ v.name = u.name ∧ v.columns.map Column.name = u.columns.map Column.name
  associations : ∀ (i : ℕ) (a : Association), s.associations[i]? = some a → ∃ b : Association,
    t.associations[i]? = some b ∧ b = { a with
      discriminatorTable := b.discriminatorTable
      discriminators := b.discriminators }

theorem Keeps.trans {u : Schema} (hst : s.Keeps t) (htu : t.Keeps u) : s.Keeps u where
  tables i x hx := by
    obtain ⟨y, hy, hid, hname, hcolumns⟩ := hst.tables i x hx
    obtain ⟨z, hz, hid', hname', hcolumns'⟩ := htu.tables i y hy
    exact ⟨z, hz, hid'.trans hid, hname'.trans hname, hcolumns'.trans hcolumns⟩
  associations i a ha := by
    obtain ⟨b, hb, hab⟩ := hst.associations i a ha
    obtain ⟨c, hc, hbc⟩ := htu.associations i b hb
    refine ⟨c, hc, ?_⟩
    rw [hbc, hab]

theorem keeps_modifyTable (s : Schema) (id : TableId) {f : Table → Table}
    (hf : ∀ t, (f t).id = t.id ∧ (f t).name = t.name ∧
      (f t).columns.map Column.name = t.columns.map Column.name) :
    s.Keeps (s.modifyTable id f) where
  tables i u hu := by
    simp only [modifyTable, List.getElem?_modify, hu, Option.map_eq_map, Option.map_some]
    refine ⟨_, rfl, ?_⟩
    split
    · exact hf u
    · exact ⟨rfl, rfl, rfl⟩
  associations _ a ha := ⟨a, ha, rfl⟩

theorem keeps_of_begins (tables : s.tables <+: t.tables)
    (associations : s.associations <+: t.associations) : s.Keeps t where
  tables _ u hu := ⟨u, getElem?_of_begins tables hu, rfl, rfl, rfl⟩
  associations _ a ha := ⟨a, getElem?_of_begins associations ha, rfl⟩

theorem Keeps.refl (s : Schema) : s.Keeps s :=
  keeps_of_begins (List.prefix_refl _) (List.prefix_refl _)

theorem Changes.keeps (h : s.Changes t) : s.Keeps t := by
  cases h with
  | nothing => exact .refl s
  | table name columns => exact keeps_of_begins (List.prefix_append _ _) (List.prefix_refl _)
  | parameter id column parameter =>
    exact s.keeps_modifyTable id fun u => ⟨rfl, rfl, map_name_bindColumn column parameter u.columns⟩
  | restriction id criteria => exact s.keeps_modifyTable id fun u => ⟨rfl, rfl, rfl⟩
  | association name origin destination relations =>
    exact keeps_of_begins (List.prefix_refl _) (List.prefix_append _ _)
  | through name origin junction destination inward outward =>
    refine keeps_of_begins (List.prefix_refl _) ?_
    exact (List.prefix_append _ _).trans ((List.prefix_append _ _).trans (List.prefix_append _ _))
  | discriminator id owner column value =>
    refine ⟨(Keeps.refl s).tables, fun i a ha => ?_⟩
    simp only [List.getElem?_modify, ha, Option.map_eq_map, Option.map_some]
    refine ⟨_, rfl, ?_⟩
    split <;> rfl

/-! ## Well-formedness -/

/-- The `i`-th association fits the schema. -/
structure IsSound (s : Schema) (i : ℕ) (a : Association) : Prop where
  id : a.id = ⟨i⟩
  origin : a.origin.index < s.tables.length
  destination : a.destination.index < s.tables.length
  /-- One that goes through no junction table pairs columns of its ends. -/
  direct : a.junction = none → a.relations ≠ [] ∧ ∀ r ∈ a.relations,
    s.Declares a.origin r.origin ∧ s.Declares a.destination r.destination
  /-- One through a junction table has two earlier halves that meet there. -/
  through : ∀ j ∈ a.junction, a.relations = [] ∧ j.inward.index < i ∧ j.outward.index < i ∧
    ∃ first second, s.associations[j.inward.index]? = some first ∧
      s.associations[j.outward.index]? = some second ∧
      first.junction = none ∧ second.junction = none ∧ first.origin = a.origin ∧
      second.origin = first.destination ∧ second.destination = a.destination
  discriminated : a.discriminatorTable.isSome ↔ a.discriminators ≠ []
  /-- The discriminators speak of columns of one end. -/
  discriminators : ∀ u ∈ a.discriminatorTable, (u = a.origin ∨ u = a.destination) ∧
    ∀ d ∈ a.discriminators, s.Declares u d.column

structure WellFormed (s : Schema) : Prop where
  tables : Positioned IsPlaced s.tables
  associations : Positioned s.IsSound s.associations

theorem IsTyped.isSound {i : ℕ} {a : Association} (htyped : s.IsTyped i a)
    (hrelated : IsRelated s.associations a) (htidy : IsTidy i a) : s.IsSound i a where
  id := htyped.id
  origin := htyped.origin
  destination := htyped.destination
  direct h := by
    rw [IsRelated, h] at hrelated
    exact ⟨hrelated, htyped.relations⟩
  through j hj := by
    obtain ⟨hrelations, hinward, houtward⟩ := htidy.through j hj
    obtain ⟨first, second, hfirst, hsecond, hends⟩ := htyped.halves j hj
    rw [IsRelated, Option.mem_def.1 hj] at hrelated
    obtain ⟨⟨first', hfirst', hdirect, -⟩, ⟨second', hsecond', hdirect', -⟩⟩ := hrelated
    obtain rfl := Option.some.inj (hfirst.symm.trans hfirst')
    obtain rfl := Option.some.inj (hsecond.symm.trans hsecond')
    exact ⟨hrelations, hinward, houtward, first, second, hfirst, hsecond, hdirect, hdirect', hends⟩
  discriminated := htidy.discriminated
  discriminators u hu := by
    have each : ∀ d ∈ a.discriminators, (u = a.origin ∨ u = a.destination) ∧
        s.Declares u d.column := by
      intro d hd
      obtain ⟨v, hv, hend, hcolumn⟩ := htyped.discriminators d hd
      obtain rfl := Option.mem_unique hu hv
      exact ⟨hend, hcolumn⟩
    have hsome : a.discriminatorTable.isSome := Option.isSome_of_mem hu
    obtain ⟨d, hd⟩ := List.exists_mem_of_ne_nil _ (htidy.discriminated.1 hsome)
    exact ⟨(each d hd).1, fun d hd => (each d hd).2⟩

/-- What a sequence of declarations keeps, each declaration having kept it. -/
theorem declared_induction {P : Schema → Prop} (empty : P empty)
    (step : ∀ s t, s.Changes t → P s → P t) (ds : List Declaration) : P (declared ds) := by
  induction ds using List.reverseRecOn with
  | nil => exact empty
  | append_singleton ds d ih =>
    rw [declared, List.foldl_append]
    exact step _ _ (changes_declare _ d) ih

theorem wellFormed_declared (ds : List Declaration) : (declared ds).WellFormed where
  tables := declared_induction (P := fun s => Positioned IsPlaced s.tables)
    (fun i t h => by simp [empty] at h) (fun _ _ h => h.placed) ds
  associations i a ha := by
    have htidy : Positioned IsTidy (declared ds).associations :=
      declared_induction (P := fun s => Positioned IsTidy s.associations)
        (fun i a h => by simp [empty] at h) (fun _ _ h => h.tidy) ds
    exact (typed_declared ds i a ha).isSound (related_declared ds a (List.mem_of_getElem? ha))
      (htidy i a ha)

theorem keeps_declared (first more : List Declaration) :
    (declared first).Keeps (declared (first ++ more)) := by
  induction more using List.reverseRecOn with
  | nil =>
    rw [List.append_nil]
    exact .refl _
  | append_singleton more d ih =>
    rw [← List.append_assoc]
    have step : declared (first ++ more ++ [d]) = (declared (first ++ more)).declare d :=
      List.foldl_append
    rw [step]
    exact ih.trans (changes_declare _ d).keeps

/-! ## Calls -/

/-- A call is refused without a trace, or it does what its declaration does and hands out what is
there then. -/
theorem execute_cases (s : Schema) (d : Declaration) :
    (∃ e, d.execute s = .error e s ∧ s.declare d = s) ∨
      ∃ issued, d.execute s = .ok issued (s.declare d) ∧
        ∀ i ∈ issued, i.InRange (s.declare d) := by
  cases d with
  | table name columns =>
    refine .inr ⟨_, rfl, ?_⟩
    simp [declare, addTable, Issued.InRange]
  | columnParameter id column parameter =>
    rw [Declaration.execute, Building.ask_bind, declare, setColumnParameter]
    cases (s.table id).requireColumn column with
    | error e => exact .inl ⟨e, rfl, rfl⟩
    | ok c => exact .inr ⟨none, rfl, fun i h => absurd h (Option.not_mem_none i)⟩
  | tableDiscriminator id criteria =>
    exact .inr ⟨none, rfl, fun i h => absurd h (Option.not_mem_none i)⟩
  | association name origin destination relations =>
    rw [Declaration.execute, Building.checkRelations, Building.ask_bind, declare, associate]
    cases Schema.checkRelations (s.table origin) (s.table destination) relations with
    | error e => exact .inl ⟨e, rfl, rfl⟩
    | ok _ =>
      refine .inr ⟨_, rfl, ?_⟩
      simp [bind, Except.bind, pure, Except.pure, pushAssociation, Issued.InRange]
  | manyToMany name origin junction destination inward outward =>
    simp only [Declaration.execute, Building.checkRelations, Building.ask_bind, declare,
      associateThrough]
    cases Schema.checkRelations (s.table origin) (s.table junction) inward with
    | error e => exact .inl ⟨e, rfl, rfl⟩
    | ok _ =>
      dsimp only
      cases Schema.checkRelations (s.table junction) (s.table destination) outward with
      | error e => exact .inl ⟨e, rfl, rfl⟩
      | ok _ =>
        refine .inr ⟨_, rfl, ?_⟩
        simp [bind, Except.bind, pure, Except.pure, pushAssociation, Issued.InRange]
  | discriminator id owner column value =>
    simp only [Declaration.execute, Building.checkEnd, Building.checkSameEnd, Building.ask_bind,
      declare, addDiscriminator]
    by_cases hend : owner ≠ (s.association id).origin ∧ owner ≠ (s.association id).destination
    · rw [if_pos hend, if_pos hend]
      exact .inl ⟨_, rfl, rfl⟩
    rw [if_neg hend, if_neg hend]
    dsimp only
    cases (s.table owner).requireColumn column with
    | error e => exact .inl ⟨e, rfl, rfl⟩
    | ok _ =>
      dsimp only
      by_cases hother : (s.association id).discriminatorTable.any (· ≠ owner)
      · rw [if_pos hother]
        simp only [bind, Except.bind, hother]
        exact .inl ⟨_, rfl, rfl⟩
      · rw [if_neg hother]
        refine .inr ⟨none, ?_, fun i h => absurd h (Option.not_mem_none i)⟩
        -- the end and the discriminator are entered one after the other
        rw [Building.modifyAssociation_bind, Building.modifyAssociation_bind]
        simp only [bind, Except.bind, pure, Except.pure, hother, List.modify_modify_eq]
        rfl

theorem left_execute (s : Schema) (d : Declaration) : left (d.execute s) = s.declare d := by
  rcases s.execute_cases d with ⟨e, hrun, hsame⟩ | ⟨issued, hrun, -⟩
  · rw [hrun, hsame]
    rfl
  · rw [hrun]
    rfl

theorem built_eq_declared (ds : List Declaration) : built ds = declared ds :=
  congrArg (fun step => ds.foldl step empty) (funext fun s => funext fun d => left_execute s d)

/-- After any row of calls the schema is well-formed; the next call leaves it as it is if it is
refused, and hands out what is there otherwise; and all that is there keeps its name, its columns,
its ends, its pairs and its halves through any further calls. -/
theorem built_soundly (ds : List Declaration) :
    (built ds).WellFormed ∧
      (∀ (d : Declaration) e t, d.execute (built ds) = .error e t → t = built ds) ∧
      (∀ (d : Declaration) (issued : Issued) t, d.execute (built ds) = .ok (some issued) t →
        issued.InRange t) ∧
      ∀ more, (built ds).Keeps (built (ds ++ more)) := by
  simp only [built_eq_declared]
  refine ⟨wellFormed_declared ds, fun d e t h => ?_, fun d issued t h => ?_, keeps_declared ds⟩
  · rcases (declared ds).execute_cases d with ⟨e', hrun, -⟩ | ⟨issued, hrun, -⟩
    · rw [hrun] at h
      exact (EStateM.Result.error.inj h).2.symm
    · rw [hrun] at h
      cases h
  · rcases (declared ds).execute_cases d with ⟨e', hrun, -⟩ | ⟨issued', hrun, hrange⟩
    · rw [hrun] at h
      cases h
    · rw [hrun] at h
      obtain ⟨rfl, rfl⟩ := EStateM.Result.ok.inj h
      exact hrange issued rfl

end Schema

end JoinPath
