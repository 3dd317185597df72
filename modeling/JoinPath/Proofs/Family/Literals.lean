import JoinPath.Proofs.Bindings.Agreed
import JoinPath.Proofs.Family.Aliases
/-!
# Literals of a family

The literals of a family make one ledger: each session takes its names from its own alias and a
count of its own, so no name is taken twice, and all that sessions take over from each other's
statements stands in the ledger (`Ledgered`). A parameter that is taken over then agrees with what
is there, whichever of the two came first.
-/

namespace JoinPath

open Bindings (Change IsLedger literalName literalName_inj namedFrom numbersUsed)

/-- Neither a table nor a discriminator brings a NaN, and no table a subquery. -/
structure Schema.Plain (schema : Schema) : Prop where
  subqueries : ∀ t ∈ schema.tables, ∀ c ∈ t.criteria, c.subqueries = []
  literals : ∀ t ∈ schema.tables, ∀ c ∈ t.criteria, ∀ v ∈ c.literals, v.isNaN = false
  discriminators : ∀ a ∈ schema.associations, ∀ d ∈ a.discriminators, d.value.isNaN = false

/-- A discriminator brings its value alone. -/
theorem Association.leaves_discriminatorCriteria {a : Association} {originAlias : String}
    {c : Criteria} (h : c ∈ a.discriminatorCriteria originAlias) :
    ∃ d ∈ a.discriminators, c.literals = [d.value] ∧ c.subqueries = [] := by
  obtain ⟨d, hd, ref, rfl⟩ := exists_discriminator h
  exact ⟨d, hd, rfl, rfl⟩

theorem IsSource.plain {schema : Schema} {passed : List Criteria} {c : Criteria}
    (plain : schema.Plain) (h : IsSource schema passed c) :
    c ∈ passed ∨ c.subqueries = [] ∧ ∀ v ∈ c.literals, v.isNaN = false := by
  cases h with
  | passed hc => exact .inl hc
  | table id hc =>
    obtain ⟨t, ht, hc⟩ := Schema.exists_of_mem_criteria hc
    exact .inr ⟨plain.subqueries t ht c hc, plain.literals t ht c hc⟩
  | association id origin hc =>
    obtain ⟨d, hd, hliterals, hsubqueries⟩ := Association.leaves_discriminatorCriteria hc
    obtain ⟨a, ha, hd⟩ := Schema.exists_of_mem_discriminators hd
    refine .inr ⟨hsubqueries, fun v hv => ?_⟩
    rw [hliterals, List.mem_singleton] at hv
    exact hv ▸ plain.discriminators a ha d hd

namespace Session

variable {s : Session} {call : Call} {entries : List (String × Value)}

/-- The literals that a call composes, with their names. -/
def literalsOf (s : Session) (call : Call) : List (String × Value) :=
  (s.compositionsOf call).flatMap Composition.names

/-- A parameter that a call adds is a literal, or comes with a subquery that is passed to it. -/
theorem plain_of_mem_changesOf (plain : s.schema.Plain) (leaves : call.leavesNames = true)
    {x : Change} (h : x ∈ s.changesOf call) :
    (∀ a v, x = .named a v → a = s.tableAlias ∧
      (v.isNaN = false ∨ ∃ c ∈ s.passed call, v ∈ c.literals)) ∧
    (∀ p, x = .adopted p → ∃ c ∈ s.passed call, ∃ select ∈ c.subqueries, select.parameters = p) ∧
    ∀ name v, x ≠ .assigned name v := by
  obtain ⟨c, hsource, hx⟩ := source_of_mem_changesOf leaves h
  refine ⟨?_, ?_, ?_⟩
  · rintro a v rfl
    obtain ⟨rfl, hv⟩ := Criteria.literal_of_named hx
    refine ⟨rfl, (hsource.plain plain).elim (fun hc => .inr ⟨c, hc, hv⟩) fun hplain => ?_⟩
    exact .inl (hplain.2 v hv)
  · rintro p rfl
    obtain ⟨select, hselect, hp⟩ := Criteria.subquery_of_adopted hx
    refine (hsource.plain plain).elim (fun hc => ⟨c, hc, select, hselect, hp⟩) fun hplain => ?_
    rw [hplain.1] at hselect
    exact absurd hselect List.not_mem_nil
  · rintro name v rfl
    exact Criteria.assigned_not_mem_changes _ _ _ _ hx

theorem parameters_of_selected {select : Select Criteria} (h : s.selected call = some select) :
    select.parameters = (s.perform call).parameters := by
  cases call with
  | select columns =>
    obtain rfl := Option.some.inj h
    rfl
  | _ => cases h

theorem bindings_spawned {inner : Session} (h : s.spawned call = some inner) :
    inner.bindings = .empty ∧ inner.schema = s.schema := by
  obtain ⟨table, rfl⟩ := spawned_eq h
  unfold setAlias
  split <;> exact ⟨rfl, rfl⟩

/-- What agrees with all entries is built without a conflict, and every placeholder has a value that
they give to its name. -/
theorem build_of_agreed (h : s.ensureFilter.bindings.Agreed entries) (columns : List String)
    (d : Dialect) :
    (∀ name, (s.build columns d).1 ≠ .error (.conflictingParameter name)) ∧
    ∀ st, (s.build columns d).1 = .ok st →
      List.Forall₂ (fun name v => (name, v) ∈ entries) st.rendering.names st.values := by
  refine ⟨fun name hbuild => ?_, fun st hst => ?_⟩
  · rw [build_conflict_iff, h.conflict] at hbuild
    cases hbuild
  · obtain ⟨-, hbound⟩ := build_ok hst
    exact (Rendering.forall₂_of_bind hbound).imp fun name v hv => h.get? hv

end Session

namespace Family

open Session (Call)

variable {f : Family} {m : Move} {moves : List Move} {root : String} {preferred : List String}
  {schema : Schema} {entries : List (String × Value)}

/-- The literals that the sessions compose along a run, with their names. -/
def literalsIn (f : Family) (moves : List Move) : List (String × Value) :=
  along perform (fun f m => f.atMove Session.literalsOf m) f moves

/-- A move that leaves the naming to its session and brings no NaN. The subqueries that it brings
are statements that were selected before. -/
structure Admits (f : Family) (m : Move) : Prop where
  leaves : m.call.leavesNames = true
  literals : ((f.atMove Session.passed m).flatMap Criteria.literals).any Value.isNaN = false
  subqueries : (f.atMove Session.passed m).flatMap Criteria.subqueries ⊆ f.issued

/-- Every move of a run is admitted when its turn comes. -/
def AdmitsAll (f : Family) : List Move → Prop
  | [] => True
  | m :: moves => f.Admits m ∧ (f.perform m).AdmitsAll moves

/-- The parameters of all sessions and of all statements are among the `entries`, whose names are
those that the sessions gave out. -/
structure Ledgered (schema : Schema) (entries : List (String × Value)) (f : Family) : Prop where
  schema : ∀ s ∈ f.members, s.schema = schema
  agreed : ∀ s ∈ f.members, s.bindings.Agreed entries
  issued : ∀ select ∈ f.issued, ∀ e ∈ select.parameters.entries, e ∈ entries
  named : ∀ e ∈ entries, ∃ s ∈ f.members, ∃ n ≤ s.bindings.literals,
    e.1 = literalName s.tableAlias n
  ledger : IsLedger entries

theorem ledgered_new (schema : Schema) (table : TableId) (tableAlias : String) :
    (new schema table tableAlias).Ledgered schema [] := by
  have hnew : ((Session.new schema table).setAlias tableAlias).schema = schema ∧
      ((Session.new schema table).setAlias tableAlias).bindings = .empty := by
    unfold Session.setAlias
    split <;> exact ⟨rfl, rfl⟩
  refine ⟨fun s hs => ?_, fun s hs => ?_, fun _ h => absurd h List.not_mem_nil,
    fun _ h => absurd h List.not_mem_nil, List.nodup_nil, fun _ h => absurd h List.not_mem_nil⟩
  · obtain rfl := List.mem_singleton.1 hs
    exact hnew.1
  · obtain rfl := List.mem_singleton.1 hs
    rw [hnew.2]
    exact Bindings.agreed_empty []

variable {s : Session}

/-- The names that a session gives out next were not given out before. -/
theorem Ledgered.fresh (h : f.Ledgered schema entries) (descended : Descended root f.members)
    (hs : s ∈ f.members) {changes : List Change}
    (own : ∀ a v, .named a v ∈ changes → a = s.tableAlias) :
    List.Disjoint (entries.map Prod.fst)
      ((namedFrom s.bindings.literals changes).map Prod.fst) := by
  intro name hold hnew
  obtain ⟨e, he, rfl⟩ := List.mem_map.1 hold
  obtain ⟨⟨_, v⟩, hv, rfl⟩ := List.mem_map.1 hnew
  obtain ⟨t, ht, m, hm, hname⟩ := h.named e he
  obtain ⟨a, n, ha, hname', hlt, -⟩ := Bindings.number_of_mem_namedFrom hv
  obtain rfl := own a v ha
  obtain ⟨halias, rfl⟩ := literalName_inj (hname.symm.trans hname')
  obtain rfl := descended.eq_of_alias ht hs halias
  exact absurd hm (Nat.not_le.2 hlt)

/-- What a call adds to the ledger of a family. -/
structure Adds (f : Family) (s : Session) (call : Call) : Prop where
  own : ∀ a v, .named a v ∈ s.changesOf call → a = s.tableAlias ∧ v.isNaN = false
  adopted : ∀ p, .adopted p ∈ s.changesOf call → ∃ select ∈ f.issued, select.parameters = p
  unset : ∀ name v, .assigned name v ∉ s.changesOf call

theorem Admits.adds (h : f.Admits m) (plain : s.schema.Plain)
    (hs : f.members[m.member]? = some s) : f.Adds s m.call := by
  have hpassed : f.atMove Session.passed m = s.passed m.call := by
    rw [atMove, hs, Option.elim_some]
  obtain ⟨leaves, hliterals, hsubqueries⟩ := h
  rw [hpassed] at hliterals hsubqueries
  refine ⟨fun a v hx => ?_, fun p hx => ?_, fun name v hx => ?_⟩
  · obtain ⟨hnamed, -, -⟩ := Session.plain_of_mem_changesOf plain leaves hx
    obtain ⟨ha, hv | ⟨c, hc, hv⟩⟩ := hnamed a v rfl
    · exact ⟨ha, hv⟩
    · rw [List.any_eq_false] at hliterals
      exact ⟨ha, Bool.eq_false_iff.2 (hliterals v (List.mem_flatMap.2 ⟨c, hc, hv⟩))⟩
  · obtain ⟨-, hadopted, -⟩ := Session.plain_of_mem_changesOf plain leaves hx
    obtain ⟨c, hc, select, hselect, hp⟩ := hadopted p rfl
    exact ⟨select, hsubqueries (List.mem_flatMap.2 ⟨c, hc, hselect⟩), hp⟩
  · obtain ⟨-, -, hassigned⟩ := Session.plain_of_mem_changesOf plain leaves hx
    exact hassigned name v rfl

theorem Ledgered.isLedger (h : f.Ledgered schema entries) (descended : Descended root f.members)
    (hs : s ∈ f.members) {call : Call} (adds : f.Adds s call) :
    IsLedger (entries ++ s.literalsOf call) := by
  have hnames : s.literalsOf call = namedFrom s.bindings.literals (s.changesOf call) :=
    s.names_compositionsOf call
  constructor
  · rw [List.map_append, hnames]
    exact .append h.ledger.nodup (Bindings.nodup_namedFrom _ _)
      (h.fresh descended hs fun a v hx => (adds.own a v hx).1)
  · intro e he
    rcases List.mem_append.1 he with he | he
    · exact h.ledger.numbers e he
    · rw [hnames] at he
      obtain ⟨name, v⟩ := e
      obtain ⟨a, n, hx, -, -, -⟩ := Bindings.number_of_mem_namedFrom he
      exact (adds.own a v hx).2

theorem Ledgered.agreed_perform (h : f.Ledgered schema entries)
    (descended : Descended root f.members) (hs : s ∈ f.members) {call : Call}
    (adds : f.Adds s call) :
    (s.perform call).bindings.Agreed (entries ++ s.literalsOf call) := by
  rw [Session.bindings_perform]
  refine ((h.agreed s hs).mono (List.subset_append_left _ _)).changed
    (h.isLedger descended hs adds) (fun e he => ?_) (fun p hp e he => ?_) adds.unset
  · rw [← Session.names_compositionsOf] at he
    exact List.mem_append_right _ he
  · obtain ⟨select, hselect, rfl⟩ := adds.adopted p hp
    exact List.mem_append_left _ (h.issued select hselect e he)

theorem Ledgered.perform (h : f.Ledgered schema entries) (plain : schema.Plain)
    (descended : Descended root f.members) (admits : f.Admits m) :
    (f.perform m).Ledgered schema (entries ++ f.atMove Session.literalsOf m) := by
  cases hs : f.members[m.member]? with
  | none =>
    have hstays : f.perform m = f := by rw [Family.perform, hs]
    rw [hstays, atMove, hs, Option.elim_none, List.append_nil]
    exact h
  | some s =>
    have hmoved := moved_of_getElem? hs
    have hmem : s ∈ f.members := List.mem_of_getElem? hs
    have adds := admits.adds (h.schema s hmem ▸ plain) hs
    have hbase := s.sameBase_perform (Session.Call.keepsScope_of_leavesNames admits.leaves)
    have hagreed := h.agreed_perform descended hmem adds
    have hcount : (s.perform m.call).bindings.literals =
        s.bindings.literals + numbersUsed (s.changesOf m.call) := by
      rw [Session.bindings_perform, Bindings.literals_changed]
    rw [atMove, hs, Option.elim_some]
    refine ⟨fun t ht => ?_, fun t ht => ?_, fun select hselect e he => ?_, fun e he => ?_,
      h.isLedger descended hmem adds⟩
    · obtain hold | rfl | hspawned := hmoved.old t ht
      · exact h.schema t hold
      · exact hbase.schema.trans (h.schema s hmem)
      · exact (Session.bindings_spawned hspawned).2.trans (h.schema s hmem)
    · obtain hold | rfl | hspawned := hmoved.old t ht
      · exact (h.agreed t hold).mono (List.subset_append_left _ _)
      · exact hagreed
      · rw [(Session.bindings_spawned hspawned).1]
        exact Bindings.agreed_empty _
    · rw [hmoved.issued] at hselect
      rcases List.mem_append.1 hselect with hold | hnew
      · exact List.mem_append_left _ (h.issued select hold e he)
      · rw [Session.parameters_of_selected (Option.mem_toList.1 hnew)] at he
        exact hagreed.bound e he
    · rcases List.mem_append.1 he with hold | hnew
      · obtain ⟨t, ht, n, hle, hname⟩ := h.named e hold
        rcases hmoved.kept t ht with ht | rfl
        · exact ⟨t, ht, n, hle, hname⟩
        · exact ⟨_, hmoved.moved, n, by omega, by rw [hbase.tableAlias, hname]⟩
      · rw [Session.literalsOf, Session.names_compositionsOf] at hnew
        obtain ⟨name, v⟩ := e
        obtain ⟨a, n, hx, hname, -, hle⟩ := Bindings.number_of_mem_namedFrom hnew
        -- A new literal is named after the alias of the session that moved.
        obtain ⟨rfl, -⟩ := adds.own a v hx
        exact ⟨_, hmoved.moved, n, by omega, by rw [hbase.tableAlias, hname]⟩

theorem Ledgered.run (h : f.Ledgered schema entries) (plain : schema.Plain)
    (arranged : f.Arranged root preferred) (admits : f.AdmitsAll moves) :
    (f.run moves).Ledgered schema (entries ++ f.literalsIn moves) := by
  induction moves generalizing f entries preferred with
  | nil =>
    rw [literalsIn, along, List.append_nil]
    exact h
  | cons m moves ih =>
    obtain ⟨hfirst, hrest⟩ := admits
    have hstep := ih (h.perform plain arranged.descended hfirst)
      (arranged.perform hfirst.leaves) hrest
    rw [List.append_assoc] at hstep
    exact hstep

end Family

end JoinPath
