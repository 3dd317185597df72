import JoinPath.Proofs.Criteria.Inside
import JoinPath.Proofs.Hops.Composed
/-!
# Literals of a statement

No literal is lost on the way into a statement. Each one that a session composes has a name of its
own, and the statement holds a parameter of that name in its place; putting the values of those
parameters back gives every condition of the statement as it was composed (`literals_restored`).
The values are those of the placeholders once the statement is built.
-/

namespace JoinPath

open Bindings (namedFrom)
open Criteria (Conjoined Gathered IsNamed conjunctsOf namesIn restore)

/-- A name that a literal may receive. -/
def Bindings.IsLiteralName (name : String) : Prop := ∃ a n, name = literalName a n

namespace Composition

/-- The condition with its literals and as it was composed. -/
def pair? (c : Composition) : Option (Criteria × Criteria) :=
  match c.original, c.composed with
  | some o, some d => some (o, d)
  | _, _ => none

variable {c : Composition} {cs : List Composition} {p : Criteria × Criteria}

theorem pair?_eq_some (h : c.pair? = some p) : c.original = some p.1 ∧ c.composed = some p.2 := by
  unfold pair? at h
  split at h
  · next ho hd =>
    obtain rfl := Option.some.inj h
    exact ⟨ho, hd⟩
  · cases h

theorem names_eq_elim (c : Composition) : c.names = c.pair?.elim [] fun p => p.1.namesAt p.2 := by
  unfold names pair?
  cases c.original <;> cases c.composed <;> rfl

theorem namesIn_pairs (cs : List Composition) :
    namesIn (cs.filterMap pair?) = cs.flatMap names := by
  induction cs with
  | nil => rfl
  | cons c cs ih =>
    rw [List.flatMap_cons, ← ih, names_eq_elim]
    cases h : c.pair? with
    | none => rw [List.filterMap_cons_none h]; rfl
    | some p => rw [List.filterMap_cons_some h]; rfl

theorem IsMade.isNamed (h : c.IsMade) (hp : c.pair? = some p) : IsNamed p.1 p.2 := by
  obtain ⟨a, b, hmade⟩ := h
  obtain ⟨ho, hd⟩ := pair?_eq_some hp
  unfold NamedFrom at hmade
  rw [ho, hd, Option.map_some] at hmade
  exact ⟨a, b, Option.some.inj hmade⟩

theorem IsMade.pair?_eq (h : c.IsMade) :
    c.pair?.map Prod.fst = c.original ∧ c.pair?.map Prod.snd = c.composed := by
  obtain ⟨a, b, hmade⟩ := h
  unfold NamedFrom at hmade
  unfold pair?
  rw [hmade]
  cases c.original <;> exact ⟨rfl, rfl⟩

theorem IsMade.map_snd_names (h : c.IsMade) : c.names.map Prod.snd = c.literals := by
  obtain ⟨horiginal, -⟩ := h.pair?_eq
  rw [names_eq_elim, literals, ← horiginal]
  cases hp : c.pair? with
  | none => rfl
  | some p => exact (h.isNamed hp).map_snd_namesAt

theorem filterMap_pair? (h : ∀ c ∈ cs, c.IsMade) :
    (cs.filterMap pair?).map Prod.fst = cs.filterMap original ∧
      (cs.filterMap pair?).map Prod.snd = cs.filterMap composed := by
  rw [List.map_filterMap, List.map_filterMap]
  exact ⟨List.filterMap_congr fun c hc => (h c hc).pair?_eq.1,
    List.filterMap_congr fun c hc => (h c hc).pair?_eq.2⟩

/-- No literal is left in what was composed. -/
theorem IsMade.literals_eq_nil (h : c.IsMade) {d : Criteria} (hd : c.composed = some d) :
    d.literals = [] := by
  obtain ⟨-, hcomposed⟩ := h.pair?_eq
  rw [hd] at hcomposed
  obtain ⟨p, hp, rfl⟩ := Option.map_eq_some_iff.1 hcomposed
  exact (h.isNamed hp).filled.literals_eq_nil

variable {value : String → Option Value}

/-- The values of the names give the condition back. -/
theorem IsMade.restore (h : c.IsMade) (values : ∀ e ∈ c.names, value e.1 = some e.2)
    (own : ∀ o ∈ c.original, ∀ name ∈ o.params, value name = none) :
    c.composed.map (Criteria.restore value) = c.original := by
  obtain ⟨horiginal, hcomposed⟩ := h.pair?_eq
  rw [names_eq_elim] at values
  rw [← hcomposed]
  rw [← horiginal] at own ⊢
  cases hp : c.pair? with
  | none => rfl
  | some p =>
    rw [hp] at values own
    exact congrArg some (Criteria.restore_of_filled (h.isNamed hp).filled
      (fun name v hn => values (name, v) hn) (own p.1 rfl))

/-- What is conjoined of compositions restores to their conditions with the literals. -/
theorem gathered (made : ∀ c ∈ cs, c.IsMade) (nodup : ((cs.flatMap names).map Prod.fst).Nodup)
    (values : ∀ e ∈ cs.flatMap names, value e.1 = some e.2)
    (own : ∀ c ∈ cs, ∀ o ∈ c.original, ∀ name ∈ o.params, value name = none)
    {result : List Criteria} (h : Conjoined [] (cs.filterMap composed) result) :
    Gathered [] (cs.filterMap original) (result.map (Criteria.restore value)) := by
  obtain ⟨horiginal, hcomposed⟩ := filterMap_pair? made
  rw [← hcomposed] at h
  rw [← horiginal]
  rw [← namesIn_pairs] at nodup values
  refine Criteria.gathered_restore h (fun p hp => ?_) nodup values (fun p hp name hname => ?_)
    fun e _ => List.not_mem_nil
  · obtain ⟨c, hc, hp⟩ := List.mem_filterMap.1 hp
    exact (made c hc).isNamed hp
  · obtain ⟨c, hc, hp⟩ := List.mem_filterMap.1 hp
    exact own c hc p.1 (pair?_eq_some hp).1 name hname

end Composition

namespace Session

open Bindings (IsLiteralName)

variable {schema : Schema} {table : TableId} {calls : List Call}

theorem names_compositions_new (schema : Schema) (table : TableId) (calls : List Call) :
    ((new schema table).compositions calls).flatMap Composition.names =
      namedFrom 0 ((new schema table).history calls) :=
  names_compositions _ _

theorem isLiteralName_of_mem_names {e : String × Value}
    (h : e ∈ ((new schema table).compositions calls).flatMap Composition.names) :
    IsLiteralName e.1 := by
  rw [names_compositions_new] at h
  obtain ⟨a, n, -, hname, -, -⟩ := Bindings.number_of_mem_namedFrom h
  exact ⟨a, n, hname⟩

/-- A literal's name has its value, unless the caller may have set it. -/
theorem get?_of_mem_names
    (unset : ∀ name value, .setParameter name value ∈ calls → ¬ IsLiteralName name)
    {e : String × Value}
    (h : e ∈ ((new schema table).compositions calls).flatMap Composition.names) :
    ((new schema table).run calls).parameters.get? e.1 = some e.2 := by
  have hname := isLiteralName_of_mem_names h
  rw [names_compositions_new] at h
  rw [parameters, bindings_run]
  exact Bindings.get?_changed_of_named h fun v hv =>
    unset e.1 v (setParameter_mem_of_assigned _ hv) hname

/-- No condition that the caller or a table brings has a parameter with the name of a literal. -/
structure Unwritten (schema : Schema) (table : TableId) (calls : List Call) : Prop where
  passed : ∀ c ∈ (new schema table).passedIn calls, ∀ name ∈ c.params, ¬ IsLiteralName name
  tables : ∀ t ∈ schema.tables, ∀ c ∈ t.criteria, ∀ name ∈ c.params, ¬ IsLiteralName name

theorem Unwritten.of_mem_compositions (h : Unwritten schema table calls) {c : Composition}
    (hc : c ∈ (new schema table).compositions calls) (hplace : c.place ≠ .caller) :
    ∀ o ∈ c.original, ∀ name ∈ o.params, ¬ IsLiteralName name := by
  intro o ho name hname
  obtain ⟨d, hd, hpassed | ⟨t, ht⟩⟩ := (isComposition_of_mem hc).mem_params hplace ho hname
  · exact h.passed d hpassed name hd
  · obtain ⟨t', ht', hmem⟩ := Schema.exists_of_mem_criteria ht
    exact h.tables t' ht' d hmem name hd

/-! ## The statement -/

/-- What the statement of a session holds gives back what was composed, once each name of a literal
is replaced by its `value`. -/
structure Restored (value : String → Option Value) (cs : List Composition)
    (filter : Option Criteria) (hops : List PlacedHop) : Prop where
  /-- The filter is the last one composed. -/
  filter : ∃ c, (cs.filter fun c => c.place = .filter).getLast? = some c ∧
    filter.map (restore value) = c.original
  /-- The condition of a hop is made of those composed for its placement. -/
  hop : ∀ id hop, (some id, hop) ∈ hops →
    Gathered [] ((madeFor cs id).filterMap Composition.original)
      ((conjunctsOf hop.on).map (restore value))
  /-- A junction table has no condition. -/
  junction : ∀ hop, (none, hop) ∈ hops → hop.on = none
  /-- What was composed for a hop has that hop. -/
  landed : ∀ c ∈ cs, ∀ id, c.place = .hop id → ∃ hop, (some id, hop) ∈ hops

theorem literals_eq_nil_of_conjoined {cs : List Composition} (made : ∀ c ∈ cs, c.IsMade)
    {on : Criteria} (h : Conjoined [] (cs.filterMap Composition.composed) on.conjuncts) :
    on.literals = [] := by
  rw [← Criteria.collects_literals.conjuncts, List.flatMap_eq_nil_iff]
  intro d hd
  obtain ⟨e, he, hmem⟩ := List.mem_flatMap.1 (h.subset hd)
  obtain ⟨c, hc, hcomposed⟩ := List.mem_filterMap.1 he
  have hnil := (made c hc).literals_eq_nil hcomposed
  rw [← Criteria.collects_literals.conjuncts, List.flatMap_eq_nil_iff] at hnil
  exact hnil d hmem

theorem filterFrom_new (schema : Schema) (table : TableId) : (new schema table).FilterFrom [] :=
  fun hset => absurd hset Bool.false_ne_true

/-- A statement that is built has the text of what is selected. -/
theorem rendering_of_build_ok {s : Session} {columns : List String} {d : Dialect}
    {st : JoinPath.Statement} (h : (s.build columns d).1 = .ok st) :
    st.rendering = (s.select columns).1.render d := by
  have hassemble : ∀ t : Session, ∀ select st, t.assemble select d = .ok st →
      st.rendering = select.render d := by
    intro t select st hst
    unfold assemble at hst
    split at hst
    · cases hst
    · cases hbind : (select.render d).bind t.parameters with
      | error e => simp [hbind, Except.map] at hst
      | ok values =>
        simp only [hbind, Except.map] at hst
        obtain rfl := Except.ok.inj hst
        rfl
  unfold build at h
  dsimp only at h
  split at h
  · cases h
  · next st' hst =>
    obtain rfl := Except.ok.inj h
    exact hassemble _ _ _ hst

section Statement

variable {t : Session} {cs : List Composition}

/-- No condition of a statement has a literal left. -/
theorem literals_of_mem_conditions (made : ∀ c ∈ cs, c.IsMade) (hfilter : t.FilterFrom cs)
    (hset : t.filterSet = true)
    (hvisits : t.visitConditions = cs.filterMap Composition.forHop) (columns : List String) :
    ∀ on ∈ (t.statement columns).conditions, on.literals = [] := by
  intro on hon
  rcases List.mem_append.1 hon with hon | hon
  · obtain ⟨c, hlast, hcomposed⟩ := hfilter hset
    have hc := (List.mem_filter.1 (List.mem_of_getLast? hlast)).1
    exact (made c hc).literals_eq_nil (hcomposed ▸ Option.mem_toList.1 hon)
  · obtain ⟨hop, hhop, hon⟩ := List.mem_filterMap.1 hon
    obtain ⟨⟨owner, hop⟩, hplaced, rfl⟩ := List.mem_map.1 hhop
    rcases on_of_mem_placedHops hvisits hplaced with ⟨-, hnone⟩ | ⟨id, -, hconjoined⟩
    · rw [hnone] at hon
      cases hon
    · rw [hon] at hconjoined
      exact literals_eq_nil_of_conjoined (fun c hc => made c (List.mem_filter.1 hc).1) hconjoined

/-- With a value for each name the statement gives back what was composed. -/
theorem restored_of_compositions {value : String → Option Value} (made : ∀ c ∈ cs, c.IsMade)
    (nodup : ((cs.flatMap Composition.names).map Prod.fst).Nodup)
    (values : ∀ e ∈ cs.flatMap Composition.names, value e.1 = some e.2)
    (own : ∀ c ∈ cs, c.place ≠ .caller → ∀ o ∈ c.original, ∀ name ∈ o.params, value name = none)
    (hfilter : t.FilterFrom cs) (hset : t.filterSet = true)
    (hvisits : t.visitConditions = cs.filterMap Composition.forHop) :
    Restored value cs t.filter t.placedHops.1 where
  filter := by
    obtain ⟨c, hlast, hcomposed⟩ := hfilter hset
    obtain ⟨hc, hplace⟩ := List.mem_filter.1 (List.mem_of_getLast? hlast)
    refine ⟨c, hlast, ?_⟩
    rw [hcomposed]
    refine (made c hc).restore (fun e he => values e (List.mem_flatMap.2 ⟨c, hc, he⟩)) ?_
    exact own c hc (by rw [of_decide_eq_true hplace]; exact nofun)
  hop := by
    intro id hop hmem
    rcases on_of_mem_placedHops hvisits hmem with ⟨hnone, -⟩ | ⟨id', hid, hconjoined⟩
    · cases hnone
    · obtain rfl := Option.some.inj hid
      have hsub : (madeFor cs id).Sublist cs := List.filter_sublist
      have hnames := hsub.flatMap Composition.names
      refine Composition.gathered (fun c hc => made c (hsub.subset hc))
        (nodup.sublist (hnames.map Prod.fst)) (fun e he => values e (hnames.subset he))
        (fun c hc => own c (hsub.subset hc) ?_) hconjoined
      rw [of_decide_eq_true (List.mem_filter.1 hc).2]
      exact nofun
  junction := by
    intro hop hmem
    rcases on_of_mem_placedHops hvisits hmem with ⟨-, hon⟩ | ⟨id, hid, -⟩
    · exact hon
    · cases hid
  landed := fun c hc id hplace => exists_hop_of_composition hvisits hc hplace

end Statement

/-- However a session goes: where only literals have the names of literals, the statement that it
selects has no literal outside subqueries. Each literal that was composed has a name, and no two
have the same; the values of these names give back the conditions that were composed, each literal
at its place, and a statement that is built has them at its placeholders. -/
theorem literals_restored (schema : Schema) (table : TableId) (calls : List Call)
    (composed : ∀ path fetch, .addJoin path fetch ∉ calls)
    (unset : ∀ name value, .setParameter name value ∈ calls → ¬ IsLiteralName name)
    (unwritten : Unwritten schema table calls) (columns : List String) :
    let s := (new schema table).run calls
    let cs := (new schema table).compositions (calls ++ [.select columns])
    let statement := (s.select columns).1
    let hops := (s.select columns).2.placedHops.1
    let value name := if name ∈ (cs.flatMap Composition.names).map Prod.fst then
      statement.parameters.get? name else none
    (∀ c ∈ cs, c.names.map Prod.snd = c.literals) ∧
    ((cs.flatMap Composition.names).map Prod.fst).Nodup ∧
    (∀ on ∈ statement.conditions, on.literalCount = 0) ∧
    statement.joins = hops.map Prod.snd ∧
    Restored value cs statement.filter hops ∧
    ∀ d st, (s.build columns d).1 = .ok st → st.rendering = statement.render d ∧
      List.Forall₂ (fun name v => statement.parameters.get? name = some v) st.rendering.names
        st.values := by
  intro s cs statement hops value
  have hcalls : ∀ path fetch, .addJoin path fetch ∉ calls ++ [.select columns] := by
    simpa using composed
  have hunset : ∀ name v, .setParameter name v ∈ calls ++ [.select columns] →
      ¬ IsLiteralName name := by
    simpa using unset
  have hunwritten : Unwritten schema table (calls ++ [.select columns]) := by
    refine ⟨?_, unwritten.tables⟩
    rw [passedIn_concat_select]
    exact unwritten.passed
  have hend : (s.select columns).2 = (new schema table).run (calls ++ [.select columns]) :=
    select_snd_run _ _ _
  have made : ∀ c ∈ cs, c.IsMade := fun c hc => (isComposition_of_mem hc).isMade
  have nodup : ((cs.flatMap Composition.names).map Prod.fst).Nodup := by
    rw [names_compositions_new]
    exact Bindings.nodup_namedFrom _ _
  have hfilter : (s.select columns).2.FilterFrom cs := by
    rw [hend]
    exact (filterFrom_new schema table).run _
  have hset : (s.select columns).2.filterSet = true := s.filterSet_ensureFilter
  have hvisits : (s.select columns).2.visitConditions = cs.filterMap Composition.forHop := by
    rw [hend]
    exact visits_run _ hcalls
  have values : ∀ e ∈ cs.flatMap Composition.names, value e.1 = some e.2 := by
    intro e he
    have hvalue : statement.parameters =
        ((new schema table).run (calls ++ [.select columns])).parameters := by
      rw [← hend]
      rfl
    rw [← get?_of_mem_names hunset he, ← hvalue]
    exact if_pos (List.mem_map_of_mem he)
  -- No generated name is written in what tables and associations ask for.
  have own : ∀ c ∈ cs, c.place ≠ .caller → ∀ o ∈ c.original, ∀ name ∈ o.params,
      value name = none := by
    intro c hc hplace o ho name hname
    refine if_neg fun hmem => hunwritten.of_mem_compositions hc hplace o ho name hname ?_
    obtain ⟨e, he, rfl⟩ := List.mem_map.1 hmem
    exact isLiteralName_of_mem_names he
  refine ⟨fun c hc => (made c hc).map_snd_names, nodup, fun on hon => ?_, rfl,
    restored_of_compositions made nodup values own hfilter hset hvisits, fun d st hst => ?_⟩
  · rw [Criteria.literalCount_eq,
      literals_of_mem_conditions made hfilter hset hvisits columns on hon]
    rfl
  · obtain ⟨-, hbound⟩ := build_ok hst
    exact ⟨rendering_of_build_ok hst, Rendering.forall₂_of_bind hbound⟩

/-- Joins the lines of two kinds, under another alias the second time, and restricts the orders. -/
def renamedBetween : List Call := [
  .joinTo [linesOf "A"] false,
  .setAlias "o",
  .joinTo [linesOf "B"] true,
  .setFilter [.eq (.col "id") (.literal (.string "7"))]]

theorem literals_restored_renamedBetween :
    (∀ path fetch, .addJoin path fetch ∉ renamedBetween) ∧
    (∀ name value, .setParameter name value ∈ renamedBetween → ¬ IsLiteralName name) ∧
    Unwritten ordersWithLines ⟨0⟩ renamedBetween ∧
    ∃ value : String → Option Value,
      value "t0_R1" = some (.string "A") ∧ value "o_R2" = some (.string "B") ∧
      value "o_R3" = some (.string "7") ∧
      Restored value
        ((new ordersWithLines ⟨0⟩).compositions (renamedBetween ++ [.select ["id"]]))
        (((new ordersWithLines ⟨0⟩).run renamedBetween).select ["id"]).1.filter
        (((new ordersWithLines ⟨0⟩).run renamedBetween).select ["id"]).2.placedHops.1 := by
  have composed : ∀ path fetch, .addJoin path fetch ∉ renamedBetween := by simp [renamedBetween]
  have unset : ∀ name value, .setParameter name value ∈ renamedBetween → ¬ IsLiteralName name := by
    simp [renamedBetween]
  have unwritten : Unwritten ordersWithLines ⟨0⟩ renamedBetween := by
    have hpassed : ((new ordersWithLines ⟨0⟩).passedIn renamedBetween).flatMap
        Criteria.params = [] := by cbv
    have htables : (ordersWithLines.tables.flatMap Table.criteria).flatMap
        Criteria.params = [] := by cbv
    rw [List.flatMap_eq_nil_iff] at hpassed htables
    refine ⟨fun c hc name hname => ?_, fun t ht c hc name hname => ?_⟩
    · simp [hpassed c hc] at hname
    · simp [htables c (List.mem_flatMap.2 ⟨t, ht, hc⟩)] at hname
  obtain ⟨-, -, -, -, restored, -⟩ :=
    literals_restored ordersWithLines ⟨0⟩ renamedBetween composed unset unwritten ["id"]
  exact ⟨composed, unset, unwritten, _, by cbv, by cbv, by cbv, restored⟩

end Session

end JoinPath
