import JoinPath.Proofs.Criteria.Slots
import JoinPath.Proofs.Session.Literals
/-!
# Bound placeholders

A name that has a value keeps one, whatever becomes of the session, and a literal gives its name a
value at once. So a placeholder without a value is none of those that the session made: the caller
or a table wrote it as a parameter, or it stands in a statement inside a condition. A build fails
exactly for want of such a value, or for a conflict (`placeholders_bound`).
-/

namespace JoinPath

namespace Bindings

/-- The name has a value. -/
def Binds (b : Bindings) (name : String) : Prop := ∃ v, b.parameters.get? name = some v

variable {b : Bindings} {name : String}

theorem binds_set_iff {other : String} {value : Value} :
    (b.set other value).Binds name ↔ name = other ∨ b.Binds name := by
  unfold Binds
  rw [get?_set]
  by_cases heq : other = name
  · simp [heq]
  · simp [heq, Ne.symm heq]

theorem binds_set (b : Bindings) (name : String) (value : Value) : (b.set name value).Binds name :=
  binds_set_iff.2 (.inl rfl)

theorem Binds.set (h : b.Binds name) (other : String) (value : Value) :
    (b.set other value).Binds name :=
  binds_set_iff.2 (.inr h)

theorem Binds.change (h : b.Binds name) (c : Change) : (b.change c).Binds name := by
  cases c with
  | named a v => exact Binds.set (b := b.nextLiteral.2) h _ v
  | skipped => exact h
  | adopted p =>
    obtain ⟨v, hv⟩ := h
    exact ⟨v, get?_foldl_of_bound hv p.entries⟩
  | assigned other v => exact h.set other v

/-- No change takes a value away. -/
theorem Binds.changed (h : b.Binds name) (cs : List Change) : (b.changed cs).Binds name := by
  induction cs generalizing b with
  | nil => exact h
  | cons c cs ih => exact ih (h.change c)

/-- The name of a literal has a value ever after. -/
theorem binds_of_named {v : Value} {cs : List Change} (h : (name, v) ∈ namedFrom b.literals cs) :
    (b.changed cs).Binds name := by
  induction cs generalizing b with
  | nil => cases h
  | cons c cs ih =>
    have later (h : (name, v) ∈ namedFrom (b.literals + c.numbers) cs) :
        ((b.change c).changed cs).Binds name := ih (literals_change b c ▸ h)
    cases c with
    | named a u =>
      rcases List.mem_cons.1 h with heq | h
      · obtain ⟨rfl, -⟩ := Prod.mk.inj heq
        exact (binds_set b.nextLiteral.2 (literalName a (b.literals + 1)) u).changed cs
      · exact later h
    | skipped => exact later h
    | adopted p => exact later h
    | assigned n w => exact later h

end Bindings

namespace Session

open Bindings (Binds)

/-- A condition that was handed over, or one of a table. -/
def IsWritten (schema : Schema) (passed : List Criteria) (c : Criteria) : Prop :=
  c ∈ passed ∨ ∃ t, c ∈ (schema.table t).criteria

variable {schema : Schema} {passed : List Criteria}

/-- A placeholder of a composition was written, or a literal took its name there. -/
theorem IsComposition.mem_slots {c : Composition} (hc : IsComposition schema passed c)
    (hplace : c.place ≠ .caller) {d : Criteria} (hd : c.composed = some d) {name : String}
    (hname : name ∈ d.slots) :
    (∃ v, (name, v) ∈ c.names) ∨ ∃ w, IsWritten schema passed w ∧ name ∈ w.slots := by
  obtain ⟨a, b, hmade⟩ := hc.isMade
  rw [Composition.NamedFrom, hd] at hmade
  obtain ⟨o, ho, rfl⟩ := Option.map_eq_some_iff.1 hmade.symm
  have hnamed : Criteria.IsNamed o (o.bindLiterals a b).1 := ⟨a, b, rfl⟩
  rcases hnamed.filled.mem_slots hname with hname | ⟨v, hv⟩
  · obtain ⟨tableAlias, cs, hconjunction, hparts⟩ := hc.exists_parts hplace ho
    rw [Criteria.collects_slots.conjunction (fun _ _ => rfl) hconjunction] at hname
    obtain ⟨w, hw, hname⟩ := List.mem_flatMap.1 hname
    rcases hparts w hw with hpassed | htable | ⟨association, origin, hdiscriminator⟩
    · exact .inr ⟨w, .inl hpassed, hname⟩
    · exact .inr ⟨w, .inr htable, hname⟩
    · obtain ⟨_, -, _, rfl⟩ := Association.exists_discriminator hdiscriminator
      exact absurd hname List.not_mem_nil
  · refine .inl ⟨v, ?_⟩
    rw [Composition.names, ho, hd]
    exact hv

/-- The placeholders of a statement come from what was composed for it. -/
theorem exists_composition_of_mem_names {t : Session} {cs : List Composition}
    (hfilter : t.FilterFrom cs) (hset : t.filterSet = true)
    (hvisits : t.visitConditions = cs.filterMap Composition.forHop) {columns : List String}
    {d : Dialect} {name : String} (h : name ∈ ((t.statement columns).render d).names) :
    ∃ c ∈ cs, c.place ≠ .caller ∧ ∃ o, c.composed = some o ∧ name ∈ o.slots := by
  rcases Criteria.exists_of_mem_names_select h with ⟨hop, hhop, on, hon, hname⟩ | ⟨o, ho, hname⟩
  · obtain ⟨⟨owner, hop⟩, hplaced, rfl⟩ := List.mem_map.1 hhop
    rcases on_of_mem_placedHops hvisits hplaced with ⟨-, hnone⟩ | ⟨id, -, hconjoined⟩
    · rw [hnone] at hon
      cases hon
    · rw [Option.mem_def.1 hon] at hconjoined
      rw [← Criteria.collects_slots.conjuncts] at hname
      obtain ⟨part, hpart, hname⟩ := List.mem_flatMap.1 hname
      obtain ⟨o, ho, hmem⟩ := List.mem_flatMap.1 (hconjoined.subset hpart)
      obtain ⟨c, hc, hcomposed⟩ := List.mem_filterMap.1 ho
      obtain ⟨hc, hplace⟩ := List.mem_filter.1 hc
      refine ⟨c, hc, by rw [of_decide_eq_true hplace]; exact nofun, o, hcomposed, ?_⟩
      rw [← Criteria.collects_slots.conjuncts]
      exact List.mem_flatMap.2 ⟨part, hmem, hname⟩
  · obtain ⟨c, hlast, hcomposed⟩ := hfilter hset
    obtain ⟨hc, hplace⟩ := List.mem_filter.1 (List.mem_of_getLast? hlast)
    exact ⟨c, hc, by rw [of_decide_eq_true hplace]; exact nofun, o, hcomposed ▸ ho, hname⟩

section
variable {table : TableId} {calls : List Call} {name : String}

/-- The name of a literal has a value at the end of the calls. -/
theorem exists_value_of_mem_names {v : Value}
    (h : (name, v) ∈ ((new schema table).compositions calls).flatMap Composition.names) :
    ∃ w, ((new schema table).run calls).parameters.get? name = some w := by
  rw [names_compositions_new] at h
  rw [parameters, bindings_run]
  exact Bindings.binds_of_named h

/-- A placeholder of a statement that is the name of no literal was written. -/
theorem written_of_mem_names (composed : ∀ path fetch, .addJoin path fetch ∉ calls)
    {columns : List String} {d : Dialect}
    (hname : name ∈ ((((new schema table).run calls).select columns).1.render d).names)
    (unnamed : ∀ v, (name, v) ∉
      ((new schema table).compositions (calls ++ [.select columns])).flatMap Composition.names) :
    ∃ c, IsWritten schema ((new schema table).passedIn calls) c ∧
      (name ∈ c.params ∨ ∃ q ∈ c.subqueries, name ∈ (q.render d).names) := by
  have hend := (new schema table).select_snd_run calls columns
  have hfilter := (filterFrom_new schema table).run (calls ++ [.select columns])
  have hcalls : ∀ path fetch, .addJoin path fetch ∉ calls ++ [.select columns] := by
    simpa using composed
  have hvisits := visits_run (new schema table) hcalls
  rw [← hend] at hfilter hvisits
  obtain ⟨c, hc, hplace, o, ho, hslot⟩ := exists_composition_of_mem_names hfilter
    ((new schema table).run calls).filterSet_ensureFilter hvisits hname
  have hcomposition := isComposition_of_mem hc
  rw [passedIn_concat_select] at hcomposition
  rcases hcomposition.mem_slots hplace ho hslot with ⟨v, hv⟩ | ⟨w, hw, hslot⟩
  · exact absurd (List.mem_flatMap.2 ⟨c, hc, hv⟩) (unnamed v)
  · exact ⟨w, hw, Criteria.mem_slots.1 hslot⟩

end

/-- Without a conflict a build is a matter of the values alone. -/
theorem build_of_no_conflict {s : Session} {columns : List String}
    (h : (s.select columns).2.bindings.conflict = none) (d : Dialect) :
    (s.build columns d).1 =
      match ((s.select columns).1.render d).bind (s.select columns).2.parameters with
      | .ok values => .ok ⟨(s.select columns).1.render d, values⟩
      | .error e => .error e := by
  unfold build
  dsimp only
  rw [assemble, h]
  dsimp only
  cases ((s.select columns).1.render d).bind (s.select columns).2.parameters <;> rfl

/-- Whether a build succeeds. The parameters are those that the session has once its filter is set.
A conflict among them refuses the statement. Without one it is built exactly if each placeholder has
a value, and has these values in the order of the placeholders; else the first placeholder without a
value is reported with the named text. No literal had its name: it was written as a parameter by the
caller or for a table, or stands in a statement inside a condition. -/
theorem placeholders_bound (schema : Schema) (table : TableId) (calls : List Call)
    (composed : ∀ path fetch, .addJoin path fetch ∉ calls) (columns : List String) (d : Dialect) :
    let s := (new schema table).run calls
    let t := (s.select columns).2
    let r := (s.select columns).1.render d
    let named := ((new schema table).compositions (calls ++ [.select columns])).flatMap
      Composition.names
    (∀ name, (s.build columns d).1 = .error (.conflictingParameter name) ↔
      t.bindings.conflict = some name) ∧
    (t.bindings.conflict = none →
      ((∃ st, (s.build columns d).1 = .ok st) ↔
        ∀ name ∈ r.names, ∃ v, t.parameters.get? name = some v) ∧
      (∀ st, (s.build columns d).1 = .ok st → st.rendering = r ∧
        List.Forall₂ (fun name v => t.parameters.get? name = some v) r.names st.values) ∧
      ∀ e, (s.build columns d).1 = .error e → ∃ before name after,
        r.names = before ++ name :: after ∧
        (∀ other ∈ before, ∃ v, t.parameters.get? other = some v) ∧
        t.parameters.get? name = none ∧ e = .unboundParameter name r.named ∧
        (∀ v, (name, v) ∉ named) ∧
        ∃ c, IsWritten schema ((new schema table).passedIn calls) c ∧
          (name ∈ c.params ∨ ∃ q ∈ c.subqueries, name ∈ (q.render d).names)) := by
  intro s t r named
  have hend : t = (new schema table).run (calls ++ [.select columns]) := select_snd_run _ _ _
  have unnamed : ∀ name, t.parameters.get? name = none → ∀ v, (name, v) ∉ named := by
    intro name hnone v hv
    obtain ⟨w, hw⟩ := exists_value_of_mem_names hv
    rw [← hend, hnone] at hw
    cases hw
  refine ⟨fun name => build_conflict_iff, fun hquiet => ?_⟩
  rw [build_of_no_conflict hquiet]
  -- Without a conflict a build looks up the names in the text up to the first without a value.
  cases hvalues : r.bind t.parameters with
  | ok values =>
    have hbound := Rendering.bind_eq_ok_iff.1 hvalues
    refine ⟨⟨fun _ name hname => ?_, fun _ => ⟨_, rfl⟩⟩, fun st hst => ?_, fun e he => ?_⟩
    · obtain ⟨v, -, hv⟩ := exists_mem_of_forall₂ hbound hname
      exact ⟨v, hv⟩
    · obtain rfl := Except.ok.inj hst
      exact ⟨rfl, hbound⟩
    · cases he
  | error e =>
    obtain ⟨before, name, after, hnames, hbefore, hnone, he⟩ :=
      Rendering.bind_eq_error_iff.1 hvalues
    have hname : name ∈ r.names := by
      rw [hnames]
      exact List.mem_append_right _ List.mem_cons_self
    refine ⟨⟨fun ⟨st, hst⟩ => ?_, fun hbound => ?_⟩, fun st hst => ?_, fun e' he' => ?_⟩
    · cases hst
    · obtain ⟨v, hv⟩ := hbound name hname
      rw [hnone] at hv
      cases hv
    · cases hst
    · obtain rfl := Except.error.inj he'
      have hunnamed := unnamed name hnone
      exact ⟨before, name, after, hnames, hbefore, hnone, he, hunnamed,
        written_of_mem_names composed hname hunnamed⟩

/-- Joins the lines of one kind and asks for the orders of an owner who is never given. -/
def ofNoOwner : List Call := [
  .joinTo [linesOf "A"] false,
  .setFilter [.eq (.col "id") (.param "owner")]]

/-- Orders are only the open ones with a line of one kind, whoever asks for them. -/
def openOrdersOfSku : Schema :=
  (ordersAndLines.addTableDiscriminator ⟨0⟩ (.eq (.col "status") (.literal (.string "open")))
    ).addTableDiscriminator ⟨0⟩ (.isIn (.col "id") [.subquery ordersOfSku])

/-- A parameter that is never given, and a table whose own conditions clash: no call has set a
filter, so the session is without a conflict until it selects. -/
theorem placeholders_bound_ofNoOwner :
    (∀ path fetch, .addJoin path fetch ∉ ofNoOwner) ∧
    (((new ordersWithLines ⟨0⟩).run ofNoOwner).select ["id"]).2.bindings.conflict = none ∧
    (∃ sql, (((new ordersWithLines ⟨0⟩).run ofNoOwner).build ["id"] .postgres).1 =
        .error (.unboundParameter "owner" sql) ∧
      ∃ c, IsWritten ordersWithLines ((new ordersWithLines ⟨0⟩).passedIn ofNoOwner) c ∧
        ("owner" ∈ c.params ∨ ∃ q ∈ c.subqueries, "owner" ∈ (q.render .postgres).names)) ∧
    let fresh := new openOrdersOfSku ⟨0⟩
    fresh.bindings.conflict = none ∧
      (fresh.select ["id"]).2.bindings.conflict = some "t0_R1" ∧
      (fresh.build ["id"] .postgres).1 = .error (.conflictingParameter "t0_R1") := by
  have composed : ∀ path fetch, .addJoin path fetch ∉ ofNoOwner := by simp [ofNoOwner]
  have quiet : (((new ordersWithLines ⟨0⟩).run ofNoOwner).select ["id"]).2.bindings.conflict =
      none := by cbv
  have refused : (((new ordersWithLines ⟨0⟩).run ofNoOwner).build ["id"] .postgres).1 =
      .error (.unboundParameter "owner" ("SELECT t0.id FROM orders t0 INNER JOIN lines t0_j1 ON " ++
        "t0.id = t0_j1.order_id AND t0_j1.sku = :t0_R1 AND t0_j1.deleted IS NULL " ++
        "WHERE t0.id = :owner")) := by cbv
  obtain ⟨-, built⟩ :=
    placeholders_bound ordersWithLines ⟨0⟩ ofNoOwner composed ["id"] .postgres
  obtain ⟨_, name, _, -, -, -, he, -, written⟩ := (built quiet).2.2 _ refused
  obtain ⟨rfl, -⟩ := Error.unboundParameter.inj he
  have clash : ((new openOrdersOfSku ⟨0⟩).select ["id"]).2.bindings.conflict = some "t0_R1" := by
    cbv
  obtain ⟨conflict, -⟩ :=
    placeholders_bound openOrdersOfSku ⟨0⟩ [] (by simp) ["id"] .postgres
  exact ⟨composed, quiet, ⟨_, refused, written⟩, rfl, clash, (conflict "t0_R1").2 clash⟩

end Session

end JoinPath
