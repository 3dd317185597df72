import JoinPath.Proofs.Bindings.Clashes
import JoinPath.Proofs.Session.FilterPosition
/-!
# A filter that is replaced

Setting the filter again replaces the conditions, but not what the replaced ones did to the
parameters: their literals keep their numbers, and the values that their subqueries brought stay.
So a build comes out as if the first filter had never been set, under other names, unless a
subquery now meets one of these values (`replaced_filter`).
-/

namespace JoinPath

open Bindings (Change NamedUnder literalName namedFrom numbersUsed renumbered)
open Criteria (Fixed paramNamesOfJoins renamedSelect)

namespace Session

variable {s t : Session} {restrictions first second : List Criteria} {name : String}

/-! ## What setting the filter does -/

theorem sameBase_setFilter (s : Session) (restrictions : List Criteria) :
    s.SameBase (s.setFilter restrictions) :=
  (s.sameBase_perform rfl : s.SameBase (s.perform (.setFilter restrictions)))

theorem placedHops_setFilter (s : Session) (restrictions : List Criteria) :
    (s.setFilter restrictions).placedHops = s.placedHops := by
  obtain ⟨_, _, hframe⟩ := s.setFilter_frame restrictions
  rw [hframe]
  rfl

theorem namedUnder_filterChanges (s : Session) (restrictions : List Criteria) :
    NamedUnder s.tableAlias (s.filterChanges restrictions) := by
  intro b v h
  obtain ⟨c, -, hc⟩ := List.mem_flatMap.1 h
  exact (Criteria.literal_of_named hc).1

theorem skipped_not_mem_filterChanges (s : Session) (restrictions : List Criteria) :
    .skipped ∉ s.filterChanges restrictions := by
  intro h
  obtain ⟨c, -, hc⟩ := List.mem_flatMap.1 h
  obtain ⟨l, -, hl⟩ := List.mem_flatMap.1 hc
  cases l <;> simp [Criteria.leafChanges] at hl

/-- What setting one filter and then another does to the parameters. -/
def replacedChanges (s : Session) (first second : List Criteria) : List Change :=
  s.filterChanges first ++ s.filterChanges second

theorem bindings_replaced (s : Session) (first second : List Criteria) :
    ((s.setFilter first).setFilter second).bindings =
      s.bindings.changed (s.replacedChanges first second) := by
  rw [bindings_setFilter, (s.sameBase_setFilter first).filterChanges, bindings_setFilter,
    replacedChanges, Bindings.changed_append]

theorem namedUnder_replacedChanges (s : Session) (first second : List Criteria) :
    NamedUnder s.tableAlias (s.replacedChanges first second) := fun b v h =>
  (List.mem_append.1 h).elim (s.namedUnder_filterChanges first b v)
    (s.namedUnder_filterChanges second b v)

theorem skipped_not_mem_replacedChanges (s : Session) (first second : List Criteria) :
    .skipped ∉ s.replacedChanges first second := fun h =>
  (List.mem_append.1 h).elim (s.skipped_not_mem_filterChanges first)
    (s.skipped_not_mem_filterChanges second)

theorem assigned_not_mem_replacedChanges (s : Session) (first second : List Criteria)
    (name : String) (value : Value) : .assigned name value ∉ s.replacedChanges first second :=
  fun h => (List.mem_append.1 h).elim (s.assigned_not_mem_filterChanges first name value)
    (s.assigned_not_mem_filterChanges second name value)

/-! ## Placeholders -/

/-- A placeholder of a statement with this filter that is none of the filter's literals. -/
def IsForeign (s : Session) (restrictions : List Criteria) (name : String) : Prop :=
  (∃ hop ∈ s.hops, ∃ on ∈ hop.on, name ∈ on.slots) ∨
    ∃ c ∈ restrictions ++ (s.schema.table s.table).criteria, name ∈ c.slots

/-- A placeholder of the statement is foreign to the filter, or a literal of it took its name. -/
theorem foreign_or_named {columns : List String} {d : Dialect}
    (h : name ∈ (((s.setFilter restrictions).statement columns).render d).names) :
    s.IsForeign restrictions name ∨
      ∃ v, (name, v) ∈ namedFrom s.bindings.literals (s.filterChanges restrictions) := by
  rcases Criteria.exists_of_mem_names_select h with ⟨hop, hhop, hon⟩ | ⟨c, hc, hname⟩
  · have hops : (s.setFilter restrictions).hops = s.hops :=
      congrArg (·.1.map Prod.snd) (s.placedHops_setFilter restrictions)
    exact .inl (.inl ⟨hop, hops ▸ hhop, hon⟩)
  · have hc : c ∈ (s.setFilter restrictions).filter := hc
    rw [filter_eq_bindLiterals, Option.mem_def, Option.map_eq_some_iff] at hc
    obtain ⟨o, ho, rfl⟩ := hc
    rcases (Criteria.filled_bindLiterals s.tableAlias o s.bindings).mem_slots hname with
      hslot | ⟨v, hv⟩
    · rw [Criteria.collects_slots.conjunction (fun _ _ => rfl) ho] at hslot
      exact .inl (.inr (List.mem_flatMap.1 hslot))
    · rw [changes_of_conjunction ho] at hv
      exact .inr ⟨v, hv⟩

/-- Two sessions with the same joins set the same filter under different names. -/
theorem statement_setFilter {ρ : String → String} (base : s.SameBase t)
    (hops : t.placedHops = s.placedHops)
    (fixedHops : ∀ name ∈ paramNamesOfJoins s.hops, ρ name = name)
    (fixed : ∀ c ∈ restrictions ++ (s.schema.table s.table).criteria, Fixed ρ c)
    (shifts : Bindings.Shifts ρ s.tableAlias s.bindings.literals t.bindings.literals
      (numbersUsed (s.filterChanges restrictions))) (columns : List String) :
    (t.setFilter restrictions).statement columns =
      { renamedSelect ρ ((s.setFilter restrictions).statement columns) with
        parameters := (t.setFilter restrictions).parameters } := by
  have hs := s.sameBase_setFilter restrictions
  have ht := t.sameBase_setFilter restrictions
  have hplaced : (t.setFilter restrictions).placedHops = (s.setFilter restrictions).placedHops := by
    rw [placedHops_setFilter, placedHops_setFilter, hops]
  have hsame : Criteria.renamedHops ρ (s.setFilter restrictions).hops =
      (s.setFilter restrictions).hops := by
    have heq : (s.setFilter restrictions).hops = s.hops :=
      congrArg (·.1.map Prod.snd) (s.placedHops_setFilter restrictions)
    rw [heq]
    exact Criteria.renamedHops_of_fixed _ fixedHops
  unfold Session.statement joinedColumns baseColumns
  rw [base.filter_setFilter fixed shifts, renamedSelect, hsame, Session.hops, hplaced, ht.schema,
    ht.table, ht.tableAlias, hs.schema, hs.table, hs.tableAlias, base.schema, base.table,
    base.tableAlias, ← Criteria.renamedOption_eq_map]
  rfl

/-! ## Both statements -/

/-- A placeholder after one filter, and the one in its place after another filter came first: the
same name, or the names that one literal receives. -/
def Aligned (s : Session) (first second : List Criteria) (x y : String) : Prop :=
  (s.IsForeign second x ∧ y = x) ∨
    ∃ v, (x, v) ∈ namedFrom s.bindings.literals (s.filterChanges second) ∧
      (y, v) ∈ namedFrom (s.bindings.literals + numbersUsed (s.filterChanges first))
        (s.filterChanges second)

/-- The names that may not be touched when literals are numbered anew. -/
def keptNames (s : Session) (restrictions : List Criteria) : List String :=
  paramNamesOfJoins s.hops ++
    (restrictions ++ (s.schema.table s.table).criteria).flatMap Criteria.paramNames ++
    (s.hops.flatMap fun hop => hop.on.elim [] Criteria.slots) ++
    (restrictions ++ (s.schema.table s.table).criteria).flatMap Criteria.slots

theorem IsForeign.mem_keptNames (h : s.IsForeign restrictions name) :
    name ∈ s.keptNames restrictions := by
  rcases h with ⟨hop, hhop, on, hon, hname⟩ | ⟨c, hc, hname⟩
  · refine List.mem_append_left _ (List.mem_append_right _ (List.mem_flatMap.2 ⟨hop, hhop, ?_⟩))
    rwa [Option.mem_def.1 hon]
  · exact List.mem_append_right _ (List.mem_flatMap.2 ⟨c, hc, hname⟩)

/-- The session with its literals numbered from `m` on. -/
def numberedFrom (s : Session) (m : ℕ) : Session :=
  { s with bindings := { s.bindings with literals := m } }

/-- Wherever the literals of a filter are numbered, a statement is the one whose literals are
numbered where no name is in use, under other names. -/
theorem render_renumbered (base : s.SameBase t) (hops : t.placedHops = s.placedHops) {m : ℕ}
    (unused : ∀ name ∈ s.keptNames second, ∀ i, name ≠ literalName s.tableAlias (m + i))
    (columns : List String) {d : Dialect} (positional : d ≠ .named) :
    let r := (((s.numberedFrom m).setFilter second).statement columns).render d
    let r' := ((t.setFilter second).statement columns).render d
    r'.text = r.text ∧
      r'.names = r.names.map (renumbered s.tableAlias m t.bindings.literals) := by
  intro r r'
  let ρ := renumbered s.tableAlias m t.bindings.literals
  have kept : ∀ name ∈ s.keptNames second, ρ name = name := fun name hname =>
    Bindings.renumbered_of_ne (unused name hname)
  have base : (s.numberedFrom m).SameBase t := ⟨base.schema, base.table, base.tableAlias⟩
  have hstatement : (t.setFilter second).statement columns =
      { renamedSelect ρ (((s.numberedFrom m).setFilter second).statement columns) with
        parameters := (t.setFilter second).parameters } := statement_setFilter base hops
    (fun name hname => kept name
      (List.mem_append_left _ (List.mem_append_left _ (List.mem_append_left _ hname))))
    (fun c hc name hname => kept name (List.mem_append_left _ (List.mem_append_left _
      (List.mem_append_right _ (List.mem_flatMap.2 ⟨c, hc, hname⟩)))))
    (Bindings.shifts_renumbered _ _ _ _) columns
  rw [show r' = _ from congrArg (Select.render · d) hstatement, render_parameters]
  exact Criteria.render_renamedSelect ρ positional _

/-- The statements after one filter and after a replaced one have the same text, and their
placeholders stand for each other. -/
theorem aligned_replaced (s : Session) (first second : List Criteria) (columns : List String)
    {d : Dialect} (positional : d ≠ .named) :
    let r := ((s.setFilter second).statement columns).render d
    let r' := (((s.setFilter first).setFilter second).statement columns).render d
    r'.text = r.text ∧ List.Forall₂ (s.Aligned first second) r.names r'.names := by
  intro r r'
  obtain ⟨m, unused⟩ := Bindings.exists_unused s.tableAlias (s.keptNames second)
  obtain ⟨htext, hnames⟩ :=
    render_renumbered (t := s) ⟨rfl, rfl, rfl⟩ rfl unused columns positional
  obtain ⟨htext', hnames'⟩ := render_renumbered (s.sameBase_setFilter first)
    (s.placedHops_setFilter first) unused columns positional
  refine ⟨htext'.trans htext.symm, ?_⟩
  rw [show r.names = _ from hnames, show r'.names = _ from hnames', List.forall₂_map_left_iff,
    List.forall₂_map_right_iff, List.forall₂_same]
  intro name hname
  rcases foreign_or_named hname with hforeign | ⟨v, hv⟩
  · have hforeign : s.IsForeign second name := hforeign
    have stays (n : ℕ) : renumbered s.tableAlias m n name = name :=
      Bindings.renumbered_of_ne (unused name hforeign.mem_keptNames)
    rw [stays, stays]
    exact .inl ⟨hforeign, rfl⟩
  · have renamed (n : ℕ) := Bindings.mem_namedFrom_of_shifts (s.namedUnder_filterChanges second)
      (Bindings.shifts_renumbered s.tableAlias m n _) hv
    refine .inr ⟨v, renamed _, ?_⟩
    have hliterals : (s.setFilter first).bindings.literals =
        s.bindings.literals + numbersUsed (s.filterChanges first) := by
      rw [bindings_setFilter, Bindings.literals_changed]
    rw [← hliterals]
    exact renamed _

/-! ## Both builds -/

/-- No literal of either filter takes the name of a placeholder that is foreign to the filter. -/
def SparesForeign (s : Session) (first second : List Criteria) : Prop :=
  ∀ name, s.IsForeign second name →
    ∀ v, (name, v) ∉ namedFrom s.bindings.literals (s.replacedChanges first second)

/-- The literals of the filter that is set alone take no other names than those of both. -/
theorem named_replaced {v : Value}
    (h : (name, v) ∈ namedFrom s.bindings.literals (s.filterChanges second)) :
    ∃ w, (name, w) ∈ namedFrom s.bindings.literals (s.replacedChanges first second) := by
  obtain ⟨a, n, hc, rfl, hlt, hle⟩ := Bindings.number_of_mem_namedFrom h
  obtain rfl := s.namedUnder_filterChanges second a v hc
  have hused := Bindings.numbersUsed_le (s.filterChanges first) (s.filterChanges second)
  have hnamed : ∃ w, (Bindings.literalName s.tableAlias
      (s.bindings.literals + (n - s.bindings.literals)), w) ∈
        namedFrom s.bindings.literals (s.replacedChanges first second) :=
    Bindings.exists_named (s.namedUnder_replacedChanges first second)
      (s.skipped_not_mem_replacedChanges first second) (by omega) (by unfold replacedChanges; omega)
  rwa [Nat.add_sub_cancel' (Nat.le_of_lt hlt)] at hnamed

/-- Without a clash a placeholder keeps a value, and the same one if no literal takes its name. -/
theorem Aligned.reads {x y : String} (h : s.Aligned first second x y)
    (quiet : ¬s.bindings.Clashes (s.replacedChanges first second)) {v : Value}
    (hv : (s.setFilter second).parameters.get? x = some v) :
    ∃ w, ((s.setFilter first).setFilter second).parameters.get? y = some w ∧
      (s.SparesForeign first second → w.Same v) := by
  have unset := s.assigned_not_mem_replacedChanges first second
  rw [parameters, bindings_setFilter] at hv
  rw [parameters, bindings_replaced]
  rcases h with ⟨hforeign, rfl⟩ | ⟨u, hx, hy⟩
  · by_cases taken :
      ∃ w, (y, w) ∈ namedFrom s.bindings.literals (s.replacedChanges first second)
    · obtain ⟨w, hw⟩ := taken
      obtain ⟨value, hvalue⟩ := Bindings.binds_of_named hw
      exact ⟨value, hvalue, fun spares => absurd hw (spares y hforeign w)⟩
    · have free : ∀ w, (y, w) ∉ namedFrom s.bindings.literals (s.filterChanges second) :=
        fun w hw => taken (named_replaced hw)
      obtain ⟨w, hw, hsame⟩ := Bindings.same_of_ahead (unset y) (fun w hw => taken ⟨w, hw⟩) free
        quiet hv
      exact ⟨w, hw, fun _ => hsame⟩
  · have hu := Bindings.get?_changed_of_named hx
      (s.assigned_not_mem_filterChanges second x)
    obtain rfl := Option.some.inj (hu.symm.trans hv)
    refine ⟨u, Bindings.get?_changed_of_named ?_ (unset y), fun _ => .inl rfl⟩
    rw [replacedChanges, Bindings.namedFrom_append]
    exact List.mem_append_right _ hy

theorem exists_values_of_aligned {align : String → String → Prop} {p q : Parameters}
    {same : Value → Value → Prop} (reads : ∀ x y, align x y → ∀ v, p.get? x = some v →
      ∃ w, q.get? y = some w ∧ same v w) {names names' : List String} {values : List Value}
    (aligned : List.Forall₂ align names names')
    (h : List.Forall₂ (fun name v => p.get? name = some v) names values) :
    ∃ values', List.Forall₂ (fun name v => q.get? name = some v) names' values' ∧
      List.Forall₂ same values values' := by
  induction aligned generalizing values with
  | nil =>
    cases h
    exact ⟨[], .nil, .nil⟩
  | cons hxy _ ih =>
    obtain _ | ⟨hv, hrest⟩ := h
    obtain ⟨w, hw, hsame⟩ := reads _ _ hxy _ hv
    obtain ⟨values', hbound, hall⟩ := ih hrest
    exact ⟨w :: values', .cons hw hbound, .cons hsame hall⟩

/-- Where a filter can be built, it can be built in place of another just if no subquery of the two
wants another value for a name than the one that the name stands for when the subquery is met, be it
for the sake of the filter that is gone. Then the text is the same wherever placeholders go by their
positions. The values are the same too if no literal takes the name of a placeholder that is not its
own. -/
theorem replaced_filter (s : Session) (first second : List Criteria) (columns : List String)
    (d : Dialect) (positional : d ≠ .named) {st : JoinPath.Statement}
    (built : ((s.setFilter second).build columns d).1 = .ok st) :
    let t := (s.setFilter first).setFilter second
    let clashes := s.bindings.Clashes (s.replacedChanges first second)
    (clashes → ∃ name, (t.build columns d).1 = .error (.conflictingParameter name)) ∧
      (¬clashes → ∃ st', (t.build columns d).1 = .ok st' ∧
        st'.rendering.text = st.rendering.text ∧
        (s.SparesForeign first second →
          List.Forall₂ (fun v w => w.Same v) st.values st'.values)) := by
  intro t clashes
  have hset := filterSet_setFilter s second
  have hset' := filterSet_setFilter (s.setFilter first) second
  obtain ⟨agreed, -⟩ := build_ok built
  simp only [ensureFilter, hset, if_true] at agreed
  have quiet : s.bindings.conflict = none := by
    rw [bindings_setFilter] at agreed
    exact Bindings.conflict_of_conflict_changed agreed
  have hconflict : t.bindings.conflict = none ↔ ¬clashes := by
    rw [show t.bindings = _ from s.bindings_replaced first second]
    exact Bindings.conflict_eq_none_iff quiet
  refine ⟨fun hclash => ?_, fun hnone => ?_⟩
  · cases hc : t.bindings.conflict with
    | none => exact absurd hclash (hconflict.1 hc)
    | some name =>
      refine ⟨name, build_of_conflict ?_ columns d⟩
      rw [ensureFilter, if_pos hset', hc]
  · obtain ⟨htext, haligned⟩ := s.aligned_replaced first second columns positional
    rw [build_of_filterSet hset agreed] at built
    cases hvalues : (((s.setFilter second).statement columns).render d).bind
        (s.setFilter second).parameters with
    | error e =>
      rw [hvalues] at built
      cases built
    | ok values =>
      rw [hvalues] at built
      obtain rfl := Except.ok.inj built
      obtain ⟨values', hbound, hsame⟩ := exists_values_of_aligned
        (fun x y hxy v hv => hxy.reads hnone hv) haligned (Rendering.bind_eq_ok_iff.1 hvalues)
      refine ⟨⟨(t.statement columns).render d, values'⟩, ?_, htext,
        fun spares => hsame.imp fun v w h => h spares⟩
      rw [build_of_filterSet hset' (hconflict.2 hnone), Rendering.bind_eq_ok_iff.2 hbound]
      rfl

def withStatus (status : String) : Criteria := .eq (.col "status") (.literal (.string status))

def withSku : Criteria := .isIn (.col "id") [.subquery ordersOfSku]

theorem replaced_filter_withSku :
    let s := (new ordersAndLines ⟨0⟩).setAlias "o"
    let t := (s.setFilter [withStatus "paid"]).setFilter [withSku, withStatus "open"]
    ∃ st, ((s.setFilter [withSku, withStatus "open"]).build ["id"] .mysql).1 = .ok st ∧
      ¬s.bindings.Clashes (s.replacedChanges [withStatus "paid"] [withSku, withStatus "open"]) ∧
      s.SparesForeign [withStatus "paid"] [withSku, withStatus "open"] ∧
      ∃ st', (t.build ["id"] .mysql).1 = .ok st' ∧ st'.rendering.text = st.rendering.text ∧
        List.Forall₂ (fun v w => w.Same v) st.values st'.values := by
  intro s t
  have positional : Dialect.mysql ≠ .named := by decide
  have built : ((s.setFilter [withSku, withStatus "open"]).build ["id"] .mysql).1 = .ok
      ⟨⟨"SELECT o.id FROM orders o WHERE o.id IN (SELECT t0.order_id FROM lines t0 WHERE " ++
          "t0.sku = :t0_R1) AND o.status = :o_R1",
        "SELECT o.id FROM orders o WHERE o.id IN (SELECT t0.order_id FROM lines t0 WHERE " ++
          "t0.sku = ?) AND o.status = ?", ["t0_R1", "o_R1"]⟩,
        [.string "ABC", .string "open"]⟩ := by cbv
  have quiet :
      ¬s.bindings.Clashes (s.replacedChanges [withStatus "paid"] [withSku, withStatus "open"]) :=
    (Bindings.conflict_eq_none_iff rfl).1 (by cbv)
  have spares : s.SparesForeign [withStatus "paid"] [withSku, withStatus "open"] := by
    intro name hforeign v hv
    have hnames : s.replacedChanges [withStatus "paid"] [withSku, withStatus "open"] =
        [.named "o" (.string "paid"), .adopted ordersOfSku.parameters,
          .named "o" (.string "open")] := by cbv
    have hslots : ([withSku, withStatus "open"] ++
        (s.schema.table s.table).criteria).flatMap Criteria.slots = ["t0_R1"] := by cbv
    have hhops : s.hops = [] := by cbv
    rcases hforeign with ⟨hop, hhop, -⟩ | hwritten
    · rw [hhops] at hhop
      cases hhop
    · rw [← List.mem_flatMap, hslots] at hwritten
      obtain rfl := List.mem_singleton.1 hwritten
      rw [hnames] at hv
      obtain ⟨a, n, hc, heq, -, -⟩ := Bindings.number_of_mem_namedFrom hv
      have ho : a = "o" := by
        simp only [List.mem_cons, List.not_mem_nil, or_false, reduceCtorEq, false_or] at hc
        exact hc.elim (fun h => (Change.named.inj h).1) fun h => (Change.named.inj h).1
      have hname : "t0_R1" = Bindings.literalName "t0" 1 := by decide
      have halias := (Bindings.literalName_inj (hname.symm.trans heq)).1
      exact absurd (halias.trans ho) (by decide)
  obtain ⟨-, outcome⟩ := replaced_filter s [withStatus "paid"] [withSku, withStatus "open"] ["id"]
    .mysql positional built
  obtain ⟨st', hst', htext, hvalues⟩ := outcome quiet
  exact ⟨_, built, quiet, spares, st', hst', htext, hvalues spares⟩

/-- A conflict that the first filter left refuses the second one, which alone would be built. -/
theorem replaced_conflict_stays :
    let s := new ordersAndLines ⟨0⟩
    ((s.setFilter [withStatus "open"]).build ["id"] .mysql).1.toOption.map
        (fun st => (st.rendering.text, st.values)) =
      some ("SELECT t0.id FROM orders t0 WHERE t0.status = ?", [.string "open"]) ∧
    (((s.setFilter [withStatus "open", withSku]).setFilter [withStatus "open"]).build
      ["id"] .mysql).1 = .error (.conflictingParameter "t0_R1") :=
  ⟨by cbv, by cbv⟩

end Session

end JoinPath
