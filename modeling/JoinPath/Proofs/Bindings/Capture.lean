import JoinPath.Proofs.Bindings.History
import JoinPath.Proofs.Path.Additions
import JoinPath.Proofs.Sql.Placeholders
import JoinPath.Schema.Declare
/-!
# Captured parameters

A subquery keeps the names of its parameters, and the statement around it takes over their values.
A name that stands for another value by then is a conflict. A literal met later takes its name
without looking, so it captures a parameter of the subquery exactly when the name that it receives
is one of them and the values differ.
-/

namespace JoinPath

open Bindings (Change namedFrom numbersUsed)

/-- Values that are one, or equal as values of SQL. -/
def Value.Same (v w : Value) : Prop := v = w ∨ (v == w) = true

/-- Every placeholder of a bound text has the value of its name. -/
theorem Rendering.forall₂_of_bind {r : Rendering} {p : Parameters} {values : List Value}
    (h : r.bind p = .ok values) :
    List.Forall₂ (fun name v => p.get? name = some v) r.names values :=
  Rendering.bind_eq_ok_iff.1 h

/-- A text that is refused has a placeholder without a value. -/
theorem Rendering.error_of_bind {r : Rendering} {p : Parameters} {e : Error}
    (h : r.bind p = .error e) : ∃ name ∈ r.names, e = .unboundParameter name r.named := by
  obtain ⟨before, name, after, hnames, -, -, he⟩ := Rendering.bind_eq_error_iff.1 h
  exact ⟨name, by simp [hnames], he⟩

namespace Session

/-! ## Conditions that are handed over -/

/-- The conditions that a call hands to the filter or to a join. -/
def passed (s : Session) : Call → List Criteria
  | .setFilter restrictions => restrictions
  | .joinTo path _ => path.filterMap Step.criteria
  | .joinPending _ => s.pending.filterMap Step.criteria
  | _ => []

/-- The conditions that the calls of a run hand over. -/
def passedIn (s : Session) (calls : List Call) : List Criteria := along perform passed s calls

/-- Selecting is the last call of a run. -/
theorem select_snd_run (s : Session) (calls : List Call) (columns : List String) :
    ((s.run calls).select columns).2 = s.run (calls ++ [.select columns]) := by
  rw [run_append]
  rfl

theorem passedIn_concat_select (s : Session) (calls : List Call) (columns : List String) :
    s.passedIn (calls ++ [.select columns]) = s.passedIn calls := by
  rw [passedIn, along_append]
  exact List.append_nil _

variable {sub : Select Criteria}

theorem adopted_mem_attachChanges (s : Session) {step : Step} {a : Addition} {c : Criteria}
    (placed : step.placement.isSome) (hc : c ∈ step.criteria.toList)
    (ha : step.criteria.toList ⊆ a.criteria) (hsub : sub ∈ c.subqueries) :
    .adopted sub.parameters ∈ s.attachChanges step a := by
  obtain ⟨id, hid⟩ := Option.isSome_iff_exists.1 placed
  have full : a.isEmpty = false := by
    have : a.criteria ≠ [] := List.ne_nil_of_mem (ha hc)
    simp [Addition.isEmpty, this]
  have attached : c ∈ (s.criteriaToAttach step a).1 := by
    simp only [criteriaToAttach, hid]
    split
    · exact hc
    · exact ha hc
  simp only [attachChanges, hid, full, Bool.false_eq_true, if_false]
  exact List.mem_flatMap.2 ⟨c, attached, Criteria.adopted_mem_changes hsub _⟩

theorem adopted_mem_attachAllChanges (s : Session) {additions : List (Step × Addition)}
    {x : Step × Addition} (hx : x ∈ additions) {c : Criteria} (placed : x.1.placement.isSome)
    (hc : c ∈ x.1.criteria.toList) (ha : x.1.criteria.toList ⊆ x.2.criteria)
    (hsub : sub ∈ c.subqueries) : .adopted sub.parameters ∈ s.attachAllChanges additions := by
  obtain ⟨before, after, rfl⟩ := List.append_of_mem hx
  exact subset_along _ _ s before x after (adopted_mem_attachChanges _ placed hc ha hsub)

theorem adopted_mem_joinChanges (s : Session) {path : List Step} {c : Criteria}
    (hc : c ∈ path.filterMap Step.criteria) (hsub : sub ∈ c.subqueries) :
    .adopted sub.parameters ∈ s.joinChanges path := by
  obtain ⟨step, hstep, hc⟩ := List.mem_filterMap.1 hc
  obtain ⟨x, hx, ⟨id, hid⟩, o, ha⟩ := exists_mem_of_forall₂ (s.withAdditions_steps path) hstep
  have hx₁ : x.1.criteria = some c := by rw [hid, hc]
  have own : x.1.criteria.toList ⊆ x.2.criteria := fun e he => by
    rw [ha]
    exact List.mem_append_left _ (List.mem_append_left _ he)
  have hne : path.isEmpty = false := by simpa using List.ne_nil_of_mem hstep
  rw [joinChanges, hne]
  refine adopted_mem_attachAllChanges _ hx ?_ ?_ own hsub
  · rw [hid]; rfl
  · rw [hx₁]; exact List.mem_singleton_self c

/-- Composing what a call hands over takes over the parameters of its subqueries. -/
theorem adopted_mem_changesOf (s : Session) {call : Call} {c : Criteria} (hc : c ∈ s.passed call)
    (hsub : sub ∈ c.subqueries) : .adopted sub.parameters ∈ s.changesOf call := by
  cases call with
  | setFilter restrictions =>
    exact List.mem_flatMap.2 ⟨c, List.mem_append_left _ hc, Criteria.adopted_mem_changes hsub _⟩
  | joinTo path fetch => exact s.adopted_mem_joinChanges hc hsub
  | joinPending fetch => exact adopted_mem_joinChanges _ hc hsub
  | _ => cases hc

theorem adopted_mem_history (s : Session) {calls : List Call} {c : Criteria}
    (hc : c ∈ s.passedIn calls) (hsub : sub ∈ c.subqueries) :
    .adopted sub.parameters ∈ s.history calls := by
  obtain ⟨before, call, after, rfl, hpassed⟩ := mem_along.1 hc
  exact subset_along _ _ s before call after (adopted_mem_changesOf _ hpassed hsub)

/-! ## The condition of capture -/

section Adopted

variable {p : Parameters} {before : List Change} {name : String} {value : Value}

/-- A subquery that wants another value for a name that is bound leaves a conflict for good. -/
theorem conflict_of_bound {b : Bindings} (hp : p.get? name = some value) {w : Value}
    (hw : (b.changed before).parameters.get? name = some w) (hne : (w == value) = false)
    (after : List Change) :
    ∃ n, (b.changed (before ++ .adopted p :: after)).conflict = some n := by
  have hc : ((b.changed before).adopt p).conflict.isSome :=
    (Bindings.get?_foldl_of_mem (NameMap.mem_of_get? hp) p.ascending _).2 w hw hne
  obtain ⟨n, hn⟩ := Option.isSome_iff_exists.1 hc
  refine ⟨n, ?_⟩
  rw [Bindings.changed_append, Bindings.changed_cons]
  exact Bindings.conflict_changed hn after

/-- Where no conflict remains, the name of a subquery's parameter has the subquery's value right
after the subquery. -/
theorem get?_adopt_of_no_conflict {b : Bindings} {after : List Change}
    (hp : p.get? name = some value)
    (ok : (b.changed (before ++ .adopted p :: after)).conflict = none) :
    ∃ w : Value, w.Same value ∧ ((b.changed before).adopt p).parameters.get? name = some w := by
  cases hb : (b.changed before).parameters.get? name with
  | none =>
    refine ⟨value, .inl rfl, ?_⟩
    exact (Bindings.get?_foldl_of_mem (NameMap.mem_of_get? hp) p.ascending _).1 hb
  | some w =>
    refine ⟨w, .inr ?_, Bindings.get?_foldl_of_bound hb p.entries⟩
    by_contra hne
    obtain ⟨n, hn⟩ := conflict_of_bound hp hb (by simpa using hne) after
    rw [ok] at hn
    cases hn

/-- At the end the name has the subquery's value unless a literal took it later for another. -/
theorem get?_changed_same_iff {b : Bindings} {after : List Change} (hp : p.get? name = some value)
    (unset : ∀ v, Change.assigned name v ∉ before ++ .adopted p :: after)
    (ok : (b.changed (before ++ .adopted p :: after)).conflict = none) :
    ∃ v, (b.changed (before ++ .adopted p :: after)).parameters.get? name = some v ∧
      (v.Same value ↔
        ∀ u, (name, u) ∈ namedFrom (b.literals + numbersUsed before) after → u.Same value) := by
  obtain ⟨w, hw, hget⟩ := get?_adopt_of_no_conflict hp ok
  have used : ((b.changed before).adopt p).literals = b.literals + numbersUsed before := by
    rw [Bindings.literals_adopt, Bindings.literals_changed]
  have unset' : ∀ v, Change.assigned name v ∉ after := fun v hv =>
    unset v (List.mem_append_right _ (List.mem_cons_of_mem _ hv))
  rw [Bindings.changed_append, Bindings.changed_cons, ← used]
  by_cases taken : ∃ u, (name, u) ∈ namedFrom ((b.changed before).adopt p).literals after
  · obtain ⟨u, hu⟩ := taken
    refine ⟨u, Bindings.get?_changed_of_named hu unset', fun h u' hu' => ?_, fun h => h u hu⟩
    rw [Bindings.named_unique hu' hu]
    exact h
  · refine ⟨w, Bindings.get?_changed_of_bound hget unset' fun u hu => taken ⟨u, hu⟩,
      fun _ u hu => absurd ⟨u, hu⟩ taken, fun _ => hw⟩

end Adopted

theorem build_of_conflict {s : Session} {name : String}
    (h : s.ensureFilter.bindings.conflict = some name) (columns : List String) (d : Dialect) :
    (s.build columns d).1 = .error (.conflictingParameter name) := by
  simp only [build, select, assemble, h]

/-- Only a conflict among the parameters refuses a statement with a conflict. -/
theorem build_conflict_iff {s : Session} {columns : List String} {d : Dialect} {name : String} :
    (s.build columns d).1 = .error (.conflictingParameter name) ↔
      s.ensureFilter.bindings.conflict = some name := by
  refine ⟨fun h => ?_, fun h => build_of_conflict h columns d⟩
  cases hc : s.ensureFilter.bindings.conflict with
  | some other =>
    rw [build_of_conflict hc] at h
    exact congrArg some (Error.conflictingParameter.inj (Except.error.inj h))
  | none =>
    simp only [build, select, assemble, hc] at h
    cases hb : ((s.ensureFilter.statement columns).render d).bind s.ensureFilter.parameters with
    | error e =>
      obtain ⟨other, -, rfl⟩ := Rendering.error_of_bind hb
      simp [hb, Except.map] at h
    | ok values => simp [hb, Except.map] at h

/-- A build that succeeds has no conflict and takes its values from the parameters. -/
theorem build_ok {s : Session} {columns : List String} {d : Dialect} {st : Statement}
    (h : (s.build columns d).1 = .ok st) :
    s.ensureFilter.bindings.conflict = none ∧
      st.rendering.bind s.ensureFilter.parameters = .ok st.values := by
  cases hc : s.ensureFilter.bindings.conflict with
  | some name =>
    rw [build_of_conflict hc] at h
    cases h
  | none =>
    refine ⟨rfl, ?_⟩
    simp only [build, select, assemble, hc] at h
    cases hb : ((s.ensureFilter.statement columns).render d).bind s.ensureFilter.parameters with
    | error e =>
      simp only [hb, Except.map] at h
      cases h
    | ok values =>
      simp only [hb, Except.map] at h
      obtain rfl := Except.ok.inj h
      exact hb

/-- The changes up to and with a build make the parameters that the build reads. -/
theorem bindings_ensureFilter_run (schema : Schema) (table : TableId) (calls : List Call)
    (columns : List String) (d : Dialect) :
    ((new schema table).run calls).ensureFilter.bindings =
      Bindings.empty.changed ((new schema table).history (calls ++ [.build columns d])) := by
  rw [history, along_append, Bindings.changed_append, bindings_ensureFilter, bindings_run]
  exact congrArg _ (List.append_nil _).symm

/-- A placeholder of a subquery's parameter has the subquery's value in a statement that was built,
unless a literal met after the subquery took the name for another value: such a literal is not
refused. A name that stood for another value when the subquery was met refuses the statement. -/
theorem subquery_value_kept_iff (schema : Schema) (table : TableId) (calls : List Call)
    (columns : List String) (d : Dialect) (c : Criteria)
    (passed : c ∈ (new schema table).passedIn calls) (sub : Select Criteria)
    (embedded : sub ∈ c.subqueries)
    (unset : ∀ name value, .setParameter name value ∈ calls → sub.parameters.get? name = none) :
    let s := (new schema table).run calls
    let history := (new schema table).history (calls ++ [.build columns d])
    (∃ before after, history = before ++ .adopted sub.parameters :: after) ∧
    ∀ before after, history = before ++ .adopted sub.parameters :: after →
    ∀ name value, sub.parameters.get? name = some value →
      (∀ w, (Bindings.empty.changed before).parameters.get? name = some w → (w == value) = false →
        ∃ n, (s.build columns d).1 = .error (.conflictingParameter n)) ∧
      ∀ st, (s.build columns d).1 = .ok st → ∀ i : ℕ, st.rendering.names[i]? = some name →
        ∃ v, st.values[i]? = some v ∧
          (v.Same value ↔
            ∀ u, (name, u) ∈ namedFrom (numbersUsed before) after → u.Same value) := by
  intro s history
  have final : s.ensureFilter.bindings = Bindings.empty.changed history :=
    bindings_ensureFilter_run schema table calls columns d
  have met : .adopted sub.parameters ∈ history := by
    have h := (new schema table).adopted_mem_history passed embedded
    rw [show history = _ from along_append _ _ _ _ _]
    exact List.mem_append_left _ h
  refine ⟨List.append_of_mem met, fun before after split name value hp => ⟨fun w hw hne => ?_, ?_⟩⟩
  · obtain ⟨n, hn⟩ := conflict_of_bound hp hw hne after
    rw [← split, ← final] at hn
    exact ⟨n, build_of_conflict hn columns d⟩
  · intro st hst i hi
    obtain ⟨ok, bound⟩ := build_ok hst
    have unset' : ∀ v, Change.assigned name v ∉ before ++ .adopted sub.parameters :: after := by
      intro v hv
      rw [← split] at hv
      have hcall := setParameter_mem_of_assigned _ hv
      rcases List.mem_append.1 hcall with hcall | hcall
      · rw [unset name v hcall] at hp
        cases hp
      · simp at hcall
    rw [final, split] at ok
    obtain ⟨v, hv, same⟩ := get?_changed_same_iff hp unset' ok
    refine ⟨v, ?_, by simpa [Bindings.empty] using same⟩
    rw [← split, ← final] at hv
    -- The names of the text and the values run in step.
    have each := Rendering.forall₂_of_bind bound
    obtain ⟨hlt, hname⟩ := List.getElem?_eq_some_iff.1 hi
    have hlt' : i < st.values.length := each.length_eq ▸ hlt
    have hget := each.get hlt hlt'
    simp only [List.get_eq_getElem, hname] at hget
    rw [List.getElem?_eq_getElem hlt', ← hget]
    exact hv

/-- Orders and their lines. -/
def ordersAndLines : Schema :=
  ((Schema.empty.addTable "orders" ["id", "status"]).2.addTable "lines" ["order_id", "sku"]).2

/-- The orders with a line of one kind. -/
def ordersOfSku : Select Criteria :=
  (((new ordersAndLines ⟨1⟩).setFilter [.eq (.col "sku") (.literal (.string "ABC"))]).select
    ["order_id"]).1

/-- The open ones among them; the literal stands after the subquery. -/
def openOfSku : Criteria :=
  .and [.isIn (.col "id") [.subquery ordersOfSku], .eq (.col "status") (.literal (.string "open"))]

theorem ordersOfSku_mem_subqueries : ordersOfSku ∈ openOfSku.subqueries := List.mem_singleton_self _

theorem subquery_value_kept_iff_openOfSku :
    let s := (new ordersAndLines ⟨0⟩).run [.setFilter [openOfSku]]
    let history := (new ordersAndLines ⟨0⟩).history [.setFilter [openOfSku], .build ["id"] .named]
    openOfSku ∈ (new ordersAndLines ⟨0⟩).passedIn [.setFilter [openOfSku]] ∧
    (∀ name value, .setParameter name value ∈ [Call.setFilter [openOfSku]] →
      ordersOfSku.parameters.get? name = none) ∧
    ∃ before after, history = before ++ .adopted ordersOfSku.parameters :: after ∧
      ∀ st, (s.build ["id"] .named).1 = .ok st → ∀ i : ℕ, st.rendering.names[i]? = some "t0_R1" →
        ∃ v, st.values[i]? = some v ∧ (v.Same (.string "ABC") ↔
          ∀ u, ("t0_R1", u) ∈ namedFrom (numbersUsed before) after → u.Same (.string "ABC")) := by
  intro s history
  have passed : openOfSku ∈ (new ordersAndLines ⟨0⟩).passedIn [.setFilter [openOfSku]] :=
    List.mem_singleton_self _
  have unset : ∀ name value, .setParameter name value ∈ [Call.setFilter [openOfSku]] →
      ordersOfSku.parameters.get? name = none := by simp
  have bound : ordersOfSku.parameters.get? "t0_R1" = some (.string "ABC") := by cbv
  obtain ⟨⟨before, after, split⟩, kept⟩ := subquery_value_kept_iff ordersAndLines ⟨0⟩
    [.setFilter [openOfSku]] ["id"] .named openOfSku passed ordersOfSku ordersOfSku_mem_subqueries
    unset
  exact ⟨passed, unset, before, after, split, (kept before after split _ _ bound).2⟩

/-- The literal takes the name of the subquery's parameter, and the statement is built. -/
theorem literal_captures_parameter :
    let s := (new ordersAndLines ⟨0⟩).run [.setFilter [openOfSku]]
    ordersOfSku ∈ openOfSku.subqueries ∧
    ordersOfSku.parameters.get? "t0_R1" = some (.string "ABC") ∧
    (s.build ["id"] .named).1.toOption.map (fun st => (st.rendering.names, st.values)) =
      some (["t0_R1", "t0_R1"], [.string "open", .string "open"]) :=
  ⟨ordersOfSku_mem_subqueries, by cbv, by cbv⟩

end Session

end JoinPath
