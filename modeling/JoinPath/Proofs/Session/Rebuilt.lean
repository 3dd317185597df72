import JoinPath.Proofs.Session.Bound
/-!
# Builds that are repeated

Asking for the statement sets the filter of the base table, if none was set, and else changes
nothing but the log. So all that is asked for afterwards is answered alike, for any dialect, and a
build that lacked a value has the text that it would have had (`builds_repeat`).
-/

namespace JoinPath

/-- A call that asks for the statement. -/
def Session.Call.asks : Session.Call → Bool
  | .select _ => true
  | .build _ _ => true
  | _ => false

/-- A call that leaves the filter set. -/
def Session.Call.filters : Session.Call → Bool
  | .setFilter _ => true
  | call => call.asks

namespace Session

variable {s : Session}

/-! ## The filter -/

theorem ensureFilter_of_filterSet (h : s.filterSet = true) : s.ensureFilter = s := if_pos h

theorem filterSet_perform (s : Session) (call : Call) :
    (s.perform call).filterSet = (s.filterSet || call.filters) := by
  rw [(s.filter_perform call).2]
  have asked : (s.filterSet || (if s.filterSet then none else some ([] : List Criteria)).isSome) =
      (s.filterSet || true) := by
    cases s.filterSet <;> rfl
  cases call with
  | select columns => exact asked
  | build columns d => exact asked
  | _ => rfl

theorem filterSet_run (s : Session) (calls : List Call) :
    (s.run calls).filterSet = (s.filterSet || calls.any Call.filters) := by
  induction calls generalizing s with
  | nil => exact (Bool.or_false _).symm
  | cons call calls ih => rw [run_cons, ih, filterSet_perform, List.any_cons, Bool.or_assoc]

/-! ## Answers -/

theorem build_fst (s : Session) (columns : List String) (d : Dialect) :
    (s.build columns d).1 = s.ensureFilter.assemble (s.ensureFilter.statement columns) d := by
  simp only [build, select]
  split
  · next h => exact h.symm
  · next h => exact h.symm

theorem build_snd_of_error {columns : List String} {d : Dialect} {e : Error}
    (h : (s.build columns d).1 = .error e) : (s.build columns d).2 = s.ensureFilter := by
  rw [build_fst] at h
  simp only [build, select, h]

theorem build_snd_of_ok {columns : List String} {d : Dialect} {st : Statement}
    (h : (s.build columns d).1 = .ok st) : (s.build columns d).2 =
      s.ensureFilter.report (.statementBuilt st.rendering.named s.ensureFilter.parameters) := by
  rw [build_fst] at h
  simp only [build, select, h]

/-- The session with another log. -/
def logged (s : Session) (log : List Event) : Session := { s with log := log }

@[simp] theorem logged_logged (s : Session) (log log' : List Event) :
    (s.logged log).logged log' = s.logged log' := rfl

theorem ensureFilter_logged (h : s.filterSet = true) (log : List Event) :
    (s.logged log).ensureFilter = s.logged log :=
  ensureFilter_of_filterSet h

theorem statement_logged (s : Session) (log : List Event) (columns : List String) :
    (s.logged log).statement columns = s.statement columns := rfl

theorem assemble_logged (s : Session) (log : List Event) :
    (s.logged log).assemble = s.assemble := rfl

/-- A call that asks for the statement leaves the session with its filter set, and may report. -/
theorem perform_of_asks {call : Call} (h : call.asks = true) :
    ∃ log, s.perform call = s.ensureFilter.logged log := by
  cases call with
  | select columns => exact ⟨s.ensureFilter.log, rfl⟩
  | build columns d => exact s.build_frame columns d
  | _ => cases h

/-- Asking again and again leaves no more than asking once. -/
theorem run_of_asks {calls : List Call} (hne : calls ≠ [])
    (h : ∀ call ∈ calls, call.asks = true) : ∃ log, s.run calls = s.ensureFilter.logged log := by
  obtain ⟨call, calls, rfl⟩ := List.exists_cons_of_ne_nil hne
  obtain ⟨hcall, hcalls⟩ := List.forall_mem_cons.1 h
  rw [run_cons]
  refine run_induction (P := fun t => ∃ log, t = s.ensureFilter.logged log) ?_
    (perform_of_asks hcall)
  rintro _ other hother ⟨log, rfl⟩
  obtain ⟨log', hperform⟩ :=
    perform_of_asks (s := s.ensureFilter.logged log) (hcalls other hother)
  rw [ensureFilter_logged s.filterSet_ensureFilter, logged_logged] at hperform
  exact ⟨log', hperform⟩

theorem select_fst (s : Session) (columns : List String) :
    (s.select columns).1 = s.ensureFilter.statement columns := rfl

/-- Whoever asks once more is answered alike. -/
theorem answers_of_asks {calls : List Call} (hne : calls ≠ [])
    (h : ∀ call ∈ calls, call.asks = true) (columns : List String) :
    ((s.run calls).select columns).1 = (s.select columns).1 ∧
      ∀ d, ((s.run calls).build columns d).1 = (s.build columns d).1 := by
  obtain ⟨log, hlog⟩ := run_of_asks (s := s) hne h
  have hset : (s.run calls).ensureFilter = s.ensureFilter.logged log := by
    rw [hlog, ensureFilter_logged s.filterSet_ensureFilter]
  refine ⟨?_, fun d => ?_⟩
  · rw [select_fst, select_fst, hset, statement_logged]
  · rw [build_fst, build_fst, hset, statement_logged, assemble_logged]

/-- Another dialect asks for the same values, or lacks the same. -/
theorem build_dialect (s : Session) (columns : List String) (d d' : Dialect) :
    (s.build columns d').1 = (s.build columns d).1.map fun st =>
      ⟨(s.select columns).1.render d', st.values⟩ := by
  rw [build_fst, build_fst, assemble, assemble]
  cases s.ensureFilter.bindings.conflict with
  | some name => rfl
  | none =>
    have hsame : ((s.ensureFilter.statement columns).render d').bind s.ensureFilter.parameters =
      ((s.ensureFilter.statement columns).render d).bind s.ensureFilter.parameters := rfl
    dsimp only
    rw [hsame]
    cases ((s.ensureFilter.statement columns).render d).bind s.ensureFilter.parameters <;> rfl

/-! ## Missing values -/

/-- Without a conflict a build succeeds if its placeholders are bound, and else names one of them
that is not, with the named text. -/
theorem answers_of_agreed (agreed : s.ensureFilter.bindings.conflict = none) (columns : List String)
    (d : Dialect) :
    ((∃ st, (s.build columns d).1 = .ok st) ↔
      ∀ name ∈ ((s.select columns).1.render d).names, s.ensureFilter.bindings.Binds name) ∧
    ∀ e, (s.build columns d).1 = .error e → ∃ name ∈ ((s.select columns).1.render d).names,
      ¬ s.ensureFilter.bindings.Binds name ∧
      e = .unboundParameter name ((s.select columns).1.render d).named := by
  rw [build_of_no_conflict agreed]
  cases hvalues : ((s.select columns).1.render d).bind (s.select columns).2.parameters with
  | ok values =>
    refine ⟨⟨fun _ name hname => ?_, fun _ => ⟨_, rfl⟩⟩, fun _ he => (nomatch he)⟩
    obtain ⟨v, -, hv⟩ := exists_mem_of_forall₂ (Rendering.bind_eq_ok_iff.1 hvalues) hname
    exact ⟨v, hv⟩
  | error e =>
    obtain ⟨before, name, after, hnames, -, hnone, he⟩ := Rendering.bind_eq_error_iff.1 hvalues
    have hname : name ∈ ((s.select columns).1.render d).names := by
      rw [hnames]
      exact List.mem_append_right _ List.mem_cons_self
    have hunbound : ¬ s.ensureFilter.bindings.Binds name := by
      rintro ⟨v, hv⟩
      rw [show s.ensureFilter.bindings.parameters.get? name = none from hnone] at hv
      cases hv
    refine ⟨⟨fun ⟨_, hst⟩ => (nomatch hst), fun h => absurd (h name hname) hunbound⟩, ?_⟩
    intro e' he'
    obtain rfl := Except.error.inj he'
    exact ⟨name, hname, hunbound, he⟩

theorem agreed_of_unbound {columns : List String} {d : Dialect} {name sql : String}
    (h : (s.build columns d).1 = .error (.unboundParameter name sql)) :
    s.ensureFilter.bindings.conflict = none := by
  cases hconflict : s.ensureFilter.bindings.conflict with
  | none => rfl
  | some other =>
    rw [build_of_conflict hconflict] at h
    cases h

/-- A value for a parameter changes nothing of the text. -/
theorem render_setParameter (set : s.filterSet = true) (name : String) (v : Value)
    (columns : List String) (d : Dialect) :
    ((s.setParameter name v).select columns).1.render d = (s.select columns).1.render d := by
  have hset : (s.setParameter name v).ensureFilter = s.setParameter name v :=
    ensureFilter_of_filterSet set
  rw [select_fst, select_fst, hset, ensureFilter_of_filterSet set]
  rfl

/-- A build that lacked a value has the text that it lacked it for, once the value is set. -/
theorem build_after_missing {columns : List String} {d : Dialect} {name sql : String}
    (hbuild : (s.build columns d).1 = .error (.unboundParameter name sql)) (v : Value)
    (d' : Dialect) :
    let t := (s.build columns d).2.setParameter name v
    let r := (s.select columns).1.render d'
    name ∈ r.names ∧ r.named = sql ∧ (t.select columns).1.render d' = r ∧
    (∀ st, (t.build columns d').1 = .ok st → st.rendering = r) ∧
    ((∃ st, (t.build columns d').1 = .ok st) ↔
      ∀ other ∈ r.names, other = name ∨ s.ensureFilter.bindings.Binds other) ∧
    ∀ e, (t.build columns d').1 = .error e → ∃ other ∈ r.names, other ≠ name ∧
      ¬ s.ensureFilter.bindings.Binds other ∧ e = .unboundParameter other sql := by
  intro t r
  have agreed := agreed_of_unbound hbuild
  obtain ⟨_, hname, hunbound, herror⟩ := (answers_of_agreed agreed columns d).2 _ hbuild
  obtain ⟨rfl, hsql⟩ := Error.unboundParameter.inj herror
  have ht : t = s.ensureFilter.setParameter name v :=
    congrArg (setParameter · name v) (build_snd_of_error hbuild)
  have hset : t.ensureFilter = s.ensureFilter.setParameter name v := by
    rw [ht]
    exact ensureFilter_of_filterSet s.filterSet_ensureFilter
  have hrender : (t.select columns).1.render d' = r := by
    rw [ht, render_setParameter s.filterSet_ensureFilter, select_fst,
      ensureFilter_of_filterSet s.filterSet_ensureFilter]
    rfl
  have hbinds (other : String) : t.ensureFilter.bindings.Binds other ↔
      other = name ∨ s.ensureFilter.bindings.Binds other := by
    rw [hset]
    exact Bindings.binds_set_iff
  have answers := answers_of_agreed (s := t) (by rw [hset]; exact agreed) columns d'
  simp only [hrender, hbinds] at answers
  refine ⟨hname, hsql.symm, hrender, fun st hst => (rendering_of_build_ok hst).trans hrender,
    answers.1, fun e he => ?_⟩
  obtain ⟨other, hother, hlacks, rfl⟩ := answers.2 e he
  obtain ⟨hne, hunbound'⟩ := not_or.1 hlacks
  exact ⟨other, hother, hne, hunbound', by rw [hsql]; rfl⟩

/-- Asking for the statement of a session is safe to repeat. It sets the filter as a filter without
restrictions would be set, if none was, and else leaves what it found; a build that succeeds reports
it. Whatever is asked afterwards has the answer that it would have had at first. Another dialect
gives the same named text, names and values, or the same error. When a value was missing and is set,
the texts are what they were: the build succeeds unless it lacks another value. -/
theorem builds_repeat (schema : Schema) (table : TableId) (calls : List Call)
    (columns : List String) (d : Dialect) :
    let s := (new schema table).run calls
    let built := (s.build columns d).2
    s.ensureFilter = (if calls.any Call.filters then s else s.setFilter []) ∧
    (∀ e, (s.build columns d).1 = .error e → built = s.ensureFilter) ∧
    (∀ st, (s.build columns d).1 = .ok st → built =
      s.ensureFilter.report (.statementBuilt st.rendering.named s.ensureFilter.parameters)) ∧
    (∀ asked, asked ≠ [] → (∀ call ∈ asked, call.asks = true) →
      (∃ log, s.run asked = s.ensureFilter.logged log) ∧
      ∀ cs, ((s.run asked).select cs).1 = (s.select cs).1 ∧
        ∀ d', ((s.run asked).build cs d').1 = (s.build cs d').1) ∧
    (∀ d', (∀ e, (s.build columns d').1 = .error e ↔ (s.build columns d).1 = .error e) ∧
      ∀ st, (s.build columns d).1 = .ok st → ∃ st', (s.build columns d').1 = .ok st' ∧
        st'.rendering.named = st.rendering.named ∧ st'.rendering.names = st.rendering.names ∧
        st'.values = st.values) ∧
    ∀ name sql, (s.build columns d).1 = .error (.unboundParameter name sql) → ∀ v d',
      let t := built.setParameter name v
      let r := (s.select columns).1.render d'
      name ∈ r.names ∧ r.named = sql ∧ (t.select columns).1.render d' = r ∧
      (∀ st, (t.build columns d').1 = .ok st → st.rendering = r) ∧
      ((∃ st, (t.build columns d').1 = .ok st) ↔
        ∀ other ∈ r.names, other = name ∨ s.ensureFilter.bindings.Binds other) ∧
      ∀ e, (t.build columns d').1 = .error e → ∃ other ∈ r.names, other ≠ name ∧
        ¬ s.ensureFilter.bindings.Binds other ∧ e = .unboundParameter other sql := by
  intro s built
  refine ⟨?_, fun e => build_snd_of_error, fun st => build_snd_of_ok,
    fun asked hne hasks => ⟨run_of_asks hne hasks, answers_of_asks hne hasks⟩, fun d' => ?_, ?_⟩
  · rw [ensureFilter, filterSet_run]
    rfl
  · rw [build_dialect s columns d d']
    cases hbuild : (s.build columns d).1 with
    | error e =>
      refine ⟨fun _ => Iff.rfl, fun st hst => ?_⟩
      cases hst
    | ok st =>
      refine ⟨fun e => ⟨fun h => ?_, fun h => ?_⟩, fun st' hst => ?_⟩
      · cases h
      · cases h
      · obtain rfl := Except.ok.inj hst
        rw [rendering_of_build_ok hbuild]
        exact ⟨_, rfl, rfl, rfl, rfl⟩
  · exact fun name sql hbuild => build_after_missing hbuild

theorem builds_repeat_ofNoOwner :
    ∃ sql st, (((new ordersWithLines ⟨0⟩).run ofNoOwner).build ["id"] .postgres).1 =
        .error (.unboundParameter "owner" sql) ∧
      ((((((new ordersWithLines ⟨0⟩).run ofNoOwner).build ["id"] .postgres).2.setParameter "owner"
        (.string "7")).build ["id"] .mysql).1 = .ok st) ∧
      st.rendering.named = sql := by
  have refused : (((new ordersWithLines ⟨0⟩).run ofNoOwner).build ["id"] .postgres).1 =
      .error (.unboundParameter "owner" ("SELECT t0.id FROM orders t0 INNER JOIN lines t0_j1 ON " ++
        "t0.id = t0_j1.order_id AND t0_j1.sku = :t0_R1 AND t0_j1.deleted IS NULL " ++
        "WHERE t0.id = :owner")) := by cbv
  have names : ((((new ordersWithLines ⟨0⟩).run ofNoOwner).select ["id"]).1.render .mysql).names =
      ["t0_R1", "owner"] := by cbv
  have numbered : ((new ordersWithLines ⟨0⟩).run ofNoOwner).ensureFilter.parameters.get? "t0_R1" =
      some (.string "A") := by cbv
  obtain ⟨-, -, -, -, -, missing⟩ := builds_repeat ordersWithLines ⟨0⟩ ofNoOwner ["id"] .postgres
  obtain ⟨-, hsql, -, hrendering, hok, -⟩ := missing _ _ refused (.string "7") .mysql
  obtain ⟨st, hst⟩ := hok.2 fun other hother => by
    rw [names] at hother
    rcases List.mem_cons.1 hother with rfl | hother
    · exact .inr ⟨_, numbered⟩
    · exact .inl (List.mem_singleton.1 hother)
  exact ⟨_, st, refused, hst, by rw [hrendering st hst, hsql]⟩

end Session

end JoinPath
