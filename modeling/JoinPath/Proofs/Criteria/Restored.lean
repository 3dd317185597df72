import JoinPath.Proofs.Bindings.History
import JoinPath.Proofs.Criteria.Conjuncts
/-!
# Restoring literals

Naming the literals of a condition loses nothing: the parameters that took their places tell the
literals apart (`namesAt_bindLiterals`), and putting the values of those parameters back gives the
condition as it was (`restore_of_filled`). This goes through where conditions are added to one
another, since two conditions with literals never have the same names (`gathered_restore`).
-/

namespace JoinPath.Criteria

open Bindings (namedFrom)

variable {bound : String → Value → Prop} {value : String → Option Value}

/-! ## Literals and names -/

def literal? : Criteria → Option Value
  | literal value => some value
  | _ => none

def param? : Criteria → Option String
  | param name => some name
  | _ => none

/-- The literals outside subqueries from left to right. -/
def literals (c : Criteria) : List Value := c.leaves.filterMap literal?

/-- The names of the parameters outside subqueries from left to right. -/
def params (c : Criteria) : List String := c.leaves.filterMap param?

/-- The literals among some leaves with the names of the parameters at the same places. -/
def namesAmong (leaves named : List Criteria) : List (String × Value) :=
  (leaves.zip named).filterMap fun
    | (literal value, param name) => some (name, value)
    | _ => none

/-- The literals of `c` with the names of the parameters that stand at their places in `d`. -/
def namesAt (c d : Criteria) : List (String × Value) := namesAmong c.leaves d.leaves

theorem mem_params {c : Criteria} {name : String} : name ∈ c.params ↔ param name ∈ c.leaves :=
  mem_filterMap_leaves fun l _ => by cases l <;> simp [param?]

theorem collects_params : Collects params := collects_leaves.filterMap param?

theorem collects_literals : Collects literals := collects_leaves.filterMap literal?

theorem literalCountAll_eq {cs : List Criteria}
    (h : ∀ c ∈ cs, literalCount c = c.literals.length) :
    literalCountAll cs = (cs.flatMap literals).length := by
  induction cs with
  | nil => rfl
  | cons c cs ih =>
    rw [literalCountAll, h c List.mem_cons_self, ih fun d hd => h d (List.mem_cons_of_mem _ hd),
      List.flatMap_cons, List.length_append]

theorem literalCount_eq (c : Criteria) : c.literalCount = c.literals.length := by
  induction c using induction_members with
  | comparison op cs ih => rw [collects_literals.comparison]; exact literalCountAll_eq ih
  | group op cs ih => rw [collects_literals.group]; exact literalCountAll_eq ih
  | _ => rfl

/-! ## What naming does -/

theorem namesAmong_append {ls ms ls' ms' : List Criteria} (h : ls.length = ms.length) :
    namesAmong (ls ++ ls') (ms ++ ms') = namesAmong ls ms ++ namesAmong ls' ms' := by
  rw [namesAmong, List.zip_append h, List.filterMap_append]
  rfl

theorem namesAmong_bindLiteralsAll {a : String} {cs : List Criteria}
    (h : ∀ c ∈ cs, ∀ b, (bindLiterals a c b).1.leaves.length = c.leaves.length ∧
      namesAt c (bindLiterals a c b).1 = namedFrom b.literals (changes a c)) (b : Bindings) :
    ((bindLiteralsAll a cs b).1.flatMap leaves).length = (cs.flatMap leaves).length ∧
      namesAmong (cs.flatMap leaves) ((bindLiteralsAll a cs b).1.flatMap leaves) =
        namedFrom b.literals (cs.flatMap (changes a)) := by
  induction cs generalizing b with
  | nil => exact ⟨rfl, rfl⟩
  | cons c cs ih =>
    obtain ⟨hlength, hnames⟩ := h c List.mem_cons_self b
    obtain ⟨hlengths, hrest⟩ := ih (fun d hd => h d (List.mem_cons_of_mem _ hd))
      (bindLiterals a c b).2
    have hsplit : (bindLiteralsAll a (c :: cs) b).1 =
        (bindLiterals a c b).1 :: (bindLiteralsAll a cs (bindLiterals a c b).2).1 := rfl
    rw [hsplit, List.flatMap_cons, List.flatMap_cons, List.flatMap_cons]
    refine ⟨?_, ?_⟩
    · rw [List.length_append, List.length_append, hlength, hlengths]
    · rw [namesAmong_append hlength.symm, Bindings.namedFrom_append, hrest, bindLiterals_snd,
        Bindings.literals_changed]
      exact congrArg (· ++ _) hnames

theorem namesAt_bindLiterals_aux (a : String) (c : Criteria) (b : Bindings) :
    (bindLiterals a c b).1.leaves.length = c.leaves.length ∧
      namesAt c (bindLiterals a c b).1 = namedFrom b.literals (changes a c) := by
  induction c using induction_members generalizing b with
  | comparison op cs ih =>
    have hfirst : (bindLiterals a (comparison op cs) b).1 =
        comparison op (bindLiteralsAll a cs b).1 := rfl
    rw [namesAt, hfirst, leaves_comparison, leaves_comparison, (collects_changes a).comparison]
    exact namesAmong_bindLiteralsAll ih b
  | group op cs ih =>
    have hfirst : (bindLiterals a (group op cs) b).1 = group op (bindLiteralsAll a cs b).1 := rfl
    rw [namesAt, hfirst, leaves_group, leaves_group, (collects_changes a).group]
    exact namesAmong_bindLiteralsAll ih b
  | _ => exact ⟨rfl, rfl⟩

/-- The names that composing a condition gives to its literals stand at the places of the
literals. -/
theorem namesAt_bindLiterals (a : String) (c : Criteria) (b : Bindings) :
    namesAt c (bindLiterals a c b).1 = namedFrom b.literals (changes a c) :=
  (namesAt_bindLiterals_aux a c b).2

theorem map_snd_namedFrom (a : String) (used : ℕ) (c : Criteria) :
    (namedFrom used (changes a c)).map Prod.snd = c.literals := by
  unfold changes literals
  generalize c.leaves = ls
  induction ls generalizing used with
  | nil => rfl
  | cons l ls ih =>
    rw [List.flatMap_cons, Bindings.namedFrom_append, List.map_append, ih]
    cases l <;> rfl

theorem mapColumnsAll_bindLiterals {f : ColumnRef → ColumnRef} {a : String} {cs : List Criteria}
    (h : ∀ c ∈ cs, ∀ b, bindLiterals a (mapColumns f c) b =
      (mapColumns f (bindLiterals a c b).1, (bindLiterals a c b).2)) (b : Bindings) :
    bindLiteralsAll a (cs.map (mapColumns f)) b =
      ((bindLiteralsAll a cs b).1.map (mapColumns f), (bindLiteralsAll a cs b).2) := by
  induction cs generalizing b with
  | nil => rfl
  | cons c cs ih =>
    simp only [List.map_cons, bindLiteralsAll, h c List.mem_cons_self b,
      ih fun d hd => h d (List.mem_cons_of_mem _ hd)]

/-- Columns may be rewritten before literals are named or after. -/
theorem bindLiterals_mapColumns (f : ColumnRef → ColumnRef) (a : String) (c : Criteria)
    (b : Bindings) : bindLiterals a (mapColumns f c) b =
      (mapColumns f (bindLiterals a c b).1, (bindLiterals a c b).2) := by
  induction c using induction_members generalizing b with
  | comparison op cs ih =>
    simp only [mapColumns_comparison, bindLiterals, mapColumnsAll_bindLiterals ih]
  | group op cs ih =>
    simp only [mapColumns_group, bindLiterals, mapColumnsAll_bindLiterals ih]
  | _ => rfl

/-! ## Conditions with names filled in -/

/-- A parameter stands there already or took the place of a literal. -/
theorem Filled.mem_params {c d : Criteria} (h : Filled bound c d) {name : String}
    (hname : name ∈ d.params) : name ∈ c.params ∨ ∃ v, bound name v := by
  obtain ⟨l, hl, hleaf⟩ := h.exists_leaf (Criteria.mem_params.1 hname)
  cases hleaf with
  | literal hbound => exact .inr ⟨_, hbound⟩
  | param => exact .inl (Criteria.mem_params.2 hl)

/-- No literal is left. -/
theorem Filled.literals_eq_nil {c d : Criteria} (h : Filled bound c d) : d.literals = [] := by
  rw [literals, List.filterMap_eq_nil_iff]
  intro m hm
  obtain ⟨l, -, hleaf⟩ := h.exists_leaf hm
  cases hleaf <;> rfl

/-! ## Putting values back -/

mutual

/-- Puts a literal in place of each parameter outside subqueries that has a `value`. -/
def restore (value : String → Option Value) : Criteria → Criteria
  | comparison op operands => comparison op (restoreAll value operands)
  | group op members => group op (restoreAll value members)
  | literal v => literal v
  | param name => (value name).elim (param name) literal
  | subquery select => subquery select
  | column ref => column ref

def restoreAll (value : String → Option Value) : List Criteria → List Criteria
  | [] => []
  | c :: cs => restore value c :: restoreAll value cs

end

theorem restoreAll_eq_map (cs : List Criteria) : restoreAll value cs = cs.map (restore value) :=
  eq_map_of_cons rfl (fun _ _ => rfl) cs

theorem rewrites_restore : Rewrites (restore value) where
  comparison op cs := by rw [restore, restoreAll_eq_map]
  group op cs := by rw [restore, restoreAll_eq_map]

/-- A condition whose parameters have no value stays as it is. -/
theorem restore_of_params {c : Criteria} (h : ∀ name ∈ c.params, value name = none) :
    restore value c = c := by
  have all {cs : List Criteria} (each : ∀ c ∈ cs, restore value c = c) :
      cs.map (restore value) = cs :=
    (List.map_congr_left each).trans (List.map_id cs)
  induction c using induction_members with
  | comparison op cs ih =>
    rw [collects_params.comparison] at h
    rw [rewrites_restore.comparison, all fun c hc =>
      ih c hc fun name hn => h name (List.mem_flatMap.2 ⟨c, hc, hn⟩)]
  | group op cs ih =>
    rw [collects_params.group] at h
    rw [rewrites_restore.group, all fun c hc =>
      ih c hc fun name hn => h name (List.mem_flatMap.2 ⟨c, hc, hn⟩)]
  | param name => rw [restore, h name (List.mem_singleton_self name), Option.elim_none]
  | _ => rfl

/-- Where names stand for literals, putting the literals back gives the condition as it was. -/
theorem restore_of_filled {c d : Criteria} (h : Filled bound c d)
    (hbound : ∀ name v, bound name v → value name = some v)
    (own : ∀ name ∈ c.params, value name = none) : restore value d = c := by
  have all {cs ds : List Criteria}
      (each : ∀ c ∈ cs, ∀ d, Filled bound c d → restore value d = c)
      (hall : FilledAll bound cs ds) : ds.map (restore value) = cs := by
    induction cs generalizing ds with
    | nil =>
      obtain rfl : ds = [] := hall
      rfl
    | cons c cs ih =>
      obtain ⟨d, ds, rfl, hd, hds⟩ := hall
      rw [List.map_cons, each c List.mem_cons_self d hd,
        ih (fun c hc => each c (List.mem_cons_of_mem _ hc)) hds]
  induction c using induction_members generalizing d with
  | comparison op cs ih =>
    obtain ⟨ds, rfl, hds⟩ := h
    rw [collects_params.comparison] at own
    rw [rewrites_restore.comparison, all (fun c hc d hd =>
      ih c hc hd fun name hn => own name (List.mem_flatMap.2 ⟨c, hc, hn⟩)) hds]
  | group op cs ih =>
    obtain ⟨ds, rfl, hds⟩ := h
    rw [collects_params.group] at own
    rw [rewrites_restore.group, all (fun c hc d hd =>
      ih c hc hd fun name hn => own name (List.mem_flatMap.2 ⟨c, hc, hn⟩)) hds]
  | literal v =>
    obtain ⟨name, rfl, hn⟩ := h
    rw [restore, hbound name v hn, Option.elim_some]
  | param name =>
    rw [show d = _ from h]
    exact restore_of_params own
  | subquery select => rw [show d = _ from h, restore]
  | column ref => rw [show d = _ from h, restore]

/-- A condition without literals is what it was filled from. -/
theorem Filled.eq_of_unbound {c d : Criteria} (h : Filled bound c d)
    (unbound : ∀ name v, ¬ bound name v) : d = c := by
  have hnone : restore (fun _ => none) d = c :=
    restore_of_filled h (fun name v hn => absurd hn (unbound name v)) fun _ _ => rfl
  rw [← hnone, restore_of_params fun _ _ => rfl]

/-- Restoring a conjunction restores its conjuncts. -/
theorem conjuncts_restore (value : String → Option Value) (c : Criteria) :
    (restore value c).conjuncts = c.conjuncts.map (restore value) := by
  induction c using induction_members with
  | comparison op cs => rfl
  | group op cs ih =>
    cases op with
    | and =>
      rw [rewrites_restore.group, conjuncts_group_and, conjuncts_group_and, List.flatMap_map,
        List.map_flatMap]
      exact List.flatMap_congr ih
    | or => rfl
    | not => rfl
  | param name =>
    cases h : value name <;> simp [restore, h, conjuncts]
  | _ => rfl

/-! ## Conditions that were added to one another -/

theorem params_of_beqAll {cs ds : List Criteria}
    (h : ∀ c ∈ cs, ∀ d, beq c d = true → c.params = d.params) (hall : beqAll cs ds = true) :
    cs.flatMap params = ds.flatMap params := by
  have hsame := forall₂_flatMap (S := Eq) (f := params) (g := params) (beqAll_iff.1 hall)
    fun c hc d hcd => List.forall₂_eq_eq_eq ▸ h c hc d hcd
  exact List.forall₂_eq_eq_eq ▸ hsame

/-- Equal conditions have the same parameters. -/
theorem params_of_beq {c d : Criteria} (h : beq c d = true) : c.params = d.params := by
  induction c using induction_members generalizing d with
  | comparison op cs ih =>
    cases d with
    | comparison op' ds =>
      have hparts : op = op' ∧ beqAll cs ds = true := by simpa [beq] using h
      rw [collects_params.comparison, collects_params.comparison]
      exact params_of_beqAll (fun c hc d => ih c hc) hparts.2
    | _ => simp [beq] at h
  | group op cs ih =>
    cases d with
    | group op' ds =>
      have hparts : op = op' ∧ beqAll cs ds = true := by simpa [beq] using h
      rw [collects_params.group, collects_params.group]
      exact params_of_beqAll (fun c hc d => ih c hc) hparts.2
    | _ => simp [beq] at h
  | param name =>
    cases d with
    | param n => rw [show name = n by simpa [beq] using h]
    | _ => simp [beq] at h
  | literal v => cases d <;> first | rfl | simp [beq] at h
  | subquery select => cases d <;> first | rfl | simp [beq] at h
  | column ref => cases d <;> first | rfl | simp [beq] at h

/-- Conditions are added to conjuncts one after the other. Only one without literals may be left
out, and only if it stands there already. -/
inductive Gathered : List Criteria → List Criteria → List Criteria → Prop
  | nil (present : List Criteria) : Gathered present [] present
  | add {present extras result : List Criteria} {extra : Criteria} :
    Gathered (present ++ extra.conjuncts) extras result →
      Gathered present (extra :: extras) result
  | keep {present extras result : List Criteria} {extra : Criteria} :
    extra.literals = [] → StandsIn extra present → Gathered present extras result →
      Gathered present (extra :: extras) result

/-- The second condition is the first with names for its literals. -/
def IsNamed (c d : Criteria) : Prop := ∃ a b, d = (bindLiterals a c b).1

/-- The conjuncts of a condition that stand among others have its parameters. -/
theorem StandsIn.exists_row {extra : Criteria} {present : List Criteria}
    (h : StandsIn extra present) :
    ∃ before row after, present = before ++ row ++ after ∧
      (beqAll row extra.conjuncts = true ∨ beqAll extra.conjuncts row = true) ∧
      row.flatMap params = extra.params := by
  obtain ⟨before, row, after, hpresent, heq⟩ := h
  refine ⟨before, row, after, hpresent, heq, ?_⟩
  rw [← collects_params.conjuncts extra]
  rcases heq with heq | heq
  · exact params_of_beqAll (fun _ _ _ => params_of_beq) heq
  · exact (params_of_beqAll (fun _ _ _ => params_of_beq) heq).symm

theorem IsNamed.filled {c d : Criteria} (h : IsNamed c d) :
    Filled (fun name v => (name, v) ∈ namesAt c d) c d := by
  obtain ⟨a, b, rfl⟩ := h
  rw [namesAt_bindLiterals]
  exact filled_bindLiterals a c b

theorem IsNamed.map_snd_namesAt {c d : Criteria} (h : IsNamed c d) :
    (namesAt c d).map Prod.snd = c.literals := by
  obtain ⟨a, b, rfl⟩ := h
  rw [namesAt_bindLiterals, map_snd_namedFrom]

/-- The name of a literal stands in the condition. -/
theorem mem_params_of_mem_namesAt {c d : Criteria} {e : String × Value} (h : e ∈ namesAt c d) :
    e.1 ∈ d.params := by
  obtain ⟨⟨l, m⟩, hmem, he⟩ := List.mem_filterMap.1 h
  have hm := (List.of_mem_zip hmem).2
  cases l <;> cases m <;> simp at he
  subst he
  exact mem_params.2 hm

/-- A condition with a name that the conjuncts lack does not stand among them. -/
theorem StandsIn.namesAt_eq_nil {c d : Criteria} {present : List Criteria}
    (h : StandsIn d present) (fresh : ∀ e ∈ namesAt c d, e.1 ∉ present.flatMap params) :
    namesAt c d = [] := by
  obtain ⟨before, row, after, rfl, -, hparams⟩ := h.exists_row
  rw [List.eq_nil_iff_forall_not_mem]
  intro e he
  apply fresh e he
  rw [List.flatMap_append, List.flatMap_append, hparams]
  exact List.mem_append_left _ (List.mem_append_right _ (mem_params_of_mem_namesAt he))

theorem StandsIn.restore {c : Criteria} {present : List Criteria} (h : StandsIn c present)
    (own : ∀ name ∈ c.params, value name = none) :
    StandsIn c (present.map (Criteria.restore value)) := by
  obtain ⟨before, row, after, rfl, heq, hparams⟩ := h.exists_row
  have hrow : row.map (Criteria.restore value) = row := by
    refine (List.map_congr_left fun x hx => restore_of_params fun name hn => ?_).trans
      (List.map_id row)
    exact own name (hparams ▸ List.mem_flatMap.2 ⟨x, hx, hn⟩)
  refine ⟨before.map (Criteria.restore value), row, after.map (Criteria.restore value), ?_, heq⟩
  rw [List.map_append, List.map_append, hrow]

/-- The names that the second conditions have for the literals of the first. -/
def namesIn (pairs : List (Criteria × Criteria)) : List (String × Value) :=
  pairs.flatMap fun p => namesAt p.1 p.2

theorem namesIn_cons (c d : Criteria) (pairs : List (Criteria × Criteria)) :
    namesIn ((c, d) :: pairs) = namesAt c d ++ namesIn pairs := rfl

/-- Conditions whose literals have different names are added to one another like the conditions
with the literals themselves. -/
theorem gathered_restore {pairs : List (Criteria × Criteria)} {present result : List Criteria}
    (h : Conjoined present (pairs.map Prod.snd) result)
    (named : ∀ p ∈ pairs, IsNamed p.1 p.2) (nodup : ((namesIn pairs).map Prod.fst).Nodup)
    (values : ∀ e ∈ namesIn pairs, value e.1 = some e.2)
    (own : ∀ p ∈ pairs, ∀ name ∈ p.1.params, value name = none)
    (fresh : ∀ e ∈ namesIn pairs, e.1 ∉ present.flatMap params) :
    Gathered (present.map (restore value)) (pairs.map Prod.fst) (result.map (restore value)) := by
  induction pairs generalizing present with
  | nil =>
    cases h
    exact .nil _
  | cons p pairs ih =>
    obtain ⟨c, d⟩ := p
    rw [namesIn_cons] at nodup values fresh
    rw [List.map_append] at nodup
    obtain ⟨-, hnodup, disjoint⟩ := List.nodup_append.1 nodup
    have hnamed : IsNamed c d := named _ List.mem_cons_self
    have hown : ∀ name ∈ c.params, value name = none := own _ List.mem_cons_self
    have hvalues : ∀ e ∈ namesIn pairs, value e.1 = some e.2 :=
      fun e he => values e (List.mem_append_right _ he)
    have hfresh : ∀ e ∈ namesIn pairs, e.1 ∉ present.flatMap params :=
      fun e he => fresh e (List.mem_append_right _ he)
    have hrest {present : List Criteria} (h : Conjoined present (pairs.map Prod.snd) result)
        (fresh : ∀ e ∈ namesIn pairs, e.1 ∉ present.flatMap params) :=
      ih h (fun p hp => named p (List.mem_cons_of_mem _ hp)) hnodup hvalues
        (fun p hp => own p (List.mem_cons_of_mem _ hp)) fresh
    have hrestored : restore value d = c := restore_of_filled hnamed.filled
      (fun name v hn => values (name, v) (List.mem_append_left _ hn)) hown
    cases h with
    | add h =>
      refine .add ?_
      -- The names of the rest are neither among the conditions so far nor in this one.
      have hnext := hrest h fun e he hmem => ?_
      · rwa [List.map_append, ← conjuncts_restore, hrestored] at hnext
      · rw [List.flatMap_append, List.mem_append, collects_params.conjuncts] at hmem
        refine hmem.elim (hfresh e he) fun hmem => ?_
        rcases hnamed.filled.mem_params hmem with hmem | ⟨v, hv⟩
        · have hnone := hown e.1 hmem
          rw [hvalues e he] at hnone
          cases hnone
        · exact disjoint e.1 (List.mem_map.2 ⟨_, hv, rfl⟩) e.1 (List.mem_map_of_mem he) rfl
    | keep hstands h =>
      -- What stands already has none of the new names, so no literal was named in it.
      have hunnamed : namesAt c d = [] :=
        hstands.namesAt_eq_nil fun e he => fresh e (List.mem_append_left _ he)
      have hliterals : c.literals = [] := by
        rw [← hnamed.map_snd_namesAt, hunnamed]
        rfl
      obtain rfl : d = c :=
        hnamed.filled.eq_of_unbound fun name v hv => by simp [hunnamed] at hv
      exact .keep hliterals (hstands.restore hown) (hrest h hfresh)

end JoinPath.Criteria
