import JoinPath.Proofs.Json.Values
/-!
# Conditions and statements from JSON

A condition, a hop and a statement without floats are read back from the text they are written as,
as long as the text is nested no deeper than a reader may go; and whatever text a reader accepts,
what it read is written as a text that reads the same and is written again as it stands
(`json_round_trips`). Floats are left out: infinities and NaN have no form, and a reader may round
the last bit.
-/

namespace JoinPath

mutual

/-- No value in the condition is a float, also not in its subqueries. -/
def Criteria.FloatFree : Criteria → Prop
  | .comparison _ operands => Criteria.AllFloatFree operands
  | .group _ members => Criteria.AllFloatFree members
  | .literal value => value.isFloat = false
  | .param _ => True
  | .subquery select => Select.FloatFree select
  | .column _ => True

def Criteria.AllFloatFree : List Criteria → Prop
  | [] => True
  | c :: cs => Criteria.FloatFree c ∧ Criteria.AllFloatFree cs

def Criteria.OptionFloatFree : Option Criteria → Prop
  | none => True
  | some c => Criteria.FloatFree c

/-- No value in the conditions and the parameters of the statement is a float. -/
def Select.FloatFree : Select Criteria → Prop
  | ⟨_, _, _, joins, filter, parameters⟩ =>
    Hop.AllFloatFree joins ∧ Criteria.OptionFloatFree filter ∧
      ∀ e ∈ parameters.entries, e.2.isFloat = false

def Hop.AllFloatFree : List (Hop Criteria) → Prop
  | [] => True
  | hop :: hops => Hop.FloatFree hop ∧ Hop.AllFloatFree hops

def Hop.FloatFree : Hop Criteria → Prop
  | ⟨_, _, _, _, on, _⟩ => Criteria.OptionFloatFree on

end

namespace Json

/-! ## Writing and reading back -/

theorem name?_text {α : Type} {ofName? : String → Option α} (d : ℕ) (name : String) :
    name? ofName? d (text name) = ofName? name := by
  rw [text, name?]

theorem field_le {entries : List (String × Json)} {d : ℕ} (hd : (record entries).depth ≤ d + 1)
    (name : String) {v : Json} (h : (name, v) ∈ entries) : v.depth ≤ d :=
  depth_record_le.1 hd (name, v) h

/-- An operation is read from any record with the name of its operator and what it applies to. -/
theorem operation?_record {α : Type} {ofName? : String → Option α} {field name : String}
    {items? : Json → Option (List Criteria)} {build : α → List Criteria → Criteria} {v items : Json}
    {op : α} {cs : List Criteria}
    (fields : v.record? ["op", field] 2 = some [some (text name), some items])
    (hname : ofName? name = some op) (hitems : items? items = some cs) (d : ℕ) :
    operation? ofName? field items? build d v = some (build op cs) := by
  simp only [operation?, fields, name?_text, hname, hitems, Option.bind_eq_bind, Option.bind_some]

/-- A condition is read back from a record that holds its parts in a field. -/
theorem operation_restored {tag field : String} {entries : List (String × Json)} {c : Criteria}
    {cs : List Criteria} (h : WrittenAs criteriaList? (array (ofCriteriaAll cs)) cs)
    (hmem : (field, array (ofCriteriaAll cs)) ∈ entries)
    (written : ∀ e ∈ entries, e.2.IsWritten)
    (reads : ∀ d, criteriaList? d (array (ofCriteriaAll cs)) = some cs →
      criteria? (d + 1 + 1) (tagged tag (record entries)) = some c) :
    WrittenAs criteria? (tagged tag (record entries)) c := by
  refine tagged_restored (isWritten_record written) fun d hd => ?_
  cases d with
  | zero => exact absurd hd (Nat.not_succ_le_zero _)
  | succ d => exact reads d (h.restored d (field_le hd field hmem))

theorem comparison_restored (op : Operator) {cs : List Criteria}
    (h : WrittenAs criteriaList? (array (ofCriteriaAll cs)) cs) :
    WrittenAs criteria? (ofCriteria (.comparison op cs)) (.comparison op cs) := by
  refine operation_restored h (List.mem_cons_of_mem _ List.mem_cons_self) ?_ fun d hoperands =>
    operation?_record rfl op.ofName?_name hoperands d
  simpa using ⟨isWritten_text _, h.written⟩

theorem group_restored (op : Connective) {cs : List Criteria}
    (h : WrittenAs criteriaList? (array (ofCriteriaAll cs)) cs) :
    WrittenAs criteria? (ofCriteria (.group op cs)) (.group op cs) := by
  refine operation_restored h List.mem_cons_self ?_ fun d hmembers =>
    operation?_record rfl op.ofName?_name hmembers d
  simpa using ⟨h.written, isWritten_text _⟩

/-- A condition is an object, so a missing one is told apart. -/
theorem exists_tagged (c : Criteria) : ∃ name v, ofCriteria c = tagged name v := by
  cases c <;> exact ⟨_, _, rfl⟩

/-- The form of a condition that may be missing is read as that, whatever is done with it. -/
structure OptionWrittenAs (o : Option Criteria) : Prop where
  written : (ofCriteria? o).IsWritten
  restored : ∀ d, (ofCriteria? o).depth ≤ d → ∀ {α : Type} (next : Option Criteria → Option α),
    (match some (ofCriteria? o) with
      | none => next none
      | some null => next none
      | some c => ((criteria? d c).map some).bind next) = next o

theorem none_restored : OptionWrittenAs none := ⟨trivial, fun _ _ _ _ => rfl⟩

theorem some_restored {c : Criteria} (h : WrittenAs criteria? (ofCriteria c) c) :
    OptionWrittenAs (some c) := by
  refine ⟨h.written, fun d hd α next => ?_⟩
  have hread := h.restored d hd
  obtain ⟨name, v, hform⟩ := exists_tagged c
  rw [ofCriteria?]
  rw [hform] at hread ⊢
  show ((criteria? d (tagged name v)).map some).bind next = _
  rw [hread, Option.map_some, Option.bind_some]

theorem select_restored {columns : List ColumnRef} {table tableAlias : String}
    {joins : List (Hop Criteria)} {filter : Option Criteria} {parameters : Parameters}
    (hjoins : WrittenAs hops? (array (ofHops joins)) joins) (hfilter : OptionWrittenAs filter)
    (hparameters : ∀ e ∈ parameters.entries, e.2.isFloat = false) :
    WrittenAs select? (ofSelect ⟨columns, table, tableAlias, joins, filter, parameters⟩)
      ⟨columns, table, tableAlias, joins, filter, parameters⟩ := by
  have hcolumns : WrittenAs (list? columnRef?) (array (columns.map ofColumnRef)) columns :=
    list?_restored fun c _ => columnRef?_restored c
  have hmap := parameters?_restored hparameters
  constructor
  · refine isWritten_record ?_
    simpa using ⟨isWritten_text _, hcolumns.written, hfilter.written, hjoins.written, hmap.written,
      isWritten_text _⟩
  · intro d hd
    cases d with
    | zero => exact absurd hd (Nat.not_succ_le_zero _)
    | succ d =>
      have hfields : (ofSelect ⟨columns, table, tableAlias, joins, filter, parameters⟩).record?
          ["columns", "table", "alias", "joins", "filter", "parameters"] 5 =
          some [some (array (columns.map ofColumnRef)), some (text table), some (text tableAlias),
            some (array (ofHops joins)), some (ofCriteria? filter),
            some (ofParameters parameters)] := rfl
      have hc := hcolumns.restored d (field_le hd "columns" (by simp))
      have hj := hjoins.restored d (field_le hd "joins" (by simp))
      have hp := hmap.restored d (field_le hd "parameters" (by simp))
      simp only [select?, hfields, hc, hj, hp, text, text?, fieldOr, Option.bind_eq_bind,
        Option.bind_some]
      have hf : (ofCriteria? filter).depth ≤ d := field_le hd "filter" (by simp)
      exact hfilter.restored d hf fun filter =>
        some (Select.mk columns table tableAlias joins filter parameters)

theorem hop_restored {kind : JoinKind} {table tableAlias : String} {conditions : List Condition}
    {on : Option Criteria} {fetch : Bool} (hon : OptionWrittenAs on) :
    WrittenAs hop? (ofHop ⟨kind, table, tableAlias, conditions, on, fetch⟩)
      ⟨kind, table, tableAlias, conditions, on, fetch⟩ := by
  have hconditions :
      WrittenAs (list? condition?) (array (conditions.map ofCondition)) conditions :=
    list?_restored fun c _ => condition?_restored c
  constructor
  · refine isWritten_record ?_
    simpa using ⟨isWritten_text _, hconditions.written, trivial, isWritten_text _, hon.written,
      isWritten_text _⟩
  · intro d hd
    cases d with
    | zero => exact absurd hd (Nat.not_succ_le_zero _)
    | succ d =>
      have hfields : (ofHop ⟨kind, table, tableAlias, conditions, on, fetch⟩).record?
          ["kind", "table", "alias", "conditions", "on", "fetch"] 4 =
          some [some (text kind.name), some (text table), some (text tableAlias),
            some (array (conditions.map ofCondition)), some (ofCriteria? on),
            some (bool fetch)] := rfl
      have hc := hconditions.restored d (field_le hd "conditions" (by simp))
      simp only [hop?, hfields, name?_text, JoinKind.ofName?_name, hc, fieldOr, bool?,
        Option.bind_eq_bind, Option.bind_some]
      have ho : (ofCriteria? on).depth ≤ d := field_le hd "on" (by simp)
      exact hon.restored d ho fun on =>
        some (Hop.mk kind table tableAlias conditions on fetch)

theorem ofCriteriaAll_eq_map (cs : List Criteria) : ofCriteriaAll cs = cs.map ofCriteria :=
  eq_map_of_cons rfl (fun _ _ => rfl) cs

theorem ofHops_eq_map (hops : List (Hop Criteria)) : ofHops hops = hops.map ofHop :=
  eq_map_of_cons rfl (fun _ _ => rfl) hops

theorem criteriaList?_eq : criteriaList? = list? criteria? := by
  funext d v
  cases d <;> cases v <;> simp [criteriaList?, list?]

theorem hops?_eq : hops? = list? hop? := by
  funext d v
  cases d <;> cases v <;> simp [hops?, list?]

mutual

theorem criteria_restored : ∀ c : Criteria, c.FloatFree → WrittenAs criteria? (ofCriteria c) c
  | .comparison op operands, h => comparison_restored op (by
    rw [criteriaList?_eq, ofCriteriaAll_eq_map]
    exact list?_restored (all_restored operands h))
  | .group op members, h => group_restored op (by
    rw [criteriaList?_eq, ofCriteriaAll_eq_map]
    exact list?_restored (all_restored members h))
  | .literal value, h => by
    have hvalue := value?_restored h
    refine tagged_restored hvalue.written fun d hd => ?_
    show (value? d (ofValue value)).map Criteria.literal = _
    rw [hvalue.restored d hd, Option.map_some]
  | .param name, _ => tagged_restored (isWritten_text name) fun _ _ => rfl
  | .subquery select, h => by
    have hselect := statement_restored select h
    refine tagged_restored hselect.written fun d hd => ?_
    show (select? d (ofSelect select)).map Criteria.subquery = _
    rw [hselect.restored d hd, Option.map_some]
  | .column ref, _ => by
    have href := columnRef?_restored ref
    refine tagged_restored href.written fun d hd => ?_
    show (columnRef? d (ofColumnRef ref)).map Criteria.column = _
    rw [href.restored d hd, Option.map_some]

theorem all_restored : ∀ cs : List Criteria, Criteria.AllFloatFree cs →
    ∀ c ∈ cs, WrittenAs criteria? (ofCriteria c) c
  | [], _ => fun _ hc => absurd hc List.not_mem_nil
  | c :: cs, h => List.forall_mem_cons.2 ⟨criteria_restored c h.1, all_restored cs h.2⟩

theorem option_restored : ∀ o : Option Criteria, Criteria.OptionFloatFree o → OptionWrittenAs o
  | none, _ => none_restored
  | some c, h => some_restored (criteria_restored c h)

theorem statement_restored : ∀ s : Select Criteria, s.FloatFree →
    WrittenAs select? (ofSelect s) s
  | ⟨columns, table, tableAlias, joins, filter, parameters⟩, h =>
    select_restored (by
      rw [hops?_eq, ofHops_eq_map]
      exact list?_restored (hops_restored joins h.1)) (option_restored filter h.2.1) h.2.2

theorem hops_restored : ∀ hops : List (Hop Criteria), Hop.AllFloatFree hops →
    ∀ h ∈ hops, WrittenAs hop? (ofHop h) h
  | [], _ => fun _ hh => absurd hh List.not_mem_nil
  | h :: hops, hfree =>
    List.forall_mem_cons.2 ⟨joined_restored h hfree.1, hops_restored hops hfree.2⟩

theorem joined_restored : ∀ h : Hop Criteria, h.FloatFree → WrittenAs hop? (ofHop h) h
  | ⟨_, _, _, _, on, _⟩, h => hop_restored (option_restored on h)

end

/-! ## Reading and writing again -/

/-- All readers of conditions and statements that go as deep as `d` read what can be written. -/
structure AllFit (d : ℕ) : Prop where
  criteria : Fits criteria? ofCriteria d
  operation : ∀ v c, comparison? d v = some c ∨ group? d v = some c → (ofCriteria c).depth ≤ d + 1
  list : Fits criteriaList? (fun cs => array (ofCriteriaAll cs)) d
  select : Fits select? ofSelect d
  hops : Fits hops? (fun hops => array (ofHops hops)) d
  hop : Fits hop? ofHop d

theorem allFit_zero : AllFit 0 where
  criteria _ _ h := by cases h
  operation _ _ h := by rcases h with h | h <;> cases h
  list _ _ h := by cases h
  select _ _ h := by cases h
  hops _ _ h := by cases h
  hop _ _ h := by cases h

variable {d : ℕ}

theorem depth_tagged_record_le {tag : String} {entries : List (String × Json)}
    (h : ∀ e ∈ entries, e.2.depth ≤ d) : (tagged tag (record entries)).depth ≤ d + 1 + 1 := by
  rw [depth_tagged]
  exact Nat.succ_le_succ (depth_record_le.2 h)

/-- What is read as an operation is written two levels above its parts. -/
theorem AllFit.depth_of_operation? (h : AllFit d) {α : Type} {ofName? : String → Option α}
    {field : String} {build : α → List Criteria → Criteria} {v : Json} {c : Criteria}
    (written : ∀ op cs, (array (ofCriteriaAll cs)).depth ≤ d →
      (ofCriteria (build op cs)).depth ≤ d + 1 + 1)
    (hread : operation? ofName? field (criteriaList? d) build d v = some c) :
    (ofCriteria c).depth ≤ d + 1 + 1 := by
  simp only [operation?, Option.bind_eq_bind, Option.bind_eq_some_iff] at hread
  obtain ⟨fields, -, hread⟩ := hread
  split at hread
  · simp only [Option.bind_eq_some_iff] at hread
    obtain ⟨op, -, items, hitems, hread⟩ := hread
    obtain rfl := Option.some.inj hread
    exact written op items (h.list _ _ hitems)
  · cases hread

theorem AllFit.operation_succ (h : AllFit d) (v : Json) (c : Criteria)
    (hread : comparison? (d + 1) v = some c ∨ group? (d + 1) v = some c) :
    (ofCriteria c).depth ≤ d + 1 + 1 := by
  rcases hread with hread | hread
  all_goals
    refine h.depth_of_operation? (fun op cs hle => depth_tagged_record_le ?_) hread
    simpa [text, depth] using hle

theorem AllFit.criteria_succ (h : AllFit d) : Fits criteria? ofCriteria (d + 1) := by
  intro v c hread
  unfold criteria? at hread
  split at hread
  · next e name v heq =>
    obtain rfl := Nat.succ.inj heq
    split at hread
    · exact h.operation v c (.inl hread)
    · exact h.operation v c (.inr hread)
    · obtain ⟨value, hvalue, rfl⟩ := Option.map_eq_some_iff.1 hread
      rw [ofCriteria, depth_tagged]
      exact Nat.succ_le_succ (fits_value? _ _ _ hvalue)
    · obtain ⟨name, -, rfl⟩ := Option.map_eq_some_iff.1 hread
      exact Nat.succ_le_succ (Nat.zero_le _)
    · obtain ⟨select, hselect, rfl⟩ := Option.map_eq_some_iff.1 hread
      rw [ofCriteria, depth_tagged]
      exact Nat.succ_le_succ (h.select _ _ hselect)
    · obtain ⟨ref, href, rfl⟩ := Option.map_eq_some_iff.1 hread
      rw [ofCriteria, depth_tagged]
      exact Nat.succ_le_succ (fits_columnRef? _ _ _ href)
    · cases hread
  · cases hread

/-- Lists of what fits at some depth fit one level deeper. -/
theorem fits_listed {α : Type} {item? : ℕ → Json → Option α} {items? : ℕ → Json → Option (List α)}
    {form : α → Json} {forms : List α → List Json} (hitems : items? = list? item?)
    (hforms : ∀ xs, forms xs = xs.map form) (h : Fits item? form d) :
    Fits items? (fun xs => array (forms xs)) (d + 1) := by
  intro v xs hread
  rw [hitems] at hread
  show (array (forms xs)).depth ≤ d + 1
  rw [hforms]
  exact fits_list? (fun e he => Nat.succ.inj he ▸ h) v xs hread

theorem depth_ofSelect_le {s : Select Criteria}
    (hcolumns : (array (s.columns.map ofColumnRef)).depth ≤ d)
    (hjoins : (array (ofHops s.joins)).depth ≤ d) (hfilter : (ofCriteria? s.filter).depth ≤ d)
    (hparameters : (ofParameters s.parameters).depth ≤ d) : (ofSelect s).depth ≤ d + 1 := by
  obtain ⟨columns, table, tableAlias, joins, filter, parameters⟩ := s
  refine depth_record_le.2 ?_
  simpa [text, depth] using ⟨hcolumns, hfilter, hjoins, hparameters⟩

theorem depth_ofHop_le {h : Hop Criteria}
    (hconditions : (array (h.conditions.map ofCondition)).depth ≤ d)
    (hon : (ofCriteria? h.on).depth ≤ d) : (ofHop h).depth ≤ d + 1 := by
  obtain ⟨kind, table, tableAlias, conditions, on, fetch⟩ := h
  refine depth_record_le.2 ?_
  simpa [text, depth] using ⟨hconditions, hon⟩

/-- Parameters that are missing are written as none, which takes one level. -/
theorem fits_missing {v : Option Json} {p : Parameters} (hpos : 0 < d)
    (h : fieldOr .empty (parameters? d) v = some p) : (ofParameters p).depth ≤ d := by
  cases v with
  | none =>
    obtain rfl := Option.some.inj h
    exact hpos
  | some v => exact fits_parameters? d v p h

/-- What a field for a condition that may be missing is read as, whatever is done with it, is
written as deep as the field may be. -/
theorem AllFit.exists_of_optional (h : AllFit d) {field : Option Json} {α : Type} {x : α}
    (next : Option Criteria → Option α)
    (hread : (match field with
      | none => (some none).bind next
      | some null => (some none).bind next
      | some c => ((criteria? d c).map some).bind next) = some x) :
    ∃ o, (ofCriteria? o).depth ≤ d ∧ next o = some x := by
  split at hread
  · exact ⟨none, Nat.zero_le d, hread⟩
  · exact ⟨none, Nat.zero_le d, hread⟩
  · obtain ⟨o, ho, hnext⟩ := Option.bind_eq_some_iff.1 hread
    obtain ⟨c, hc, rfl⟩ := Option.map_eq_some_iff.1 ho
    exact ⟨some c, h.criteria _ _ hc, hnext⟩

theorem AllFit.select_succ (h : AllFit d) : Fits select? ofSelect (d + 1) := by
  intro v s hread
  simp only [select?, Option.bind_eq_bind, Option.bind_eq_some_iff] at hread
  obtain ⟨fields, -, hread⟩ := hread
  split at hread
  · simp only [Option.bind_eq_some_iff] at hread
    obtain ⟨columns, hcolumns, table, -, tableAlias, -, joins, hjoins, hread⟩ := hread
    have hpos := pos_of_list? hcolumns
    have hc := fits_list? (fun e _ => fits_columnRef? e) _ _ hcolumns
    have hj := h.hops _ _ hjoins
    obtain ⟨filter, hf, hread⟩ := h.exists_of_optional _ hread
    obtain ⟨parameters, hparameters, hread⟩ := Option.bind_eq_some_iff.1 hread
    obtain rfl := Option.some.inj hread
    exact depth_ofSelect_le hc hj hf (fits_missing hpos hparameters)
  · cases hread

theorem AllFit.hop_succ (h : AllFit d) : Fits hop? ofHop (d + 1) := by
  intro v hop hread
  simp only [hop?, Option.bind_eq_bind, Option.bind_eq_some_iff] at hread
  obtain ⟨fields, -, hread⟩ := hread
  split at hread
  · simp only [Option.bind_eq_some_iff] at hread
    obtain ⟨kind, -, table, -, tableAlias, -, conditions, hconditions, hread⟩ := hread
    have hc := fits_list? (fun e _ => fits_condition? e) _ _ hconditions
    obtain ⟨on, ho, hread⟩ := h.exists_of_optional _ hread
    obtain ⟨fetch, -, hread⟩ := Option.bind_eq_some_iff.1 hread
    obtain rfl := Option.some.inj hread
    exact depth_ofHop_le hc ho
  · cases hread

theorem allFit (d : ℕ) : AllFit d := by
  induction d with
  | zero => exact allFit_zero
  | succ d ih =>
    exact ⟨ih.criteria_succ, ih.operation_succ,
      fits_listed criteriaList?_eq ofCriteriaAll_eq_map ih.criteria, ih.select_succ,
      fits_listed hops?_eq ofHops_eq_map ih.hop, ih.hop_succ⟩

/-! ## Texts -/

/-- A value is read back from the text of a form that is not nested too deep. -/
theorem WrittenAs.decode {α : Type} {read? : ℕ → Json → Option α} {v : Json} {x : α}
    (h : WrittenAs read? v x) (hdepth : v.depth ≤ maxDepth) : decode? read? v.compact = some x := by
  rw [decode?, parse?_compact h.written]
  exact h.restored maxDepth hdepth

/-- The text that is written for what a text is read as. -/
def rewritten? {α : Type} (read? : ℕ → Json → Option α) (form : α → Json) (s : String) :
    Option String :=
  (decode? read? s).map fun x => (form x).compact

/-- What is read from a text can be written within the limit. It is read from the text that is
written for it, and to read that text and to write again does not change the text. -/
theorem settled_of_decode {α : Type} {read? : ℕ → Json → Option α} {form : α → Json}
    (h : Fits read? form maxDepth) {s : String} {x : α} (hread : decode? read? s = some x)
    (hx : WrittenAs read? (form x) x) :
    decode? read? (form x).compact = some x ∧
      rewritten? read? form (form x).compact = some (form x).compact := by
  obtain ⟨v, -, hv⟩ := Option.bind_eq_some_iff.1 hread
  have hdecode := hx.decode (h v x hv)
  exact ⟨hdecode, by rw [rewritten?, hdecode, Option.map_some]⟩

/-- Conditions, hops and statements without floats that are not nested too deep are read back from
their texts. What is read from any text that is accepted is, unless it has floats, also read from
the text that is written for it; writing it again gives that same text. -/
theorem json_round_trips :
    (∀ c : Criteria, c.FloatFree → (ofCriteria c).depth ≤ maxDepth →
      decode? criteria? (ofCriteria c).compact = some c) ∧
    (∀ h : Hop Criteria, h.FloatFree → (ofHop h).depth ≤ maxDepth →
      decode? hop? (ofHop h).compact = some h) ∧
    (∀ s : Select Criteria, s.FloatFree → (ofSelect s).depth ≤ maxDepth →
      decode? select? (ofSelect s).compact = some s) ∧
    (∀ text c, decode? criteria? text = some c → c.FloatFree →
      decode? criteria? (ofCriteria c).compact = some c ∧
        rewritten? criteria? ofCriteria (ofCriteria c).compact = some (ofCriteria c).compact) ∧
    (∀ text h, decode? hop? text = some h → h.FloatFree →
      decode? hop? (ofHop h).compact = some h ∧
        rewritten? hop? ofHop (ofHop h).compact = some (ofHop h).compact) ∧
    (∀ text s, decode? select? text = some s → s.FloatFree →
      decode? select? (ofSelect s).compact = some s ∧
        rewritten? select? ofSelect (ofSelect s).compact = some (ofSelect s).compact) := by
  have fit := allFit maxDepth
  refine ⟨fun c h hd => (criteria_restored c h).decode hd,
    fun h hfree hd => (joined_restored h hfree).decode hd,
    fun s h hd => (statement_restored s h).decode hd, ?_, ?_, ?_⟩
  · intro text c hread hfree
    exact settled_of_decode fit.criteria hread (criteria_restored c hfree)
  · intro text h hread hfree
    exact settled_of_decode fit.hop hread (joined_restored h hfree)
  · intro text s hread hfree
    exact settled_of_decode fit.select hread (statement_restored s hfree)

/-- Orders whose status is one of those of a list with a time. -/
def listedStatus : Criteria :=
  .comparison .isIn [.column ⟨some "o", "status"⟩, .subquery
    { columns := [⟨none, "status"⟩]
      table := "statuses"
      tableAlias := "s"
      joins := []
      filter := some (.comparison .gt [.column ⟨none, "since"⟩,
        .literal (.timestamp
          { year := 2016, month := 12, day := 31, hour := 23, minute := 59, second := 59,
            nanosecond := 1500000000 })])
      parameters := .empty }]

/-- A hop as a list of its fields, the last two left out. -/
def hopText : String :=
  "[\x7b\"Inner\": null\x7d, \"lines\", \"l\", [[[\"o\", \"id\"], [\"l\", \"order_id\"]]]]"

def hopOfText : Hop Criteria where
  kind := .inner
  table := "lines"
  tableAlias := "l"
  conditions := [⟨⟨some "o", "id"⟩, ⟨some "l", "order_id"⟩⟩]
  on := none
  fetch := false

theorem json_round_trips_lines :
    (listedStatus.FloatFree ∧ (ofCriteria listedStatus).depth ≤ maxDepth ∧
      decode? criteria? (ofCriteria listedStatus).compact = some listedStatus) ∧
    (decode? hop? hopText = some hopOfText ∧ hopOfText.FloatFree ∧
      decode? hop? (ofHop hopOfText).compact = some hopOfText ∧
      rewritten? hop? ofHop (ofHop hopOfText).compact = some (ofHop hopOfText).compact) := by
  have free : listedStatus.FloatFree := by
    simp [listedStatus, Criteria.FloatFree, Criteria.AllFloatFree, Criteria.OptionFloatFree,
      Select.FloatFree, Hop.AllFloatFree, NameMap.empty, Value.isFloat]
  have depth : (ofCriteria listedStatus).depth ≤ maxDepth := by decide
  have read : decode? hop? hopText = some hopOfText := by cbv
  have hopFree : hopOfText.FloatFree := trivial
  obtain ⟨criteria, -, -, -, hops, -⟩ := json_round_trips
  exact ⟨⟨free, depth, criteria listedStatus free depth⟩, read, hopFree,
    hops hopText hopOfText read hopFree⟩

end Json

end JoinPath
