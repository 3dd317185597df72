import JoinPath.Proofs.Bindings.History
/-!
# The shape of a condition

The shape of a condition is the condition without the values of its literals. Naming the literals
takes no notice of the values: a condition and its shape become the same condition
(`bindLiterals_shape`).
-/

namespace JoinPath

namespace Criteria

mutual

/-- The condition with a null for each literal outside subqueries. -/
def shape : Criteria → Criteria
  | comparison op operands => comparison op (shapeAll operands)
  | group op members => group op (shapeAll members)
  | literal _ => literal .null
  | param name => param name
  | subquery select => subquery select
  | column ref => column ref

def shapeAll : List Criteria → List Criteria
  | [] => []
  | c :: cs => shape c :: shapeAll cs

end

theorem shapeAll_eq_map (cs : List Criteria) : shapeAll cs = cs.map shape :=
  eq_map_of_cons rfl (fun _ _ => rfl) cs

theorem rewrites_shape : Rewrites shape where
  comparison op cs := by rw [shape, shapeAll_eq_map]
  group op cs := by rw [shape, shapeAll_eq_map]

theorem shape_mapColumns (f : ColumnRef → ColumnRef) (c : Criteria) :
    shape (mapColumns f c) = mapColumns f (shape c) :=
  (rewrites_shape.comp (rewrites_mapColumns f)).ext ((rewrites_mapColumns f).comp rewrites_shape)
    (fun _ hl => by cases hl <;> rfl) c

theorem bindLiteralsAll_shape {a : String} {cs : List Criteria}
    (each : ∀ c ∈ cs, ∀ b b' : Bindings, b'.literals = b.literals →
      (bindLiterals a (shape c) b').1 = (bindLiterals a c b).1 ∧
        (bindLiterals a (shape c) b').2.literals = (bindLiterals a c b).2.literals)
    {b b' : Bindings} (h : b'.literals = b.literals) :
    (bindLiteralsAll a (cs.map shape) b').1 = (bindLiteralsAll a cs b).1 ∧
      (bindLiteralsAll a (cs.map shape) b').2.literals = (bindLiteralsAll a cs b).2.literals := by
  induction cs generalizing b b' with
  | nil => exact ⟨rfl, h⟩
  | cons c cs ih =>
    obtain ⟨hfirst, hliterals⟩ := each c List.mem_cons_self b b' h
    obtain ⟨hrest, hend⟩ := ih (fun d hd => each d (List.mem_cons_of_mem _ hd)) hliterals
    exact ⟨congrArg₂ List.cons hfirst hrest, hend⟩

/-- A condition and its shape become the same condition, and use up as many numbers. -/
theorem bindLiterals_shape (a : String) (c : Criteria) {b b' : Bindings}
    (h : b'.literals = b.literals) :
    (bindLiterals a (shape c) b').1 = (bindLiterals a c b).1 ∧
      (bindLiterals a (shape c) b').2.literals = (bindLiterals a c b).2.literals := by
  induction c using induction_members generalizing b b' with
  | comparison op cs ih =>
    rw [rewrites_shape.comparison]
    obtain ⟨hall, hliterals⟩ := bindLiteralsAll_shape (fun c hc b b' => ih c hc) h
    exact ⟨congrArg (comparison op) hall, hliterals⟩
  | group op cs ih =>
    rw [rewrites_shape.group]
    obtain ⟨hall, hliterals⟩ := bindLiteralsAll_shape (fun c hc b b' => ih c hc) h
    exact ⟨congrArg (group op) hall, hliterals⟩
  | literal v =>
    refine ⟨congrArg (fun n => param (Bindings.literalName a (n + 1))) h, ?_⟩
    exact congrArg (· + 1) h
  | param name => exact ⟨rfl, h⟩
  | subquery select =>
    refine ⟨rfl, ?_⟩
    simp only [shape, bindLiterals, Bindings.literals_adopt, h]
  | column ref => exact ⟨rfl, h⟩

end Criteria

/-! ## Schemas and steps -/

def Table.shape (t : Table) : Table := { t with criteria := t.criteria.map Criteria.shape }

def Discriminator.shape (d : Discriminator) : Discriminator := { d with value := .null }

def Association.shape (a : Association) : Association :=
  { a with discriminators := a.discriminators.map Discriminator.shape }

/-- The schema without the values in the conditions of tables and in the discriminators. -/
def Schema.shape (s : Schema) : Schema :=
  ⟨s.tables.map Table.shape, s.associations.map Association.shape⟩

def Step.shape (step : Step) : Step := { step with criteria := step.criteria.map Criteria.shape }

def Addition.shape (a : Addition) : Addition := { a with criteria := a.criteria.map Criteria.shape }

theorem Schema.table_shape (s : Schema) (id : TableId) : s.shape.table id = (s.table id).shape := by
  unfold table shape
  rw [List.getElem?_map]
  cases s.tables[id.index]? <;> rfl

theorem Schema.association_shape (s : Schema) (id : AssociationId) :
    s.shape.association id = (s.association id).shape := by
  unfold association shape
  rw [List.getElem?_map, List.length_map]
  cases s.associations[id.index]? <;> rfl

theorem Association.discriminatorCriteria_shape (a : Association) (originAlias : String) :
    a.shape.discriminatorCriteria originAlias =
      (a.discriminatorCriteria originAlias).map Criteria.shape := by
  have hcriteria : a.shape.discriminators.map Discriminator.criteria =
      (a.discriminators.map Discriminator.criteria).map Criteria.shape := by
    dsimp only [shape]
    rw [List.map_map, List.map_map]
    rfl
  unfold discriminatorCriteria
  dsimp only
  rw [hcriteria]
  by_cases h : a.discriminatorTable = some a.destination
  · have h' : a.shape.discriminatorTable = some a.shape.destination := h
    rw [if_pos h', if_pos h]
  · have h' : ¬ a.shape.discriminatorTable = some a.shape.destination := h
    rw [if_neg h', if_neg h]
    generalize a.discriminators.map Discriminator.criteria = cs
    rw [List.map_map, List.map_map]
    exact List.map_congr_left fun c _ => (Criteria.shape_mapColumns _ c).symm

theorem Session.addition_shape (schema : Schema) (originAlias : String) (step : Step) :
    addition schema.shape originAlias step.shape = (addition schema originAlias step).shape := by
  unfold addition Addition.shape
  dsimp only
  rw [Schema.association_shape, Schema.table_shape, Association.discriminatorCriteria_shape,
    List.map_append, List.map_append, Step.shape]
  cases step.criteria <;> rfl

theorem Step.placement_shape (step : Step) : step.shape.placement = step.placement := rfl

end JoinPath
