import JoinPath.Proofs.Schema.Accepted
/-!
# Related schemas

Every association that was declared pairs at least one column of its ends, or goes through a
junction table by two halves that do. No declaration takes that back.
-/

namespace JoinPath

namespace Schema

/-! ## Related associations -/

/-- An association of the schema that pairs columns directly. -/
def IsDirect (associations : List Association) (id : AssociationId) : Prop :=
  ∃ a, associations[id.index]? = some a ∧ a.junction = none ∧ a.relations ≠ []

/-- The columns of an association are paired, by itself or by its halves. -/
def IsRelated (associations : List Association) (a : Association) : Prop :=
  match a.junction with
  | none => a.relations ≠ []
  | some j => IsDirect associations j.inward ∧ IsDirect associations j.outward

def Related (s : Schema) : Prop := ∀ a ∈ s.associations, IsRelated s.associations a

theorem IsDirect.append {l : List Association} {id : AssociationId} (h : IsDirect l id)
    (m : List Association) : IsDirect (l ++ m) id := by
  obtain ⟨a, ha, hdirect⟩ := h
  obtain ⟨hlt, -⟩ := List.getElem?_eq_some_iff.1 ha
  exact ⟨a, by rw [List.getElem?_append_left hlt, ha], hdirect⟩

theorem IsRelated.append {l : List Association} {a : Association} (h : IsRelated l a)
    (m : List Association) : IsRelated (l ++ m) a := by
  unfold IsRelated at h ⊢
  split at h
  · exact h
  · exact ⟨h.1.append m, h.2.append m⟩

/-- Adding an association that is related keeps a schema related. -/
theorem Related.concat {s : Schema} (hs : s.Related) {a : Association}
    (ha : IsRelated (s.associations ++ [a]) a) :
    Related { s with associations := s.associations ++ [a] } := by
  intro b hb
  rcases List.mem_append.1 hb with hb | hb
  · exact (hs b hb).append [a]
  · rw [List.mem_singleton.1 hb]
    exact ha

theorem Related.pushDirect {s : Schema} (hs : s.Related) {relations : List Relation}
    (h : relations ≠ []) (name : String) (origin destination : TableId) :
    (s.pushAssociation name origin destination relations none).2.Related :=
  hs.concat h

theorem related_empty : empty.Related := by
  intro a ha
  simp [empty] at ha

theorem Related.pushThrough {s : Schema} (hs : s.Related) {inward outward : List Relation}
    (hi : inward ≠ []) (ho : outward ≠ []) (name : String)
    (origin junction destination : TableId) :
    (s.pushThrough name origin junction destination inward outward).2.Related := by
  refine ((hs.pushDirect hi _ origin junction).pushDirect ho _ junction destination).concat
    ⟨?_, ?_⟩
  · refine ⟨⟨⟨s.associations.length⟩, name ++ "_from", origin, junction, inward, none, none, []⟩,
      ?_, rfl, hi⟩
    simp [pushAssociation]
  · refine ⟨⟨⟨s.associations.length + 1⟩, name ++ "_to", junction, destination, outward, none,
      none, []⟩, ?_, rfl, ho⟩
    simp [pushAssociation]

/-- Changes that leave the pairs and the halves alone keep a schema related. -/
theorem Related.modify {s : Schema} (hs : s.Related) {f : Association → Association}
    (hf : ∀ a, (f a).junction = a.junction ∧ (f a).relations = a.relations) (i : ℕ) :
    Related { s with associations := s.associations.modify i f } := by
  have direct {id : AssociationId} (h : IsDirect s.associations id) :
      IsDirect (s.associations.modify i f) id := by
    obtain ⟨a, ha, hj, hr⟩ := h
    by_cases hi : i = id.index
    · exact ⟨f a, by rw [List.getElem?_modify, ha]; simp [hi], (hf a).1.trans hj,
        fun hnil => hr ((hf a).2.symm.trans hnil)⟩
    · exact ⟨a, by rw [List.getElem?_modify, ha]; simp [hi], hj, hr⟩
  have related {a b : Association} (h : IsRelated s.associations a)
      (hj : b.junction = a.junction) (hr : b.relations = a.relations) :
      IsRelated (s.associations.modify i f) b := by
    unfold IsRelated at h ⊢
    rw [hj, hr]
    split at h
    · exact h
    · exact ⟨direct h.1, direct h.2⟩
  intro b hb
  obtain ⟨k, hk⟩ := List.mem_iff_getElem?.1 hb
  rw [List.getElem?_modify] at hk
  obtain ⟨a, ha, hb⟩ := Option.map_eq_some_iff.1 hk
  have hmem := hs a (List.mem_of_getElem? ha)
  split at hb
  · rw [← hb]
    exact related hmem (hf a).1 (hf a).2
  · rw [← hb]
    exact related hmem rfl rfl

theorem Related.declare {s : Schema} (hs : s.Related) (d : Declaration) :
    (s.declare d).Related := by
  refine s.declare_induction hs (fun _ _ => hs) (fun _ _ _ => hs) (fun _ _ => hs)
    (fun name origin destination relations h => ?_)
    (fun name origin junction destination inward outward hi ho => ?_)
    (fun id table column value _ _ _ => ?_) d
  · exact hs.pushDirect (relations_ne_nil_of_checkRelations h) name origin destination
  · exact hs.pushThrough (relations_ne_nil_of_checkRelations hi)
      (relations_ne_nil_of_checkRelations ho) name origin junction destination
  · refine hs.modify (f := fun a => { a with
      discriminatorTable := some table
      discriminators := a.discriminators ++ [⟨column, value⟩] }) (fun _ => ?_) id.index
    exact ⟨rfl, rfl⟩

/-- A schema that was declared is related. -/
theorem related_declared (declarations : List Declaration) : (declared declarations).Related := by
  induction declarations using List.reverseRecOn with
  | nil => exact related_empty
  | append_singleton ds d ih =>
    rw [declared, List.foldl_append]
    exact Related.declare ih d

theorem association_of_isDirect {s : Schema} {id : AssociationId}
    (h : IsDirect s.associations id) : (s.association id).relations ≠ [] := by
  obtain ⟨a, ha, -, hr⟩ := h
  rwa [association, ha, Option.getD_some]

theorem Related.isRelated {s : Schema} (hs : s.Related) {id : AssociationId}
    (h : id.index < s.associations.length) : IsRelated s.associations (s.association id) := by
  rw [association, List.getElem?_eq_getElem h, Option.getD_some]
  exact hs _ (List.getElem_mem h)

end Schema

end JoinPath
