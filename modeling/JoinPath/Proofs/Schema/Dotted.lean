import JoinPath.Proofs.Lists
import JoinPath.Proofs.Schema.Typed
import JoinPath.Proofs.Text.Parted
import JoinPath.Schema.Path
/-!
# Paths by their names

A text has one row of steps, those between its dots without the blanks around them. Looking them up
leads along a chain of associations with these names, or stops at the first step whose name no
association has that leaves the table reached so far. Where origin and name tell the associations
apart, every chain is found under its names (`dotted_paths_correspond`).
-/

namespace JoinPath

open Text (AreBlank IsTrimmed)

/-! ## The steps of a text -/

/-- The parts of a text name these steps: a part is the name of a step between blanks, or blanks
alone, which name nothing. -/
inductive PartsName : List (List Char) → List String → Prop
  | nil : PartsName [] []
  | blank {part : List Char} {parts : List (List Char)} {names : List String} :
    AreBlank part → PartsName parts names → PartsName (part :: parts) names
  | step {left right : List Char} {name : String} {parts : List (List Char)}
      {names : List String} :
    AreBlank left → AreBlank right → name ≠ "" → IsTrimmed name.toList → PartsName parts names →
      PartsName ((left ++ name.toList ++ right) :: parts) (name :: names)

/-- The text has these steps between its dots. -/
def HasSteps (path : String) (names : List String) : Prop :=
  ∃ parts, parts ≠ [] ∧ (∀ part ∈ parts, '.' ∉ part) ∧ path.toList = ['.'].intercalate parts ∧
    PartsName parts names

theorem partsName_iff {parts : List (List Char)} {names : List String} :
    PartsName parts names ↔
      ((parts.map Text.trim).filter (· ≠ [])).map String.ofList = names := by
  constructor
  · intro h
    induction h with
    | nil => rfl
    | @blank part parts names hpart _ ih =>
      have htrim : Text.trim part = [] :=
        Text.trim_eq_iff.2 ⟨Text.isTrimmed_nil, part, [], hpart, Text.areBlank_nil, by simp⟩
      rw [List.map_cons, htrim, List.filter_cons_of_neg (by simp)]
      exact ih
    | @step left right name parts names hleft hright hne htrimmed _ ih =>
      have htrim : Text.trim (left ++ name.toList ++ right) = name.toList :=
        Text.trim_eq_iff.2 ⟨htrimmed, left, right, hleft, hright, rfl⟩
      have hlist : name.toList ≠ [] := mt String.toList_eq_nil_iff.1 hne
      rw [List.map_cons, htrim, List.filter_cons_of_pos (by simpa using hlist), List.map_cons, ih,
        String.ofList_toList]
  · rintro rfl
    induction parts with
    | nil => exact .nil
    | cons part parts ih =>
      obtain ⟨htrimmed, left, right, hleft, hright, hpart⟩ :=
        Text.trim_eq_iff.1 (Eq.refl (Text.trim part))
      by_cases hblank : Text.trim part = []
      · rw [List.map_cons, List.filter_cons_of_neg (by simpa using hblank)]
        refine .blank ?_ ih
        rw [hpart, hblank, List.append_nil]
        intro c hc
        exact (List.mem_append.1 hc).elim (hleft c) (hright c)
      · rw [List.map_cons, List.filter_cons_of_pos (by simpa using hblank), List.map_cons]
        have hlist : (String.ofList (Text.trim part)).toList = Text.trim part :=
          String.toList_ofList
        have hstep := PartsName.step hleft hright (mt String.toList_eq_nil_iff.2 (by rwa [hlist]))
          (by rwa [hlist]) ih
        rwa [hlist, ← hpart] at hstep

/-- A text has one row of steps. -/
theorem hasSteps_iff {path : String} {names : List String} :
    HasSteps path names ↔ (dottedSteps path).map String.ofList = names := by
  constructor
  · rintro ⟨parts, hne, hdots, hpath, hnames⟩
    rw [dottedSteps, hpath, Text.splitAll_intercalate hne hdots]
    exact partsName_iff.1 hnames
  · intro h
    obtain ⟨hne, hdots, hpath⟩ := Text.splitAll_eq_iff.1 (Eq.refl (Text.splitAll '.' path.toList))
    exact ⟨_, hne, hdots, hpath, partsName_iff.2 h⟩

/-- A name that can be written between dots. -/
structure IsStepName (name : String) : Prop where
  nonempty : name ≠ ""
  dotFree : '.' ∉ name.toList
  trimmed : IsTrimmed name.toList

/-- Names with a dot between them are the steps of their text. -/
theorem hasSteps_intercalate {names : List String} (h : ∀ name ∈ names, IsStepName name) :
    HasSteps (".".intercalate names) names := by
  have hnames : PartsName (names.map String.toList) names := by
    induction names with
    | nil => exact .nil
    | cons name names ih =>
      have hname := h name List.mem_cons_self
      have hstep := PartsName.step Text.areBlank_nil Text.areBlank_nil hname.nonempty
        hname.trimmed (ih fun other hother => h other (List.mem_cons_of_mem _ hother))
      rwa [List.nil_append, List.append_nil] at hstep
  cases names with
  | nil =>
    exact ⟨[[]], List.cons_ne_nil _ _, by simp, rfl, .blank Text.areBlank_nil .nil⟩
  | cons name names =>
    refine ⟨(name :: names).map String.toList, List.cons_ne_nil _ _, fun part hpart => ?_,
      String.toList_intercalate, hnames⟩
    obtain ⟨other, hother, rfl⟩ := List.mem_map.1 hpart
    exact (h other hother).dotFree

namespace Schema

variable {s : Schema} {origin reached : TableId} {name : String} {names : List String}
  {ids : List AssociationId}

/-! ## One name -/

/-- The association is the first of this name that leaves the table. -/
def FirstNamed (s : Schema) (origin : TableId) (name : String) (a : Association) : Prop :=
  ∃ earlier later, s.associations = earlier ++ a :: later ∧ a.origin = origin ∧ a.name = name ∧
    ∀ b ∈ earlier, b.origin = origin → b.name ≠ name

/-- No association of this name leaves the table. -/
def NoneNamed (s : Schema) (origin : TableId) (name : String) : Prop :=
  ∀ a ∈ s.associations, a.origin = origin → a.name ≠ name

theorem FirstNamed.mem {a : Association} (h : s.FirstNamed origin name a) :
    a ∈ s.associations := by
  obtain ⟨earlier, later, hsplit, -⟩ := h
  rw [hsplit]
  exact List.mem_append_right _ List.mem_cons_self

theorem associationByName_eq_ok_iff {id : AssociationId} :
    s.associationByName origin name = .ok id ↔ ∃ a, s.FirstNamed origin name a ∧ a.id = id := by
  have hfind (a : Association) :
      s.associations.find? (fun b => b.origin == origin && b.name == name) = some a ↔
        s.FirstNamed origin name a := by
    simp only [List.find?_eq_some_iff_append, FirstNamed, Bool.and_eq_true, beq_iff_eq,
      Bool.not_eq_true', Bool.and_eq_false_iff, beq_eq_false_iff_ne, ← imp_iff_not_or]
    constructor
    · rintro ⟨⟨horigin, hname⟩, earlier, later, hsplit, hfirst⟩
      exact ⟨earlier, later, hsplit, horigin, hname, hfirst⟩
    · rintro ⟨earlier, later, hsplit, horigin, hname, hfirst⟩
      exact ⟨⟨horigin, hname⟩, earlier, later, hsplit, hfirst⟩
  unfold associationByName
  simp only [← hfind]
  split
  · next a ha => simp [ha]
  · next ha => simp [ha]

theorem associationByName_eq_error_iff {e : Error} :
    s.associationByName origin name = .error e ↔
      s.NoneNamed origin name ∧ e = .unknownAssociation (s.table origin).name name := by
  have hfind : s.associations.find? (fun b => b.origin == origin && b.name == name) = none ↔
      s.NoneNamed origin name := by
    simp [List.find?_eq_none, NoneNamed]
  unfold associationByName
  rw [← hfind]
  split
  · next a ha => simp [ha]
  · next ha => simp [ha, eq_comm]

theorem Typed.association_of_mem (hs : s.Typed) {a : Association} (h : a ∈ s.associations) :
    s.association a.id = a := by
  obtain ⟨i, hi⟩ := List.mem_iff_getElem?.1 h
  rw [(hs i a hi).id]
  exact association_of_getElem? hi

/-! ## Name after name -/

/-- Along these names one association after the other leads to a table, each the first of its name
to leave the table reached so far. -/
inductive Reaches (s : Schema) :
    TableId → List String → List AssociationId → TableId → Prop
  | nil {origin : TableId} : Reaches s origin [] [] origin
  | cons {origin reached : TableId} {name : String} {names : List String}
      {ids : List AssociationId} {a : Association} :
    s.FirstNamed origin name a → Reaches s a.destination names ids reached →
      Reaches s origin (name :: names) (a.id :: ids) reached

/-- The names lead as far as the table `reached`, which no association of the next name leaves. -/
def EndsAt (s : Schema) (origin : TableId) (names : List String) (reached : TableId)
    (name : String) : Prop :=
  ∃ before after ids, names = before ++ name :: after ∧ s.Reaches origin before ids reached ∧
    s.NoneNamed reached name

theorem not_endsAt_nil : ¬ s.EndsAt origin [] reached name := by
  rintro ⟨before, after, ids, hsplit, -⟩
  exact List.append_ne_nil_of_right_ne_nil before (List.cons_ne_nil name after) hsplit.symm

theorem endsAt_cons_iff {other : String} :
    s.EndsAt origin (name :: names) reached other ↔
      (s.NoneNamed origin name ∧ reached = origin ∧ other = name) ∨
      ∃ a, s.FirstNamed origin name a ∧ s.EndsAt a.destination names reached other := by
  constructor
  · rintro ⟨before, after, ids, hsplit, hreaches, hnone⟩
    cases hreaches with
    | nil =>
      obtain ⟨rfl, rfl⟩ := List.cons.inj hsplit
      exact .inl ⟨hnone, rfl, rfl⟩
    | cons ha hrest =>
      obtain ⟨rfl, rfl⟩ := List.cons.inj hsplit
      exact .inr ⟨_, ha, _, after, _, rfl, hrest, hnone⟩
  · rintro (⟨hnone, rfl, rfl⟩ | ⟨a, ha, before, after, ids, rfl, hrest, hnone⟩)
    · exact ⟨[], names, [], rfl, .nil, hnone⟩
    · exact ⟨name :: before, after, a.id :: ids, rfl, .cons ha hrest, hnone⟩

theorem follow_eq_ok_iff (hs : s.Typed) :
    s.follow origin names = .ok ids ↔ ∃ reached, s.Reaches origin names ids reached := by
  induction names generalizing origin ids with
  | nil =>
    constructor
    · intro h
      obtain rfl := Except.ok.inj h
      exact ⟨origin, .nil⟩
    · rintro ⟨reached, h⟩
      cases h
      rfl
  | cons name names ih =>
    simp only [follow, bind_eq_ok_iff, associationByName_eq_ok_iff, ih, pure, Except.pure,
      Except.ok.injEq]
    constructor
    · rintro ⟨_, ⟨a, ha, rfl⟩, rest, ⟨reached, hrest⟩, rfl⟩
      rw [hs.association_of_mem ha.mem] at hrest
      exact ⟨reached, .cons ha hrest⟩
    · rintro ⟨reached, h⟩
      cases h with
      | @cons _ _ _ _ rest a ha hrest =>
        refine ⟨a.id, ⟨a, ha, rfl⟩, rest, ⟨reached, ?_⟩, rfl⟩
        rwa [hs.association_of_mem ha.mem]

theorem follow_eq_error_iff (hs : s.Typed) {e : Error} :
    s.follow origin names = .error e ↔ ∃ reached name, s.EndsAt origin names reached name ∧
      e = .unknownAssociation (s.table reached).name name := by
  induction names generalizing origin with
  | nil =>
    refine ⟨fun h => (nomatch h), ?_⟩
    rintro ⟨reached, name, hends, -⟩
    exact absurd hends not_endsAt_nil
  | cons name names ih =>
    simp only [follow, bind_eq_error_iff, associationByName_eq_ok_iff,
      associationByName_eq_error_iff, ih, endsAt_cons_iff, pure, Except.pure]
    constructor
    · rintro (⟨hnone, rfl⟩ | ⟨_, ⟨a, ha, rfl⟩, hrest | ⟨rest, -, h⟩⟩)
      · exact ⟨origin, name, .inl ⟨hnone, rfl, rfl⟩, rfl⟩
      · rw [hs.association_of_mem ha.mem] at hrest
        obtain ⟨reached, other, hends, rfl⟩ := hrest
        exact ⟨reached, other, .inr ⟨a, ha, hends⟩, rfl⟩
      · cases h
    · rintro ⟨reached, other, ⟨hnone, rfl, rfl⟩ | ⟨a, ha, hends⟩, rfl⟩
      · exact .inl ⟨hnone, rfl⟩
      · refine .inr ⟨a.id, ⟨a, ha, rfl⟩, .inl ⟨reached, other, ?_, rfl⟩⟩
        rwa [hs.association_of_mem ha.mem]

/-! ## Chains -/

/-- Associations of the schema with these names, each of which leaves the table that the one before
leads to. -/
structure IsNamedChain (s : Schema) (origin : TableId) (ids : List AssociationId)
    (names : List String) : Prop where
  members : ∀ id ∈ ids, id.index < s.associations.length
  chains : s.Chains origin ids
  names : ids.map (fun id => (s.association id).name) = names

theorem Reaches.isNamedChain (hs : s.Typed) (h : s.Reaches origin names ids reached) :
    s.IsNamedChain origin ids names := by
  induction h with
  | nil => exact ⟨fun _ h => (nomatch h), trivial, rfl⟩
  | @cons origin reached name names ids a ha _ ih =>
    have hassociation := hs.association_of_mem ha.mem
    obtain ⟨i, hi⟩ := List.mem_iff_getElem?.1 ha.mem
    obtain ⟨-, -, -, horigin, hname, -⟩ := ha
    refine ⟨List.forall_mem_cons.2 ⟨?_, ih.members⟩, ?_, ?_⟩
    · rw [(hs i a hi).id]
      exact (List.getElem?_eq_some_iff.1 hi).1
    · refine ⟨hassociation.symm ▸ horigin, ?_⟩
      rw [hassociation]
      exact ih.chains
    · rw [List.map_cons, ih.names, hassociation, hname]

/-- Where origin and name tell associations apart, an association is the first of its name. -/
theorem firstNamed_of_mem (unique : (s.associations.map fun a => (a.origin, a.name)).Nodup)
    {a : Association} (h : a ∈ s.associations) : s.FirstNamed a.origin a.name a := by
  obtain ⟨earlier, later, hsplit⟩ := List.append_of_mem h
  refine ⟨earlier, later, hsplit, rfl, rfl, fun b hb horigin hname => ?_⟩
  rw [hsplit, List.map_append, List.map_cons] at unique
  obtain ⟨-, -, hdisjoint⟩ := List.nodup_append.1 unique
  exact hdisjoint _ (List.mem_map_of_mem hb) _ List.mem_cons_self (by rw [horigin, hname])

theorem IsNamedChain.reaches (hs : s.Typed)
    (unique : (s.associations.map fun a => (a.origin, a.name)).Nodup)
    (h : s.IsNamedChain origin ids names) : ∃ reached, s.Reaches origin names ids reached := by
  obtain ⟨members, chains, rfl⟩ := h
  induction ids generalizing origin with
  | nil => exact ⟨origin, .nil⟩
  | cons id ids ih =>
    obtain ⟨hid, members⟩ := List.forall_mem_cons.1 members
    obtain ⟨horigin, chains⟩ := chains
    obtain ⟨reached, hreaches⟩ := ih members chains
    have hget := List.getElem?_eq_getElem hid
    have hmem : s.association id ∈ s.associations := by
      rw [association_of_getElem? hget]
      exact List.getElem_mem hid
    have hindex : (s.association id).id = id := by
      rw [association_of_getElem? hget, (hs _ _ hget).id]
    have hfirst := firstNamed_of_mem unique hmem
    rw [horigin] at hfirst
    have hcons := Reaches.cons hfirst hreaches
    rw [hindex] at hcons
    exact ⟨reached, hcons⟩

theorem resolvePath_of_hasSteps {path : String} (h : HasSteps path names) :
    s.resolvePath origin path = s.follow origin names := by
  rw [resolvePath, hasSteps_iff.1 h]

/-- A dotted path is resolved to the chain of associations with the names that are its steps, and
fails at the first step that names no association leaving the table reached so far. A chain whose
names can be written is what every text resolves to that has these names as its steps. -/
theorem dotted_paths_correspond (declarations : List Declaration) (origin : TableId) :
    let s := declared declarations
    (∀ path, ∃ names, (∀ other, HasSteps path other ↔ other = names) ∧
      (∀ ids, s.resolvePath origin path = .ok ids ↔ ∃ reached, s.Reaches origin names ids reached) ∧
      (∀ ids, s.resolvePath origin path = .ok ids → s.IsNamedChain origin ids names) ∧
      ∀ e, s.resolvePath origin path = .error e ↔ ∃ reached name,
        s.EndsAt origin names reached name ∧
        e = .unknownAssociation (s.table reached).name name) ∧
    ((s.associations.map fun a => (a.origin, a.name)).Nodup →
      ∀ ids names, s.IsNamedChain origin ids names → (∀ name ∈ names, IsStepName name) →
        HasSteps (".".intercalate names) names ∧
        ∀ path, HasSteps path names → s.resolvePath origin path = .ok ids) := by
  have hs := typed_declared declarations
  refine ⟨fun path => ?_, fun unique ids names hchain hnames => ⟨hasSteps_intercalate hnames, ?_⟩⟩
  · have hsteps : HasSteps path ((dottedSteps path).map String.ofList) := hasSteps_iff.2 rfl
    refine ⟨_, fun other => hasSteps_iff.trans eq_comm, fun ids => ?_, fun ids h => ?_,
      fun e => ?_⟩
    · rw [resolvePath_of_hasSteps hsteps]
      exact follow_eq_ok_iff hs
    · rw [resolvePath_of_hasSteps hsteps] at h
      obtain ⟨reached, hreaches⟩ := (follow_eq_ok_iff hs).1 h
      exact hreaches.isNamedChain hs
    · rw [resolvePath_of_hasSteps hsteps]
      exact follow_eq_error_iff hs
  · intro path hsteps
    rw [resolvePath_of_hasSteps hsteps]
    exact (follow_eq_ok_iff hs).2 (hchain.reaches hs unique)

/-- Orders of customers with addresses. -/
def customersOfOrders : List Declaration := [
  .table "orders" ["customer_id"],
  .table "customers" ["id", "address_id"],
  .table "addresses" ["id"],
  .association "customer" ⟨0⟩ ⟨1⟩ [⟨"customer_id", "id"⟩],
  .association "address" ⟨1⟩ ⟨2⟩ [⟨"address_id", "id"⟩]]

theorem dotted_paths_correspond_blanks :
    (declared customersOfOrders).resolvePath ⟨0⟩ " customer .. address\t." = .ok [⟨0⟩, ⟨1⟩] := by
  have hchain : (declared customersOfOrders).IsNamedChain ⟨0⟩ [⟨0⟩, ⟨1⟩] ["customer", "address"] :=
    ⟨by decide, ⟨rfl, rfl, trivial⟩, rfl⟩
  have hname (name : String) (h : name ∈ ["customer", "address"]) : IsStepName name := by
    rcases List.mem_cons.1 h with rfl | h
    · exact ⟨by decide, by decide, Text.isTrimmed_of_trim_eq (by decide)⟩
    · rw [List.mem_singleton.1 h]
      exact ⟨by decide, by decide, Text.isTrimmed_of_trim_eq (by decide)⟩
  have hsteps : HasSteps " customer .. address\t." ["customer", "address"] :=
    hasSteps_iff.2 (by decide)
  exact ((dotted_paths_correspond customersOfOrders ⟨0⟩).2 (by decide) _ _ hchain hname).2 _ hsteps

end Schema

end JoinPath
