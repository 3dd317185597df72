import JoinPath.Command.Path
import JoinPath.Proofs.Schema.Dotted
/-!
# Typed paths

A path as it is typed is looked up like the path that is left when the colon and the alias behind it
are taken from each of its steps; the aliases go to the steps that they stand behind
(`typed_paths_resolve`).
-/

namespace JoinPath.Command

variable {s : Schema} {origin : TableId} {kind : JoinKind}

/-! ## Texts without aliases -/

/-- What stands before the first colon. -/
def beforeColon (text : List Char) : List Char := text.takeWhile (· ≠ ':')

/-- The path without the first colon of each step between dots and what is behind it. -/
def untyped (path : String) : String :=
  .ofList (['.'].intercalate ((path.toList.splitOn '.').map beforeColon))

/-- A name stands before the colon of a step, if there is one, and no blank ends it. -/
def IsTypedStep (step : List Char) : Prop :=
  ∀ name rest, step = name ++ ':' :: rest → ':' ∉ name →
    name ≠ [] ∧ ∀ c ∈ name.getLast?, Text.isBlank c = false

theorem isTypedStep_iff {step : List Char} : IsTypedStep step ↔
    (Text.splitFirst? ':' step).all fun parts =>
      parts.1 ≠ [] ∧ parts.1.getLast?.all fun c => !Text.isBlank c := by
  simp only [IsTypedStep, Option.all_eq_true, decide_eq_true_eq, Bool.not_eq_true', Prod.forall,
    Text.splitFirst?_eq_some_iff, and_imp, Option.mem_def]

instance (step : List Char) : Decidable (IsTypedStep step) := decidable_of_iff' _ isTypedStep_iff

theorem beforeColon_of_not_mem {text : List Char} (h : ':' ∉ text) : beforeColon text = text :=
  List.takeWhile_eq_self_iff.2 fun _ hc => decide_eq_true (ne_of_mem_of_not_mem hc h)

theorem beforeColon_append {name : List Char} (h : ':' ∉ name) (rest : List Char) :
    beforeColon (name ++ ':' :: rest) = name := by
  rw [beforeColon, List.takeWhile_append_of_pos fun _ hc =>
    decide_eq_true (ne_of_mem_of_not_mem hc h)]
  simp

theorem nameAndAlias_fst (step : List Char) :
    (nameAndAlias step).1 = .ofList (beforeColon step) := by
  unfold nameAndAlias
  split
  · next name rest h =>
    obtain ⟨rfl, hname⟩ := Text.splitFirst?_eq_some_iff.1 h
    rw [beforeColon_append hname]
  · next h => rw [beforeColon_of_not_mem (Text.splitFirst?_eq_none_iff.1 h)]

theorem colon_not_mem_of_areBlank {text : List Char} (h : Text.AreBlank text) : ':' ∉ text :=
  fun hmem => absurd (h ':' hmem) (by decide)

/-- Blanks around a step stay outside when its alias is taken away. -/
theorem trim_beforeColon {part : List Char} (h : IsTypedStep (Text.trim part)) :
    Text.trim (beforeColon part) = beforeColon (Text.trim part) := by
  obtain ⟨htrimmed, left, right, hleft, hright, hpart⟩ :=
    Text.trim_eq_iff.1 (Eq.refl (Text.trim part))
  by_cases hcolon : ':' ∈ Text.trim part
  · obtain ⟨name, rest, hstep, hname⟩ := List.eq_append_cons_of_mem hcolon
    obtain ⟨hne, hlast⟩ := h name rest hstep hname
    have hbefore : beforeColon part = left ++ name := by
      rw [hpart, hstep, List.append_assoc, List.append_assoc, ← List.append_assoc left]
      refine beforeColon_append (fun hmem => ?_) _
      exact (List.mem_append.1 hmem).elim (colon_not_mem_of_areBlank hleft) hname
    rw [hbefore, hstep, beforeColon_append hname]
    refine Text.trim_eq_iff.2 ⟨⟨fun c hc => htrimmed.first c ?_, hlast⟩, left, [], hleft,
      Text.areBlank_nil, by simp⟩
    rw [hstep, List.head?_append, Option.mem_def.1 hc]
    rfl
  · rw [beforeColon_of_not_mem hcolon, beforeColon_of_not_mem]
    rw [hpart, List.mem_append, List.mem_append]
    rintro ((hmem | hmem) | hmem)
    · exact colon_not_mem_of_areBlank hleft hmem
    · exact hcolon hmem
    · exact colon_not_mem_of_areBlank hright hmem

theorem beforeColon_eq_nil_iff {step : List Char} (h : IsTypedStep step) :
    beforeColon step = [] ↔ step = [] := by
  constructor
  · intro hnil
    by_cases hcolon : ':' ∈ step
    · obtain ⟨name, rest, rfl, hname⟩ := List.eq_append_cons_of_mem hcolon
      rw [beforeColon_append hname] at hnil
      exact absurd hnil (h name rest rfl hname).1
    · rwa [beforeColon_of_not_mem hcolon] at hnil
  · rintro rfl
    rfl

theorem dottedSteps_untyped {path : String} (h : ∀ step ∈ dottedSteps path, IsTypedStep step) :
    dottedSteps (untyped path) = (dottedSteps path).map beforeColon := by
  have hparts : Text.splitAll '.' (untyped path).toList =
      (Text.splitAll '.' path.toList).map beforeColon := by
    rw [untyped, String.toList_ofList, ← Text.splitAll_eq_splitOn]
    refine Text.splitAll_intercalate (mt List.map_eq_nil_iff.1 (Text.splitAll_ne_nil _ _)) ?_
    intro part hpart hdot
    obtain ⟨whole, hwhole, rfl⟩ := List.mem_map.1 hpart
    exact Text.not_mem_of_mem_splitAll hwhole ((List.takeWhile_prefix _).subset hdot)
  have htyped (part : List Char) (hpart : part ∈ Text.splitAll '.' path.toList) :
      IsTypedStep (Text.trim part) := by
    by_cases hblank : Text.trim part = []
    · rw [hblank]
      exact fun name rest hsplit => absurd hsplit.symm (by simp)
    · exact h _ (List.mem_filter.2 ⟨List.mem_map_of_mem hpart, decide_eq_true hblank⟩)
  have htrim (part : List Char) (hpart : part ∈ Text.splitAll '.' path.toList) :
      (Text.trim ∘ beforeColon) part = (beforeColon ∘ Text.trim) part :=
    trim_beforeColon (htyped part hpart)
  rw [dottedSteps, dottedSteps, hparts, List.map_map, List.map_congr_left htrim, ← List.map_map,
    List.filter_map]
  refine congrArg _ (List.filter_congr fun step hstep => ?_)
  obtain ⟨part, hpart, rfl⟩ := List.mem_map.1 hstep
  exact decide_eq_decide.2 (not_congr (beforeColon_eq_nil_iff (htyped part hpart)))

/-! ## Looking up steps -/

/-- The step along an association with the alias that was typed for it. -/
def typedStep (kind : JoinKind) (id : AssociationId) (tableAlias : Option String) : Step :=
  { association := id, kind := kind, preferredAlias := tableAlias }

/-- The names are looked up without their aliases. -/
theorem followSteps_eq (named : List (String × Option String)) :
    followSteps s origin kind named = (s.follow origin (named.map Prod.fst)).map fun ids =>
      List.zipWith (typedStep kind) ids (named.map Prod.snd) := by
  induction named generalizing origin with
  | nil => rfl
  | cons pair named ih =>
    obtain ⟨name, tableAlias⟩ := pair
    simp only [followSteps, List.map_cons, Schema.follow]
    cases s.associationByName origin name with
    | error e => rfl
    | ok id =>
      simp only [Bind.bind, Except.bind, ih]
      cases s.follow (s.association id).destination (named.map Prod.fst) with
      | error e => rfl
      | ok ids => rfl

theorem length_of_follow {names : List String} {ids : List AssociationId}
    (h : s.follow origin names = .ok ids) : ids.length = names.length := by
  induction names generalizing origin ids with
  | nil =>
    obtain rfl := Except.ok.inj h
    rfl
  | cons name names ih =>
    simp only [Schema.follow, bind_eq_ok_iff] at h
    obtain ⟨id, -, rest, hrest, hids⟩ := h
    obtain rfl := Except.ok.inj hids
    rw [List.length_cons, List.length_cons, ih hrest]

theorem exists_of_follow_eq_error {names : List String} {e : Error}
    (h : s.follow origin names = .error e) : ∃ table name, e = .unknownAssociation table name := by
  induction names generalizing origin with
  | nil => cases h
  | cons name names ih =>
    simp only [Schema.follow, bind_eq_error_iff] at h
    rcases h with h | ⟨id, -, h | ⟨rest, -, h⟩⟩
    · obtain ⟨-, rfl⟩ := Schema.associationByName_eq_error_iff.1 h
      exact ⟨_, _, rfl⟩
    · exact ih h
    · cases h

/-- The step was typed with this alias: it stands behind the first colon. -/
def TypedAlias (step : String) (tableAlias : Option String) : Prop :=
  (':' ∉ step.toList ∧ tableAlias = none) ∨
    ∃ name rest, step.toList = name ++ ':' :: rest ∧ ':' ∉ name ∧ tableAlias = some (.ofList rest)

theorem typedAlias_nameAndAlias (step : List Char) :
    TypedAlias (.ofList step) (nameAndAlias step).2 := by
  rw [TypedAlias, String.toList_ofList]
  unfold nameAndAlias
  split
  · next name rest h =>
    obtain ⟨hstep, hname⟩ := Text.splitFirst?_eq_some_iff.1 h
    exact .inr ⟨name, rest, hstep, hname, rfl⟩
  · next h => exact .inl ⟨Text.splitFirst?_eq_none_iff.1 h, rfl⟩

theorem association_typedSteps (kind : JoinKind) {ids : List AssociationId}
    {steps : List (List Char)} (h : ids.length = steps.length) :
    (List.zipWith (typedStep kind) ids ((steps.map nameAndAlias).map Prod.snd)).map
      Step.association = ids := by
  induction ids generalizing steps with
  | nil => rfl
  | cons id ids ih =>
    cases steps with
    | nil => cases h
    | cons step steps => exact congrArg (id :: ·) (ih (Nat.succ.inj h))

/-- The step was read off this text. -/
structure IsTypedAs (kind : JoinKind) (step : Step) (text : String) : Prop where
  preferredAlias : TypedAlias text step.preferredAlias
  bare : step = typedStep kind step.association step.preferredAlias

theorem isTypedAs_typedSteps {ids : List AssociationId} {steps : List (List Char)}
    (h : ids.length = steps.length) :
    List.Forall₂ (IsTypedAs kind)
      (List.zipWith (typedStep kind) ids ((steps.map nameAndAlias).map Prod.snd))
      (steps.map String.ofList) := by
  induction ids generalizing steps with
  | nil =>
    obtain rfl := List.length_eq_zero_iff.1 h.symm
    exact .nil
  | cons id ids ih =>
    cases steps with
    | nil => cases h
    | cons step steps => exact .cons ⟨typedAlias_nameAndAlias step, rfl⟩ (ih (Nat.succ.inj h))

theorem map_nameAndAlias_fst {path : String} (h : ∀ step ∈ dottedSteps path, IsTypedStep step) :
    ((dottedSteps path).map nameAndAlias).map Prod.fst =
      (dottedSteps (untyped path)).map String.ofList := by
  rw [dottedSteps_untyped h, List.map_map, List.map_map]
  exact List.map_congr_left fun step _ => nameAndAlias_fst step

/-- The typed path gives the associations of the path without aliases, each with its alias. -/
theorem typedPath_eq {path : String} (h : ∀ step ∈ dottedSteps path, IsTypedStep step) :
    typedPath s origin kind path = (s.resolvePath origin (untyped path)).map fun ids =>
      List.zipWith (typedStep kind) ids (((dottedSteps path).map nameAndAlias).map Prod.snd) := by
  rw [typedPath, followSteps_eq, map_nameAndAlias_fst h, Schema.resolvePath]

theorem length_of_resolvePath_untyped {path : String} {ids : List AssociationId}
    (h : ∀ step ∈ dottedSteps path, IsTypedStep step)
    (hids : s.resolvePath origin (untyped path) = .ok ids) :
    ids.length = (dottedSteps path).length := by
  rw [length_of_follow hids, ← map_nameAndAlias_fst h, List.length_map, List.length_map]

/-- A typed path whose steps have names that end before their colons leads where the path without
the aliases leads, or fails as that does; and each step gets the alias that was typed for it. -/
theorem typed_paths_resolve (s : Schema) (origin : TableId) (kind : JoinKind) (path : String) :
    ∃ written, (∀ other, HasSteps path other ↔ other = written) ∧
      ((∀ step ∈ written, IsTypedStep step.toList) →
        (∀ ids, s.resolvePath origin (untyped path) = .ok ids ↔
          ∃ steps, typedPath s origin kind path = .ok steps ∧ steps.map Step.association = ids) ∧
        (∀ steps, typedPath s origin kind path = .ok steps →
          List.Forall₂ (IsTypedAs kind) steps written) ∧
        (∀ e, typedPath s origin kind path = .error e ↔
          s.resolvePath origin (untyped path) = .error e) ∧
        ∀ e, typedPath s origin kind path = .error e →
          ∃ table name, e = .unknownAssociation table name) := by
  refine ⟨_, fun other => hasSteps_iff.trans eq_comm, fun h => ?_⟩
  have htyped : ∀ step ∈ dottedSteps path, IsTypedStep step := by
    intro step hstep
    simpa using h _ (List.mem_map_of_mem hstep)
  cases hresolve : s.resolvePath origin (untyped path) with
  | error e =>
    have hfails : typedPath s origin kind path = .error e := by
      rw [typedPath_eq htyped, hresolve]
      rfl
    rw [hfails]
    refine ⟨fun ids => ⟨fun h => (nomatch h), ?_⟩, fun _ h => (nomatch h), fun _ => ?_,
      fun _ h => ?_⟩
    · rintro ⟨steps, h, -⟩
      cases h
    · rw [Except.error.injEq, Except.error.injEq]
    · obtain rfl := Except.error.inj h
      exact exists_of_follow_eq_error hresolve
  | ok ids =>
    have hlength := length_of_resolvePath_untyped htyped hresolve
    have hassociations := association_typedSteps kind hlength
    rw [typedPath_eq htyped, hresolve]
    refine ⟨fun other => ⟨fun h => ⟨_, rfl, ?_⟩, ?_⟩, fun steps h => ?_,
      fun _ => ⟨fun h => (nomatch h), fun h => (nomatch h)⟩, fun _ h => (nomatch h)⟩
    · rw [hassociations, Except.ok.inj h]
    · rintro ⟨steps, h, rfl⟩
      rw [← Except.ok.inj h, hassociations]
    · rw [← Except.ok.inj h]
      exact isTypedAs_typedSteps hlength

theorem typed_paths_resolve_customer :
    ∃ steps, typedPath (.declared Schema.customersOfOrders) ⟨0⟩ .inner " customer:c .. address " =
        .ok steps ∧ steps.map Step.association = [⟨0⟩, ⟨1⟩] ∧
      List.Forall₂ (IsTypedAs .inner) steps ["customer:c", "address"] := by
  obtain ⟨written, hwritten, h⟩ := typed_paths_resolve (.declared Schema.customersOfOrders) ⟨0⟩
    .inner " customer:c .. address "
  obtain rfl : ["customer:c", "address"] = written :=
    (hwritten _).1 (hasSteps_iff.2 (by decide))
  obtain ⟨hok, haliases, -⟩ := h (by decide)
  obtain ⟨steps, hsteps, hassociations⟩ := (hok [⟨0⟩, ⟨1⟩]).1 (by decide)
  exact ⟨steps, hsteps, hassociations, haliases steps hsteps⟩

end JoinPath.Command
