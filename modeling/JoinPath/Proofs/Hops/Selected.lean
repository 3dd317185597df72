import JoinPath.Proofs.Hops.Repeated
/-!
# Selected columns

The columns that the joins of a session select are those that the callers asked for, in the order
of the requests and each of them once. A step selects the columns that it lists, under the alias of
the hop that it was placed at, or all columns of this hop if it lists none and its join is a fetch
join (`columns_as_requested`).
-/

namespace JoinPath

/-- What a step of a join selects of a table with this alias. -/
def Step.selects (step : Step) (fetch : Bool) (tableAlias : String) : List ColumnRef :=
  match step.columns with
  | some columns => columns.map (.withAlias tableAlias)
  | none => if fetch then [.qualified tableAlias "*"] else []

/-- The second join is recorded for the first: it goes along the same associations, and has the
same flag. -/
structure Join.IsRecordedAs (request join : Join) : Prop where
  associations : Step.associations request.path = Step.associations join.path
  fetch : request.fetch = join.fetch

namespace Session

variable {s : Session} {changes : List Bindings.Change}

/-! ## Requests -/

/-- The join that a call asks for. -/
def askedJoin (s : Session) : Call → Option Join
  | .addJoin path fetch => some ⟨path, fetch⟩
  | .joinTo path fetch => some ⟨path, fetch⟩
  | .joinPending fetch => some ⟨s.pending, fetch⟩
  | _ => none

/-- The joins that the calls of a run ask for, those without steps left out. -/
def askedJoins (s : Session) (calls : List Call) : List Join :=
  along perform (fun s call => (s.askedJoin call).toList.filter fun join => !join.path.isEmpty)
    s calls

theorem requested_eq (s : Session) (call : Call) :
    s.requested call = (s.askedJoin call).map Join.path := by
  cases call <;> rfl

theorem requestedIn_eq (s : Session) (calls : List Call) :
    s.requestedIn calls = (s.askedJoins calls).map Join.path := by
  have heach (s : Session) (call : Call) :
      (s.requested call).toList.filter (fun path => !path.isEmpty) =
        ((s.askedJoin call).toList.filter fun join => !join.path.isEmpty).map Join.path := by
    rw [requested_eq]
    cases s.askedJoin call with
    | none => rfl
    | some join =>
      rw [Option.map_some, Option.toList_some, Option.toList_some]
      cases hempty : join.path.isEmpty <;> simp [hempty]
  rw [requestedIn, askedJoins, along_map]
  exact congrArg (fun f => along perform f s calls) (funext₂ heach)

/-- A join is recorded with the flag that was asked for. -/
theorem fetch_joinTo (s : Session) {path : List Step} (hne : path ≠ []) (fetch : Bool) :
    (s.joinTo path fetch).joins.map Join.fetch = s.joins.map Join.fetch ++ [fetch] := by
  obtain ⟨_, _, _, _, hcompose⟩ := s.compose_frame path
  rw [joinTo_of_ne_nil s hne, addResolved, hcompose]
  dsimp only
  rw [s.joins_resolve path, List.map_append]
  rfl

theorem fetch_perform (s : Session) {call : Call} (keeps : call.keepsScope = true) :
    (s.perform call).joins.map Join.fetch = s.joins.map Join.fetch ++
      ((s.askedJoin call).toList.filter fun join => !join.path.isEmpty).map Join.fetch := by
  have join (s : Session) (path : List Step) (fetch : Bool) :
      (s.joinTo path fetch).joins.map Join.fetch = s.joins.map Join.fetch ++
        ((some (⟨path, fetch⟩ : Join)).toList.filter fun join => !join.path.isEmpty).map
          Join.fetch := by
    by_cases hne : path = []
    · subst hne
      exact (List.append_nil _).symm
    · rw [s.fetch_joinTo hne, Option.toList_some, List.filter_cons_of_pos (by simpa using hne)]
      rfl
  cases hasked : s.askedJoin call with
  | none =>
    have hrequest : s.requested call = none := by rw [requested_eq, hasked, Option.map_none]
    rw [(s.sameJoins_perform keeps hrequest).joins]
    exact (List.append_nil _).symm
  | some asked =>
    cases call with
    | joinTo path fetch =>
      obtain rfl : ⟨path, fetch⟩ = asked := Option.some.inj hasked
      exact join s path fetch
    | joinPending fetch =>
      obtain rfl : ⟨s.pending, fetch⟩ = asked := Option.some.inj hasked
      exact join { s with pending := [] } s.pending fetch
    | addJoin path fetch => cases keeps
    | _ => cases hasked

theorem fetch_run (s : Session) {calls : List Call}
    (keeps : ∀ call ∈ calls, call.keepsScope = true) :
    (s.run calls).joins.map Join.fetch =
      s.joins.map Join.fetch ++ (s.askedJoins calls).map Join.fetch := by
  refine along_induction (P := fun asked (t : Session) =>
    t.joins.map Join.fetch = s.joins.map Join.fetch ++ asked.map Join.fetch)
    (fun call hcall asked t ht => ?_) (List.append_nil _).symm
  rw [t.fetch_perform (keeps call hcall), ht, List.map_append, List.append_assoc]

/-- In a traced session the joins that were asked for are recorded. -/
theorem Traced.isRecordedAs {asked : List Join} (h : Traced (asked.map Join.path) changes s)
    (hfetch : s.joins.map Join.fetch = asked.map Join.fetch) :
    List.Forall₂ Join.IsRecordedAs asked s.joins := by
  obtain ⟨hlength, hassociations⟩ :=
    List.forall₂_iff_zip.1 (List.forall₂_map_left_iff.1 h.aligned)
  have hflags : List.Forall₂ Eq (asked.map Join.fetch) (s.joins.map Join.fetch) := by
    rw [hfetch]
    exact List.forall₂_same.2 fun _ _ => rfl
  obtain ⟨-, hflag⟩ := List.forall₂_iff_zip.1
    (List.forall₂_map_left_iff.1 (List.forall₂_map_right_iff.1 hflags))
  exact List.forall₂_iff_zip.2 ⟨hlength, fun hx => ⟨hassociations hx, hflag hx⟩⟩

/-- Each step that was asked for is recorded with its columns under the alias where it ends. -/
theorem Traced.step_attached {asked : List Join} (h : Traced (asked.map Join.path) changes s)
    {x : Join × Join} (hx : x ∈ asked.zip s.joins) {e : Step × Step}
    (he : e ∈ x.1.path.zip x.2.path) :
    ∃ id bound cs, e.2.placement = some id ∧ e.1.Attached bound (s.endAlias e.2) cs e.2 := by
  have hjoin : (x.1.path, x.2) ∈ (asked.map Join.path).zip s.joins := by
    rw [List.zip_map_left]
    exact List.mem_map_of_mem (f := Prod.map Join.path id) hx
  obtain ⟨cs, hattached⟩ :=
    h.attached.exists_attached e (zip_subset_of_aligned h.aligned hjoin he)
  obtain ⟨id, _, _, hid, -⟩ :=
    h.routed.joined_standing (List.of_mem_zip hx).2 (List.of_mem_zip he).2
  exact ⟨id, _, cs, hid, hattached⟩

/-! ## Columns -/

theorem addColumns_eraseDups (columns more : List ColumnRef) :
    addColumns columns.eraseDups more = (columns ++ more).eraseDups := by
  induction more generalizing columns with
  | nil => rw [List.append_nil]; rfl
  | cons c more ih =>
    have hstep : (if columns.eraseDups.contains c then columns.eraseDups
        else columns.eraseDups ++ [c]) = (columns ++ [c]).eraseDups := by
      by_cases hc : c ∈ columns
      · rw [if_pos (by simpa using hc), eraseDups_concat_of_mem hc]
      · rw [if_neg (by simpa using hc), eraseDups_concat_of_not_mem hc]
    rw [addColumns, List.foldl_cons, hstep, List.append_cons columns c more, ← ih]
    rfl

/-- The selected columns are those of all visits, each where it comes first. -/
theorem joinedColumns_eq_eraseDups (s : Session) :
    s.joinedColumns =
      (s.visits.flatMap fun v => s.selectedColumns v.step v.id v.fetch).eraseDups := by
  have each (visits : List Visit) (columns : List ColumnRef) :
      visits.foldl s.selectMore columns.eraseDups =
        (columns ++ visits.flatMap fun v => s.selectedColumns v.step v.id v.fetch).eraseDups := by
    induction visits generalizing columns with
    | nil => rw [List.flatMap_nil, List.append_nil]; rfl
    | cons v visits ih =>
      rw [List.foldl_cons, selectMore, addColumns_eraseDups, ih, List.flatMap_cons,
        List.append_assoc]
  rw [joinedColumns_eq]
  exact each s.visits []

/-- A step that was recorded for another selects what that one asked for. -/
theorem selectedColumns_of_attached {bound : String → Value → Prop} {cs : List Criteria}
    {step recorded : Step} {id : PlacementId} (hid : recorded.placement = some id)
    (h : step.Attached bound (s.endAlias recorded) cs recorded) (fetch : Bool) :
    s.selectedColumns recorded id fetch = step.selects fetch (s.endAlias recorded) := by
  rw [selectedColumns, Step.selects, h.columns]
  cases step.columns with
  | some columns => rfl
  | none =>
    rw [endAlias_eq_finalAlias hid]
    rfl

/-- What the visits of a join select is what the steps asked for that it was recorded for. -/
theorem selected_visits {path : List Step} {join : Join} (hlength : path.length = join.path.length)
    (h : ∀ e ∈ path.zip join.path, ∃ id bound cs, e.2.placement = some id ∧
      e.1.Attached bound (s.endAlias e.2) cs e.2) :
    (join.visits.flatMap fun v => s.selectedColumns v.step v.id v.fetch) =
      (path.zip join.path).flatMap fun e => e.1.selects join.fetch (s.endAlias e.2) := by
  unfold Join.visits
  generalize join.path = placed at hlength h
  induction path generalizing placed with
  | nil =>
    obtain rfl := List.length_eq_zero_iff.1 hlength.symm
    rfl
  | cons step path ih =>
    cases placed with
    | nil => cases hlength
    | cons recorded placed =>
      rw [List.zip_cons_cons] at h ⊢
      obtain ⟨⟨id, bound, cs, hid, hattached⟩, hrest⟩ := List.forall_mem_cons.1 h
      replace hid : recorded.placement = some id := hid
      simp only [List.filterMap_cons, hid, Option.map_some, List.flatMap_cons]
      rw [ih _ (Nat.succ.inj hlength) hrest, selectedColumns_of_attached hid hattached]

theorem selected_joins {asked joins : List Join}
    (recorded : List.Forall₂ Join.IsRecordedAs asked joins)
    (h : ∀ x ∈ asked.zip joins, ∀ e ∈ x.1.path.zip x.2.path, ∃ id bound cs,
      e.2.placement = some id ∧ e.1.Attached bound (s.endAlias e.2) cs e.2) :
    ((joins.flatMap Join.visits).flatMap fun v => s.selectedColumns v.step v.id v.fetch) =
      (asked.zip joins).flatMap fun x => (x.1.path.zip x.2.path).flatMap fun e =>
        e.1.selects x.1.fetch (s.endAlias e.2) := by
  induction recorded with
  | nil => rfl
  | @cons request join asked joins hfirst _ ih =>
    rw [List.zip_cons_cons] at h ⊢
    obtain ⟨hjoin, hrest⟩ := List.forall_mem_cons.1 h
    have hlength := congrArg List.length hfirst.associations
    rw [Step.length_associations, Step.length_associations] at hlength
    rw [List.flatMap_cons, List.flatMap_append, List.flatMap_cons, ih hrest,
      selected_visits hlength hjoin, ← hfirst.fetch]

/-- However a session whose base table keeps its alias joins: each join that is asked for is
recorded, and each of its steps has one hop that ends at its placement. The selected columns are
those that the steps ask for under the aliases of these hops, in the order of the joins and of their
steps, each where it comes first. -/
theorem columns_as_requested (schema : Schema) (table : TableId) (tableAlias : String)
    (calls : List Call) (keeps : ∀ call ∈ calls, call.keepsScope = true) :
    let start := (new schema table).setAlias tableAlias
    let s := start.run calls
    let asked := start.askedJoins calls
    List.Forall₂ Join.IsRecordedAs asked s.joins ∧
    (∀ join ∈ s.joins, ∀ step ∈ join.path, ∃ id h, step.placement = some id ∧
      s.placedHops.1.filter (fun x => x.1 = some id) = [(some id, h)] ∧
      h.tableAlias = s.endAlias step) ∧
    s.joinedColumns = ((asked.zip s.joins).flatMap fun x =>
      (x.1.path.zip x.2.path).flatMap fun e =>
        e.1.selects x.1.fetch (s.endAlias e.2)).eraseDups := by
  intro start s asked
  have htraced : Traced (start.requestedIn calls) (start.history calls) s :=
    (traced_setAlias_new schema table tableAlias).run keeps
  rw [requestedIn_eq] at htraced
  have hfetch : s.joins.map Join.fetch = asked.map Join.fetch := by
    have hstart : start.joins = [] := (IsUnjoined.setAlias ⟨rfl, rfl, rfl⟩ tableAlias).joins
    rw [start.fetch_run keeps, hstart]
    rfl
  have hrecorded := htraced.isRecordedAs hfetch
  refine ⟨hrecorded, fun join hjoin step hstep => ?_, ?_⟩
  · obtain ⟨id, _, _, hid, -⟩ := htraced.routed.joined_standing hjoin hstep
    obtain ⟨v, later, hv, hvid⟩ :=
      exists_first_visit (mem_visits_iff.2 ⟨join, hjoin, step, hstep, hid⟩)
    refine ⟨id, s.endHop v later, hid, owned_hops hv, ?_⟩
    rw [tableAlias_endHop, endAlias_eq_finalAlias hid, hvid]
  · rw [joinedColumns_eq_eraseDups, visits,
      selected_joins hrecorded fun x hx e he => htraced.step_attached hx he]

/-- A step to the tags with these columns, for whose table an alias is wanted. -/
def tagsAs (tableAlias : String) (columns : Option (List ColumnRef)) : Step :=
  { association := ⟨2⟩, kind := .left, preferredAlias := some tableAlias, columns := columns }

/-- The names of the tags, their numbers with the names again, and all of their columns. -/
def joinTagColumns : List Call := [
  .joinTo [tagsAs "t" (some [.qualified "b" "name"])] false,
  .joinTo [tagsAs "u" (some [.unqualified "id", .unqualified "name"])] true,
  .joinTo [tagsAs "v" none] true]

theorem columns_as_requested_tags :
    (∀ call ∈ joinTagColumns, call.keepsScope = true) ∧
    (((new (.declared booksAndTags) ⟨0⟩).setAlias "b").run joinTagColumns).joinedColumns =
      [.qualified "t" "name", .qualified "t" "id", .qualified "t" "*"] := by
  have keeps : ∀ call ∈ joinTagColumns, call.keepsScope = true := by
    simp [joinTagColumns, Call.keepsScope]
  obtain ⟨-, -, columns⟩ :=
    columns_as_requested (.declared booksAndTags) ⟨0⟩ "b" joinTagColumns keeps
  refine ⟨keeps, columns.trans ?_⟩
  cbv

end Session

end JoinPath
