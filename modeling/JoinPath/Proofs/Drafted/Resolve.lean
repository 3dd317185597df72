import JoinPath.Drafted.Resolve
import JoinPath.Proofs.Hops.Ordered
import JoinPath.Proofs.Session.Bounded
/-!
# Resolving by position succeeds

In a bounded session every lookup of resolving finds what it asks for. The copies of an association
are drafts at the end of the arena, and when the step is placed they are the drafts of its
placements (`place_spread`). A walk keeps the shared placements and places the rest, so it resolves
the path (`addJoin_drafted`).
-/

namespace JoinPath

namespace Drafted

theorem leading?_of_le {path : List Step} {n : ℕ} (h : n ≤ path.length) :
    leading? path n = some (path.take n) := if_pos h

theorem deepestShared?_eq (cached : List (List Step)) (path : List Step) :
    deepestShared? cached path = some (Step.deepestShared cached path) := by
  have each (best : List Step) : cached.foldlM (fun best candidate =>
      let depth := Step.sharedLength candidate path
      if best.length < depth then leading? candidate depth else some best) best =
        some (cached.foldl (fun best candidate =>
          let depth := Step.sharedLength candidate path
          if best.length < depth then candidate.take depth else best) best) := by
    induction cached generalizing best with
    | nil => rfl
    | cons candidate cached ih =>
      rw [List.foldlM_cons, List.foldl_cons]
      dsimp only
      rw [leading?_of_le (Step.sharedLength_le candidate path).1]
      split <;> exact ih _
  exact each []

variable {m : Drafted} {id : AssociationId} {a : Association}

theorem copy_direct (ha : m.association? id = some a) (hj : a.junction = none) (depth : ℕ) :
    copy (depth + 1) m id =
      some (⟨m.arena.length⟩, m.push (.ofAssociation ⟨m.arena.length⟩ id a none)) := by
  simp only [copy, ha, hj, Option.bind_eq_bind, Option.bind_some]

/-- Halves have no halves, so that copying an association goes two calls deep. -/
theorem copy_through (ha : m.association? id = some a) {j : Junction} (hj : a.junction = some j)
    {first second : Association} (hfirst : m.association? j.inward = some first)
    (hsecond : m.association? j.outward = some second) (direct : first.junction = none)
    (direct' : second.junction = none) (depth : ℕ) :
    copy (depth + 2) m id = some (⟨m.arena.length + 2⟩, ⟨m.session, m.arena ++
      [.ofAssociation ⟨m.arena.length⟩ j.inward first none,
        .ofAssociation ⟨m.arena.length + 1⟩ j.outward second none,
        .ofAssociation ⟨m.arena.length + 2⟩ id a
          (some (⟨m.arena.length⟩, ⟨m.arena.length + 1⟩))]⟩) := by
  have hinward := copy_direct hfirst direct depth
  have houtward := copy_direct
    (m := m.push (.ofAssociation ⟨m.arena.length⟩ j.inward first none)) hsecond direct' depth
  rw [copy]
  simp only [ha, hj, hinward, houtward, Option.bind_eq_bind, Option.bind_some]
  simp [push]

end Drafted

open Drafted

namespace Session

variable {s : Session} {joins : List Join} {arena : List Draft}

/-! ## Lookups -/

theorem association?_spread {id : AssociationId} (h : s.schema.HasAssociation id) :
    (s.spread joins arena).association? id = some (s.schema.association id) :=
  Schema.getElem?_association h

theorem table?_spread {id : TableId} (h : s.schema.HasTable id) :
    (s.spread joins arena).table? id = some (s.schema.table id) :=
  Schema.getElem?_table h

theorem draft?_spread {id : PlacementId} (h : id.index < s.placements.length) :
    (s.spread joins s.drafts).draft? id = some (s.placement id).draft := by
  have hget := List.getElem?_eq_getElem h
  rw [placement_eq id hget]
  exact (List.getElem?_map ..).trans (congrArg (Option.map Placement.draft) hget)

theorem terminal_draft (p : Placement) : p.draft.terminal = p.terminal := rfl

theorem terminal?_spread {id : PlacementId} (h : id.index < s.placements.length) :
    (s.spread joins s.drafts).terminal? id = some (s.terminal id) := by
  rw [terminal?, draft?_spread h, Option.map_some, terminal_draft, terminal]

/-! ## Aliases -/

theorem takeAlias_spread (s : Session) (joins : List Join) (arena : List Draft)
    (id : PlacementId) : (s.spread joins arena).takeAlias id =
      ((s.takeAlias id).1, (s.takeAlias id).2.spread joins arena) := by
  unfold Drafted.takeAlias spread takeAlias aliasOf?
  dsimp only
  split <;> rfl

theorem terminalAlias_spread {id : PlacementId} (h : id.index < s.placements.length) :
    (s.spread joins s.drafts).terminalAlias id =
      some ((s.terminalAlias id).1, (s.terminalAlias id).2.spread joins s.drafts) := by
  rw [Drafted.terminalAlias, terminal?_spread h, Option.bind_eq_bind, Option.bind_some,
    takeAlias_spread]
  rfl

theorem originAlias_spread (s : Session) (joins : List Join) (arena : List Draft)
    (previous : Option PlacementId) : (s.spread joins arena).originAlias previous =
      ((s.originAlias previous).1, (s.originAlias previous).2.spread joins arena) := by
  cases previous with
  | none => rfl
  | some id => exact s.takeAlias_spread joins arena id

section
variable {id : PlacementId} {d : Draft} (hd : arena[id.index]? = some d)
include hd

theorem reportAlias_spread (joins : List Join)
    (there : s.schema.HasAssociation d.association) (name : String) :
    (s.spread joins arena).reportAlias id name =
      some ((s.reportAlias (s.schema.association d.association) name).spread joins arena) := by
  have hdraft : (s.spread joins arena).draft? id = some d := hd
  rw [Drafted.reportAlias, hdraft, Option.bind_eq_bind, Option.bind_some,
    association?_spread there]
  rfl

theorem assignDestination_spread (there : s.schema.HasAssociation d.association)
    (preferred : Option String) :
    (s.spread joins arena).assignDestination id preferred =
      some ((s.assignDestination (s.schema.association d.association) id preferred).1,
        (s.assignDestination (s.schema.association d.association) id preferred).2.spread
          joins arena) := by
  cases preferred with
  | none =>
    have h := reportAlias_spread (s := { s with joinAliases := (s.joinAliases.take id).2 })
      hd joins there (s.joinAliases.take id).1
    exact congrArg (Option.bind · fun m => some ((s.joinAliases.take id).1, m)) h
  | some name =>
    have h := reportAlias_spread (s := { s with joinAliases := s.joinAliases.register id name })
      hd joins there name
    exact congrArg (Option.bind · fun m => some (name, m)) h

theorem assignJunction_spread (there : s.schema.HasAssociation d.association) :
    (s.spread joins arena).assignJunction id =
      some ((s.assignJunction (s.schema.association d.association) id).1,
        (s.assignJunction (s.schema.association d.association) id).2.spread joins arena) := by
  have h := reportAlias_spread (s := { s with junctionAliases := (s.junctionAliases.take id).2 })
    hd joins there (s.junctionAliases.take id).1
  exact congrArg (Option.bind · fun m => some ((s.junctionAliases.take id).1, m)) h

theorem stamp_spread (originAlias destinationAlias : String) :
    (s.spread joins arena).stamp id originAlias destinationAlias =
      some (s.spread joins (arena.set id.index (d.stamp originAlias destinationAlias))) := by
  have hdraft : (s.spread joins arena).draft? id = some d := hd
  rw [Drafted.stamp, hdraft]
  rfl

end

/-- A copy that received its aliases is the draft of a placement. -/
theorem stamp_ofAssociation {a : Association} {association : AssociationId}
    (h : a.id = association) (id : PlacementId) (halves : Option (PlacementId × PlacementId))
    (origin destination : String) :
    (Draft.ofAssociation id association a halves).stamp origin destination =
      (placeBetween a id origin destination halves).draft := by
  subst h
  simp [Draft.stamp, Draft.ofAssociation, placeBetween, Placement.draft, Association.conditions,
    ColumnRef.withAlias, ColumnRef.unqualified, ColumnRef.qualified]

/-! ## Placing -/

theorem complete_spread (joins : List Join) {id : PlacementId} {d : Draft}
    (hd : arena[id.index]? = some d) (there : s.schema.HasAssociation d.association)
    (origin : String) (preferred : Option String) {r : String × Session}
    (hr : r = s.assignDestination (s.schema.association d.association) id preferred) :
    (s.spread joins arena).complete id origin preferred =
      some (r.2.spread joins (arena.set id.index (d.stamp origin r.1))) := by
  rw [complete, assignDestination_spread hd there, ← hr, Option.bind_eq_bind, Option.bind_some]
  exact stamp_spread hd origin r.1

theorem completeThrough_spread (joins : List Join) {id first second : PlacementId} {d d₁ d₂ : Draft}
    (hd₁ : arena[first.index]? = some d₁) (hd₂ : arena[second.index]? = some d₂)
    (hd : arena[id.index]? = some d) (apart : first.index < second.index)
    (last : second.index < id.index) (there₁ : s.schema.HasAssociation d₁.association)
    (there₂ : s.schema.HasAssociation d₂.association) (origin : String) (preferred : Option String)
    {j r : String × Session}
    (hj : j = s.assignJunction (s.schema.association d₁.association) first)
    (hr : r = j.2.assignDestination (s.schema.association d₂.association) second preferred) :
    (s.spread joins arena).completeThrough id first second origin preferred =
      some (r.2.spread joins (((arena.set first.index (d₁.stamp origin j.1)).set second.index
        (d₂.stamp j.1 r.1)).set id.index (d.stamp origin r.1))) := by
  have hschema : j.2.schema = s.schema := by rw [hj]; rfl
  have hd₂' : (arena.set first.index (d₁.stamp origin j.1))[second.index]? = some d₂ := by
    rw [List.getElem?_set_ne (Nat.ne_of_lt apart)]
    exact hd₂
  have hd' : ((arena.set first.index (d₁.stamp origin j.1)).set second.index
      (d₂.stamp j.1 r.1))[id.index]? = some d := by
    rw [List.getElem?_set_ne (Nat.ne_of_lt last),
      List.getElem?_set_ne (Nat.ne_of_lt (Nat.lt_trans apart last))]
    exact hd
  rw [← hschema] at there₂ hr
  simp only [completeThrough, assignJunction_spread hd₁ there₁, ← hj, stamp_spread hd₁,
    assignDestination_spread hd₂' there₂, ← hr, stamp_spread hd₂', stamp_spread hd',
    Option.bind_eq_bind, Option.bind_some]

theorem length_drafts (s : Session) : s.drafts.length = s.placements.length := List.length_map _

/-- Copies stand after the drafts of the placements. -/
theorem getElem?_drafts_append (s : Session) (ds : List Draft) (i : ℕ) :
    (s.drafts ++ ds)[s.placements.length + i]? = ds[i]? := by
  rw [← s.length_drafts, List.getElem?_append_right (Nat.le_add_right _ _), Nat.add_sub_cancel_left]

theorem set_drafts_append (s : Session) (ds : List Draft) (i : ℕ) (d : Draft) :
    (s.drafts ++ ds).set (s.placements.length + i) d = s.drafts ++ ds.set i d := by
  rw [← s.length_drafts, List.set_append_right _ _ (Nat.le_add_right _ _), Nat.add_sub_cancel_left]

theorem spread_addPlacements {s t : Session} (h : t.placements = s.placements)
    (ps : List Placement) (joins : List Join) :
    (t.addPlacements ps).spread joins (t.addPlacements ps).drafts =
      t.spread joins (s.drafts ++ ps.map Placement.draft) := by
  have hdrafts : (t.addPlacements ps).drafts = s.drafts ++ ps.map Placement.draft := by
    rw [drafts, addPlacements, h]
    exact List.map_append
  rw [hdrafts]
  rfl

theorem place_spread_direct (schema : s.schema.WellFormed) {step : Step}
    (there : s.schema.HasAssociation step.association)
    (hj : (s.schema.association step.association).junction = none) (depth : ℕ) (joins : List Join)
    (previous : Option PlacementId) :
    Drafted.place (depth + 2) (s.spread joins s.drafts) step previous =
      some ((s.place step previous).1,
        (s.place step previous).2.spread joins (s.place step previous).2.drafts) := by
  let id : PlacementId := ⟨s.placements.length⟩
  let d := Draft.ofAssociation id step.association (s.schema.association step.association) none
  have hcopy : copy (depth + 2) (s.spread joins s.drafts) step.association =
      some (id, s.spread joins (s.drafts ++ [d])) := by
    have h := copy_direct (m := s.spread joins s.drafts) (association?_spread there) hj (depth + 1)
    have hlen : (s.spread joins s.drafts).arena.length = s.placements.length := s.length_drafts
    rw [hlen] at h
    exact h
  have hd : (s.drafts ++ [d])[id.index]? = some d := s.getElem?_drafts_append [d] 0
  have hid := (schema.isSound there).id
  have hschema := (s.extends_originAlias previous).schema
  have hplacements := s.placements_originAlias previous
  simp only [Drafted.place, place, hj, hcopy, originAlias_spread, Option.bind_eq_bind,
    Option.bind_some]
  generalize s.originAlias previous = r at hschema hplacements ⊢
  obtain ⟨origin, t⟩ := r
  have hcomplete := complete_spread (s := t) joins hd (by rw [hschema]; exact there)
    origin step.preferredAlias rfl
  have hdraft : (t.spread joins (s.drafts ++ [d])).draft? id = some d := hd
  have hset (e : Draft) : (s.drafts ++ [d]).set id.index e = s.drafts ++ [e] :=
    s.set_drafts_append [d] 0 e
  rw [hschema, hset, stamp_ofAssociation hid] at hcomplete
  rw [spread_addPlacements ((t.placements_assignDestination ..).trans hplacements), hdraft,
    Option.bind_some]
  exact congrArg (Option.bind · fun m => some (id, m)) hcomplete

theorem place_spread_through (schema : s.schema.WellFormed) {step : Step}
    (there : s.schema.HasAssociation step.association) {j : Junction}
    (hj : (s.schema.association step.association).junction = some j) (depth : ℕ)
    (joins : List Join) (previous : Option PlacementId) :
    Drafted.place (depth + 2) (s.spread joins s.drafts) step previous =
      some ((s.place step previous).1,
        (s.place step previous).2.spread joins (s.place step previous).2.drafts) := by
  obtain ⟨⟨thereFirst, direct⟩, thereSecond, direct'⟩ := schema.halves there hj
  let first : PlacementId := ⟨s.placements.length⟩
  let second : PlacementId := ⟨s.placements.length + 1⟩
  let id : PlacementId := ⟨s.placements.length + 2⟩
  let ds : List Draft := [
    .ofAssociation first j.inward (s.schema.association j.inward) none,
    .ofAssociation second j.outward (s.schema.association j.outward) none,
    .ofAssociation id step.association (s.schema.association step.association)
      (some (first, second))]
  have hcopy : copy (depth + 2) (s.spread joins s.drafts) step.association =
      some (id, s.spread joins (s.drafts ++ ds)) := by
    have h := copy_through (m := s.spread joins s.drafts) (association?_spread there) hj
      (association?_spread thereFirst) (association?_spread thereSecond) direct direct' depth
    have hlen : (s.spread joins s.drafts).arena.length = s.placements.length := s.length_drafts
    rw [hlen] at h
    exact h
  have hschema := (s.extends_originAlias previous).schema
  have hplacements := s.placements_originAlias previous
  simp only [Drafted.place, place, hj, hcopy, originAlias_spread, Option.bind_eq_bind,
    Option.bind_some]
  generalize s.originAlias previous = r at hschema hplacements ⊢
  obtain ⟨origin, t⟩ := r
  have hfirst : (s.drafts ++ ds)[first.index]? = some _ := s.getElem?_drafts_append ds 0
  have hsecond : (s.drafts ++ ds)[second.index]? = some _ := s.getElem?_drafts_append ds 1
  have hid : (s.drafts ++ ds)[id.index]? = some _ := s.getElem?_drafts_append ds 2
  have hcomplete := completeThrough_spread (s := t) joins hfirst hsecond hid
    (Nat.lt_succ_self _) (Nat.lt_succ_self _) (by rw [hschema]; exact thereFirst)
    (by rw [hschema]; exact thereSecond) origin step.preferredAlias rfl rfl
  have hdraft : (t.spread joins (s.drafts ++ ds)).draft? id = some _ := hid
  -- The three copies are filled in where they stand, one after the other.
  have hset (e₁ e₂ e : Draft) : (((s.drafts ++ ds).set first.index e₁).set second.index e₂).set
      id.index e = s.drafts ++ [e₁, e₂, e] := by
    have h₁ := s.set_drafts_append ds 0 e₁
    have h₂ := s.set_drafts_append (ds.set 0 e₁) 1 e₂
    have h₃ := s.set_drafts_append ((ds.set 0 e₁).set 1 e₂) 2 e
    exact (congrArg (fun l => (l.set second.index e₂).set id.index e) h₁).trans
      ((congrArg (fun l => l.set id.index e) h₂).trans h₃)
  rw [hschema, hset, stamp_ofAssociation (schema.isSound thereFirst).id,
    stamp_ofAssociation (schema.isSound thereSecond).id,
    stamp_ofAssociation (schema.isSound there).id] at hcomplete
  have hplaced : ((t.assignJunction (s.schema.association j.inward) first).2.assignDestination
      (s.schema.association j.outward) second step.preferredAlias).2.placements = s.placements :=
    (placements_assignDestination _ _ _ _).trans hplacements
  rw [hschema, spread_addPlacements hplaced, hdraft, Option.bind_some]
  exact congrArg (Option.bind · fun m => some (id, m)) hcomplete

/-- A placed step has the drafts of its placements at the end of the arena. -/
theorem place_spread (schema : s.schema.WellFormed) {step : Step}
    (there : s.schema.HasAssociation step.association) (depth : ℕ) (joins : List Join)
    (previous : Option PlacementId) :
    Drafted.place (depth + 2) (s.spread joins s.drafts) step previous =
      some ((s.place step previous).1,
        (s.place step previous).2.spread joins (s.place step previous).2.drafts) := by
  cases hj : (s.schema.association step.association).junction with
  | none => exact place_spread_direct schema there hj depth joins previous
  | some j => exact place_spread_through schema there hj depth joins previous

/-! ## Walking -/

/-- Where a path ends that starts after `last`. -/
def endFrom (s : Session) (last : Option PlacementId) (path : List Step) : Option PlacementId :=
  path.foldl (fun _ step => step.placement.map s.terminal) last

theorem endFrom_none (s : Session) (path : List Step) : s.endFrom none path = s.endOf path := by
  induction path using List.reverseRecOn with
  | nil => rfl
  | append_singleton path step _ =>
    rw [endFrom, List.foldl_append, endOf, List.getLast?_concat]
    rfl

theorem endFrom_append (s : Session) (last : Option PlacementId) (p q : List Step) :
    s.endFrom last (p ++ q) = s.endFrom (s.endFrom last p) q :=
  List.foldl_append

theorem endFrom_extends {s t : Session} (hst : s.Extends t) {path : List Step}
    (there : ∀ step ∈ path, ∀ id ∈ step.placement, id.index < s.placements.length)
    (last : Option PlacementId) : t.endFrom last path = s.endFrom last path := by
  induction path generalizing last with
  | nil => rfl
  | cons step path ih =>
    obtain ⟨hstep, hpath⟩ := List.forall_mem_cons.1 there
    have hend : step.placement.map t.terminal = step.placement.map s.terminal :=
      Option.map_congr fun id hid => by
        rw [terminal, placement_of_begins hst.placements (hstep id hid)]
        rfl
    exact (ih hpath _).trans (congrArg (s.endFrom · path) hend)

/-- Once nothing more is shared, a walk places the steps. -/
theorem walk_placing (schema : s.schema.WellFormed) {path : List Step}
    (there : Step.AllAlong s.schema path) (depth : ℕ) {shared : List (Option PlacementId)} {i : ℕ}
    {matching : Bool} (ended : matching = false ∨ shared.length ≤ i) (joins : List Join)
    (last : Option PlacementId) :
    walk (depth + 2) shared i matching last path (s.spread joins s.drafts) =
      some ⟨(s.placeAll path last).1, matching && path.isEmpty,
        (s.placeAll path last).2.endFrom last (s.placeAll path last).1,
        (s.placeAll path last).2.spread joins (s.placeAll path last).2.drafts⟩ := by
  induction path generalizing s i matching last with
  | nil => simp [walk, placeAll, endFrom]
  | cons step path ih =>
    obtain ⟨hstep, hpath⟩ := List.forall_mem_cons.1 there
    have hkept : (if matching then shared[i]?.join else none) = none := by
      rcases ended with rfl | hle
      · rfl
      · rw [List.getElem?_eq_none hle]
        exact ite_self _
    have hplaced := s.placedAfter_place step last
    have hlt : (s.place step last).1.index < (s.place step last).2.placements.length := by
      rw [← hplaced.last]
      exact Nat.lt_succ_self _
    rw [← s.schema_place step last] at hpath
    have hrest := ih (by rw [s.schema_place step last]; exact schema) hpath
      (i := i + 1) (.inl rfl)
      (some ((s.place step last).2.terminal (s.place step last).1))
    have hext := ((s.place step last).2.placeAll_chained path
      (some ((s.place step last).2.terminal (s.place step last).1))).1
    have hend := congrArg Placement.terminal (placement_of_begins hext.placements hlt)
    simp only [walk, hkept, place_spread schema hstep, terminal?_spread hlt, hrest,
      Option.bind_eq_bind, Option.bind_some, Option.isSome_none, placeAll_cons, List.isEmpty_cons,
      Bool.and_false, Bool.false_and]
    exact congrArg (fun id => some (Walk.mk _ false (endFrom _ (some id) _) _)) hend.symm

/-- As long as the path is shared, a walk keeps the placements. -/
theorem walk_sharing (schema : s.schema.WellFormed) {path : List Step}
    (there : Step.AllAlong s.schema path) (depth : ℕ) {shared : List (Option PlacementId)} {i : ℕ}
    {ids : List PlacementId} (hids : shared.drop i = ids.map some) (hlen : ids.length ≤ path.length)
    (known : ∀ id ∈ ids, id.index < s.placements.length) (joins : List Join)
    (last : Option PlacementId) {kept : List Step} {r : List Step × Session}
    (hkept : kept = path.zipWith (fun step id => { step with placement := some id }) ids)
    (hr : r = s.placeAll (path.drop ids.length) (s.endFrom last kept)) :
    walk (depth + 2) shared i true last path (s.spread joins s.drafts) =
      some ⟨kept ++ r.1, (path.drop ids.length).isEmpty,
        r.2.endFrom (s.endFrom last kept) r.1, r.2.spread joins r.2.drafts⟩ := by
  induction ids generalizing path i last kept with
  | nil =>
    rw [List.zipWith_nil_right] at hkept
    subst hkept hr
    exact walk_placing schema there depth (.inr (List.drop_eq_nil_iff.1 hids)) joins last
  | cons id ids ih =>
    cases path with
    | nil => simp at hlen
    | cons step path =>
      obtain ⟨hid, hknown⟩ := List.forall_mem_cons.1 known
      obtain ⟨-, hpath⟩ := List.forall_mem_cons.1 there
      have hshared : shared[i]? = some (some id) := by
        have h := congrArg (·[0]?) hids
        simp only [List.getElem?_drop, Nat.add_zero, List.map_cons, List.getElem?_cons_zero] at h
        exact h
      have hrest : shared.drop (i + 1) = ids.map some := by
        rw [← List.tail_drop, hids]
        rfl
      subst hkept
      have h := ih hpath hrest (Nat.le_of_succ_le_succ hlen) hknown (some (s.terminal id)) rfl hr
      simp only [walk, if_true, hshared, Option.join_some, terminal?_spread hid,
        Option.bind_eq_bind, Option.bind_some, Option.isSome_some, h]
      rfl

/-! ## Joining -/

theorem Routed.map_placement_shared (hs : s.Routed) (path : List Step) :
    (Step.deepestShared s.traversed path).map Step.placement =
      (s.sharedPlacements path).map some := by
  have placed := hs.shared_placed path
  unfold sharedPlacements
  generalize Step.deepestShared s.traversed path = shared at placed ⊢
  induction shared with
  | nil => rfl
  | cons step shared ih =>
    obtain ⟨hstep, hshared⟩ := List.forall_mem_cons.1 placed
    obtain ⟨id, hid⟩ := Option.isSome_iff_exists.1 hstep
    rw [List.map_cons, List.filterMap_cons_some hid, List.map_cons, ih hshared, hid]

theorem Routed.sharedPlacements_lt (hs : s.Routed) (path : List Step) :
    ∀ id ∈ s.sharedPlacements path, id.index < s.placements.length := by
  intro id hid
  obtain ⟨step, hstep, hplacement⟩ := List.mem_filterMap.1 hid
  obtain ⟨c, hc, hmem⟩ := mem_traversed_of_shared hstep
  obtain ⟨id', _, _, hid', hstands⟩ := hs.standing c hc step hmem
  obtain rfl := Option.some.inj (hplacement.symm.trans hid')
  exact hstands.index_lt

theorem Routed.reused_lt (hs : s.Routed) (path : List Step) :
    ∀ step ∈ s.reused path, ∀ id ∈ step.placement, id.index < s.placements.length := by
  intro step hstep id hid
  rcases hs.reused_begins path with hnil | ⟨c, hc, hbegins⟩
  · rw [hnil] at hstep
    exact absurd hstep List.not_mem_nil
  · obtain ⟨old, hold, hkey⟩ := List.mem_map.1 (hbegins.subset (List.mem_map_of_mem hstep))
    obtain ⟨id', _, _, hid', hstands⟩ := (hs.standing c hc old hold).of_key hkey.symm
    obtain rfl := Option.some.inj (hid.symm.trans hid')
    exact hstands.index_lt

/-- Where the placed steps end, the whole path ends. -/
theorem Routed.endOf_resolve (hs : s.Routed) (path : List Step) :
    (s.placeRest path).2.endFrom (s.endOf (s.reused path)) (s.placeRest path).1 =
      (s.placeRest path).2.endOf (s.resolve path).1 := by
  have hext : s.Extends (s.placeRest path).2 := (s.placeAll_chained _ _).1
  rw [resolve_fst, ← endFrom_none (s.placeRest path).2, endFrom_append,
    endFrom_extends hext (hs.reused_lt path), endFrom_none]

theorem isEmpty_placeRest (s : Session) (path : List Step) :
    (path.drop (s.sharedPlacements path).length).isEmpty = (s.placeRest path).1.isEmpty := by
  have hlen := (s.placeRest_steps path).length_eq
  rw [Bool.eq_iff_iff, List.isEmpty_iff, List.isEmpty_iff, ← List.length_eq_zero_iff, hlen,
    List.length_eq_zero_iff]

theorem Bounded.walk_drafted (hs : s.Bounded) {path : List Step}
    (there : Step.AllAlong s.schema path) (depth : ℕ) :
    walk (depth + 2) ((Step.deepestShared s.traversed path).map Step.placement) 0 true none path
        s.drafted =
      some ⟨(s.resolve path).1, (s.placeRest path).1.isEmpty,
        (s.placeRest path).2.endOf (s.resolve path).1, (s.placeRest path).2.drafted⟩ := by
  have hwalk := walk_sharing hs.schema there depth (i := 0) (hs.routed.map_placement_shared path)
    (s.length_sharedPlacements_le path) (hs.routed.sharedPlacements_lt path) s.joins none rfl
    (show s.placeRest path = _ by rw [endFrom_none]; rfl)
  obtain ⟨_, _, _, _, hframe⟩ := s.placeAll_frame (path.drop (s.sharedPlacements path).length)
    (s.endOf (s.reused path))
  have hdrafted : (s.placeRest path).2.drafted =
      (s.placeRest path).2.spread s.joins (s.placeRest path).2.drafts := by
    have hjoins : (s.placeRest path).2.joins = s.joins := by rw [placeRest, hframe]
    rw [drafted, hjoins]
  rw [endFrom_none, isEmpty_placeRest] at hwalk
  rw [← hs.routed.endOf_resolve path, hdrafted]
  exact hwalk

/-- Resolving remembers the path and where it ends. -/
theorem resolve_snd_eq (s : Session) (path : List Step) :
    (s.resolve path).2 = { (s.placeRest path).2 with
      traversed := if (s.placeRest path).1.isEmpty then (s.placeRest path).2.traversed
        else (s.placeRest path).2.traversed ++ [(s.resolve path).1]
      lastAlias := ((s.placeRest path).2.endOf (s.resolve path).1).bind
        (s.placeRest path).2.aliasOf? } := by
  unfold resolve
  dsimp only
  split <;> rfl

theorem Bounded.addJoin_drafted (hs : s.Bounded) {path : List Step}
    (there : Step.AllAlong s.schema path) (depth : ℕ) (fetch : Bool) :
    Drafted.addJoin (depth + 2) s.drafted path fetch =
      some ((s.addJoin path fetch).1, (s.addJoin path fetch).2.drafted) := by
  unfold Drafted.addJoin addJoin
  split
  · rfl
  · have hshared := deepestShared?_eq s.drafted.session.traversed path
    rw [hshared, Option.bind_eq_bind, Option.bind_some]
    refine (congrArg (Option.bind · _) (hs.walk_drafted there depth)).trans ?_
    show _ = some (some (Join.mk (s.resolve path).1 fetch),
      ((s.resolve path).2.addResolved (s.resolve path).1 fetch).drafted)
    rw [resolve_snd_eq]
    rfl

end Session

end JoinPath
