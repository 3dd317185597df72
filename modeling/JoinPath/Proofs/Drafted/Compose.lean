import JoinPath.Drafted.Compose
import JoinPath.Proofs.Drafted.Resolve
/-!
# Composing by position succeeds

The slots of a path are filled from both sides of every position, and what they hold in the end is
what the steps add (`slots_spread`). Attaching them changes the steps of the last join one after the
other: those before the position are attached, those after it are still as they were resolved
(`attachAll_spread`).
-/

namespace JoinPath

/-- What an addition leaves in its slot. -/
def Addition.slot (a : Addition) : Option Addition := if a.isEmpty then none else some a

namespace Drafted.Slots

theorem getD_slot (a : Addition) : a.slot.getD ⟨[], none⟩ = a := by
  obtain ⟨criteria, columns⟩ := a
  unfold Addition.slot Addition.isEmpty
  split
  · next h =>
    obtain ⟨hcriteria, hcolumns⟩ := (Bool.and_eq_true ..).mp h
    obtain rfl : criteria = [] := List.isEmpty_iff.1 hcriteria
    obtain rfl : columns = none := Option.isNone_iff_eq_none.1 hcolumns
    rfl
  · rfl

variable {before after : Slots} {i : ℕ} (hi : before.length = i)
include hi

theorem change_at (a : Addition) (f : Addition → Addition) :
    Slots.change (before ++ a.slot :: after) i f = some (before ++ some (f a) :: after) := by
  subst hi
  simp [change, getD_slot]

theorem addCriteria_at (a : Addition) (criteria : List Criteria) :
    Slots.addCriteria (before ++ a.slot :: after) i criteria =
      some (before ++ (Addition.mk (a.criteria ++ criteria) a.columns).slot :: after) := by
  cases criteria with
  | nil => simp [addCriteria]
  | cons c criteria =>
    rw [addCriteria, if_neg (by simp), change_at hi]
    simp [Addition.slot, Addition.isEmpty]

theorem setColumns_at (criteria : List Criteria) (columns : Option (List ColumnRef)) :
    Slots.setColumns (before ++ (Addition.mk criteria none).slot :: after) i columns =
      some (before ++ (Addition.mk criteria columns).slot :: after) := by
  cases columns with
  | none => rfl
  | some columns =>
    rw [setColumns, change_at hi]
    simp [Addition.slot, Addition.isEmpty]

end Drafted.Slots

open Drafted

namespace Session

variable {s : Session} {joins : List Join} {arena : List Draft}

/-! ## Slots -/

/-- What callers and tables add to a step. -/
def own (schema : Schema) (step : Step) : Addition :=
  ⟨step.criteria.toList ++
      (schema.table (schema.association step.association).destination).criteria, step.columns⟩

theorem enterOwn_spread (joins : List Join) (arena : List Draft) (schema : s.schema.WellFormed)
    {path : List Step} (there : Step.AllAlong s.schema path) (before : Slots) {i : ℕ}
    (hi : before.length = i + 1) :
    (s.spread joins arena).enterOwn
        (before ++ List.replicate path.length (Addition.mk [] none).slot) i path =
      some (before ++ path.map fun step => (own s.schema step).slot) := by
  induction path generalizing before i with
  | nil => rfl
  | cons step path ih =>
    obtain ⟨hstep, hpath⟩ := List.forall_mem_cons.1 there
    have hrest := ih hpath (before ++ [(own s.schema step).slot]) (i := i + 1)
      (by rw [List.length_append, hi, List.length_singleton])
    rw [← List.append_cons, ← List.append_cons] at hrest
    rw [List.length_cons, List.replicate_succ, enterOwn]
    simp only [Slots.addCriteria_at hi, association?_spread hstep,
      table?_spread (schema.isSound hstep).destination, Slots.setColumns_at hi,
      Option.bind_eq_bind, Option.bind_some, List.nil_append]
    exact hrest

theorem enterDiscriminators_spread (joins : List Join) {path : List Step}
    (there : Step.AllAlong s.schema path)
    (known : ∀ step ∈ path, ∀ id ∈ step.placement, id.index < s.placements.length)
    (before : Slots) {i : ℕ} (hi : before.length = i + 1) (origin : String) :
    enterDiscriminators (before ++ path.map fun step => (own s.schema step).slot) i origin path
        (s.spread joins s.drafts) =
      some (before ++ (s.additionsFrom origin path).1.map Addition.slot,
        (s.additionsFrom origin path).2.spread joins s.drafts) := by
  induction path generalizing s before i origin with
  | nil => rfl
  | cons step path ih =>
    obtain ⟨hstep, hpath⟩ := List.forall_mem_cons.1 there
    obtain ⟨hid, hknown⟩ := List.forall_mem_cons.1 known
    have hi' : (before ++ [(addition s.schema origin step).slot]).length = i + 1 + 1 := by
      rw [List.length_append, hi, List.length_singleton]
    have each (t : Session) (name : String) (pool : AliasPool)
        (ht : t = { s with joinAliases := pool }) :
        enterDiscriminators (before ++ (addition s.schema origin step).slot ::
            path.map fun step => (own s.schema step).slot) (i + 1) name path
            (t.spread joins s.drafts) =
          some (before ++ (addition s.schema origin step).slot ::
            (t.additionsFrom name path).1.map Addition.slot,
            (t.additionsFrom name path).2.spread joins s.drafts) := by
      subst ht
      have h := ih (s := { s with joinAliases := pool }) hpath hknown _ hi' name
      rwa [← List.append_cons, ← List.append_cons] at h
    rw [List.map_cons, enterDiscriminators]
    simp only [association?_spread hstep, Slots.addCriteria_at hi, Option.bind_eq_bind,
      Option.bind_some, additionsFrom]
    cases hplacement : step.placement with
    | none => exact each s origin s.joinAliases rfl
    | some id =>
      obtain ⟨pool, hpool⟩ := s.terminalAlias_frame id
      simp only [terminalAlias_spread (hid id hplacement), Option.bind_some]
      exact each _ _ pool hpool

/-- The slots of a path hold what its steps add; that of the base table stays empty. -/
theorem slots_spread (joins : List Join) (schema : s.schema.WellFormed) {path : List Step}
    (there : Step.AllAlong s.schema path)
    (known : ∀ step ∈ path, ∀ id ∈ step.placement, id.index < s.placements.length) :
    (s.spread joins s.drafts).slots path =
      some (none :: (s.additions path).1.map Addition.slot,
        (s.additions path).2.spread joins s.drafts) := by
  have hown := enterOwn_spread joins s.drafts schema there [none] (i := 0) rfl
  have hdiscriminators := enterDiscriminators_spread joins there known [none] (i := 0) rfl
    s.tableAlias
  rw [slots]
  exact (congrArg (Option.bind · _) hown).trans hdiscriminators

/-! ## Attaching -/

/-- The joins when the steps `after` of the last one are still to be attached. -/
def underway (joins : List Join) (before after : List Step) (fetch : Bool) : List Join :=
  joins ++ [⟨before ++ after, fetch⟩]

theorem criteriaToAttach_spread (s : Session) (joins : List Join) (arena : List Draft) (step : Step)
    (a : Addition) : (s.spread joins arena).session.criteriaToAttach step a =
      ((s.criteriaToAttach step a).1,
        ((s.criteriaToAttach step a).2.spread joins arena).session) := by
  unfold criteriaToAttach markComposed
  cases step.placement with
  | none => rfl
  | some id => by_cases h : id ∈ s.composed <;> simp [spread, h]

section
variable {before : List Step} (after : List Step) {step : Step} (fetch : Bool) {i j : ℕ}
  (hj : joins.length = j) (hi : before.length = i)
include hj hi

theorem step?_underway :
    (s.spread (underway joins before (step :: after) fetch) arena).step? j i = some step := by
  subst hj hi
  simp [step?, spread, underway]

theorem modifyStep_underway (s : Session) (arena : List Draft) (step : Step) (f : Step → Step) :
    (s.spread (underway joins before (step :: after) fetch) arena).modifyStep j i f =
      some (s.spread (underway joins before (f step :: after) fetch) arena) := by
  subst hj hi
  simp [modifyStep, spread, underway]

variable (known : ∀ id ∈ step.placement, id.index < s.placements.length)
include known

theorem applyOn_spread (criteria : Criteria) :
    (s.spread (underway joins before (step :: after) fetch) s.drafts).applyOn j i criteria =
      some ((s.applyOn step criteria).2.spread
        (underway joins before ((s.applyOn step criteria).1 :: after) fetch) s.drafts) := by
  rw [Drafted.applyOn, step?_underway after fetch hj hi, applyOn]
  cases hplacement : step.placement with
  | none => simp only [Option.bind_eq_bind, Option.bind_some, hplacement]
  | some id =>
    let bound := (s.terminalAlias id).2.bindLiterals (criteria.qualify (s.terminalAlias id).1)
    have hmodify := modifyStep_underway after fetch hj hi
      (bound.2.report (.criteriaComposed (s.terminalAlias id).1 bound.1)) s.drafts step
      fun step => { step with criteria := some bound.1 }
    rw [hplacement] at hmodify
    simp only [Option.bind_eq_bind, Option.bind_some, hplacement,
      terminalAlias_spread (known id hplacement)]
    exact hmodify

theorem applyColumns_spread (columns : List ColumnRef) :
    (s.spread (underway joins before (step :: after) fetch) s.drafts).applyColumns j i columns =
      some ((s.applyColumns step columns).2.spread
        (underway joins before ((s.applyColumns step columns).1 :: after) fetch) s.drafts) := by
  rw [Drafted.applyColumns, step?_underway after fetch hj hi, applyColumns]
  cases hplacement : step.placement with
  | none => simp only [Option.bind_eq_bind, Option.bind_some, hplacement]
  | some id =>
    have hmodify := modifyStep_underway after fetch hj hi (s.terminalAlias id).2 s.drafts step
      fun step => { step with columns := some (columns.map (.withAlias (s.terminalAlias id).1)) }
    rw [hplacement] at hmodify
    simp only [Option.bind_eq_bind, Option.bind_some, hplacement,
      terminalAlias_spread (known id hplacement)]
    exact hmodify

theorem attachCriteria_spread (criteria : List Criteria) :
    (s.spread (underway joins before (step :: after) fetch) s.drafts).attachCriteria j i criteria =
      some ((s.attachCriteria step criteria).2.spread
        (underway joins before ((s.attachCriteria step criteria).1 :: after) fetch) s.drafts) := by
  unfold Drafted.attachCriteria attachCriteria
  split
  · rfl
  · exact applyOn_spread after fetch hj hi known _

theorem attachColumns_spread (columns : Option (List ColumnRef)) :
    (s.spread (underway joins before (step :: after) fetch) s.drafts).attachColumns j i columns =
      some ((s.attachColumns step columns).2.spread
        (underway joins before ((s.attachColumns step columns).1 :: after) fetch) s.drafts) := by
  cases columns with
  | none => rfl
  | some columns => exact applyColumns_spread after fetch hj hi known columns

/-- What is attached to a step of the last join changes it there. -/
theorem attach_spread {resolved : List Step} (hresolved : resolved[i]? = some step) {a : Addition}
    (filled : a.isEmpty = false) :
    (s.spread (underway joins before (step :: after) fetch) s.drafts).attach j resolved (i + 1) a =
      some ((s.attach step a).2.spread
        (underway joins before ((s.attach step a).1 :: after) fetch) s.drafts) := by
  obtain ⟨composed, hcomposed⟩ := s.criteriaToAttach_frame step a
  rw [Drafted.attach]
  simp only [previous?, hresolved, criteriaToAttach_spread, attach, filled, Option.bind_eq_bind,
    Option.bind_some, Bool.false_eq_true, if_false]
  generalize s.criteriaToAttach step a = r at hcomposed ⊢
  obtain ⟨criteria, t⟩ := r
  obtain rfl : t = _ := hcomposed
  have hcriteria := attachCriteria_spread (s := { s with composed := composed }) after fetch
    hj hi known criteria
  have hkey := congrArg Prod.snd (attachCriteria_key { s with composed := composed } step criteria)
  obtain ⟨pool, bindings, log, hframe⟩ :=
    attachCriteria_frame { s with composed := composed } step criteria
  refine (congrArg (Option.bind · _) hcriteria).trans ?_
  dsimp only
  generalize attachCriteria { s with composed := composed } step criteria = r at hkey hframe ⊢
  obtain ⟨attached, u⟩ := r
  obtain rfl : u = _ := hframe
  have hplacement : attached.placement = step.placement := hkey
  refine attachColumns_spread
    (s := { s with composed := composed, joinAliases := pool, bindings := bindings, log := log })
    after fetch hj hi ?_ a.columns
  rw [hplacement]
  exact known

end

/-- The steps of the last join are attached in place, one after the other. -/
theorem attachAll_spread (joins : List Join) (done before : List Step) {steps : List Step}
    {adds : List Addition} (fetch : Bool) {i j : ℕ} (hj : joins.length = j)
    (hi : before.length = i) (hdone : done.length = i) (hlen : steps.length = adds.length)
    (known : ∀ step ∈ steps, ∀ id ∈ step.placement, id.index < s.placements.length) :
    Drafted.attachAll j (done ++ steps) (i + 1) (adds.map Addition.slot)
        (s.spread (underway joins before steps fetch) s.drafts) =
      some ((s.attachAll (steps.zip adds)).2.spread
        (underway joins before (s.attachAll (steps.zip adds)).1 fetch) s.drafts) := by
  induction steps generalizing s done before adds i with
  | nil =>
    obtain rfl : adds = [] := List.length_eq_zero_iff.1 hlen.symm
    rfl
  | cons step steps ih =>
    obtain ⟨a, adds, rfl⟩ := List.exists_cons_of_length_eq_add_one hlen.symm
    obtain ⟨hstep, hsteps⟩ := List.forall_mem_cons.1 known
    have hrest (attached : Step) : Drafted.attachAll j (done ++ step :: steps) (i + 1 + 1)
        (adds.map Addition.slot)
        ((s.attach step a).2.spread (underway joins before (attached :: steps) fetch) s.drafts) =
          some (((s.attach step a).2.attachAll (steps.zip adds)).2.spread
            (underway joins before (attached :: ((s.attach step a).2.attachAll (steps.zip adds)).1)
              fetch) s.drafts) := by
      obtain ⟨pool, bindings, log, composed, hframe⟩ := s.attach_frame step a
      rw [hframe]
      have h := ih (s := { s with
          joinAliases := pool, bindings := bindings, log := log, composed := composed })
        (done ++ [step]) (before ++ [attached]) (i := i + 1) (by simp [hi])
        (by simp [hdone]) (Nat.succ.inj hlen) hsteps
      rw [← List.append_cons, underway, ← List.append_cons, underway, ← List.append_cons] at h
      exact h
    have hresolved : (done ++ step :: steps)[i]? = some step := by
      rw [← hdone, List.getElem?_append_right (Nat.le_refl _), Nat.sub_self]
      rfl
    cases hempty : a.isEmpty with
    | true =>
      have hattach : s.attach step a = (step, s) := if_pos hempty
      have hslot : a.slot = none := if_pos hempty
      simp only [List.map_cons, List.zip_cons_cons, hslot, Drafted.attachAll, attachAll]
      rw [hattach] at hrest ⊢
      exact hrest step
    | false =>
      have hslot : a.slot = some a := if_neg (by simp [hempty])
      simp only [List.map_cons, List.zip_cons_cons, hslot, Drafted.attachAll, attachAll]
      rw [attach_spread steps fetch hj hi hstep hresolved hempty]
      exact hrest (s.attach step a).1

/-! ## Joining -/

theorem allAlong_resolve {path : List Step} (there : Step.AllAlong s.schema path) :
    Step.AllAlong s.schema (s.resolve path).1 := by
  intro step hstep
  have hmem : step.association ∈ Step.associations path := by
    rw [← s.associations_resolve path]
    exact List.mem_map_of_mem hstep
  obtain ⟨old, hold, heq⟩ := List.mem_map.1 hmem
  rw [← heq]
  exact there old hold

theorem Bounded.resolve_lt (hs : s.Bounded) (path : List Step) :
    ∀ step ∈ (s.resolve path).1, ∀ id ∈ step.placement,
      id.index < (s.resolve path).2.placements.length := by
  intro step hstep id hid
  obtain ⟨id', _, _, hid', hstands⟩ := hs.routed.resolve_standing hstep
  obtain rfl := Option.some.inj (hid.symm.trans hid')
  exact hstands.index_lt

theorem drafts_additions (s : Session) (path : List Step) :
    (s.additions path).2.drafts = s.drafts := by
  obtain ⟨_, h⟩ := s.additions_frame path
  rw [h]
  rfl

theorem Bounded.joinTo_drafted (hs : s.Bounded) {path : List Step}
    (there : Step.AllAlong s.schema path) (depth : ℕ) (fetch : Bool) :
    Drafted.joinTo (depth + 2) s.drafted path fetch = some (s.joinTo path fetch).drafted := by
  rw [Drafted.joinTo, hs.addJoin_drafted there, Option.bind_eq_bind, Option.bind_some]
  by_cases hne : path = []
  · subst hne
    rfl
  · rw [s.joinTo_of_ne_nil hne]
    have hschema : (s.resolve path).2.schema = s.schema := (s.extends_resolve path).schema
    have hknown := hs.resolve_lt path
    have hslots := slots_spread (s := (s.resolve path).2)
      (underway (s.resolve path).2.joins [] (s.resolve path).1 fetch)
      (by rw [hschema]; exact hs.schema) (by rw [hschema]; exact allAlong_resolve there) hknown
    obtain ⟨pool, ha⟩ := (s.resolve path).2.additions_frame (s.resolve path).1
    have hlen := (additionsFrom_fst (s.resolve path).2 (s.resolve path).2.tableAlias
      (s.resolve path).1).length_eq
    have hattach := attachAll_spread (s := ((s.resolve path).2.additions (s.resolve path).1).2)
      (s.resolve path).2.joins [] [] fetch rfl rfl rfl hlen (by rw [ha]; exact hknown)
    rw [drafts_additions] at hattach
    have hjoin : s.addJoin path fetch = (some ⟨(s.resolve path).1, fetch⟩,
        (s.resolve path).2.addResolved (s.resolve path).1 fetch) := by
      rw [addJoin, if_neg (by simpa using hne)]
    have hposition : previous? ((s.resolve path).2.addResolved (s.resolve path).1
        fetch).drafted.session.joins.length = some (s.resolve path).2.joins.length := by
      simp [drafted, spread, addResolved, previous?]
    have hcomposed : ((s.compose path).2.addResolved (s.compose path).1 fetch).drafted =
        (s.compose path).2.spread (underway (s.resolve path).2.joins [] (s.compose path).1 fetch)
          (s.resolve path).2.drafts := by
      obtain ⟨_, _, _, _, hframe⟩ := s.compose_frame path
      have hjoins : (s.compose path).2.joins = (s.resolve path).2.joins := by rw [hframe]
      have hdrafts : (s.compose path).2.drafts = (s.resolve path).2.drafts := by rw [hframe]; rfl
      show (s.compose path).2.spread ((s.compose path).2.joins ++ _) (s.compose path).2.drafts = _
      rw [hjoins, hdrafts]
      rfl
    rw [hjoin]
    dsimp only
    rw [hposition, Option.bind_eq_bind, Option.bind_some, hcomposed]
    exact (congrArg (Option.bind · _) hslots).trans hattach

end Session

end JoinPath
