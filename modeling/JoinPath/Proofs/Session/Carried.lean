import JoinPath.Proofs.Session.Bound
/-!
# What the conditions of a statement take over

A structural property that all conditions have which were handed over to a session, or written for
a table, is one of all conditions in its statements (`everywhere_of_mem_conditions`): qualifying
columns and naming literals keep it, and so does joining conditions by `AND`.
-/

namespace JoinPath

open Criteria (Everywhere IsStructural)

variable {P : Criteria → Prop}

namespace Criteria

theorem IsStructural.conjunction_eq (hP : IsStructural P) {tableAlias : String}
    {cs : List Criteria} {o : Criteria} (ho : Criteria.conjunction tableAlias cs = some o)
    (h : ∀ c ∈ cs, c.Everywhere P) : o.Everywhere P := by
  cases cs with
  | nil => cases ho
  | cons c cs =>
    obtain rfl := Option.some.inj ho
    exact hP.mapColumns _ (hP.and (List.cons_ne_nil c cs) h)

theorem IsStructural.discriminator (hP : IsStructural P) {a : Association} {origin : String}
    {c : Criteria} (h : c ∈ a.discriminatorCriteria origin) : c.Everywhere P := by
  obtain ⟨d, -, ref, rfl⟩ := Association.exists_discriminator h
  refine everywhere_comparison.2 ⟨hP.equation _ _, ?_⟩
  simp [hP.column, hP.literal]

/-- Merging two conditions keeps a structural property. -/
theorem IsStructural.mergeCriteria (hP : IsStructural P) {on : Option Criteria} {extra : Criteria}
    (hon : ∀ c ∈ on, c.Everywhere P) (hextra : extra.Everywhere P) :
    (Hop.mergeCriteria on extra).Everywhere P := by
  have pair (c : Criteria) (hc : c.Everywhere P) : (Criteria.and [c, extra]).Everywhere P :=
    hP.and (List.cons_ne_nil _ _) (by simp [hc, hextra])
  unfold Hop.mergeCriteria
  split
  · exact hextra
  · next c =>
    have hc := hon c rfl
    split
    · exact hc
    · split
      · next members =>
        have hmembers := hc.contents
        split
        · exact hc
        · refine everywhere_group.2 ⟨hP.conjunction _ (by simp), ?_⟩
          exact List.forall_mem_append.2 ⟨hmembers, List.forall_mem_singleton.2 hextra⟩
      · exact pair _ hc

end Criteria

namespace Session

variable {s : Session} {schema : Schema} {passed : List Criteria}

/-! ## Hops -/

theorem everywhere_restrictBy (hP : IsStructural P) {h : Hop Criteria} {v : Visit}
    (hon : ∀ c ∈ h.on, c.Everywhere P) (hv : ∀ c ∈ v.step.criteria, c.Everywhere P) :
    ∀ c ∈ (h.restrictBy v).on, c.Everywhere P := by
  unfold Hop.restrictBy
  cases hcriteria : v.step.criteria with
  | none => exact hon
  | some extra =>
    intro c hc
    obtain rfl := Option.some.inj hc
    exact hP.mergeCriteria hon (hv extra hcriteria)

theorem everywhere_foldl (hP : IsStructural P) {h : Hop Criteria} {later : List Visit}
    (hon : ∀ c ∈ h.on, c.Everywhere P)
    (hlater : ∀ v ∈ later, ∀ c ∈ v.step.criteria, c.Everywhere P) :
    ∀ c ∈ (later.foldl Hop.restrictBy h).on, c.Everywhere P := by
  induction later generalizing h with
  | nil => exact hon
  | cons v later ih =>
    obtain ⟨hv, hrest⟩ := List.forall_mem_cons.1 hlater
    exact ih (everywhere_restrictBy hP hon hv) hrest

/-- What holds of the conditions of all visits holds of those of the hops. -/
theorem everywhere_of_mem_hops (hP : IsStructural P)
    (visits : ∀ v ∈ s.visits, ∀ c ∈ v.step.criteria, c.Everywhere P) :
    ∀ h ∈ s.hops, ∀ c ∈ h.on, c.Everywhere P := by
  intro h hh
  obtain ⟨⟨owner, hop⟩, hmem, rfl⟩ := List.mem_map.1 hh
  obtain ⟨v, later, hsharing, hcase⟩ := placedHops_cases hmem
  have hvisits : ∀ w ∈ v :: later, ∀ c ∈ w.step.criteria, c.Everywhere P := by
    intro w hw
    rw [← hsharing] at hw
    exact visits w (List.mem_filter.1 hw).1
  obtain ⟨hfirst, hlater⟩ := List.forall_mem_cons.1 hvisits
  obtain ⟨-, rfl⟩ | ⟨-, first, rfl⟩ := hcase
  · exact everywhere_foldl hP hfirst hlater
  · exact fun c hc => (nomatch hc)

/-! ## Compositions -/

/-- A condition that was composed for a statement. -/
theorem IsComposition.everywhere (hP : IsStructural P)
    (written : ∀ w, IsWritten schema passed w → w.Everywhere P) {c : Composition}
    (hc : IsComposition schema passed c) (hplace : c.place ≠ .caller) :
    ∀ d ∈ c.composed, d.Everywhere P := by
  intro d hd
  obtain ⟨a, b, hmade⟩ := hc.isMade
  rw [Composition.NamedFrom, Option.mem_def.1 hd] at hmade
  obtain ⟨o, ho, rfl⟩ := Option.map_eq_some_iff.1 hmade.symm
  obtain ⟨tableAlias, cs, hconjunction, hparts⟩ := hc.exists_parts hplace ho
  have horiginal : o.Everywhere P := by
    refine hP.conjunction_eq hconjunction fun w hw => ?_
    rcases hparts w hw with hpassed | htable | ⟨association, origin, hdiscriminator⟩
    · exact written w (.inl hpassed)
    · exact written w (.inr htable)
    · exact hP.discriminator hdiscriminator
  have hnamed : Criteria.IsNamed o (o.bindLiterals a b).1 := ⟨a, b, rfl⟩
  exact hP.filled hnamed.filled horiginal

/-- The conditions that a call records with a join and does not compose. -/
def Call.uncomposed : Call → List Criteria
  | .addJoin path _ => path.filterMap Step.criteria
  | _ => []

/-- The conditions that a call hands over for a statement. -/
def handed (s : Session) (call : Call) : List Criteria := s.passed call ++ call.uncomposed

/-- The conditions that the calls of a run hand over for its statements. -/
def handedIn (s : Session) (calls : List Call) : List Criteria := along perform handed s calls

theorem visits_addJoin {path : List Step} {fetch : Bool} {v : Visit}
    (hv : v ∈ (s.addJoin path fetch).2.visits) :
    v ∈ s.visits ∨ v.step.criteria.toList ⊆ path.filterMap Step.criteria := by
  unfold addJoin at hv
  split at hv
  · exact .inl hv
  · dsimp only [addResolved] at hv
    rw [visits, List.flatMap_append, joins_resolve, List.flatMap_singleton] at hv
    refine (List.mem_append.1 hv).imp_right fun hv => ?_
    obtain ⟨step, hstep, hplaced⟩ := List.mem_filterMap.1 hv
    obtain ⟨id, -, rfl⟩ := Option.map_eq_some_iff.1 hplaced
    obtain ⟨q, hq, id', rfl⟩ := exists_mem_of_forall₂ (s.resolve_steps path).flip hstep
    exact fun c hc => List.mem_filterMap.2 ⟨q, hq, Option.mem_toList.1 hc⟩

/-- What a call adds to the visits has the property if all conditions that it was handed have. -/
theorem everywhere_visits_perform (hP : IsStructural P) {call : Call}
    (written : ∀ w, IsWritten s.schema (s.handed call) w → w.Everywhere P)
    (visits : ∀ v ∈ s.visits, ∀ c ∈ v.step.criteria, c.Everywhere P) :
    ∀ v ∈ (s.perform call).visits, ∀ c ∈ v.step.criteria, c.Everywhere P := by
  intro v hv c hc
  by_cases hcall : ∃ path fetch, call = .addJoin path fetch
  · obtain ⟨path, fetch, rfl⟩ := hcall
    rcases visits_addJoin hv with hold | hnew
    · exact visits v hold c hc
    · exact written c (.inl (List.mem_append_right _ (hnew (Option.mem_toList.2 hc))))
  · have hcomposed := s.visits_perform fun path fetch h => hcall ⟨path, fetch, h⟩
    have hmem : (v.id, v.step.criteria) ∈ (s.perform call).visitConditions :=
      List.mem_map.2 ⟨v, hv, rfl⟩
    rw [hcomposed] at hmem
    rcases List.mem_append.1 hmem with hold | hnew
    · obtain ⟨w, hw, heq⟩ := List.mem_map.1 hold
      exact visits w hw c ((congrArg Prod.snd heq).trans hc)
    · obtain ⟨d, hd, hhop⟩ := List.mem_filterMap.1 hnew
      unfold Composition.forHop at hhop
      split at hhop
      · next hplace =>
        obtain ⟨-, hcriteria⟩ := Prod.mk.inj (Option.some.inj hhop)
        refine (isComposition_of_mem_of hd).everywhere hP (fun w hw => ?_) ?_ c (hcriteria ▸ hc)
        · exact written w (hw.imp_left fun hpassed => List.mem_append_left _ hpassed)
        · rw [hplace]
          exact nofun
      · cases hhop

theorem everywhere_visits_run (hP : IsStructural P) {calls : List Call}
    (written : ∀ w, IsWritten s.schema (s.handedIn calls) w → w.Everywhere P)
    (visits : ∀ v ∈ s.visits, ∀ c ∈ v.step.criteria, c.Everywhere P) :
    ∀ v ∈ (s.run calls).visits, ∀ c ∈ v.step.criteria, c.Everywhere P := by
  induction calls generalizing s with
  | nil => exact visits
  | cons call calls ih =>
    have hschema : (s.perform call).schema = s.schema := (s.sameTable_perform call).1
    refine ih (fun w hw => written w ?_) (everywhere_visits_perform hP (fun w hw => ?_) visits)
    · rw [hschema] at hw
      exact hw.imp_left fun h => List.mem_append_right _ h
    · exact written w (hw.imp_left fun h => List.mem_append_left _ h)

theorem passedIn_subset_handedIn (s : Session) (calls : List Call) :
    s.passedIn calls ⊆ s.handedIn calls :=
  along_mono fun _ _ => List.subset_append_left _ _

/-- A structural property of all that was handed over or written for a table is one of all
conditions of a statement. -/
theorem everywhere_of_mem_conditions (hP : IsStructural P) {table : TableId} {calls : List Call}
    (written : ∀ w, IsWritten schema ((new schema table).handedIn calls) w → w.Everywhere P)
    (columns : List String) :
    ∀ c ∈ (((new schema table).run calls).select columns).1.conditions, c.Everywhere P := by
  have hend := (new schema table).select_snd_run calls columns
  have hhanded : (new schema table).handedIn (calls ++ [.select columns]) =
      (new schema table).handedIn calls := by
    rw [handedIn, along_append]
    exact List.append_nil _
  rw [← hhanded] at written
  refine Select.forall_conditions.2 ⟨?_, ?_⟩
  · have hfilter := (filterFrom_new schema table).run (calls ++ [.select columns])
    rw [← hend] at hfilter
    obtain ⟨c, hlast, hcomposed⟩ := hfilter ((new schema table).run calls).filterSet_ensureFilter
    obtain ⟨hc, hplace⟩ := List.mem_filter.1 (List.mem_of_getLast? hlast)
    intro d hd
    refine (isComposition_of_mem hc).everywhere hP (fun w hw => written w ?_) ?_ d (hcomposed ▸ hd)
    · exact hw.imp_left fun h => passedIn_subset_handedIn _ _ h
    · rw [of_decide_eq_true hplace]
      exact nofun
  · have hvisits := everywhere_visits_run hP written fun v hv => absurd hv List.not_mem_nil
    rw [← hend] at hvisits
    exact everywhere_of_mem_hops hP hvisits

end Session

end JoinPath
