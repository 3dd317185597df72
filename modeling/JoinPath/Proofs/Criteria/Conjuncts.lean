import JoinPath.Proofs.Criteria.Leaves
import JoinPath.Session.Hops
/-!
# Conjuncts

A condition is the conjunction of its conjuncts, which nested `AND`s give. Adding a condition to
another appends its conjuncts, unless they stand there already (`conjuncts_mergeCriteria`).
-/

namespace JoinPath

namespace Criteria

mutual

/-- What a condition is the conjunction of, with nested `AND`s taken apart. -/
def conjuncts : Criteria → List Criteria
  | group .and members => conjunctsAll members
  | c => [c]

def conjunctsAll : List Criteria → List Criteria
  | [] => []
  | c :: cs => conjuncts c ++ conjunctsAll cs

end

theorem conjunctsAll_eq_flatMap (cs : List Criteria) : conjunctsAll cs = cs.flatMap conjuncts :=
  eq_flatMap_of_cons rfl (fun _ _ => rfl) cs

theorem conjuncts_group_and (cs : List Criteria) :
    conjuncts (group .and cs) = cs.flatMap conjuncts := by
  rw [conjuncts, conjunctsAll_eq_flatMap]

theorem conjuncts_and (cs : List Criteria) : conjuncts (and cs) = cs.flatMap conjuncts := by
  match cs with
  | [] => exact conjuncts_group_and []
  | [c] => simp [and, combine]
  | c :: d :: cs => exact conjuncts_group_and (c :: d :: cs)

theorem conjuncts_and_pair (c d : Criteria) :
    (and [c, d]).conjuncts = c.conjuncts ++ d.conjuncts := by
  rw [conjuncts_and, List.flatMap_cons, List.flatMap_singleton]

/-- What is collected from a condition is what its conjuncts give. -/
theorem Collects.conjuncts {α : Type} {f : Criteria → List α} (h : Collects f) (c : Criteria) :
    c.conjuncts.flatMap f = f c := by
  induction c using induction_members with
  | group op cs ih =>
    cases op with
    | and =>
      rw [conjuncts_group_and, h.group, List.flatMap_assoc]
      exact List.flatMap_congr ih
    | or => exact List.flatMap_singleton _ _
    | not => exact List.flatMap_singleton _ _
  | _ => exact List.flatMap_singleton _ _

/-! ## Equal conditions -/

theorem beqAll_iff {cs ds : List Criteria} :
    beqAll cs ds = true ↔ List.Forall₂ (fun c d => beq c d = true) cs ds := by
  induction cs generalizing ds with
  | nil => cases ds <;> simp [beqAll]
  | cons c cs ih => cases ds <;> simp [beqAll, ih]

theorem beqAll_singleton {c d : Criteria} (h : beq c d = true) : beqAll [c] [d] = true := by
  simp only [beqAll, h, Bool.and_self]

/-- Equal conditions have equal conjuncts. -/
theorem beqAll_conjuncts {c d : Criteria} (h : beq c d = true) :
    beqAll c.conjuncts d.conjuncts = true := by
  induction c using induction_members generalizing d with
  | group op cs ih =>
    cases d with
    | group op' ds =>
      have hparts : op = op' ∧ beqAll cs ds = true := by simpa [beq] using h
      obtain ⟨rfl, hall⟩ := hparts
      cases op with
      | and =>
        rw [conjuncts_group_and, conjuncts_group_and]
        exact beqAll_iff.2 <| forall₂_flatMap (beqAll_iff.1 hall) fun c hc d hcd =>
          beqAll_iff.1 (ih c hc hcd)
      | or => exact beqAll_singleton h
      | not => exact beqAll_singleton h
    | _ => simp [beq] at h
  | comparison op cs =>
    cases d with
    | comparison op' ds => exact beqAll_singleton h
    | _ => simp [beq] at h
  | literal value =>
    cases d with
    | literal w => exact beqAll_singleton h
    | _ => simp [beq] at h
  | param name =>
    cases d with
    | param n => exact beqAll_singleton h
    | _ => simp [beq] at h
  | subquery select =>
    cases d with
    | subquery t => exact beqAll_singleton h
    | _ => simp [beq] at h
  | column ref =>
    cases d with
    | column r => exact beqAll_singleton h
    | _ => simp [beq] at h

/-- The conjuncts of a condition that may be missing. -/
def conjunctsOf (on : Option Criteria) : List Criteria := on.elim [] conjuncts

/-- The conjuncts of a condition stand among others in a row, up to equality. -/
def StandsIn (extra : Criteria) (present : List Criteria) : Prop :=
  ∃ before row after, present = before ++ row ++ after ∧
    (beqAll row extra.conjuncts = true ∨ beqAll extra.conjuncts row = true)

/-- Conditions are added to conjuncts one after the other; one that stands there already may be
left out. -/
inductive Conjoined : List Criteria → List Criteria → List Criteria → Prop
  | nil (present : List Criteria) : Conjoined present [] present
  | add {present extras result : List Criteria} {extra : Criteria} :
    Conjoined (present ++ extra.conjuncts) extras result →
      Conjoined present (extra :: extras) result
  | keep {present extras result : List Criteria} {extra : Criteria} :
    StandsIn extra present → Conjoined present extras result →
      Conjoined present (extra :: extras) result

/-- Nothing else comes in. -/
theorem Conjoined.subset {present extras result : List Criteria}
    (h : Conjoined present extras result) : result ⊆ present ++ extras.flatMap conjuncts := by
  induction h with
  | nil present => exact List.subset_append_left _ _
  | add _ ih => rwa [List.flatMap_cons, ← List.append_assoc]
  | @keep present extras _ extra _ _ ih =>
    intro c hc
    rcases List.mem_append.1 (ih hc) with hpresent | hextra
    · exact List.mem_append_left _ hpresent
    · exact List.mem_append_right _ (List.mem_append_right _ hextra)

/-- What is there stays in front. -/
theorem Conjoined.present_prefix {present extras result : List Criteria}
    (h : Conjoined present extras result) : present <+: result := by
  induction h with
  | nil present => exact List.prefix_refl _
  | add _ ih => exact (List.prefix_append _ _).trans ih
  | keep _ _ ih => exact ih

theorem Conjoined.present_subset {present extras result : List Criteria}
    (h : Conjoined present extras result) : present ⊆ result :=
  h.present_prefix.subset

theorem standsIn_of_mem {extra c : Criteria} {cs : List Criteria} (hc : c ∈ cs)
    (h : beq extra c = true) : StandsIn extra (cs.flatMap conjuncts) := by
  obtain ⟨before, after, rfl⟩ := List.append_of_mem hc
  refine ⟨before.flatMap conjuncts, c.conjuncts, after.flatMap conjuncts, ?_,
    .inr (beqAll_conjuncts h)⟩
  rw [List.flatMap_append, List.flatMap_cons, List.append_assoc]

theorem conjuncts_append_to (members : List Criteria) (extra : Criteria) :
    (group .and (if members.contains extra then members else members ++ [extra])).conjuncts =
        (group .and members).conjuncts ++ extra.conjuncts ∨
      (group .and (if members.contains extra then members else members ++ [extra])).conjuncts =
        (group .and members).conjuncts ∧ StandsIn extra (group .and members).conjuncts := by
  by_cases h : members.contains extra = true
  · rw [if_pos h, conjuncts_group_and]
    obtain ⟨c, hc, heq⟩ := List.contains_iff_exists_mem_beq.1 h
    exact .inr ⟨rfl, standsIn_of_mem hc heq⟩
  · rw [if_neg h, conjuncts_group_and, conjuncts_group_and, List.flatMap_append]
    exact .inl (congrArg _ (List.flatMap_singleton _ _))

/-- Merging a condition appends its conjuncts or finds them there. -/
theorem conjuncts_mergeCriteria (on : Option Criteria) (extra : Criteria) :
    (Hop.mergeCriteria on extra).conjuncts = conjunctsOf on ++ extra.conjuncts ∨
      (Hop.mergeCriteria on extra).conjuncts = conjunctsOf on ∧
        StandsIn extra (conjunctsOf on) := by
  cases on with
  | none => exact .inl rfl
  | some on =>
    unfold Hop.mergeCriteria
    dsimp only
    split
    · next h =>
      refine .inr ⟨rfl, [], on.conjuncts, [], ?_, .inl (beqAll_conjuncts h)⟩
      rw [List.nil_append, List.append_nil]
      rfl
    · cases on with
      | group op members =>
        cases op with
        | and => exact conjuncts_append_to members extra
        | or => exact .inl (conjuncts_and_pair _ extra)
        | not => exact .inl (conjuncts_and_pair _ extra)
      | _ => exact .inl (conjuncts_and_pair _ extra)

end Criteria

end JoinPath
