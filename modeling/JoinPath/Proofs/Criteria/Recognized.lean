import JoinPath.Proofs.Criteria.Restored
/-!
# Recognized conditions

A settled condition, one without literals and subqueries, equals itself alone. Merging it changes
nothing exactly if it is a part of what is there: all of it, or a member of its `AND`
(`some_mergeCriteria_eq_iff`). Once merged it is a part, and it stays one whatever is merged later,
unless it is an `AND` itself (`HasPart.merge`); of such a one the conjuncts stay
(`Conjoined.mem_of_isSettled`).
-/

namespace JoinPath.Criteria

variable {c d extra : Criteria} {on : Option Criteria}

/-! ## Settled conditions -/

/-- Nothing is left to be bound: outside subqueries there is no literal, and there is no
subquery. -/
def IsSettled (c : Criteria) : Prop := c.literals = [] ∧ c.subqueries = []

theorem collects_subqueries : Collects subqueries := collects_leaves.filterMap subquery?

theorem isSettled_comparison {op : Operator} {cs : List Criteria} :
    (comparison op cs).IsSettled ↔ ∀ c ∈ cs, c.IsSettled := by
  rw [IsSettled, collects_literals.comparison, collects_subqueries.comparison,
    List.flatMap_eq_nil_iff, List.flatMap_eq_nil_iff, ← forall₂_and]
  exact Iff.rfl

theorem isSettled_group {op : Connective} {cs : List Criteria} :
    (group op cs).IsSettled ↔ ∀ c ∈ cs, c.IsSettled := by
  rw [IsSettled, collects_literals.group, collects_subqueries.group, List.flatMap_eq_nil_iff,
    List.flatMap_eq_nil_iff, ← forall₂_and]
  exact Iff.rfl

theorem not_isSettled_literal (value : Value) : ¬ (literal value).IsSettled :=
  fun h => nomatch h.1

theorem not_isSettled_subquery (select : Select Criteria) : ¬ (subquery select).IsSettled :=
  fun h => nomatch h.2

theorem IsSettled.of_mem_conjuncts (h : c.IsSettled) (hd : d ∈ c.conjuncts) : d.IsSettled := by
  obtain ⟨hliterals, hsubqueries⟩ := h
  rw [← collects_literals.conjuncts, List.flatMap_eq_nil_iff] at hliterals
  rw [← collects_subqueries.conjuncts, List.flatMap_eq_nil_iff] at hsubqueries
  exact ⟨hliterals d hd, hsubqueries d hd⟩

theorem IsSettled.mapColumns (h : c.IsSettled) (f : ColumnRef → ColumnRef) :
    (c.mapColumns f).IsSettled := by
  rw [IsSettled, collects_literals.mapColumns fun _ _ => rfl,
    collects_subqueries.mapColumns fun _ _ => rfl]
  exact h

/-- There is nothing in it to name. -/
theorem Filled.eq_of_isSettled {bound : String → Value → Prop} (h : Filled bound c d)
    (settled : c.IsSettled) : d = c := by
  have all {cs ds : List Criteria} (each : ∀ c ∈ cs, ∀ d, Filled bound c d → d = c)
      (hall : FilledAll bound cs ds) : ds = cs := by
    have hsame := ((List.forall₂_and_left _ _).2 ⟨each, filledAll_iff.1 hall⟩).imp
      fun c d h => (h.1 d h.2).symm
    exact (List.forall₂_eq_eq_eq ▸ hsame : cs = ds).symm
  induction c using induction_members generalizing d with
  | comparison op cs ih =>
    obtain ⟨ds, rfl, hds⟩ := h
    rw [isSettled_comparison] at settled
    rw [all (fun c hc d hd => ih c hc hd (settled c hc)) hds]
  | group op cs ih =>
    obtain ⟨ds, rfl, hds⟩ := h
    rw [isSettled_group] at settled
    rw [all (fun c hc d hd => ih c hc hd (settled c hc)) hds]
  | literal value => exact absurd settled (not_isSettled_literal value)
  | _ => exact h

/-! ## Equality -/

/-- From the left and from the right the condition equals itself alone. -/
def EqualsItselfAlone (c : Criteria) : Prop :=
  ∀ d, (beq c d = true ↔ c = d) ∧ (beq d c = true ↔ c = d)

theorem beqAll_iff_of_forall {cs : List Criteria} (h : ∀ c ∈ cs, c.EqualsItselfAlone)
    (ds : List Criteria) :
    (beqAll cs ds = true ↔ cs = ds) ∧ (beqAll ds cs = true ↔ cs = ds) := by
  induction cs generalizing ds with
  | nil => cases ds <;> simp [beqAll]
  | cons c cs ih =>
    cases ds with
    | nil => simp [beqAll]
    | cons d ds =>
      obtain ⟨hfirst, hsecond⟩ := h c List.mem_cons_self d
      obtain ⟨hrest, hrest'⟩ := ih (fun c hc => h c (List.mem_cons_of_mem _ hc)) ds
      simp only [beqAll, Bool.and_eq_true, List.cons.injEq, hfirst, hsecond, hrest, hrest',
        and_self]

theorem IsSettled.equalsItselfAlone (h : c.IsSettled) : c.EqualsItselfAlone := by
  induction c using induction_members with
  | comparison op cs ih =>
    rw [isSettled_comparison] at h
    intro d
    cases d with
    | comparison op' ds =>
      obtain ⟨hall, hall'⟩ := beqAll_iff_of_forall (fun c hc => ih c hc (h c hc)) ds
      simp [beq, hall, hall', eq_comm (a := op')]
    | _ => simp [beq]
  | group op cs ih =>
    rw [isSettled_group] at h
    intro d
    cases d with
    | group op' ds =>
      obtain ⟨hall, hall'⟩ := beqAll_iff_of_forall (fun c hc => ih c hc (h c hc)) ds
      simp [beq, hall, hall', eq_comm (a := op')]
    | _ => simp [beq]
  | literal value => exact absurd h (not_isSettled_literal value)
  | subquery select => exact absurd h (not_isSettled_subquery select)
  | param name =>
    intro d
    cases d with
    | param name' => simp [beq, eq_comm (a := name')]
    | _ => simp [beq]
  | column ref =>
    intro d
    cases d with
    | column ref' => simp [beq, eq_comm (a := ref')]
    | _ => simp [beq]

theorem IsSettled.contains_iff (h : c.IsSettled) {cs : List Criteria} :
    cs.contains c = true ↔ c ∈ cs := by
  rw [List.contains_iff_exists_mem_beq]
  constructor
  · rintro ⟨d, hd, heq⟩
    rwa [(h.equalsItselfAlone d).1.1 heq]
  · exact fun hc => ⟨c, hc, (h.equalsItselfAlone c).1.2 rfl⟩

/-! ## Parts -/

/-- The second condition is the first, or a member of the first, which is a group of `AND`. -/
def HasPart (on : Option Criteria) (c : Criteria) : Prop :=
  on = some c ∨ ∃ members, on = some (group .and members) ∧ c ∈ members

theorem hasPart_and {cs : List Criteria} (hc : c ∈ cs) : HasPart (some (and cs)) c := by
  match cs with
  | [] => cases hc
  | [d] => rw [List.mem_singleton.1 hc]; exact .inl rfl
  | d :: e :: cs => exact .inr ⟨d :: e :: cs, rfl, hc⟩

/-- Merging what is no group of `AND` keeps what is there as a member. -/
theorem mergeCriteria_of_ne_and (h : ∀ cs, d ≠ group .and cs) (extra : Criteria) :
    Hop.mergeCriteria (some d) extra = if d == extra then d else and [d, extra] := by
  unfold Hop.mergeCriteria
  dsimp only
  split
  · rfl
  · cases d with
    | group op cs =>
      cases op with
      | and => exact absurd rfl (h cs)
      | or => rfl
      | not => rfl
    | _ => rfl

theorem mergeCriteria_and (members : List Criteria) (extra : Criteria) :
    Hop.mergeCriteria (some (group .and members)) extra =
      if group .and members == extra ∨ members.contains extra = true then group .and members
      else group .and (members ++ [extra]) := by
  unfold Hop.mergeCriteria
  dsimp only
  by_cases hwhole : (group .and members == extra) = true
  · simp [hwhole]
  · by_cases hmember : members.contains extra = true
    · simp [hwhole, hmember]
    · simp [hwhole, hmember]

theorem hasPart_some_iff (h : ∀ cs, d ≠ group .and cs) : HasPart (some d) c ↔ d = c := by
  constructor
  · rintro (heq | ⟨cs, heq, -⟩)
    · exact Option.some.inj heq
    · exact absurd (Option.some.inj heq) (h cs)
  · rintro rfl
    exact .inl rfl

theorem IsSettled.hasPart_group_and_iff (h : c.IsSettled) {members : List Criteria} :
    HasPart (some (group .and members)) c ↔
      (group .and members == c) = true ∨ members.contains c = true := by
  rw [h.contains_iff, HasPart, Option.some_inj]
  refine or_congr ?_ ?_
  · exact eq_comm.trans (h.equalsItselfAlone _).2.symm
  · constructor
    · rintro ⟨cs, heq, hc⟩
      cases heq
      exact hc
    · exact fun hc => ⟨members, rfl, hc⟩

/-- A settled condition is a part already and nothing changes, or it becomes one. -/
theorem IsSettled.mergeCriteria_cases (h : c.IsSettled) (on : Option Criteria) :
    (HasPart on c ∧ some (Hop.mergeCriteria on c) = on) ∨
      (¬ HasPart on c ∧ some (Hop.mergeCriteria on c) ≠ on ∧
        HasPart (some (Hop.mergeCriteria on c)) c) := by
  match on with
  | none => exact .inr ⟨by simp [HasPart], nofun, .inl rfl⟩
  | some d =>
    by_cases hand : ∃ cs, d = group .and cs
    · obtain ⟨members, rfl⟩ := hand
      rw [mergeCriteria_and, h.hasPart_group_and_iff]
      by_cases hpart : (group .and members == c) = true ∨ members.contains c = true
      · exact .inl ⟨hpart, by rw [if_pos hpart]⟩
      · rw [if_neg hpart]
        refine .inr ⟨hpart, fun heq => ?_, .inr ⟨_, rfl, ?_⟩⟩
        · simp at heq
        · exact List.mem_append_right _ (List.mem_singleton_self c)
    · have hother : ∀ cs, d ≠ group .and cs := fun cs heq => hand ⟨cs, heq⟩
      have hbeq : (d == c) = true ↔ c = d := (h.equalsItselfAlone d).2
      rw [mergeCriteria_of_ne_and hother, hasPart_some_iff hother]
      by_cases heq : d = c
      · exact .inl ⟨heq, by rw [if_pos (hbeq.2 heq.symm)]⟩
      · rw [if_neg fun hsame => heq (hbeq.1 hsame).symm]
        refine .inr ⟨heq, fun hsame => ?_, .inr ⟨[d, c], rfl, ?_⟩⟩
        · exact hother [d, c] (Option.some.inj hsame).symm
        · exact List.mem_cons_of_mem _ (List.mem_singleton_self c)

/-- Merging a settled condition changes nothing exactly if it is a part already. -/
theorem IsSettled.some_mergeCriteria_eq_iff (h : c.IsSettled) :
    some (Hop.mergeCriteria on c) = on ↔ HasPart on c := by
  rcases h.mergeCriteria_cases on with ⟨hpart, heq⟩ | ⟨hpart, hne, -⟩
  · exact iff_of_true heq hpart
  · exact iff_of_false hne hpart

/-- What was merged is a part. -/
theorem IsSettled.hasPart_mergeCriteria (h : c.IsSettled) (on : Option Criteria) :
    HasPart (some (Hop.mergeCriteria on c)) c := by
  rcases h.mergeCriteria_cases on with ⟨hpart, heq⟩ | ⟨-, -, hpart⟩
  · rwa [heq]
  · exact hpart

/-- A part that is no group of `AND` stays a part. -/
theorem HasPart.merge (h : HasPart on c) (hc : ∀ cs, c ≠ group .and cs) (extra : Criteria) :
    HasPart (some (Hop.mergeCriteria on extra)) c := by
  rcases h with rfl | ⟨members, rfl, hmem⟩
  · rw [mergeCriteria_of_ne_and hc]
    split
    · exact .inl rfl
    · exact .inr ⟨[c, extra], rfl, List.mem_cons_self⟩
  · rw [mergeCriteria_and]
    split
    · exact .inr ⟨members, rfl, hmem⟩
    · exact .inr ⟨_, rfl, List.mem_append_left _ hmem⟩

/-! ## Conjuncts -/

theorem IsSettled.mem_of_beqAll (h : c.IsSettled) {cs ds : List Criteria} (hc : c ∈ cs)
    (hall : beqAll cs ds = true ∨ beqAll ds cs = true) : c ∈ ds := by
  rw [beqAll_iff, beqAll_iff] at hall
  rcases hall with hall | hall
  · obtain ⟨d, hd, heq⟩ := exists_mem_of_forall₂ hall hc
    exact (h.equalsItselfAlone d).1.1 heq ▸ hd
  · obtain ⟨d, hd, heq⟩ := exists_mem_of_forall₂ hall.flip hc
    exact (h.equalsItselfAlone d).2.1 heq ▸ hd

/-- A settled conjunct of what was added stands in the result. -/
theorem Conjoined.mem_of_isSettled {present extras result : List Criteria}
    (h : Conjoined present extras result) (hextra : extra ∈ extras) (hc : c ∈ extra.conjuncts)
    (settled : c.IsSettled) : c ∈ result := by
  induction h with
  | nil present => cases hextra
  | add hrest ih =>
    rcases List.mem_cons.1 hextra with rfl | hextra
    · exact hrest.present_subset (List.mem_append_right _ hc)
    · exact ih hextra
  | keep hstands hrest ih =>
    rcases List.mem_cons.1 hextra with rfl | hextra
    · obtain ⟨before, row, after, rfl, hall⟩ := hstands
      have hrow : c ∈ row := settled.mem_of_beqAll hc hall.symm
      exact hrest.present_subset (List.mem_append_left _ (List.mem_append_right _ hrow))
    · exact ih hextra

end JoinPath.Criteria
