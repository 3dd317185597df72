import JoinPath.Proofs.Bindings.Capture
import JoinPath.Proofs.Bindings.Reordered
import JoinPath.Proofs.Session.Bound
/-!
# Clashes

A conflict arises exactly if a subquery wants another value for a name than the one that the name
stands for when the subquery is met (`conflict_eq_none_iff`). Where nothing clashes, changes made
ahead of others leave every name that no literal takes with the same value (`same_of_ahead`).
-/

namespace JoinPath.Bindings

variable {b : Bindings} {cs ds : List Change} {name : String}

/-- A subquery wants another value for a name than the one that the name stands for by then. -/
def Clashes (b : Bindings) (cs : List Change) : Prop :=
  ∃ before p after name v w, cs = before ++ .adopted p :: after ∧ p.get? name = some v ∧
    (b.changed before).parameters.get? name = some w ∧ (w == v) = false

theorem Clashes.append_right (h : b.Clashes cs) (ds : List Change) : b.Clashes (cs ++ ds) := by
  obtain ⟨before, p, after, name, v, w, rfl, hv, hw, hne⟩ := h
  exact ⟨before, p, after ++ ds, name, v, w, by simp, hv, hw, hne⟩

theorem conflict_eq_none_iff (quiet : b.conflict = none) :
    (b.changed cs).conflict = none ↔ ¬b.Clashes cs := by
  constructor
  · rintro h ⟨before, p, after, name, v, w, rfl, hv, hw, hne⟩
    obtain ⟨n, hn⟩ := Session.conflict_of_bound hv hw hne after
    rw [h] at hn
    cases hn
  · intro h
    induction cs using List.reverseRecOn with
    | nil => exact quiet
    | append_singleton cs x ih =>
      have before := ih fun hcs => h (hcs.append_right [x])
      rw [changed_append]
      cases x with
      | adopted p =>
        refine (conflict_foldl_of_agrees p.ascending fun e he w hw => ?_).trans before
        by_contra hne
        exact h ⟨cs, p, [], e.1, e.2, w, rfl, NameMap.get?_eq_some_iff.2 he, hw,
          by simpa using hne⟩
      | _ => exact before

theorem conflict_of_conflict_changed (h : (b.changed cs).conflict = none) : b.conflict = none := by
  cases hb : b.conflict with
  | none => rfl
  | some n => rw [conflict_changed hb cs] at h; cases h

theorem numbersUsed_le (cs ds : List Change) : numbersUsed ds ≤ numbersUsed (cs ++ ds) := by
  rw [numbersUsed_append]
  omega

/-! ## Changes ahead of others -/

theorem assignedTo_of_unset (unset : ∀ v, .assigned name v ∉ cs) : assignedTo name cs = [] :=
  List.eq_nil_iff_forall_not_mem.2 fun v hv => unset v (mem_assignedTo.1 hv)

theorem get?_changed_of_unset (unset : ∀ v, .assigned name v ∉ cs)
    (free : ∀ v, (name, v) ∉ namedFrom b.literals cs) :
    (b.changed cs).parameters.get? name =
      (b.parameters.get? name).or (adoptedAs name cs).head? := by
  rw [get?_changed_of_free free, assignedTo_of_unset unset, List.getLast?_nil, Option.none_or]

theorem adoptedAs_append (name : String) (cs ds : List Change) :
    adoptedAs name (cs ++ ds) = adoptedAs name cs ++ adoptedAs name ds :=
  List.filterMap_append

theorem exists_of_mem_adoptedAs {v : Value} (h : v ∈ adoptedAs name cs) :
    ∃ p, .adopted p ∈ cs ∧ p.get? name = some v := by
  obtain ⟨x, hx, hv⟩ := List.mem_filterMap.1 h
  cases x with
  | adopted p => exact ⟨p, hx, hv⟩
  | _ => cases hv

/-- A name that no literal takes keeps its value if other changes come first and nothing clashes. -/
theorem same_of_ahead (unset : ∀ v, .assigned name v ∉ cs ++ ds)
    (free : ∀ v, (name, v) ∉ namedFrom b.literals (cs ++ ds))
    (free' : ∀ v, (name, v) ∉ namedFrom b.literals ds) (quiet : ¬b.Clashes (cs ++ ds)) {v : Value}
    (hv : (b.changed ds).parameters.get? name = some v) :
    ∃ w, (b.changed (cs ++ ds)).parameters.get? name = some w ∧ w.Same v := by
  rw [get?_changed_of_unset (fun v hv => unset v (List.mem_append_right _ hv)) free'] at hv
  rw [get?_changed_of_unset unset free, adoptedAs_append]
  cases hb : b.parameters.get? name with
  | some w =>
    rw [hb, Option.some_or] at hv
    exact ⟨w, Option.some_or, .inl (Option.some.inj hv)⟩
  | none =>
    rw [hb, Option.none_or] at hv
    rw [Option.none_or, List.head?_append]
    cases hcs : (adoptedAs name cs).head? with
    | none => exact ⟨v, hv, .inl rfl⟩
    | some w =>
      refine ⟨w, rfl, .inr ?_⟩
      -- The subquery that brings the value finds the name bound by what came first.
      obtain ⟨p, hp, hget⟩ := exists_of_mem_adoptedAs (List.mem_of_head? hv)
      obtain ⟨before, after, rfl⟩ := List.append_of_mem hp
      have hbound : (b.changed (cs ++ before)).parameters.get? name = some w := by
        rw [get?_changed_of_unset (fun v hv => unset v (by
            rw [← List.append_assoc]
            exact List.mem_append_left _ hv)) fun v hv => free v (by
            rw [← List.append_assoc, namedFrom_append]
            exact List.mem_append_left _ hv),
          hb, Option.none_or, adoptedAs_append, List.head?_append, hcs, Option.some_or]
      by_contra hne
      exact quiet ⟨cs ++ before, p, after, name, v, w, by rw [List.append_assoc], hget, hbound,
        by simpa using hne⟩

/-! ## Names from another number on -/

/-- The names of literals from the number `m` on become those from `n` on. -/
noncomputable def renumbered (a : String) (m n : ℕ) : String → String :=
  Function.extend (fun i => literalName a (m + i)) (fun i => literalName a (n + i)) id

variable {a : String} {m n : ℕ}

theorem renumbered_literalName (a : String) (m n i : ℕ) :
    renumbered a m n (literalName a (m + i)) = literalName a (n + i) :=
  Function.Injective.extend_apply
    (fun _ _ h => Nat.add_left_cancel (literalName_inj h).2) _ _ i

theorem renumbered_of_ne (h : ∀ i, name ≠ literalName a (m + i)) : renumbered a m n name = name :=
  Function.extend_apply' _ _ _ fun ⟨i, hi⟩ => h i hi.symm

theorem shifts_renumbered (a : String) (m n k : ℕ) : Shifts (renumbered a m n) a m n k :=
  fun i _ _ => renumbered_literalName a m n i

/-- From some number on no literal has one of these names. -/
theorem exists_unused (a : String) (names : List String) :
    ∃ m, ∀ name ∈ names, ∀ i, name ≠ literalName a (m + i) := by
  have finite : {n | literalName a n ∈ names}.Finite :=
    (List.finite_toSet names).preimage fun _ _ _ _ h => (literalName_inj h).2
  obtain ⟨m, hm⟩ := finite.bddAbove
  refine ⟨m + 1, fun name hname i heq => ?_⟩
  have : m + 1 + i ≤ m := hm (show literalName a (m + 1 + i) ∈ names from heq ▸ hname)
  omega

end JoinPath.Bindings
