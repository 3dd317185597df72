import Mathlib.Data.List.Basic
/-!
# Along a run

A run takes one step after the other. What its steps mean, each in the state in which it is taken,
is collected by `along`: what they do to the parameters, the conditions that they hand over, the
aliases that they ask for. What is collected along a run is met at one of its steps (`mem_along`),
and grows with the state (`along_induction`).
-/

namespace JoinPath

variable {σ κ α β : Type} {step : σ → κ → σ} {f g : σ → κ → List α} {s : σ} {ks : List κ}

/-- What the steps of a run mean, each in the state in which it is taken. -/
def along (step : σ → κ → σ) (f : σ → κ → List α) (s : σ) : List κ → List α
  | [] => []
  | k :: ks => f s k ++ along step f (step s k) ks

theorem along_append (step : σ → κ → σ) (f : σ → κ → List α) (s : σ) (first second : List κ) :
    along step f s (first ++ second) =
      along step f s first ++ along step f (first.foldl step s) second := by
  induction first generalizing s with
  | nil => rfl
  | cons k first ih => rw [List.cons_append, along, ih, along, List.foldl_cons, List.append_assoc]

theorem subset_along (step : σ → κ → σ) (f : σ → κ → List α) (s : σ) (before : List κ) (k : κ)
    (after : List κ) : f (before.foldl step s) k ⊆ along step f s (before ++ k :: after) := by
  rw [along_append]
  exact fun _ ha => List.mem_append_right _ (List.mem_append_left _ ha)

/-- What is collected along a run is met at one of its steps. -/
theorem mem_along {a : α} :
    a ∈ along step f s ks ↔
      ∃ before k after, ks = before ++ k :: after ∧ a ∈ f (before.foldl step s) k := by
  constructor
  · intro h
    induction ks generalizing s with
    | nil => cases h
    | cons k ks ih =>
      rcases List.mem_append.1 h with h | h
      · exact ⟨[], k, ks, rfl, h⟩
      · obtain ⟨before, other, after, rfl, ha⟩ := ih h
        exact ⟨k :: before, other, after, rfl, ha⟩
  · rintro ⟨before, k, after, rfl, ha⟩
    exact subset_along step f s before k after ha

theorem along_mono (h : ∀ s k, f s k ⊆ g s k) : along step f s ks ⊆ along step g s ks := by
  intro a ha
  obtain ⟨before, k, after, rfl, hk⟩ := mem_along.1 ha
  exact subset_along step g s before k after (h _ k hk)

theorem along_map (p : α → β) :
    (along step f s ks).map p = along step (fun s k => (f s k).map p) s ks := by
  induction ks generalizing s with
  | nil => rfl
  | cons k ks ih => rw [along, List.map_append, ih, along]

/-- What each step keeps, of the state and of what was collected so far, a run keeps. -/
theorem along_induction_from {P : List α → σ → Prop} {acc : List α}
    (each : ∀ k ∈ ks, ∀ acc s, P acc s → P (acc ++ f s k) (step s k)) (start : P acc s) :
    P (acc ++ along step f s ks) (ks.foldl step s) := by
  induction ks generalizing s acc with
  | nil => rwa [along, List.append_nil]
  | cons k ks ih =>
    rw [along, ← List.append_assoc]
    exact ih (fun k' hk => each k' (List.mem_cons_of_mem _ hk))
      (each k List.mem_cons_self acc s start)

theorem along_induction {P : List α → σ → Prop}
    (each : ∀ k ∈ ks, ∀ acc s, P acc s → P (acc ++ f s k) (step s k)) (start : P [] s) :
    P (along step f s ks) (ks.foldl step s) :=
  along_induction_from each start

end JoinPath
