import JoinPath.Session.Step
import Mathlib.Data.List.Basic
import Mathlib.Data.List.Induction
/-!
# Shared beginnings

How far two paths go along the same associations, and which cached path has the longest beginning
in common with a new one.
-/

namespace JoinPath.Step

/-- The associations that a path goes along. -/
def associations (path : List Step) : List AssociationId := path.map Step.association

@[simp] theorem associations_append (p q : List Step) :
    associations (p ++ q) = associations p ++ associations q :=
  List.map_append

@[simp] theorem length_associations (p : List Step) : (associations p).length = p.length :=
  List.length_map _

theorem associations_take (p : List Step) (n : ℕ) :
    associations (p.take n) = (associations p).take n :=
  List.map_take

theorem sharedLength_le (p q : List Step) :
    sharedLength p q ≤ p.length ∧ sharedLength p q ≤ q.length := by
  induction p generalizing q with
  | nil => simp [sharedLength]
  | cons s p ih =>
    cases q with
    | nil => simp [sharedLength]
    | cons t q =>
      obtain ⟨hp, hq⟩ := ih q
      unfold sharedLength
      split
      · simp only [List.length_cons]; omega
      · omega

theorem associations_take_sharedLength (p q : List Step) :
    associations (p.take (sharedLength p q)) = associations (q.take (sharedLength p q)) := by
  induction p generalizing q with
  | nil => simp [sharedLength]
  | cons s p ih =>
    cases q with
    | nil => simp [sharedLength]
    | cons t q =>
      unfold sharedLength
      split
      · next h => simpa [associations, h] using ih q
      · simp

theorem length_take_sharedLength (p q : List Step) :
    (p.take (sharedLength p q)).length = sharedLength p q := by
  rw [List.length_take, Nat.min_eq_left (sharedLength_le p q).1]

/-- Paths share every beginning in which they agree. -/
theorem le_sharedLength {p q : List Step} {n : ℕ} (hp : n ≤ p.length) (hq : n ≤ q.length)
    (h : associations (p.take n) = associations (q.take n)) : n ≤ sharedLength p q := by
  induction p generalizing q n with
  | nil => simp only [List.length_nil, Nat.le_zero] at hp; omega
  | cons s p ih =>
    cases n with
    | zero => omega
    | succ n =>
      cases q with
      | nil => simp at hq
      | cons t q =>
        obtain ⟨hst, htail⟩ := List.cons.inj h
        have := ih (Nat.le_of_succ_le_succ hp) (Nat.le_of_succ_le_succ hq) htail
        simp only [sharedLength, hst, if_true]
        omega

/-- Either no cached path begins like `path`, or the shared beginning is that of the first cached
path that shares most. -/
theorem deepestShared_cases (cached : List (List Step)) (path : List Step) :
    (deepestShared cached path = [] ∧ ∀ c ∈ cached, sharedLength c path = 0) ∨
    ∃ before c after, cached = before ++ c :: after ∧
      deepestShared cached path = c.take (sharedLength c path) ∧ 0 < sharedLength c path ∧
      (∀ d ∈ before, sharedLength d path < sharedLength c path) ∧
      ∀ d ∈ after, sharedLength d path ≤ sharedLength c path := by
  -- The last cached path is compared with the best of those before it, which wins a tie.
  induction cached using List.reverseRecOn with
  | nil => exact .inl ⟨rfl, by simp⟩
  | append_singleton cs e ih =>
    have step : deepestShared (cs ++ [e]) path =
        if (deepestShared cs path).length < sharedLength e path then e.take (sharedLength e path)
        else deepestShared cs path := List.foldl_append
    rw [step]
    rcases ih with ⟨hnil, hzero⟩ | ⟨before, c, after, rfl, hc, hpos, hbefore, hafter⟩
    · rw [hnil, List.length_nil]
      split
      · next hlt =>
        refine .inr ⟨cs, e, [], rfl, rfl, hlt, fun d hd => ?_, by simp⟩
        rw [hzero d hd]
        exact hlt
      · next hlt =>
        refine .inl ⟨rfl, fun d hd => ?_⟩
        rcases List.mem_append.1 hd with hd | hd
        · exact hzero d hd
        · rw [List.mem_singleton.1 hd]
          omega
    · rw [hc, length_take_sharedLength]
      split
      · next hlt =>
        refine .inr ⟨before ++ c :: after, e, [], rfl, rfl, by omega, fun d hd => ?_, by simp⟩
        rcases List.mem_append.1 hd with hd | hd
        · exact Nat.lt_trans (hbefore d hd) hlt
        · rcases List.mem_cons.1 hd with rfl | hd
          · exact hlt
          · exact Nat.lt_of_le_of_lt (hafter d hd) hlt
      · next hlt =>
        refine .inr ⟨before, c, after ++ [e], by simp, rfl, hpos, hbefore, fun d hd => ?_⟩
        rcases List.mem_append.1 hd with hd | hd
        · exact hafter d hd
        · rw [List.mem_singleton.1 hd]
          omega

/-- The shared beginning is one of a cached path, as long as `path` agrees with it. -/
theorem deepestShared_eq_take (cached : List (List Step)) (path : List Step) :
    deepestShared cached path = [] ∨
      ∃ c ∈ cached, deepestShared cached path = c.take (sharedLength c path) := by
  rcases deepestShared_cases cached path with ⟨h, -⟩ | ⟨before, c, after, rfl, hc, -⟩
  · exact .inl h
  · exact .inr ⟨c, by simp, hc⟩

/-- No cached path shares more. -/
theorem sharedLength_le_deepestShared {cached : List (List Step)} {d : List Step} (hd : d ∈ cached)
    (path : List Step) : sharedLength d path ≤ (deepestShared cached path).length := by
  rcases deepestShared_cases cached path with ⟨-, hzero⟩ | ⟨before, c, after, rfl, hc, -, hb, ha⟩
  · rw [hzero d hd]
    exact Nat.zero_le _
  · rw [hc, length_take_sharedLength]
    rcases List.mem_append.1 hd with hd | hd
    · exact Nat.le_of_lt (hb d hd)
    · rcases List.mem_cons.1 hd with rfl | hd
      · exact Nat.le_refl _
      · exact ha d hd

theorem length_deepestShared_le (cached : List (List Step)) (path : List Step) :
    (deepestShared cached path).length ≤ path.length := by
  rcases deepestShared_eq_take cached path with h | ⟨c, -, h⟩
  · rw [h]
    exact Nat.zero_le _
  · rw [h, length_take_sharedLength]
    exact (sharedLength_le c path).2

theorem associations_deepestShared (cached : List (List Step)) (path : List Step) :
    associations (deepestShared cached path) =
      associations (path.take (deepestShared cached path).length) := by
  rcases deepestShared_eq_take cached path with h | ⟨c, -, h⟩
  · simp [h, associations]
  · rw [h, length_take_sharedLength]
    exact associations_take_sharedLength c path

section Mapped

variable {f : Step → Step}

/-- A map that tells associations apart as they were keeps what two paths share. -/
theorem sharedLength_map
    (same : ∀ s t, (f s).association = (f t).association ↔ s.association = t.association)
    (p q : List Step) : sharedLength (p.map f) (q.map f) = sharedLength p q := by
  induction p generalizing q with
  | nil => rfl
  | cons s p ih =>
    cases q with
    | nil => rfl
    | cons t q =>
      rw [List.map_cons, List.map_cons, sharedLength, sharedLength, ih]
      simp only [same]

theorem deepestShared_map
    (same : ∀ s t, (f s).association = (f t).association ↔ s.association = t.association)
    (cached : List (List Step)) (path : List Step) :
    deepestShared (cached.map (List.map f)) (path.map f) = (deepestShared cached path).map f := by
  have from_best (best : List Step) :
      (cached.map (List.map f)).foldl (fun best candidate =>
        let depth := sharedLength candidate (path.map f)
        if best.length < depth then candidate.take depth else best) (best.map f) =
      (cached.foldl (fun best candidate =>
        let depth := sharedLength candidate path
        if best.length < depth then candidate.take depth else best) best).map f := by
    induction cached generalizing best with
    | nil => rfl
    | cons c cached ih =>
      rw [List.map_cons, List.foldl_cons, List.foldl_cons, ← ih]
      refine congrArg (List.foldl _ · _) ?_
      dsimp only
      rw [sharedLength_map same, List.length_map]
      split
      · exact List.map_take.symm
      · rfl
  exact from_best []

end Mapped

end JoinPath.Step
