import JoinPath.Proofs.Path.Shared
import Mathlib.Order.Bounds.Basic
/-!
# The longest shared beginning

Of the cached paths, the first that has the longest beginning in common with a new path gives the
shared beginning (`deepestShared_eq_longest`). Which path that is and how long the beginning is hang
on the associations of the paths alone; aliases, conditions and columns come along from the cache.
-/

namespace JoinPath.Step

/-- The first `n` steps of both paths go along the same associations. -/
def AgreeFor (n : ℕ) (p q : List Step) : Prop :=
  n ≤ p.length ∧ n ≤ q.length ∧ (associations p).take n = (associations q).take n

variable {p q p' q' : List Step} {n : ℕ}

theorem agreeFor_iff : AgreeFor n p q ↔ n ≤ sharedLength p q := by
  constructor
  · rintro ⟨hp, hq, h⟩
    exact le_sharedLength hp hq (by rwa [associations_take, associations_take])
  · intro h
    have hshared := congrArg (List.take n) (associations_take_sharedLength p q)
    rw [associations_take, associations_take, List.take_take, List.take_take,
      Nat.min_eq_left h] at hshared
    exact ⟨Nat.le_trans h (sharedLength_le p q).1, Nat.le_trans h (sharedLength_le p q).2,
      hshared⟩

/-- Whether paths agree hangs on their associations alone. -/
theorem agreeFor_congr (hp : associations p' = associations p)
    (hq : associations q' = associations q) : AgreeFor n p' q' ↔ AgreeFor n p q := by
  unfold AgreeFor
  rw [← length_associations p', ← length_associations q', hp, hq, length_associations,
    length_associations]

theorem sharedLength_congr (hp : associations p' = associations p)
    (hq : associations q' = associations q) : sharedLength p' q' = sharedLength p q :=
  eq_of_forall_le_iff fun _ => by
    rw [← agreeFor_iff, ← agreeFor_iff, agreeFor_congr hp hq]

/-! ## The first of the deepest -/

variable {cached cached' : List (List Step)} {path path' : List Step} {c e : List Step} {i j : ℕ}

/-- The path `c` at position `i` is the first that shares most with `path`. -/
structure IsFirstDeepest (cached : List (List Step)) (path : List Step) (i : ℕ) (c : List Step) :
    Prop where
  position : cached[i]? = some c
  most : ∀ b ∈ cached, sharedLength b path ≤ sharedLength c path
  first : ∀ b ∈ cached.take i, sharedLength b path < sharedLength c path

namespace IsFirstDeepest

theorem mem (h : IsFirstDeepest cached path i c) : c ∈ cached := List.mem_of_getElem? h.position

theorem not_before (h : IsFirstDeepest cached path i c) (h' : IsFirstDeepest cached path j e) :
    ¬i < j := by
  intro hlt
  have hc : c ∈ cached.take j :=
    List.mem_of_getElem? ((List.getElem?_take_of_lt hlt).trans h.position)
  exact absurd (h'.first c hc) (Nat.not_lt.2 (h.most e h'.mem))

theorem unique (h : IsFirstDeepest cached path i c) (h' : IsFirstDeepest cached path j e) :
    c = e := by
  obtain rfl : i = j := Nat.le_antisymm (Nat.not_lt.1 (h'.not_before h))
    (Nat.not_lt.1 (h.not_before h'))
  exact Option.some.inj (h.position.symm.trans h'.position)

theorem of_split {before after : List (List Step)}
    (hbefore : ∀ b ∈ before, sharedLength b path < sharedLength c path)
    (hafter : ∀ b ∈ after, sharedLength b path ≤ sharedLength c path) :
    IsFirstDeepest (before ++ c :: after) path before.length c where
  position := by simp
  most b hb := by
    rcases List.mem_append.1 hb with hb | hb
    · exact Nat.le_of_lt (hbefore b hb)
    · rcases List.mem_cons.1 hb with rfl | hb
      · exact Nat.le_refl _
      · exact hafter b hb
  first := by simpa using hbefore

/-- It gives the shared beginning. -/
theorem deepestShared_eq (h : IsFirstDeepest cached path i c) :
    deepestShared cached path = c.take (sharedLength c path) := by
  rcases deepestShared_cases cached path with ⟨hnil, hzero⟩ | ⟨before, e, after, rfl, he, -, hb, ha⟩
  · rw [hnil, hzero c h.mem, List.take_zero]
  · rw [he, h.unique (of_split hb ha)]

/-- Other paths along the same associations have theirs at the same position. -/
theorem transfer (h : IsFirstDeepest cached path i c)
    (hcached : cached'.map associations = cached.map associations)
    (hpath : associations path' = associations path) :
    ∃ c', IsFirstDeepest cached' path' i c' ∧ sharedLength c' path' = sharedLength c path := by
  have alike {l l' : List (List Step)} (hl : l'.map associations = l.map associations) {b'}
      (hb : b' ∈ l') : ∃ b ∈ l, sharedLength b' path' = sharedLength b path := by
    have hmem : associations b' ∈ l.map associations := hl ▸ List.mem_map_of_mem hb
    obtain ⟨b, hb, heq⟩ := List.mem_map.1 hmem
    exact ⟨b, hb, sharedLength_congr heq.symm hpath⟩
  have hposition : (cached'[i]?).map associations = some (associations c) := by
    rw [← List.getElem?_map, hcached, List.getElem?_map, h.position, Option.map_some]
  obtain ⟨c', hc', hsame⟩ := Option.map_eq_some_iff.1 hposition
  have hlength : sharedLength c' path' = sharedLength c path := sharedLength_congr hsame hpath
  refine ⟨c', ⟨hc', fun b' hb' => ?_, fun b' hb' => ?_⟩, hlength⟩
  · obtain ⟨b, hb, heq⟩ := alike hcached hb'
    rw [heq, hlength]
    exact h.most b hb
  · have htake : (cached'.take i).map associations = (cached.take i).map associations := by
      rw [List.map_take, List.map_take, hcached]
    obtain ⟨b, hb, heq⟩ := alike htake hb'
    rw [heq, hlength]
    exact h.first b hb

end IsFirstDeepest

theorem exists_isFirstDeepest (hne : cached ≠ []) (path : List Step) :
    ∃ i c, IsFirstDeepest cached path i c := by
  rcases deepestShared_cases cached path with ⟨-, hzero⟩ | ⟨before, c, after, rfl, -, -, hb, ha⟩
  · obtain ⟨c, cached, rfl⟩ := List.exists_cons_of_ne_nil hne
    obtain ⟨hc, hrest⟩ := List.forall_mem_cons.1 hzero
    have hbefore : ∀ b ∈ ([] : List (List Step)), sharedLength b path < sharedLength c path :=
      fun _ hb => absurd hb List.not_mem_nil
    refine ⟨0, c, .of_split hbefore fun b hb => ?_⟩
    rw [hrest b hb]
    exact Nat.zero_le _
  · exact ⟨_, c, .of_split hb ha⟩

/-- The shared beginning is made of the first `d` steps of the cached path at position `i`, where
`d` is the greatest number of steps for which a cached path agrees with `path`, and `i` is the first
position that reaches it. Both are the same for all paths along the same associations. -/
theorem deepestShared_eq_longest (cached : List (List Step)) (path : List Step) :
    ∃ d i, IsGreatest {n | n = 0 ∨ ∃ c ∈ cached, AgreeFor n c path} d ∧
      (d = 0 → deepestShared cached path = []) ∧
      (0 < d → ∃ c, cached[i]? = some c ∧ AgreeFor d c path ∧
        (∀ b ∈ cached.take i, ¬AgreeFor d b path) ∧ deepestShared cached path = c.take d) ∧
      ∀ cached' path', cached'.map associations = cached.map associations →
        associations path' = associations path →
        deepestShared cached' path' = (cached'[i]?.getD []).take d := by
  by_cases hne : cached = []
  · subst hne
    refine ⟨0, 0, ⟨.inl rfl, ?_⟩, fun _ => rfl, fun hpos => absurd hpos (Nat.lt_irrefl 0), ?_⟩
    · rintro n (rfl | ⟨c, hc, -⟩)
      · exact Nat.le_refl 0
      · exact absurd hc List.not_mem_nil
    · intro cached' path' hcached hpath
      obtain rfl : cached' = [] := List.map_eq_nil_iff.1 hcached
      rfl
  · obtain ⟨i, c, hc⟩ := exists_isFirstDeepest hne path
    refine ⟨sharedLength c path, i, ⟨?_, ?_⟩, ?_,
      fun _ => ⟨c, hc.position, ?_, ?_, hc.deepestShared_eq⟩, ?_⟩
    · exact .inr ⟨c, hc.mem, agreeFor_iff.2 (Nat.le_refl _)⟩
    · rintro n (rfl | ⟨b, hb, hagree⟩)
      · exact Nat.zero_le _
      · exact Nat.le_trans (agreeFor_iff.1 hagree) (hc.most b hb)
    · intro hzero
      rw [hc.deepestShared_eq, hzero, List.take_zero]
    · exact agreeFor_iff.2 (Nat.le_refl _)
    · exact fun b hb hagree => absurd (agreeFor_iff.1 hagree) (Nat.not_le.2 (hc.first b hb))
    · intro cached' path' hcached hpath
      obtain ⟨c', hc', hlength⟩ := hc.transfer hcached hpath
      rw [hc'.deepestShared_eq, hlength, hc'.position, Option.getD_some]

end JoinPath.Step
