import Mathlib.Data.List.Forall2
import Mathlib.Data.List.Induction
import Mathlib.Data.List.Nodup
/-!
# Lists

Functions and properties that go along a list, lists that are related element by element, beginnings
of lists, lists without their repeated elements, functions that may fail along a list, and items
that fit their positions.
-/

namespace JoinPath

/-- A property of lists that goes along them asks the same of each element. -/
theorem forall_iff_of_cons {α : Type} {P : α → Prop} {Q : List α → Prop} (nil : Q [])
    (cons : ∀ x xs, Q (x :: xs) ↔ P x ∧ Q xs) (xs : List α) : Q xs ↔ ∀ x ∈ xs, P x := by
  induction xs with
  | nil => exact iff_of_true nil fun _ hx => absurd hx List.not_mem_nil
  | cons x xs ih => rw [cons, ih, List.forall_mem_cons]

/-- A function that goes along a list makes of it what it makes of the elements, one after the
other. -/
theorem eq_flatMap_of_cons {α β : Type} {f : α → List β} {g : List α → List β} (nil : g [] = [])
    (cons : ∀ x xs, g (x :: xs) = f x ++ g xs) (xs : List α) : g xs = xs.flatMap f := by
  induction xs with
  | nil => exact nil
  | cons x xs ih => rw [cons, ih, List.flatMap_cons]

theorem eq_map_of_cons {α β : Type} {f : α → β} {g : List α → List β} (nil : g [] = [])
    (cons : ∀ x xs, g (x :: xs) = f x :: g xs) (xs : List α) : g xs = xs.map f := by
  rw [List.map_eq_flatMap]
  exact eq_flatMap_of_cons nil cons xs

/-! ## Related lists -/

theorem exists_mem_of_forall₂ {α β : Type} {R : α → β → Prop} {l : List α} {m : List β}
    (h : List.Forall₂ R l m) {a : α} (ha : a ∈ l) : ∃ b ∈ m, R a b := by
  induction h with
  | nil => simp at ha
  | cons hab _ ih =>
    rcases List.mem_cons.1 ha with rfl | ha
    · exact ⟨_, List.mem_cons_self, hab⟩
    · obtain ⟨b, hb, hr⟩ := ih ha
      exact ⟨b, List.mem_cons_of_mem _ hb, hr⟩

theorem forall₂_trans {α β γ : Type} {R : α → β → Prop} {S : β → γ → Prop} {l : List α}
    {m : List β} {n : List γ} (hr : List.Forall₂ R l m) (hs : List.Forall₂ S m n) :
    List.Forall₂ (fun a c => ∃ b ∈ m, R a b ∧ S b c) l n := by
  induction hr generalizing n with
  | nil =>
    cases hs
    exact .nil
  | cons h _ ih =>
    cases hs with
    | cons h' hs =>
      refine .cons ⟨_, List.mem_cons_self, h, h'⟩ ((ih hs).imp fun a c hac => ?_)
      obtain ⟨b, hb, hrs⟩ := hac
      exact ⟨b, List.mem_cons_of_mem _ hb, hrs⟩

theorem forall₂_zip_right {α β γ : Type} {R : α → β → Prop} {S : β → γ → Prop} {l : List α}
    {m : List β} {n : List γ} (hr : List.Forall₂ R l m) (hs : List.Forall₂ S m n) :
    List.Forall₂ (fun a x => R a x.1 ∧ S x.1 x.2) l (m.zip n) := by
  induction hr generalizing n with
  | nil => exact .nil
  | cons h _ ih =>
    cases hs with
    | cons h' hs => exact .cons ⟨h, h'⟩ (ih hs)

theorem forall₂_flatMap {α β γ δ : Type} {R : α → β → Prop} {S : γ → δ → Prop} {l : List α}
    {m : List β} {f : α → List γ} {g : β → List δ} (h : List.Forall₂ R l m)
    (each : ∀ a ∈ l, ∀ b, R a b → List.Forall₂ S (f a) (g b)) :
    List.Forall₂ S (l.flatMap f) (m.flatMap g) := by
  induction h with
  | nil => exact .nil
  | cons hab _ ih =>
    rw [List.flatMap_cons, List.flatMap_cons]
    exact List.rel_append (each _ List.mem_cons_self _ hab)
      (ih fun a ha => each a (List.mem_cons_of_mem _ ha))

theorem forall₂_flatMap_same {α β γ : Type} {R : β → γ → Prop} {l : List α} {f : α → List β}
    {g : α → List γ} (h : ∀ x ∈ l, List.Forall₂ R (f x) (g x)) :
    List.Forall₂ R (l.flatMap f) (l.flatMap g) :=
  forall₂_flatMap (List.forall₂_same.2 h) fun _ _ _ hab => hab

/-- Changing an element and mapping the elements may change places. -/
theorem map_modify {α β : Type} {f : α → α} {g : β → β} {h : α → β} (comm : ∀ x, h (f x) = g (h x))
    (l : List α) (n : ℕ) : (l.modify n f).map h = (l.map h).modify n g := by
  induction l generalizing n with
  | nil => simp
  | cons x l ih =>
    cases n with
    | zero => simp [comm]
    | succ n => simp [ih]

/-! ## Positions -/

/-- A list around one of its positions. -/
theorem exists_split_of_getElem? {α : Type} {l : List α} {i : ℕ} {x : α} (h : l[i]? = some x) :
    ∃ pre post, l = pre ++ x :: post ∧ ∀ y, l.set i y = pre ++ y :: post := by
  obtain ⟨hlt, rfl⟩ := List.getElem?_eq_some_iff.1 h
  refine ⟨l.take i, l.drop (i + 1), ?_, fun y => ?_⟩
  · rw [List.getElem_cons_drop, List.take_append_drop]
  · rw [List.set_eq_take_append_cons_drop, if_pos hlt]

/-! ## Beginnings -/

theorem getElem?_of_begins {α : Type} {l m : List α} (h : l <+: m) {i : ℕ} {x : α}
    (hx : l[i]? = some x) : m[i]? = some x := by
  obtain ⟨rest, rfl⟩ := h
  obtain ⟨hlt, -⟩ := List.getElem?_eq_some_iff.1 hx
  rw [List.getElem?_append_left hlt, hx]

/-! ## Repeated elements -/

/-- Where no key stands twice, each has its own entry. -/
theorem lookup_of_mem {α β : Type} [DecidableEq α] {entries : List (α × β)}
    (nodup : (entries.map Prod.fst).Nodup) {a : α} {b : β} (h : (a, b) ∈ entries) :
    entries.lookup a = some b := by
  induction entries with
  | nil => exact absurd h List.not_mem_nil
  | cons e entries ih =>
    obtain ⟨k, v⟩ := e
    obtain ⟨hfirst, hrest⟩ := List.nodup_cons.1 nodup
    rcases List.mem_cons.1 h with heq | hmem
    · obtain ⟨rfl, rfl⟩ := Prod.mk.inj heq
      exact List.lookup_cons_self
    · have hne : a ≠ k := by
        rintro rfl
        exact hfirst (List.mem_map.2 ⟨_, hmem, rfl⟩)
      rw [List.lookup_cons, beq_eq_false_iff_ne.2 hne]
      exact ih hrest hmem

theorem eraseDups_concat_of_mem {α : Type} [DecidableEq α] {l : List α} {x : α} (h : x ∈ l) :
    (l ++ [x]).eraseDups = l.eraseDups := by
  rw [List.eraseDups_append, List.removeAll, List.filter_cons_of_neg (by simp [h])]
  simp

theorem eraseDups_concat_of_not_mem {α : Type} [DecidableEq α] {l : List α} {x : α} (h : x ∉ l) :
    (l ++ [x]).eraseDups = l.eraseDups ++ [x] := by
  rw [List.eraseDups_append, List.removeAll, List.filter_cons_of_pos (by simp [h])]
  simp [List.eraseDups_cons]

/-- What was there already goes away. -/
theorem eraseDups_append_of_subset {α : Type} [DecidableEq α] {l m : List α} (h : m ⊆ l) :
    (l ++ m).eraseDups = l.eraseDups := by
  induction m using List.reverseRecOn with
  | nil => rw [List.append_nil]
  | append_singleton m x ih =>
    obtain ⟨hm, hx⟩ := List.append_subset.1 h
    have hmem : x ∈ l ++ m := List.mem_append_left _ (hx (List.mem_singleton_self x))
    rw [← List.append_assoc, eraseDups_concat_of_mem hmem, ih hm]

/-- What is new and all different stays. -/
theorem eraseDups_append_of_new {α : Type} [DecidableEq α] {l m : List α} (nodup : m.Nodup)
    (h : ∀ x ∈ m, x ∉ l) : (l ++ m).eraseDups = l.eraseDups ++ m := by
  induction m using List.reverseRecOn with
  | nil => rw [List.append_nil, List.append_nil]
  | append_singleton m x ih =>
    obtain ⟨hm, -, hdisjoint⟩ := List.nodup_append.1 nodup
    have hx : x ∉ l ++ m := fun hmem => (List.mem_append.1 hmem).elim
      (h x (List.mem_append_right _ (List.mem_singleton_self x)))
      fun hmem => hdisjoint x hmem x (List.mem_singleton_self x) rfl
    rw [← List.append_assoc, eraseDups_concat_of_not_mem hx,
      ih hm fun y hy => h y (List.mem_append_left _ hy), List.append_assoc]

theorem nodup_eraseDups {α : Type} [DecidableEq α] (l : List α) : l.eraseDups.Nodup := by
  induction l using List.reverseRecOn with
  | nil => exact List.nodup_nil
  | append_singleton l x ih =>
    by_cases h : x ∈ l
    · rwa [eraseDups_concat_of_mem h]
    · rw [eraseDups_concat_of_not_mem h]
      exact List.nodup_append.2 ⟨ih, List.nodup_singleton x, fun y hy z hz heq =>
        h (List.mem_singleton.1 hz ▸ heq ▸ List.mem_eraseDups.1 hy)⟩

/-- What passes a filter in a row of lists, if only one of them has such elements. -/
theorem filter_flatMap_of_nodup {α β : Type} {l : List α} (nodup : l.Nodup) {x : α} (hx : x ∈ l)
    (f : α → List β) (p : β → Bool) (others : ∀ y ∈ l, y ≠ x → (f y).filter p = []) :
    (l.flatMap f).filter p = (f x).filter p := by
  induction l with
  | nil => exact absurd hx List.not_mem_nil
  | cons y l ih =>
    obtain ⟨hy, hl⟩ := List.nodup_cons.1 nodup
    rw [List.flatMap_cons, List.filter_append]
    by_cases heq : y = x
    · subst heq
      have hnone : (l.flatMap f).filter p = [] := by
        rw [List.filter_flatMap, List.flatMap_eq_nil_iff]
        intro z hz
        refine others z (List.mem_cons_of_mem _ hz) ?_
        rintro rfl
        exact hy hz
      rw [hnone, List.append_nil]
    · rw [others y List.mem_cons_self heq, List.nil_append]
      exact ih hl ((List.mem_cons.1 hx).resolve_left (Ne.symm heq)) fun z hz =>
        others z (List.mem_cons_of_mem _ hz)

/-! ## Functions that may fail -/

theorem mapM_eq_some_iff {α β : Type} {f : α → Option β} {l : List α} {m : List β} :
    l.mapM f = some m ↔ List.Forall₂ (fun x y => f x = some y) l m := by
  induction l generalizing m with
  | nil => cases m <;> simp
  | cons x l ih =>
    rw [List.mapM_cons]
    cases hx : f x with
    | none => cases m <;> simp [hx]
    | some y =>
      cases hl : l.mapM f with
      | none => cases m <;> simp [← ih, hl, hx]
      | some ys => cases m <;> simp [← ih, hl, hx]

theorem mapM_eq_ok_iff {α β ε : Type} {f : α → Except ε β} {l : List α} {m : List β} :
    l.mapM f = .ok m ↔ List.Forall₂ (fun x y => f x = .ok y) l m := by
  induction l generalizing m with
  | nil => cases m <;> simp [pure, Except.pure]
  | cons x l ih =>
    rw [List.mapM_cons]
    cases hx : f x with
    | error e => cases m <;> simp [bind, Except.bind, hx]
    | ok y =>
      cases hl : l.mapM f with
      | error e => cases m <;> simp [bind, Except.bind, ← ih, hl, hx]
      | ok ys => cases m <;> simp [bind, Except.bind, pure, Except.pure, ← ih, hl, hx]

/-- The first element that fails decides the error. -/
theorem mapM_eq_error_iff {α β ε : Type} {f : α → Except ε β} {l : List α} {e : ε} :
    l.mapM f = .error e ↔
      ∃ before x after, l = before ++ x :: after ∧ (∀ y ∈ before, ∃ z, f y = .ok z) ∧
        f x = .error e := by
  constructor
  · intro h
    induction l with
    | nil => cases h
    | cons x l ih =>
      rw [List.mapM_cons] at h
      cases hx : f x with
      | error e' =>
        obtain rfl : e' = e := by simpa [bind, Except.bind, hx] using h
        exact ⟨[], x, l, rfl, by simp, hx⟩
      | ok z =>
        have hl : l.mapM f = .error e := by
          cases hl : l.mapM f with
          | error e' => simpa [bind, Except.bind, hx, hl] using h
          | ok ys => simp [bind, Except.bind, pure, Except.pure, hx, hl] at h
        obtain ⟨before, y, after, rfl, hbefore, hy⟩ := ih hl
        exact ⟨x :: before, y, after, rfl, List.forall_mem_cons.2 ⟨⟨z, hx⟩, hbefore⟩, hy⟩
  · rintro ⟨before, x, after, rfl, hbefore, hx⟩
    induction before with
    | nil => simp [bind, Except.bind, hx]
    | cons y before ih =>
      obtain ⟨⟨z, hz⟩, hbefore⟩ := List.forall_mem_cons.1 hbefore
      rw [List.cons_append, List.mapM_cons, ih hbefore]
      simp [bind, Except.bind, hz]

/-! ## Steps that may fail -/

section

variable {ε σ β γ : Type}

theorem bind_eq_ok_iff {α : Type} {x : Except ε α} {f : α → Except ε β} {b : β} :
    (x >>= f) = .ok b ↔ ∃ a, x = .ok a ∧ f a = .ok b := by
  cases x with
  | error e => simp [bind, Except.bind]
  | ok a => simp [bind, Except.bind]

theorem bind_eq_error_iff {α : Type} {x : Except ε α} {f : α → Except ε β} {e : ε} :
    (x >>= f) = .error e ↔ x = .error e ∨ ∃ a, x = .ok a ∧ f a = .error e := by
  cases x with
  | error e => simp [bind, Except.bind]
  | ok a => simp [bind, Except.bind]

variable {f : σ → β → Except ε σ} {I : σ → Prop}

/-- What is left after a row of steps adds up to what each of them adds. -/
theorem of_foldlM_eq_ok {view : σ → List γ} {g : β → List γ}
    (step : ∀ s b t, I s → f s b = .ok t → I t ∧ view t = view s ++ g b) {xs : List β} {s t : σ}
    (hs : I s) (h : xs.foldlM f s = .ok t) : I t ∧ view t = view s ++ xs.flatMap g := by
  induction xs generalizing s with
  | nil =>
    obtain rfl := Except.ok.inj h
    exact ⟨hs, (List.append_nil _).symm⟩
  | cons x xs ih =>
    rw [List.foldlM_cons] at h
    obtain ⟨u, hx, hxs⟩ := bind_eq_ok_iff.1 h
    obtain ⟨hu, hview⟩ := step s x u hs hx
    obtain ⟨ht, hrest⟩ := ih hu hxs
    exact ⟨ht, by rw [hrest, hview, List.append_assoc, List.flatMap_cons]⟩

/-- Where it does not hang on the state whether a step succeeds, all of them have to. -/
theorem exists_foldlM_eq_ok_iff {P : β → Prop} (keeps : ∀ s b t, I s → f s b = .ok t → I t)
    (ok : ∀ s b, I s → ((∃ t, f s b = .ok t) ↔ P b)) {xs : List β} {s : σ} (hs : I s) :
    (∃ t, xs.foldlM f s = .ok t) ↔ ∀ b ∈ xs, P b := by
  induction xs generalizing s with
  | nil => exact ⟨fun _ b hb => absurd hb List.not_mem_nil, fun _ => ⟨s, rfl⟩⟩
  | cons x xs ih =>
    simp only [List.foldlM_cons, bind_eq_ok_iff, List.forall_mem_cons]
    constructor
    · rintro ⟨t, u, hx, hxs⟩
      exact ⟨(ok s x hs).1 ⟨u, hx⟩, (ih (keeps s x u hs hx)).1 ⟨t, hxs⟩⟩
    · rintro ⟨hx, hxs⟩
      obtain ⟨u, hu⟩ := (ok s x hs).2 hx
      obtain ⟨t, ht⟩ := (ih (keeps s x u hs hu)).2 hxs
      exact ⟨t, u, hu, ht⟩

end

/-! ## Items and their positions -/

/-- Every item satisfies the property together with its position. -/
def Positioned {α : Type} (P : ℕ → α → Prop) (l : List α) : Prop := ∀ i x, l[i]? = some x → P i x

section
variable {α : Type} {P : ℕ → α → Prop} {l : List α}

theorem Positioned.concat (hl : Positioned P l) {x : α} (hx : P l.length x) :
    Positioned P (l ++ [x]) := by
  intro i y hy
  by_cases hi : i < l.length
  · rw [List.getElem?_append_left hi] at hy
    exact hl i y hy
  · rw [List.getElem?_append_right (Nat.le_of_not_lt hi), List.getElem?_singleton] at hy
    split at hy
    · next hzero =>
      obtain rfl := Option.some.inj hy
      obtain rfl : i = l.length := by omega
      exact hx
    · cases hy

theorem Positioned.modify (hl : Positioned P l) {f : α → α} {k : ℕ}
    (hf : ∀ x, l[k]? = some x → P k x → P k (f x)) : Positioned P (l.modify k f) := by
  intro i y hy
  rw [List.getElem?_modify] at hy
  obtain ⟨x, hx, rfl⟩ := Option.map_eq_some_iff.1 hy
  split
  · next hk =>
    subst hk
    exact hf x hx (hl _ x hx)
  · exact hl i x hx

end

theorem modify_concat_length {α : Type} (l : List α) (x : α) (f : α → α) :
    (l ++ [x]).modify l.length f = l ++ [f x] := by
  induction l with
  | nil => rfl
  | cons y l ih => rw [List.cons_append, List.length_cons, List.modify_succ_cons, ih,
      List.cons_append]

/-- Positions behind an item that stays where it is. -/
def behindFirst (σ : ℕ → ℕ) : ℕ → ℕ
  | 0 => 0
  | i + 1 => σ i + 1

/-- Positions after the first two items changed places. -/
def firstSwapped : ℕ → ℕ
  | 0 => 1
  | 1 => 0
  | i + 2 => i + 2

/-- Items at other positions: each has a position of its own in the other list, and nothing moves
beyond the end. -/
theorem exists_positions {α : Type} {l m : List α} (h : l.Perm m) :
    ∃ σ : ℕ → ℕ, σ.Injective ∧ (∀ i, m[σ i]? = l[i]?) ∧ ∀ i, l.length ≤ i → σ i = i := by
  induction h with
  | nil => exact ⟨id, Function.injective_id, fun _ => rfl, fun _ _ => rfl⟩
  | cons x _ ih =>
    obtain ⟨σ, hσ, hget, hbeyond⟩ := ih
    refine ⟨behindFirst σ, ?_, ?_, ?_⟩
    · rintro (_ | i) (_ | j) hij
      · rfl
      · cases hij
      · cases hij
      · exact congrArg (· + 1) (hσ (Nat.succ.inj hij))
    · rintro (_ | i)
      · rfl
      · exact hget i
    · rintro (_ | i) hi
      · rfl
      · exact congrArg (· + 1) (hbeyond i (Nat.le_of_succ_le_succ hi))
  | swap x y l =>
    refine ⟨firstSwapped, ?_, ?_, ?_⟩
    · rintro (_ | _ | i) (_ | _ | j) hij <;> simp [firstSwapped] at hij ⊢; omega
    · rintro (_ | _ | i) <;> rfl
    · rintro (_ | _ | i) hi
      · cases hi
      · exact absurd hi (by simp)
      · rfl
  | trans h₁ _ ih₁ ih₂ =>
    obtain ⟨σ, hσ, hget, hbeyond⟩ := ih₁
    obtain ⟨ρ, hρ, hget', hbeyond'⟩ := ih₂
    refine ⟨ρ ∘ σ, hρ.comp hσ, fun i => (hget' _).trans (hget i), fun i hi => ?_⟩
    rw [Function.comp_apply, hbeyond i hi]
    exact hbeyond' i (h₁.length_eq ▸ hi)

/-- The first item that has a property is the only one that has it. -/
theorem find?_eq_some_of_unique {α : Type} {p : α → Bool} {l : List α} {x : α} (hx : x ∈ l)
    (hp : p x) (unique : ∀ y ∈ l, p y → y = x) : l.find? p = some x := by
  cases h : l.find? p with
  | none => exact absurd hp (by simpa using List.find?_eq_none.1 h x hx)
  | some y => rw [unique y (List.mem_of_find?_eq_some h) (List.find?_some h)]

/-- Items with different keys are told apart by their keys. -/
theorem index_eq_of_key_eq {α κ : Type} {l : List α} {key : α → κ} (h : (l.map key).Nodup)
    {i j : ℕ} {x y : α} (hx : l[i]? = some x) (hy : l[j]? = some y) (hkey : key x = key y) :
    i = j := by
  refine (List.getElem?_inj ?_ h).1 ?_
  · rw [List.length_map]
    exact (List.getElem?_eq_some_iff.1 hx).1
  · rw [List.getElem?_map, List.getElem?_map, hx, hy, Option.map_some, Option.map_some, hkey]

theorem lt_length_iff_of_map_eq {α β γ : Type} {l : List α} {m : List β} {f : α → γ} {g : β → γ}
    {i j : ℕ} (h : m[j]?.map g = l[i]?.map f) : j < m.length ↔ i < l.length := by
  have hsome := congrArg Option.isSome h
  rw [Option.isSome_map, Option.isSome_map, Bool.eq_iff_iff] at hsome
  simpa using hsome

end JoinPath
