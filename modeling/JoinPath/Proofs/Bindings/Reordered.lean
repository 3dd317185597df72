import JoinPath.Proofs.Bindings.Agreed
import JoinPath.Proofs.Criteria.Renamed
/-!
# Parameters in another order

What a name stands for after a sequence of changes is the value that it was set to last, or else the
one that was taken over first, unless a literal took it (`get?_changed_of_free`). So where changes
that set nothing move over others, only the numbers of literals move with them: every other name
stands for the same (`reads_moved`).
-/

namespace JoinPath

theorem Binary64.beq_comm (x y : Binary64) : (x == y) = (y == x) := by
  change (!x.isNaN && !y.isNaN && (x.bits == y.bits || (x.isZero && y.isZero))) =
    (!y.isNaN && !x.isNaN && (y.bits == x.bits || (y.isZero && x.isZero)))
  rw [Bool.and_comm (!x.isNaN), Bool.and_comm x.isZero, BEq.comm (a := x.bits)]

theorem Value.beq_comm (v w : Value) : (v == w) = (w == v) := by
  change v.beq w = w.beq v
  cases v <;> cases w <;> simp only [Value.beq, BEq.comm, Binary64.beq_comm]

namespace Bindings

/-! ## The value of a name -/

/-- The values that a name is set to, in their order. -/
def assignedTo (name : String) (cs : List Change) : List Value :=
  cs.filterMap fun
    | .assigned n v => if n = name then some v else none
    | _ => none

/-- The values under this name in what is taken over, in their order. -/
def adoptedAs (name : String) (cs : List Change) : List Value :=
  cs.filterMap fun
    | .adopted p => p.get? name
    | _ => none

theorem get?_adoptEntry_of_ne {name : String} {e : String × Value} (h : e.1 ≠ name)
    (b : Bindings) : (b.adoptEntry e).parameters.get? name = b.parameters.get? name := by
  unfold adoptEntry
  split
  · rw [get?_set, if_neg h]
  · split <;> rfl

theorem get?_foldl_of_not_mem {name : String} {es : List (String × Value)}
    (h : ∀ e ∈ es, e.1 ≠ name) (b : Bindings) :
    (es.foldl adoptEntry b).parameters.get? name = b.parameters.get? name := by
  induction es generalizing b with
  | nil => rfl
  | cons e es ih =>
    rw [List.foldl_cons, ih fun d hd => h d (List.mem_cons_of_mem _ hd),
      get?_adoptEntry_of_ne (h e List.mem_cons_self)]

theorem get?_adopt (b : Bindings) (p : Parameters) (name : String) :
    (b.adopt p).parameters.get? name = (b.parameters.get? name).or (p.get? name) := by
  cases hb : b.parameters.get? name with
  | some w => exact get?_foldl_of_bound hb p.entries
  | none =>
    rw [Option.none_or]
    cases hp : p.get? name with
    | some v => exact (get?_foldl_of_mem (NameMap.mem_of_get? hp) p.ascending b).1 hb
    | none =>
      refine (get?_foldl_of_not_mem (fun e he hname => ?_) b).trans hb
      have hget : p.get? name = some e.2 := NameMap.get?_eq_some_iff.2 (hname ▸ he)
      rw [hp] at hget
      cases hget

/-- A name that no literal takes has the value that it was set to last; else the one that it had, or
that was taken over first. -/
theorem get?_changed_of_free {b : Bindings} {name : String} {cs : List Change}
    (free : ∀ v, (name, v) ∉ namedFrom b.literals cs) :
    (b.changed cs).parameters.get? name =
      (assignedTo name cs).getLast?.or
        ((b.parameters.get? name).or (adoptedAs name cs).head?) := by
  induction cs generalizing b with
  | nil => simp [assignedTo, adoptedAs]
  | cons c cs ih =>
    have free' : ∀ v, (name, v) ∉ namedFrom (b.change c).literals cs := by
      intro v hv
      rw [literals_change] at hv
      cases c <;> first | exact free v hv | exact free v (List.mem_cons_of_mem _ hv)
    rw [changed_cons, ih free']
    cases c with
    | named a v =>
      have hne : literalName a (b.literals + 1) ≠ name := by
        rintro rfl
        exact free v List.mem_cons_self
      have hsame : (b.change (.named a v)).parameters.get? name = b.parameters.get? name :=
        (get?_set _ _ _ _).trans (if_neg hne)
      rw [hsame]
      rfl
    | skipped => rfl
    | adopted p =>
      have hsame : (b.change (.adopted p)).parameters.get? name =
          (b.parameters.get? name).or (p.get? name) := b.get?_adopt p name
      have hfirst : (adoptedAs name (.adopted p :: cs)).head? =
          (p.get? name).or (adoptedAs name cs).head? := by
        simp only [adoptedAs, List.filterMap_cons]
        cases p.get? name <;> rfl
      rw [hsame, Option.or_assoc, hfirst]
      rfl
    | assigned n v =>
      have hset : (b.change (.assigned n v)).parameters.get? name =
          if n = name then some v else b.parameters.get? name := get?_set _ _ _ _
      have hadopted : adoptedAs name (.assigned n v :: cs) = adoptedAs name cs := rfl
      have hassigned : assignedTo name (.assigned n v :: cs) =
          if n = name then v :: assignedTo name cs else assignedTo name cs := by
        simp only [assignedTo, List.filterMap_cons]
        by_cases heq : n = name
        · simp only [heq, if_true]
        · simp only [heq, if_false]
      rw [hset, hadopted, hassigned]
      by_cases heq : n = name
      · rw [if_pos heq, if_pos heq, List.getLast?_cons]
        cases (assignedTo name cs).getLast? <;> rfl
      · rw [if_neg heq, if_neg heq]

theorem mem_assignedTo {name : String} {value : Value} {cs : List Change} :
    value ∈ assignedTo name cs ↔ .assigned name value ∈ cs := by
  unfold assignedTo
  rw [List.mem_filterMap]
  constructor
  · rintro ⟨c, hc, h⟩
    cases c with
    | assigned n v =>
      by_cases heq : n = name
      · simp only [heq, if_true, Option.some.injEq] at h
        exact h ▸ heq ▸ hc
      · simp [heq] at h
    | _ => cases h
  · intro h
    exact ⟨_, h, if_pos rfl⟩

/-! ## Agreement -/

/-- The values that a change brings under names of their own. -/
def Change.offers : Change → List (String × Value)
  | adopted p => p.entries
  | assigned name value => [(name, value)]
  | _ => []

/-- Where both changes bring a value for a name and one of them takes it over, the values are equal
as the parameters compare them, and the `same` to whoever reads them. -/
def Change.Agrees (same : Value → Value → Prop) (x y : Change) : Prop :=
  ∀ name v w, (name, v) ∈ x.offers → (name, w) ∈ y.offers →
    ((∃ p, x = .adopted p) ∨ ∃ p, y = .adopted p) → (v == w) = true ∧ same v w

/-- A change that names literals under one alias, skips no number, and brings no name that such a
literal could take. -/
structure Change.IsRegular (a : String) (x : Change) : Prop where
  alias_eq : ∀ b v, x = .named b v → b = a
  not_skipped : x ≠ .skipped
  offers : ∀ name v, (name, v) ∈ x.offers → ∀ n, name ≠ literalName a n

variable {same : Value → Value → Prop} {a : String} {cs : List Change}

theorem Change.Agrees.symm (symm : ∀ v w, same v w → same w v) {x y : Change}
    (h : x.Agrees same y) : y.Agrees same x := by
  intro name v w hv hw hadopted
  obtain ⟨heq, hsame⟩ := h name w v hw hv hadopted.symm
  exact ⟨Value.beq_comm w v ▸ heq, symm _ _ hsame⟩

theorem free_of_offered (regular : ∀ x ∈ cs, x.IsRegular a) {used : ℕ} {name : String}
    (h : ∀ n, name ≠ literalName a n) (v : Value) : (name, v) ∉ namedFrom used cs := by
  intro hv
  obtain ⟨b, n, hc, rfl, -, -⟩ := number_of_mem_namedFrom hv
  exact h n (by rw [(regular _ hc).alias_eq b v rfl])

/-- A name that no literal takes stands for a value that a change brought. -/
theorem exists_offer {name : String} {v : Value} (free : ∀ w, (name, w) ∉ namedFrom 0 cs)
    (hget : (empty.changed cs).parameters.get? name = some v) :
    ∃ x ∈ cs, (name, v) ∈ x.offers := by
  rw [get?_changed_of_free free] at hget
  rcases Option.or_eq_some_iff.1 hget with hlast | ⟨-, hfirst⟩
  · exact ⟨_, mem_assignedTo.1 (List.mem_of_getLast? hlast), List.mem_singleton_self _⟩
  · obtain ⟨x, hx, hv⟩ := List.mem_filterMap.1 (List.mem_of_head? hfirst)
    cases x with
    | adopted p => exact ⟨_, hx, NameMap.mem_of_get? hv⟩
    | _ => cases hv

theorem conflict_foldl_of_agrees {es : List (String × Value)}
    (asc : es.Pairwise fun d e => d.1 < e.1) {b : Bindings}
    (h : ∀ e ∈ es, ∀ w, b.parameters.get? e.1 = some w → (w == e.2) = true) :
    (es.foldl adoptEntry b).conflict = b.conflict := by
  induction es generalizing b with
  | nil => rfl
  | cons e es ih =>
    obtain ⟨hlt, asc⟩ := List.pairwise_cons.1 asc
    have hfirst : (b.adoptEntry e).conflict = b.conflict := by
      unfold adoptEntry
      split
      · rfl
      · next w hw => rw [if_pos (h e List.mem_cons_self w hw)]
    rw [List.foldl_cons, ih asc fun d hd w hw => ?_, hfirst]
    have hne : e.1 ≠ d.1 := fun heq => String.lt_irrefl _ (heq ▸ hlt d hd)
    rw [get?_adoptEntry_of_ne hne] at hw
    exact h d (List.mem_cons_of_mem _ hd) w hw

/-- Changes that agree with each other leave no conflict. -/
theorem conflict_changed_of_agrees (regular : ∀ x ∈ cs, x.IsRegular a)
    (agrees : cs.Pairwise (Change.Agrees same)) : (empty.changed cs).conflict = none := by
  induction cs using List.reverseRecOn with
  | nil => rfl
  | append_singleton cs x ih =>
    obtain ⟨hcs, -, hx⟩ := List.pairwise_append.1 agrees
    have regular' : ∀ y ∈ cs, y.IsRegular a := fun y hy => regular y (List.mem_append_left _ hy)
    have before := ih regular' hcs
    rw [changed_append]
    cases x with
    | adopted p =>
      refine (conflict_foldl_of_agrees p.ascending fun e he w hw => ?_).trans before
      have hown := (regular (.adopted p) (by simp)).offers e.1 e.2 he
      obtain ⟨y, hy, hoffer⟩ := exists_offer (free_of_offered regular' hown) hw
      exact (hx y hy _ (List.mem_singleton_self _) e.1 w e.2 hoffer he (.inr ⟨p, rfl⟩)).1
    | _ => exact before

/-! ## Literals -/

/-- The literals are named under one alias. -/
def NamedUnder (a : String) (cs : List Change) : Prop := ∀ b v, Change.named b v ∈ cs → b = a

theorem NamedUnder.tail {x : Change} (h : NamedUnder a (x :: cs)) : NamedUnder a cs :=
  fun b v hv => h b v (List.mem_cons_of_mem _ hv)

theorem namedUnder_of_isRegular (regular : ∀ x ∈ cs, x.IsRegular a) : NamedUnder a cs :=
  fun b v hv => (regular _ hv).alias_eq b v rfl

/-- Every number that is used up goes to a literal, if none is skipped. -/
theorem exists_named (under : NamedUnder a cs) (unskipped : .skipped ∉ cs) {used i : ℕ}
    (hi : 1 ≤ i) (hle : i ≤ numbersUsed cs) :
    ∃ v, (literalName a (used + i), v) ∈ namedFrom used cs := by
  induction cs generalizing used i with
  | nil =>
    rw [numbersUsed, List.map_nil, List.sum_nil] at hle
    omega
  | cons x cs ih =>
    have rest := fun (used i : ℕ) =>
      @ih under.tail (fun h => unskipped (List.mem_cons_of_mem _ h)) used i
    rw [numbersUsed_cons] at hle
    cases x with
    | named b v =>
      obtain rfl : b = a := under b v List.mem_cons_self
      by_cases hfirst : i = 1
      · subst hfirst
        exact ⟨v, List.mem_cons_self⟩
      · simp only [Change.numbers] at hle
        obtain ⟨w, hw⟩ := rest (used + 1) (i - 1) (by omega) (by omega)
        rw [show used + 1 + (i - 1) = used + i by omega] at hw
        exact ⟨w, List.mem_cons_of_mem _ hw⟩
    | skipped => exact absurd List.mem_cons_self unskipped
    | adopted p =>
      simp only [Change.numbers, Nat.zero_add] at hle
      exact rest used i hi hle
    | assigned n v =>
      simp only [Change.numbers, Nat.zero_add] at hle
      exact rest used i hi hle

/-- A name is that of a literal if its number is used up. -/
theorem exists_mem_namedFrom_iff (regular : ∀ x ∈ cs, x.IsRegular a) {name : String} :
    (∃ v, (name, v) ∈ namedFrom 0 cs) ↔
      ∃ i, 1 ≤ i ∧ i ≤ numbersUsed cs ∧ name = literalName a i := by
  constructor
  · rintro ⟨v, hv⟩
    obtain ⟨b, i, hc, rfl, hlt, hle⟩ := number_of_mem_namedFrom hv
    rw [Nat.zero_add] at hle
    exact ⟨i, hlt, hle, by rw [(regular _ hc).alias_eq b v rfl]⟩
  · rintro ⟨i, hi, hle, rfl⟩
    have hnamed : ∃ v, (literalName a (0 + i), v) ∈ namedFrom 0 cs :=
      exists_named (namedUnder_of_isRegular regular)
        (fun h => (regular _ h).not_skipped rfl) hi hle
    rwa [Nat.zero_add] at hnamed

/-- Literals whose numbers shift keep their values under the new names. -/
theorem mem_namedFrom_of_shifts {ρ : String → String} (under : NamedUnder a cs)
    {used used' : ℕ} (shifts : Shifts ρ a used used' (numbersUsed cs)) {name : String} {v : Value}
    (h : (name, v) ∈ namedFrom used cs) : (ρ name, v) ∈ namedFrom used' cs := by
  induction cs generalizing used used' with
  | nil => exact absurd h List.not_mem_nil
  | cons x cs ih =>
    rw [numbersUsed_cons] at shifts
    have rest := ih under.tail shifts.right
    cases x with
    | named b w =>
      obtain rfl : b = a := under b w List.mem_cons_self
      rcases List.mem_cons.1 h with heq | h
      · obtain ⟨rfl, rfl⟩ := Prod.mk.inj heq
        rw [shifts.left 1 (Nat.le_refl 1) (Nat.le_refl 1)]
        exact List.mem_cons_self
      · exact List.mem_cons_of_mem _ (rest h)
    | _ => exact rest h

/-! ## Changes that move -/

/-- Where the `n`-th number goes if, after the first `k`, the last `m` move ahead of the `l` before
them. -/
def movedNumber (k l m n : ℕ) : ℕ :=
  if n ≤ k then n else if n ≤ k + l then n + m else if n ≤ k + l + m then n - l else n

/-- The name of a literal with its number moved; every other name stays. -/
noncomputable def movedName (a : String) (k l m : ℕ) : String → String :=
  Function.extend (literalName a) (fun n => literalName a (movedNumber k l m n)) id

variable {k l m n : ℕ} {name : String}

theorem movedNumber_injective (k l m : ℕ) : Function.Injective (movedNumber k l m) := by
  intro i j h
  unfold movedNumber at h
  split_ifs at h <;> omega

theorem movedName_literalName (a : String) (k l m n : ℕ) :
    movedName a k l m (literalName a n) = literalName a (movedNumber k l m n) :=
  Function.Injective.extend_apply (fun _ _ h => (literalName_inj h).2) _ _ n

theorem movedName_of_ne (h : ∀ n, name ≠ literalName a n) : movedName a k l m name = name := by
  refine Function.extend_apply' _ _ _ ?_
  rintro ⟨n, rfl⟩
  exact h n rfl

theorem movedName_injective (a : String) (k l m : ℕ) : Function.Injective (movedName a k l m) := by
  have apart (i : ℕ) {other : String} (h : ∀ n, other ≠ literalName a n) :
      movedName a k l m (literalName a i) ≠ movedName a k l m other := by
    rw [movedName_literalName, movedName_of_ne h]
    exact (h _).symm
  intro x y heq
  by_cases hx : ∃ i, x = literalName a i
  · obtain ⟨i, rfl⟩ := hx
    by_cases hy : ∃ j, y = literalName a j
    · obtain ⟨j, rfl⟩ := hy
      rw [movedName_literalName, movedName_literalName] at heq
      rw [movedNumber_injective k l m (literalName_inj heq).2]
    · exact absurd heq (apart i fun n hn => hy ⟨n, hn⟩)
  · by_cases hy : ∃ j, y = literalName a j
    · obtain ⟨j, rfl⟩ := hy
      exact absurd heq.symm (apart j fun n hn => hx ⟨n, hn⟩)
    · rwa [movedName_of_ne fun n hn => hx ⟨n, hn⟩, movedName_of_ne fun n hn => hy ⟨n, hn⟩] at heq

theorem shifts_movedName {used used' : ℕ}
    (h : ∀ i, 1 ≤ i → i ≤ n → movedNumber k l m (used + i) = used' + i) :
    Shifts (movedName a k l m) a used used' n := by
  intro i hi hle
  rw [movedName_literalName, h i hi hle]

/-- The first block of numbers stays, and the other two change places. -/
theorem shifts_blocks (a : String) (k l m : ℕ) :
    Shifts (movedName a k l m) a 0 0 k ∧ Shifts (movedName a k l m) a k (k + m) l ∧
      Shifts (movedName a k l m) a (k + l) k m := by
  refine ⟨shifts_movedName ?_, shifts_movedName ?_, shifts_movedName ?_⟩
  all_goals
    intro i hi hle
    unfold movedNumber
    split_ifs <;> omega

/-- The values that are taken over under one name are the same, in whichever order they stand. -/
theorem same_of_head_adoptedAs {cs ds : List Change} (equivalence : Equivalence same)
    (perm : cs.Perm ds) (agrees : cs.Pairwise (Change.Agrees same)) (name : String) :
    Option.Rel same (adoptedAs name cs).head? (adoptedAs name ds).head? := by
  have hperm : (adoptedAs name cs).Perm (adoptedAs name ds) := perm.filterMap _
  have hpairs : (adoptedAs name cs).Pairwise same := by
    refine agrees.filterMap _ fun x y hxy v hv w hw => ?_
    cases x with
    | adopted p =>
      cases y with
      | adopted q =>
        exact (hxy name v w (NameMap.mem_of_get? hv) (NameMap.mem_of_get? hw) (.inl ⟨p, rfl⟩)).2
      | _ => cases hw
    | _ => cases hv
  have hsymm : Std.Symm same := ⟨fun _ _ h => equivalence.symm h⟩
  cases hcs : (adoptedAs name cs).head? with
  | none =>
    rw [List.head?_eq_none_iff] at hcs
    rw [hcs] at hperm
    rw [← hperm.nil_eq]
    exact .none
  | some v =>
    have hv := List.mem_of_head? hcs
    obtain ⟨w, hds⟩ : ∃ w, (adoptedAs name ds).head? = some w := by
      rw [← Option.isSome_iff_exists, List.isSome_head?]
      exact List.ne_nil_of_mem (hperm.mem_iff.1 hv)
    rw [hds]
    have hw := hperm.mem_iff.2 (List.mem_of_head? hds)
    exact .some (hpairs.forall_of_forall (fun x _ => equivalence.refl x) hv hw)

section Moved

variable {first middle last : List Change}

theorem perm_moved (first middle last : List Change) :
    (first ++ middle ++ last).Perm (first ++ last ++ middle) := by
  rw [List.append_assoc, List.append_assoc]
  exact List.perm_append_comm.append_left first

theorem assignedTo_moved (unset : ∀ name v, .assigned name v ∉ last) (name : String) :
    assignedTo name (first ++ last ++ middle) = assignedTo name (first ++ middle ++ last) := by
  have hlast : assignedTo name last = [] := by
    rw [List.eq_nil_iff_forall_not_mem]
    intro v hv
    exact unset name v (mem_assignedTo.1 hv)
  unfold assignedTo at hlast ⊢
  simp only [List.filterMap_append, hlast, List.append_nil]

/-- A name that no literal takes reads the same once the last changes have moved ahead. -/
theorem same_of_free (equivalence : Equivalence same) (unset : ∀ name v, .assigned name v ∉ last)
    (agrees : (first ++ middle ++ last).Pairwise (Change.Agrees same))
    (free : ∀ v, (name, v) ∉ namedFrom 0 (first ++ middle ++ last))
    (free' : ∀ v, (name, v) ∉ namedFrom 0 (first ++ last ++ middle)) :
    Option.Rel same ((empty.changed (first ++ middle ++ last)).parameters.get? name)
      ((empty.changed (first ++ last ++ middle)).parameters.get? name) := by
  have hunbound : empty.parameters.get? name = none := rfl
  rw [get?_changed_of_free free, get?_changed_of_free free', hunbound, Option.none_or,
    Option.none_or, assignedTo_moved unset]
  cases (assignedTo name (first ++ middle ++ last)).getLast? with
  | some v => exact .some (equivalence.refl v)
  | none => exact same_of_head_adoptedAs equivalence (perm_moved first middle last) agrees name

/-- A literal keeps its value under the name with the number moved. -/
theorem mem_namedFrom_moved (regular : ∀ x ∈ first ++ middle ++ last, x.IsRegular a) {v : Value}
    (h : (name, v) ∈ namedFrom 0 (first ++ middle ++ last)) :
    (movedName a (numbersUsed first) (numbersUsed middle) (numbersUsed last) name, v) ∈
      namedFrom 0 (first ++ last ++ middle) := by
  simp only [List.forall_mem_append] at regular
  have under {cs : List Change} (h : ∀ x ∈ cs, x.IsRegular a) := namedUnder_of_isRegular h
  obtain ⟨⟨hfirst, hmiddle⟩, hlast⟩ := regular
  obtain ⟨atFirst, atMiddle, atLast⟩ :=
    shifts_blocks a (numbersUsed first) (numbersUsed middle) (numbersUsed last)
  simp only [namedFrom_append, List.mem_append, numbersUsed_append, Nat.zero_add] at h ⊢
  rcases h with (h | h) | h
  · exact .inl (.inl (mem_namedFrom_of_shifts (under hfirst) atFirst h))
  · exact .inr (mem_namedFrom_of_shifts (under hmiddle) atMiddle h)
  · exact .inl (.inr (mem_namedFrom_of_shifts (under hlast) atLast h))

/-- A name that no literal takes stays. -/
theorem movedName_of_free (regular : ∀ x ∈ first ++ middle ++ last, x.IsRegular a)
    (free : ∀ v, (name, v) ∉ namedFrom 0 (first ++ middle ++ last)) :
    movedName a (numbersUsed first) (numbersUsed middle) (numbersUsed last) name = name := by
  by_cases hnumbered : ∃ i, name = literalName a i
  · obtain ⟨i, rfl⟩ := hnumbered
    have hunused : ¬ (1 ≤ i ∧ i ≤ numbersUsed (first ++ middle ++ last)) := fun h => by
      obtain ⟨v, hv⟩ := (exists_mem_namedFrom_iff regular).2 ⟨i, h.1, h.2, rfl⟩
      exact free v hv
    simp only [numbersUsed_append] at hunused
    rw [movedName_literalName]
    unfold movedNumber
    split_ifs <;> first | rfl | omega
  · exact movedName_of_ne fun n hn => hnumbered ⟨n, hn⟩

/-- Where changes that set nothing move ahead of others, each name reads the same under the name
with the number moved, and a name without a value stays. -/
theorem reads_moved (equivalence : Equivalence same)
    (regular : ∀ x ∈ first ++ middle ++ last, x.IsRegular a)
    (unset : ∀ name v, .assigned name v ∉ last)
    (agrees : (first ++ middle ++ last).Pairwise (Change.Agrees same)) (name : String) :
    let ρ := movedName a (numbersUsed first) (numbersUsed middle) (numbersUsed last)
    let p := (empty.changed (first ++ middle ++ last)).parameters
    let q := (empty.changed (first ++ last ++ middle)).parameters
    Option.Rel same (p.get? name) (q.get? (ρ name)) ∧ (p.get? name = none → ρ name = name) := by
  intro ρ p q
  have regular' : ∀ x ∈ first ++ last ++ middle, x.IsRegular a := fun x hx =>
    regular x ((perm_moved first middle last).mem_iff.2 hx)
  by_cases taken : ∃ v, (name, v) ∈ namedFrom 0 (first ++ middle ++ last)
  · have read {cs : List Change} (h : ∀ x ∈ cs, x.IsRegular a) {other : String} {v : Value}
        (hv : (other, v) ∈ namedFrom 0 cs) :
        (empty.changed cs).parameters.get? other = some v := by
      refine get?_changed_of_named hv fun w hw => ?_
      obtain ⟨i, -, -, rfl⟩ := (exists_mem_namedFrom_iff h).1 ⟨v, hv⟩
      exact (h _ hw).offers _ w (List.mem_singleton_self _) i rfl
    obtain ⟨v, hv⟩ := taken
    rw [read regular hv, read regular' (mem_namedFrom_moved regular hv)]
    exact ⟨.some (equivalence.refl v), nofun⟩
  · have free : ∀ v, (name, v) ∉ namedFrom 0 (first ++ middle ++ last) := fun v hv => taken ⟨v, hv⟩
    have free' : ∀ v, (name, v) ∉ namedFrom 0 (first ++ last ++ middle) := by
      intro v hv
      obtain ⟨i, hi, hle, rfl⟩ := (exists_mem_namedFrom_iff regular').1 ⟨v, hv⟩
      refine taken ((exists_mem_namedFrom_iff regular).2 ⟨i, hi, ?_, rfl⟩)
      simp only [numbersUsed_append] at hle ⊢
      omega
    have hstays : ρ name = name := movedName_of_free regular free
    rw [hstays]
    exact ⟨same_of_free equivalence unset agrees free free', fun _ => rfl⟩

end Moved

end Bindings

end JoinPath
