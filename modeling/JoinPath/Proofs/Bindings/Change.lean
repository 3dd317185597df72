import JoinPath.Proofs.Criteria.Leaves
import JoinPath.Proofs.Text.Numbered
import JoinPath.Session.Bindings
/-!
# Changes of the parameters

The parameters of a statement change in four ways: a literal is named, a number is used up, the
parameters of a subquery are taken over, or a value is set. A literal takes its name whatever the
name was bound to; a subquery never does (`get?_adopt`). So after any sequence of changes a name
that was not set stands for the literal that took it last, and a literal is the only one ever to
take its name (`named_unique`).
-/

namespace JoinPath

namespace Bindings

inductive Change
  /-- A literal receives the next name made from the alias. -/
  | named (tableAlias : String) (value : Value)
  /-- A number is used up without a literal. -/
  | skipped
  /-- The parameters of a subquery are taken over. -/
  | adopted (parameters : Parameters)
  | assigned (name : String) (value : Value)

def change (b : Bindings) : Change → Bindings
  | .named tableAlias value => (b.bindLiteral tableAlias value).2
  | .skipped => b.nextLiteral.2
  | .adopted parameters => b.adopt parameters
  | .assigned name value => b.set name value

/-- The parameters after a sequence of changes. -/
def changed (b : Bindings) (changes : List Change) : Bindings := changes.foldl change b

@[simp] theorem changed_nil (b : Bindings) : b.changed [] = b := rfl

@[simp] theorem changed_cons (b : Bindings) (c : Change) (cs : List Change) :
    b.changed (c :: cs) = (b.change c).changed cs := rfl

@[simp] theorem changed_append (b : Bindings) (cs ds : List Change) :
    b.changed (cs ++ ds) = (b.changed cs).changed ds :=
  List.foldl_append

/-- How many numbers of literals a change uses up. -/
def Change.numbers : Change → ℕ
  | named _ _ => 1
  | skipped => 1
  | adopted _ => 0
  | assigned _ _ => 0

def numbersUsed (changes : List Change) : ℕ := (changes.map Change.numbers).sum

theorem numbersUsed_cons (c : Change) (cs : List Change) :
    numbersUsed (c :: cs) = c.numbers + numbersUsed cs := by
  simp [numbersUsed]

/-- The literals that receive names, after `used` numbers were used up. -/
def namedFrom (used : ℕ) : List Change → List (String × Value)
  | [] => []
  | c :: cs =>
    match c with
    | .named tableAlias value =>
      (literalName tableAlias (used + 1), value) :: namedFrom (used + c.numbers) cs
    | _ => namedFrom (used + c.numbers) cs

theorem namedFrom_append (used : ℕ) (cs ds : List Change) :
    namedFrom used (cs ++ ds) = namedFrom used cs ++ namedFrom (used + numbersUsed cs) ds := by
  induction cs generalizing used with
  | nil => simp [namedFrom, numbersUsed]
  | cons c cs ih =>
    have shift : used + c.numbers + numbersUsed cs = used + numbersUsed (c :: cs) := by
      rw [numbersUsed_cons]
      omega
    cases c <;> simp only [List.cons_append, namedFrom, ih, shift]

theorem literalName_eq (tableAlias : String) (n : ℕ) :
    literalName tableAlias n = Text.numberedName tableAlias 'R' n :=
  Text.append_letter tableAlias 'R' n

theorem literalName_inj {a b : String} {m n : ℕ} (h : literalName a m = literalName b n) :
    a = b ∧ m = n := by
  rw [literalName_eq, literalName_eq] at h
  obtain ⟨ha, -, hn⟩ := Text.numberedName_inj (by decide) (by decide) h
  exact ⟨ha, hn⟩

/-- A name is made from the alias of its change and a number between the numbers used up before and
after. -/
theorem number_of_mem_namedFrom {used : ℕ} {cs : List Change} {name : String} {value : Value}
    (h : (name, value) ∈ namedFrom used cs) :
    ∃ a n, Change.named a value ∈ cs ∧ name = literalName a n ∧ used < n ∧
      n ≤ used + numbersUsed cs := by
  induction cs generalizing used with
  | nil => simp [namedFrom] at h
  | cons c cs ih =>
    have tail (h : (name, value) ∈ namedFrom (used + c.numbers) cs) :
        ∃ a n, Change.named a value ∈ c :: cs ∧ name = literalName a n ∧ used < n ∧
          n ≤ used + numbersUsed (c :: cs) := by
      obtain ⟨a, n, hc, rfl, hlt, hle⟩ := ih h
      rw [numbersUsed_cons]
      exact ⟨a, n, List.mem_cons_of_mem _ hc, rfl, by omega, by omega⟩
    cases c with
    | named a v =>
      rcases List.mem_cons.1 h with heq | h
      · obtain ⟨rfl, rfl⟩ := Prod.mk.inj heq
        exact ⟨a, used + 1, List.mem_cons_self, rfl, by omega,
          by simp [numbersUsed_cons, Change.numbers]⟩
      · exact tail h
    | skipped => exact tail h
    | adopted p => exact tail h
    | assigned n v => exact tail h

/-- No two literals receive the same name. -/
theorem nodup_namedFrom (used : ℕ) (cs : List Change) :
    ((namedFrom used cs).map Prod.fst).Nodup := by
  induction cs generalizing used with
  | nil => exact List.nodup_nil
  | cons c cs ih =>
    cases c with
    | named a v =>
      refine List.nodup_cons.2 ⟨fun h => ?_, ih _⟩
      obtain ⟨⟨name, w⟩, he, rfl⟩ := List.mem_map.1 h
      obtain ⟨b, n, -, hb, hlt, -⟩ := number_of_mem_namedFrom he
      have hn : used + 1 = n := (literalName_inj hb).2
      simp only [Change.numbers] at hlt
      omega
    | skipped => exact ih _
    | adopted p => exact ih _
    | assigned n v => exact ih _

theorem named_unique {used : ℕ} {cs : List Change} {name : String} {v w : Value}
    (hv : (name, v) ∈ namedFrom used cs) (hw : (name, w) ∈ namedFrom used cs) : v = w :=
  (Prod.mk.inj (List.inj_on_of_nodup_map (nodup_namedFrom used cs) hv hw rfl)).2

/-! ## Taking over -/

theorem get?_set (b : Bindings) (name : String) (value : Value) (other : String) :
    (b.set name value).parameters.get? other =
      if name = other then some value else b.parameters.get? other :=
  NameMap.get?_insert _ _ _ _

theorem literals_adoptEntry (b : Bindings) (e : String × Value) :
    (b.adoptEntry e).literals = b.literals := by
  unfold adoptEntry
  split
  · rfl
  · split <;> rfl

/-- Nothing that is bound is bound anew. -/
theorem get?_adoptEntry_of_bound {b : Bindings} {name : String} {w : Value}
    (h : b.parameters.get? name = some w) (e : String × Value) :
    (b.adoptEntry e).parameters.get? name = some w := by
  unfold adoptEntry
  split
  · next hnone =>
    have hne : e.1 ≠ name := fun he => by simp [he, h] at hnone
    rw [get?_set, if_neg hne, h]
  · split <;> exact h

theorem conflict_adoptEntry {b : Bindings} {name : String} (h : b.conflict = some name)
    (e : String × Value) : (b.adoptEntry e).conflict = some name := by
  unfold adoptEntry
  split
  · exact h
  · split
    · exact h
    · simp [h]

theorem literals_adopt (b : Bindings) (p : Parameters) : (b.adopt p).literals = b.literals := by
  unfold adopt
  induction p.entries generalizing b with
  | nil => rfl
  | cons e es ih => rw [List.foldl_cons, ih, literals_adoptEntry]

theorem get?_foldl_of_bound {b : Bindings} {name : String} {w : Value}
    (h : b.parameters.get? name = some w) (es : List (String × Value)) :
    (es.foldl adoptEntry b).parameters.get? name = some w :=
  List.foldlRecOn es adoptEntry (motive := fun b => b.parameters.get? name = some w) h
    fun _ hb e _ => get?_adoptEntry_of_bound hb e

theorem conflict_foldl {b : Bindings} {name : String} (h : b.conflict = some name)
    (es : List (String × Value)) : (es.foldl adoptEntry b).conflict = some name :=
  List.foldlRecOn es adoptEntry (motive := fun b => b.conflict = some name) h
    fun _ hb e _ => conflict_adoptEntry hb e

/-- What a name stands for once an entry for it was taken over: the value it had before, and
another value in the entry is a conflict; else that of the entry. -/
theorem get?_foldl_of_mem {name : String} {value : Value} {es : List (String × Value)}
    (h : (name, value) ∈ es) (asc : es.Pairwise fun d e => d.1 < e.1) (b : Bindings) :
    (b.parameters.get? name = none →
      (es.foldl adoptEntry b).parameters.get? name = some value) ∧
    ∀ w, b.parameters.get? name = some w → (w == value) = false →
      (es.foldl adoptEntry b).conflict.isSome := by
  induction es generalizing b with
  | nil => simp at h
  | cons e es ih =>
    obtain ⟨head, asc⟩ := List.pairwise_cons.1 asc
    rcases List.mem_cons.1 h with rfl | h
    · constructor
      · intro hnone
        have hset : (b.adoptEntry (name, value)).parameters.get? name = some value := by
          simp [adoptEntry, hnone, get?_set]
        exact get?_foldl_of_bound hset es
      · intro w hw hne
        have hc : (b.adoptEntry (name, value)).conflict = b.conflict.or (some name) := by
          simp [adoptEntry, hw, hne]
        -- A clash from before stays the one that is seen.
        cases hb : b.conflict with
        | none =>
          rw [hb, Option.none_or] at hc
          simp [conflict_foldl hc es]
        | some n =>
          rw [hb, Option.some_or] at hc
          simp [conflict_foldl hc es]
    · have hne : e.1 ≠ name := fun he => String.lt_irrefl _ (he ▸ head _ h)
      have same : (b.adoptEntry e).parameters.get? name = b.parameters.get? name := by
        unfold adoptEntry
        split
        · rw [get?_set, if_neg hne]
        · split <;> rfl
      simpa only [List.foldl_cons, same] using ih h asc (b.adoptEntry e)

/-! ## Sequences of changes -/

theorem literals_change (b : Bindings) (c : Change) :
    (b.change c).literals = b.literals + c.numbers := by
  cases c with
  | named a v => rfl
  | skipped => rfl
  | adopted p => exact literals_adopt b p
  | assigned n v => rfl

theorem literals_changed (b : Bindings) (cs : List Change) :
    (b.changed cs).literals = b.literals + numbersUsed cs := by
  induction cs generalizing b with
  | nil => rfl
  | cons c cs ih => rw [changed_cons, ih, literals_change, numbersUsed_cons, Nat.add_assoc]

theorem conflict_changed {b : Bindings} {name : String} (h : b.conflict = some name)
    (cs : List Change) : (b.changed cs).conflict = some name := by
  induction cs generalizing b with
  | nil => exact h
  | cons c cs ih =>
    refine ih ?_
    cases c with
    | named a v => exact h
    | skipped => exact h
    | adopted p => exact conflict_foldl h p.entries
    | assigned n v => exact h

/-- A name keeps its value until it is set, or taken by a literal. -/
theorem get?_changed_of_bound {b : Bindings} {name : String} {w : Value}
    (h : b.parameters.get? name = some w) {cs : List Change}
    (unset : ∀ v, Change.assigned name v ∉ cs)
    (free : ∀ v, (name, v) ∉ namedFrom b.literals cs) :
    (b.changed cs).parameters.get? name = some w := by
  induction cs generalizing b with
  | nil => exact h
  | cons c cs ih =>
    have unset' : ∀ v, Change.assigned name v ∉ cs := fun v hv =>
      unset v (List.mem_cons_of_mem _ hv)
    have free' : ∀ v, (name, v) ∉ namedFrom (b.change c).literals cs := by
      intro v hv
      rw [literals_change] at hv
      cases c <;> first | exact free v hv | exact free v (List.mem_cons_of_mem _ hv)
    refine ih ?_ unset' free'
    cases c with
    | named a v =>
      have hne : literalName a (b.literals + 1) ≠ name := by
        rintro rfl
        exact free v List.mem_cons_self
      exact (get?_set _ _ _ _).trans ((if_neg hne).trans h)
    | skipped => exact h
    | adopted p => exact get?_foldl_of_bound h p.entries
    | assigned n v =>
      have hne : n ≠ name := by
        rintro rfl
        exact unset v List.mem_cons_self
      exact (get?_set _ _ _ _).trans ((if_neg hne).trans h)

/-- A literal keeps the name it took. -/
theorem get?_changed_of_named {b : Bindings} {name : String} {v : Value} {cs : List Change}
    (h : (name, v) ∈ namedFrom b.literals cs) (unset : ∀ w, Change.assigned name w ∉ cs) :
    (b.changed cs).parameters.get? name = some v := by
  induction cs generalizing b with
  | nil => simp [namedFrom] at h
  | cons c cs ih =>
    have unset' : ∀ w, Change.assigned name w ∉ cs := fun w hw =>
      unset w (List.mem_cons_of_mem _ hw)
    have tail (h : (name, v) ∈ namedFrom (b.literals + c.numbers) cs) :
        ((b.change c).changed cs).parameters.get? name = some v :=
      ih (b := b.change c) (literals_change b c ▸ h) unset'
    cases c with
    | named a u =>
      rcases List.mem_cons.1 h with heq | h
      · obtain ⟨rfl, rfl⟩ := Prod.mk.inj heq
        refine get?_changed_of_bound ((get?_set _ _ _ _).trans (if_pos rfl)) unset' fun w hw => ?_
        have hnodup := nodup_namedFrom b.literals (.named a v :: cs)
        exact (List.nodup_cons.1 hnodup).1 (List.mem_map.2 ⟨_, hw, rfl⟩)
      · exact tail h
    | skipped => exact tail h
    | adopted p => exact tail h
    | assigned n u => exact tail h

end Bindings

end JoinPath
