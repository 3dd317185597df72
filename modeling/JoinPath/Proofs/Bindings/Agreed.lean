import JoinPath.Proofs.Bindings.Composition
import JoinPath.Proofs.Session.Scope
/-!
# Agreed parameters

Parameters agree with a list of entries that binds no name twice, if each of them is one of the
entries. As long as literals take their names from the list and what is taken over agrees with it,
the parameters agree and no conflict arises (`Agreed.changed`).
-/

namespace JoinPath

open Bindings (Change namedFrom)

namespace Value

def isNaN : Value → Bool
  | float x => x.isNaN
  | _ => false

/-- Only a NaN differs from itself. -/
theorem beq_self {v : Value} (h : v.isNaN = false) : (v == v) = true := by
  change v.beq v = true
  cases v with
  | float x =>
    have hx : x.isNaN = false := h
    change (!x.isNaN && !x.isNaN && (x.bits == x.bits || (x.isZero && x.isZero))) = true
    simp [hx]
  | null => rfl
  | _ => simp [beq]

end Value

namespace Bindings

/-- A list of entries that binds no name twice, and none to a NaN. -/
structure IsLedger (entries : List (String × Value)) : Prop where
  nodup : (entries.map Prod.fst).Nodup
  numbers : ∀ e ∈ entries, e.2.isNaN = false

/-- The parameters are among the entries, and no name was wanted for another value. -/
structure Agreed (entries : List (String × Value)) (b : Bindings) : Prop where
  bound : ∀ e ∈ b.parameters.entries, e ∈ entries
  conflict : b.conflict = none

variable {entries more : List (String × Value)} {b : Bindings}

theorem IsLedger.eq_of_mem (h : IsLedger entries) {name : String} {v w : Value}
    (hv : (name, v) ∈ entries) (hw : (name, w) ∈ entries) : v = w :=
  (Prod.mk.inj (List.inj_on_of_nodup_map h.nodup hv hw rfl)).2

theorem agreed_empty (entries : List (String × Value)) : Agreed entries empty :=
  ⟨fun _ he => absurd he List.not_mem_nil, rfl⟩

theorem Agreed.mono (h : Agreed entries b) (hsub : entries ⊆ more) : Agreed more b :=
  ⟨fun e he => hsub (h.bound e he), h.conflict⟩

theorem Agreed.get? (h : Agreed entries b) {name : String} {value : Value}
    (hget : b.parameters.get? name = some value) : (name, value) ∈ entries :=
  h.bound _ (NameMap.mem_of_get? hget)

theorem Agreed.set (h : Agreed entries b) {e : String × Value} (he : e ∈ entries) :
    Agreed entries (b.set e.1 e.2) := by
  refine ⟨fun d hd => ?_, h.conflict⟩
  rcases NameMap.mem_insertEntry hd with rfl | hd
  · exact he
  · exact h.bound d hd

theorem Agreed.adoptEntry (h : Agreed entries b) (ledger : IsLedger entries) {e : String × Value}
    (he : e ∈ entries) : Agreed entries (b.adoptEntry e) := by
  unfold Bindings.adoptEntry
  split
  · exact h.set he
  · next value hvalue =>
    -- What is bound is one of the entries, so it is the value that is taken over.
    obtain rfl : value = e.2 := ledger.eq_of_mem (h.get? hvalue) he
    rw [if_pos (Value.beq_self (ledger.numbers e he))]
    exact h

theorem Agreed.adopt (h : Agreed entries b) (ledger : IsLedger entries) {p : Parameters}
    (hp : ∀ e ∈ p.entries, e ∈ entries) : Agreed entries (b.adopt p) := by
  unfold Bindings.adopt
  generalize p.entries = es at hp
  induction es generalizing b with
  | nil => exact h
  | cons e es ih =>
    exact ih (h.adoptEntry ledger (hp e List.mem_cons_self)) fun d hd =>
      hp d (List.mem_cons_of_mem _ hd)

/-- Naming literals after the entries and taking over what agrees with them keeps the agreement. -/
theorem Agreed.changed (h : Agreed entries b) (ledger : IsLedger entries) {cs : List Change}
    (named : ∀ e ∈ namedFrom b.literals cs, e ∈ entries)
    (adopted : ∀ p, .adopted p ∈ cs → ∀ e ∈ p.entries, e ∈ entries)
    (unset : ∀ name v, .assigned name v ∉ cs) : Agreed entries (b.changed cs) := by
  induction cs generalizing b with
  | nil => exact h
  | cons c cs ih =>
    have hnext : Agreed entries (b.change c) := by
      cases c with
      | named a v =>
        have hset := h.set (named (literalName a (b.literals + 1), v) List.mem_cons_self)
        exact ⟨hset.bound, h.conflict⟩
      | skipped => exact ⟨h.bound, h.conflict⟩
      | adopted p => exact h.adopt ledger (adopted p List.mem_cons_self)
      | assigned name v => exact absurd List.mem_cons_self (unset name v)
    refine ih hnext (fun e he => ?_) (fun p hp => adopted p (List.mem_cons_of_mem _ hp))
      fun name v hv => unset name v (List.mem_cons_of_mem _ hv)
    rw [literals_change] at he
    apply named
    cases c with
    | named a v => exact List.mem_cons_of_mem _ he
    | _ => exact he

end Bindings

/-! ## Where changes come from -/

/-- A condition that a session over this schema may compose: one that was `passed` to it, one of a
table, or a discriminator. -/
inductive IsSource (schema : Schema) (passed : List Criteria) : Criteria → Prop
  | passed {c : Criteria} : c ∈ passed → IsSource schema passed c
  | table {c : Criteria} (id : TableId) : c ∈ (schema.table id).criteria → IsSource schema passed c
  | association {c : Criteria} (id : AssociationId) (originAlias : String) :
    c ∈ (schema.association id).discriminatorCriteria originAlias → IsSource schema passed c

namespace Session

variable {schema : Schema} {passed : List Criteria} {s : Session} {x : Change}

theorem isSource_of_mem_addition {origin : String} {step : Step} {c : Criteria}
    (hstep : step.criteria.toList ⊆ passed) (h : c ∈ (addition schema origin step).criteria) :
    IsSource schema passed c := by
  rcases List.mem_append.1 h with h | h
  · rcases List.mem_append.1 h with h | h
    · exact .passed (hstep h)
    · exact .table _ h
  · exact .association _ _ h

theorem source_of_mem_attachChanges {origin : String} {step : Step}
    (hstep : step.criteria.toList ⊆ passed)
    (h : x ∈ s.attachChanges step (addition schema origin step)) :
    ∃ c, IsSource schema passed c ∧ x ∈ c.changes s.tableAlias := by
  unfold attachChanges at h
  split at h
  · exact absurd h List.not_mem_nil
  · split at h
    · exact absurd h List.not_mem_nil
    · obtain ⟨c, hc, hx⟩ := List.mem_flatMap.1 h
      have hadded := criteriaToAttach_subset (own_subset_addition schema origin step) hc
      exact ⟨c, isSource_of_mem_addition hstep hadded, hx⟩

theorem source_of_mem_attachAllChanges {additions : List (Step × Addition)}
    (hadditions : ∀ y ∈ additions, y.1.criteria.toList ⊆ passed ∧ ∃ o, y.2 = addition schema o y.1)
    (h : x ∈ s.attachAllChanges additions) :
    ∃ c, IsSource schema passed c ∧ x ∈ c.changes s.tableAlias := by
  obtain ⟨before, ⟨step, a⟩, after, rfl, hx⟩ := mem_along.1 h
  obtain ⟨hstep, o, ha⟩ := hadditions _ (List.mem_append_right _ List.mem_cons_self)
  obtain rfl : a = addition schema o step := ha
  obtain ⟨_, _, _, _, hframe⟩ := s.foldl_attached_frame before
  have halias : (before.foldl attached s).tableAlias = s.tableAlias := by rw [hframe]
  rw [← halias]
  exact source_of_mem_attachChanges hstep hx

theorem source_of_mem_joinChanges {path : List Step} (h : x ∈ s.joinChanges path) :
    ∃ c, IsSource s.schema (path.filterMap Step.criteria) c ∧ x ∈ c.changes s.tableAlias := by
  unfold joinChanges at h
  split at h
  · exact absurd h List.not_mem_nil
  · obtain ⟨_, _, _, _, _, _, hr⟩ := s.resolved_frame path
    have halias : (s.resolved path).tableAlias = s.tableAlias := by rw [hr]
    rw [← halias]
    exact source_of_mem_attachAllChanges addition_of_mem_withAdditions h

theorem source_of_mem_filterChanges {restrictions : List Criteria}
    (h : x ∈ s.filterChanges restrictions) :
    ∃ c, IsSource s.schema restrictions c ∧ x ∈ c.changes s.tableAlias := by
  obtain ⟨c, hc, hx⟩ := List.mem_flatMap.1 h
  exact ⟨c, (List.mem_append.1 hc).elim .passed (.table _), hx⟩

/-- What a call does to the parameters comes from the conditions that were passed to it, from tables
and from discriminators. -/
theorem source_of_mem_changesOf {call : Call} (leaves : call.leavesNames = true)
    (h : x ∈ s.changesOf call) :
    ∃ c, IsSource s.schema (s.passed call) c ∧ x ∈ c.changes s.tableAlias := by
  have hbase (h : x ∈ if s.filterSet then [] else s.filterChanges []) :
      ∃ c, IsSource s.schema [] c ∧ x ∈ c.changes s.tableAlias := by
    split at h
    · exact absurd h List.not_mem_nil
    · exact source_of_mem_filterChanges h
  cases call with
  | joinPending fetch => exact source_of_mem_joinChanges (s := { s with pending := [] }) h
  | joinTo path fetch => exact source_of_mem_joinChanges h
  | setFilter restrictions => exact source_of_mem_filterChanges h
  | setParameter name value => cases leaves
  | nextLiteral => cases leaves
  | bindLiterals c => cases leaves
  | select columns => exact hbase h
  | build columns d => exact hbase h
  | _ => exact absurd h List.not_mem_nil

end Session

namespace Criteria

theorem literal_of_named {a b : String} {c : Criteria} {v : Value}
    (h : .named b v ∈ c.changes a) : b = a ∧ v ∈ c.literals := by
  obtain ⟨l, hl, hx⟩ := List.mem_flatMap.1 h
  cases l with
  | literal w =>
    obtain ⟨rfl, rfl⟩ := Change.named.inj (List.mem_singleton.1 hx)
    exact ⟨rfl, List.mem_filterMap.2 ⟨_, hl, rfl⟩⟩
  | _ => simp [leafChanges] at hx

theorem subquery_of_adopted {a : String} {c : Criteria} {p : Parameters}
    (h : .adopted p ∈ c.changes a) : ∃ select ∈ c.subqueries, select.parameters = p := by
  obtain ⟨l, hl, hx⟩ := List.mem_flatMap.1 h
  cases l with
  | subquery select =>
    obtain rfl := Change.adopted.inj (List.mem_singleton.1 hx)
    exact ⟨select, mem_subqueries.2 hl, rfl⟩
  | _ => simp [leafChanges] at hx

end Criteria

end JoinPath
