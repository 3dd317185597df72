import JoinPath.Proofs.Path.Numbered
import JoinPath.Proofs.Text.Numbered
/-!
# Runs of a pool

A pool numbers a new alias for a key that has none, whatever was registered in the meantime. So a
key keeps its alias until another one is registered for it (`get?_take_run`). A newly numbered alias
differs from all that were numbered before, and a key has it already exactly if it was registered
under that very text (`Accounted.get?_eq_next_iff`).
-/

namespace JoinPath.AliasPool

open Text (numberedName append_letter)

/-- What a pool is asked for. -/
inductive Request
  | take (id : PlacementId)
  | register (id : PlacementId) (name : String)
  | lookUp (id : PlacementId)
deriving DecidableEq, Repr

/-- The alias that a request registers for a key. -/
def Request.registered (id : PlacementId) : Request → Option String
  | register other name => if other = id then some name else none
  | _ => none

/-- The pool after a request. Looking an alias up changes nothing. -/
def perform (p : AliasPool) : Request → AliasPool
  | .take id => (p.take id).2
  | .register id name => p.register id name
  | .lookUp _ => p

/-- The pool after a sequence of requests. -/
def run (p : AliasPool) (requests : List Request) : AliasPool := requests.foldl perform p

/-- The alias that was registered last for a key. -/
def registered (id : PlacementId) (requests : List Request) : Option String :=
  (requests.filterMap (Request.registered id)).getLast?

/-- The alias that is numbered next. -/
def next (p : AliasPool) : String := p.stem ++ (p.count + 1).repr

variable {p : AliasPool} {id : PlacementId} {requests : List Request} {a : String}

theorem run_concat (p : AliasPool) (requests : List Request) (r : Request) :
    p.run (requests ++ [r]) = (p.run requests).perform r :=
  List.foldl_concat ..

theorem registered_concat (id : PlacementId) (requests : List Request) (r : Request) :
    registered id (requests ++ [r]) = (r.registered id).or (registered id requests) := by
  unfold registered
  rw [List.filterMap_append]
  cases h : r.registered id with
  | none => rw [List.filterMap_cons_none h, List.filterMap_nil, List.append_nil, Option.none_or]
  | some name =>
    rw [List.filterMap_cons_some h, List.filterMap_nil, List.getLast?_concat, Option.some_or]

/-! ## Taking -/

theorem take_of_some (h : p.get? id = some a) : p.take id = (a, p) := by
  unfold take
  rw [h]

theorem fst_take (h : p.get? id = none) : (p.take id).1 = p.next := by
  unfold take
  rw [h]
  rfl

theorem nodup_numbered (p : AliasPool) : p.numbered.Nodup := by
  refine List.Nodup.map (fun m n h => ?_) List.nodup_range
  exact Nat.succ_injective (Nat.repr_inj.1 ((String.append_right_inj p.stem).1 h))

theorem mem_numbered {base : String} (kind : Char)
    (stem : p.stem = base ++ ("_" ++ String.singleton kind)) (h : a ∈ p.numbered) :
    ∃ n, a = numberedName base kind n := by
  obtain ⟨k, -, rfl⟩ := List.mem_map.1 h
  exact ⟨k + 1, by rw [stem, append_letter]⟩

/-- A numbered alias is new among those that the pool numbered. -/
theorem next_notMem_numbered (p : AliasPool) : p.next ∉ p.numbered := by
  intro h
  obtain ⟨k, hk, heq⟩ := List.mem_map.1 h
  have hnumber := Nat.repr_inj.1 ((String.append_right_inj p.stem).1 heq)
  exact absurd (List.mem_range.1 hk) (by omega)

theorem mem_numbered_perform (h : a ∈ p.numbered) (r : Request) : a ∈ (p.perform r).numbered := by
  cases r with
  | take id =>
    cases hid : p.get? id with
    | none => exact numbered_take hid ▸ List.mem_append_left _ h
    | some name =>
      rw [perform, take_of_some hid]
      exact h
  | register id name => exact h
  | lookUp id => exact h

/-! ## What a key has -/

theorem get?_perform_of_registered {r : Request} (h : r.registered id = some a) :
    (p.perform r).get? id = some a := by
  cases r with
  | take other => cases h
  | lookUp other => cases h
  | register other name =>
    rw [Request.registered, Option.ite_none_right_eq_some] at h
    obtain ⟨rfl, hname⟩ := h
    exact (p.get?_register other name other).trans ((if_pos rfl).trans hname)

/-- A request that registers nothing for a key leaves its alias, or numbers one for it. -/
theorem get?_perform (p : AliasPool) {r : Request} (h : r.registered id = none) :
    (p.perform r).get? id = p.get? id ∨
      (p.get? id = none ∧ (p.perform r).get? id = some p.next ∧
        p.next ∈ (p.perform r).numbered) := by
  cases r with
  | lookUp other => exact .inl rfl
  | register other name =>
    refine .inl ((p.get?_register other name id).trans (if_neg ?_))
    rintro rfl
    simp [Request.registered] at h
  | take other =>
    by_cases heq : id = other
    · subst heq
      cases hid : p.get? id with
      | some name => exact .inl (by rw [perform, take_of_some hid, hid])
      | none =>
        refine .inr ⟨rfl, ?_, ?_⟩
        · rw [perform, get?_take, fst_take hid]
        · rw [perform, numbered_take hid, fst_take hid]
          exact List.mem_append_right _ (List.mem_singleton_self _)
    · exact .inl (p.get?_take_ne heq)

theorem get?_run_of_some (h : p.get? id = some a)
    (kept : ∀ r ∈ requests, r.registered id = none) : (p.run requests).get? id = some a := by
  induction requests generalizing p with
  | nil => exact h
  | cons r requests ih =>
    obtain ⟨hr, hrest⟩ := List.forall_mem_cons.1 kept
    obtain hkept | ⟨hnone, -⟩ := p.get?_perform hr
    · exact ih (hkept.trans h) hrest
    · cases hnone.symm.trans h

/-- A key keeps the alias that was taken for it until another one is registered. -/
theorem get?_take_run (p : AliasPool) (id : PlacementId)
    (kept : ∀ r ∈ requests, r.registered id = none) :
    ((p.take id).2.run requests).get? id = some (p.take id).1 :=
  get?_run_of_some (p.get?_take id) kept

/-- A key has the alias that was registered last for it, and else a numbered one. -/
structure Accounted (requests : List Request) (p : AliasPool) : Prop where
  last : ∀ id a, registered id requests = some a → p.get? id = some a
  numbered : ∀ id a, registered id requests = none → p.get? id = some a →
    a ∈ p.numbered

theorem Accounted.perform (h : Accounted requests p) (r : Request) :
    Accounted (requests ++ [r]) (p.perform r) := by
  constructor
  · intro id a hlast
    rw [registered_concat] at hlast
    cases hr : r.registered id with
    | some name =>
      rw [hr, Option.some_or] at hlast
      exact get?_perform_of_registered (hr.trans hlast)
    | none =>
      rw [hr, Option.none_or] at hlast
      have hold := h.last id a hlast
      obtain hkept | ⟨hnone, -⟩ := p.get?_perform hr
      · exact hkept.trans hold
      · cases hnone.symm.trans hold
  · intro id a hlast hget
    rw [registered_concat, Option.or_eq_none_iff] at hlast
    obtain hkept | ⟨-, hnext, hmem⟩ := p.get?_perform hlast.1
    · exact mem_numbered_perform (h.numbered id a hlast.2 (hkept.symm.trans hget)) r
    · exact Option.some.inj (hnext.symm.trans hget) ▸ hmem

theorem accounted_run (stem : String) (requests : List Request) :
    Accounted requests ((new stem).run requests) := by
  induction requests using List.reverseRecOn with
  | nil => exact ⟨fun _ _ h => (nomatch h), fun _ _ _ h => (nomatch h)⟩
  | append_singleton requests r ih => exact run_concat _ requests r ▸ ih.perform r

/-- The alias numbered next is in use exactly where it was registered. -/
theorem Accounted.get?_eq_next_iff (h : Accounted requests p) (id : PlacementId) :
    p.get? id = some p.next ↔ registered id requests = some p.next := by
  refine ⟨fun hget => ?_, h.last id _⟩
  cases hlast : registered id requests with
  | none => exact absurd (h.numbered id _ hlast hget) p.next_notMem_numbered
  | some a => exact (h.last id a hlast).symm.trans hget

end JoinPath.AliasPool
