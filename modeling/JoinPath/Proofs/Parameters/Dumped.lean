import JoinPath.Parameters
import JoinPath.Proofs.Text.Utf8
import Mathlib.Data.List.Induction
/-!
# What a dump shows

A dump goes through the names of the parameters in the order of their bytes and shows one entry for
each. A name that ends in `$` is a secret, and its entry does not depend on its value. So two maps
with the same names have the same dump as soon as they agree on the names that are no secrets
(`dump_of_agreed`), whatever was bound to the names before, and in whatever order.
-/

namespace JoinPath

namespace NameMap

variable {α : Type}

theorem mem_names_iff {p : NameMap α} {name : String} :
    name ∈ p.names ↔ ∃ value, p.get? name = some value := by
  simp [names, get?_eq_some_iff]

theorem names_ascending (p : NameMap α) : p.names.Pairwise (· < ·) :=
  List.pairwise_map.2 p.ascending

/-- Maps with the same names have them in the same order. -/
theorem names_eq_of_mem_iff {p q : NameMap α} (h : ∀ name, name ∈ p.names ↔ name ∈ q.names) :
    p.names = q.names := by
  have nodup (p : NameMap α) : p.names.Nodup := by
    refine p.names_ascending.imp fun {m n} hlt heq => ?_
    exact String.lt_irrefl n (heq ▸ hlt)
  refine ((List.perm_ext_iff_of_nodup (nodup p) (nodup q)).2 h).eq_of_pairwise
    (fun _ _ _ _ hst hts => ?_) p.names_ascending q.names_ascending
  exact absurd hts (String.lt_asymm hst)

theorem mem_names_insert {p : NameMap α} {name : String} {value : α} {other : String} :
    other ∈ (p.insert name value).names ↔ other = name ∨ other ∈ p.names := by
  simp only [mem_names_iff, get?_insert]
  by_cases h : name = other
  · simp [h]
  · simp [h, Ne.symm h]

/-- A map that was filled step by step has the names that it was filled with. -/
theorem mem_names_ofList {fills : List (String × α)} {name : String} :
    name ∈ (ofList fills).names ↔ name ∈ fills.map Prod.fst := by
  induction fills using List.reverseRecOn with
  | nil => rfl
  | append_singleton fills e ih =>
    have hlast : ofList (fills ++ [e]) = (ofList fills).insert e.1 e.2 := List.foldl_concat ..
    rw [hlast, mem_names_insert, ih, List.map_append, List.mem_append, or_comm]
    exact or_congr_right List.mem_singleton.symm

end NameMap

open Text (utf8)

/-- Values that are the same, or bytes of any content. -/
inductive Value.SameButBytes : Value → Value → Prop
  | same (v : Value) : SameButBytes v v
  | bytes (content content' : List UInt8) : SameButBytes (.bytes content) (.bytes content')

namespace Parameters

open NameMap

/-- A name that stands for a secret. -/
def IsSecret (name : String) : Prop := name.toList.getLast? = some '$'

instance (name : String) : Decidable (IsSecret name) := inferInstanceAs (Decidable (_ = _))

/-- What the dump shows of a name. -/
def shown (p : Parameters) (name : String) : String :=
  (p.get? name).elim "" (dumpedEntry name)

variable {p q : Parameters} {name : String} {v w : Value}

theorem dump_eq_join (p : Parameters) : p.dump = String.join (p.names.map p.shown) := by
  rw [dump, names, List.map_map]
  refine congrArg String.join (List.map_congr_left fun e he => ?_)
  rw [Function.comp_apply, shown, get?_eq_some_iff.2 he]
  rfl

theorem dumpedEntry_of_secret (h : IsSecret name) (v w : Value) :
    dumpedEntry name v = dumpedEntry name w := by
  have hlast : name.toList.getLast? = some '$' := h
  simp only [dumpedEntry, hlast, if_true]

theorem dumpedEntry_of_same (h : v.SameButBytes w) : dumpedEntry name v = dumpedEntry name w := by
  cases h <;> rfl

/-- A name that both maps have is shown alike, if it is a secret or has the same value. -/
theorem shown_eq (hp : name ∈ p.names) (hq : name ∈ q.names)
    (agreed : ∀ v w, ¬IsSecret name → p.get? name = some v → q.get? name = some w →
      v.SameButBytes w) :
    p.shown name = q.shown name := by
  obtain ⟨v, hv⟩ := mem_names_iff.1 hp
  obtain ⟨w, hw⟩ := mem_names_iff.1 hq
  rw [shown, shown, hv, hw]
  by_cases h : IsSecret name
  · exact dumpedEntry_of_secret h v w
  · exact dumpedEntry_of_same (agreed v w h hv hw)

/-- Sorting the names by their bytes gives the order of the map, however they are listed. -/
theorem mergeSort_names {listed : List String} (h : listed.Perm p.names) :
    listed.mergeSort Text.inByteOrder = p.names :=
  Text.mergeSort_eq_of_ascending h p.names_ascending

/-- Two maps with the same names that agree on every name that is no secret have the same dump, in
whatever order they were filled. The dump shows each name once, in the order of the bytes, which
sorting gives for whatever order the names are listed in. -/
theorem dump_of_agreed {first second : List (String × Value)}
    (names : ∀ name, name ∈ first.map Prod.fst ↔ name ∈ second.map Prod.fst)
    (agreed : ∀ name v w, ¬IsSecret name → (ofList first).get? name = some v →
      (ofList second).get? name = some w → v.SameButBytes w) :
    dump (ofList first) = dump (ofList second) ∧
    ∃ order : List String, order.Pairwise (fun m n => utf8 m < utf8 n) ∧
      (∀ name, name ∈ order ↔ name ∈ first.map Prod.fst) ∧
      (∀ listed : List String, listed.Perm order → listed.mergeSort Text.inByteOrder = order) ∧
      dump (ofList first) = String.join (order.map (shown (ofList first))) := by
  have same : (ofList first).names = (ofList second).names :=
    names_eq_of_mem_iff fun name =>
      mem_names_ofList.trans ((names name).trans mem_names_ofList.symm)
  refine ⟨?_, (ofList first).names, ?_, fun _ => mem_names_ofList, fun _ => mergeSort_names,
    dump_eq_join _⟩
  · rw [dump_eq_join, dump_eq_join, ← same]
    refine congrArg String.join (List.map_congr_left fun name hname => ?_)
    exact shown_eq hname (same ▸ hname) (agreed name)
  · exact (names_ascending _).imp Text.utf8_lt_of_lt

/-! ## Two logins -/

/-- What a login binds; the number is bound twice. -/
def login : List (String × Value) :=
  [("t0_R1", .int 7), ("password$", .string "hunter2"), ("avatar", .bytes [0xff]), ("note", .null),
    ("t0_R1", .int 42)]

/-- Another login, bound in another order. -/
def otherLogin : List (String × Value) :=
  [("avatar", .bytes []), ("t0_R1", .int 42), ("password$", .string "swordfish"), ("note", .null)]

theorem dump_of_agreed_logins :
    (∀ name, name ∈ login.map Prod.fst ↔ name ∈ otherLogin.map Prod.fst) ∧
    (∀ name v w, ¬IsSecret name → (ofList login).get? name = some v →
      (ofList otherLogin).get? name = some w → v.SameButBytes w) ∧
    dump (ofList login) = dump (ofList otherLogin) := by
  have names : ∀ name, name ∈ login.map Prod.fst ↔ name ∈ otherLogin.map Prod.fst := by
    intro name
    simp only [login, otherLogin, List.map_cons, List.map_nil, List.mem_cons, List.not_mem_nil]
    tauto
  have agreed : ∀ name v w, ¬IsSecret name → (ofList login).get? name = some v →
      (ofList otherLogin).get? name = some w → v.SameButBytes w := by
    intro name v w hname hv hw
    simp only [login, otherLogin, ofList, List.foldl_cons, List.foldl_nil, get?_insert,
      get?_empty] at hv hw
    have hpassword : "password$" ≠ name := by
      rintro rfl
      exact hname (by decide)
    grind [Value.SameButBytes]
  exact ⟨names, agreed, (dump_of_agreed names agreed).1⟩

-- Values agree when they are the same. The zeros are equal as numbers, and are shown apart.
example : (Value.float (.zero true) == Value.float (.zero false)) = true ∧
    dump (ofList [("sum", .float (.zero true))]) ≠
      dump (ofList [("sum", .float (.zero false))]) := by
  decide

end Parameters

end JoinPath
