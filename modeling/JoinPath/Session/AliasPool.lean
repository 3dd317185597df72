/-!
# Alias pools

A pool hands out one alias for each key: its stem with a running number, or the alias that was
registered for the key. Asking again gives the same alias.
-/

namespace JoinPath

/-- The position of a placed association in its session. -/
structure PlacementId where
  index : Nat
deriving DecidableEq, Repr

structure AliasPool where
  stem : String
  /-- How many aliases were numbered. -/
  count : Nat
  /-- The alias of each key that has one. -/
  aliases : List (PlacementId × String)
deriving DecidableEq, Repr

namespace AliasPool

def new (stem : String) : AliasPool := ⟨stem, 0, []⟩

/-- The alias of a key, if it has one. -/
def get? (p : AliasPool) (id : PlacementId) : Option String := p.aliases.lookup id

/-- Replaces the entry of a key, or adds one. -/
def replaceEntry (id : PlacementId) (name : String) :
    List (PlacementId × String) → List (PlacementId × String)
  | [] => [(id, name)]
  | (k, a) :: rest => if k = id then (id, name) :: rest else (k, a) :: replaceEntry id name rest

/-- Registers an alias for a key; its number is not used up. -/
def register (p : AliasPool) (id : PlacementId) (name : String) : AliasPool :=
  { p with aliases := replaceEntry id name p.aliases }

/-- The alias of a key, numbering a new one if it has none. -/
def take (p : AliasPool) (id : PlacementId) : String × AliasPool :=
  match p.get? id with
  | some name => (name, p)
  | none =>
    let name := p.stem ++ (p.count + 1).repr
    (name, { p.register id name with count := p.count + 1 })

/-- How many keys have an alias. -/
def size (p : AliasPool) : Nat := p.aliases.length

def isEmpty (p : AliasPool) : Bool := p.aliases.isEmpty

theorem lookup_replaceEntry (id : PlacementId) (name : String)
    (entries : List (PlacementId × String)) (other : PlacementId) :
    (replaceEntry id name entries).lookup other =
      if other = id then some name else entries.lookup other := by
  induction entries with
  | nil =>
    by_cases h : other = id
    · simp [replaceEntry, h]
    · simp [replaceEntry, List.lookup_cons, beq_eq_false_iff_ne.2 h, h]
  | cons e rest ih =>
    obtain ⟨k, a⟩ := e
    unfold replaceEntry
    by_cases hk : k = id
    · subst hk
      by_cases h : other = k
      · simp [h]
      · simp [List.lookup_cons, beq_eq_false_iff_ne.2 h, h]
    · by_cases h : other = k
      · subst h; simp [hk]
      · simp [List.lookup_cons, beq_eq_false_iff_ne.2 h, hk, ih]

theorem get?_register (p : AliasPool) (id : PlacementId) (name : String) (other : PlacementId) :
    (p.register id name).get? other = if other = id then some name else p.get? other :=
  lookup_replaceEntry id name p.aliases other

/-- What was taken stays the alias of its key. -/
theorem get?_take (p : AliasPool) (id : PlacementId) :
    (p.take id).2.get? id = some (p.take id).1 := by
  unfold take
  cases h : p.get? id with
  | some name => simpa using h
  | none => simpa [get?, register] using lookup_replaceEntry id _ p.aliases id

end AliasPool

end JoinPath
