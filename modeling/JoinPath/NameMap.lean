/-!
# Maps by name

One value for each name, kept in ascending order of the names, so that there is one list of entries
for one assignment of values.
-/

namespace JoinPath

/-- Values by name; the names ascend by code points, which is the order of their UTF-8 bytes. -/
structure NameMap (α : Type) where
  entries : List (String × α)
  ascending : entries.Pairwise fun p q => p.1 < q.1

namespace NameMap

variable {α : Type}

def empty : NameMap α := ⟨[], .nil⟩

instance : Inhabited (NameMap α) := ⟨empty⟩

/-- Puts an entry into its place, instead of one of the same name. -/
def insertEntry (name : String) (value : α) : List (String × α) → List (String × α)
  | [] => [(name, value)]
  | (n, v) :: rest =>
    if name < n then (name, value) :: (n, v) :: rest
    else if n < name then (n, v) :: insertEntry name value rest
    else (name, value) :: rest

theorem mem_insertEntry {name : String} {value : α} {entries : List (String × α)}
    {p : String × α} (h : p ∈ insertEntry name value entries) :
    p = (name, value) ∨ p ∈ entries := by
  induction entries with
  | nil => simpa [insertEntry] using h
  | cons e rest ih =>
    unfold insertEntry at h
    split at h
    · simpa using h
    · split at h
      · rcases List.mem_cons.1 h with rfl | h
        · simp
        · rcases ih h with rfl | h <;> simp [*]
      · rcases List.mem_cons.1 h with rfl | h <;> simp [*]

theorem eq_of_not_lt {a b : String} (hab : ¬a < b) (hba : ¬b < a) : a = b :=
  String.le_antisymm (String.not_lt.1 hba) (String.not_lt.1 hab)

theorem pairwise_insertEntry (name : String) (value : α) {entries : List (String × α)}
    (h : entries.Pairwise fun p q => p.1 < q.1) :
    (insertEntry name value entries).Pairwise fun p q => p.1 < q.1 := by
  induction entries with
  | nil => simp [insertEntry]
  | cons e rest ih =>
    obtain ⟨head, tail⟩ := List.pairwise_cons.1 h
    unfold insertEntry
    split
    · next hlt =>
      refine List.pairwise_cons.2 ⟨fun q hq => ?_, h⟩
      rcases List.mem_cons.1 hq with rfl | hq
      · exact hlt
      · exact String.lt_trans hlt (head q hq)
    · split
      · next hlt =>
        refine List.pairwise_cons.2 ⟨fun q hq => ?_, ih tail⟩
        rcases mem_insertEntry hq with rfl | hq
        · exact hlt
        · exact head q hq
      · next hge hle =>
        have := eq_of_not_lt hge hle
        subst this
        exact List.pairwise_cons.2 ⟨head, tail⟩

/-- Binds `name` to `value`, whatever it was bound to. -/
def insert (p : NameMap α) (name : String) (value : α) : NameMap α :=
  ⟨insertEntry name value p.entries, pairwise_insertEntry name value p.ascending⟩

/-- The value bound to `name`. -/
def get? (p : NameMap α) (name : String) : Option α :=
  (p.entries.find? fun e => e.1 == name).map Prod.snd

def size (p : NameMap α) : Nat := p.entries.length

def names (p : NameMap α) : List String := p.entries.map Prod.fst

/-- Binds one entry after the other, so that the last of a name stays. -/
def ofList (entries : List (String × α)) : NameMap α :=
  entries.foldl (fun p e => p.insert e.1 e.2) empty

instance [BEq α] : BEq (NameMap α) := ⟨fun p q => p.entries == q.entries⟩

@[simp] theorem get?_empty (name : String) : (empty : NameMap α).get? name = none := rfl

theorem find?_insertEntry (name : String) (value : α) (entries : List (String × α))
    (other : String) :
    ((insertEntry name value entries).find? fun e => e.1 == other) =
      if name = other then some (name, value) else entries.find? fun e => e.1 == other := by
  induction entries with
  | nil => by_cases h : name = other <;> simp [insertEntry, h]
  | cons e rest ih =>
    unfold insertEntry
    split
    · by_cases h : name = other <;> simp [h]
    · split
      · next hlt =>
        by_cases h : name = other
        · subst h
          have hne : (e.1 == name) = false := by
            simpa using fun h => String.lt_irrefl _ (h ▸ hlt)
          simp [hne, ih]
        · simp [List.find?_cons, ih, h]
      · next hge hle =>
        have := eq_of_not_lt hge hle
        subst this
        by_cases h : e.1 = other <;> simp [h]

theorem get?_insert (p : NameMap α) (name : String) (value : α) (other : String) :
    (p.insert name value).get? other = if name = other then some value else p.get? other := by
  by_cases h : name = other <;> simp [get?, insert, find?_insertEntry, h]

theorem mem_of_get? {p : NameMap α} {name : String} {value : α}
    (h : p.get? name = some value) : (name, value) ∈ p.entries := by
  simp only [get?, Option.map_eq_some_iff] at h
  obtain ⟨e, he, rfl⟩ := h
  have hn : e.1 = name := by simpa using List.find?_some he
  exact hn ▸ List.mem_of_find?_eq_some he

theorem find?_of_mem {entries : List (String × α)} {e : String × α}
    (asc : entries.Pairwise fun p q => p.1 < q.1) (h : e ∈ entries) :
    (entries.find? fun d => d.1 == e.1) = some e := by
  induction entries with
  | nil => simp at h
  | cons d rest ih =>
    obtain ⟨head, tail⟩ := List.pairwise_cons.1 asc
    rcases List.mem_cons.1 h with rfl | h
    · simp
    · have hne : (d.1 == e.1) = false := by
        simpa using fun hd => String.lt_irrefl _ (hd ▸ head e h)
      simp [hne, ih tail h]

theorem get?_eq_some_iff {p : NameMap α} {name : String} {value : α} :
    p.get? name = some value ↔ (name, value) ∈ p.entries :=
  ⟨mem_of_get?, fun h => by simp [get?, find?_of_mem p.ascending h]⟩

end NameMap

end JoinPath
