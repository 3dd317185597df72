import JoinPath.Json.Decode
import JoinPath.Proofs.Json.Printed
import JoinPath.Proofs.Lists
import JoinPath.Proofs.Timestamp.Printed
/-!
# Values from JSON

What a reader makes of the form in which something is written, for the parts of conditions: values,
columns and parameters. A reader gives back what was written at every depth that the form fits
(`WrittenAs`); and what it accepts at some depth has a form that fits there (`Fits`).
-/

namespace JoinPath

def Value.isFloat : Value → Bool
  | .float _ => true
  | _ => false

namespace Json

variable {α β : Type}

/-- The value is the form of `x`, and a reader gives that back wherever the form fits. -/
structure WrittenAs (read? : ℕ → Json → Option α) (v : Json) (x : α) : Prop where
  written : v.IsWritten
  restored : ∀ d, v.depth ≤ d → read? d v = some x

/-- What the reader accepts at some depth has a form that fits there. -/
def Fits (read? : ℕ → Json → Option α) (form : α → Json) (d : ℕ) : Prop :=
  ∀ v x, read? d v = some x → (form x).depth ≤ d

/-! ## Forms -/

theorem depth_tagged (name : String) (v : Json) : (tagged name v).depth = v.depth + 1 := by
  simp [tagged, record, depth, depthEntries]

theorem isWritten_tagged {name : String} {v : Json} (h : v.IsWritten) :
    (tagged name v).IsWritten := by
  simpa [tagged, record, IsWritten, AreEntriesWritten] using h

/-- What stands under a name is read back one level up. -/
theorem tagged_restored {read? : ℕ → Json → Option α} {name : String} {v : Json} {x : α}
    (hv : v.IsWritten) (h : ∀ d, v.depth ≤ d → read? (d + 1) (tagged name v) = some x) :
    WrittenAs read? (tagged name v) x where
  written := isWritten_tagged hv
  restored d hd := by
    rw [depth_tagged] at hd
    cases d with
    | zero => exact absurd hd (Nat.not_succ_le_zero _)
    | succ d => exact h d (Nat.le_of_succ_le_succ hd)

theorem isWritten_record {entries : List (String × Json)} (h : ∀ e ∈ entries, e.2.IsWritten) :
    (record entries).IsWritten := by
  refine areEntriesWritten_iff.2 fun e he => ?_
  obtain ⟨e, hmem, rfl⟩ := List.mem_map.1 he
  exact ⟨rfl, h e hmem⟩

theorem depth_record_le {entries : List (String × Json)} {d : ℕ} :
    (record entries).depth ≤ d + 1 ↔ ∀ e ∈ entries, e.2.depth ≤ d := by
  rw [record, depth, Nat.succ_le_succ_iff, depthEntries_le_iff, List.forall_mem_map]

theorem isWritten_ofOption {f : α → Json} (h : ∀ x, (f x).IsWritten) (o : Option α) :
    (ofOption f o).IsWritten := by
  cases o with
  | none => trivial
  | some x => exact h x

/-! ## Lists -/

theorem list?_restored {item? : ℕ → Json → Option α} {form : α → Json} {xs : List α}
    (h : ∀ x ∈ xs, WrittenAs item? (form x) x) :
    WrittenAs (list? item?) (array (xs.map form)) xs where
  written := areWritten_iff.2 fun v hv => by
    obtain ⟨x, hx, rfl⟩ := List.mem_map.1 hv
    exact (h x hx).written
  restored d hd := by
    cases d with
    | zero => exact absurd hd (Nat.not_succ_le_zero _)
    | succ d =>
      have hitems := depthAll_le_iff.1 (Nat.le_of_succ_le_succ hd)
      refine mapM_eq_some_iff.2 (List.forall₂_map_left_iff.2 (List.forall₂_same.2 fun x hx => ?_))
      exact (h x hx).restored d (hitems _ (List.mem_map_of_mem hx))

theorem fits_list? {item? : ℕ → Json → Option α} {form : α → Json} {d : ℕ}
    (h : ∀ e, e + 1 = d → Fits item? form e) :
    Fits (list? item?) (fun xs => array (xs.map form)) d := by
  intro v xs hread
  cases d with
  | zero => cases hread
  | succ d =>
    cases v with
    | array items =>
      refine Nat.succ_le_succ (depthAll_le_iff.2 fun v hv => ?_)
      obtain ⟨x, hx, rfl⟩ := List.mem_map.1 hv
      obtain ⟨v, -, hv⟩ := exists_mem_of_forall₂ (mapM_eq_some_iff.1 hread).flip hx
      exact h d rfl v x hv
    | _ => cases hread

/-! ## Values -/

theorem isWritten_ofInt (n : ℤ) : (ofInt n).IsWritten := ⟨n, rfl⟩

theorem numeral?_ofInt {n : ℤ} (low : -2 ^ 63 ≤ n) (high : n < 2 ^ 64) :
    (ofInt n).numeral? = some (.integer n) :=
  Numeral.ofText?_toString low high

theorem int64?_ofInt (n : Int64) : (ofInt n.toInt).int64? = some n := by
  have low := n.le_toInt
  have high := n.toInt_lt
  rw [int64?, numeral?_ofInt low (by omega)]
  simp only [Option.bind_eq_bind, Option.bind_some, int64OfInt?]
  rw [if_pos ⟨low, Int.le_of_lt_add_one high⟩, Int64.ofInt_toInt]

theorem byte?_ofInt (b : UInt8) : (ofInt b.toNat).byte? = some b := by
  have high := b.toNat_lt
  rw [byte?, numeral?_ofInt (by omega) (by omega)]
  simp only [Option.bind_eq_bind, Option.bind_some]
  rw [if_pos (by omega), Int.toNat_natCast, UInt8.ofNat_toNat]

theorem bytes?_restored (content : List UInt8) :
    WrittenAs bytes? (array (content.map fun b => ofInt b.toNat)) content :=
  list?_restored fun b _ => ⟨isWritten_ofInt _, fun _ _ => byte?_ofInt b⟩

theorem value?_restored {v : Value} (h : v.isFloat = false) : WrittenAs value? (ofValue v) v := by
  cases v with
  | null => exact ⟨rfl, fun _ _ => rfl⟩
  | bool b => exact tagged_restored trivial fun _ _ => rfl
  | int n =>
    refine tagged_restored (isWritten_ofInt _) fun d _ => ?_
    show (ofInt n.toInt).int64?.map Value.int = _
    rw [int64?_ofInt, Option.map_some]
  | float x => cases h
  | string s => exact tagged_restored rfl fun _ _ => rfl
  | bytes content =>
    have hbytes := bytes?_restored content
    refine tagged_restored hbytes.written fun d hd => ?_
    show (bytes? d _).map Value.bytes = _
    rw [hbytes.restored d hd, Option.map_some]
  | timestamp t =>
    refine tagged_restored rfl fun d _ => ?_
    show (Timestamp.ofText? t.jsonText).map Value.timestamp = _
    rw [Timestamp.ofText?_jsonText, Option.map_some]

theorem depth_ofBinary64 (x : Binary64) : (ofBinary64 x).depth = 0 := by
  unfold ofBinary64
  cases x.jsonText? <;> rfl

theorem depth_ofBytes (content : List UInt8) : (ofValue (.bytes content)).depth = 2 := by
  have hitems : depthAll (content.map fun b => ofInt b.toNat) = 0 := by
    refine Nat.le_zero.1 (depthAll_le_iff.2 fun v hv => ?_)
    obtain ⟨b, -, rfl⟩ := List.mem_map.1 hv
    exact Nat.le_refl 0
  rw [ofValue, depth_tagged, depth, hitems]

/-- Only bytes take more than one level. -/
theorem depth_ofValue_le {v : Value} (h : ∀ content, v ≠ .bytes content) :
    (ofValue v).depth ≤ 1 := by
  cases v with
  | null => exact Nat.zero_le 1
  | float x => rw [ofValue, depth_tagged, depth_ofBinary64]
  | bytes content => exact absurd rfl (h content)
  | _ => exact Nat.le_refl 1

theorem pos_of_list? {item? : ℕ → Json → Option α} {d : ℕ} {v : Json} {xs : List α}
    (h : list? item? d v = some xs) : 0 < d := by
  cases d with
  | zero => cases h
  | succ d => exact Nat.succ_pos d

theorem fits_payload? {d : ℕ} {name : String} {v : Json} {x : Value}
    (h : payload? d name v = some x) : (ofValue x).depth ≤ d + 1 := by
  by_cases hbytes : ∃ content, x = .bytes content
  · obtain ⟨content, rfl⟩ := hbytes
    have hread : ∃ content, bytes? d v = some content := by
      unfold payload? at h
      split at h
      · split at h <;> cases h
      · cases hb : v.bool? <;> simp [hb] at h
      · cases hb : v.int64? <;> simp [hb] at h
      · cases hb : v.float? <;> simp [hb] at h
      · cases hb : v.text? <;> simp [hb] at h
      · obtain ⟨content, hcontent, -⟩ := Option.map_eq_some_iff.1 h
        exact ⟨content, hcontent⟩
      · obtain ⟨t, -, ht⟩ := Option.map_eq_some_iff.1 h
        cases ht
      · cases h
    obtain ⟨content', hcontent⟩ := hread
    rw [depth_ofBytes]
    exact Nat.succ_le_succ (pos_of_list? hcontent)
  · have hle := depth_ofValue_le fun content heq => hbytes ⟨content, heq⟩
    exact Nat.le_trans hle (Nat.le_add_left 1 d)

theorem fits_value? (d : ℕ) : Fits value? ofValue d := by
  intro v x h
  unfold value? at h
  split at h
  · split at h
    · obtain rfl := Option.some.inj h
      exact Nat.zero_le _
    · cases h
  · exact fits_payload? h
  · cases h

/-! ## Columns -/

theorem isWritten_text (s : String) : (text s).IsWritten := rfl

theorem isWritten_ofColumnRef (c : ColumnRef) : (ofColumnRef c).IsWritten := by
  refine isWritten_record ?_
  simp only [List.forall_mem_cons, List.not_mem_nil, false_imp_iff, implies_true, and_true]
  exact ⟨isWritten_text _, isWritten_ofOption isWritten_text _⟩

theorem optionalText?_ofOption (s : Option String) :
    optionalText? (some (ofOption text s)) = some s := by
  cases s <;> rfl

theorem depth_ofColumnRef (c : ColumnRef) : (ofColumnRef c).depth = 1 := by
  obtain ⟨qualifier, name⟩ := c
  cases qualifier <;> rfl

theorem columnRef?_restored (c : ColumnRef) : WrittenAs columnRef? (ofColumnRef c) c where
  written := isWritten_ofColumnRef c
  restored d hd := by
    rw [depth_ofColumnRef] at hd
    cases d with
    | zero => exact absurd hd (Nat.not_succ_le_zero _)
    | succ d =>
      have hfields : (ofColumnRef c).record? ["table_alias", "name"] 2 =
          some [some (ofOption text c.qualifier), some (text c.name)] := rfl
      simp only [columnRef?, hfields, Option.bind_eq_bind, Option.bind_some,
        optionalText?_ofOption]
      rfl

theorem fits_columnRef? (d : ℕ) : Fits columnRef? ofColumnRef d := by
  intro v c h
  cases d with
  | zero => cases h
  | succ d =>
    rw [depth_ofColumnRef]
    exact Nat.succ_pos d

theorem condition?_restored (c : Condition) : WrittenAs condition? (ofCondition c) c where
  written := by
    refine isWritten_record ?_
    simp only [List.forall_mem_cons, List.not_mem_nil, false_imp_iff, implies_true, and_true]
    exact ⟨isWritten_ofColumnRef _, isWritten_ofColumnRef _⟩
  restored d hd := by
    cases d with
    | zero => exact absurd hd (Nat.not_succ_le_zero _)
    | succ d =>
      have hdepths := depth_record_le.1 hd
      have hfields : (ofCondition c).record? ["from", "to"] 2 =
          some [some (ofColumnRef c.origin), some (ofColumnRef c.destination)] := rfl
      have horigin :=
        (columnRef?_restored c.origin).restored d (hdepths _ List.mem_cons_self)
      have hdestination :=
        (columnRef?_restored c.destination).restored d
          (hdepths _ (List.mem_cons_of_mem _ List.mem_cons_self))
      simp only [condition?, hfields, Option.bind_eq_bind, Option.bind_some, horigin,
        hdestination]

theorem fits_condition? (d : ℕ) : Fits condition? ofCondition d := by
  intro v c h
  cases d with
  | zero => cases h
  | succ d =>
    have hread : ∃ w ref, columnRef? d w = some ref := by
      simp only [condition?, Option.bind_eq_bind, Option.bind_eq_some_iff] at h
      obtain ⟨fields, -, h⟩ := h
      split at h
      · obtain ⟨origin, horigin, -⟩ := Option.bind_eq_some_iff.1 h
        exact ⟨_, origin, horigin⟩
      · cases h
    obtain ⟨w, ref, href⟩ := hread
    have hpos := fits_columnRef? d w ref href
    rw [depth_ofColumnRef] at hpos
    refine depth_record_le.2 ?_
    simp only [List.forall_mem_cons, List.not_mem_nil, false_imp_iff, implies_true, and_true,
      depth_ofColumnRef]
    exact ⟨hpos, hpos⟩

end Json

/-! ## Parameters -/

namespace NameMap

variable {α : Type}

/-- A name after all others comes last. -/
theorem insertEntry_last {name : String} (value : α) {entries : List (String × α)}
    (h : ∀ e ∈ entries, e.1 < name) :
    insertEntry name value entries = entries ++ [(name, value)] := by
  induction entries with
  | nil => rfl
  | cons e entries ih =>
    obtain ⟨he, hentries⟩ := List.forall_mem_cons.1 h
    rw [insertEntry, if_neg (String.lt_asymm he), if_pos he, ih hentries]
    rfl

theorem eq_of_entries {p q : NameMap α} (h : p.entries = q.entries) : p = q := by
  obtain ⟨l, hl⟩ := p
  obtain ⟨m, hm⟩ := q
  obtain rfl : l = m := h
  rfl

/-- A map is made again from its entries. -/
theorem ofList_entries (p : NameMap α) : ofList p.entries = p := by
  have each (before after : List (String × α)) (q : NameMap α) (hq : q.entries = before)
      (asc : (before ++ after).Pairwise fun p q => p.1 < q.1) :
      (after.foldl (fun p e => p.insert e.1 e.2) q).entries = before ++ after := by
    induction after generalizing before q with
    | nil => rw [List.append_nil]; exact hq
    | cons e after ih =>
      have hlast : (q.insert e.1 e.2).entries = before ++ [e] := by
        show insertEntry e.1 e.2 q.entries = _
        rw [hq]
        refine insertEntry_last e.2 fun d hd => ?_
        exact (List.pairwise_append.1 asc).2.2 d hd e List.mem_cons_self
      have happend : before ++ e :: after = before ++ [e] ++ after := by simp
      rw [happend] at asc ⊢
      exact ih (before ++ [e]) (q.insert e.1 e.2) hlast asc
  exact eq_of_entries (each [] p.entries empty rfl p.ascending)

theorem mem_of_mem_ofList {entries : List (String × α)} {e : String × α}
    (h : e ∈ (ofList entries).entries) : e ∈ entries := by
  have each (more : List (String × α)) (p : NameMap α)
      (h : e ∈ (more.foldl (fun p e => p.insert e.1 e.2) p).entries) :
      e ∈ p.entries ∨ e ∈ more := by
    induction more generalizing p with
    | nil => exact .inl h
    | cons d more ih =>
      rcases ih (p.insert d.1 d.2) h with hp | hmore
      · rcases mem_insertEntry hp with rfl | hp
        · exact .inr List.mem_cons_self
        · exact .inl hp
      · exact .inr (List.mem_cons_of_mem _ hmore)
  exact (each entries empty h).resolve_left List.not_mem_nil

end NameMap

namespace Json

theorem parameters?_restored {p : Parameters} (h : ∀ e ∈ p.entries, e.2.isFloat = false) :
    WrittenAs parameters? (ofParameters p) p where
  written := by
    refine isWritten_record fun e he => ?_
    obtain ⟨e, hmem, rfl⟩ := List.mem_map.1 he
    exact (value?_restored (h e hmem)).written
  restored d hd := by
    cases d with
    | zero => exact absurd hd (Nat.not_succ_le_zero _)
    | succ d =>
      have hdepths := depth_record_le.1 hd
      have hentries : ((p.entries.map fun e => (e.1, ofValue e.2)).map fun e =>
          (some e.1, e.2)).mapM (fun e : Option String × Json => e.1.bind fun name =>
            (value? d e.2).bind fun v => some (name, v)) = some p.entries := by
        rw [mapM_eq_some_iff, List.map_map, List.forall₂_map_left_iff]
        refine List.forall₂_same.2 fun e he => ?_
        have hvalue := (value?_restored (h e he)).restored d
          (hdepths _ (List.mem_map.2 ⟨e, he, rfl⟩))
        simp only [Function.comp_apply, hvalue, Option.bind_some]
      rw [ofParameters, record, parameters?]
      simp only [hentries, Option.bind_eq_bind, Option.bind_some, NameMap.ofList_entries]

theorem fits_parameters? (d : ℕ) : Fits parameters? ofParameters d := by
  intro v p h
  cases d with
  | zero => cases h
  | succ d =>
    cases v with
    | object entries =>
      simp only [parameters?, Option.bind_eq_bind, Option.bind_eq_some_iff] at h
      obtain ⟨read, hread, h⟩ := h
      obtain rfl := Option.some.inj h
      refine depth_record_le.2 fun e he => ?_
      obtain ⟨e, hmem, rfl⟩ := List.mem_map.1 he
      obtain ⟨w, -, hw⟩ := exists_mem_of_forall₂ (mapM_eq_some_iff.1 hread).flip
        (NameMap.mem_of_mem_ofList hmem)
      obtain ⟨name, -, hw⟩ := Option.bind_eq_some_iff.1 hw
      obtain ⟨x, hx, hw⟩ := Option.bind_eq_some_iff.1 hw
      obtain rfl := Option.some.inj hw
      exact fits_value? d _ x hx
    | _ => cases h

end Json

end JoinPath
