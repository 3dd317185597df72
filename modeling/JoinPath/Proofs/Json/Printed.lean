import JoinPath.Json.Printer
import JoinPath.Json.Reader
import JoinPath.Proofs.Lists
import JoinPath.Proofs.Number.Digits
/-!
# Printed JSON is read back

A value whose numbers are integers and whose strings have texts is the value that its text reads as
(`parse?_compact`). A value inside a text is read up to the mark that follows it, so the statements
about the reader are about a text with something after it.
-/

namespace JoinPath.Json

mutual

/-- How many arrays and objects stand around the innermost part of a value, itself included. -/
def depth : Json → ℕ
  | null => 0
  | bool _ => 0
  | number _ => 0
  | string _ => 0
  | array items => depthAll items + 1
  | object entries => depthEntries entries + 1

def depthAll : List Json → ℕ
  | [] => 0
  | v :: vs => max (depth v) (depthAll vs)

def depthEntries : List (Option String × Json) → ℕ
  | [] => 0
  | (_, v) :: es => max (depth v) (depthEntries es)

end

mutual

/-- All numbers are integers, and all strings have a text. -/
def IsWritten : Json → Prop
  | null => True
  | bool _ => True
  | number text => ∃ n : ℤ, text = toString n
  | string s => s.isSome
  | array items => AreWritten items
  | object entries => AreEntriesWritten entries

def AreWritten : List Json → Prop
  | [] => True
  | v :: vs => IsWritten v ∧ AreWritten vs

def AreEntriesWritten : List (Option String × Json) → Prop
  | [] => True
  | (key, v) :: es => (key.isSome ∧ IsWritten v) ∧ AreEntriesWritten es

end

theorem depthAll_le_iff {vs : List Json} {d : ℕ} : depthAll vs ≤ d ↔ ∀ v ∈ vs, v.depth ≤ d :=
  forall_iff_of_cons (Q := fun vs => depthAll vs ≤ d) (Nat.zero_le d) (fun _ _ => Nat.max_le) vs

theorem depthEntries_le_iff {es : List (Option String × Json)} {d : ℕ} :
    depthEntries es ≤ d ↔ ∀ e ∈ es, e.2.depth ≤ d :=
  forall_iff_of_cons (Q := fun es => depthEntries es ≤ d) (Nat.zero_le d)
    (fun _ _ => Nat.max_le) es

theorem areWritten_iff {vs : List Json} : AreWritten vs ↔ ∀ v ∈ vs, v.IsWritten :=
  forall_iff_of_cons trivial (fun _ _ => Iff.rfl) vs

theorem areEntriesWritten_iff {es : List (Option String × Json)} :
    AreEntriesWritten es ↔ ∀ e ∈ es, e.1.isSome ∧ e.2.IsWritten :=
  forall_iff_of_cons trivial (fun _ _ => Iff.rfl) es

theorem compactItems_eq_map (vs : List Json) : compactItems vs = vs.map compact :=
  eq_map_of_cons rfl (fun _ _ => rfl) vs

/-- An entry of an object on one line. -/
def entryText (e : Option String × Json) : String := literalText e.1 ++ ":" ++ compact e.2

theorem compactEntries_eq_map (es : List (Option String × Json)) :
    compactEntries es = es.map entryText :=
  eq_map_of_cons rfl (fun _ _ => rfl) es

theorem toList_array (items : List Json) :
    (array items).compact.toList =
      '[' :: ((",".intercalate (items.map compact)).toList ++ [']']) := by
  rw [compact, compactItems_eq_map, String.toList_append, String.toList_append]
  rfl

theorem toList_object (entries : List (Option String × Json)) :
    (object entries).compact.toList =
      '{' :: ((",".intercalate (entries.map entryText)).toList ++ ['}']) := by
  rw [compact, compactEntries_eq_map, String.toList_append, String.toList_append]
  rfl

theorem toList_parts (first second : String) (parts : List String) :
    (",".intercalate (first :: second :: parts)).toList =
      first.toList ++ ',' :: (",".intercalate (second :: parts)).toList := by
  rw [String.toList_intercalate, String.toList_intercalate, List.map_cons, List.map_cons,
    List.intercalate_cons_cons, List.append_assoc]
  rfl

theorem toList_part (part : String) : (",".intercalate [part]).toList = part.toList := by
  rw [String.toList_intercalate, List.map_singleton, List.intercalate_singleton]

/-- Parts begin as the first of them does. -/
theorem exists_toList_parts {first : String} {c : Char} {text : List Char}
    (h : first.toList = c :: text) (parts : List String) (rest : List Char) :
    ∃ more, (",".intercalate (first :: parts)).toList ++ rest = c :: more := by
  cases parts with
  | nil =>
    rw [toList_part, h]
    exact ⟨text ++ rest, rfl⟩
  | cons second parts =>
    rw [toList_parts, h]
    exact ⟨_, rfl⟩

/-! ## Strings -/

theorem ofCode_of_lt {n : ℕ} (h : n < 0x20) : StringUnit.ofCode n = .char (.ofNat n) :=
  if_neg (by omega)

/-- The code of a control character is read back. -/
theorem hexCode : ∀ n < 0x20,
    ['0', '0', Nat.digitChar (n / 16), Nat.digitChar (n % 16)].all isHexDigit = true ∧
      natOfDigits 16 ['0', '0', Nat.digitChar (n / 16), Nat.digitChar (n % 16)] = n := by
  decide

theorem stringRest_plain {c : Char} (hquote : c ≠ '"') (hescape : c ≠ '\\')
    (hcode : 0x20 ≤ c.toNat) (rest : List Char) :
    stringRest (c :: rest) = (stringRest rest).map fun r => (.char c :: r.1, r.2) := by
  rw [stringRest.eq_def]
  split
  · next heq => exact absurd (List.cons.inj heq).1 hquote
  · next heq => exact absurd (List.cons.inj heq).1 hescape
  · next heq => exact absurd (List.cons.inj heq).1 hescape
  · next heq =>
    obtain ⟨rfl, rfl⟩ := List.cons.inj heq
    exact if_pos ⟨hcode, hescape⟩
  · next heq => cases heq

theorem stringRest_escapedChar (c : Char) (rest : List Char) :
    stringRest ((escapedChar c).toList ++ rest) =
      (stringRest rest).map fun r => (.char c :: r.1, r.2) := by
  have short {d : Char} (hd : d ≠ 'u') (h : shortEscape? d = some c) :
      stringRest ('\\' :: d :: rest) =
        (stringRest rest).map fun r => (.char c :: r.1, r.2) := by
    rw [stringRest.eq_def]
    split
    · next heq => exact absurd (List.cons.inj heq).1 (by decide)
    · next heq => exact absurd (List.cons.inj (List.cons.inj heq).2).1 hd
    · next heq =>
      obtain ⟨rfl, rfl⟩ := List.cons.inj (List.cons.inj heq).2
      rw [h]
      rfl
    · next hnot heq =>
      obtain ⟨rfl, rfl⟩ := List.cons.inj heq
      exact (hnot d rest rfl rfl).elim
    · next heq => cases heq
  unfold escapedChar
  split
  · next h => exact short (by decide) (h ▸ rfl)
  split
  · next h => exact short (by decide) (h ▸ rfl)
  split
  · next h => exact short (by decide) (h ▸ rfl)
  split
  · next h => exact short (by decide) (h ▸ rfl)
  split
  · next h => exact short (by decide) (h ▸ rfl)
  split
  · next h => exact short (by decide) (congrArg some (h ▸ c.ofNat_toNat))
  split
  · next h => exact short (by decide) (congrArg some (h ▸ c.ofNat_toNat))
  split
  · next h =>
    obtain ⟨hhex, hcode⟩ := hexCode c.toNat h
    simp only [String.toList_append, String.toList_ofList]
    show stringRest ('\\' :: 'u' :: '0' :: '0' :: _ :: _ :: rest) = _
    rw [stringRest, if_pos hhex, hcode, ofCode_of_lt h, Char.ofNat_toNat]
  · next hquote hescape _ _ _ _ _ hcode =>
    rw [Char.toString_eq_singleton, String.toList_singleton]
    exact stringRest_plain hquote hescape (by omega) rest

theorem stringRest_escaped (text rest : List Char) :
    stringRest ((text.map escapedChar).flatMap String.toList ++ '"' :: rest) =
      some (text.map .char, rest) := by
  induction text with
  | nil => rfl
  | cons c text ih =>
    rw [List.map_cons, List.flatMap_cons, List.append_assoc, stringRest_escapedChar, ih]
    rfl

theorem textOfUnits?_chars (text : List Char) : textOfUnits? (text.map .char) = some text := by
  induction text with
  | nil => rfl
  | cons c text ih => rw [List.map_cons, textOfUnits?, ih, Option.map_some]

/-- The text of a string literal after its first quotation mark. -/
def afterQuote (s : String) : List Char := (s.toList.map escapedChar).flatMap String.toList ++ ['"']

theorem toList_quoted (s : String) : (quoted s).toList = '"' :: afterQuote s := by
  rw [quoted, String.toList_append, String.toList_append, String.toList_join]
  rfl

/-- A string literal is read up to its end. -/
theorem literalRest_afterQuote (s : String) (rest : List Char) :
    literalRest (afterQuote s ++ rest) = some (some s, rest) := by
  rw [afterQuote, List.append_assoc, literalRest]
  show (stringRest (_ ++ '"' :: rest)).map _ = _
  rw [stringRest_escaped]
  simp only [Option.map_some, textOfUnits?_chars, String.ofList_toList]

/-! ## Where values begin and end -/

/-- Nothing follows a value, or a mark that ends it. -/
def Closes (rest : List Char) : Prop := ∀ c ∈ rest.head?, c = ',' ∨ c = ']' ∨ c = '}'

theorem Closes.stops {rest : List Char} (h : Closes rest) : Numeral.Stops rest := by
  constructor
  · intro c hc
    rcases h c hc with rfl | rfl | rfl <;> decide
  · intro c hc
    rcases h c hc with rfl | rfl | rfl <;> decide

/-- The characters that printed values begin with. -/
def Opens (c : Char) : Prop :=
  c = 'n' ∨ c = 't' ∨ c = 'f' ∨ c = '"' ∨ c = '[' ∨ c = '{' ∨ c = '-' ∨ isDecimalDigit c = true

theorem Opens.not_space {c : Char} (h : Opens c) : isSpace c = false := by
  rcases h with rfl | rfl | rfl | rfl | rfl | rfl | rfl | h
  all_goals first | decide | skip
  rw [Bool.eq_false_iff]
  intro hspace
  simp only [isSpace, Bool.or_eq_true, beq_iff_eq] at hspace
  rcases hspace with ((rfl | rfl) | rfl) | rfl <;> exact absurd h (by decide)

/-- The signs that close arrays and objects. -/
def IsClosing (c : Char) : Prop := c = ']' ∨ c = '}'

theorem IsClosing.closes {c : Char} (h : IsClosing c) (rest : List Char) : Closes (c :: rest) := by
  intro d hd
  obtain rfl := Option.some.inj hd
  exact .inr h

theorem Opens.ne_closing {c close : Char} (h : Opens c) (hclose : IsClosing close) : c ≠ close := by
  rintro rfl
  rcases hclose with rfl | rfl <;> exact absurd h (by unfold Opens; decide)

theorem exists_opens_toString (n : ℤ) : ∃ c text, (toString n).toList = c :: text ∧
    (c = '-' ∨ isDecimalDigit c = true) := by
  rw [Numeral.toList_toString]
  by_cases hneg : n < 0
  · rw [if_pos hneg]
    exact ⟨'-', _, rfl, .inl rfl⟩
  · rw [if_neg hneg, List.nil_append]
    obtain ⟨c, digits, hdigits⟩ := List.exists_cons_of_ne_nil (repr_ne_nil n.natAbs)
    exact ⟨c, digits, hdigits, .inr (areDigits_repr _ c (hdigits ▸ List.mem_cons_self))⟩

theorem IsWritten.opens {v : Json} (h : v.IsWritten) :
    ∃ c text, v.compact.toList = c :: text ∧ Opens c := by
  cases v with
  | null => exact ⟨'n', _, rfl, by simp [Opens]⟩
  | bool b =>
    cases b with
    | false => exact ⟨'f', _, rfl, by simp [Opens]⟩
    | true => exact ⟨'t', _, rfl, by simp [Opens]⟩
  | number text =>
    obtain ⟨n, rfl⟩ := h
    obtain ⟨c, text, htext, hc⟩ := exists_opens_toString n
    exact ⟨c, text, htext, by rcases hc with rfl | hc <;> simp [Opens, *]⟩
  | string s => exact ⟨'"', _, toList_quoted _, by simp [Opens]⟩
  | array items => exact ⟨'[', _, toList_array items, by simp [Opens]⟩
  | object entries => exact ⟨'{', _, toList_object entries, by simp [Opens]⟩

theorem skipSpace_cons {c : Char} (h : isSpace c = false) (text : List Char) :
    skipSpace (c :: text) = c :: text :=
  List.dropWhile_cons_of_neg (by simp [h])

theorem IsWritten.skipSpace {v : Json} (h : v.IsWritten) (rest : List Char) :
    skipSpace (v.compact.toList ++ rest) = v.compact.toList ++ rest := by
  obtain ⟨c, text, htext, hc⟩ := h.opens
  rw [htext, List.cons_append, skipSpace_cons hc.not_space]

/-! ## Values -/

/-- The reader takes the value off every text that begins with it. -/
def Reads (value? : Reader) (v : Json) : Prop :=
  ∀ rest, Closes rest → value? (v.compact.toList ++ rest) = some (v, rest)

section Parts

variable {α : Type} {part? : List Char → Option (α × List Char)} {close : Char}
  {text between rest : List Char} {x : α} {xs : List α}

theorem partsRest_last (hclose : IsClosing close) (h : part? text = some (x, close :: rest)) :
    partsRest part? close text = some ([x], rest) := by
  have hspace : isSpace close = false := by rcases hclose with rfl | rfl <;> decide
  rw [partsRest, h]
  simp only [Option.bind_eq_bind, Option.bind_some]
  rw [skipSpace_cons hspace]
  simp only [if_true]

theorem partsRest_cons (hclose : IsClosing close) (h : part? text = some (x, ',' :: between))
    (hlt : between.length < text.length) (hrest : partsRest part? close between = some (xs, rest)) :
    partsRest part? close text = some (x :: xs, rest) := by
  have hcomma : ',' ≠ close := by rcases hclose with rfl | rfl <;> decide
  rw [partsRest, h]
  simp only [Option.bind_eq_bind, Option.bind_some]
  rw [skipSpace_cons (by decide)]
  simp only [if_neg hcomma, if_pos hlt, hrest, true_and, Option.map_some]

/-- Parts that are read off every text that begins with theirs are read one after the other. -/
theorem partsRest_printed {textOf : α → String} (hclose : IsClosing close) (hne : xs ≠ [])
    (hreads : ∀ x ∈ xs, ∀ rest, Closes rest →
      part? ((textOf x).toList ++ rest) = some (x, rest)) (rest : List Char) :
    partsRest part? close ((",".intercalate (xs.map textOf)).toList ++ close :: rest) =
      some (xs, rest) := by
  induction xs with
  | nil => exact absurd rfl hne
  | cons x xs ih =>
    obtain ⟨rx, rxs⟩ := List.forall_mem_cons.1 hreads
    cases xs with
    | nil =>
      rw [List.map_singleton, toList_part]
      exact partsRest_last hclose (rx _ (hclose.closes rest))
    | cons y xs =>
      rw [List.map_cons, List.map_cons, toList_parts, List.append_assoc, List.cons_append]
      refine partsRest_cons hclose (rx _ (by simp [Closes])) ?_ (ih (List.cons_ne_nil _ _) rxs)
      simp only [List.length_append, List.length_cons]
      omega

theorem partsUpTo_printed {textOf : α → String} (hclose : IsClosing close)
    (hopens : ∀ x ∈ xs, ∃ c text, (textOf x).toList = c :: text ∧ Opens c)
    (hreads : ∀ x ∈ xs, ∀ rest, Closes rest →
      part? ((textOf x).toList ++ rest) = some (x, rest)) (rest : List Char) :
    partsUpTo part? close ((",".intercalate (xs.map textOf)).toList ++ close :: rest) =
      some (xs, rest) := by
  cases xs with
  | nil =>
    have hspace : isSpace close = false := by rcases hclose with rfl | rfl <;> decide
    show partsUpTo part? close (close :: rest) = some ([], rest)
    simp only [partsUpTo, skipSpace_cons hspace, List.head?_cons, if_true, List.tail_cons]
  | cons x xs =>
    have hparts := partsRest_printed hclose (List.cons_ne_nil x xs) hreads rest
    obtain ⟨c, start, hstart, hc⟩ := hopens x List.mem_cons_self
    obtain ⟨text, htext⟩ := exists_toList_parts hstart (xs.map textOf) (close :: rest)
    have hne : some c ≠ some close := fun h => hc.ne_closing hclose (Option.some.inj h)
    rw [List.map_cons, htext] at hparts ⊢
    simp only [partsUpTo, skipSpace_cons hc.not_space, List.head?_cons, if_neg hne, hparts]

end Parts

theorem item?_printed {value? : Reader} {v : Json} (hv : v.IsWritten) (hreads : Reads value? v)
    {rest : List Char} (hrest : Closes rest) :
    item? value? (v.compact.toList ++ rest) = some (v, rest) := by
  rw [item?, hv.skipSpace, hreads rest hrest]

theorem toList_entryText (e : Option String × Json) :
    (entryText e).toList = '"' :: (afterQuote (e.1.getD "") ++ ':' :: e.2.compact.toList) := by
  rw [entryText, literalText, String.toList_append, String.toList_append, toList_quoted,
    List.append_assoc]
  rfl

theorem member?_printed {value? : Reader} {e : Option String × Json}
    (he : e.1.isSome ∧ e.2.IsWritten) (hreads : Reads value? e.2) {rest : List Char}
    (hrest : Closes rest) : member? value? ((entryText e).toList ++ rest) = some (e, rest) := by
  obtain ⟨key, v⟩ := e
  obtain ⟨hkey, hv⟩ := he
  obtain ⟨key, rfl⟩ := Option.isSome_iff_exists.1 hkey
  rw [toList_entryText, List.cons_append, List.append_assoc, member?, skipSpace_cons (by decide)]
  simp only [literalRest_afterQuote, Option.bind_eq_bind, Option.bind_some, List.cons_append]
  rw [skipSpace_cons (by decide)]
  simp only [hv.skipSpace, hreads _ hrest, Option.map_some, Option.getD_some]

theorem arrayRest_printed {value? : Reader} {items : List Json}
    (hwritten : ∀ v ∈ items, v.IsWritten) (hreads : ∀ v ∈ items, Reads value? v)
    (rest : List Char) :
    arrayRest value? ((",".intercalate (items.map compact)).toList ++ ']' :: rest) =
      some (.array items, rest) := by
  rw [arrayRest, partsUpTo_printed (.inl rfl) (fun v hv => (hwritten v hv).opens)
    (fun v hv _ => item?_printed (hwritten v hv) (hreads v hv)), Option.map_some]

theorem objectRest_printed {value? : Reader} {entries : List (Option String × Json)}
    (hwritten : ∀ e ∈ entries, e.1.isSome ∧ e.2.IsWritten)
    (hreads : ∀ e ∈ entries, Reads value? e.2) (rest : List Char) :
    objectRest value? ((",".intercalate (entries.map entryText)).toList ++ '}' :: rest) =
      some (.object entries, rest) := by
  rw [objectRest, partsUpTo_printed (.inr rfl)
    (fun e _ => ⟨'"', _, toList_entryText e, by simp [Opens]⟩)
    (fun e he _ => member?_printed (hwritten e he) (hreads e he)), Option.map_some]

theorem number?_toString (n : ℤ) {rest : List Char} (h : Closes rest) :
    number? ((toString n).toList ++ rest) = some (.number (toString n), rest) := by
  rw [number?, Numeral.read?_toString n h.stops, Option.map_some]
  simp only [List.length_append, Nat.add_sub_cancel, List.take_left', String.ofList_toList]

theorem readValue?_numeral {c : Char} (h : c = '-' ∨ isDecimalDigit c = true) (d : ℕ)
    (text : List Char) : readValue? (d + 1) (c :: text) = number? (c :: text) := by
  unfold readValue?
  split
  case _ heq => exact absurd ((List.cons.inj heq).1 ▸ h) (by decide)
  case _ heq => exact absurd ((List.cons.inj heq).1 ▸ h) (by decide)
  case _ heq => exact absurd ((List.cons.inj heq).1 ▸ h) (by decide)
  case _ heq => exact absurd ((List.cons.inj heq).1 ▸ h) (by decide)
  case _ heq => exact absurd ((List.cons.inj heq).1 ▸ h) (by decide)
  case _ heq => exact absurd ((List.cons.inj heq).1 ▸ h) (by decide)
  · rfl

/-- A written value that is not nested too deep is read up to its end. -/
theorem readValue?_compact {d : ℕ} {v : Json} (hwritten : v.IsWritten) (hdepth : v.depth < d) :
    Reads (readValue? d) v := by
  induction d generalizing v with
  | zero => omega
  | succ d ih =>
    intro rest hrest
    cases v with
    | null => rfl
    | bool b => cases b <;> rfl
    | number text =>
      obtain ⟨n, rfl⟩ := hwritten
      obtain ⟨c, text, htext, hc⟩ := exists_opens_toString n
      have hnumber := number?_toString n hrest
      rw [compact]
      rw [htext, List.cons_append] at hnumber ⊢
      rw [readValue?_numeral hc, hnumber]
    | string s =>
      obtain ⟨s, rfl⟩ := Option.isSome_iff_exists.1 hwritten
      rw [compact, literalText, Option.getD_some, toList_quoted, List.cons_append]
      simp only [readValue?, literalRest_afterQuote, Option.map_some]
    | array items =>
      have hitems := areWritten_iff.1 hwritten
      have hreads : ∀ v ∈ items, Reads (readValue? d) v := fun v hv =>
        ih (hitems v hv) (Nat.lt_of_le_of_lt (depthAll_le_iff.1 (Nat.le_refl _) v hv)
          (Nat.lt_of_succ_lt_succ hdepth))
      rw [toList_array, List.cons_append, List.append_assoc]
      exact arrayRest_printed hitems hreads rest
    | object entries =>
      have hentries := areEntriesWritten_iff.1 hwritten
      have hreads : ∀ e ∈ entries, Reads (readValue? d) e.2 := fun e he =>
        ih (hentries e he).2 (Nat.lt_of_le_of_lt (depthEntries_le_iff.1 (Nat.le_refl _) e he)
          (Nat.lt_of_succ_lt_succ hdepth))
      rw [toList_object, List.cons_append, List.append_assoc]
      exact objectRest_printed hentries hreads rest

/-! ## Texts -/

theorem length_toList_parts_le {parts : List String} {part : String} (h : part ∈ parts) :
    part.toList.length ≤ (",".intercalate parts).toList.length := by
  induction parts with
  | nil => exact absurd h List.not_mem_nil
  | cons first parts ih =>
    cases parts with
    | nil =>
      obtain rfl := List.mem_singleton.1 h
      rw [toList_part]
    | cons second parts =>
      rw [toList_parts, List.length_append, List.length_cons]
      rcases List.mem_cons.1 h with rfl | h
      · omega
      · have hle := ih h
        omega

/-- Each array and each object takes two characters at least. -/
theorem depth_le_length : ∀ v : Json, v.depth ≤ v.compact.toList.length
  | null => Nat.zero_le _
  | bool _ => Nat.zero_le _
  | number _ => Nat.zero_le _
  | string _ => Nat.zero_le _
  | array items => by
    rw [depth, toList_array, List.length_cons, List.length_append]
    refine Nat.succ_le_succ (Nat.le_trans (depthAll_le_iff.2 fun v hv => ?_) (Nat.le_add_right _ _))
    exact Nat.le_trans (depth_le_length v) (length_toList_parts_le (List.mem_map_of_mem hv))
  | object entries => by
    rw [depth, toList_object, List.length_cons, List.length_append]
    refine Nat.succ_le_succ
      (Nat.le_trans (depthEntries_le_iff.2 fun e he => ?_) (Nat.le_add_right _ _))
    refine Nat.le_trans ?_ (length_toList_parts_le (List.mem_map_of_mem he))
    have hle := depth_le_length e.2
    rw [toList_entryText, List.length_cons, List.length_append, List.length_cons]
    omega
termination_by v => sizeOf v
decreasing_by
  · have hlt := List.sizeOf_lt_of_mem hv
    rw [array.sizeOf_spec]
    omega
  · have hlt := List.sizeOf_lt_of_mem he
    have hvalue : sizeOf e.2 < sizeOf e := by
      obtain ⟨key, v⟩ := e
      dsimp only
      rw [Prod.mk.sizeOf_spec]
      omega
    rw [object.sizeOf_spec]
    omega

/-- A written value is what its text reads as. -/
theorem parse?_compact {v : Json} (h : v.IsWritten) : parse? v.compact = some v := by
  have hread := readValue?_compact h (Nat.lt_succ_of_le (depth_le_length v)) [] (by simp [Closes])
  have hspace := h.skipSpace []
  rw [List.append_nil] at hread hspace
  rw [parse?, hspace]
  simp only [hread, Option.bind_eq_bind, Option.bind_some]
  rfl

end JoinPath.Json
