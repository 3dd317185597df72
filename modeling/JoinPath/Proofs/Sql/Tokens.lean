import JoinPath.Sql.Dialect
/-!
# Tokens

The words and signs of SQL text, and their nesting by parentheses. Two texts side by side have the
tokens of both unless a word or a sign crosses the seam (`tokens_append`), so the items of a text
are found piece by piece (`Scanned`).
-/

namespace JoinPath

/-! ## Tokens -/

def isWordChar (c : Char) : Bool := c.isAlphanum || c == '_'

def isSign (c : Char) : Bool := c == '<' || c == '=' || c == '>'

/-- Whether a character belongs to the token of the character before it. -/
def glues (c d : Char) : Bool := isWordChar c && isWordChar d || isSign c && isSign d

/-- A character that is a token of its own. -/
def isLone (c : Char) : Bool := !isWordChar c && !isSign c

/-- Puts a character before tokens, into the first of them if it belongs there. -/
def glue (c : Char) : List (List Char) → List (List Char)
  | (d :: w) :: ts => if glues c d then (c :: d :: w) :: ts else [c] :: (d :: w) :: ts
  | ts => [c] :: ts

def lex : List Char → List (List Char)
  | [] => []
  | c :: cs => glue c (lex cs)

/-- The tokens of a text: words, signs and single characters. A blank is a token too, so that the
tokens together are the text. -/
def tokens (s : String) : List String := (lex s.toList).map String.ofList

/-- Texts that no token crosses where the one ends and the other begins. -/
def Seam (s t : String) : Prop :=
  ∀ c ∈ s.toList.getLast?, ∀ d ∈ t.toList.head?, glues c d = false

theorem lex_cons (c : Char) (cs : List Char) : ∃ w ts, lex (c :: cs) = (c :: w) :: ts := by
  rw [lex]
  unfold glue
  split
  · split
    · exact ⟨_, _, rfl⟩
    · exact ⟨_, _, rfl⟩
  · exact ⟨_, _, rfl⟩

theorem glue_append {c d : Char} {w : List Char} (ts us : List (List Char)) :
    glue c ((d :: w) :: ts ++ us) = glue c ((d :: w) :: ts) ++ us := by
  by_cases h : glues c d = true <;> simp [glue, h]

theorem lex_append {s t : List Char}
    (h : ∀ c ∈ s.getLast?, ∀ d ∈ t.head?, glues c d = false) : lex (s ++ t) = lex s ++ lex t := by
  induction s with
  | nil => rfl
  | cons c s ih =>
    cases s with
    | nil =>
      cases t with
      | nil => rfl
      | cons d t =>
        have hglue : glues c d = false := h c rfl d rfl
        obtain ⟨w, ts, hlex⟩ := lex_cons d t
        show glue c (lex (d :: t)) = [c] :: lex (d :: t)
        simp [hlex, glue, hglue]
    | cons e s =>
      have happend : lex (e :: s ++ t) = lex (e :: s) ++ lex t := ih (by simpa using h)
      obtain ⟨w, ts, hlex⟩ := lex_cons e s
      show glue c (lex (e :: s ++ t)) = glue c (lex (e :: s)) ++ lex t
      rw [happend, hlex, glue_append]

theorem tokens_append {s t : String} (h : Seam s t) : tokens (s ++ t) = tokens s ++ tokens t := by
  rw [tokens, String.toList_append, lex_append h, List.map_append, tokens, tokens]

theorem lex_word {c : Char} {cs : List Char} (h : ∀ d ∈ c :: cs, isWordChar d = true) :
    lex (c :: cs) = [c :: cs] := by
  induction cs generalizing c with
  | nil => rfl
  | cons d cs ih =>
    have hglue : glues c d = true := by
      simp [glues, h c (by simp), h d (by simp)]
    rw [lex, ih fun e he => h e (List.mem_cons_of_mem _ he)]
    simp [glue, hglue]

theorem flatten_glue (c : Char) (ts : List (List Char)) :
    (glue c ts).flatten = c :: ts.flatten := by
  unfold glue
  split
  · split <;> simp
  · simp

theorem flatten_lex (cs : List Char) : (lex cs).flatten = cs := by
  induction cs with
  | nil => rfl
  | cons c cs ih => rw [lex, flatten_glue, ih]

theorem join_tokens (s : String) : String.join (tokens s) = s := by
  rw [← String.toList_inj, String.toList_join, tokens, List.flatMap_map]
  simp [flatten_lex]

/-! ## Seams -/

def endsLone (s : String) : Bool := s.toList.getLast?.all isLone

def beginsLone (s : String) : Bool := s.toList.head?.all isLone

theorem glues_of_lone_left {c : Char} (h : isLone c = true) (d : Char) : glues c d = false := by
  simp_all [isLone, glues]

theorem glues_of_lone_right {d : Char} (h : isLone d = true) (c : Char) : glues c d = false := by
  simp_all [isLone, glues]

theorem seam_of_ends {s : String} (h : endsLone s = true) (t : String) : Seam s t := by
  intro c hc d _
  refine glues_of_lone_left ?_ d
  rw [endsLone, Option.mem_def.1 hc] at h
  exact h

theorem seam_of_begins {t : String} (h : beginsLone t = true) (s : String) : Seam s t := by
  intro c _ d hd
  refine glues_of_lone_right ?_ c
  rw [beginsLone, Option.mem_def.1 hd] at h
  exact h

theorem endsLone_append {t : String} (h : endsLone t = true) (ht : t ≠ "") (s : String) :
    endsLone (s ++ t) = true := by
  have hne : t.toList ≠ [] := fun hnil => ht (String.toList_eq_nil_iff.1 hnil)
  have hlast := List.getLast?_eq_some_getLast hne
  rw [endsLone, hlast] at h
  rw [endsLone, String.toList_append, List.getLast?_append, hlast]
  exact h

theorem beginsLone_append {s : String} (h : beginsLone s = true) (hs : s ≠ "") (t : String) :
    beginsLone (s ++ t) = true := by
  have : s.toList ≠ [] := fun hnil => hs (String.toList_eq_nil_iff.1 hnil)
  obtain ⟨c, cs, hcs⟩ := List.exists_cons_of_ne_nil this
  simp_all [beginsLone]

/-! ## Items -/

/-- A token, or what stands between a parenthesis and the one that closes it. -/
inductive Item
  | word (s : String)
  | paren (inner : List Item)

namespace Item

mutual

def text : Item → String
  | word s => s
  | paren inner => "(" ++ textAll inner ++ ")"

def textAll : List Item → String
  | [] => ""
  | i :: is => text i ++ textAll is

end

theorem textAll_append (is ks : List Item) : textAll (is ++ ks) = textAll is ++ textAll ks := by
  induction is with
  | nil => simp [textAll]
  | cons i is ih => simp [textAll, ih, String.append_assoc]

theorem textAll_map_word (ts : List String) : textAll (ts.map word) = String.join ts := by
  induction ts with
  | nil => rfl
  | cons t ts ih => simp [textAll, text, ih]

/-- The items to the right of a token, up to the parentheses that are still open there. -/
abbrev Levels := List Item × List (List Item)

/-- One token further to the left; an opening parenthesis that nothing closes is refused. -/
def shift (t : String) : Option Levels → Option Levels
  | none => none
  | some (top, outer) =>
    if t = ")" then some ([], top :: outer)
    else if t = "(" then
      match outer with
      | [] => none
      | next :: outer => some (paren top :: next, outer)
    else some (word t :: top, outer)

/-- Nests tokens by their parentheses, if these are balanced. -/
def nest (ts : List String) : Option (List Item) :=
  match ts.foldr shift (some ([], [])) with
  | some (is, []) => some is
  | _ => none

end Item

open Item

/-- `s` is balanced text with the items `is`, wherever it stands. -/
structure Scanned (s : String) (is : List Item) : Prop where
  text : textAll is = s
  nests (top : List Item) (outer : List (List Item)) :
    (tokens s).foldr shift (some (top, outer)) = some (is ++ top, outer)

namespace Scanned

variable {s t : String} {is ks : List Item}

theorem nest_eq (h : Scanned s is) : nest (tokens s) = some is := by
  simp [nest, h.nests]

theorem append (hs : Scanned s is) (ht : Scanned t ks) (seam : Seam s t) :
    Scanned (s ++ t) (is ++ ks) where
  text := by rw [textAll_append, hs.text, ht.text]
  nests top outer := by
    rw [tokens_append seam, List.foldr_append, ht.nests, hs.nests, List.append_assoc]

/-- A text that is cut off on both sides stands between two others. -/
theorem between {sep : String} {ms : List Item} (hs : Scanned s is) (hsep : Scanned sep ms)
    (ht : Scanned t ks) (hne : sep ≠ "") (hbegins : beginsLone sep = true)
    (hends : endsLone sep = true) : Scanned (s ++ sep ++ t) (is ++ ms ++ ks) :=
  (hs.append hsep (seam_of_begins hbegins s)).append ht
    (seam_of_ends (endsLone_append hends hne s) t)

theorem empty : Scanned "" [] := ⟨rfl, fun _ _ => rfl⟩

theorem of_tokens (ts : List String) (h : tokens s = ts) (hopen : "(" ∉ ts) (hclose : ")" ∉ ts) :
    Scanned s (ts.map word) where
  text := by rw [textAll_map_word, ← h, join_tokens]
  nests top outer := by
    rw [h]
    clear h
    induction ts with
    | nil => rfl
    | cons t ts ih =>
      rw [List.foldr_cons, ih (fun hmem => hopen (List.mem_cons_of_mem _ hmem))
        (fun hmem => hclose (List.mem_cons_of_mem _ hmem))]
      have hopen : t ≠ "(" := by
        rintro rfl
        exact hopen List.mem_cons_self
      have hclose : t ≠ ")" := by
        rintro rfl
        exact hclose List.mem_cons_self
      simp [shift, hopen, hclose]

theorem of_word {c : Char} {cs : List Char} (hs : s.toList = c :: cs)
    (h : ∀ d ∈ c :: cs, isWordChar d = true) : Scanned s [.word s] := by
  have htokens : tokens s = [s] := by
    rw [tokens, hs, lex_word h, ← hs]
    simp
  refine of_tokens [s] htokens ?_ ?_
  · rintro hmem
    obtain rfl := List.mem_singleton.1 hmem
    have : isWordChar '(' = true := h '(' (by simp [← hs])
    exact absurd this (by decide)
  · rintro hmem
    obtain rfl := List.mem_singleton.1 hmem
    have : isWordChar ')' = true := h ')' (by simp [← hs])
    exact absurd this (by decide)

theorem parens (h : Scanned s is) : Scanned ("(" ++ s ++ ")") [.paren is] where
  text := by simp [textAll, Item.text, h.text]
  nests top outer := by
    have hopen : tokens "(" = ["("] := by decide
    have hclose : tokens ")" = [")"] := by decide
    rw [tokens_append (seam_of_begins rfl _), tokens_append (seam_of_ends rfl _), hopen, hclose,
      List.append_assoc, List.foldr_append, List.foldr_append]
    simp [shift, h.nests]

end Scanned

end JoinPath
