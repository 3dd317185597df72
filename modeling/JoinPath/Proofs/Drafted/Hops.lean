import JoinPath.Drafted.Hops
import JoinPath.Proofs.Drafted.Resolve
import JoinPath.Proofs.Hops.OnePerRoute
/-!
# Hops by position

The table of positions says of each placement where its hop stands, so that a later step finds and
changes that hop alone (`LaysOut`). In a bounded session every step of every join is laid out, each
hop with the aliases that its placement received (`Bounded.layout_drafted`).
-/

namespace JoinPath

open Drafted

namespace Session

variable {s : Session} {id : PlacementId}

theorem Bounded.hop_drafted (hs : s.Bounded) (h : id.index < s.placements.length) (kind : JoinKind)
    (on : Option Criteria) (fetch : Bool) :
    s.drafted.hop id kind on fetch = some (s.hopOf id kind on fetch) := by
  have hdraft : s.drafted.draft? id = some (s.placement id).draft := draft?_spread h
  have htable : s.drafted.table? (s.placement id).draft.destination =
      some (s.schema.table (s.placement id).destination) :=
    table?_spread (hs.settled h).destination
  rw [Drafted.hop, hdraft, Option.bind_eq_bind, Option.bind_some, htable]
  rfl

/-! ## Positions -/

/-- Hops with their owners, laid out in a list and a table of positions. -/
structure LaysOut (s : Session) (placed : List PlacedHop) (columns : List ColumnRef) (l : Layout) :
    Prop where
  hops : l.hops = placed.map Prod.snd
  columns : l.columns = columns
  positions : ∀ id i, l.positions.lookup id = some i ↔ (placed.map Prod.fst)[i]? = some (some id)
  aliases : ∀ x ∈ placed, ∀ id ∈ x.1,
    x.2.tableAlias = (s.placement (s.terminal id)).destinationAlias

variable {placed : List PlacedHop} {columns : List ColumnRef} {l : Layout} {i : ℕ}

theorem LaysOut.exists_hop (h : s.LaysOut placed columns l) (hi : l.positions.lookup id = some i) :
    ∃ hop, placed[i]? = some (some id, hop) ∧ l.hops[i]? = some hop ∧
      hop.tableAlias = (s.placement (s.terminal id)).destinationAlias := by
  have howner := (h.positions id i).1 hi
  rw [List.getElem?_map] at howner
  obtain ⟨⟨owner, hop⟩, hget, howner⟩ := Option.map_eq_some_iff.1 howner
  obtain rfl : owner = some id := howner
  refine ⟨hop, hget, ?_, h.aliases _ (List.mem_of_getElem? hget) id rfl⟩
  rw [h.hops, List.getElem?_map, hget]
  rfl

/-- The hop of a placement is the only one that a change of it reaches. -/
theorem LaysOut.modifyHop_eq_set (h : s.LaysOut placed columns l)
    (hi : l.positions.lookup id = some i) {hop : Hop Criteria}
    (hget : placed[i]? = some (some id, hop)) (f : Hop Criteria → Hop Criteria) :
    modifyHop id f placed = placed.set i (some id, f hop) := by
  refine List.ext_getElem? fun j => ?_
  rw [modifyHop, List.getElem?_map, List.getElem?_set]
  by_cases hij : i = j
  · subst hij
    rw [hget, if_pos rfl, if_pos (List.getElem?_eq_some_iff.1 hget).1]
    exact congrArg some (if_pos rfl)
  · rw [if_neg hij]
    cases hj : placed[j]? with
    | none => rfl
    | some other =>
      obtain ⟨owner, hop'⟩ := other
      have hne : owner ≠ some id := by
        rintro rfl
        have hj' : l.positions.lookup id = some j := by
          rw [h.positions, List.getElem?_map, hj]
          rfl
        exact hij (Option.some.inj (hi.symm.trans hj'))
      exact congrArg some (if_neg hne)

/-- A step whose placement has its hop changes that hop. -/
theorem LaysOut.merge (h : s.LaysOut placed columns l) (hi : l.positions.lookup id = some i)
    (step : Step) (fetch : Bool) :
    ∃ l', l.merge i step.criteria = some l' ∧
      s.LaysOut (s.addHops placed step id fetch) columns l' ∧ l'.positions.lookup id = some i := by
  obtain ⟨hop, hget, hhop, halias⟩ := h.exists_hop hi
  have hany : placed.any (·.1 = some id) = true :=
    List.any_eq_true.2 ⟨_, List.mem_of_getElem? hget, by simp⟩
  rw [addHops, if_pos hany]
  cases step.criteria with
  | none => exact ⟨l, rfl, h, hi⟩
  | some criteria =>
    dsimp only
    refine ⟨{ l with hops := l.hops.set i (hop.restrict criteria) }, ?_, ⟨?_, h.columns, ?_, ?_⟩,
      hi⟩
    · rw [Layout.merge, hhop]
      rfl
    · rw [h.modifyHop_eq_set hi hget, List.map_set, ← h.hops]
    · rw [modifyHop_owners]
      exact h.positions
    · rw [h.modifyHop_eq_set hi hget]
      intro x hx
      rcases List.mem_or_eq_of_mem_set hx with hx | rfl
      · exact h.aliases x hx
      · intro id' hid
        obtain rfl := Option.some.inj hid
        exact halias

/-- The hops of a new placement, of which the last is the one that ends there. -/
structure Begins (s : Session) (step : Step) (id : PlacementId) (fetch : Bool) (l : Layout)
    (before : List PlacedHop) (last : Hop Criteria) : Prop where
  newHops : s.newHops step id fetch = before ++ [(some id, last)]
  unowned : ∀ x ∈ before, x.1 = none
  tableAlias : last.tableAlias = (s.placement (s.terminal id)).destinationAlias
  laid : l.lay s.drafted step id fetch = some (l.hops.length + before.length,
    { l with
      positions := (id, l.hops.length + before.length) :: l.positions
      hops := l.hops ++ before.map Prod.snd ++ [last] })

theorem Bounded.begins (hs : s.Bounded) (hid : id.index < s.placements.length) (step : Step)
    (fetch : Bool) (l : Layout) : ∃ before last, s.Begins step id fetch l before last := by
  have hdraft : s.drafted.draft? id = some (s.placement id).draft := draft?_spread hid
  let last := s.hopOf (s.terminal id) step.kind step.criteria fetch
  have laid {before : List PlacedHop} (hbefore : s.drafted.hopsBefore (s.placement id).draft
      step.kind = some (before.map Prod.snd)) :
      l.lay s.drafted step id fetch = some (l.hops.length + before.length,
        { l with
          positions := (id, l.hops.length + before.length) :: l.positions
          hops := l.hops ++ before.map Prod.snd ++ [last] }) := by
    have hlast : s.drafted.hop (s.placement id).draft.terminal step.kind step.criteria fetch =
        some last := hs.hop_drafted (hs.terminal_lt hid) step.kind step.criteria fetch
    have hposition : previous? (l.hops ++ before.map Prod.snd ++ [last]).length =
        some (l.hops.length + before.length) := by
      simp [previous?]
    simp only [Layout.lay, hdraft, hbefore, hlast, hposition, Option.bind_eq_bind, Option.bind_some]
  cases hhalves : (s.placement id).halves with
  | none =>
    refine ⟨[], last, ⟨?_, fun _ h => (nomatch h), rfl, laid ?_⟩⟩
    · rw [newHops, hhalves]
      rfl
    · rw [hopsBefore, show (s.placement id).draft.halves = none from hhalves]
      rfl
  | some halves =>
    obtain ⟨first, second⟩ := halves
    have hfirst := hs.hop_drafted (Nat.lt_trans ((hs.settled hid).halves _ hhalves).1 hid) step.kind
      none false
    refine ⟨[(none, s.hopOf first step.kind none false)], last, ⟨?_, ?_, rfl, laid ?_⟩⟩
    · rw [newHops, hhalves]
      rfl
    · simp
    · rw [hopsBefore, show (s.placement id).draft.halves = some (first, second) from hhalves]
      dsimp only
      rw [hfirst]
      rfl

/-- Behind owners that are not `id`, some unowned hops and then `id` make `id` stand last. -/
theorem getElem?_owners {owners before : List (Option PlacementId)} {id : PlacementId}
    (new : some id ∉ owners) (unowned : ∀ o ∈ before, o = none) (other : PlacementId) (i : ℕ) :
    (owners ++ before ++ [some id])[i]? = some (some other) ↔
      if other = id then owners.length + before.length = i
      else owners[i]? = some (some other) := by
  rw [List.append_assoc, List.getElem?_append]
  by_cases hi : i < owners.length
  · rw [if_pos hi]
    split
    · next heq =>
      subst heq
      exact iff_of_false (fun h => new (List.mem_of_getElem? h)) (by omega)
    · exact Iff.rfl
  · have hnone : owners[i]? = none := List.getElem?_eq_none (Nat.le_of_not_lt hi)
    rw [if_neg hi, List.getElem?_append, hnone]
    by_cases hb : i - owners.length < before.length
    · rw [if_pos hb, List.getElem?_eq_getElem hb, unowned _ (List.getElem_mem hb)]
      refine iff_of_false (by simp) ?_
      split
      · omega
      · simp
    · rw [if_neg hb, List.getElem?_singleton]
      by_cases heq : other = id
      · rw [if_pos heq, heq, ite_eq_left_iff]
        constructor
        · intro h
          by_contra hne
          cases h (by omega)
        · intro h hne
          omega
      · rw [if_neg heq]
        refine iff_of_false (fun h => ?_) (by simp)
        split at h
        · exact heq (Option.some.inj (Option.some.inj h)).symm
        · cases h

/-- The first step of a placement lays out its hops. -/
theorem LaysOut.lay (h : s.LaysOut placed columns l) (hs : s.Bounded)
    (hid : id.index < s.placements.length) (new : l.positions.lookup id = none) (step : Step)
    (fetch : Bool) :
    ∃ i l', l.lay s.drafted step id fetch = some (i, l') ∧
      s.LaysOut (s.addHops placed step id fetch) columns l' ∧ l'.positions.lookup id = some i := by
  obtain ⟨before, last, hbegins⟩ := hs.begins hid step fetch l
  have hnew : some id ∉ placed.map Prod.fst := by
    intro hmem
    obtain ⟨i, hi⟩ := List.getElem?_of_mem hmem
    have hlookup := (h.positions id i).2 hi
    rw [new] at hlookup
    cases hlookup
  have hadd : s.addHops placed step id fetch = placed ++ (before ++ [(some id, last)]) := by
    rw [← hbegins.newHops]
    exact visit_of_not_owned (v := ⟨id, step, fetch⟩) hnew
  have hlen : l.hops.length = (placed.map Prod.fst).length := by
    rw [h.hops, List.length_map, List.length_map]
  refine ⟨_, _, hbegins.laid, ⟨?_, h.columns, fun other i => ?_, ?_⟩, List.lookup_cons_self⟩
  · rw [hadd, h.hops]
    simp
  · -- The hops of the step are laid out last, so no other placement changes its position.
    rw [hadd, List.map_append, List.map_append, ← List.append_assoc]
    refine Iff.trans ?_ (getElem?_owners hnew ?_ other i).symm
    · rw [← hlen, List.length_map]
      by_cases heq : other = id
      · rw [if_pos heq, heq, List.lookup_cons_self, Option.some_inj]
      · rw [if_neg heq, List.lookup_cons, beq_eq_false_iff_ne.2 heq]
        exact h.positions other i
    · intro o ho
      obtain ⟨x, hx, rfl⟩ := List.mem_map.1 ho
      exact hbegins.unowned x hx
  · rw [hadd]
    intro x hx other hother
    rcases List.mem_append.1 hx with hx | hx
    · exact h.aliases x hx other hother
    rcases List.mem_append.1 hx with hx | hx
    · rw [hbegins.unowned x hx] at hother
      cases hother
    · obtain rfl := List.mem_singleton.1 hx
      obtain rfl := Option.some.inj hother
      exact hbegins.tableAlias

/-! ## Steps and joins -/

theorem LaysOut.selected (h : s.LaysOut placed columns l) (hi : l.positions.lookup id = some i)
    (step : Step) (fetch : Bool) :
    l.selected i step fetch = some (s.selectedColumns step id fetch) := by
  obtain ⟨hop, -, hhop, halias⟩ := h.exists_hop hi
  unfold Layout.selected selectedColumns
  cases step.columns with
  | some columns => rfl
  | none =>
    cases fetch with
    | false => rfl
    | true =>
      dsimp only
      rw [if_pos rfl, if_pos rfl, hhop, ← halias]
      rfl

theorem LaysOut.addStep (h : s.LaysOut placed columns l) (hs : s.Bounded) {step : Step}
    (known : ∀ id ∈ step.placement, id.index < s.placements.length) (fetch : Bool) :
    ∃ l', Layout.addStep s.drafted fetch l step = some l' ∧
      s.LaysOut (s.addStep fetch (placed, columns) step).1
        (s.addStep fetch (placed, columns) step).2 l' := by
  unfold Layout.addStep Session.addStep
  cases hplacement : step.placement with
  | none => exact ⟨l, rfl, h⟩
  | some id =>
    have finish {i : ℕ} {l' : Layout}
        (hmerged : s.LaysOut (s.addHops placed step id fetch) columns l')
        (hi : l'.positions.lookup id = some i) :
        ∃ l'', (do
          let selected ← l'.selected i step fetch
          some { l' with columns := addColumns l'.columns selected }) = some l'' ∧
          s.LaysOut (s.addHops placed step id fetch)
            (addColumns columns (s.selectedColumns step id fetch)) l'' := by
      rw [hmerged.selected hi, hmerged.columns]
      exact ⟨_, rfl, hmerged.hops, rfl, hmerged.positions, hmerged.aliases⟩
    cases hlookup : l.positions.lookup id with
    | some i =>
      obtain ⟨l', hl', hmerged, hi⟩ := h.merge hlookup step fetch
      simp only [hlookup, hl', Option.map_some, Option.bind_eq_bind, Option.bind_some]
      exact finish hmerged hi
    | none =>
      obtain ⟨i, l', hl', hmerged, hi⟩ :=
        h.lay hs (known id hplacement) hlookup step fetch
      simp only [hlookup, hl', Option.bind_eq_bind, Option.bind_some]
      exact finish hmerged hi

theorem LaysOut.addPath (h : s.LaysOut placed columns l) (hs : s.Bounded) {path : List Step}
    (known : ∀ step ∈ path, ∀ id ∈ step.placement, id.index < s.placements.length)
    (fetch : Bool) :
    ∃ l', path.foldlM (Layout.addStep s.drafted fetch) l = some l' ∧
      s.LaysOut (path.foldl (s.addStep fetch) (placed, columns)).1
        (path.foldl (s.addStep fetch) (placed, columns)).2 l' := by
  induction path generalizing placed columns l with
  | nil => exact ⟨l, rfl, h⟩
  | cons step path ih =>
    obtain ⟨hstep, hpath⟩ := List.forall_mem_cons.1 known
    obtain ⟨l', hl', hstepped⟩ := h.addStep hs hstep fetch
    rw [List.foldlM_cons, hl', List.foldl_cons]
    exact ih hstepped hpath

theorem LaysOut.addJoins (h : s.LaysOut placed columns l) (hs : s.Bounded) {joins : List Join}
    (known : ∀ join ∈ joins, ∀ step ∈ join.path, ∀ id ∈ step.placement,
      id.index < s.placements.length) :
    ∃ l', joins.foldlM (fun l join => join.path.foldlM (Layout.addStep s.drafted join.fetch) l) l =
        some l' ∧
      s.LaysOut
        (joins.foldl (fun acc join => join.path.foldl (s.addStep join.fetch) acc)
          (placed, columns)).1
        (joins.foldl (fun acc join => join.path.foldl (s.addStep join.fetch) acc)
          (placed, columns)).2
        l' := by
  induction joins generalizing placed columns l with
  | nil => exact ⟨l, rfl, h⟩
  | cons join joins ih =>
    obtain ⟨hjoin, hjoins⟩ := List.forall_mem_cons.1 known
    obtain ⟨l', hl', hadded⟩ := h.addPath hs hjoin join.fetch
    rw [List.foldlM_cons, hl', List.foldl_cons]
    exact ih hadded hjoins

/-- What a bounded session recorded has its placements there. -/
theorem Bounded.recorded_lt (hs : s.Bounded) {join : Join} (hjoin : join ∈ s.joins) {step : Step}
    (hstep : step ∈ join.path) :
    ∃ id, step.placement = some id ∧ id.index < s.placements.length := by
  obtain ⟨id, _, _, hid, hstands⟩ := hs.routed.joined_standing hjoin hstep
  exact ⟨id, hid, hstands.index_lt⟩

/-- All joins are laid out, with the hops and the columns of the session. -/
theorem Bounded.layout_drafted (hs : s.Bounded) :
    ∃ l, s.drafted.layout = some l ∧ s.LaysOut s.placedHops.1 s.joinedColumns l := by
  have start : s.LaysOut [] [] ⟨[], [], []⟩ := ⟨rfl, rfl, by simp, by simp⟩
  refine start.addJoins hs fun join hjoin step hstep id hid => ?_
  obtain ⟨id', hid', hlt⟩ := hs.recorded_lt hjoin hstep
  obtain rfl := Option.some.inj (hid.symm.trans hid')
  exact hlt

end Session

end JoinPath
