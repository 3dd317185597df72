import JoinPath.Drafted.Run
import JoinPath.Proofs.Drafted.Compose
import JoinPath.Proofs.Drafted.Hops
/-!
# Nothing is out of range

The calls of a session by position have a result whenever they are in range, and it is that of the
session (`Bounded.perform_drafted`). So no call of a session on a table of a declared schema reaches
outside a list, meets a draft without an alias or copies halves without end
(`nothing_out_of_range`), whatever was called before it.
-/

namespace JoinPath.Session

variable {s : Session}

/-! ## Calls -/

theorem setAlias_spread (s : Session) (joins : List Join) (arena : List Draft) (a : String) :
    (s.spread joins arena).session.setAlias a = ((s.setAlias a).spread joins arena).session := by
  unfold setAlias
  split <;> rfl

theorem setFilter_spread (s : Session) (joins : List Join) (arena : List Draft)
    (restrictions : List Criteria) : (s.spread joins arena).session.setFilter restrictions =
      ((s.setFilter restrictions).spread joins arena).session := by
  unfold setFilter
  dsimp only [spread]
  split <;> rfl

theorem ensureFilter_spread (s : Session) (joins : List Join) (arena : List Draft) :
    (s.spread joins arena).session.ensureFilter = (s.ensureFilter.spread joins arena).session := by
  have hset : (s.spread joins arena).session.filterSet = s.filterSet := rfl
  rw [ensureFilter, ensureFilter, hset]
  cases s.filterSet with
  | true => rfl
  | false => exact s.setFilter_spread joins arena []

/-- A call that leaves joins and placements alone, on the drafts of a session. -/
theorem drafted_eq {s t : Session} (hjoins : t.joins = s.joins)
    (hplacements : t.placements = s.placements) : t.drafted = t.spread s.joins s.drafts := by
  rw [drafted, drafts, drafts, hjoins, hplacements]

theorem drafted_setAlias (s : Session) (a : String) :
    ({ s.drafted with session := s.drafted.session.setAlias a } : Drafted) =
      (s.setAlias a).drafted := by
  have hjoins : (s.setAlias a).joins = s.joins := by unfold setAlias; split <;> rfl
  have hplacements : (s.setAlias a).placements = s.placements := by unfold setAlias; split <;> rfl
  rw [drafted_eq hjoins hplacements, drafted, setAlias_spread]
  rfl

theorem drafted_setFilter (s : Session) (restrictions : List Criteria) :
    ({ s.drafted with session := s.drafted.session.setFilter restrictions } : Drafted) =
      (s.setFilter restrictions).drafted := by
  obtain ⟨_, _, h⟩ := s.setFilter_frame restrictions
  have hjoins : (s.setFilter restrictions).joins = s.joins := by rw [h]
  have hplacements : (s.setFilter restrictions).placements = s.placements := by rw [h]
  rw [drafted_eq hjoins hplacements, drafted, setFilter_spread]
  rfl

theorem drafted_ensureFilter (s : Session) :
    ({ s.drafted with session := s.drafted.session.ensureFilter } : Drafted) =
      s.ensureFilter.drafted := by
  obtain ⟨_, _, h⟩ := s.ensureFilter_frame
  have hjoins : s.ensureFilter.joins = s.joins := by rw [h]
  have hplacements : s.ensureFilter.placements = s.placements := by rw [h]
  rw [drafted_eq hjoins hplacements, drafted, ensureFilter_spread]
  rfl

theorem Bounded.select_drafted (hs : s.Bounded) (columns : List String) :
    s.drafted.select columns = some ((s.select columns).1, (s.select columns).2.drafted) := by
  have hselect : (Call.select columns).InRange s := trivial
  have hf : s.ensureFilter.Bounded := hs.perform hselect
  obtain ⟨l, hl, hlaid⟩ := hf.layout_drafted
  have htable : s.ensureFilter.drafted.table? s.ensureFilter.table =
      some (s.ensureFilter.schema.table s.ensureFilter.table) := table?_spread hf.table
  rw [Drafted.select, drafted_ensureFilter]
  rw [hl, Option.bind_eq_bind, Option.bind_some]
  refine (congrArg (Option.bind · _) htable).trans ?_
  rw [Option.bind_some, hlaid.hops, hlaid.columns]
  rfl

theorem Bounded.build_drafted (hs : s.Bounded) (columns : List String) (d : Dialect) :
    s.drafted.build columns d =
      some ((s.build columns d).1, (s.build columns d).2.drafted) := by
  rw [Drafted.build, hs.select_drafted, Option.bind_eq_bind, Option.bind_some, build]
  rcases s.select columns with ⟨select, t⟩
  have hassemble : t.drafted.session.assemble select d = t.assemble select d := rfl
  simp only [hassemble]
  cases t.assemble select d with
  | error e => rfl
  | ok statement => rfl

theorem Bounded.perform_drafted (hs : s.Bounded) {call : Call} (there : call.InRange s)
    (depth : ℕ) : Drafted.perform (depth + 2) s.drafted call = some (s.perform call).drafted := by
  cases call with
  | setAlias a => exact congrArg some (s.drafted_setAlias a)
  | subquery table =>
    have hnew : Drafted.new? s.schema table = some ⟨new s.schema table, []⟩ := by
      rw [Drafted.new?, Schema.getElem?_table there]
      rfl
    exact congrArg (Option.bind · _) hnew
  | joinPending fetch =>
    have hs' : { s with pending := [] }.Bounded :=
      ⟨hs.schema, hs.table, fun _ h => (nomatch h), hs.placements,
        hs.routed.matched, hs.routed.standing, hs.routed.recorded⟩
    exact hs'.joinTo_drafted hs.pending depth fetch
  | joinTo path fetch => exact hs.joinTo_drafted there depth fetch
  | addJoin path fetch =>
    exact congrArg (Option.map Prod.snd) (hs.addJoin_drafted there depth fetch)
  | additions path =>
    have hslots := slots_spread s.joins hs.schema there.1 there.2
    obtain ⟨_, h⟩ := s.additions_frame path
    have hjoins : (s.additions path).2.joins = s.joins := by rw [h]
    have hplacements : (s.additions path).2.placements = s.placements := by rw [h]
    rw [← drafted_eq hjoins hplacements] at hslots
    exact congrArg (Option.map Prod.snd) hslots
  | setFilter restrictions => exact congrArg some (s.drafted_setFilter restrictions)
  | select columns => exact congrArg (Option.map Prod.snd) (hs.select_drafted columns)
  | build columns d => exact congrArg (Option.map Prod.snd) (hs.build_drafted columns d)
  | _ => rfl

theorem Bounded.run_drafted (hs : s.Bounded) {calls : List Call} (there : s.AllInRange calls)
    (depth : ℕ) : s.drafted.run (depth + 2) calls = some (s.run calls).drafted := by
  induction calls generalizing s with
  | nil => rfl
  | cons call calls ih =>
    rw [Drafted.run, List.foldlM_cons, hs.perform_drafted there.1]
    exact ih (hs.perform there.1) there.2

/-! ## Runs -/

/-- On a table of a declared schema, whatever is called and however often a build fails, the calls
come to an end two levels deep, look up nothing that is not there and leave drafts with aliases
alone. What the session recorded, remembered or halved is among its placements, and each of its hops
was made from a draft. -/
theorem nothing_out_of_range (declarations : List Declaration) (table : TableId)
    (there : (Schema.declared declarations).HasTable table) (calls : List Call)
    (inRange : (new (.declared declarations) table).AllInRange calls) (depth : ℕ)
    (deep : 2 ≤ depth) :
    let s := (new (.declared declarations) table).run calls
    (Drafted.new? (.declared declarations) table).bind (·.run depth calls) = some s.drafted ∧
      (∀ d ∈ s.drafted.arena, d.originAlias.isSome ∧ d.destinationAlias.isSome) ∧
      (∀ join ∈ s.joins, ∀ step ∈ join.path,
        ∃ id, step.placement = some id ∧ id.index < s.drafted.arena.length) ∧
      (∀ path ∈ s.traversed, ∀ step ∈ path,
        ∃ id, step.placement = some id ∧ id.index < s.drafted.arena.length) ∧
      (∀ d ∈ s.drafted.arena, ∀ halves ∈ d.halves,
        halves.1.index < s.drafted.arena.length ∧ halves.2.index < s.drafted.arena.length) ∧
      (∃ l, s.drafted.layout = some l ∧ l.hops = s.hops ∧ l.columns = s.joinedColumns) ∧
      ∀ columns d, s.drafted.build columns d =
        some ((s.build columns d).1, (s.build columns d).2.drafted) := by
  intro s
  obtain ⟨depth, rfl⟩ := Nat.exists_eq_add_of_le' deep
  have hnew := bounded_new (Schema.wellFormed_declared declarations) there
  have hs : s.Bounded := hnew.run inRange
  have hlen : s.drafted.arena.length = s.placements.length := s.length_drafts
  rw [hlen]
  refine ⟨?_, ?_, fun join hjoin step hstep => hs.recorded_lt hjoin hstep,
    fun path hpath step hstep => hs.standing_lt hpath hstep, ?_, ?_,
    fun columns d => hs.build_drafted columns d⟩
  · rw [Drafted.new?, Schema.getElem?_table there]
    exact hnew.run_drafted inRange depth
  · intro d hd
    obtain ⟨p, -, rfl⟩ := List.mem_map.1 hd
    exact ⟨rfl, rfl⟩
  · intro d hd halves hhalves
    obtain ⟨p, hp, rfl⟩ := List.mem_map.1 hd
    obtain ⟨i, hi⟩ := List.getElem?_of_mem hp
    have hlt := (List.getElem?_eq_some_iff.1 hi).1
    obtain ⟨hfirst, hsecond⟩ := (hs.placements i p hi).halves halves hhalves
    exact ⟨Nat.lt_trans hfirst hlt, Nat.lt_trans hsecond hlt⟩
  · obtain ⟨l, hl, hlaid⟩ := hs.layout_drafted
    exact ⟨l, hl, hlaid.hops, hlaid.columns⟩

/-- Calls that go back and forth: the alias changes between the joins, one path does not chain,
one is empty, and the last build lacks a value. -/
def wander : List Call := [
  .addJoin [{ association := ⟨2⟩, kind := .inner }] false,
  .setAlias "w",
  .additions [{ association := ⟨3⟩, kind := .left, placement := some ⟨2⟩ }],
  .joinTo [{ association := ⟨3⟩, kind := .left }, { association := ⟨2⟩, kind := .inner }] true,
  .joinTo [] false,
  .setFilter [.eq (.col "id") (.param "wanted")],
  .build ["id"] .default]

theorem nothing_out_of_range_wander :
    (Schema.declared library).HasTable ⟨0⟩ ∧ (new (.declared library) ⟨0⟩).AllInRange wander ∧
      (Drafted.new? (.declared library) ⟨0⟩).bind (·.run 2 wander) =
        some ((new (.declared library) ⟨0⟩).run wander).drafted := by
  have there : (Schema.declared library).HasTable ⟨0⟩ := by decide
  have inRange : (new (.declared library) ⟨0⟩).AllInRange wander := by decide
  exact ⟨there, inRange, (nothing_out_of_range library ⟨0⟩ there wander inRange 2 (by decide)).1⟩

end JoinPath.Session
