import JoinPath.Proofs.Session.Arranged
import JoinPath.Session.Family
/-!
# Aliases of a family

A session for a subquery takes its alias from the session that makes it, with a letter of its own
and the next number. So each alias that a family makes says which session made it, and under which
number (`numberedName_inj`), and the bases and joined tables of all its sessions differ in their
aliases as long as the callers choose other ones (`Arranged.nodup_aliases`).
-/

namespace JoinPath

open Text (numberedName numberedName_inj append_letter Under)

namespace Session

variable {s inner : Session} {call : Call}

/-! ## Sessions for subqueries -/

/-- Only a session for a subquery uses up a number. -/
theorem subqueries_perform (s : Session) (leaves : call.leavesNames = true) :
    (s.perform call).subqueries = s.subqueries + (s.spawned call).toList.length := by
  cases call with
  | setAlias a => cases leaves
  | addJoin path fetch => cases leaves
  | additions path => cases leaves
  | joinPending fetch =>
    obtain ⟨_, _, _, _, _, _, _, _, _, hframe⟩ :=
      joinTo_frame { s with pending := [] } s.pending fetch
    rw [perform, joinPending, hframe]
    rfl
  | joinTo path fetch =>
    obtain ⟨_, _, _, _, _, _, _, _, _, hframe⟩ := s.joinTo_frame path fetch
    rw [perform, hframe]
    rfl
  | setFilter restrictions =>
    obtain ⟨_, _, hf⟩ := s.setFilter_frame restrictions
    rw [perform, hf]
    rfl
  | select columns =>
    obtain ⟨_, _, hf⟩ := s.ensureFilter_frame
    rw [perform, select, hf]
    rfl
  | build columns d =>
    obtain ⟨log, hb⟩ := s.build_frame columns d
    obtain ⟨_, _, hf⟩ := s.ensureFilter_frame
    rw [perform, hb, hf]
    rfl
  | _ => rfl

theorem spawned_eq (h : s.spawned call = some inner) :
    ∃ table, inner =
      (new s.schema table).setAlias (numberedName s.tableAlias 's' (s.subqueries + 1)) := by
  cases call with
  | subquery table =>
    obtain rfl := Option.some.inj h
    exact ⟨table, by rw [← append_letter]; rfl⟩
  | _ => cases h

theorem tableAlias_spawned (h : s.spawned call = some inner) :
    inner.tableAlias = numberedName s.tableAlias 's' (s.subqueries + 1) := by
  obtain ⟨table, rfl⟩ := spawned_eq h
  have hne : numberedName s.tableAlias 's' (s.subqueries + 1) ≠ "" := by
    simp [numberedName]
  rw [setAlias, if_neg hne]

end Session

namespace Family

open Session (Call numberedAliases tableAlias_spawned)

variable {f : Family} {m : Move} {root : String} {preferred : List String} {s t inner : Session}
  {call : Call} {members pre post : List Session}

/-! ## Base tables -/

/-- The sessions have different aliases: `root`, and numbered ones below it. -/
structure Descended (root : String) (members : List Session) : Prop where
  distinct : (members.map Session.tableAlias).Nodup
  made : ∀ s ∈ members, s.tableAlias = root ∨
    ∃ p ∈ members, ∃ n ≤ p.subqueries, s.tableAlias = numberedName p.tableAlias 's' n
  under : ∀ s ∈ members, s.tableAlias = root ∨ Under root s.tableAlias

theorem Descended.eq_of_alias (h : Descended root members) (hs : s ∈ members) (ht : t ∈ members)
    (halias : s.tableAlias = t.tableAlias) : s = t :=
  List.inj_on_of_nodup_map h.distinct hs ht halias

theorem Descended.under_numberedName (h : Descended root members) (hs : s ∈ members) (kind : Char)
    (n : ℕ) : Under root (numberedName s.tableAlias kind n) := by
  rcases h.under s hs with heq | hunder
  · rw [heq]
    exact Text.under_numberedName root kind n
  · exact hunder.numberedName kind n

/-- No session has the next alias for a subquery. -/
theorem Descended.fresh (h : Descended root members) (hs : s ∈ members) :
    numberedName s.tableAlias 's' (s.subqueries + 1) ∉ members.map Session.tableAlias := by
  intro hmem
  obtain ⟨t, ht, heq⟩ := List.mem_map.1 hmem
  rcases h.made t ht with hroot | ⟨p, hp, n, hle, hname⟩
  · have hunder := h.under_numberedName hs 's' (s.subqueries + 1)
    rw [← heq, hroot] at hunder
    exact Text.not_under_self root hunder
  · obtain ⟨halias, -, rfl⟩ := numberedName_inj (by decide) (by decide) (heq.symm.trans hname)
    obtain rfl := h.eq_of_alias hs hp halias
    exact absurd hle (Nat.not_succ_le_self _)

/-- A session may change as long as it keeps its alias and gives no number back. -/
theorem Descended.replace (h : Descended root (pre ++ s :: post))
    (halias : t.tableAlias = s.tableAlias) (hle : s.subqueries ≤ t.subqueries) :
    Descended root (pre ++ t :: post) := by
  have hmap : (pre ++ t :: post).map Session.tableAlias =
      (pre ++ s :: post).map Session.tableAlias := by
    simp only [List.map_append, List.map_cons, halias]
  -- Each session has a counterpart with its alias, and the other way around.
  have hold : ∀ u ∈ pre ++ t :: post, ∃ v ∈ pre ++ s :: post, u.tableAlias = v.tableAlias := by
    intro u hu
    obtain ⟨v, hv, heq⟩ := List.mem_map.1 (hmap ▸ List.mem_map_of_mem hu)
    exact ⟨v, hv, heq.symm⟩
  have hnew : ∀ p ∈ pre ++ s :: post, ∃ q ∈ pre ++ t :: post,
      q.tableAlias = p.tableAlias ∧ p.subqueries ≤ q.subqueries := by
    intro p hp
    rcases List.mem_append.1 hp with hp | hp
    · exact ⟨p, List.mem_append_left _ hp, rfl, Nat.le_refl _⟩
    · rcases List.mem_cons.1 hp with rfl | hp
      · exact ⟨t, List.mem_append_right _ List.mem_cons_self, halias, hle⟩
      · exact ⟨p, List.mem_append_right _ (List.mem_cons_of_mem _ hp), rfl, Nat.le_refl _⟩
  refine ⟨hmap ▸ h.distinct, fun u hu => ?_, fun u hu => ?_⟩
  · obtain ⟨v, hv, heq⟩ := hold u hu
    rw [heq]
    refine (h.made v hv).imp_right fun ⟨p, hp, n, hn, hname⟩ => ?_
    obtain ⟨q, hq, hqp, hpq⟩ := hnew p hp
    exact ⟨q, hq, n, Nat.le_trans hn hpq, hqp ▸ hname⟩
  · obtain ⟨v, hv, heq⟩ := hold u hu
    rw [heq]
    exact h.under v hv

theorem Descended.concat (h : Descended root members) (ht : t ∈ members) {n : ℕ}
    (hle : n ≤ t.subqueries) (halias : inner.tableAlias = numberedName t.tableAlias 's' n)
    (fresh : inner.tableAlias ∉ members.map Session.tableAlias) :
    Descended root (members ++ [inner]) := by
  refine ⟨?_, fun u hu => ?_, fun u hu => ?_⟩
  · rw [List.map_append]
    refine List.Nodup.append h.distinct (List.nodup_singleton _) fun a ha hinner => ?_
    exact fresh (List.mem_singleton.1 hinner ▸ ha)
  · rcases List.mem_append.1 hu with hu | hu
    · exact (h.made u hu).imp_right fun ⟨p, hp, hmade⟩ => ⟨p, List.mem_append_left _ hp, hmade⟩
    · obtain rfl := List.mem_singleton.1 hu
      exact .inr ⟨t, List.mem_append_left _ ht, n, hle, halias⟩
  · rcases List.mem_append.1 hu with hu | hu
    · exact h.under u hu
    · obtain rfl := List.mem_singleton.1 hu
      rw [halias]
      exact .inr (h.under_numberedName ht 's' n)

/-- A call that leaves the naming to the session keeps all aliases different. -/
theorem Descended.perform (h : Descended root (pre ++ s :: post))
    (leaves : call.leavesNames = true) :
    Descended root (pre ++ s.perform call :: post ++ (s.spawned call).toList) := by
  have hs : s ∈ pre ++ s :: post := List.mem_append_right _ List.mem_cons_self
  have halias := (s.sameBase_perform (Call.keepsScope_of_leavesNames leaves)).tableAlias
  have hcount := s.subqueries_perform leaves
  have hreplaced := h.replace (t := s.perform call) halias (by omega)
  cases hspawned : s.spawned call with
  | none =>
    rw [Option.toList_none, List.append_nil]
    exact hreplaced
  | some inner =>
    rw [hspawned] at hcount
    have hname := tableAlias_spawned hspawned
    refine hreplaced.concat (List.mem_append_right _ List.mem_cons_self) (Nat.le_of_eq hcount.symm)
      (by rw [halias]; exact hname) ?_
    have hfresh := h.fresh hs
    rw [← hname] at hfresh
    simpa only [List.map_append, List.map_cons, halias] using hfresh

/-! ## Moves -/

/-- A move changes one session and appends what that session makes. -/
theorem perform_cases (f : Family) (m : Move) :
    (f.members[m.member]? = none ∧ f.perform m = f) ∨
    ∃ s pre post, f.members[m.member]? = some s ∧ f.members = pre ++ s :: post ∧
      f.perform m = {
        members := pre ++ s.perform m.call :: post ++ (s.spawned m.call).toList
        issued := f.issued ++ (s.selected m.call).toList } := by
  unfold perform
  cases h : f.members[m.member]? with
  | none => exact .inl ⟨rfl, rfl⟩
  | some s =>
    obtain ⟨pre, post, hsplit, hset⟩ := exists_split_of_getElem? h
    exact .inr ⟨s, pre, post, rfl, hsplit, by simp only [hset]⟩

/-- What a move does to the family of the session that it is about. -/
structure Moved (f : Family) (m : Move) (s : Session) : Prop where
  /-- A session of the family was there before, or comes from the one that moved. -/
  old : ∀ t ∈ (f.perform m).members,
    t ∈ f.members ∨ t = s.perform m.call ∨ s.spawned m.call = some t
  /-- Every session but the one that moved stays as it is. -/
  kept : ∀ t ∈ f.members, t ∈ (f.perform m).members ∨ t = s
  moved : s.perform m.call ∈ (f.perform m).members
  issued : (f.perform m).issued = f.issued ++ (s.selected m.call).toList

theorem moved_of_getElem? (h : f.members[m.member]? = some s) : f.Moved m s := by
  obtain ⟨hnone, -⟩ | ⟨s', pre, post, hs, hsplit, heq⟩ := f.perform_cases m
  · rw [h] at hnone
    cases hnone
  · obtain rfl := Option.some.inj (h.symm.trans hs)
    have hmembers := congrArg Family.members heq
    have hissued := congrArg Family.issued heq
    dsimp only at hmembers hissued
    constructor
    · intro t ht
      rw [hmembers] at ht
      simp only [hsplit, List.mem_append, List.mem_cons, Option.mem_toList] at ht ⊢
      tauto
    · intro t ht
      rw [hmembers]
      simp only [hsplit, List.mem_append, List.mem_cons] at ht ⊢
      tauto
    · rw [hmembers]
      simp
    · exact hissued

/-- What a call means for the session that a move is about. -/
def atMove {α : Type} (f : Family) (g : Session → Call → List α) (m : Move) : List α :=
  f.members[m.member]?.elim [] fun s => g s m.call

/-- The aliases that the callers want along a run. -/
def preferredIn (f : Family) (moves : List Move) : List String :=
  along perform (fun f m => f.atMove Session.preferredOf m) f moves

/-! ## Joined tables -/

/-- The aliases of a family are `root`, the `preferred` ones, and the numbered ones. -/
structure Arranged (root : String) (preferred : List String) (f : Family) : Prop where
  descended : Descended root f.members
  arranged : ∀ s ∈ f.members, ∃ preferred, s.Arranged preferred
  aliases : (f.members.flatMap Session.joinedAliases).Perm
    (preferred ++ f.members.flatMap numberedAliases)

theorem arranged_new (schema : Schema) (table : TableId) {tableAlias : String}
    (nonempty : tableAlias ≠ "") : (new schema table tableAlias).Arranged tableAlias [] := by
  have h := Session.arranged_setAlias_new schema table tableAlias
  have halias : ((Session.new schema table).setAlias tableAlias).tableAlias = tableAlias := by
    rw [Session.setAlias, if_neg nonempty]
  refine ⟨⟨List.nodup_singleton _, fun s hs => ?_, fun s hs => ?_⟩, fun s hs => ?_, ?_⟩
  · exact .inl (List.mem_singleton.1 hs ▸ halias)
  · exact .inl (List.mem_singleton.1 hs ▸ halias)
  · exact ⟨[], List.mem_singleton.1 hs ▸ h⟩
  · simp only [new, List.flatMap_singleton]
    exact h.numbered.aliases

theorem Arranged.perform (h : f.Arranged root preferred) (leaves : m.call.leavesNames = true) :
    (f.perform m).Arranged root (preferred ++ f.atMove Session.preferredOf m) := by
  obtain ⟨hnone, heq⟩ | ⟨s, pre, post, hs, hsplit, heq⟩ := f.perform_cases m
  · rw [heq, atMove, hnone, Option.elim_none, List.append_nil]
    exact h
  · obtain ⟨hdescended, harranged, haliases⟩ := h
    rw [heq, atMove, hs, Option.elim_some]
    rw [hsplit] at hdescended harranged haliases
    obtain ⟨own, hown⟩ := harranged s (List.mem_append_right _ List.mem_cons_self)
    have hnext := hown.perform (Session.Call.keepsPools_of_leavesNames leaves)
    have hinner : ∀ inner ∈ (s.spawned m.call).toList, inner.Arranged [] := by
      intro inner hinner
      obtain ⟨table, rfl⟩ := Session.spawned_eq (Option.mem_toList.1 hinner)
      exact Session.arranged_setAlias_new _ _ _
    refine ⟨hdescended.perform leaves, fun u hu => ?_, ?_⟩
    · simp only [List.mem_append, List.mem_cons] at hu harranged
      obtain (hpre | rfl | hpost) | hspawned := hu
      · exact harranged u (.inl hpre)
      · exact ⟨_, hnext⟩
      · exact harranged u (.inr (.inr hpost))
      · exact ⟨[], hinner u hspawned⟩
    · -- The session that moved is the only one to have other aliases than before.
      have hspawned : ((s.spawned m.call).toList.flatMap Session.joinedAliases).Perm
          ((s.spawned m.call).toList.flatMap numberedAliases) :=
        .flatMap_left _ fun inner hmem => (hinner inner hmem).numbered.aliases
      have hbefore := hown.numbered.aliases
      have hafter := hnext.numbered.aliases
      rw [List.perm_iff_count] at haliases hspawned hbefore hafter ⊢
      intro a
      have ha := haliases a
      have hspawned := hspawned a
      have hbefore := hbefore a
      have hafter := hafter a
      simp only [List.flatMap_append, List.flatMap_cons, List.count_append,
        numberedAliases] at ha hspawned hbefore hafter ⊢
      omega

theorem Arranged.run (h : f.Arranged root preferred) {moves : List Move}
    (leaves : ∀ m ∈ moves, m.call.leavesNames = true) :
    (f.run moves).Arranged root (preferred ++ f.preferredIn moves) :=
  along_induction_from (P := fun preferred (f : Family) => f.Arranged root preferred)
    (fun m hm _ _ hf => hf.perform (leaves m hm)) h

theorem Arranged.kind_of_mem (h : f.Arranged root preferred) {a : String}
    (ha : a ∈ f.members.flatMap numberedAliases) : ∃ s ∈ f.members, ∃ kind n,
      (kind.isDigit = false ∧ kind ≠ 's') ∧ a = numberedName s.tableAlias kind n := by
  obtain ⟨s, hs, ha⟩ := List.mem_flatMap.1 ha
  obtain ⟨_, harranged⟩ := h.arranged s hs
  exact ⟨s, hs, harranged.numbered.kind_of_mem ha⟩

/-- No alias is numbered twice. -/
theorem Arranged.nodup_numberedAliases (h : f.Arranged root preferred) :
    (f.members.flatMap numberedAliases).Nodup := by
  refine List.nodup_flatMap.2 ⟨fun s hs => ?_, ?_⟩
  · obtain ⟨_, harranged⟩ := h.arranged s hs
    exact harranged.numbered.nodup
  · refine (List.pairwise_map.1 h.descended.distinct).imp_of_mem fun {s t} hs ht hne a has hat => ?_
    obtain ⟨_, hs⟩ := h.arranged s hs
    obtain ⟨_, ht⟩ := h.arranged t ht
    obtain ⟨k, m, hk, rfl⟩ := hs.numbered.kind_of_mem has
    obtain ⟨l, n, hl, heq⟩ := ht.numbered.kind_of_mem hat
    exact hne (numberedName_inj hk.1 hl.1 heq).1

/-- Where the preferred aliases are different ones that do not begin as those below the root do, no
two tables of a family have the same alias. -/
theorem Arranged.nodup_aliases (h : f.Arranged root preferred) (nodup : preferred.Nodup)
    (free : ∀ a ∈ preferred, a ≠ root ∧ ¬ Under root a) :
    (f.members.flatMap fun s => s.tableAlias :: s.hops.map Hop.tableAlias).Nodup := by
  have hhops : f.members.flatMap (fun s => s.hops.map Hop.tableAlias) =
      f.members.flatMap Session.joinedAliases := by
    refine List.flatMap_congr fun s hs => ?_
    obtain ⟨_, harranged⟩ := h.arranged s hs
    exact harranged.ordered.hops_eq
  have hunder : ∀ a ∈ f.members.flatMap numberedAliases, Under root a := by
    intro a ha
    obtain ⟨s, hs, kind, n, -, rfl⟩ := h.kind_of_mem ha
    exact h.descended.under_numberedName hs kind n
  refine (List.map_append_flatMap_perm _ _ _).nodup_iff.1 ?_
  rw [hhops]
  refine (h.aliases.append_left _).nodup_iff.2 ?_
  refine .append h.descended.distinct (.append nodup h.nodup_numberedAliases ?_) ?_
  · exact fun a hpreferred hnumbered => (free a hpreferred).2 (hunder a hnumbered)
  · intro a hbase hjoined
    obtain ⟨s, hs, rfl⟩ := List.mem_map.1 hbase
    rcases List.mem_append.1 hjoined with hpreferred | hnumbered
    · obtain ⟨hne, hfree⟩ := free _ hpreferred
      exact (h.descended.under s hs).elim hne hfree
    · rcases h.descended.made s hs with heq | ⟨p, -, n, -, heq⟩
      · exact Text.not_under_self root (heq ▸ hunder _ hnumbered)
      · -- A base and a joined table differ in the letter of their aliases.
        obtain ⟨q, -, kind, k, ⟨hletter, hkind⟩, hname⟩ := h.kind_of_mem hnumbered
        exact hkind (numberedName_inj (by decide) hletter (heq.symm.trans hname)).2.1.symm

end Family

end JoinPath
