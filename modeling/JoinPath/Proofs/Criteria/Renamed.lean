import JoinPath.Proofs.Bindings.Composition
import JoinPath.Session.Hops
import JoinPath.Sql.Render
/-!
# Renamed parameters

A condition whose parameters have other names, those inside its subqueries too. Where no two names
fall together, renaming keeps which conditions are equal (`beq_renamed`), so conditions merge in the
same way, and the text differs in the names of its slots alone (`fragments_renamed`). Naming the
literals of a condition from another number on is a renaming (`bindLiterals_renamed`).
-/

namespace JoinPath

open Bindings (literalName numbersUsed)

def Fragment.renamed (ρ : String → String) : Fragment → Fragment
  | text s => text s
  | slot name => slot (ρ name)

namespace Fragment

variable {ρ : String → String}

theorem names_renamed (fragments : List Fragment) :
    names (fragments.map (renamed ρ)) = (names fragments).map ρ := by
  induction fragments with
  | nil => rfl
  | cons x rest ih => cases x <;> simp only [List.map_cons, renamed, names, ih]

/-- Where placeholders go by their positions, the text does not depend on the names. -/
theorem render_renamed {d : Dialect} (positional : d ≠ .named) (fragments : List Fragment) :
    render d (fragments.map (renamed ρ)) = render d fragments := by
  have mark (name : String) (k : ℕ) : d.placeholder (ρ name) k = d.placeholder name k := by
    cases d with
    | named => exact absurd rfl positional
    | _ => rfl
  unfold render
  generalize 0 = filled
  induction fragments generalizing filled with
  | nil => rfl
  | cons x rest ih => cases x <;> simp only [List.map_cons, renamed, renderFrom, mark, ih]

end Fragment

namespace Criteria

mutual

/-- The condition with each parameter under its new name. The values that a subquery brings along
keep the names under which it brings them. -/
def renamed (ρ : String → String) : Criteria → Criteria
  | comparison op operands => comparison op (renamedAll ρ operands)
  | group op members => group op (renamedAll ρ members)
  | literal value => literal value
  | param name => param (ρ name)
  | subquery select => subquery (renamedSelect ρ select)
  | column ref => column ref

def renamedAll (ρ : String → String) : List Criteria → List Criteria
  | [] => []
  | c :: cs => renamed ρ c :: renamedAll ρ cs

def renamedOption (ρ : String → String) : Option Criteria → Option Criteria
  | none => none
  | some c => some (renamed ρ c)

def renamedSelect (ρ : String → String) : Select Criteria → Select Criteria
  | ⟨columns, table, tableAlias, joins, filter, parameters⟩ =>
    ⟨columns, table, tableAlias, renamedHops ρ joins, renamedOption ρ filter, parameters⟩

def renamedHops (ρ : String → String) : List (Hop Criteria) → List (Hop Criteria)
  | [] => []
  | hop :: hops => renamedHop ρ hop :: renamedHops ρ hops

def renamedHop (ρ : String → String) : Hop Criteria → Hop Criteria
  | ⟨kind, table, tableAlias, conditions, on, fetch⟩ =>
    ⟨kind, table, tableAlias, conditions, renamedOption ρ on, fetch⟩

end

variable {ρ : String → String}

theorem renamedAll_eq_map (cs : List Criteria) : renamedAll ρ cs = cs.map (renamed ρ) :=
  eq_map_of_cons rfl (fun _ _ => rfl) cs

theorem renamedOption_eq_map (on : Option Criteria) : renamedOption ρ on = on.map (renamed ρ) := by
  cases on <;> rfl

theorem renamedHops_eq_map (hops : List (Hop Criteria)) :
    renamedHops ρ hops = hops.map (renamedHop ρ) :=
  eq_map_of_cons rfl (fun _ _ => rfl) hops

theorem rewrites_renamed : Rewrites (renamed ρ) where
  comparison op cs := by rw [renamed, renamedAll_eq_map]
  group op cs := by rw [renamed, renamedAll_eq_map]

/-! ## Equality -/

mutual

theorem beq_renamed (inj : Function.Injective ρ) : ∀ c d : Criteria,
    beq (renamed ρ c) (renamed ρ d) = beq c d
  | comparison op cs, d => by cases d <;> simp only [renamed, beq, beqAll_renamed inj cs]
  | group op cs, d => by cases d <;> simp only [renamed, beq, beqAll_renamed inj cs]
  | literal _, d => by cases d <;> simp only [renamed, beq]
  | param name, d => by cases d <;> simp only [renamed, beq, inj.beq_eq]
  | subquery select, d => by cases d <;> simp only [renamed, beq, beqSelect_renamed inj select]
  | column _, d => by cases d <;> simp only [renamed, beq]

theorem beqAll_renamed (inj : Function.Injective ρ) : ∀ cs ds : List Criteria,
    beqAll (renamedAll ρ cs) (renamedAll ρ ds) = beqAll cs ds
  | [], ds => by cases ds <;> simp only [renamedAll, beqAll]
  | c :: cs, ds => by
    cases ds <;> simp only [renamedAll, beqAll, beq_renamed inj c, beqAll_renamed inj cs]

theorem beqOption_renamed (inj : Function.Injective ρ) : ∀ on on' : Option Criteria,
    beqOption (renamedOption ρ on) (renamedOption ρ on') = beqOption on on'
  | none, on' => by cases on' <;> simp only [renamedOption, beqOption]
  | some c, on' => by cases on' <;> simp only [renamedOption, beqOption, beq_renamed inj c]

theorem beqSelect_renamed (inj : Function.Injective ρ) : ∀ select select' : Select Criteria,
    beqSelect (renamedSelect ρ select) (renamedSelect ρ select') = beqSelect select select'
  | ⟨_, _, _, joins, filter, _⟩, ⟨_, _, _, _, _, _⟩ => by
    simp only [renamedSelect, beqSelect, beqHops_renamed inj joins, beqOption_renamed inj filter]

theorem beqHops_renamed (inj : Function.Injective ρ) : ∀ hops hops' : List (Hop Criteria),
    beqHops (renamedHops ρ hops) (renamedHops ρ hops') = beqHops hops hops'
  | [], hops' => by cases hops' <;> simp only [renamedHops, beqHops]
  | hop :: hops, hops' => by
    cases hops' <;>
      simp only [renamedHops, beqHops, beqHop_renamed inj hop, beqHops_renamed inj hops]

theorem beqHop_renamed (inj : Function.Injective ρ) : ∀ hop hop' : Hop Criteria,
    beqHop (renamedHop ρ hop) (renamedHop ρ hop') = beqHop hop hop'
  | ⟨_, _, _, _, on, _⟩, ⟨_, _, _, _, _, _⟩ => by
    simp only [renamedHop, beqHop, beqOption_renamed inj on]

end

theorem contains_renamed (inj : Function.Injective ρ) (cs : List Criteria) (c : Criteria) :
    (cs.map (renamed ρ)).contains (renamed ρ c) = cs.contains c := by
  induction cs with
  | nil => rfl
  | cons d cs ih =>
    have head : (renamed ρ c == renamed ρ d) = (c == d) := beq_renamed inj c d
    rw [List.map_cons, List.contains_cons, List.contains_cons, head, ih]

/-- Conditions merge in the same way under other names. -/
theorem mergeCriteria_renamed (inj : Function.Injective ρ) (on : Option Criteria)
    (extra : Criteria) : Hop.mergeCriteria (on.map (renamed ρ)) (renamed ρ extra) =
      renamed ρ (Hop.mergeCriteria on extra) := by
  cases on with
  | none => rfl
  | some on =>
    have same : (renamed ρ on == renamed ρ extra) = (on == extra) := beq_renamed inj on extra
    have pair : renamed ρ (and [on, extra]) = and [renamed ρ on, renamed ρ extra] :=
      rewrites_renamed.and [on, extra]
    simp only [Hop.mergeCriteria, Option.map_some, same]
    by_cases heq : (on == extra) = true
    · rw [if_pos heq, if_pos heq]
    · rw [if_neg heq, if_neg heq]
      cases on with
      | group op members =>
        cases op with
        | and =>
          simp only [renamed, renamedAll_eq_map, contains_renamed inj]
          split
          · rfl
          · rw [List.map_append, List.map_singleton]
        | _ => exact pair.symm
      | _ => exact pair.symm

/-! ## Text -/

/-- A part of a text under other names. -/
def Part.renamed (ρ : String → String) (part : Part) : Part :=
  (part.1.renamed ρ, part.2.map (Fragment.renamed ρ))

theorem needsParentheses_renamed (parent : Connective) (c : Criteria) :
    needsParentheses parent (c.renamed ρ) = needsParentheses parent c := by cases c <;> rfl

theorem parenthesized_renamed (fragments : List Fragment) :
    parenthesized (fragments.map (Fragment.renamed ρ)) =
      (parenthesized fragments).map (Fragment.renamed ρ) := by
  simp [parenthesized, Fragment.renamed]

theorem memberFragments_renamed (parent : Connective) (part : Part) :
    memberFragments parent (part.renamed ρ) =
      (memberFragments parent part).map (Fragment.renamed ρ) := by
  simp only [memberFragments, Part.renamed, needsParentheses_renamed]
  split
  · exact parenthesized_renamed part.2
  · rfl

theorem joined_renamed (between : String) (parent : Connective) (parts : List Part) :
    joined between parent (parts.map (Part.renamed ρ)) =
      (joined between parent parts).map (Fragment.renamed ρ) := by
  have members : (parts.map (Part.renamed ρ)).map (memberFragments parent) =
      (parts.map (memberFragments parent)).map (List.map (Fragment.renamed ρ)) := by
    rw [List.map_map, List.map_map]
    exact List.map_congr_left fun part _ => memberFragments_renamed parent part
  rw [joined, joined, members]
  generalize parts.map (memberFragments parent) = texts
  induction texts with
  | nil => rfl
  | cons first texts ih =>
    cases texts with
    | nil => simp
    | cons second texts =>
      simp only [List.map_cons, List.intercalate_cons_cons, List.map_append] at ih ⊢
      rw [ih]
      rfl

theorem groupFragments_renamed (op : Connective) (parts : List Part) :
    groupFragments op (parts.map (Part.renamed ρ)) =
      (groupFragments op parts).map (Fragment.renamed ρ) := by
  cases op <;> simp [groupFragments, joined_renamed, Fragment.renamed]

theorem valuesFragments_cons_cons (c d : Part) (parts : List Part) :
    valuesFragments (c :: d :: parts) = parenthesized (joined ", " .and (c :: d :: parts)) := by
  obtain ⟨c, fragments⟩ := c
  cases c <;> rfl

theorem valuesFragments_renamed (parts : List Part) :
    valuesFragments (parts.map (Part.renamed ρ)) =
      (valuesFragments parts).map (Fragment.renamed ρ) := by
  have listed : parenthesized (joined ", " .and (parts.map (Part.renamed ρ))) =
      (parenthesized (joined ", " .and parts)).map (Fragment.renamed ρ) := by
    rw [joined_renamed, parenthesized_renamed]
  match parts with
  | [] => exact listed
  | [(c, fragments)] =>
    cases c with
    | subquery select => rfl
    | _ => exact listed
  | c :: d :: parts =>
    rw [List.map_cons, List.map_cons] at listed ⊢
    rw [valuesFragments_cons_cons, valuesFragments_cons_cons, listed]

theorem comparisonFragments_renamed (op : Operator) (parts : List Part) :
    comparisonFragments op (parts.map (Part.renamed ρ)) =
      (comparisonFragments op parts).map (Fragment.renamed ρ) := by
  match parts with
  | [] => cases op <;> rfl
  | [c] =>
    have none : valuesFragments [] = (valuesFragments []).map (Fragment.renamed ρ) :=
      valuesFragments_renamed []
    cases op <;> simp [comparisonFragments, Part.renamed, Fragment.renamed, ← none]
  | c :: d :: parts =>
    have values := valuesFragments_renamed (ρ := ρ) (d :: parts)
    rw [List.map_cons] at values
    cases op <;>
      simp only [comparisonFragments, List.map_cons, List.map_append, values, Fragment.renamed] <;>
      simp only [Part.renamed, List.map_nil]

mutual

theorem fragments_renamed : ∀ c : Criteria,
    fragments (renamed ρ c) = (fragments c).map (Fragment.renamed ρ)
  | comparison op cs => by
    rw [renamed, fragments, fragments, parts_renamed cs, comparisonFragments_renamed]
  | group op cs => by
    rw [renamed, fragments, fragments, parts_renamed cs, groupFragments_renamed]
  | literal _ => rfl
  | param _ => rfl
  | subquery select => by
    rw [renamed, fragments, fragments, selectFragments_renamed select, parenthesized_renamed]
  | column _ => rfl

theorem parts_renamed : ∀ cs : List Criteria,
    parts (renamedAll ρ cs) = (parts cs).map (Part.renamed ρ)
  | [] => rfl
  | c :: cs => by
    rw [renamedAll, parts, parts, fragments_renamed c, parts_renamed cs]
    rfl

theorem selectFragments_renamed : ∀ select : Select Criteria,
    selectFragments (renamedSelect ρ select) =
      (selectFragments select).map (Fragment.renamed ρ)
  | ⟨_, _, _, joins, filter, _⟩ => by
    rw [renamedSelect, selectFragments, selectFragments, hopsFragments_renamed joins,
      filterFragments_renamed filter, List.map_append, List.map_cons]
    rfl

theorem filterFragments_renamed : ∀ filter : Option Criteria,
    filterFragments (renamedOption ρ filter) =
      (filterFragments filter).map (Fragment.renamed ρ)
  | none => rfl
  | some c => by
    rw [renamedOption, filterFragments, filterFragments, fragments_renamed c]
    rfl

theorem hopsFragments_renamed : ∀ hops : List (Hop Criteria),
    hopsFragments (renamedHops ρ hops) = (hopsFragments hops).map (Fragment.renamed ρ)
  | [] => rfl
  | hop :: hops => by
    rw [renamedHops, hopsFragments, hopsFragments, hopFragments_renamed hop,
      hopsFragments_renamed hops, List.map_append]

theorem hopFragments_renamed : ∀ hop : Hop Criteria,
    hopFragments (renamedHop ρ hop) = (hopFragments hop).map (Fragment.renamed ρ)
  | ⟨_, _, _, _, on, _⟩ => by
    rw [renamedHop, hopFragments, hopFragments, onFragments_renamed on]
    rfl

theorem onFragments_renamed : ∀ on : Option Criteria,
    onFragments (renamedOption ρ on) = (onFragments on).map (Fragment.renamed ρ)
  | none => rfl
  | some c => by
    have member : memberFragments .and (renamed ρ c, (fragments c).map (Fragment.renamed ρ)) = _ :=
      memberFragments_renamed .and (c, fragments c)
    rw [renamedOption, onFragments, onFragments, fragments_renamed c, member]
    rfl

end

/-- Under other names a statement has the same text, if placeholders go by their positions, and the
new names in their places. -/
theorem render_renamedSelect (ρ : String → String) {d : Dialect} (positional : d ≠ .named)
    (select : Select Criteria) :
    ((renamedSelect ρ select).render d).text = (select.render d).text ∧
      ((renamedSelect ρ select).render d).names = (select.render d).names.map ρ := by
  unfold Select.render
  rw [selectFragments_renamed]
  exact ⟨Fragment.render_renamed positional _, Fragment.names_renamed _⟩

/-! ## Names that stay -/

/-- All names of the condition stay, those inside its subqueries too. -/
def Fixed (ρ : String → String) (c : Criteria) : Prop := ∀ name ∈ c.paramNames, ρ name = name

mutual

theorem renamed_of_fixed : ∀ c : Criteria, Fixed ρ c → renamed ρ c = c
  | comparison op cs, h => congrArg (comparison op) (renamedAll_of_fixed cs h)
  | group op cs, h => congrArg (group op) (renamedAll_of_fixed cs h)
  | literal _, _ => rfl
  | param name, h => congrArg param (h name (List.mem_singleton_self name))
  | subquery ⟨columns, table, tableAlias, joins, filter, parameters⟩, h => by
    have hfilter := renamedOption_of_fixed filter fun name hname =>
      h name (List.mem_append_left _ hname)
    have hjoins := renamedHops_of_fixed joins fun name hname =>
      h name (List.mem_append_right _ hname)
    rw [renamed, renamedSelect, hfilter, hjoins]
  | column _, _ => rfl

theorem renamedAll_of_fixed : ∀ cs : List Criteria, (∀ name ∈ paramNamesAll cs, ρ name = name) →
    renamedAll ρ cs = cs
  | [], _ => rfl
  | c :: cs, h => by
    rw [renamedAll, renamed_of_fixed c fun name hname => h name (List.mem_append_left _ hname),
      renamedAll_of_fixed cs fun name hname => h name (List.mem_append_right _ hname)]

theorem renamedOption_of_fixed : ∀ on : Option Criteria,
    (∀ name ∈ paramNamesOf on, ρ name = name) → renamedOption ρ on = on
  | none, _ => rfl
  | some c, h => congrArg some (renamed_of_fixed c h)

theorem renamedHops_of_fixed : ∀ hops : List (Hop Criteria),
    (∀ name ∈ paramNamesOfJoins hops, ρ name = name) → renamedHops ρ hops = hops
  | [], _ => rfl
  | ⟨kind, table, tableAlias, conditions, on, fetch⟩ :: hops, h => by
    rw [renamedHops, renamedHop,
      renamedOption_of_fixed on fun name hname => h name (List.mem_append_left _ hname),
      renamedHops_of_fixed hops fun name hname => h name (List.mem_append_right _ hname)]

end

end Criteria

/-! ## Literals -/

namespace Bindings

/-- The next `n` names after `used` numbers become those after `used'` numbers. -/
def Shifts (ρ : String → String) (a : String) (used used' n : ℕ) : Prop :=
  ∀ i, 1 ≤ i → i ≤ n → ρ (literalName a (used + i)) = literalName a (used' + i)

variable {ρ : String → String} {a : String} {used used' m n : ℕ}

theorem Shifts.left (h : Shifts ρ a used used' (m + n)) : Shifts ρ a used used' m :=
  fun i hi hle => h i hi (by omega)

theorem Shifts.right (h : Shifts ρ a used used' (m + n)) :
    Shifts ρ a (used + m) (used' + m) n := by
  intro i hi hle
  rw [Nat.add_assoc, Nat.add_assoc]
  exact h (m + i) (by omega) (by omega)

theorem numbersUsed_append (cs ds : List Change) :
    numbersUsed (cs ++ ds) = numbersUsed cs + numbersUsed ds := by
  simp [numbersUsed]

end Bindings

namespace Criteria

open Bindings (Shifts numbersUsed_append)

variable {ρ : String → String}

theorem literals_bindLiterals (a : String) (c : Criteria) (b : Bindings) :
    (bindLiterals a c b).2.literals = b.literals + numbersUsed (changes a c) := by
  rw [bindLiterals_snd, Bindings.literals_changed]

theorem bindLiteralsAll_renamed {a : String} {cs : List Criteria}
    (each : ∀ c ∈ cs, ∀ b b' : Bindings,
      Shifts ρ a b.literals b'.literals (numbersUsed (changes a c)) →
      (bindLiterals a c b').1 = renamed ρ (bindLiterals a c b).1)
    {b b' : Bindings}
    (shifts : Shifts ρ a b.literals b'.literals (numbersUsed (cs.flatMap (changes a)))) :
    (bindLiteralsAll a cs b').1 = renamedAll ρ (bindLiteralsAll a cs b).1 := by
  induction cs generalizing b b' with
  | nil => rfl
  | cons c cs ih =>
    rw [List.flatMap_cons, numbersUsed_append] at shifts
    have later := shifts.right
    rw [← literals_bindLiterals, ← literals_bindLiterals] at later
    exact congrArg₂ List.cons (each c List.mem_cons_self b b' shifts.left)
      (ih (fun d hd => each d (List.mem_cons_of_mem _ hd)) later)

/-- A condition whose literals are named from another number on is the same under other names, if
its own names stay. -/
theorem bindLiterals_renamed {a : String} {c : Criteria} (fixed : Fixed ρ c) {b b' : Bindings}
    (shifts : Shifts ρ a b.literals b'.literals (numbersUsed (changes a c))) :
    (bindLiterals a c b').1 = renamed ρ (bindLiterals a c b).1 := by
  induction c using induction_members generalizing b b' with
  | comparison op cs ih =>
    rw [Fixed, collects_paramNames.comparison] at fixed
    rw [(collects_changes a).comparison] at shifts
    refine congrArg (comparison op) (bindLiteralsAll_renamed (fun c hc b b' h => ?_) shifts)
    exact ih c hc (fun name hname => fixed name (List.mem_flatMap.2 ⟨c, hc, hname⟩)) h
  | group op cs ih =>
    rw [Fixed, collects_paramNames.group] at fixed
    rw [(collects_changes a).group] at shifts
    refine congrArg (group op) (bindLiteralsAll_renamed (fun c hc b b' h => ?_) shifts)
    exact ih c hc (fun name hname => fixed name (List.mem_flatMap.2 ⟨c, hc, hname⟩)) h
  | literal value => exact congrArg param (shifts 1 (Nat.le_refl 1) (Nat.le_refl 1)).symm
  | param name => exact (renamed_of_fixed _ fixed).symm
  | subquery select => exact (renamed_of_fixed _ fixed).symm
  | column ref => rfl

end Criteria

end JoinPath
