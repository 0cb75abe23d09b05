import Selectors.Proofs.Equality.Covering
import Selectors.Proofs.Unification.Soundness

/-!
# Unification of bare selectors

Merging asks whether a member is there already, and weaving whether two chains are equal.
Both questions have the same answer for bare forms, so the unification of bare chains is the
unification of the chains, made bare.
-/
namespace Selectors

/-! ### Merged compounds -/

namespace Compound

theorem bare_eq_universal_iff {compound : Compound} :
    compound.bare = [.universal] ↔ compound = [.universal] := by
  rcases compound with _ | ⟨simple, _ | ⟨_, _⟩⟩
  case cons.nil =>
    cases simple
    case pseudo => simp [Compound.bare]
    all_goals simp [Compound.bare, Simple.bare]
  all_goals simp [Compound.bare]

theorem insert_of_ne {before : Simple → Bool} {simple : Simple} {compound : Compound}
    (more : compound ≠ [.universal]) :
    insert before simple compound =
      if compound.contains simple then compound
      else compound.takeWhile (fun member => !before member) ++
        simple :: compound.dropWhile (fun member => !before member) := by
  unfold insert
  split
  · exact (more rfl).elim
  · rfl

theorem insert_bare {before : Simple → Bool}
    (blind : ∀ simple : Simple, before simple.bare = before simple) (simple : Simple)
    (compound : Compound) :
    insert before simple.bare compound.bare = Compound.bare (insert before simple compound) := by
  by_cases lone : compound = [.universal]
  · subst lone
    rfl
  · rw [insert_of_ne lone, insert_of_ne (mt bare_eq_universal_iff.mp lone), contains_bare]
    split
    · rfl
    · simp [bare_eq_map, List.takeWhile_map, List.dropWhile_map, Function.comp_def, blind]

theorem addElemental_bare (simple : Simple) (compound : Compound) :
    addElemental simple.bare compound.bare = (addElemental simple compound).map Compound.bare := by
  have isUniversal : (simple.bare == .universal) = (simple == .universal) :=
    Simple.bare_beq_bare simple .universal
  have isType (name : String) : (simple.bare == .typeName name) = (simple == .typeName name) :=
    Simple.bare_beq_bare simple (.typeName name)
  rcases compound with _ | ⟨first, rest⟩
  · rfl
  · cases first
    case universal => rfl
    case typeName name =>
      simp only [Compound.bare, Simple.bare, addElemental, isUniversal, isType]
      split <;> rfl
    case pseudo pseudo =>
      -- a pseudo may hold a nested list, so its bare form is not the pseudo itself
      simp only [Compound.bare, Simple.bare_pseudo, addElemental, isUniversal]
      split <;> simp [Compound.bare]
    all_goals
      simp only [Compound.bare, Simple.bare, addElemental, isUniversal]
      split <;> rfl

theorem holdsOtherId_bare (name : String) (compound : Compound) :
    holdsOtherId name compound.bare = compound.holdsOtherId name := by
  simp only [holdsOtherId, bare_eq_map, List.any_map]
  refine congrArg (List.any compound) (funext fun simple => ?_)
  cases simple
  case pseudo => rw [Function.comp_apply, Simple.bare_pseudo]
  all_goals rfl

theorem add_bare (simple : Simple) (compound : Compound) :
    add simple.bare compound.bare = (add simple compound).map Compound.bare := by
  have inserted (simple : Simple) :
      insert Simple.isPseudo simple.bare compound.bare =
        Compound.bare (insert Simple.isPseudo simple compound) :=
    insert_bare Simple.isPseudo_bare simple compound
  cases simple
  case typeName name => exact addElemental_bare (.typeName name) compound
  case universal => exact addElemental_bare .universal compound
  case idName name =>
    simp only [Simple.bare, add, holdsOtherId_bare]
    split
    · rfl
    · exact congrArg some (inserted (.idName name))
  case pseudo pseudo =>
    have elements : compound.bare.any Simple.isPseudoElement = compound.any Simple.isPseudoElement := by
      simp [bare_eq_map, Function.comp_def]
    have isClass : pseudo.bare.isClass = pseudo.isClass := rfl
    simp only [Simple.bare_pseudo, add, elements, isClass]
    rw [← Simple.bare_pseudo, contains_bare, insert_bare Simple.isPseudoElement_bare]
    split <;> rfl
  all_goals exact congrArg some (inserted _)

/-- The merge of bare compounds is the bare merge. -/
theorem merge_bare (first second : Compound) :
    merge first.bare second.bare = (merge first second).map Compound.bare := by
  induction second generalizing first with
  | nil => rfl
  | cons simple rest ih =>
    rw [Compound.bare, merge_cons, merge_cons, add_bare]
    cases add simple first with
    | none => rfl
    | some merged => exact ih merged

end Compound

/-! ### Woven chains -/

namespace Chain

theorem weaveBackwards_bare (chain₁ chain₂ : Chain) :
    weaveBackwards chain₁.bare chain₂.bare =
      (weaveBackwards chain₁ chain₂).map (List.map Chain.bare) := by
  have isEmpty (chain : Chain) : List.isEmpty chain.bare = chain.isEmpty := by
    rw [bare_eq_map, List.isEmpty_map]
  -- The cases are those of weaving. Whether the chains are alike and whether the second is empty
  -- comes first in each; the last three also ask what the chains do not begin with.
  fun_induction weaveBackwards chain₁ chain₂ with
  | case1 chain₁ chain₂ alike =>
    rw [weaveBackwards.eq_def, isEmpty, bare_beq_bare, if_pos alike]
    simp [bare_reverse]
  | case2 chain₁ chain₂ unlike empty =>
    rw [weaveBackwards.eq_def, isEmpty, bare_beq_bare, if_neg unlike, isEmpty, if_pos empty]
    simp [bare_reverse]
  | case3 members₁ outer₁ kind members₂ outer₂ more unlike ih =>
    rw [weaveBackwards.eq_def, isEmpty, bare_beq_bare, if_neg unlike, isEmpty, if_neg more]
    simp only [Chain.bare, if_true, Compound.merge_bare, ih]
    cases Compound.merge members₁ members₂ with
    | none => rfl
    | some members =>
      cases weaveBackwards outer₁ outer₂ with
      | none => rfl
      | some woven => simp [bare_append, Chain.bare]
  | case4 kind₁ members₁ outer₁ kind₂ members₂ outer₂ different more unlike =>
    rw [weaveBackwards.eq_def, isEmpty, bare_beq_bare, if_neg unlike, isEmpty, if_neg more]
    exact if_neg different
  | case5 kind₁ rest₁ kind₂ rest₂ apart more unlike =>
    rw [weaveBackwards.eq_def, isEmpty, bare_beq_bare, if_neg unlike, isEmpty, if_neg more]
    rcases rest₁ with _ | ⟨_ | _, _⟩ <;> rcases rest₂ with _ | ⟨_ | _, _⟩
    case cons.compound.cons.compound => exact (apart _ _ _ _ rfl rfl).elim
    all_goals rfl
  | case6 chain₂ more kind rest _ noCombinator unlike =>
    rw [weaveBackwards.eq_def, isEmpty, bare_beq_bare, if_neg unlike, isEmpty, if_neg more]
    rcases chain₂ with _ | ⟨_ | _, _⟩
    case nil => exact (more rfl).elim
    case cons.combinator => exact (noCombinator _ _ rfl).elim
    case cons.compound =>
      rcases rest with _ | ⟨_ | _, _⟩ <;> simp [Chain.bare, bare_reverse, bare_append]
  | case7 chain₁ kind rest _ noCombinator unlike more =>
    rw [weaveBackwards.eq_def, isEmpty, bare_beq_bare, if_neg unlike, isEmpty, if_neg more]
    rcases chain₁ with _ | ⟨_ | _, _⟩
    case nil => exact (unlike rfl).elim
    case cons.combinator => exact (noCombinator _ _ rfl).elim
    case cons.compound => simp [Chain.bare, bare_reverse, bare_append]
  | case8 chain₁ chain₂ unlike more noCombinator₁ noCombinator₂ =>
    rw [weaveBackwards.eq_def, isEmpty, bare_beq_bare, if_neg unlike, isEmpty, if_neg more]
    rcases chain₁ with _ | ⟨_ | _, _⟩
    case nil => exact (unlike rfl).elim
    case cons.combinator => exact (noCombinator₁ _ _ rfl).elim
    case cons.compound =>
      rcases chain₂ with _ | ⟨_ | _, _⟩
      case nil => exact (more rfl).elim
      case cons.combinator => exact (noCombinator₂ _ _ rfl).elim
      case cons.compound => simp [Chain.bare, bare_reverse, bare_append]

theorem weave_bare (chain₁ chain₂ : Chain) :
    weave chain₁.bare chain₂.bare = (weave chain₁ chain₂).map (List.map Chain.bare) := by
  rw [weave, weave, ← bare_reverse, ← bare_reverse, weaveBackwards_bare]

/-- The unification of bare chains is the bare unification. -/
theorem unify_bare (chain₁ chain₂ : Chain) :
    unify chain₁.bare chain₂.bare = (unify chain₁ chain₂).map (List.map Chain.bare) := by
  simp only [unify, splitSubject?_bare]
  cases chain₁.splitSubject? with
  | none => rfl
  | some split₁ =>
    cases chain₂.splitSubject? with
    | none => rfl
    | some split₂ =>
      have merges := Compound.merge_bare split₁.2 split₂.2
      have weaves := weave_bare split₁.1 split₂.1
      simp only [Option.map_some, Prod.map, Option.bind_eq_bind, Option.bind_some, merges, weaves]
      cases Compound.merge split₁.2 split₂.2 with
      | none => rfl
      | some subject =>
        cases weave split₁.1 split₂.1 with
        | none => rfl
        | some woven => simp [bare_append, Chain.bare]

end Chain

/-! ### Lists -/

namespace SelectorList

theorem pairs_bare (list₁ list₂ : SelectorList) :
    pairs list₁.bare list₂.bare = (pairs list₁ list₂).map (Prod.map Chain.bare Chain.bare) := by
  simp only [pairs, SelectorList.bare, Alternatives.bare_eq_map, List.flatMap_map, List.map_flatMap,
    List.map_map]
  rfl

theorem ofAnswers_bare (answers : List (Option (List Chain))) :
    ofAnswers (answers.map (Option.map (List.map Chain.bare))) =
      (ofAnswers answers).map SelectorList.bare := by
  have given : (answers.map (Option.map (List.map Chain.bare))).filterMap id =
      (answers.filterMap id).map (List.map Chain.bare) := by
    rw [List.filterMap_map, List.map_filterMap]
    rfl
  have isEmpty : ((fun chain : Chain => !chain.isEmpty) ∘ Chain.bare) = fun chain => !chain.isEmpty := by
    funext chain
    cases chain <;> simp [Chain.bare_eq_map]
  unfold ofAnswers ofAlternatives
  simp only [given, ← List.map_flatten, List.filter_map, isEmpty]
  cases (answers.filterMap id).flatten.filter fun chain => !chain.isEmpty with
  | nil => rfl
  | cons chain rest => simp [Except.toOption, SelectorList.bare, Alternatives.bare_eq_map, Complex.bare]

/-- The unification of bare lists is the bare unification. -/
theorem unify_bare (list₁ list₂ : SelectorList) :
    unify list₁.bare list₂.bare = (unify list₁ list₂).map SelectorList.bare := by
  have answers : (pairs list₁.bare list₂.bare).map (fun pair => Chain.unify pair.1 pair.2) =
      ((pairs list₁ list₂).map fun pair => Chain.unify pair.1 pair.2).map
        (Option.map (List.map Chain.bare)) := by
    rw [pairs_bare, List.map_map, List.map_map]
    exact congrArg (List.map · _) (funext fun pair => Chain.unify_bare pair.1 pair.2)
  rw [unify_eq, unify_eq, answers, ofAnswers_bare]

end SelectorList

end Selectors
