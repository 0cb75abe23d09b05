import Selectors.Proofs.Nesting.Outcome

/-!
# The warnings of nesting

A rule that can be nested is warned about list by list: first the lists nested in it in which `&`
occurs, each after those within it, and then the whole list. In each of them every alternative that
has come to hold two combinators side by side is warned about, and nothing else is.
-/
namespace Selectors

/-! ### Combinators side by side -/

theorem Chain.hasDoubledCombinator_iff {chain : Chain} :
    chain.hasDoubledCombinator = true ↔
      ∃ kind kind', [.combinator kind, .combinator kind'] <:+: chain := by
  fun_induction hasDoubledCombinator chain with
  | case1 kind kind' rest =>
    rw [eq_self, true_iff]
    exact ⟨kind, kind', [], rest, rfl⟩
  | case2 component rest apart ih =>
    rw [ih]
    refine exists_congr fun kind => exists_congr fun kind' => ?_
    rw [List.infix_cons_iff, or_iff_right]
    rintro ⟨others, same⟩
    obtain ⟨rfl, rfl⟩ := List.cons.inj same
    exact apart _ _ _ rfl rfl
  | case3 => simp

/-- The warning about an alternative that holds two combinators side by side. -/
def Complex.combinatorWarning (complex : Complex) : Warning :=
  ⟨"selector", "\"" ++ complex.text ++ "\" has consecutive combinators and is not valid CSS"⟩

/-- A warning for every alternative that holds two combinators side by side. -/
def SelectorList.combinatorWarnings (list : SelectorList) : List Warning :=
  Alternatives.combinatorWarnings list.alternatives

theorem SelectorList.mem_combinatorWarnings {list : SelectorList} {complex : Complex}
    (member : complex ∈ list.alternatives)
    (doubled : Chain.hasDoubledCombinator complex.components = true) :
    complex.combinatorWarning ∈ list.combinatorWarnings :=
  List.mem_map_of_mem (List.mem_filter.mpr ⟨member, doubled⟩)

/-! ### Lists at every depth -/

mutual

/-- The lists nested in a simple selector, each after those within it. -/
def Simple.nestedLists : Simple → List SelectorList
  | .pseudo ⟨_, _, _, some ⟨alternatives, span⟩⟩ =>
    Alternatives.nestedLists alternatives ++ [⟨alternatives, span⟩]
  | _ => []
termination_by structural simple => simple

def Compound.nestedLists : Compound → List SelectorList
  | [] => []
  | simple :: rest => simple.nestedLists ++ Compound.nestedLists rest
termination_by structural compound => compound

def Chain.nestedLists : Chain → List SelectorList
  | [] => []
  | .compound members :: rest => Compound.nestedLists members ++ Chain.nestedLists rest
  | .combinator _ :: rest => Chain.nestedLists rest
termination_by structural chain => chain

def Alternatives.nestedLists : Alternatives → List SelectorList
  | [] => []
  | ⟨components, _⟩ :: rest => Chain.nestedLists components ++ Alternatives.nestedLists rest
termination_by structural alternatives => alternatives

end

/-- The lists in which `&` occurs. -/
def referring (lists : List SelectorList) : List SelectorList :=
  lists.filter SelectorList.mentionsParent

theorem referring_append (first second : List SelectorList) :
    referring (first ++ second) = referring first ++ referring second :=
  List.filter_append ..

/-- Where `&` does not occur it does not occur further in. -/
theorem referring_free :
    Induction
      (fun simple => simple.mentionsParent = false → referring simple.nestedLists = [])
      (fun members => members.mentionsParent = false → referring members.nestedLists = [])
      (fun chain => chain.mentionsParent = false → referring chain.nestedLists = [])
      (fun alternatives => alternatives.mentionsParent = false →
        referring alternatives.nestedLists = []) := by
  constructor
  case parent | placeholder | typeName | universal | className | idName | attr | plainPseudo =>
    intros
    rfl
  case noMember | noComponent | noAlternative =>
    intros
    rfl
  case nestingPseudo =>
    intro name isClass argument alternatives span ih free
    have free : Alternatives.mentionsParent alternatives = false := free
    rw [Simple.nestedLists, referring_append, ih free]
    simp [referring, SelectorList.mentionsParent, free]
  case member =>
    intro simple rest ih ihRest free
    obtain ⟨freeHere, freeRest⟩ := Bool.or_eq_false_iff.mp free
    rw [Compound.nestedLists, referring_append, ih freeHere, ihRest freeRest, List.append_nil]
  case compound =>
    intro members rest ih ihRest free
    obtain ⟨freeHere, freeRest⟩ := Bool.or_eq_false_iff.mp free
    rw [Chain.nestedLists, referring_append, ih freeHere, ihRest freeRest, List.append_nil]
  case combinator =>
    intro kind rest ih free
    exact ih free
  case alternative =>
    intro components lineBreak rest ih ihRest free
    obtain ⟨freeHere, freeRest⟩ := Bool.or_eq_false_iff.mp free
    rw [Alternatives.nestedLists, referring_append, ih freeHere, ihRest freeRest, List.append_nil]

/-! ### Computations that warn about lists -/

section

variable {α β : Type} {parent : SelectorList}

/-- What the lists come to under the parent, where nothing is put below it that does not mention
it. -/
def expanded? (parent : SelectorList) (lists : List SelectorList) : Option (List SelectorList) :=
  lists.mapM fun list => (list.nest (some parent) false).value?

theorem expanded?_append (first second : List SelectorList) :
    expanded? parent (first ++ second) =
      Option.map₂ (· ++ ·) (expanded? parent first) (expanded? parent second) :=
  mapM_append_option _ first second

/-- If the computation succeeds, the lists have come to something, and the warnings are those of
what they have come to. -/
def Diagnosed.WarnsAbout (parent : SelectorList) (lists : List SelectorList)
    (computation : Diagnosed α) : Prop :=
  ∀ value, computation.result = .ok value →
    ∃ expanded, expanded? parent lists = some expanded ∧
      computation.warnings = expanded.flatMap SelectorList.combinatorWarnings

namespace Diagnosed.WarnsAbout

theorem pure (value : α) : WarnsAbout parent [] (Pure.pure value : Diagnosed α) :=
  fun _ _ => ⟨[], rfl, rfl⟩

theorem ofFailure (place : Option Span) (result : Except NestingFailure α) :
    WarnsAbout parent [] (Diagnosed.ofFailure place result) :=
  fun _ _ => ⟨[], rfl, rfl⟩

theorem bind {first : Diagnosed α} {next : α → Diagnosed β} {lists others : List SelectorList}
    (here : WarnsAbout parent lists first)
    (later : ∀ value, first.result = .ok value → WarnsAbout parent others (next value)) :
    WarnsAbout parent (lists ++ others) (first >>= next) := by
  intro result succeeded
  obtain ⟨_ | value, warnings⟩ := first
  · cases succeeded
  · obtain ⟨expanded, isExpanded, warned⟩ := here value rfl
    obtain ⟨expanded', isExpanded', warned'⟩ := later value rfl result succeeded
    refine ⟨expanded ++ expanded', ?_, ?_⟩
    · rw [expanded?_append, isExpanded, isExpanded']
      rfl
    · have warned : warnings = _ := warned
      rw [List.flatMap_append, ← warned, ← warned']
      rfl

/-- What only makes a value of the value warns about nothing more. -/
theorem bind_pure {first : Diagnosed α} {lists : List SelectorList}
    (here : WarnsAbout parent lists first) (make : α → β) :
    WarnsAbout parent lists (first >>= fun value => Pure.pure (make value)) := by
  simpa using here.bind fun value _ => WarnsAbout.pure (make value)

/-- Expanding a list and warning about what it comes to warns about the list. -/
theorem expansion (list : SelectorList) {lists : List SelectorList} {place : Option Span}
    {make : Alternatives → α}
    (inner : WarnsAbout parent lists
      (Alternatives.nest parent.alternatives false place list.alternatives)) :
    WarnsAbout parent (lists ++ [list]) (do
      let alternatives ← Alternatives.nest parent.alternatives false place list.alternatives
      Diagnosed.warn (Alternatives.combinatorWarnings alternatives)
      return make alternatives) := by
  refine inner.bind fun alternatives isResult => ?_
  have isExpansion : Alternatives.expansions? parent.alternatives false list.alternatives =
      some alternatives := by
    rw [← (value?_nest parent.alternatives).alternatives, value?_eq_some_iff, isResult]
  intro value _
  refine ⟨[⟨alternatives, list.span⟩], ?_, ?_⟩
  · simp [expanded?, SelectorList.value?_nest, isExpansion]
  · simp [Diagnosed.warn, SelectorList.combinatorWarnings]

end Diagnosed.WarnsAbout

/-! ### Nesting -/

/-- Nesting warns about the lists in which `&` occurs. -/
theorem warnsAbout_nest (parent : SelectorList) :
    Induction
      (fun simple => ∀ place, Diagnosed.WarnsAbout parent (referring simple.nestedLists)
        (simple.nest parent.alternatives place))
      (fun members => ∀ place, Diagnosed.WarnsAbout parent (referring members.nestedLists)
        (members.nest parent.alternatives place))
      (fun chain => ∀ place, Diagnosed.WarnsAbout parent (referring chain.nestedLists)
        (chain.nest parent.alternatives place))
      (fun alternatives => ∀ implicit place,
        Diagnosed.WarnsAbout parent (referring alternatives.nestedLists)
          (Alternatives.nest parent.alternatives implicit place alternatives)) := by
  constructor
  case parent | placeholder | typeName | universal | className | idName | attr | plainPseudo =>
    intros
    exact .pure _
  case noMember | noComponent | noAlternative =>
    intros
    exact .pure _
  case nestingPseudo =>
    -- here a list is expanded, or passed over with all the lists in it
    intro name isClass argument alternatives span ih place
    rw [Simple.nest]
    split
    next mentions =>
      have self : referring [⟨alternatives, span⟩] = [⟨alternatives, span⟩] := by
        simp [referring, SelectorList.mentionsParent, mentions]
      rw [Simple.nestedLists, referring_append, self]
      exact .expansion ⟨alternatives, span⟩ (ih false (span <|> place))
    next unmentioned =>
      have free : Simple.mentionsParent
          (.pseudo ⟨name, isClass, argument, some ⟨alternatives, span⟩⟩) = false :=
        Bool.eq_false_iff.mpr unmentioned
      rw [referring_free.simple _ free]
      exact .pure _
  case member =>
    intro simple rest ih ihRest place
    rw [Compound.nest, Compound.nestedLists, referring_append]
    refine (ih place).bind fun first _ => ?_
    exact (ihRest place).bind_pure (first :: ·)
  case compound =>
    intro members rest ih ihRest place
    rw [Chain.nest, Chain.nestedLists, referring_append]
    refine (ih place).bind fun members _ => ?_
    refine (Diagnosed.WarnsAbout.ofFailure place _).bind fun first _ => ?_
    exact (ihRest place).bind_pure first.followedBy
  case combinator =>
    intro kind rest ih place
    rw [Chain.nest, Chain.nestedLists]
    exact (ih place).bind_pure (Alternatives.followedBy [.single (.combinator kind)])
  case alternative =>
    intro components lineBreak rest ih ihRest implicit place
    rw [Alternatives.nest, Alternatives.nestedLists, referring_append]
    have others (expansions : Alternatives) := (ihRest implicit place).bind_pure (expansions ++ ·)
    split
    next => exact (ih place).bind fun expansions _ => others expansions
    next unmentioned =>
      -- nothing in an alternative without `&` is expanded
      rw [referring_free.chain _ (Bool.eq_false_iff.mpr unmentioned)]
      split <;> exact (Diagnosed.WarnsAbout.pure _).bind fun expansions _ => others expansions

end

namespace SelectorList

/-- The lists nested in the list in which `&` occurs, each after those within it. -/
def referringWithin (list : SelectorList) : List SelectorList :=
  referring (Alternatives.nestedLists list.alternatives)

/-- A rule that can be nested is warned about with all the lists that are expanded on the way. -/
theorem warnings_nest {child parent list : SelectorList} {implicit : Bool}
    (nested : (child.nest (some parent) implicit).result = .ok list) :
    ∃ expanded, expanded? parent child.referringWithin = some expanded ∧
      (child.nest (some parent) implicit).warnings =
        (expanded ++ [list]).flatMap SelectorList.combinatorWarnings := by
  obtain ⟨alternatives, isResult, rfl⟩ := result_nestIn_eq_ok_iff.mp nested
  obtain ⟨expanded, isExpanded, warned⟩ :=
    (warnsAbout_nest parent).alternatives child.alternatives implicit child.span _ isResult
  refine ⟨expanded, isExpanded, ?_⟩
  have last : (child.nest (some parent) implicit).warnings =
      (Alternatives.nest parent.alternatives implicit child.span child.alternatives).warnings ++
        Alternatives.combinatorWarnings alternatives := by
    simp only [nest, nestIn]
    cases ran : Alternatives.nest parent.alternatives implicit child.span child.alternatives with
    | mk result warnings =>
      rw [ran] at isResult
      cases isResult
      simp [Diagnosed.warn]
  rw [last, warned, List.flatMap_append, List.flatMap_singleton]
  rfl

end SelectorList

end Selectors
