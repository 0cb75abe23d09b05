import Selectors.Proofs.Nesting.Failure

/-!
# The failure that is reported

Nesting stops at the first compound that asks a parent alternative in vain. The compounds are
visited in the order they are written, those in the nested lists of a compound before the compound
itself, and each asks the parent alternatives in their order. The failure is placed at the nearest
list around the compound that has a span, no matter whether that span is handed down to the compound
or filled in on the way back (`nest_located`).
-/
namespace Selectors

/-! ### What a compound asks for -/

/-- The failure of writing anything directly after the simple selector. -/
def Simple.refusal? (simple : Simple) : Option NestingFailure :=
  if simple.isClosed then some (.unsuffixable simple.text) else none

/-- The failure of putting a parent alternative in the place of an `&` with this suffix and these
members after it. It has to end in a compound if there is anything to join to it, and its last
simple selector has to take the suffix. -/
def Complex.refusal? (suffix : Option String) (others : Compound) (outer : Complex) :
    Option NestingFailure :=
  match outer.components.getLast? with
  | some (.compound subject) =>
    if suffix.isSome then subject.getLast?.bind Simple.refusal? else none
  | _ =>
    if suffix.isNone && others.isEmpty then none else some (.parentEndsInCombinator outer.text)

/-- The failure at the first parent alternative that cannot take the place of an `&` at the head of
the members. -/
def Compound.refusal? (parents : Alternatives) : Compound → Option NestingFailure
  | .parent suffix :: others => parents.findSome? (Complex.refusal? suffix others)
  | _ => none

/-! ### The compounds of a list -/

/-- A compound and the spans of the lists around it, from its own list outwards. -/
structure Site where
  members : Compound
  spans : List (Option Span)

/-- The span of the nearest list that has one. -/
def nearest (spans : List (Option Span)) : Option Span :=
  spans.findSome? id

/-- What nesting reports at the site, if the compound there fails. -/
def Site.error? (parents : Alternatives) (site : Site) : Option Error :=
  (site.members.refusal? parents).map fun failure => .nesting failure (nearest site.spans)

mutual

/-- The compounds in the nested list of a simple selector that stands within lists with these
spans. -/
def Simple.sites (spans : List (Option Span)) : Simple → List Site
  | .pseudo ⟨_, _, _, some ⟨alternatives, span⟩⟩ => Alternatives.sites (span :: spans) alternatives
  | _ => []
termination_by structural simple => simple

/-- The compounds in the nested lists of the members. -/
def Compound.innerSites (spans : List (Option Span)) : Compound → List Site
  | [] => []
  | simple :: rest => simple.sites spans ++ Compound.innerSites spans rest
termination_by structural compound => compound

/-- The compounds of a chain, each after those within it. -/
def Chain.sites (spans : List (Option Span)) : Chain → List Site
  | [] => []
  | .compound members :: rest =>
    Compound.innerSites spans members ++ [⟨members, spans⟩] ++ Chain.sites spans rest
  | .combinator _ :: rest => Chain.sites spans rest
termination_by structural chain => chain

def Alternatives.sites (spans : List (Option Span)) : Alternatives → List Site
  | [] => []
  | ⟨components, _⟩ :: rest => Chain.sites spans components ++ Alternatives.sites spans rest
termination_by structural alternatives => alternatives

end

/-- The compounds of the list, at whatever depth, in the order in which nesting visits them. -/
def SelectorList.sites (list : SelectorList) : List Site :=
  Alternatives.sites [list.span] list.alternatives

/-! ### The error of a computation -/

namespace Diagnosed

variable {α β : Type}

/-- The error, if the computation ends in one. -/
def error? (computation : Diagnosed α) : Option Error := failure? computation.result

theorem error?_eq_some_iff {computation : Diagnosed α} {error : Error} :
    computation.error? = some error ↔ computation.result = .error error := by
  obtain ⟨_ | _, _⟩ := computation <;> simp [error?, failure?]

theorem error?_ofFailure (place : Option Span) (result : Except NestingFailure α) :
    (ofFailure place result).error? = (failure? result).map (.nesting · place) := by
  cases result <;> rfl

/-- The error of a computation is that of its first part, or else that of the rest. -/
theorem error?_bind {first : Diagnosed α} {next : α → Diagnosed β} {later : Option Error}
    (rest : ∀ value, first.value? = some value → (next value).error? = later) :
    (first >>= next).error? = first.error?.or later := by
  obtain ⟨_ | value, _⟩ := first
  · rfl
  · exact rest value rfl

/-- What only makes a value of the value does not fail. -/
theorem error?_bind_pure {first : Diagnosed α} {next : α → Diagnosed β}
    (rest : ∀ value, (next value).error? = none) : (first >>= next).error? = first.error? := by
  rw [error?_bind fun value _ => rest value, Option.or_none]

theorem error?_both {γ : Type} (first : Diagnosed α) (second : Diagnosed β) (make : α → β → γ) :
    (do
      let here ← first
      let later ← second
      return make here later).error? = first.error?.or second.error? := by
  refine error?_bind fun _ _ => ?_
  exact error?_bind_pure fun _ => rfl

end Diagnosed

/-! ### One compound -/

theorem Simple.failure?_continued (suffix : String) (simple : Simple) :
    failure? (simple.continued suffix) = simple.refusal? := by
  rcases simple with _ | _ | ⟨_, _, _ | _, _ | _⟩ | _ | _ | _ | _ | _ <;> rfl

theorem Compound.failure?_continued (suffix : String) (members : Compound) :
    failure? (members.continued suffix) = members.getLast?.bind Simple.refusal? := by
  rcases List.eq_nil_or_concat' members with rfl | ⟨before, last, rfl⟩
  · rfl
  · rw [continued_append_singleton, List.getLast?_concat, Option.bind_some,
      ← Simple.failure?_continued suffix]
    cases last.continued suffix <;> rfl

/-- Something follows `&`, so that the alternative has to end in a compound. -/
theorem Complex.failure?_joined {suffix : Option String} {others : Compound}
    (more : (suffix.isNone && others.isEmpty) = false) (outer : Complex) :
    failure? (outer.joined suffix others) = outer.refusal? suffix others := by
  unfold joined refusal? Chain.splitSubject?
  cases outer.components.getLast? with
  | none => simp [failure?, more]
  | some last =>
    cases last with
    | combinator => simp [failure?, more]
    | compound subject =>
      cases suffix with
      | none => rfl
      | some suffix =>
        simp only [Option.isSome_some, if_true, ← Compound.failure?_continued suffix]
        cases Compound.continued suffix subject <;> rfl

theorem Complex.refusal?_bare (outer : Complex) : outer.refusal? none [] = none := by
  unfold refusal?
  split <;> rfl

section

variable {parents : Alternatives}

@[simp] theorem Compound.refusal?_parent (suffix : Option String) (others : Compound) :
    Compound.refusal? parents (.parent suffix :: others) =
      parents.findSome? (Complex.refusal? suffix others) := rfl

theorem Compound.refusal?_of_not_reference {members : Compound}
    (plain : members.isReference = false) : members.refusal? parents = none := by
  unfold refusal?
  split
  · cases plain
  · rfl

/-- Putting the parents in the place of `&` fails as the first of them that refuses. -/
theorem Compound.failure?_underParents (members : Compound) :
    failure? (members.underParents parents) = members.refusal? parents := by
  by_cases leads : members.isReference = true
  · obtain ⟨suffix, others, rfl⟩ := isReference_iff.mp leads
    by_cases bare : (suffix.isNone && others.isEmpty) = true
    · -- an `&` that stands alone takes any parent alternative
      obtain ⟨rfl, rfl⟩ : suffix = none ∧ others = [] := by simpa using bare
      refine (List.findSome?_eq_none_iff.mpr ?_).symm
      exact fun outer _ => outer.refusal?_bare
    · have more := Bool.eq_false_iff.mpr bare
      rw [underParents_joined more, failure?_mapM, refusal?_parent]
      exact congrArg (List.findSome? · parents) (funext (Complex.failure?_joined more))
  · have plain := Bool.eq_false_iff.mpr leads
    rw [underParents_of_not_reference plain, refusal?_of_not_reference plain]
    rfl

/-- Expanding the members changes neither the `&` at their head nor whether anything follows. -/
theorem Compound.refusal?_of_expansion? {members members' : Compound}
    (expanded : members.expansion? parents = some members') :
    members'.refusal? parents = members.refusal? parents := by
  by_cases leads : members.isReference = true
  · obtain ⟨suffix, others, rfl⟩ := isReference_iff.mp leads
    rw [expansion?_cons, Simple.expansion?_parent] at expanded
    obtain ⟨_, others', same, isOthers, rfl⟩ := Option.map₂_eq_some_iff.mp expanded
    obtain rfl := Option.some.inj same
    have empty : others'.isEmpty = others.isEmpty := by
      rw [Bool.eq_iff_iff, List.isEmpty_iff_length_eq_zero, List.isEmpty_iff_length_eq_zero,
        length_of_expansion? isOthers]
    simp only [refusal?_parent]
    unfold Complex.refusal?
    rw [empty]
  · have plain := Bool.eq_false_iff.mpr leads
    rw [refusal?_of_not_reference plain,
      refusal?_of_not_reference ((isReference_of_expansion? expanded).trans plain)]

/-! ### All compounds -/

/-- Without `&` nothing is asked of the parents. -/
theorem sites_free (parents : Alternatives) :
    Induction
      (fun simple => ∀ spans, simple.mentionsParent = false →
        (simple.sites spans).findSome? (Site.error? parents) = none)
      (fun members => ∀ spans, members.mentionsParent = false →
        (members.innerSites spans).findSome? (Site.error? parents) = none)
      (fun chain => ∀ spans, chain.mentionsParent = false →
        (chain.sites spans).findSome? (Site.error? parents) = none)
      (fun alternatives => ∀ spans, alternatives.mentionsParent = false →
        (alternatives.sites spans).findSome? (Site.error? parents) = none) := by
  constructor
  case parent | placeholder | typeName | universal | className | idName | attr | plainPseudo =>
    intros
    rfl
  case noMember | noComponent | noAlternative =>
    intros
    rfl
  case nestingPseudo =>
    intro name isClass argument alternatives span ih spans free
    exact ih (span :: spans) free
  case member =>
    intro simple rest ih ihRest spans free
    obtain ⟨freeHere, freeRest⟩ := Bool.or_eq_false_iff.mp free
    rw [Compound.innerSites, List.findSome?_append, ih spans freeHere, ihRest spans freeRest]
    rfl
  case compound =>
    intro members rest ih ihRest spans free
    obtain ⟨freeHere, freeRest⟩ := Bool.or_eq_false_iff.mp free
    have unasked : Site.error? parents ⟨members, spans⟩ = none := by
      rw [Site.error?, Compound.refusal?_of_not_reference (Compound.isReference_of_free freeHere),
        Option.map_none]
    rw [Chain.sites, List.findSome?_append, List.findSome?_append, List.findSome?_singleton,
      ih spans freeHere, unasked, ihRest spans freeRest]
    rfl
  case combinator =>
    intro kind rest ih spans free
    exact ih spans free
  case alternative =>
    intro components lineBreak rest ih ihRest spans free
    obtain ⟨freeHere, freeRest⟩ := Bool.or_eq_false_iff.mp free
    rw [Alternatives.sites, List.findSome?_append, ih spans freeHere, ihRest spans freeRest]
    rfl

theorem nearest_cons (span : Option Span) (spans : List (Option Span)) :
    nearest (span :: spans) = (span <|> nearest spans) := by
  cases span <;> rfl

/-- Nesting fails as the first compound that asks in vain. -/
theorem error?_nest (parents : Alternatives) :
    Induction
      (fun simple => ∀ spans, (simple.nest parents (nearest spans)).error? =
        (simple.sites spans).findSome? (Site.error? parents))
      (fun members => ∀ spans, (members.nest parents (nearest spans)).error? =
        (members.innerSites spans).findSome? (Site.error? parents))
      (fun chain => ∀ spans, (chain.nest parents (nearest spans)).error? =
        (chain.sites spans).findSome? (Site.error? parents))
      (fun alternatives => ∀ implicit spans,
        (Alternatives.nest parents implicit (nearest spans) alternatives).error? =
          (alternatives.sites spans).findSome? (Site.error? parents)) := by
  -- The place that is passed down is the nearest span of the lists around.
  constructor
  case parent | placeholder | typeName | universal | className | idName | attr | plainPseudo =>
    intros
    rfl
  case noMember | noComponent | noAlternative =>
    intros
    rfl
  case nestingPseudo =>
    intro name isClass argument alternatives span ih spans
    rw [Simple.nest, Simple.sites, ← nearest_cons]
    split
    next =>
      rw [← ih false (span :: spans)]
      exact Diagnosed.error?_bind_pure fun _ => rfl
    next unmentioned =>
      -- a list without `&` is passed over, and no compound in it would ask for anything
      have free := Bool.eq_false_iff.mpr unmentioned
      rw [(sites_free parents).alternatives alternatives _ free]
      rfl
  case member =>
    intro simple rest ih ihRest spans
    rw [Compound.nest, Compound.innerSites, List.findSome?_append, ← ih, ← ihRest]
    exact Diagnosed.error?_both _ _ _
  case compound =>
    intro members rest ih ihRest spans
    rw [Chain.nest, Chain.sites, List.findSome?_append, List.findSome?_append,
      List.findSome?_singleton, ← ih, ← ihRest, Option.or_assoc]
    refine Diagnosed.error?_bind fun members' isMembers => ?_
    -- the parents are asked once the members are expanded, which does not change what is asked
    rw [(value?_nest parents).members] at isMembers
    have here : (Diagnosed.ofFailure (nearest spans) (members'.underParents parents)).error? =
        Site.error? parents ⟨members, spans⟩ := by
      rw [Diagnosed.error?_ofFailure, Compound.failure?_underParents,
        Compound.refusal?_of_expansion? isMembers, Site.error?]
    rw [← here]
    exact Diagnosed.error?_both _ _ _
  case combinator =>
    intro kind rest ih spans
    rw [Chain.nest, Chain.sites, ← ih]
    exact Diagnosed.error?_bind_pure fun _ => rfl
  case alternative =>
    intro components lineBreak rest ih ihRest implicit spans
    rw [Alternatives.nest, Alternatives.sites, List.findSome?_append, ← ihRest implicit]
    split
    next =>
      rw [← ih]
      exact Diagnosed.error?_both _ _ _
    next unmentioned =>
      have free := Bool.eq_false_iff.mpr unmentioned
      rw [(sites_free parents).chain components spans free]
      -- put below the parents or kept, it asks nothing of them
      split <;> exact Diagnosed.error?_both _ _ _

end

namespace SelectorList

/-- The error of a nested rule is that of the first of its compounds, at whatever depth, that some
parent alternative refuses, with the failure of the first alternative that does, placed at the
nearest list around the compound that has a span. -/
theorem nest_error_iff (child parent : SelectorList) (implicit : Bool) (error : Error) :
    (child.nest (some parent) implicit).result = .error error ↔
      ∃ before site after failure, child.sites = before ++ site :: after ∧
        (∀ earlier ∈ before, earlier.members.refusal? parent.alternatives = none) ∧
        site.members.refusal? parent.alternatives = some failure ∧
        error = .nesting failure (nearest site.spans) := by
  have placed : nearest [child.span] = child.span := by
    cases child.span <;> rfl
  have first :=
    (error?_nest parent.alternatives).alternatives child.alternatives implicit [child.span]
  rw [placed] at first
  rw [nest, result_nestIn_eq_error_iff, ← Diagnosed.error?_eq_some_iff, first,
    List.findSome?_eq_some_iff]
  simp only [Site.error?, Option.map_eq_none_iff, Option.map_eq_some_iff, sites]
  constructor
  · rintro ⟨before, site, after, split, ⟨failure, refused, rfl⟩, taken⟩
    exact ⟨before, site, after, failure, split, taken, refused, rfl⟩
  · rintro ⟨before, site, after, failure, split, taken, refused, rfl⟩
    exact ⟨before, site, after, split, ⟨failure, refused, rfl⟩, taken⟩

-- `&, .q:not(:is(&-x))` under `.a, *, .b >`, where the argument of `:is` has no span
example :
    (SelectorList.nest
      ⟨[⟨[.compound [.parent none]], false⟩,
        ⟨[.compound [.className "q", .pseudo ⟨"not", true, none, some
          ⟨[⟨[.compound [.pseudo ⟨"is", true, none, some
            ⟨[⟨[.compound [.parent (some "-x")]], false⟩], none⟩⟩]], false⟩],
          some ⟨none, 2, 9⟩⟩⟩]], false⟩], some ⟨none, 1, 1⟩⟩
      (some ⟨[⟨[.compound [.className "a"]], false⟩, ⟨[.compound [.universal]], false⟩,
        ⟨[.compound [.className "b"], .combinator .child], false⟩], none⟩) true).result =
      .error (.nesting (.unsuffixable "*") (some ⟨none, 2, 9⟩)) := by
  rfl

end SelectorList

end Selectors
