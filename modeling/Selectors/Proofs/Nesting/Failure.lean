import Selectors.Proofs.Nesting.Associativity

/-!
# Where nesting fails

An `&` that leads a compound asks something of every parent alternative: if anything follows
it, the alternative must end in a compound, and if that is a suffix, in a simple selector with
a name that goes on. A nested rule has no expansion just when some compound of it, at whatever
depth, asks in vain. Alternatives without `&` never fail, and what is put below the parents
asks nothing of them.
-/
namespace Selectors

/-- Whether nothing may be written directly after the simple selector: `*`, attribute
conditions and `&` have no name to continue, and that of a pseudo with an argument or a nested
list is closed. -/
def Simple.isClosed : Simple → Bool
  | .universal | .attr _ | .parent _ => true
  | .pseudo ⟨_, _, argument, nested⟩ => argument.isSome || nested.isSome
  | _ => false

namespace Complex

def EndsInCombinator (complex : Complex) : Prop :=
  ∃ before kind, complex.components = before ++ [.combinator kind]

/-- The last simple selector takes no suffix. -/
def EndsClosed (complex : Complex) : Prop :=
  ∃ before members last,
    complex.components = before ++ [.compound (members ++ [last])] ∧ last.isClosed = true

/-- The alternative cannot take the place of an `&` with this suffix and these members after
it. -/
def Refuses (complex : Complex) (suffix : Option String) (others : Compound) : Prop :=
  (suffix.isSome = true ∨ others ≠ []) ∧ complex.EndsInCombinator ∨
    suffix.isSome = true ∧ complex.EndsClosed

end Complex

/-- An `&` leads the members, and some parent alternative cannot take its place. -/
def Compound.Blocked (parents : Alternatives) (members : Compound) : Prop :=
  ∃ suffix others, members = .parent suffix :: others ∧
    ∃ outer ∈ parents, outer.Refuses suffix others

/-! ### One parent alternative -/

theorem Simple.continued_toOption_eq_none_iff (suffix : String) (simple : Simple) :
    (simple.continued suffix).toOption = none ↔ simple.isClosed = true := by
  rcases simple with _ | _ | ⟨_, _, _ | _, _ | _⟩ | _ | _ | _ | _ | _ <;>
    simp [continued, isClosed, Except.toOption]

theorem Compound.suffixed?_eq_none_iff {suffix : Option String} {subject : Compound} :
    subject.suffixed? suffix = none ↔
      suffix.isSome = true ∧ ∃ before last, subject = before ++ [last] ∧ last.isClosed = true := by
  rcases suffix with _ | suffix
  · simp [suffixed?]
  · rcases List.eq_nil_or_concat' subject with rfl | ⟨before, last, rfl⟩
    · simp [suffixed?, continued, Except.toOption]
    · rw [suffixed?_append_singleton, Option.map_eq_none_iff,
        Simple.continued_toOption_eq_none_iff]
      simp

/-- An alternative is put in the place of an `&` unless it refuses. -/
theorem Chain.placed?_eq_none_iff {suffix : Option String} {others : Compound} {outer : Complex}
    (nonempty : outer.components ≠ []) :
    placed? suffix others outer.components = none ↔ outer.Refuses suffix others := by
  obtain ⟨components, lineBreak⟩ := outer
  obtain ⟨before, last, rfl⟩ := (List.eq_nil_or_concat' components).resolve_left nonempty
  have bare_iff : (suffix.isNone && others.isEmpty) = true ↔
      ¬(suffix.isSome = true ∨ others ≠ []) := by
    cases suffix <;> simp
  unfold placed?
  split
  next bare =>
    have unasked := bare_iff.mp bare
    rw [not_or] at unasked
    simp [Complex.Refuses, unasked.1, unasked.2]
  next asks =>
    rw [bare_iff, not_not] at asks
    rcases last with subject | kind
    · simp [Complex.Refuses, Complex.EndsInCombinator, Complex.EndsClosed,
        Compound.suffixed?_eq_none_iff]
    · simp [Complex.Refuses, Complex.EndsInCombinator, splitSubject?, asks]

/-! ### All parts of a rule -/

theorem Compound.mentionsParent_of_blocked (parents : Alternatives) (members : Compound)
    (blocked : members.Blocked parents) : members.mentionsParent = true := by
  obtain ⟨suffix, others, rfl, -⟩ := blocked
  rfl

section

variable {parents : Alternatives}

/-- What a blocked compound of a chain asks for, spelled out. -/
theorem Chain.has_blocked_iff {chain : Chain} :
    Chain.Has (Compound.Blocked parents) chain ↔
      ∃ suffix others, .compound (.parent suffix :: others) ∈ chain ∧
        ((suffix.isSome = true ∨ others ≠ []) ∧ (∃ outer ∈ parents, outer.EndsInCombinator) ∨
          suffix.isSome = true ∧ ∃ outer ∈ parents, outer.EndsClosed) := by
  constructor
  · rintro ⟨_, member, suffix, others, rfl, outer, isOuter, ⟨asks, ends⟩ | ⟨asks, ends⟩⟩
    · exact ⟨suffix, others, member, .inl ⟨asks, outer, isOuter, ends⟩⟩
    · exact ⟨suffix, others, member, .inr ⟨asks, outer, isOuter, ends⟩⟩
  · rintro ⟨suffix, others, member, ⟨asks, outer, isOuter, ends⟩ | ⟨asks, outer, isOuter, ends⟩⟩
    · exact ⟨_, member, suffix, others, rfl, outer, isOuter, .inl ⟨asks, ends⟩⟩
    · exact ⟨_, member, suffix, others, rfl, outer, isOuter, .inr ⟨asks, ends⟩⟩

/-- Only whether anything follows `&` matters, and that is not changed by expanding it. -/
theorem Complex.refuses_congr {outer : Complex} {suffix : Option String} {others others' : Compound}
    (alike : others'.length = others.length) :
    outer.Refuses suffix others' ↔ outer.Refuses suffix others := by
  have empty_iff : others' = [] ↔ others = [] := by
    rw [← List.length_eq_zero_iff, ← List.length_eq_zero_iff, alike]
  simp only [Refuses, ne_eq, empty_iff]

/-- A compound has no expansion if a member has none, or if some parent alternative cannot
take the place of its `&`. -/
theorem Component.expansions?_eq_none_iff {members : Compound}
    (nonempty : ∀ outer ∈ parents, outer.components ≠ []) :
    Component.expansions? parents (.compound members) = none ↔
      members.Blocked parents ∨ members.expansion? parents = none := by
  by_cases leads : members.isReference = true
  · obtain ⟨suffix, others, rfl⟩ := Compound.isReference_iff.mp leads
    have blocked_iff : Compound.Blocked parents (.parent suffix :: others) ↔
        ∃ outer ∈ parents, outer.Refuses suffix others := by
      simp [Compound.Blocked]
    rw [expansions?_parent, Compound.expansion?_cons, Simple.expansion?_parent,
      Option.map₂_eq_none_iff, blocked_iff]
    cases isOthers : Compound.expansion? parents others with
    | none => simp
    | some others' =>
      simp only [Option.bind_some, reduceCtorEq, or_false, mapM_eq_none_iff]
      refine exists_congr fun outer => and_congr_right fun isOuter => ?_
      rw [Option.map_eq_none_iff, Chain.placed?_eq_none_iff (nonempty outer isOuter),
        Complex.refuses_congr (Compound.length_of_expansion? isOthers)]
  · rw [expansions?_plain (by simpa using leads), Option.map_eq_none_iff]
    refine (or_iff_right ?_).symm
    rintro ⟨suffix, others, rfl, -⟩
    exact leads rfl

/-- What has no expansion, for every kind of selector. -/
theorem expansions?_eq_none_iff (nonempty : ∀ outer ∈ parents, outer.components ≠ []) :
    Induction
      (fun simple => simple.expansion? parents = none ↔ simple.Somewhere (Compound.Blocked parents))
      (fun members => members.expansion? parents = none ↔
        ∃ simple ∈ members, simple.Somewhere (Compound.Blocked parents))
      (fun chain => chain.expansions? parents = none ↔ chain.Somewhere (Compound.Blocked parents))
      (fun alternatives => ∀ implicit, Alternatives.expansions? parents implicit alternatives = none ↔
        alternatives.Somewhere (Compound.Blocked parents)) := by
  -- What does not mention `&` is kept or put below the parents, which cannot fail.
  have nowhere := mentionsParent_of_somewhere (Compound.mentionsParent_of_blocked parents)
  constructor
  case parent | placeholder | typeName | universal | className | idName | attr | plainPseudo =>
    intros
    simp [Simple.expansion?, Simple.nest, Simple.Somewhere, Simple.deep]
  case nestingPseudo =>
    intro name isClass argument alternatives span ih
    rw [Simple.expansion?_nesting, Simple.somewhere_nesting]
    split
    next => rw [Option.map_eq_none_iff, ih]
    next unmentioned => simp [mt (nowhere.alternatives alternatives) unmentioned]
  case noMember => simp [Compound.expansion?, Compound.nest]
  case member =>
    intro simple rest ih ihRest
    rw [Compound.expansion?_cons, Option.map₂_eq_none_iff, ih, ihRest]
    simp
  case noComponent => simp
  case compound =>
    intro members rest ih ihRest
    rw [Chain.expansions?_cons, Option.map₂_eq_none_iff,
      Component.expansions?_eq_none_iff nonempty, ih, ihRest, Chain.somewhere_compound]
  case combinator =>
    intro kind rest ih
    rw [Chain.expansions?_cons, Option.map₂_eq_none_iff, ih, Chain.somewhere_combinator]
    simp [Component.expansions?]
  case noAlternative => simp
  case alternative =>
    intro components lineBreak rest ih ihRest implicit
    rw [Alternatives.expansions?_cons, Option.map₂_eq_none_iff, ihRest, Alternatives.somewhere_cons]
    refine or_congr_left ?_
    unfold Complex.expansions?
    split
    next => exact ih
    next unmentioned =>
      have somewhere := mt (nowhere.chain components) unmentioned
      cases implicit <;> simp [somewhere]

end

/-! ### Which errors -/

/-- The error is about what a parent alternative cannot take. -/
def Error.BlamesParent (error : Error) : Prop :=
  ∃ text place, error = .nesting (.parentEndsInCombinator text) place ∨
    error = .nesting (.unsuffixable text) place

/-- The computation fails with nothing else. -/
def Diagnosed.FailsOnly {α : Type} (possible : Error → Prop) (computation : Diagnosed α) : Prop :=
  ∀ error, computation.result = .error error → possible error

namespace Diagnosed.FailsOnly

variable {α β : Type} {possible : Error → Prop}

theorem pure (value : α) : FailsOnly possible (Pure.pure value) := by
  intro error failed
  cases failed

theorem warn (warnings : List Warning) : FailsOnly possible (Diagnosed.warn warnings) := by
  intro error failed
  cases failed

theorem bind {first : Diagnosed α} {next : α → Diagnosed β} (onFirst : first.FailsOnly possible)
    (onNext : ∀ value, (next value).FailsOnly possible) : (first >>= next).FailsOnly possible := by
  intro error failed
  rcases Diagnosed.result_bind_eq_error_iff.mp failed with failed | ⟨value, -, failed⟩
  · exact onFirst error failed
  · exact onNext value error failed

end Diagnosed.FailsOnly

theorem Simple.failure_of_continued {suffix : String} {simple : Simple} {failure : NestingFailure}
    (failed : simple.continued suffix = .error failure) : ∃ text, failure = .unsuffixable text := by
  unfold continued at failed
  split at failed
  case h_6 =>
    cases failed
    exact ⟨_, rfl⟩
  all_goals cases failed

theorem Compound.failure_of_continued {suffix : String} {members : Compound}
    {failure : NestingFailure} (failed : members.continued suffix = .error failure) :
    ∃ text, failure = .unsuffixable text := by
  rcases List.eq_nil_or_concat' members with rfl | ⟨before, last, rfl⟩
  · cases failed
  · rw [continued_append_singleton] at failed
    cases isLast : last.continued suffix with
    | ok =>
      rw [isLast] at failed
      cases failed
    | error =>
      rw [isLast] at failed
      cases failed
      exact Simple.failure_of_continued isLast

theorem Complex.failure_of_joined {suffix : Option String} {others : Compound} {outer : Complex}
    {failure : NestingFailure} (failed : outer.joined suffix others = .error failure) :
    ∃ text, failure = .parentEndsInCombinator text ∨ failure = .unsuffixable text := by
  unfold joined at failed
  split at failed
  next =>
    cases failed
    exact ⟨_, .inl rfl⟩
  next before subject split =>
    cases suffix with
    | none => cases failed
    | some suffix =>
      cases isSuffixed : subject.continued suffix with
      | ok =>
        simp only [isSuffixed] at failed
        cases failed
      | error =>
        simp only [isSuffixed] at failed
        cases failed
        obtain ⟨text, rfl⟩ := Compound.failure_of_continued isSuffixed
        exact ⟨text, .inr rfl⟩

theorem Compound.failsOnly_underParents (parents : Alternatives) (place : Option Span)
    (members : Compound) :
    (Diagnosed.ofFailure place (members.underParents parents)).FailsOnly Error.BlamesParent := by
  intro error failed
  cases under : members.underParents parents with
  | ok =>
    rw [under] at failed
    cases failed
  | error failure =>
    rw [under] at failed
    cases failed
    unfold underParents at under
    split at under
    · cases under
    · obtain ⟨outer, -, failed⟩ := exists_error_of_mapM under
      obtain ⟨text, rfl | rfl⟩ := Complex.failure_of_joined failed
      · exact ⟨text, place, .inl rfl⟩
      · exact ⟨text, place, .inr rfl⟩
    · cases under

/-- Nesting only ever fails on account of a parent alternative. -/
theorem failsOnly_nest (parents : Alternatives) :
    Induction
      (fun simple => ∀ place, (simple.nest parents place).FailsOnly Error.BlamesParent)
      (fun members => ∀ place, (members.nest parents place).FailsOnly Error.BlamesParent)
      (fun chain => ∀ place, (chain.nest parents place).FailsOnly Error.BlamesParent)
      (fun alternatives => ∀ implicit place,
        (Alternatives.nest parents implicit place alternatives).FailsOnly Error.BlamesParent) := by
  constructor
  case parent | placeholder | typeName | universal | className | idName | attr | plainPseudo =>
    intros
    exact .pure _
  case noMember | noComponent | noAlternative =>
    intros
    exact .pure _
  case nestingPseudo =>
    intro name isClass argument alternatives span ih place
    rw [Simple.nest]
    split
    · exact (ih false _).bind fun _ => (Diagnosed.FailsOnly.warn _).bind fun _ => .pure _
    · exact .pure _
  case member =>
    intro simple rest ih ihRest place
    exact (ih place).bind fun _ => (ihRest place).bind fun _ => .pure _
  case compound =>
    intro members rest ih ihRest place
    exact (ih place).bind fun members =>
      (Compound.failsOnly_underParents parents place members).bind fun _ =>
        (ihRest place).bind fun _ => .pure _
  case combinator =>
    intro kind rest ih place
    exact (ih place).bind fun _ => .pure _
  case alternative =>
    intro components lineBreak rest ih ihRest implicit place
    have followed (expansions : Diagnosed Alternatives)
        (only : expansions.FailsOnly Error.BlamesParent) :=
      only.bind fun here => (ihRest implicit place).bind fun others =>
        Diagnosed.FailsOnly.pure (here ++ others)
    rw [Alternatives.nest]
    split
    · exact followed _ (ih place)
    · split <;> exact followed _ (.pure _)

theorem SelectorList.failsOnly_nest (child parent : SelectorList) (implicit : Bool) :
    (child.nest (some parent) implicit).FailsOnly Error.BlamesParent :=
  ((Selectors.failsOnly_nest parent.alternatives).alternatives child.alternatives implicit
    child.span).bind fun _ => (Diagnosed.FailsOnly.warn _).bind fun _ => .pure _

end Selectors
