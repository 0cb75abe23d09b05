import Selectors.Nesting
import Selectors.Proofs.Equality.Covering

/-!
# Nesting of bare rules

A rule and its bare form expand to the same selectors, give the same warnings and fail for the
same reason. Spans have a say in one thing only, the place that is reported with a failure.
-/
namespace Selectors

/-! ### Computations without places -/

/-- The error without its place. -/
def Error.unplaced : Error → Error
  | nesting failure _ => nesting failure none
  | error => error

namespace Diagnosed

variable {α α' β β' : Type}

/-- The computation, with an error that has no place. -/
def unplaced (computation : Diagnosed α) : Diagnosed α :=
  ⟨computation.result.mapError Error.unplaced, computation.warnings⟩

theorem unplaced_bind (first : Diagnosed α) (next : α → Diagnosed β) :
    (first >>= next).unplaced = first.unplaced >>= fun value => (next value).unplaced := by
  obtain ⟨_ | _, _⟩ := first <;> rfl

/-- The first computation goes as the second does and gives the changed value. The places of
errors may differ. -/
def Mirrors (change : α → α') (mirror : Diagnosed α') (computation : Diagnosed α) : Prop :=
  mirror.unplaced = change <$> computation.unplaced

namespace Mirrors

variable {change : α → α'} {change' : β → β'}

theorem pure (value : α) : Mirrors change (Pure.pure (change value)) (Pure.pure value) := rfl

theorem warn {warnings warnings' : List Warning} (same : warnings' = warnings) :
    Mirrors id (Diagnosed.warn warnings') (Diagnosed.warn warnings) := by
  subst same
  exact (id_map _).symm

theorem ofFailure {result : Except NestingFailure α} {result' : Except NestingFailure α'}
    (same : result' = result.map change) (place place' : Option Span) :
    Mirrors change (Diagnosed.ofFailure place' result') (Diagnosed.ofFailure place result) := by
  subst same
  cases result <;> rfl

theorem bind {mirror : Diagnosed α'} {computation : Diagnosed α} {mirrorNext : α' → Diagnosed β'}
    {next : α → Diagnosed β} (first : Mirrors change mirror computation)
    (after : ∀ value, Mirrors change' (mirrorNext (change value)) (next value)) :
    Mirrors change' (mirror >>= mirrorNext) (computation >>= next) := by
  unfold Mirrors at first after ⊢
  rw [unplaced_bind, unplaced_bind, first, bind_map_left, map_bind]
  simp only [after]

end Mirrors

end Diagnosed

/-! ### Parent references -/

theorem mentionsParent_bare :
    Induction (fun simple => simple.bare.mentionsParent = simple.mentionsParent)
      (fun compound => Compound.mentionsParent compound.bare = compound.mentionsParent)
      (fun chain => Chain.mentionsParent chain.bare = chain.mentionsParent)
      (fun alternatives => Alternatives.mentionsParent alternatives.bare =
        alternatives.mentionsParent) := by
  constructor <;> intros <;>
    simp_all [Simple.bare, Compound.bare, Chain.bare, Alternatives.bare, Simple.mentionsParent,
      Compound.mentionsParent, Chain.mentionsParent, Alternatives.mentionsParent]

@[simp] theorem Simple.text_of_bare (simple : Simple) : simple.bare.text = simple.text :=
  text_bare.simple simple

theorem Complex.text_of_bare (complex : Complex) : complex.bare.text = complex.text :=
  congrArg (" ".intercalate ·) (text_bare.chain complex.components)

theorem Simple.continued_bare (suffix : String) (simple : Simple) :
    simple.bare.continued suffix = (simple.continued suffix).map Simple.bare := by
  have refused (simple : Simple) :
      (Except.error (.unsuffixable simple.bare.text) : Except NestingFailure Simple) =
        Except.map Simple.bare (.error (.unsuffixable simple.text)) := by
    rw [text_of_bare]
    rfl
  cases simple
  case pseudo pseudo =>
    obtain ⟨name, isClass, _ | argument, _ | ⟨alternatives, span⟩⟩ := pseudo
    · rfl
    · exact refused (.pseudo ⟨name, isClass, none, some ⟨alternatives, span⟩⟩)
    · rfl
    · exact refused (.pseudo ⟨name, isClass, some argument, some ⟨alternatives, span⟩⟩)
  all_goals rfl

theorem Compound.continued_bare (suffix : String) (compound : Compound) :
    Compound.continued suffix compound.bare = (compound.continued suffix).map Compound.bare := by
  induction compound with
  | nil => rfl
  | cons simple rest ih =>
    rcases rest with _ | ⟨next, rest⟩
    · simp only [Compound.bare, Compound.continued, Simple.continued_bare]
      cases simple.continued suffix <;> rfl
    · simp only [Compound.bare, Compound.continued] at ih ⊢
      rw [ih]
      cases Compound.continued suffix (next :: rest) <;> rfl

theorem Complex.joined_bare (suffix : Option String) (others : Compound) (outer : Complex) :
    outer.bare.joined suffix others.bare = (outer.joined suffix others).map Complex.bare := by
  have text := Complex.text_of_bare outer
  unfold joined
  rw [text, Complex.bare, Chain.splitSubject?_bare]
  cases Chain.splitSubject? outer.components with
  | none => rfl
  | some split =>
    have made (subject : Compound) :
        (⟨split.1.bare ++ [.compound (subject.bare ++ others.bare)], false⟩ : Complex) =
          Complex.bare ⟨split.1 ++ [.compound (subject ++ others)], outer.lineBreak⟩ := by
      simp [Complex.bare, Chain.bare_append, Chain.bare, Compound.bare_eq_map]
    cases suffix with
    | none => exact congrArg Except.ok (made split.2)
    | some suffix =>
      simp only [Option.map_some, Prod.map, Compound.continued_bare]
      cases Compound.continued suffix split.2 with
      | error => rfl
      | ok subject => exact congrArg Except.ok (made subject)

theorem Complex.mapM_joined_bare (suffix : Option String) (others : Compound)
    (parents : Alternatives) :
    parents.bare.mapM (joined suffix others.bare) =
      (parents.mapM (joined suffix others)).map Alternatives.bare := by
  have bare : Alternatives.bare = List.map Complex.bare := funext Alternatives.bare_eq_map
  rw [bare]
  induction parents with
  | nil => rfl
  | cons outer rest ih =>
    rw [List.map_cons, List.mapM_cons, List.mapM_cons, joined_bare, ih]
    cases outer.joined suffix others with
    | error => rfl
    | ok => cases rest.mapM (joined suffix others) <;> rfl

theorem Compound.underParents_bare (parents : Alternatives) (members : Compound) :
    underParents parents.bare members.bare = (underParents parents members).map Alternatives.bare := by
  rcases members with _ | ⟨first, others⟩
  · rfl
  · cases first
    case parent suffix =>
      have joins := Complex.mapM_joined_bare suffix others parents
      rcases suffix with _ | suffix
      -- a lone `&` takes the parents as they are and joins nothing
      · cases others with
        | nil => rfl
        | cons => exact joins
      · exact joins
    case pseudo pseudo =>
      obtain ⟨_, _, _, _ | ⟨_, _⟩⟩ := pseudo <;> rfl
    all_goals rfl

theorem Complex.bare_append (first second : Complex) :
    (first ++ second).bare = first.bare ++ second.bare := by
  cases first
  cases second
  simp [Complex.bare, Chain.bare_append]

theorem Alternatives.bare_append (first second : Alternatives) :
    Alternatives.bare (first ++ second) = first.bare ++ second.bare := by
  simp [bare_eq_map]

theorem Alternatives.followedBy_bare (first second : Alternatives) :
    followedBy first.bare second.bare = Alternatives.bare (first.followedBy second) := by
  simp only [followedBy, bare_eq_map, List.flatMap_map, List.map_flatMap, List.map_map,
    Function.comp_def, Complex.bare_append]

theorem Chain.hasDoubledCombinator_bare (chain : Chain) :
    hasDoubledCombinator chain.bare = chain.hasDoubledCombinator := by
  induction chain with
  | nil => rfl
  | cons component rest ih =>
    rcases component with _ | _
    · exact ih
    · rcases rest with _ | ⟨_ | _, _⟩
      · rfl
      · exact ih
      · rfl

theorem Alternatives.combinatorWarnings_bare (alternatives : Alternatives) :
    combinatorWarnings alternatives.bare = alternatives.combinatorWarnings := by
  have doubled (complex : Complex) : Chain.hasDoubledCombinator complex.bare.components =
      Chain.hasDoubledCombinator complex.components :=
    Chain.hasDoubledCombinator_bare complex.components
  simp only [combinatorWarnings, bare_eq_map, List.filter_map, List.map_map, Function.comp_def,
    doubled, Complex.text_of_bare]

/-! ### Rules -/

open Diagnosed (Mirrors)

/-- Expanding a bare selector in bare alternatives mirrors expanding the selector itself. -/
theorem nest_bare (parents : Alternatives) :
    Induction
      (fun simple => ∀ place place', Mirrors Simple.bare
        (simple.bare.nest parents.bare place') (simple.nest parents place))
      (fun compound => ∀ place place', Mirrors Compound.bare
        (Compound.nest parents.bare place' compound.bare) (compound.nest parents place))
      (fun chain => ∀ place place', Mirrors Alternatives.bare
        (Chain.nest parents.bare place' chain.bare) (chain.nest parents place))
      (fun alternatives => ∀ implicit place place', Mirrors Alternatives.bare
        (Alternatives.nest parents.bare implicit place' alternatives.bare)
        (Alternatives.nest parents implicit place alternatives)) := by
  constructor
  case parent | placeholder | typeName | universal | className | idName | attr | plainPseudo =>
    intros
    rfl
  case noMember | noComponent | noAlternative =>
    intros
    rfl
  case nestingPseudo =>
    intro name isClass argument alternatives span ih place place'
    simp only [Simple.bare, Simple.nest, mentionsParent_bare.alternatives]
    -- the nested list reports its own span, and the bare one the place around it
    split
    · refine (ih false _ _).bind fun expanded => ?_
      exact (Mirrors.warn (Alternatives.combinatorWarnings_bare expanded)).bind fun _ => .pure _
    · exact .pure (Simple.pseudo ⟨name, isClass, argument, some ⟨alternatives, span⟩⟩)
  case member =>
    intro simple rest ih ihRest place place'
    refine (ih _ _).bind fun simple => ?_
    exact (ihRest _ _).bind fun rest => .pure (simple :: rest)
  case compound =>
    intro members rest ih ihRest place place'
    refine (ih _ _).bind fun members => ?_
    refine (Mirrors.ofFailure (Compound.underParents_bare parents members) _ _).bind fun first => ?_
    refine (ihRest _ _).bind fun rest => ?_
    rw [Alternatives.followedBy_bare]
    exact .pure (first.followedBy rest)
  case combinator =>
    intro kind rest ih place place'
    refine (ih _ _).bind fun rest => ?_
    have single : [Complex.single (.combinator kind)] =
        Alternatives.bare [.single (.combinator kind)] := rfl
    rw [single, Alternatives.followedBy_bare]
    exact .pure (Alternatives.followedBy [.single (.combinator kind)] rest)
  case alternative =>
    intro components lineBreak rest ih ihRest implicit place place'
    simp only [Alternatives.bare, Alternatives.nest, mentionsParent_bare.chain]
    have onward {mirror expansions : Diagnosed Alternatives}
        (first : Mirrors Alternatives.bare mirror expansions) :
        Mirrors Alternatives.bare
          (mirror >>= fun expansions =>
            Alternatives.nest parents.bare implicit place' (Alternatives.bare rest) >>= fun rest =>
              return expansions ++ rest)
          (expansions >>= fun expansions =>
            Alternatives.nest parents implicit place rest >>= fun rest =>
              return expansions ++ rest) := by
      refine first.bind fun expansions => (ihRest _ _ _).bind fun rest => ?_
      rw [← Alternatives.bare_append]
      exact .pure (expansions ++ rest)
    split
    · exact onward (ih _ _)
    · split
      · have single : [⟨Chain.bare components, false⟩] =
            Alternatives.bare [⟨components, lineBreak⟩] := rfl
        rw [single, Alternatives.followedBy_bare]
        exact onward (.pure (Alternatives.followedBy parents [⟨components, lineBreak⟩]))
      · exact onward (.pure ([⟨components, lineBreak⟩] : Alternatives))

end Selectors
