import Selectors.Proofs.Nesting.Outcome

/-!
# The expansions of a nested rule

An alternative that mentions `&` has an expansion for each way to assign a parent
alternative to every compound that `&` leads, and the expansions stand in the
lexicographic order of the assignments. What such a compound becomes is said here by
rules, without reference to how the expansions are computed.
-/
namespace Selectors

/-! ### Assignments -/

/-- All lists of so many values, in lexicographic order: the first entry varies slowest. -/
def assignments {α : Type} (values : List α) : Nat → List (List α)
  | 0 => [[]]
  | count + 1 => values.flatMap fun value => (assignments values count).map (value :: ·)

theorem mem_assignments_iff {α : Type} {values assigned : List α} {count : Nat} :
    assigned ∈ assignments values count ↔
      assigned.length = count ∧ ∀ value ∈ assigned, value ∈ values := by
  induction count generalizing assigned with
  | zero => simp +contextual [assignments]
  | succ count ih =>
    rcases assigned with _ | ⟨first, rest⟩
    · simp [assignments]
    · simp [assignments, ih, and_left_comm]

/-- If each value comes before the later ones, each assignment comes before the later ones
in the order of lists. -/
theorem assignments_pairwise {α : Type} {before : α → α → Prop} {values : List α}
    (sorted : values.Pairwise before) (count : Nat) :
    (assignments values count).Pairwise (List.Lex before) := by
  induction count with
  | zero => exact List.pairwise_singleton _ _
  | succ count ih =>
    refine List.pairwise_flatMap.mpr ⟨fun value _ => ?_, ?_⟩
    · exact List.pairwise_map.mpr (ih.imp .cons)
    · refine sorted.imp fun earlier assigned member assigned' member' => ?_
      obtain ⟨_, _, rfl⟩ := List.mem_map.mp member
      obtain ⟨_, _, rfl⟩ := List.mem_map.mp member'
      exact .rel earlier

/-! ### What becomes of the parts of an alternative -/

/-- How many compounds `&` leads. -/
def Chain.references : Chain → Nat
  | [] => 0
  | .compound members :: rest =>
    if Compound.isReference members then references rest + 1 else references rest
  | .combinator _ :: rest => references rest

/-- What a member becomes: a nested list that mentions `&` is replaced by its own
expansion, which is never implicit, and any other member is kept. -/
inductive Simple.Rewritten (parent : SelectorList) : Simple → Simple → Prop
  | nested {name : String} {isClass : Bool} {argument : Option String} {list list' : SelectorList} :
      list.mentionsParent = true → (list.nest (some parent) false).result = .ok list' →
      Rewritten parent (.pseudo ⟨name, isClass, argument, some list⟩)
        (.pseudo ⟨name, isClass, argument, some list'⟩)
  | kept {simple : Simple} : simple.isParent = true ∨ simple.mentionsParent = false →
      Rewritten parent simple simple

/-- What a suffix does to the subject it lands on: the last member takes it. -/
inductive Compound.Suffixed : Option String → Compound → Compound → Prop
  | none (subject : Compound) : Suffixed none subject subject
  | last {suffix : String} (before : Compound) {last last' : Simple} :
      last.continued suffix = .ok last' →
      Suffixed (some suffix) (before ++ [last]) (before ++ [last'])
  | empty (suffix : String) : Suffixed (some suffix) [] []

/-- What a compound that `&` leads becomes when a parent alternative is assigned to it: a
bare `&` is replaced by it as it stands, and otherwise its subject takes the suffix and then
the other members. -/
inductive Compound.Replaced (parent : SelectorList) (outer : Complex) : Compound → Chain → Prop
  | bare : Replaced parent outer [.parent none] outer.components
  | joined {suffix : Option String} {others others' subject subject' : Compound} {before : Chain} :
      ¬(suffix = none ∧ others = []) → outer.components = before ++ [.compound subject] →
      Suffixed suffix subject subject' → List.Forall₂ (Simple.Rewritten parent) others others' →
      Replaced parent outer (.parent suffix :: others) (before ++ [.compound (subject' ++ others')])

/-- What a chain becomes when the parent alternatives are assigned, in order, to the
compounds that `&` leads. -/
inductive Chain.Filled (parent : SelectorList) : List Complex → Chain → Chain → Prop
  | nil : Filled parent [] [] []
  | combinator {assigned : List Complex} (kind : Combinator) {rest rest' : Chain} :
      Filled parent assigned rest rest' →
      Filled parent assigned (.combinator kind :: rest) (.combinator kind :: rest')
  | kept {assigned : List Complex} {members members' : Compound} {rest rest' : Chain} :
      Compound.isReference members = false →
      List.Forall₂ (Simple.Rewritten parent) members members' → Filled parent assigned rest rest' →
      Filled parent assigned (.compound members :: rest) (.compound members' :: rest')
  | replaced {outer : Complex} {assigned : List Complex} {members : Compound}
      {part rest rest' : Chain} :
      Compound.Replaced parent outer members part → Filled parent assigned rest rest' →
      Filled parent (outer :: assigned) (.compound members :: rest) (part ++ rest')

/-- The expansion of a chain that belongs to an assignment. A line end follows if one follows
an alternative that is assigned. -/
structure Chain.ExpandsTo (parent : SelectorList) (chain : Chain) (assigned : List Complex)
    (expansion : Complex) : Prop where
  filled : Chain.Filled parent assigned chain expansion.components
  lineBreak : expansion.lineBreak = assigned.any Complex.lineBreak

/-- The expansions of an alternative: one for every assignment if it mentions `&`; otherwise
one below every parent alternative where parents are implicit, and itself elsewhere. -/
inductive Complex.Expansions (parent : SelectorList) (implicit : Bool) (complex : Complex) :
    Alternatives → Prop
  | filled {expansions : Alternatives} : Chain.mentionsParent complex.components = true →
      List.Forall₂ (Chain.ExpandsTo parent complex.components)
        (assignments parent.alternatives (Chain.references complex.components)) expansions →
      Expansions parent implicit complex expansions
  | below : Chain.mentionsParent complex.components = false → implicit = true →
      Expansions parent implicit complex (parent.alternatives.map fun outer =>
        ⟨outer.components ++ complex.components, complex.lineBreak || outer.lineBreak⟩)
  | kept : Chain.mentionsParent complex.components = false → implicit = false →
      Expansions parent implicit complex [complex]

/-! ### The outcome follows the rules -/

section

variable {parent : SelectorList}

theorem Simple.rewritten_of_expansion? {simple simple' : Simple}
    (expanded : simple.expansion? parent.alternatives = some simple') :
    Simple.Rewritten parent simple simple' := by
  rcases simple with _ | _ | ⟨name, isClass, argument, _ | ⟨alternatives, span⟩⟩ | _ | _ | _ | _ | _
  case parent =>
    obtain rfl := Option.some.inj expanded
    exact .kept (Or.inl rfl)
  case pseudo.some =>
    rw [expansion?_nesting] at expanded
    split at expanded
    next mentions =>
      obtain ⟨alternatives', nested, rfl⟩ := Option.map_eq_some_iff.mp expanded
      exact .nested mentions (SelectorList.result_nest_eq_ok_iff.mpr ⟨_, nested, rfl⟩)
    next free =>
      obtain rfl := Option.some.inj expanded
      exact .kept (Or.inr (by simpa [Simple.mentionsParent] using free))
  all_goals
    obtain rfl := Option.some.inj expanded
    exact .kept (Or.inr rfl)

theorem Compound.rewritten_of_expansion? {members members' : Compound}
    (expanded : members.expansion? parent.alternatives = some members') :
    List.Forall₂ (Simple.Rewritten parent) members members' := by
  induction members generalizing members' with
  | nil =>
    obtain rfl := Option.some.inj expanded
    exact .nil
  | cons simple rest ih =>
    rw [expansion?_cons] at expanded
    obtain ⟨simple', rest', isFirst, expandedRest, rfl⟩ := Option.map₂_eq_some_iff.mp expanded
    exact .cons (Simple.rewritten_of_expansion? isFirst) (ih expandedRest)

theorem Compound.suffixed_of_continued {suffix : String} {subject subject' : Compound}
    (continued : subject.continued suffix = .ok subject') :
    Compound.Suffixed (some suffix) subject subject' := by
  rcases List.eq_nil_or_concat' subject with rfl | ⟨before, last, rfl⟩
  · cases continued
    exact .empty suffix
  · rw [continued_append_singleton] at continued
    cases isLast : last.continued suffix with
    | error => simp [isLast, Except.map] at continued
    | ok last' =>
      simp only [isLast, Except.map, Except.ok.injEq] at continued
      obtain rfl := continued
      exact .last before isLast

theorem Compound.suffixed_of_suffixed? {suffix : Option String} {subject subject' : Compound}
    (suffixed : subject.suffixed? suffix = some subject') :
    Compound.Suffixed suffix subject subject' := by
  cases suffix with
  | none =>
    obtain rfl := Option.some.inj suffixed
    exact .none subject
  | some suffix =>
    apply suffixed_of_continued
    unfold suffixed? at suffixed
    cases continued : subject.continued suffix with
    | error =>
      simp [continued, Except.toOption] at suffixed
    | ok => simpa [continued, Except.toOption] using suffixed

/-- What is put in the place of an `&` follows the rule for compounds that `&` leads. -/
theorem Compound.replaced_of_placed? {outer : Complex} {part : Chain} {suffix : Option String}
    {others others' : Compound}
    (rewritten : List.Forall₂ (Simple.Rewritten parent) others others')
    (placed : Chain.placed? suffix others' outer.components = some part) :
    Compound.Replaced parent outer (.parent suffix :: others) part := by
  by_cases bare : suffix = none ∧ others = []
  · obtain ⟨rfl, rfl⟩ := bare
    cases rewritten
    obtain rfl := Option.some.inj placed
    exact .bare
  · have more : ¬(suffix.isNone && others'.isEmpty) = true := by
      intro both
      obtain ⟨rfl, rfl⟩ : suffix = none ∧ others' = [] := by simpa using both
      cases rewritten
      exact bare ⟨rfl, rfl⟩
    rw [Chain.placed?, if_neg more] at placed
    obtain ⟨⟨before, subject⟩, split, suffixed⟩ := Option.bind_eq_some_iff.mp placed
    obtain ⟨subject', isSubject, rfl⟩ := Option.map_eq_some_iff.mp suffixed
    exact .joined bare (Chain.splitSubject?_eq_some_iff.mp split) (suffixed_of_suffixed? isSubject)
      rewritten

/-- What stands for a compound that `&` leads is, for each parent alternative in order, what
it becomes when that is assigned to it. -/
theorem Component.replaced_of_expansions? {suffix : Option String} {others : Compound}
    {parts : Alternatives}
    (expanded : Component.expansions? parent.alternatives (.compound (.parent suffix :: others)) =
      some parts) :
    List.Forall₂ (fun outer part =>
        Compound.Replaced parent outer (.parent suffix :: others) part.components ∧
          part.lineBreak = outer.lineBreak)
      parent.alternatives parts := by
  obtain ⟨members', expandedMembers, under⟩ := Option.bind_eq_some_iff.mp expanded
  rw [Compound.expansion?_cons] at expandedMembers
  obtain ⟨simple', others', isFirst, expandedOthers, rfl⟩ :=
    Option.map₂_eq_some_iff.mp expandedMembers
  obtain rfl := Option.some.inj isFirst
  rw [Compound.underParents_parent] at under
  refine (forall₂_of_mapM under).imp fun outer part isPart => ?_
  obtain ⟨components, placed, rfl⟩ := Option.map_eq_some_iff.mp isPart
  exact ⟨Compound.replaced_of_placed? (Compound.rewritten_of_expansion? expandedOthers) placed, rfl⟩

-- A component that is no reference stands for itself, with its members rewritten.
theorem Component.expansions?_compound {members : Compound} {parts : Alternatives}
    (plain : members.isReference = false)
    (expanded : Component.expansions? parent.alternatives (.compound members) = some parts) :
    ∃ members', List.Forall₂ (Simple.Rewritten parent) members members' ∧
      parts = [.single (.compound members')] := by
  obtain ⟨members', expandedMembers, under⟩ := Option.bind_eq_some_iff.mp expanded
  have rewritten := Compound.rewritten_of_expansion? expandedMembers
  have plain' : Compound.isReference members' = false := by
    cases rewritten with
    | nil => rfl
    | cons first _ =>
      cases first with
      | nested => rfl
      | kept => simpa using plain
  rw [Compound.underParents_of_not_reference plain'] at under
  exact ⟨members', rewritten, (Option.some.inj under).symm⟩

/-- Chains of two lists in a row, where the first belong to values and the second to
assignments, belong to the assignments with one more value. -/
theorem Alternatives.forall₂_followedBy {α : Type} {values : List α} {assigned : List (List α)}
    {first second : Alternatives} {onFirst : α → Complex → Prop}
    {onSecond both : List α → Complex → Prop}
    (firsts : List.Forall₂ onFirst values first) (seconds : List.Forall₂ onSecond assigned second)
    (together : ∀ value part rest expansion, onFirst value part → onSecond rest expansion →
      both (value :: rest) (part ++ expansion)) :
    List.Forall₂ both (values.flatMap fun value => assigned.map (value :: ·))
      (first.followedBy second) :=
  List.rel_flatMap firsts fun value part isPart =>
    List.rel_map (fun rest expansion isExpansion => together value part rest expansion isPart isExpansion)
      seconds

-- A component that is kept in every expansion.
theorem Chain.expandsTo_single {component component' : Component} {rest : Chain}
    {assigned : List (List Complex)} {others : Alternatives}
    (expands : List.Forall₂ (rest.ExpandsTo parent) assigned others)
    (kept : ∀ assigned rest', Chain.Filled parent assigned rest rest' →
      Chain.Filled parent assigned (component :: rest) (component' :: rest')) :
    List.Forall₂ (Chain.ExpandsTo parent (component :: rest)) assigned
      (Alternatives.followedBy [.single component'] others) := by
  rw [Alternatives.single_followedBy, List.forall₂_map_right_iff]
  refine expands.imp fun assigned expansion expandsTo => ⟨kept _ _ expandsTo.filled, ?_⟩
  simpa [Complex.single] using expandsTo.lineBreak

/-- The expansions of a chain belong, in order, to the assignments. -/
theorem Chain.expandsTo_of_expansions? {chain : Chain} {expansions : Alternatives}
    (expanded : chain.expansions? parent.alternatives = some expansions) :
    List.Forall₂ (chain.ExpandsTo parent) (assignments parent.alternatives chain.references)
      expansions := by
  induction chain generalizing expansions with
  | nil =>
    obtain rfl := Option.some.inj expanded
    exact .cons ⟨.nil, rfl⟩ .nil
  | cons component rest ih =>
    rw [expansions?_cons] at expanded
    obtain ⟨parts, others, isParts, expandedRest, rfl⟩ := Option.map₂_eq_some_iff.mp expanded
    have expandsRest := ih expandedRest
    rcases component with members | kind
    · cases leads : Compound.isReference members with
      | false =>
        obtain ⟨members', rewritten, rfl⟩ := Component.expansions?_compound leads isParts
        rw [references, leads]
        exact expandsTo_single expandsRest fun _ _ filled => .kept leads rewritten filled
      | true =>
        rw [references, leads]
        obtain ⟨suffix, others, rfl⟩ := Compound.isReference_iff.mp leads
        have replaced := Component.replaced_of_expansions? isParts
        refine Alternatives.forall₂_followedBy replaced expandsRest
          fun outer part assigned expansion isPart expandsTo => ⟨?_, ?_⟩
        · exact .replaced isPart.1 expandsTo.filled
        · simp [isPart.2, expandsTo.lineBreak]
    · obtain rfl := Option.some.inj isParts
      exact expandsTo_single expandsRest fun _ _ filled => .combinator kind filled

theorem Complex.expansions_of_expansions? {implicit : Bool} {complex : Complex}
    {expansions : Alternatives}
    (expanded : complex.expansions? parent.alternatives implicit = some expansions) :
    complex.Expansions parent implicit expansions := by
  unfold expansions? at expanded
  split at expanded
  next mentions => exact .filled mentions (Chain.expandsTo_of_expansions? expanded)
  next free =>
    have free : Chain.mentionsParent complex.components = false := by simpa using free
    cases implicit with
    | true =>
      obtain rfl := Option.some.inj expanded
      rw [Alternatives.followedBy_single]
      have below : (fun outer : Complex => outer ++ complex) = fun outer =>
          ⟨outer.components ++ complex.components, complex.lineBreak || outer.lineBreak⟩ := by
        funext outer
        rw [Bool.or_comm]
        rfl
      rw [below]
      exact .below free rfl
    | false =>
      obtain rfl := Option.some.inj expanded
      exact .kept free rfl

end

namespace SelectorList

/-- The selector of a nested rule holds, for each alternative of the rule in order, the
expansions of that alternative. -/
theorem nest_expansions (child parent list : SelectorList) (implicit : Bool)
    (nested : (child.nest (some parent) implicit).result = .ok list) :
    ∃ expansions : List Alternatives,
      List.Forall₂ (Complex.Expansions parent implicit) child.alternatives expansions ∧
        list.alternatives = expansions.flatten := by
  obtain ⟨alternatives, expanded, rfl⟩ := result_nest_eq_ok_iff.mp nested
  rw [Alternatives.expansions?_eq] at expanded
  obtain ⟨expansions, mapped, rfl⟩ := Option.map_eq_some_iff.mp expanded
  refine ⟨expansions, ?_, rfl⟩
  exact (forall₂_of_mapM mapped).imp fun _ _ => Complex.expansions_of_expansions?

/-- The argument `(& .z)` of `:not`, with `&` standing for these alternatives. -/
def notBelow (alternatives : Alternatives) : Simple :=
  .pseudo ⟨"not", true, none,
    some ⟨alternatives.map (· ++ ⟨[.compound [.className "z"]], false⟩), none⟩⟩

/-- The rule `&-x:not(& .z) > &, .w`. -/
def twoReferences : SelectorList :=
  ⟨[⟨[.compound [.parent (some "-x"), notBelow [⟨[.compound [.parent none]], false⟩]],
      .combinator .child, .compound [.parent none]], true⟩,
    ⟨[.compound [.className "w"]], false⟩], none⟩

/-- The rule `.a, .b + .c`, with a line end after the comma. -/
def twoParents : SelectorList :=
  ⟨[⟨[.compound [.className "a"]], true⟩,
    ⟨[.compound [.className "b"], .combinator .nextSibling, .compound [.className "c"]], false⟩],
    none⟩

/-- What the first rule expands to in the second: `.a-x:not(…) > .a`,
`.a-x:not(…) > .b + .c`, `.b + .c-x:not(…) > .a`, `.b + .c-x:not(…) > .b + .c`, `.a .w` and
`.b + .c .w`. -/
def sixExpansions : SelectorList :=
  let a : Simple := .className "a"
  let b : Simple := .className "b"
  let c : Simple := .className "c"
  let outside := notBelow twoParents.alternatives
  let afterB (subject : Compound) : Chain :=
    [.compound [b], .combinator .nextSibling, .compound subject]
  ⟨[⟨[.compound [.className "a-x", outside], .combinator .child, .compound [a]], true⟩,
    ⟨[.compound [.className "a-x", outside], .combinator .child] ++ afterB [c], true⟩,
    ⟨afterB [.className "c-x", outside] ++ [.combinator .child, .compound [a]], true⟩,
    ⟨afterB [.className "c-x", outside] ++ .combinator .child :: afterB [c], false⟩,
    ⟨[.compound [a], .compound [.className "w"]], true⟩,
    ⟨afterB [c] ++ [.compound [.className "w"]], false⟩], none⟩

theorem twoReferences_expansions :
    (twoReferences.nest (some twoParents) true).result = .ok sixExpansions ∧
      ∃ expansions : List Alternatives,
        List.Forall₂ (Complex.Expansions twoParents true) twoReferences.alternatives expansions ∧
          sixExpansions.alternatives = expansions.flatten := by
  have nested : (twoReferences.nest (some twoParents) true).result = .ok sixExpansions := by rfl
  exact ⟨nested, nest_expansions twoReferences twoParents sixExpansions true nested⟩

end SelectorList

end Selectors
