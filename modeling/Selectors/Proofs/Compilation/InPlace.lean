import Selectors.Compilation
import Selectors.Proofs.Nesting.Located

/-!
# Warnings given in place

Nesting gathers its warnings, and a compilation then gives those that are news. Here nesting looks
at the log and adds to it at each warning, in the middle of the recursion, as does everything that
runs in the same compilation. A failure in a nested list is placed on the way back. Both ways come
to the same results, logs and news, from every log.
-/
namespace Selectors

/-! ### Sessions -/

/-- The log of a compilation, and the warnings that were news in the course of a request. -/
structure Session where
  log : WarningLog
  news : List Warning

namespace Session

/-- Gives a warning, if it has not been given before. -/
def warn (session : Session) (warning : Warning) : Session :=
  if session.log.has warning then session
  else ⟨session.log.insert warning, session.news ++ [warning]⟩

def warnAll (session : Session) (warnings : List Warning) : Session := warnings.foldl warn session

/-- To give warnings one by one is to give them together. -/
theorem warnAll_eq (session : Session) (warnings : List Warning) :
    session.warnAll warnings =
      ⟨(session.log.give warnings).1, session.news ++ (session.log.give warnings).2⟩ := by
  induction warnings generalizing session with
  | nil => simp [warnAll]
  | cons warning rest ih =>
    have first : session.warnAll (warning :: rest) = (session.warn warning).warnAll rest := rfl
    rw [first, ih, WarningLog.give_cons, warn]
    split <;> simp

theorem warnAll_append (session : Session) (first second : List Warning) :
    session.warnAll (first ++ second) = (session.warnAll first).warnAll second :=
  List.foldl_append

end Session

/-! ### Computations in a session -/

/-- A computation that may fail, and that gives its warnings as it goes. -/
abbrev Compiling := ExceptT Error (StateM Session)

namespace Compiling

variable {α β : Type}

def warnOnce (warning : Warning) : Compiling Unit := modify (·.warn warning)

def ofFailure (place : Option Span) : Except NestingFailure α → Compiling α
  | .ok value => return value
  | .error failure => throw (.nesting failure place)

/-- Places an error of the computation that has no place yet. -/
def located (place : Option Span) (computation : Compiling α) : Compiling α :=
  ExceptT.adapt (Error.located place) computation

/-- In every session the computation comes to the same result, and leaves the session with the
warnings given. -/
def Performs (computation : Compiling α) (diagnosed : Diagnosed α) : Prop :=
  ∀ session : Session,
    computation.run.run session = (diagnosed.result, session.warnAll diagnosed.warnings)

theorem performs_pure (value : α) : Performs (pure value) (pure value) := fun _ => rfl

theorem performs_ofFailure (place : Option Span) (result : Except NestingFailure α) :
    Performs (ofFailure place result) (Diagnosed.ofFailure place result) := by
  intro session
  cases result <;> rfl

theorem Performs.bind {computation : Compiling α} {diagnosed : Diagnosed α}
    {next : α → Compiling β} {next' : α → Diagnosed β} (first : Performs computation diagnosed)
    (rest : ∀ value, Performs (next value) (next' value)) :
    Performs (computation >>= next) (diagnosed >>= next') := by
  intro session
  obtain ⟨_ | value, warnings⟩ := diagnosed
  · -- after a failure the rest does not run, and the warnings given before it stay
    rw [ExceptT.run_bind, StateT.run_bind, first session]
    rfl
  · rw [ExceptT.run_bind, StateT.run_bind, first session, Diagnosed.bind_ok, Session.warnAll_append]
    exact rest value (session.warnAll warnings)

theorem Performs.located {computation : Compiling α} {diagnosed : Diagnosed α}
    (performs : Performs computation diagnosed) (place : Option Span) :
    Performs (computation.located place) (diagnosed.located place) := by
  intro session
  have ran : (computation.located place).run.run session =
      (((computation.run.run session).1.mapError (Error.located place)),
        (computation.run.run session).2) := rfl
  rw [ran, performs session]
  rfl

theorem performs_warn (warnings : List Warning) :
    Performs (warnings.forM warnOnce) (Diagnosed.warn warnings) := by
  induction warnings with
  | nil => exact performs_pure ()
  | cons warning rest ih =>
    have first : Performs (warnOnce warning) (Diagnosed.warn [warning]) := fun _ => rfl
    exact first.bind fun _ => ih

end Compiling

/-! ### Nesting in a session -/

mutual

def Simple.nestInPlace (parents : Alternatives) (place : Option Span) : Simple → Compiling Simple
  | .pseudo ⟨name, isClass, argument, some ⟨alternatives, span⟩⟩ =>
    if Alternatives.mentionsParent alternatives then do
      let list ← Compiling.located place do
        let alternatives ← Alternatives.nestInPlace parents false span alternatives
        (Alternatives.combinatorWarnings alternatives).forM Compiling.warnOnce
        return ⟨alternatives, span⟩
      return .pseudo ⟨name, isClass, argument, some list⟩
    else
      return .pseudo ⟨name, isClass, argument, some ⟨alternatives, span⟩⟩
  | simple => return simple
termination_by structural simple => simple

def Compound.nestInPlace (parents : Alternatives) (place : Option Span) :
    Compound → Compiling Compound
  | [] => return []
  | simple :: rest => do
    let simple ← Simple.nestInPlace parents place simple
    let rest ← Compound.nestInPlace parents place rest
    return simple :: rest
termination_by structural compound => compound

def Chain.nestInPlace (parents : Alternatives) (place : Option Span) : Chain → Compiling Alternatives
  | [] => return [.nil]
  | .compound members :: rest => do
    let members ← Compound.nestInPlace parents place members
    let first ← Compiling.ofFailure place (Compound.underParents parents members)
    let rest ← Chain.nestInPlace parents place rest
    return Alternatives.followedBy first rest
  | .combinator kind :: rest => do
    let rest ← Chain.nestInPlace parents place rest
    return Alternatives.followedBy [.single (.combinator kind)] rest
termination_by structural chain => chain

def Alternatives.nestInPlace (parents : Alternatives) (implicit : Bool) (place : Option Span) :
    Alternatives → Compiling Alternatives
  | [] => return []
  | ⟨components, lineBreak⟩ :: rest => do
    let expansions ←
      if Chain.mentionsParent components then
        Chain.nestInPlace parents place components
      else if implicit then
        pure (Alternatives.followedBy parents [⟨components, lineBreak⟩])
      else
        pure [⟨components, lineBreak⟩]
    let rest ← Alternatives.nestInPlace parents implicit place rest
    return expansions ++ rest
termination_by structural alternatives => alternatives

end

/-- Nesting in a session performs what nesting gathers. -/
theorem performs_nest (parents : Alternatives) :
    Induction
      (fun simple => ∀ place,
        Compiling.Performs (simple.nestInPlace parents place) (simple.nest parents place))
      (fun members => ∀ place,
        Compiling.Performs (members.nestInPlace parents place) (members.nest parents place))
      (fun chain => ∀ place,
        Compiling.Performs (chain.nestInPlace parents place) (chain.nest parents place))
      (fun alternatives => ∀ implicit place,
        Compiling.Performs (Alternatives.nestInPlace parents implicit place alternatives)
          (Alternatives.nest parents implicit place alternatives)) := by
  constructor
  case parent | placeholder | typeName | universal | className | idName | attr | plainPseudo =>
    intros
    exact Compiling.performs_pure _
  case noMember | noComponent | noAlternative =>
    intros
    exact Compiling.performs_pure _
  case nestingPseudo =>
    intro name isClass argument alternatives span ih place
    rw [Simple.nestInPlace, Simple.nest_eq_located]
    split
    · -- the list is warned about when the lists in it have been
      have inner := (ih false span).bind fun expanded =>
        (Compiling.performs_warn (Alternatives.combinatorWarnings expanded)).bind fun _ =>
          Compiling.performs_pure (⟨expanded, span⟩ : SelectorList)
      exact (inner.located place).bind fun list => Compiling.performs_pure _
    · exact Compiling.performs_pure _
  case member =>
    intro simple rest ih ihRest place
    rw [Compound.nestInPlace, Compound.nest]
    refine (ih place).bind fun first => ?_
    exact (ihRest place).bind fun others => Compiling.performs_pure _
  case compound =>
    intro members rest ih ihRest place
    rw [Chain.nestInPlace, Chain.nest]
    refine (ih place).bind fun members => ?_
    refine (Compiling.performs_ofFailure place _).bind fun first => ?_
    exact (ihRest place).bind fun others => Compiling.performs_pure _
  case combinator =>
    intro kind rest ih place
    rw [Chain.nestInPlace, Chain.nest]
    exact (ih place).bind fun others => Compiling.performs_pure _
  case alternative =>
    intro components lineBreak rest ih ihRest implicit place
    -- whatever the alternative comes to, the rest is nested and follows it
    have others (expansions : Alternatives) := (ihRest implicit place).bind fun others =>
      Compiling.performs_pure (expansions ++ others)
    rw [Alternatives.nestInPlace, Alternatives.nest]
    split
    · exact (ih place).bind others
    · split <;> exact (Compiling.performs_pure _).bind others

def SelectorList.nestInPlace (child : SelectorList) (parent : Option SelectorList)
    (implicit : Bool) : Compiling SelectorList :=
  match parent with
  | none =>
    if child.mentionsParent then throw (.nesting .topLevel child.span) else return child
  | some parent => do
    let alternatives ←
      Alternatives.nestInPlace parent.alternatives implicit child.span child.alternatives
    (Alternatives.combinatorWarnings alternatives).forM Compiling.warnOnce
    return ⟨alternatives, child.span⟩

theorem SelectorList.performs_nest (child : SelectorList) (parent : Option SelectorList)
    (implicit : Bool) :
    Compiling.Performs (child.nestInPlace parent implicit) (child.nest parent implicit) := by
  cases parent with
  | none =>
    simp only [nestInPlace, nest, atTopLevel]
    split
    · exact fun _ => rfl
    · exact Compiling.performs_pure child
  | some parent =>
    refine ((Selectors.performs_nest parent.alternatives).alternatives _ implicit _).bind ?_
    intro alternatives
    exact (Compiling.performs_warn _).bind fun _ => Compiling.performs_pure _

/-! ### Requests in a session -/

def Request.inPlace : Request → Compiling (Option SelectorList)
  | warn warning => do
    Compiling.warnOnce warning
    return none
  | nest child parent implicit => return some (← child.nestInPlace parent implicit)
  | restart => return none

theorem Request.performs_outcome (request : Request) :
    Compiling.Performs request.inPlace request.outcome := by
  cases request with
  | warn warning => exact (Compiling.performs_warn [warning]).bind fun _ => Compiling.performs_pure _
  | nest child parent implicit =>
    exact (child.performs_nest parent implicit).bind fun _ => Compiling.performs_pure _
  | restart => exact Compiling.performs_pure none

namespace WarningLog

/-- Serves one request, with the log at hand from the beginning to the end. -/
def serveInPlace (log : WarningLog) : Request → WarningLog × Response
  | .restart => (.empty, ⟨.ok none, []⟩)
  | request =>
    let (result, session) := request.inPlace.run.run ⟨log, []⟩
    (session.log, ⟨result, session.news⟩)

theorem serveInPlace_eq (log : WarningLog) (request : Request) :
    log.serveInPlace request = log.serve request := by
  have performed := request.performs_outcome ⟨log, []⟩
  rw [Session.warnAll_eq] at performed
  cases request with
  | restart => rfl
  | warn | nest => simp only [serveInPlace, serve, performed, List.nil_append]

end WarningLog

end Selectors
