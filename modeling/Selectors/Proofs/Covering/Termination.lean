import Selectors.Proofs.Covering.Cursor

/-!
# The walk stays in bounds and ends

At the head of every turn the cursor stands within both chains. From there a turn finds every place
that it looks up, asks about smaller chains alone, and ends the walk or goes further in the first
chain. So the walk ends, and so does the asking: the answers are those of covering, and are reached
no more inquiries deep than both chains are big together.
-/
namespace Selectors

namespace Chain

/-! ### Places and what is left from there -/

section

variable {chain rest : Chain} {component : Component} {start place : Nat}

theorem getElem?_of_drop (left : chain.drop place = component :: rest) :
    chain[place]? = some component := by
  have here := congrArg (·[0]?) left
  simpa using here

theorem drop_succ_of_drop (left : chain.drop place = component :: rest) :
    chain.drop (place + 1) = rest := by
  rw [← List.drop_drop, left]
  rfl

theorem length_of_drop (left : chain.drop place = component :: rest) :
    place + rest.length + 1 = chain.length := by
  have lengths := congrArg List.length left
  simp only [List.length_drop, List.length_cons] at lengths
  omega

theorem extract_succ (ordered : start ≤ place) (left : chain.drop place = component :: rest) :
    chain.extract start (place + 1) = chain.extract start place ++ [component] := by
  have here : (chain.drop start)[place - start]? = some component := by
    rw [List.getElem?_drop, Nat.add_sub_cancel' ordered, getElem?_of_drop left]
  rw [List.extract_eq_take_drop, List.extract_eq_take_drop, Nat.succ_sub ordered,
    List.take_add_one, here]
  rfl

theorem between_succ (ordered : start ≤ place) (inside : place ≤ chain.length) :
    chain.between (start + 1) place = (chain.extract start place).tail := by
  unfold between
  rcases Nat.lt_or_eq_of_le ordered with more | rfl
  · rw [if_pos ⟨more, inside⟩, List.extract_eq_take_drop, List.extract_eq_take_drop]
    rw [← List.drop_one, List.drop_take, List.drop_drop]
    congr 1
  · simp

theorem between_append_sublist (start : Nat) (left : chain.drop place = component :: rest) :
    (chain.between start place ++ [component]).Sublist chain := by
  have whole : chain = chain.take place ++ component :: rest := by
    rw [← left, List.take_append_drop]
  have before : (chain.between start place).Sublist (chain.take place) := by
    unfold between
    split
    · rw [List.extract_eq_take_drop, ← List.drop_take]
      exact List.drop_sublist _ _
    · exact List.nil_sublist _
  have parts := before.append (.cons_cons component (List.nil_sublist rest))
  rwa [← whole] at parts

theorem exists_drop_eq_cons (inside : place < chain.length) :
    ∃ component rest, chain.drop place = component :: rest :=
  ⟨_, _, List.drop_eq_getElem_cons inside⟩

theorem afterFirst?_cons (test : Compound → Chain → Bool) (passed rest : Chain)
    (component next : Component) :
    afterFirst? test passed (component :: next :: rest) =
      if component.members?.any (test · passed.tail) then some (next :: rest)
      else afterFirst? test (passed ++ [component]) (next :: rest) := by
  cases component <;> rfl

end

/-! ### The search -/

section

variable {answers : Chain → Chain → Bool} {bound : Nat}

theorem gives_inquireBefore {compound : Compound} {chain rest : Chain} {component : Component}
    {start place : Nat} (ordered : start ≤ place) (left : chain.drop place = component :: rest)
    (within : compound.size + chain.size ≤ bound) :
    (inquireBefore compound chain start (place + 1)).Gives answers (Below bound)
      (component.members?.any
        (CompoundRule.ofAnswers answers compound · (chain.extract start place).tail)) := by
  have inside := length_of_drop left
  rw [inquireBefore, Inquiry.difference_eq (Nat.le_add_left 1 place), Nat.add_sub_cancel]
  simp only [Inquiry.done_bind]
  rw [Inquiry.component_eq (getElem?_of_drop left)]
  simp only [Inquiry.done_bind]
  cases component with
  | combinator kind => exact Inquiry.gives_done false
  | compound members =>
    have smaller := size_le_of_sublist (between_append_sublist (start + 1) left)
    simp only [between_succ ordered (by omega : place ≤ chain.length)] at smaller ⊢
    exact Compound.gives_inquire (by omega)

/-- The search stops past the place where it stands and within the chain, and the walk on what is
left would go on from there, or from nowhere if that is the end. -/
theorem gives_inquireAfter {compound : Compound} {chain : Chain} {start place : Nat}
    (ordered : start ≤ place) (inside : place < chain.length)
    (within : compound.size + chain.size ≤ bound) :
    ∃ stop, (inquireAfter compound chain start (place + 1)).Gives answers (Below bound) stop ∧
      place < stop ∧ stop ≤ chain.length ∧
      afterFirst? (CompoundRule.ofAnswers answers compound) (chain.extract start place)
        (chain.drop place) = if stop = chain.length then none else some (chain.drop stop) := by
  -- on what is left of the chain; a component that is passed over comes to stand above the next
  induction h : chain.length - place generalizing place with
  | zero => omega
  | succ n ih =>
    obtain ⟨component, rest, left⟩ := exists_drop_eq_cons inside
    rw [inquireAfter]
    by_cases more : place + 1 < chain.length
    · rw [if_pos more]
      obtain ⟨next, rest', left'⟩ := exists_drop_eq_cons more
      obtain rfl := (drop_succ_of_drop left).symm.trans left'
      have asked : (inquireBefore compound chain start (place + 1)).Gives answers (Below bound) _ :=
        gives_inquireBefore ordered left within
      rw [left, afterFirst?_cons]
      cases accepted : component.members?.any
          (CompoundRule.ofAnswers answers compound · (chain.extract start place).tail) with
      | true =>
        rw [accepted] at asked
        refine ⟨place + 1, asked.bind (Inquiry.gives_done _), by omega, by omega, ?_⟩
        rw [if_pos rfl, if_neg (by omega), left']
      | false =>
        rw [accepted] at asked
        obtain ⟨stop, gives, before, atMost, found⟩ := ih (by omega) more (by omega)
        refine ⟨stop, asked.bind gives, by omega, atMost, ?_⟩
        rw [if_neg Bool.false_ne_true, ← extract_succ ordered left, ← left', found]
    · -- the last component is not searched: something has to be left for the rest of the first chain
      rw [if_neg more]
      have last := length_of_drop left
      obtain rfl : rest = [] := List.eq_nil_of_length_eq_zero (by omega)
      refine ⟨place + 1, Inquiry.gives_done _, by omega, by omega, ?_⟩
      rw [if_pos (by omega), left]
      cases component <;> rfl

/-! ### The turns -/

theorem walk_of_short {rule : CompoundRule} {chain₁ chain₂ : Chain}
    (short : chain₁.length = 0 ∨ chain₂.length = 0 ∨ chain₂.length < chain₁.length) :
    walk rule chain₁ chain₂ = false := by
  rcases chain₁ with _ | ⟨first | kind, _ | ⟨second | kind', rest⟩⟩
  case cons.compound.nil =>
    obtain rfl : chain₂ = [] := List.eq_nil_of_length_eq_zero (by simpa using short)
    rfl
  case cons.compound.cons.compound | cons.compound.cons.combinator =>
    simp only [List.length_cons] at short
    rw [walk, decide_eq_false (by omega), Bool.false_and]
  all_goals rfl

/-- A turn that ends the walk has the verdict of what is left of it; any other goes further in the
first chain, stays within both, and leaves the verdict to the next ones. -/
def Follows (rule : CompoundRule) (chain₁ chain₂ : Chain) (cursor : Cursor) : Turn → Prop
  | .verdict covers => walk rule (chain₁.drop cursor.first) (chain₂.drop cursor.second) = covers
  | .onward next =>
    cursor.first < next.first ∧ next.first ≤ chain₁.length ∧ next.second ≤ chain₂.length ∧
      walk rule (chain₁.drop cursor.first) (chain₂.drop cursor.second) =
        walk rule (chain₁.drop next.first) (chain₂.drop next.second)

/-- The last compound of the first chain is compared with the subject of the second, wherever the
walk stands, and is told all the components in between. -/
theorem gives_lastTurn {last : Compound} {chain : Chain} {start : Nat}
    (inside : start < chain.length) (within : last.size + chain.size ≤ bound) :
    (lastTurn last chain start).Gives answers (Below bound)
      (.verdict (walk (CompoundRule.ofAnswers answers) [.compound last] (chain.drop start))) := by
  have subject : (chain.drop start).getLast? = chain.getLast? := by
    rw [List.getLast?_drop, if_neg (by omega)]
  unfold lastTurn
  split
  next members isLast =>
    rw [isLast, List.getLast?_eq_some_iff] at subject
    obtain ⟨above, parts⟩ := subject
    have lengths := congrArg List.length parts
    simp only [List.length_drop, List.length_append, List.length_singleton] at lengths
    have cut : chain.extract start (chain.length - 1) = above := by
      rw [List.extract_eq_take_drop, parts]
      exact List.take_left' (by omega)
    rw [Inquiry.difference_eq (by omega), Inquiry.done_bind,
      Inquiry.slice_eq (by omega) (by omega), Inquiry.done_bind, cut, parts, walk,
      splitSubject?_append_compound]
    have smaller := size_le_of_sublist (List.drop_sublist start chain)
    rw [parts] at smaller
    exact (Compound.gives_inquire (by omega)).bind (Inquiry.gives_done _)
  next noSubject =>
    have noSubject : splitSubject? (chain.drop start) = none := by
      unfold splitSubject?
      rw [subject]
      split
      next members isLast => exact (noSubject members isLast).elim
      next => rfl
    rw [walk, noSubject]
    exact Inquiry.gives_done _

/-- What comes after the compounds that were found is compared as the walk compares it, and is
passed if the walk goes on. -/
theorem follows_stepTurn {rule : CompoundRule} {chain₁ chain₂ rest others : Chain} {cursor : Cursor}
    {members : Compound} {next₁ next₂ : Component} {after : Nat}
    (left₁ : chain₁.drop cursor.first = .compound members :: next₁ :: rest)
    (left₂ : chain₂.drop after = next₂ :: others)
    (found : afterFirst? (rule members) [] (chain₂.drop cursor.second) = some (next₂ :: others))
    (enough : rest.length + 2 ≤ (chain₂.drop cursor.second).length) :
    Follows rule chain₁ chain₂ cursor
      (stepTurn cursor (rest.length + 2) (chain₂.drop cursor.second).length after next₁ next₂) := by
  have length₁ := length_of_drop left₁
  have length₂ := length_of_drop left₂
  have past₁ := drop_succ_of_drop left₁
  rw [List.length_cons] at length₁
  rcases next₁ with first | kind₁ <;> rcases next₂ with second | kind₂ <;> dsimp only [stepTurn]
  case compound.compound =>
    refine ⟨Nat.lt_succ_self _, by dsimp only; omega, by dsimp only; omega, ?_⟩
    rw [left₁, past₁, left₂, walk, decide_eq_true enough, found]
    rfl
  case compound.combinator =>
    have past₂ := drop_succ_of_drop left₂
    have onto : walk rule (.compound members :: .compound first :: rest) (chain₂.drop cursor.second) =
        (kind₂ == .child && walk rule (.compound first :: rest) others) := by
      rw [walk, decide_eq_true enough, found]
      rfl
    split
    next child =>
      refine ⟨Nat.lt_succ_self _, by dsimp only; omega, by dsimp only; omega, ?_⟩
      rw [left₁, past₁, past₂, onto, child]
      rfl
    next sibling =>
      rw [Follows, left₁, onto, beq_false_of_ne sibling, Bool.false_and]
  case combinator.compound =>
    rw [Follows, left₁, walk, found]
    rcases kind₁ <;> simp [Step.covers, step]
  case combinator.combinator =>
    have past₂ := drop_succ_of_drop left₂
    have onto : walk rule (.compound members :: .combinator kind₁ :: rest)
        (chain₂.drop cursor.second) =
          (Step.covers (some kind₁) (some kind₂) &&
            !(rest.length = 1 && 3 < (chain₂.drop cursor.second).length) && walk rule rest others) := by
      rw [walk, decide_eq_true enough, found]
      rfl
    -- the walk asks whether one component is left past the step, the turn counts the two before it
    have last : decide (rest.length + 2 = 3) = decide (rest.length = 1) :=
      decide_eq_decide.mpr (by omega)
    rw [last]
    split
    next refused =>
      rw [Follows, left₁, onto]
      rcases Bool.or_eq_true_iff.mp refused with uncovered | long
      · rw [Bool.not_eq_true'] at uncovered
        rw [uncovered, Bool.false_and, Bool.false_and]
      · rw [long, Bool.not_true, Bool.and_false, Bool.false_and]
    next taken =>
      obtain ⟨covered, short⟩ := Bool.or_eq_false_iff.mp (Bool.not_eq_true _ ▸ taken)
      refine ⟨by dsimp only; omega, by dsimp only; omega, by dsimp only; omega, ?_⟩
      rw [Bool.not_eq_false'] at covered
      rw [left₁, drop_succ_of_drop past₁, past₂, onto, covered, short]
      rfl

/-- From within both chains a turn comes to an outcome, with every access in range and every question
smaller. -/
theorem gives_turn (answers : Chain → Chain → Bool) {chain₁ chain₂ : Chain} {cursor : Cursor}
    (first : cursor.first ≤ chain₁.length) (second : cursor.second ≤ chain₂.length) :
    ∃ outcome, (turn chain₁ chain₂ cursor).Gives answers (Below (chain₁.size + chain₂.size)) outcome ∧
      Follows (CompoundRule.ofAnswers answers) chain₁ chain₂ cursor outcome := by
  rw [turn, Inquiry.difference_eq first, Inquiry.difference_eq second]
  simp only [Inquiry.done_bind]
  split
  next short =>
    refine ⟨.verdict false, Inquiry.gives_done _, walk_of_short ?_⟩
    simpa only [List.length_drop] using short
  next enough =>
    obtain ⟨component, rest, left⟩ := exists_drop_eq_cons (by omega : cursor.first < chain₁.length)
    rw [Inquiry.component_eq (getElem?_of_drop left), Inquiry.done_bind]
    have length₁ := length_of_drop left
    cases component with
    | combinator kind =>
      refine ⟨.verdict false, Inquiry.gives_done _, ?_⟩
      rw [Follows, left]
      rfl
    | compound members =>
      have here := size_lt_of_mem (List.mem_of_getElem? (getElem?_of_drop left))
      dsimp only
      split
      next single =>
        obtain rfl : rest = [] := List.eq_nil_of_length_eq_zero (by omega)
        refine ⟨_, gives_lastTurn (by omega) (by omega), ?_⟩
        rw [Follows, left]
      next several =>
        obtain ⟨stop, gives, before, atMost, found⟩ : ∃ stop,
          (inquireAfter members chain₂ cursor.second (cursor.second + 1)).Gives answers
            (Below (chain₁.size + chain₂.size)) stop ∧ _ :=
          gives_inquireAfter (Nat.le_refl cursor.second) (by omega) (by omega)
        rw [List.extract_eq_take_drop, Nat.sub_self, List.take_zero] at found
        -- more than one component is left, so there is one after the compound; and if the search
        -- stopped before the end there is one there
        obtain ⟨next₁, rest, rfl⟩ := List.exists_cons_of_length_pos (by omega : 0 < rest.length)
        have left₁ : chain₁[cursor.first + 1]? = some next₁ :=
          getElem?_of_drop (drop_succ_of_drop left)
        rw [List.length_cons] at length₁
        by_cases ended : stop = chain₂.length
        · refine ⟨.verdict false, gives.bind ?_, ?_⟩
          · rw [if_pos ended]
            exact Inquiry.gives_done _
          · rw [if_pos ended] at found
            rw [Follows, left]
            cases next₁ <;> rw [walk, found, Option.any_none, Bool.and_false]
        · rw [if_neg ended] at found
          obtain ⟨next₂, others, left₂⟩ := exists_drop_eq_cons (by omega : stop < chain₂.length)
          rw [left₂] at found
          have remaining : chain₁.length - cursor.first = rest.length + 2 := by omega
          refine ⟨_, gives.bind ?_, follows_stepTurn left left₂ found ?_⟩
          · rw [if_neg ended, Inquiry.component_eq left₁, Inquiry.done_bind,
              Inquiry.component_eq (getElem?_of_drop left₂), Inquiry.done_bind, remaining,
              List.length_drop]
            exact Inquiry.gives_done _
          · rw [List.length_drop]
            omega

/-! ### The run -/

/-- In as many turns as it may need, the walk comes to its verdict. -/
theorem gives_inquireWithin (answers : Chain → Chain → Bool) {chain₁ chain₂ : Chain} {turns : Nat}
    {cursor : Cursor} (first : cursor.first ≤ chain₁.length)
    (second : cursor.second ≤ chain₂.length) (enough : chain₁.length - cursor.first < turns) :
    (inquireWithin chain₁ chain₂ turns cursor).Gives answers (Below (chain₁.size + chain₂.size))
      (walk (CompoundRule.ofAnswers answers) (chain₁.drop cursor.first)
        (chain₂.drop cursor.second)) := by
  induction turns generalizing cursor with
  | zero => omega
  | succ turns ih =>
    obtain ⟨outcome, gives, follows⟩ := gives_turn answers first second
    refine gives.bind ?_
    cases outcome with
    | verdict covers => exact follows.symm
    | onward next =>
      obtain ⟨further, first', second', same⟩ := follows
      rw [same]
      exact ih first' second' (by omega)

/-- Asking comes to what the answers make of the rule. -/
theorem gives_inquire (answers : Chain → Chain → Bool) (chain₁ chain₂ : Chain) :
    (inquire chain₁ chain₂).Gives answers (Below (chain₁.size + chain₂.size))
      (coversBy (CompoundRule.ofAnswers answers) chain₁ chain₂) := by
  unfold inquire coversBy
  cases chain₁.subject?.isSome && chain₂.subject?.isSome with
  | true =>
    have start : Cursor.first ⟨0, 0⟩ ≤ chain₁.length ∧ Cursor.second ⟨0, 0⟩ ≤ chain₂.length :=
      ⟨Nat.zero_le _, Nat.zero_le _⟩
    exact gives_inquireWithin answers start.1 start.2 (Nat.lt_succ_self _)
  | false => exact Inquiry.gives_done _

end

/-! ### Asking again and again -/

/-- Covering is what the rule makes of its own answers. -/
theorem covers_eq_ofAnswers :
    Chain.covers = coversBy (CompoundRule.ofAnswers Chain.covers) := by
  have lists : Alternatives.covers = ListRule.ofAnswers Chain.covers := Alternatives.covers_eq
  rw [CompoundRule.ofAnswers, ← lists]
  rfl

/-- Answers each question by the same inquiry, so many inquiries deep at the most. -/
def coversWithin? : Nat → Chain → Chain → Option Bool
  | 0, _, _ => none
  | depth + 1, chain₁, chain₂ => (inquire chain₁ chain₂).valueBy? (coversWithin? depth)

theorem coversWithin?_eq {depth : Nat} {chain₁ chain₂ : Chain} (enough : Below depth chain₁ chain₂) :
    coversWithin? depth chain₁ chain₂ = some (Chain.covers chain₁ chain₂) := by
  induction depth generalizing chain₁ chain₂ with
  | zero => cases enough
  | succ depth ih =>
    rw [covers_eq_ofAnswers]
    refine (gives_inquire Chain.covers chain₁ chain₂).valueBy? fun first second smaller => ?_
    exact ih (Nat.lt_of_lt_of_le smaller (Nat.le_of_lt_succ enough))

/-! ### Every turn -/

/-- The cursors at which the walk begins a turn, if its questions have these answers. -/
inductive Reaches (answers : Chain → Chain → Bool) (chain₁ chain₂ : Chain) : Cursor → Prop
  | start : Reaches answers chain₁ chain₂ ⟨0, 0⟩
  | onward {cursor next : Cursor} (reached : Reaches answers chain₁ chain₂ cursor)
      (taken : (turn chain₁ chain₂ cursor).Gives answers (fun _ _ => True) (.onward next)) :
      Reaches answers chain₁ chain₂ next

theorem Reaches.within {answers : Chain → Chain → Bool} {chain₁ chain₂ : Chain} {cursor : Cursor}
    (reached : Reaches answers chain₁ chain₂ cursor) :
    cursor.first ≤ chain₁.length ∧ cursor.second ≤ chain₂.length := by
  induction reached with
  | start => exact ⟨Nat.zero_le _, Nat.zero_le _⟩
  | onward _ taken ih =>
    obtain ⟨outcome, gives, follows⟩ := gives_turn answers ih.1 ih.2
    obtain rfl := gives.unique taken
    exact ⟨follows.2.1, follows.2.2.1⟩

/-- Whatever the chains are and however its questions are answered, the walk begins each turn within
both chains. No turn, and so not the whole walk either, takes a length from a shorter one or looks
for a place that is not there; each that does not end the walk goes further in the first chain; and
what is asked about is smaller, both chains together, than the two that are walked through. So the
asking ends as well, and what it comes to is covering. -/
theorem inquire_in_bounds (chain₁ chain₂ : Chain) (answers : Chain → Chain → Bool) :
    (∀ cursor, Reaches answers chain₁ chain₂ cursor →
      cursor.first ≤ chain₁.length ∧ cursor.second ≤ chain₂.length ∧
        ∃ outcome,
          (turn chain₁ chain₂ cursor).Gives answers (Below (chain₁.size + chain₂.size)) outcome ∧
            ∀ next, outcome = .onward next → cursor.first < next.first) ∧
    (inquire chain₁ chain₂).Gives answers (Below (chain₁.size + chain₂.size))
      (coversBy (CompoundRule.ofAnswers answers) chain₁ chain₂) ∧
    ∀ depth, Below depth chain₁ chain₂ →
      coversWithin? depth chain₁ chain₂ = some (Chain.covers chain₁ chain₂) := by
  refine ⟨fun cursor reached => ?_, gives_inquire answers chain₁ chain₂, fun _ => coversWithin?_eq⟩
  obtain ⟨first, second⟩ := reached.within
  obtain ⟨outcome, gives, follows⟩ := gives_turn answers first second
  refine ⟨first, second, outcome, gives, ?_⟩
  rintro next rfl
  exact follows.1

/-- The chain `.x :is(.a .b):not(.c.d)`. -/
def belowX : Chain :=
  [.compound [.className "x"], .compound [.pseudo ⟨"is", true, none, some
      ⟨[⟨[.compound [.className "a"], .compound [.className "b"]], false⟩], none⟩⟩,
    .pseudo ⟨"not", true, none, some
      ⟨[⟨[.compound [.className "c", .className "d"]], false⟩], none⟩⟩]]

/-- The chain `.x .a .b:not(.c)`. -/
def belowXAndA : Chain :=
  [.compound [.className "x"], .compound [.className "a"], .compound [.className "b",
    .pseudo ⟨"not", true, none, some ⟨[⟨[.compound [.className "c"]], false⟩], none⟩⟩]]

/-- The second turn asks whether `.a .b` covers `.a .b:not(.c)` and whether `.c` covers `.c.d`. -/
theorem belowX_in_bounds :
    Reaches Chain.covers belowX belowXAndA ⟨1, 1⟩ ∧ Below 25 belowX belowXAndA ∧
      (∃ outcome, (turn belowX belowXAndA ⟨1, 1⟩).Gives Chain.covers
        (Below (belowX.size + belowXAndA.size)) outcome) ∧
      coversWithin? 25 belowX belowXAndA = some true := by
  have found : inquireAfter [.className "x"] belowXAndA 0 1 = .done 1 := by
    rw [inquireAfter]
    rfl
  have taken : turn belowX belowXAndA ⟨0, 0⟩ = .done (.onward ⟨1, 1⟩) := by
    change inquireAfter [.className "x"] belowXAndA 0 1 >>= _ = _
    rw [found]
    rfl
  have reached : Reaches Chain.covers belowX belowXAndA ⟨1, 1⟩ := by
    refine .onward .start ?_
    rw [taken]
    exact Inquiry.gives_done _
  have small : Below 25 belowX belowXAndA := by decide
  have covered : Chain.covers belowX belowXAndA = true := by decide
  obtain ⟨turns, -, ends⟩ := inquire_in_bounds belowX belowXAndA Chain.covers
  obtain ⟨-, -, outcome, gives, -⟩ := turns ⟨1, 1⟩ reached
  exact ⟨reached, small, ⟨outcome, gives⟩, covered ▸ ends 25 small⟩

end Chain

end Selectors
