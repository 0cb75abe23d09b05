import Mathlib.Data.List.DropRight
import Mathlib.Data.List.Nodup
import Selectors.Proofs.Compilation.InPlace
import Selectors.Proofs.Nesting.Warned

/-!
# Runs of a compilation

Through any run of requests, failing ones and new beginnings included, the log holds the keys of the
warnings given since the compilation began, and none of them was given twice. No warning that is due
is left out, and what a request comes to does not depend on what was given before.
-/
namespace Selectors

namespace WarningLog

/-! ### Giving warnings -/

theorem nodup_give (log : WarningLog) (warnings : List Warning) (nodup : log.keys.Nodup) :
    (log.give warnings).1.keys.Nodup := by
  induction warnings generalizing log with
  | nil => exact nodup
  | cons warning rest ih =>
    rw [give_cons]
    split
    next => exact ih log nodup
    next news =>
      refine ih (log.insert warning) (List.nodup_cons.mpr ⟨?_, nodup⟩)
      simpa [has] using news

theorem subset_keys_give (log : WarningLog) (warnings : List Warning) :
    log.keys ⊆ (log.give warnings).1.keys := by
  rw [keys_give]
  exact List.subset_append_right _ _

/-- What is given is in the log, new or not. -/
theorem key_mem_give {log : WarningLog} {warnings : List Warning} {warning : Warning}
    (given : warning ∈ warnings) : warning.key ∈ (log.give warnings).1.keys := by
  induction warnings generalizing log with
  | nil => cases given
  | cons first rest ih =>
    rw [give_cons]
    rcases List.mem_cons.mp given with rfl | later
    · -- either an earlier warning had the key, or the warning itself puts it into the log
      split
      next known => exact subset_keys_give log rest (by simpa [has] using known)
      next => exact subset_keys_give (log.insert warning) rest List.mem_cons_self
    · split <;> exact ih later

/-- The log is an account of what was given: it holds the keys of that, each of them once. -/
structure Records (log : WarningLog) (given : List Warning) : Prop where
  keys : log.keys = (given.map Warning.key).reverse
  nodup : log.keys.Nodup

namespace Records

variable {log : WarningLog} {given : List Warning}

theorem empty : Records .empty [] := ⟨rfl, List.nodup_nil⟩

theorem give (records : Records log given) (warnings : List Warning) :
    Records (log.give warnings).1 (given ++ (log.give warnings).2) where
  keys := by rw [keys_give, records.keys, List.map_append, List.reverse_append]
  nodup := nodup_give log warnings records.nodup

theorem mem_keys_iff (records : Records log given) {key : String} :
    key ∈ log.keys ↔ ∃ warning ∈ given, warning.key = key := by
  rw [records.keys, List.mem_reverse, List.mem_map]

theorem nodup_given (records : Records log given) : (given.map Warning.key).Nodup := by
  have nodup := records.nodup
  rwa [records.keys, List.nodup_reverse] at nodup

end Records

end WarningLog

/-! ### Runs -/

def Request.isRestart : Request → Bool
  | restart => true
  | _ => false

theorem Request.outcome_nest (child : SelectorList) (parent : Option SelectorList)
    (implicit : Bool) :
    (Request.nest child parent implicit).outcome =
      ⟨(child.nest parent implicit).result.map some, (child.nest parent implicit).warnings⟩ := by
  rw [Request.outcome]
  cases ran : child.nest parent implicit with
  | mk result warnings => cases result <;> simp [Except.map]

namespace WarningLog

theorem serve_of_not_restart (log : WarningLog) {request : Request}
    (continues : request.isRestart = false) :
    log.serve request =
      ((log.give request.outcome.warnings).1,
        ⟨request.outcome.result, (log.give request.outcome.warnings).2⟩) := by
  cases request with
  | restart => cases continues
  | warn | nest => rfl

theorem result_serve_nest_iff {log : WarningLog} {child : SelectorList}
    {parent : Option SelectorList} {implicit : Bool} {list : SelectorList} :
    (log.serve (.nest child parent implicit)).2.result = .ok (some list) ↔
      (child.nest parent implicit).result = .ok list := by
  rw [serve_of_not_restart log rfl, Request.outcome_nest]
  cases (child.nest parent implicit).result <;> simp [Except.map]

theorem serveAll_append (log : WarningLog) (first second : List Request) :
    log.serveAll (first ++ second) =
      (((log.serveAll first).1.serveAll second).1,
        (log.serveAll first).2 ++ ((log.serveAll first).1.serveAll second).2) := by
  induction first generalizing log with
  | nil => rfl
  | cons request rest ih =>
    simp only [List.cons_append, serveAll, ih]

theorem length_serveAll (log : WarningLog) (requests : List Request) :
    (log.serveAll requests).2.length = requests.length := by
  induction requests generalizing log with
  | nil => rfl
  | cons request rest ih => simp only [serveAll, List.length_cons, ih]

end WarningLog

namespace Compilation

/-- The log after the requests have been served in a new compilation. -/
def logAfter (requests : List Request) : WarningLog := (WarningLog.empty.serveAll requests).1

/-- The requests, each with the answer to it. -/
def turns (requests : List Request) : List (Request × Response) :=
  requests.zip (WarningLog.empty.serveAll requests).2

/-- What was news since the compilation last began anew. -/
def newsSinceRestart (requests : List Request) : List Warning :=
  ((turns requests).rtakeWhile fun turn => !turn.1.isRestart).flatMap fun turn => turn.2.news

theorem logAfter_concat (before : List Request) (request : Request) :
    logAfter (before ++ [request]) = ((logAfter before).serve request).1 := by
  rw [logAfter, WarningLog.serveAll_append]
  rfl

theorem turns_concat (before : List Request) (request : Request) :
    turns (before ++ [request]) =
      turns before ++ [(request, ((logAfter before).serve request).2)] := by
  rw [turns, WarningLog.serveAll_append,
    List.zip_append (WarningLog.length_serveAll .empty before).symm]
  rfl

theorem newsSinceRestart_concat (before : List Request) (request : Request) :
    newsSinceRestart (before ++ [request]) =
      if request.isRestart then []
      else newsSinceRestart before ++ ((logAfter before).serve request).2.news := by
  rw [newsSinceRestart, turns_concat, List.rtakeWhile_concat]
  cases request.isRestart <;> simp [newsSinceRestart]

/-- One request keeps the account. -/
theorem records_serve {log : WarningLog} {given : List Warning} (records : log.Records given)
    (request : Request) :
    (log.serve request).1.Records
      (if request.isRestart then [] else given ++ (log.serve request).2.news) := by
  split
  next restarts =>
    cases request with
    | restart => exact .empty
    | warn | nest => cases restarts
  next continues =>
    rw [WarningLog.serve_of_not_restart log (Bool.eq_false_iff.mpr continues)]
    exact records.give request.outcome.warnings

/-- Through every run the log is an account of what was news since the compilation began anew. -/
theorem records_logAfter (requests : List Request) :
    (logAfter requests).Records (newsSinceRestart requests) := by
  -- the last request is the one that the account is kept through
  induction requests using List.reverseRecOn with
  | nil => exact .empty
  | append_singleton before request ih =>
    rw [logAfter_concat, newsSinceRestart_concat]
    exact records_serve ih request

/-! ### Warnings that are due -/

/-- The log has the warning for every alternative with two combinators side by side. -/
def Accounts (log : WarningLog) (list : SelectorList) : Prop :=
  ∀ complex ∈ list.alternatives,
    ∀ kind kind', [.combinator kind, .combinator kind'] <:+: complex.components →
      complex.combinatorWarning.key ∈ log.keys

/-- Once a rule has been nested, the log has all that is due for its list and for the lists
expanded on the way. -/
theorem accounts_serve_nest (log : WarningLog) {child parent list : SelectorList} {implicit : Bool}
    (nested : (child.nest (some parent) implicit).result = .ok list) :
    Accounts (log.serve (.nest child (some parent) implicit)).1 list ∧
      ∀ inner ∈ child.referringWithin, ∃ expanded,
        (inner.nest (some parent) false).result = .ok expanded ∧
          Accounts (log.serve (.nest child (some parent) implicit)).1 expanded := by
  obtain ⟨others, expandedAs, warnings⟩ := SelectorList.warnings_nest nested
  have accounts (any : SelectorList) (among : any ∈ others ++ [list]) :
      Accounts (log.serve (.nest child (some parent) implicit)).1 any := by
    intro complex member kind kind' doubled
    refine WarningLog.key_mem_give ?_
    have due : complex.combinatorWarning ∈ any.combinatorWarnings :=
      SelectorList.mem_combinatorWarnings member
        (Chain.hasDoubledCombinator_iff.mpr ⟨kind, kind', doubled⟩)
    rw [Request.outcome_nest, warnings]
    exact List.mem_flatMap.mpr ⟨any, among, due⟩
  -- the list of the rule is warned about last, and those expanded on the way before it
  refine ⟨accounts list (by simp), fun inner within => ?_⟩
  obtain ⟨expanded, among, isExpanded⟩ := exists_mem_of_mapM expandedAs within
  exact ⟨expanded, Diagnosed.value?_eq_some_iff.mp isExpanded,
    accounts expanded (List.mem_append_left [list] among)⟩

/-- At every step of every run, the log holds the keys of what was news since the compilation last
began anew, and no key was news twice. Once a rule has been nested, nothing that is due for its list
or for a list expanded on the way is missing. What a request comes to does not depend on the log, be
it at hand in the middle of nesting or not. -/
theorem warnings_exact (before : List Request) (request : Request) (after : List Request) :
    (WarningLog.empty.serveAll (before ++ request :: after)).2[before.length]? =
      some ((logAfter before).serve request).2 ∧
    (logAfter before).serveInPlace request =
      (logAfter (before ++ [request]), ((logAfter before).serve request).2) ∧
    (∀ key, key ∈ (logAfter (before ++ [request])).keys ↔
      ∃ warning ∈ newsSinceRestart (before ++ [request]), warning.key = key) ∧
    ((newsSinceRestart (before ++ [request])).map Warning.key).Nodup ∧
    (∀ child parent implicit list, request = .nest child (some parent) implicit →
      ((logAfter before).serve request).2.result = .ok (some list) →
        Accounts (logAfter (before ++ [request])) list ∧
        ∀ inner ∈ child.referringWithin, ∃ expanded,
          (inner.nest (some parent) false).result = .ok expanded ∧
            Accounts (logAfter (before ++ [request])) expanded) ∧
    ((logAfter before).serveInPlace request).2.result =
      (WarningLog.empty.serveInPlace request).2.result := by
  refine ⟨?_, ?_, fun key => (records_logAfter _).mem_keys_iff, (records_logAfter _).nodup_given,
    ?_, ?_⟩
  · rw [WarningLog.serveAll_append, List.getElem?_append_right (by rw [WarningLog.length_serveAll]),
      WarningLog.length_serveAll, Nat.sub_self]
    rfl
  · rw [WarningLog.serveInPlace_eq, logAfter_concat]
  · rintro child parent implicit list rfl succeeded
    rw [logAfter_concat]
    exact accounts_serve_nest (logAfter before) (WarningLog.result_serve_nest_iff.mp succeeded)
  · rw [WarningLog.serveInPlace_eq, WarningLog.serveInPlace_eq]
    cases request <;> rfl

/-- The list `.a >`. -/
def aThenChild : SelectorList :=
  ⟨[⟨[.compound [.className "a"], .combinator .child], false⟩], none⟩

/-- The list `& > .b`. -/
def referenceThenB : SelectorList :=
  ⟨[⟨[.compound [.parent none], .combinator .child, .compound [.className "b"]], false⟩], none⟩

/-- The list `& > :not(& > .b)`. -/
def referenceThenNot : SelectorList :=
  ⟨[⟨[.compound [.parent none], .combinator .child,
    .compound [.pseudo ⟨"not", true, none, some referenceThenB⟩]], false⟩], none⟩

/-- Nested in `.a >`, both lists of `& > :not(& > .b)` are warned about. -/
theorem referenceThenNot_warned :
    "[selector] \".a > > .b\" has consecutive combinators and is not valid CSS" ∈
        (logAfter [.restart, .nest referenceThenNot (some aThenChild) true]).keys ∧
      "[selector] \".a > > :not(.a > > .b)\" has consecutive combinators and is not valid CSS" ∈
        (logAfter [.restart, .nest referenceThenNot (some aThenChild) true]).keys := by
  obtain ⟨-, -, -, -, due, -⟩ :=
    warnings_exact [.restart] (.nest referenceThenNot (some aThenChild) true) []
  obtain ⟨outer, within⟩ := due referenceThenNot aThenChild true _ rfl rfl
  obtain ⟨expanded, isExpanded, inner⟩ := within referenceThenB List.mem_cons_self
  obtain rfl := Except.ok.inj isExpanded
  exact ⟨inner _ List.mem_cons_self .child .child ⟨[.compound [.className "a"]], _, rfl⟩,
    outer _ List.mem_cons_self .child .child ⟨[.compound [.className "a"]], _, rfl⟩⟩

end Compilation

end Selectors
