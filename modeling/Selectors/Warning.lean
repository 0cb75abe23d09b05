/-!
# Warnings

A warning is about output that is accepted and is still not valid CSS. Within
one compilation each is given once: a log keeps the keys of those given, and
two warnings with one key count as the same.
-/
namespace Selectors

/-- What is warned about, and the part of the compiler that noticed. -/
structure Warning where
  component : String
  message : String
deriving DecidableEq, Repr

namespace Warning

/-- What a log remembers of a warning. -/
def key (warning : Warning) : String := "[" ++ warning.component ++ "] " ++ warning.message

/-- The line that the user sees. -/
def text (warning : Warning) : String := "[Sable " ++ warning.component ++ "] " ++ warning.message

end Warning

/-- The keys of the warnings given since the compilation began. -/
structure WarningLog where
  keys : List String
deriving DecidableEq, Repr

namespace WarningLog

def empty : WarningLog := ⟨[]⟩

def has (log : WarningLog) (warning : Warning) : Bool := log.keys.contains warning.key

def insert (log : WarningLog) (warning : Warning) : WarningLog := ⟨warning.key :: log.keys⟩

/-- Notes all the warnings, and returns those that are news. -/
def give (log : WarningLog) : List Warning → WarningLog × List Warning
  | [] => (log, [])
  | warning :: rest =>
    if log.has warning then log.give rest
    else
      let (log, news) := (log.insert warning).give rest
      (log, warning :: news)

@[simp] theorem give_nil (log : WarningLog) : log.give [] = (log, []) := rfl

theorem give_cons (log : WarningLog) (warning : Warning) (rest : List Warning) :
    log.give (warning :: rest) =
      if log.has warning then log.give rest
      else (((log.insert warning).give rest).1, warning :: ((log.insert warning).give rest).2) := rfl

/-- The keys after are the keys of the news, latest first, and then the keys before. -/
theorem keys_give (log : WarningLog) (warnings : List Warning) :
    (log.give warnings).1.keys = ((log.give warnings).2.map Warning.key).reverse ++ log.keys := by
  induction warnings generalizing log with
  | nil => rfl
  | cons warning rest ih =>
    rw [give_cons]
    split
    · exact ih log
    · simp [ih, insert]

end WarningLog

end Selectors
