import ListenerRegistry.Text.Quoted

/-!
# Errors

What can go wrong when an object is hashed or registered. Counting references
never fails.
-/

namespace ListenerRegistry

inductive Error where
  /-- The host could not compute an identity hash, for the reason it gives. -/
  | unhashable (reason : String)
  /-- A null handle was offered as a listener. -/
  | nullListener
  /-- The identity is already registered. -/
  | duplicateListener
deriving DecidableEq, Repr

namespace Error

/-- The text for people. -/
def message : Error → String
  | unhashable reason => "object is not hashable: " ++ reason
  | nullListener => "cannot register a null listener"
  | duplicateListener => "listener already registered"

/-- The kind of error, without its details. -/
def kind : Error → String
  | unhashable _ => "Unhashable"
  | nullListener => "NullListener"
  | duplicateListener => "DuplicateListener"

/-- The error as a term: its kind, and the reason in quotes. -/
def render : Error → String
  | unhashable reason => "Unhashable(" ++ Text.quoted reason ++ ")"
  | e => e.kind

def isUnhashable : Error → Bool
  | unhashable _ => true
  | _ => false

end Error

end ListenerRegistry
