import ListenerRegistry.Error
import ListenerRegistry.Registry

/-!
# Answers and events

Every step answers something, and everything that happens on the way is an
event: the calls on the host, the entry and exit of foreign hooks, the log, and
the transfers by which references change hands between the host and the
library.
-/

namespace ListenerRegistry

/-- The foreign code of an object: its hash function or its finalizer. -/
inductive HookKind where
  | hash
  | collect
deriving DecidableEq, Repr

structure Hook where
  kind : HookKind
  object : ObjectId
deriving DecidableEq, Repr

/-- What there is to know about a key. -/
structure KeySummary where
  target : Handle
  hash : UInt64
  /-- What a hashing container computes from the key. -/
  digest : UInt64
  text : String
deriving DecidableEq, Repr

/-- What a step answers. -/
inductive Answer where
  | done
  | dropped
  | cleared
  /-- The object the step was about is not alive. -/
  | dead
  /-- The key register is empty. -/
  | noKey
  /-- No id was saved under that number. -/
  | noId
  /-- The owner's reference is gone. -/
  | noOwner
  | flag (b : Bool)
  | count (n : Int)
  | target (h : Handle)
  | text (s : String)
  /-- The hash of a handle or key. -/
  | hashed (hash : UInt64)
  /-- Whether two handles hash alike, or whether a listener is registered. -/
  | verdict (b : Bool)
  | failed (e : Error)
  /-- The id of a listener that was registered or looked up. -/
  | located (id : Option ListenerId)
  /-- The object whose entry was removed by identity. -/
  | withdrawn (h : Handle)
  /-- The object of the entry that an id names. -/
  | entry (h : Handle)
  | key (k : KeySummary)
  /-- How two keys compare: as keys, and by hash. -/
  | comparison (same sameHash : Bool)
  | targets (hs : List Handle)
  | size (n : Nat)
  | entries (es : List (ListenerId × Handle))
  /-- An owner recovered from a handle: its value and the count with it. -/
  | owner (value : String) (strong : Int)
  /-- The answers of a batch of steps. -/
  | batch (answers : List Answer)

inductive LogLevel where
  | trace
  | debug
deriving DecidableEq, Repr

def LogLevel.name : LogLevel → String
  | trace => "TRACE"
  | debug => "DEBUG"

/-- What the library logs. Listeners appear by the address of their object. -/
inductive LogMessage where
  | stored (address : UInt64) (id : ListenerId)
  | removed (address : UInt64) (id : ListenerId)
  | rejecting (e : Error)
  | pruned (n total : Nat)
deriving DecidableEq, Repr

namespace LogMessage

/-- Single listeners are traced; refusals and prunings are worth more. -/
def level : LogMessage → LogLevel
  | stored _ _ | removed _ _ => .trace
  | rejecting _ | pruned _ _ => .debug

def text : LogMessage → String
  | stored address id =>
      "listener " ++ Text.address address ++ " stored as " ++ ListenerId.render id
  | removed address id =>
      "listener " ++ Text.address address ++ " removed from " ++ ListenerId.render id
  | rejecting e => "rejecting listener: " ++ e.message
  | pruned n total => "pruned " ++ toString n ++ " of " ++ toString total ++ " listeners"

end LogMessage

/-- A reference changes hands outside the counting calls of the library. -/
inductive Transfer where
  /-- The host takes one more reference for itself. -/
  | hostAcquired
  /-- The host lets go of a reference of its own. -/
  | hostReleased
  /-- A handle's reference is handed to the host. -/
  | surrendered
  /-- A reference of the host's becomes a handle. -/
  | adopted
  /-- A handle is overwritten unreleased; nobody holds its reference any more. -/
  | abandoned
deriving DecidableEq, Repr

inductive Event where
  | incref (o : ObjectId)
  | decref (o : ObjectId)
  | hash (o : ObjectId)
  /-- The count of `o` reached zero. -/
  | collect (o : ObjectId)
  | enter (hook : Hook)
  | leave (hook : Hook)
  /-- A step inside a hook answered. -/
  | answered (a : Answer)
  | log (m : LogMessage)
  /-- A retaining step asks whether to keep the entry on `o`. -/
  | keep (o : ObjectId)
  | transfer (t : Transfer) (o : ObjectId)

namespace HookKind

def name : HookKind → String
  | hash => "hash"
  | collect => "collect"

end HookKind

/-- How an event reads in a report. An answer is reported by its value and has
no text, and a transfer shows only in the counts. -/
def Event.text? : Event → Option String
  | incref o => some ("incref " ++ toString o)
  | decref o => some ("decref " ++ toString o)
  | hash o => some ("hash " ++ toString o)
  | collect o => some ("collect " ++ toString o)
  | enter hook => some ("enter " ++ hook.kind.name ++ " " ++ toString hook.object)
  | leave hook => some ("leave " ++ hook.kind.name ++ " " ++ toString hook.object)
  | log m => some ("log " ++ m.level.name ++ " " ++ m.text)
  | keep o => some ("keep " ++ toString o)
  | answered _ | transfer _ _ => none

end ListenerRegistry
