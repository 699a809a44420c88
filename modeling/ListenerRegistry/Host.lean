import ListenerRegistry.Event

/-!
# The host's objects

The host owns the objects. It counts references, answers for identity hashes,
and may keep an account of the references it holds itself.
-/

namespace ListenerRegistry

/-- One way to answer a request for an identity hash. -/
inductive HashSource where
  /-- The address itself. -/
  | identity
  /-- The SipHash of the address. -/
  | sip
  | fixed (hash : UInt64)
  | modulo (m : UInt64)
  /-- Refuses, giving a reason. -/
  | fail (reason : String)
deriving DecidableEq, Repr

/-- What a request for a hash comes to. -/
abbrev HashOutcome := Except Error UInt64

/-- Whether the request succeeded with less than `bound`. -/
def HashOutcome.isBelow (bound : UInt64) : HashOutcome → Bool
  | .ok hash => hash < bound
  | .error _ => false

def HashSource.outcome (address : UInt64) : HashSource → HashOutcome
  | identity => .ok address
  | sip => .ok (SipHash.word address)
  | fixed hash => .ok hash
  | modulo m => .ok (address % m)
  | fail reason => .error (.unhashable reason)

/-- How an object answers one request after the other: the first `lead.length`
requests have answers of their own, all later ones are answered by `last`. -/
structure HashRule where
  lead : List HashSource
  last : HashSource
deriving DecidableEq, Repr

namespace HashRule

/-- Every request is answered alike. -/
def always (s : HashSource) : HashRule := ⟨[], s⟩

/-- The source for the request after `earlier` earlier ones. -/
def source (r : HashRule) (earlier : Nat) : HashSource :=
  (r.lead[earlier]?).getD r.last

end HashRule

/-- The rule that answers the `n`-th request as the `n`-th of `rules` would, and
later ones as `last` would. -/
def HashRule.sequence (rules : List HashRule) (last : HashRule) : HashRule where
  lead := (List.range (max rules.length last.lead.length)).map fun n =>
    ((rules[n]?).getD last).source n
  last := last.last

/-- Which references of an object the host itself answers for. A host that
keeps no account takes and gives references as it likes. One that does has the
owner's reference, until it is given away, and a number of raw references. -/
inductive Custody where
  | unaccounted
  | accounted (owner : Bool) (raw : Nat)
deriving DecidableEq, Repr

namespace Custody

/-- One more raw reference in the host's hands. -/
def gain : Custody → Custody
  | unaccounted => unaccounted
  | accounted owner raw => accounted owner (raw + 1)

/-- The host gives a reference away: a raw one if it has any, else the
owner's. -/
def spend : Custody → Option Custody
  | unaccounted => some unaccounted
  | accounted owner (raw + 1) => some (accounted owner raw)
  | accounted true 0 => some (accounted false 0)
  | accounted false 0 => none

def hasOwner : Custody → Bool
  | accounted true _ => true
  | _ => false

/-- The account once the owner's reference is gone. -/
def withoutOwner : Custody → Custody
  | accounted _ raw => accounted false raw
  | unaccounted => unaccounted

end Custody

structure ForeignObject where
  address : UInt64
  /-- The reference count. A careless host can drive it below zero. -/
  refs : Int
  hashing : HashRule
  /-- The requests answered under the present rule. -/
  hashCalls : Nat
  /-- The host no longer wants the object to be listened to. -/
  retired : Bool
  custody : Custody
  value : String
deriving DecidableEq, Repr

namespace ForeignObject

/-- The answer to the next request for a hash. -/
def hashOutcome (x : ForeignObject) : HashOutcome :=
  (x.hashing.source x.hashCalls).outcome x.address

/-- The object after one more answered request. -/
def countHash (x : ForeignObject) : ForeignObject :=
  { x with hashCalls := x.hashCalls + 1 }

/-- The object under a new rule, with no request answered yet. -/
def setHashing (x : ForeignObject) (rule : HashRule) : ForeignObject :=
  { x with hashing := rule, hashCalls := 0 }

/-- An object of a host without accounts. -/
def plain (address : UInt64) (refs : Int) (rule : HashRule) : ForeignObject where
  address := address
  refs := refs
  hashing := rule
  hashCalls := 0
  retired := false
  custody := .unaccounted
  value := ""

/-- An object of a host with accounts: held once, by its owner, and hashed by
its address. -/
def owned (address : UInt64) (value : String) : ForeignObject where
  address := address
  refs := 1
  hashing := .always .sip
  hashCalls := 0
  retired := false
  custody := .accounted true 0
  value := value

end ForeignObject

end ListenerRegistry
