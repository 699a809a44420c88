import ListenerRegistry.SipHash
import ListenerRegistry.Text.Hex

/-!
# Handles and keys

A handle owns one reference on an object of the host, or is null. Two handles
are equal when they refer to the same object. A key is a handle together with
the identity hash its object gave once.
-/

namespace ListenerRegistry

/-- Objects of the host are known by number. -/
abbrev ObjectId := Nat

/-- An owning reference to an object; `none` is the null handle. -/
abbrev Handle := Option ObjectId

/-- A handle with its identity hash. -/
structure Key where
  handle : Handle
  hash : UInt64
deriving DecidableEq, Repr

/-- The identity hash of an object that hashes by its address alone. Address
zero stands for null, which hashes to zero. -/
def addressHash (address : UInt64) : UInt64 :=
  if address = 0 then 0 else SipHash.word address

namespace Key

/-- Keys are equal when their handles are; the hash is not compared. -/
def same (a b : Key) : Bool := a.handle == b.handle

/-- What a hashing container feeds its hasher: the stored hash, as one word. -/
def digest (k : Key) : UInt64 := SipHash.word k.hash

/-- The order of null before every object, and of objects by number, then of
hashes. -/
def precedes (a b : Key) : Bool :=
  match a.handle, b.handle with
  | none, none => a.hash ≤ b.hash
  | none, some _ => true
  | some _, none => false
  | some i, some j => i < j || (i == j && a.hash ≤ b.hash)

end Key

/-- How a value is laid out as text: on one line, or a line per field. -/
inductive Layout where
  | compact
  | spread
deriving DecidableEq, Repr

namespace Layout

/-- An address; a spread layout writes it with all its digits. -/
def address : Layout → UInt64 → String
  | compact => Text.address
  | spread => Text.wideAddress

/-- A handle, by the address of its object (zero for null). -/
def handle (l : Layout) (address : UInt64) : String :=
  match l with
  | compact => "ForeignRef(" ++ l.address address ++ ")"
  | spread => "ForeignRef(\n    " ++ l.address address ++ ",\n)"

/-- A key, by the address of its object and its hash. -/
def key (l : Layout) (address hash : UInt64) : String :=
  let hash := toString hash.toNat
  match l with
  | compact => "HashedRef \x7b ptr: " ++ l.address address ++ ", hash: " ++ hash ++ " \x7d"
  | spread =>
      "HashedRef \x7b\n    ptr: " ++ l.address address ++ ",\n    hash: " ++ hash ++ ",\n\x7d"

end Layout

end ListenerRegistry
