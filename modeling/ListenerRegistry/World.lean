import ListenerRegistry.Bank
import ListenerRegistry.Step

/-!
# The world

The objects of the host, the registers, and the journal of everything that
happened. This module holds the elementary changes of a world; the operations
are built from them.
-/

namespace ListenerRegistry

structure World where
  objects : List ForeignObject
  handles : Bank Handle
  keys : Bank (Option Key)
  registries : Bank Registry
  /-- The hash set of keys, oldest first. No two keys in it are alike. -/
  keySet : List Key
  /-- The ids saved by number, newest first. -/
  ids : List (Nat × ListenerId)
  /-- The objects of the recovered owners that are kept aside, newest first. -/
  recovered : List ObjectId
  /-- Everything that happened, newest first. -/
  journal : List Event
  /-- What the last finished step answered. -/
  answer : Answer

namespace World

/-- The world of some objects, with every register empty. -/
def init (objects : List ForeignObject) : World where
  objects := objects
  handles := .empty
  keys := .empty
  registries := .empty
  keySet := []
  ids := []
  recovered := []
  journal := []
  answer := .done

/-- Notes an event. -/
def emit (w : World) (e : Event) : World :=
  { w with journal := e :: w.journal }

def log (w : World) (m : LogMessage) : World :=
  w.emit (.log m)

/-! ## Objects -/

/-- The reference count of an object. -/
def count (w : World) (o : ObjectId) : Int :=
  (w.objects[o]?).elim 0 ForeignObject.refs

/-- An object is alive while its count is positive. -/
def alive (w : World) (o : ObjectId) : Bool :=
  0 < w.count o

/-- The address a handle refers to; null has address zero. -/
def address (w : World) : Handle → UInt64
  | none => 0
  | some o => (w.objects[o]?).elim 0 ForeignObject.address

/-- What `o` answers to the next request for its hash. -/
def hashOutcome (w : World) (o : ObjectId) : HashOutcome :=
  (w.objects[o]?).elim (.ok 0) ForeignObject.hashOutcome

/-- Changes one object. -/
def modifyObject (w : World) (o : ObjectId) (f : ForeignObject → ForeignObject) : World :=
  { w with objects := w.objects.modify o f }

/-- Changes the count of an object. -/
def adjust (w : World) (o : ObjectId) (d : Int) : World :=
  w.modifyObject o fun x => { x with refs := x.refs + d }

def setCustody (w : World) (o : ObjectId) (c : Custody) : World :=
  w.modifyObject o fun x => { x with custody := c }

def custody (w : World) (o : ObjectId) : Custody :=
  (w.objects[o]?).elim .unaccounted ForeignObject.custody

/-- Notes that a reference on `o` changes hands. -/
def transfer (w : World) (t : Transfer) (o : ObjectId) : World :=
  w.emit (.transfer t o)

/-- Acquires the reference of a new handle; nothing for null. -/
def acquire (w : World) : Handle → World
  | none => w
  | some o => (w.adjust o 1).emit (.incref o)

/-- Acquires the reference of a fresh handle, if its object is alive or there
is none. -/
def borrow? (w : World) : Handle → Option World
  | none => some w
  | some o => if w.alive o then some (w.acquire (some o)) else none

/-- The host gives a reference on `o` away, if the object is alive and the host
has one to give. -/
def spend? (w : World) (o : ObjectId) : Option World :=
  if w.alive o then (w.custody o).spend.map (w.setCustody o) else none

/-- Takes over a reference of the host's for a handle, if there is one. -/
def adopt? (w : World) : Handle → Option World
  | none => some w
  | some o => (w.spend? o).map (·.transfer .adopted o)

/-- A handle goes out of sight unreleased: its object stays counted. -/
def abandon (w : World) : Handle → World
  | none => w
  | some o => w.transfer .abandoned o

/-! ## Registers -/

def handle (w : World) (h : Nat) : Handle := w.handles.read h

def setHandle (w : World) (h : Nat) (new : Handle) : World :=
  { w with handles := w.handles.write h new }

def key? (w : World) (k : Nat) : Option Key := w.keys.read k

def setKey (w : World) (k : Nat) (new : Option Key) : World :=
  { w with keys := w.keys.write k new }

def registry (w : World) (s : Nat) : Registry := w.registries.read s

def setRegistry (w : World) (s : Nat) (r : Registry) : World :=
  { w with registries := w.registries.write s r }

/-- The id saved last under number `n`. -/
def savedId? (w : World) (n : Nat) : Option ListenerId :=
  (w.ids.find? (·.1 == n)).map (·.2)

/-- Saves an id, if a number is given to save it under. -/
def saveId (w : World) (save : Option Nat) (id : ListenerId) : World :=
  match save with
  | some n => { w with ids := (n, id) :: w.ids }
  | none => w

/-! ## Handles for an operation -/

/-- A new handle for an operation and the world without it in a register;
nothing if a fresh handle was wanted on a dead object. -/
def obtain? (w : World) : Source → Option (Handle × World)
  | .fresh target => (w.borrow? target).map fun w => (target, w)
  | .copied h => some (w.handle h, w.acquire (w.handle h))
  | .taken h => some (w.handle h, w.setHandle h none)

end World

/-- A probe in use. A fresh handle is owned by the operation, which releases it
in the end; a register or an entry is looked at where it is. -/
inductive Grip where
  | fresh (h : Handle)
  | register (h : Nat)
  | entry (s : Nat) (id : ListenerId)
deriving DecidableEq, Repr

namespace Grip

/-- The handle that is looked at, as it is now. -/
def handle (w : World) : Grip → Handle
  | fresh h => h
  | register h => w.handle h
  | entry s id => ((w.registry s).get? id).bind Key.handle

/-- The handle that the operation owns. -/
def owned : Grip → Handle
  | fresh h => h
  | register _ | entry _ _ => none

end Grip

namespace World

/-- Takes hold of a probe; nothing if a fresh handle was wanted on a dead
object. -/
def grip? (w : World) : Probe → Option (Grip × World)
  | .fresh target => (w.borrow? target).map fun w => (.fresh target, w)
  | .register h => some (.register h, w)

end World

end ListenerRegistry
