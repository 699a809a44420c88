import ListenerRegistry.Host

/-!
# Steps

A program is a list of steps over numbered registers: handles, keys, registries
and one hash set of keys. Hooks are lists of the same steps, run by objects when
they are hashed or finalized.
-/

namespace ListenerRegistry

/-- What an operation looks at: a fresh handle on an object (or null), or the
handle in a register, which stays there. -/
inductive Probe where
  | fresh (target : Handle)
  | register (h : Nat)
deriving DecidableEq, Repr

/-- Where an operation gets a handle of its own: fresh on an object (or null),
copied from a register, or taken out of one. -/
inductive Source where
  | fresh (target : Handle)
  | copied (h : Nat)
  | taken (h : Nat)
deriving DecidableEq, Repr

/-- Operations on the handle registers. -/
inductive HandleOp where
  /-- Put a null handle in `h`. -/
  | setNull (h : Nat)
  /-- Put a fresh handle on the object in `h`. -/
  | borrow (h : Nat) (target : Handle)
  /-- Put a handle in `h` that takes over a reference of the host's. -/
  | adopt (h : Nat) (target : Handle)
  /-- Put a fresh handle in `h` on the object that `src` refers to. -/
  | reborrow (h src : Nat)
  /-- Put a copy of the handle in `src` in `h`. -/
  | clone (h src : Nat)
  /-- Release the handle in `h`, which is null meanwhile, and write a copy of
  the one in `src` over it. The copy is made first. -/
  | assign (h src : Nat)
  /-- Overwrite the handle in `h` in place by the identity in `src`. -/
  | cloneFrom (h src : Nat)
  /-- Move the handle in `src` to `h`; answers whether `src` is null after the
  move out of it. -/
  | take (h src : Nat)
  | drop (h : Nat)
  /-- Which object the handle in `h` refers to. -/
  | peek (h : Nat)
  | isNull (h : Nat)
  /-- Hand the reference in `h` to the host. -/
  | surrender (h : Nat)
  | hash (probe : Probe)
  /-- Hash both handles, then compare. -/
  | hashEq (a b : Nat)
  | eq (a b : Nat)
  | render (h : Nat) (layout : Layout)
deriving DecidableEq, Repr

/-- What the host does on its own account. -/
inductive HostOp where
  | incref (o : ObjectId)
  | decref (o : ObjectId)
  | retire (o : ObjectId)
  | setHashing (o : ObjectId) (rule : HashRule)
  /-- Put a handle in `h` beside the owner's reference. -/
  | track (h : Nat) (o : ObjectId)
  /-- Put a handle in `h` made from a second owner. -/
  | share (h : Nat) (o : ObjectId)
  /-- Put a handle in `h` made from the owner's reference itself. -/
  | give (h : Nat) (o : ObjectId)
  /-- Recover an owner from the handle in `h`, to be let go of at once or kept
  aside. -/
  | recover (h : Nat) (keep : Bool)
  /-- Let go of the owner kept aside last. -/
  | dropRecovered
  | dropOwner (o : ObjectId)
deriving DecidableEq, Repr

/-- Operations on the key registers. -/
inductive KeyOp where
  /-- Hash a handle and keep both as a key in `k`. -/
  | make (k : Nat) (source : Source)
  | clone (k src : Nat)
  | drop (k : Nat)
  /-- Move the handle out of the key in `k` into `h`. -/
  | unwrap (k h : Nat)
  /-- Put a copy of the handle of the key in `k` in `h`. -/
  | copyHandle (k h : Nat)
  | compare (a b : Nat)
  | summary (k : Nat) (layout : Layout)
deriving DecidableEq, Repr

/-- Operations on the hash set of keys. -/
inductive KeySetOp where
  /-- Move the key in `k` into the set. -/
  | insert (k : Nat)
  | contains (k : Nat)
  /-- Remove the key that equals the one in `k`, which stays there. -/
  | remove (k : Nat)
  | targets
  /-- Empty the set, releasing its keys in order. -/
  | drain
deriving DecidableEq, Repr

/-- A decision about an entry that calls nothing. -/
inductive KeepRule where
  | always (b : Bool)
  /-- Keep what the host has not retired. -/
  | live
  /-- Keep every `m`-th entry asked about. -/
  | every (m : Nat)
  | among (os : List ObjectId)
  | notAmong (os : List ObjectId)
deriving DecidableEq, Repr

/-- How a retaining step decides about an entry. -/
inductive Keep where
  | rule (r : KeepRule)
  /-- Hash the handle, and keep it if that succeeds and gives less. -/
  | hashBelow (bound : UInt64)
deriving DecidableEq, Repr

/-- Operations on the registries. -/
inductive RegistryOp where
  | insert (s : Nat) (source : Source) (save : Option Nat)
  | insertKey (s k : Nat) (save : Option Nat)
  | find (s : Nat) (probe : Probe) (save : Option Nat)
  | contains (s : Nat) (probe : Probe)
  /-- Remove by identity; the handle goes to register `dest`, or is released. -/
  | remove (s : Nat) (probe : Probe) (dest : Option Nat)
  | get (s id : Nat)
  /-- Remove by saved id; the handle goes to register `dest`, or is released. -/
  | removeId (s id : Nat) (dest : Option Nat)
  | sameId (a b : Nat)
  | retain (s : Nat) (keep : Keep)
  | clear (s : Nat)
  /-- Put an empty registry in `s` and drop the old one. -/
  | discard (s : Nat)
  | size (s : Nat)
  | entries (s : Nat)
deriving DecidableEq, Repr

inductive Op where
  | handle (op : HandleOp)
  | host (op : HostOp)
  | key (op : KeyOp)
  | keySet (op : KeySetOp)
  | registry (op : RegistryOp)
deriving DecidableEq, Repr

/-- One operation, or several steps that answer together. -/
inductive Step where
  | op (op : Op)
  | batch (steps : List Step)

/-- The values of a counting loop: `first`, `first + stride`, and so on while
they have not reached `bound`. -/
def loopValues (first bound stride : Int) : List Int :=
  let rounds :=
    if 0 < stride then (bound - first + stride - 1) / stride
    else if stride < 0 then (first - bound - stride - 1) / -stride
    else 0
  (List.range rounds.toNat).map fun (n : Nat) => first + n * stride

example : loopValues 0 5 2 = [0, 2, 4] := by decide
example : loopValues 3 0 (-1) = [3, 2, 1] := by decide
example : loopValues 3 0 1 = [] := by decide

/-- The hooks of one object; an object may do without. -/
structure Hooks where
  onHash : Option (List Step)
  onCollect : Option (List Step)

/-- The foreign code of a run: the hooks of every object. -/
structure Program where
  hooks : List Hooks

namespace Program

/-- The steps that a hook runs, if the object has that hook. -/
def script? (p : Program) (hook : Hook) : Option (List Step) :=
  p.hooks[hook.object]?.bind fun hooks =>
    match hook.kind with
    | .hash => hooks.onHash
    | .collect => hooks.onCollect

end Program

end ListenerRegistry
