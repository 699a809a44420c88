import ListenerRegistry.Job

/-!
# Operations on keys

A key is made from a handle by hashing it once, and keeps the hash from then
on. The hash set compares keys by hash and handle.
-/

namespace ListenerRegistry

namespace KeyOp

def run (w : World) : KeyOp → Outcome
  | .make k source =>
      match w.obtain? source with
      | some (h, w) => { world := w, jobs := [.ask (.makeKey k h)] }
      | none => .say w .dead
  | .clone k src =>
      match w.key? src with
      | some key => .putKey (w.acquire key.handle) k (some key) [.answer .done]
      | none => .say w .noKey
  | .drop k => .putKey w k none [.answer (.flag (w.key? k).isSome)]
  | .unwrap k h =>
      match w.key? k with
      | some key => .put (w.setKey k none) h key.handle [.answer .done]
      | none => .say w .noKey
  | .copyHandle k h =>
      match w.key? k with
      | some key => .put (w.acquire key.handle) h key.handle [.answer .done]
      | none => .say w .noKey
  | .compare a b =>
      match w.key? a, w.key? b with
      | some x, some y => .say w (.comparison (x.same y) (x.hash == y.hash))
      | _, _ => .say w .noKey
  | .summary k layout =>
      match w.key? k with
      | some key =>
          .say w (.key ⟨key.handle, key.hash, key.digest,
            layout.key (w.address key.handle) key.hash⟩)
      | none => .say w .noKey

end KeyOp

namespace KeySetOp

/-- The keys in the order in which they are listed and released: null first, then by
object, then by hash. A hash set promises no order; this one belongs to whoever lists
or drops the set, and no other operation goes by it. -/
def releaseOrder (keys : List Key) : List Key :=
  keys.mergeSort Key.precedes

def run (w : World) : KeySetOp → Outcome
  | .insert k =>
      match w.key? k with
      | some key =>
          let w := w.setKey k none
          if key ∈ w.keySet then
            { world := w, jobs := [.release key.handle, .answer (.flag false)] }
          else .say { w with keySet := w.keySet ++ [key] } (.flag true)
      | none => .say w .noKey
  | .contains k =>
      match w.key? k with
      | some key => .say w (.flag (key ∈ w.keySet))
      | none => .say w .noKey
  | .remove k =>
      match w.key? k with
      | some key =>
          if key ∈ w.keySet then
            { world := { w with keySet := w.keySet.erase key }
              jobs := [.release key.handle, .answer (.flag true)] }
          else .say w (.flag false)
      | none => .say w .noKey
  | .targets => .say w (.targets ((releaseOrder w.keySet).map Key.handle))
  | .drain =>
      { world := { w with keySet := [] }
        jobs := (releaseOrder w.keySet).map (fun key => .release key.handle) ++
          [.answer .cleared] }

end KeySetOp

end ListenerRegistry
