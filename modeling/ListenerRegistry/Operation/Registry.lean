import ListenerRegistry.Job

/-!
# Operations on registries

An operation hashes before it touches the registry, and releases handles only
after the registry is whole again. What comes after a hash is in
`HashUse.resume`.
-/

namespace ListenerRegistry

namespace RegistryOp

/-- Stores a hashed listener, or refuses it as a duplicate and releases it. -/
def register (w : World) (s : Nat) (k : Key) (save : Option Nat) : Except Fault Outcome := do
  let (id?, r) ← (w.registry s).register k
  let w := w.setRegistry s r
  return match id? with
    | some id =>
        .say ((w.log (.stored (w.address k.handle) id)).saveId save id) (.located (some id))
    | none =>
        { world := w, jobs := [.release k.handle, .answer (.failed .duplicateListener)] }

/-- Unlinks the entry `id`, delivers its handle and goes on with `jobs`. They
depend on the object of the entry, which is null if the id is stale. -/
def unlink (w : World) (s : Nat) (id : ListenerId) (dest : Option Nat)
    (jobs : Handle → List Job) : Except Fault Outcome := do
  let (found, r) ← (w.registry s).unlink id
  let w := w.setRegistry s r
  return match found with
    | some k =>
        .deliver (w.log (.removed (w.address k.handle) id)) dest k.handle (jobs k.handle)
    | none => { world := w, jobs := jobs none }

/-- Logs the removal of each entry. -/
def logRemoved (w : World) (removed : List (ListenerId × Key)) : World :=
  removed.foldl (fun w (id, k) => w.log (.removed (w.address k.handle) id)) w

/-- Ends a retaining step: unlinks what is doomed, in the order of the
questions, and only then releases it. -/
def prune (w : World) (s : Screening) : Except Fault Outcome := do
  let (removed, r) ← (w.registry s.registry).prune s.doomed.reverse
  let w := logRemoved (w.setRegistry s.registry r) removed
  let n := removed.length
  let w := if 0 < n then w.log (.pruned n s.total) else w
  return {
    world := w
    jobs := removed.map (fun (_, k) => .release k.handle) ++ [.answer (.count n)] }

/-- What a rule decides about the entry on `h`, the `asked`-th asked about. -/
def verdict (w : World) (asked : Nat) (h : Handle) : KeepRule → Bool
  | .always b => b
  | .live => !((h.bind fun o => w.objects[o]?).elim false ForeignObject.retired)
  | .every m => asked % m == 0
  | .among os => h.elim false os.contains
  | .notAmong os => !(h.elim false os.contains)

/-- Visits the next slot of a retaining step and asks about the entry that it
holds now, if any. Slots that were not there in the beginning are not visited,
and there may be no more questions than there were entries. -/
def screen (w : World) (s : Screening) : Except Fault Outcome :=
  match s.pending with
  | [] => prune w s
  | i :: pending =>
      let s := { s with pending }
      match (w.registry s.registry).entryAt? i with
      | none => .ok { world := w, jobs := [.screen s] }
      | some (id, k) =>
          if s.asked = s.total then .error .overrun
          else
            let s := { s with asked := s.asked + 1 }
            let w := k.handle.elim w fun o => w.emit (.keep o)
            match s.keep with
            | .hashBelow bound => .ok { world := w, jobs := [.ask (.screen bound id s)] }
            | .rule rule =>
                let keep := verdict w s.asked k.handle rule
                .ok { world := w, jobs := [.screen (s.judge id keep)] }

def run (w : World) : RegistryOp → Except Fault Outcome
  | .insert s source save =>
      match w.obtain? source with
      | none => .ok (.say w .dead)
      | some (none, w) => .ok (.say w (.failed .nullListener))
      | some (some o, w) =>
          .ok { world := w, jobs := [.ask (.insert s (some o) save)] }
  | .insertKey s k save =>
      match w.key? k with
      | none => .ok (.say w .noKey)
      | some key =>
          let w := w.setKey k none
          match key.handle with
          | none => .ok (.say w (.failed .nullListener))
          | some _ => register w s key save
  | .find s probe save =>
      match w.grip? probe with
      | none => .ok (.say w .dead)
      | some (grip, w) =>
          match grip.handle w with
          | none => .ok (.say w (.located none))
          | some _ => .ok { world := w, jobs := [.ask (.find s grip save)] }
  | .contains s probe =>
      match w.grip? probe with
      | none => .ok (.say w .dead)
      | some (grip, w) =>
          match grip.handle w with
          | none => .ok (.say w (.verdict false))
          | some _ => .ok { world := w, jobs := [.ask (.contains s grip)] }
  | .remove s probe dest =>
      match w.grip? probe with
      | none => .ok (.say w .dead)
      | some (grip, w) =>
          match grip.handle w with
          | none => .ok (.say w (.withdrawn none))
          | some _ => .ok { world := w, jobs := [.ask (.remove s grip dest)] }
  | .get s id =>
      match w.savedId? id with
      | none => .ok (.say w .noId)
      | some id => .ok (.say w (.entry (((w.registry s).get? id).bind Key.handle)))
  | .removeId s id dest =>
      match w.savedId? id with
      | none => .ok (.say w .noId)
      | some id => unlink w s id dest fun h => [.answer (.entry h)]
  | .sameId a b =>
      match w.savedId? a, w.savedId? b with
      | some x, some y => .ok (.say w (.flag (x == y)))
      | _, _ => .ok (.say w .noId)
  | .retain s keep =>
      let r := w.registry s
      .ok { world := w, jobs := [.screen ⟨s, keep, r.size, r.slotNumbers, 0, []⟩] }
  | .clear s => do
      let (keys, r) ← (w.registry s).drain
      return {
        world := w.setRegistry s r
        jobs := keys.map (fun k => .release k.handle) ++ [.answer .cleared] }
  | .discard s =>
      let old := w.registry s
      .ok {
        world := w.setRegistry s .empty
        jobs := old.entries.map (fun (_, k) => .release k.handle) ++ [.answer .dropped] }
  | .size s => .ok (.say w (.size (w.registry s).size))
  | .entries s =>
      .ok (.say w (.entries ((w.registry s).entries.map fun (id, k) => (id, k.handle))))

end RegistryOp

/-- What an operation does with the hash it asked for. A handle that is not
stored is released, and its error is the operation's. -/
def HashUse.resume (w : World) (outcome : HashOutcome) : HashUse → Except Fault Outcome
  | .answer probe =>
      let answer := match outcome with
        | .ok hash => Answer.hashed hash
        | .error e => .failed e
      .ok { world := w, jobs := [.release probe.owned, .answer answer] }
  | .compareWith _ b => .ok { world := w, jobs := [.ask (.compareTo outcome b)] }
  | .compareTo first _ =>
      .ok (.say w (match first, outcome with
        | .error e, _ => .failed e
        | .ok _, .error e => .failed e
        | .ok x, .ok y => .verdict (x == y)))
  | .makeKey k h =>
      match outcome with
      | .ok hash => .ok (.putKey w k (some ⟨h, hash⟩) [.answer (.hashed hash)])
      | .error e => .ok { world := w, jobs := [.release h, .answer (.failed e)] }
  | .insert s h save =>
      match outcome with
      | .ok hash => RegistryOp.register w s ⟨h, hash⟩ save
      | .error e =>
          .ok { world := w, jobs := [.release h, .log (.rejecting e), .answer (.failed e)] }
  | .find s probe save =>
      match outcome with
      | .error e => .ok { world := w, jobs := [.release probe.owned, .answer (.failed e)] }
      | .ok hash => do
          let (id?, r) ← (w.registry s).locate hash (probe.handle w)
          let w := w.setRegistry s r
          let w := id?.elim w (w.saveId save)
          return { world := w, jobs := [.release probe.owned, .answer (.located id?)] }
  | .contains s probe =>
      match outcome with
      | .error e => .ok { world := w, jobs := [.release probe.owned, .answer (.failed e)] }
      | .ok hash => do
          let (id?, r) ← (w.registry s).locate hash (probe.handle w)
          return {
            world := w.setRegistry s r
            jobs := [.release probe.owned, .answer (.verdict id?.isSome)] }
  | .remove s probe dest =>
      match outcome with
      | .error e => .ok { world := w, jobs := [.release probe.owned, .answer (.failed e)] }
      | .ok hash => do
          let (id?, r) ← (w.registry s).locate hash (probe.handle w)
          let w := w.setRegistry s r
          match id? with
          | none =>
              return { world := w, jobs := [.release probe.owned, .answer (.withdrawn none)] }
          | some id =>
              RegistryOp.unlink w s id dest fun h => [.release probe.owned, .answer (.withdrawn h)]
  | .screen bound id s =>
      .ok { world := w, jobs := [.screen (s.judge id (HashOutcome.isBelow bound outcome))] }

end ListenerRegistry
