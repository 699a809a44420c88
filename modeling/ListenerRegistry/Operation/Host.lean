import ListenerRegistry.Job

/-!
# What the host does

The host counts references of its own, retires objects and changes the way they
hash. A host that keeps accounts makes handles from owners and recovers owners
from handles.
-/

namespace ListenerRegistry.HostOp

/-- The host lets go of a reference on `o` that it has given up already. -/
def letGo (w : World) (o : ObjectId) (jobs : List Job) : Outcome :=
  { world := w.transfer .hostReleased o, jobs := .release (some o) :: jobs }

/-- The host takes one more reference on `o`. -/
def takeOne (w : World) (o : ObjectId) : World :=
  (w.transfer .hostAcquired o).acquire (some o)

def run (w : World) : HostOp → Outcome
  | .incref o =>
      if w.alive o then
        { world := takeOne (w.setCustody o (w.custody o).gain) o, jobs := [.answerCount o] }
      else .say w .dead
  | .decref o =>
      match w.spend? o with
      | some w => letGo w o [.answerCount o]
      | none => .say w .dead
  | .retire o => .say (w.modifyObject o fun x => { x with retired := true }) .done
  | .setHashing o rule => .say (w.modifyObject o (·.setHashing rule)) .done
  | .track h o =>
      if (w.custody o).hasOwner then
        .put (w.acquire (some o)) h (some o) [.answerCount o]
      else .say w .noOwner
  | .share h o =>
      if (w.custody o).hasOwner then
        .put ((takeOne w o).transfer .adopted o) h (some o) [.answerCount o]
      else .say w .noOwner
  | .give h o =>
      if (w.custody o).hasOwner then
        .put ((w.setCustody o (w.custody o).withoutOwner).transfer .adopted o) h (some o)
          [.answerCount o]
      else .say w .noOwner
  | .recover h keep =>
      match w.handle h with
      | none => .say w (.target none)
      | some o =>
          let w := (w.acquire (some o)).transfer .surrendered o
          let answer := Answer.owner ((w.objects[o]?).elim "" ForeignObject.value) (w.count o)
          if keep then .say { w with recovered := o :: w.recovered } answer
          else letGo w o [.answer answer]
  | .dropRecovered =>
      match w.recovered with
      | [] => .say w (.flag false)
      | o :: recovered => letGo { w with recovered } o [.answer (.flag true)]
  | .dropOwner o =>
      if (w.custody o).hasOwner then
        letGo (w.setCustody o (w.custody o).withoutOwner) o [.answer (.flag true)]
      else .say w (.flag false)

end ListenerRegistry.HostOp
