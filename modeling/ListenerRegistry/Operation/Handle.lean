import ListenerRegistry.Job

/-!
# Operations on handles

A handle that is put in a register replaces the one that was there, and only
then is the old one released. So a finalizer that the release sets off finds
the new handle in place. Assignment alone works the other way round: the
finalizer finds the register empty, and what it leaves there is overwritten.
-/

namespace ListenerRegistry.HandleOp

/-- Copies the handle in `src` to `h`. -/
def copy (w : World) (h src : Nat) : Outcome :=
  let p := w.handle src
  .put (w.acquire p) h p [.answer .done]

/-- Releases the handle in `h` where it is and then writes a copy of the one in
`src` over whatever the register holds by then. -/
def copyOver (w : World) (h src : Nat) : Outcome :=
  let p := w.handle src
  { world := (w.acquire p).setHandle h none
    jobs := [.release (w.handle h), .install h p, .answer .done] }

/-- Overwrites the handle in `h` in place. A register cannot be read while it
is overwritten, so for `h` itself the source is a temporary copy, released at
the end. -/
def overwrite (w : World) (h src : Nat) : Outcome :=
  let p := w.handle src
  if h = src then
    .put ((w.acquire p).acquire p) h p [.release p, .answer .done]
  else
    .put (w.acquire p) h p [.answer .done]

def run (w : World) : HandleOp → Outcome
  | .setNull h => .put w h none [.answer .done]
  | .borrow h target =>
      match w.borrow? target with
      | some w => .put w h target [.answer .done]
      | none => .say w .dead
  | .adopt h target =>
      match w.adopt? target with
      | some w => .put w h target [.answer .done]
      | none => .say w .dead
  | .reborrow h src => copy w h src
  | .clone h src => copy w h src
  | .assign h src => copyOver w h src
  | .cloneFrom h src => overwrite w h src
  | .take h src =>
      let moved := w.handle src
      let w := w.setHandle src none
      .put w h moved [.answer (.flag (w.handle src).isNone)]
  | .drop h => .put w h none [.answer .dropped]
  | .peek h => .say w (.target (w.handle h))
  | .isNull h => .say w (.flag (w.handle h).isNone)
  | .surrender h =>
      let p := w.handle h
      let w := w.setHandle h none
      match p with
      | none => .say w (.target none)
      | some o =>
          .say ((w.setCustody o (w.custody o).gain).transfer .surrendered o) (.target p)
  | .hash probe =>
      match w.grip? probe with
      | some (grip, w) => { world := w, jobs := [.ask (.answer grip)] }
      | none => .say w .dead
  | .hashEq a b => { world := w, jobs := [.ask (.compareWith a b)] }
  | .eq a b => .say w (.flag (w.handle a == w.handle b))
  | .render h layout => .say w (.text (layout.handle (w.address (w.handle h))))

end ListenerRegistry.HandleOp
