import ListenerRegistry.Proofs.Veil

/-!
# Veiled worlds

Under the veil every object hashes to zero, every key has the hash zero, and an answer
that reports a hash reports zero. All elementary changes of a world are the same under
the veil, and what can be read in it, other than a hash, is the same as well.
-/

namespace ListenerRegistry

/-! ## Veils -/

def ForeignObject.veil (x : ForeignObject) : ForeignObject :=
  { x with hashing := .always (.fixed 0) }

mutual

def Answer.veil : Answer → Answer
  | hashed _ => hashed 0
  | batch answers => batch (veilAll answers)
  | a => a

def Answer.veilAll : List Answer → List Answer
  | [] => []
  | a :: answers => a.veil :: veilAll answers

end

attribute [simp] Answer.veil

theorem Answer.veilAll_eq_map (answers : List Answer) : veilAll answers = answers.map veil := by
  induction answers with
  | nil => rfl
  | cons a answers ih => rw [veilAll, ih, List.map_cons]

@[simp] def Event.veil : Event → Event
  | answered a => answered a.veil
  | e => e

/-- What waits to be answered is veiled, and so is what a batch has answered so far. -/
@[simp] def Job.veil : Job → Job
  | answer a => answer a.veil
  | gather rest answers => gather rest (Answer.veilAll answers)
  | t => t

def World.veil (w : World) : World where
  objects := w.objects.map ForeignObject.veil
  handles := w.handles
  keys := w.keys.map (Option.map Key.veil)
  registries := w.registries.map Registry.veil
  keySet := w.keySet.map Key.veil
  ids := w.ids
  recovered := w.recovered
  journal := w.journal.map Event.veil
  answer := w.answer.veil

def Outcome.veil (out : Outcome) : Outcome where
  world := out.world.veil
  call := out.call
  jobs := out.jobs.map Job.veil

/-! ## Elementary changes -/

namespace World

variable (w : World)

@[simp] theorem veil_emit (e : Event) : (w.emit e).veil = w.veil.emit e.veil := rfl

@[simp] theorem veil_log (m : LogMessage) : (w.log m).veil = w.veil.log m := rfl

@[simp] theorem veil_transfer (t : Transfer) (o : ObjectId) :
    (w.transfer t o).veil = w.veil.transfer t o := rfl

/-- What can be told of an object without its hash is the same under the veil. -/
theorem elim_veil {α : Type} (d : α) {f : ForeignObject → α} (hf : ∀ x, f x.veil = f x)
    (o : ObjectId) : (w.veil.objects[o]?).elim d f = (w.objects[o]?).elim d f := by
  show ((w.objects.map ForeignObject.veil)[o]?).elim d f = _
  rw [List.getElem?_map]
  cases w.objects[o]? with
  | none => rfl
  | some x => exact hf x

@[simp] theorem count_veil (o : ObjectId) : w.veil.count o = w.count o :=
  w.elim_veil 0 (fun _ => rfl) o

@[simp] theorem alive_veil (o : ObjectId) : w.veil.alive o = w.alive o := by
  simp [alive]

@[simp] theorem custody_veil (o : ObjectId) : w.veil.custody o = w.custody o :=
  w.elim_veil Custody.unaccounted (f := ForeignObject.custody) (fun _ => rfl) o

@[simp] theorem address_veil (h : Handle) : w.veil.address h = w.address h := by
  cases h with
  | none => rfl
  | some o => exact w.elim_veil 0 (fun _ => rfl) o

theorem hashOutcome_veil (o : ObjectId) : w.veil.hashOutcome o = .ok 0 := by
  show ((w.objects.map ForeignObject.veil)[o]?).elim (.ok 0) ForeignObject.hashOutcome = _
  rw [List.getElem?_map]
  cases w.objects[o]? <;> rfl

/-- A change of an object that leaves its hashing alone. -/
theorem veil_modifyObject {f : ForeignObject → ForeignObject} (hf : ∀ x, (f x).veil = f x.veil)
    (o : ObjectId) : (w.modifyObject o f).veil = w.veil.modifyObject o f := by
  simp only [veil, modifyObject, map_modify hf]

@[simp] theorem veil_adjust (o : ObjectId) (d : Int) : (w.adjust o d).veil = w.veil.adjust o d :=
  w.veil_modifyObject (f := fun x => { x with refs := x.refs + d }) (fun _ => rfl) o

@[simp] theorem veil_setCustody (o : ObjectId) (c : Custody) :
    (w.setCustody o c).veil = w.veil.setCustody o c :=
  w.veil_modifyObject (f := fun x => { x with custody := c }) (fun _ => rfl) o

@[simp] theorem veil_acquire (h : Handle) : (w.acquire h).veil = w.veil.acquire h := by
  cases h with
  | none => rfl
  | some o =>
    show ((w.adjust o 1).emit (.incref o)).veil = _
    rw [veil_emit, veil_adjust]
    rfl

@[simp] theorem veil_abandon (h : Handle) : (w.abandon h).veil = w.veil.abandon h := by
  cases h <;> rfl

@[simp] theorem handle_veil (h : Nat) : w.veil.handle h = w.handle h := rfl

@[simp] theorem veil_setHandle (h : Nat) (new : Handle) :
    (w.setHandle h new).veil = w.veil.setHandle h new := rfl

@[simp] theorem key?_veil (k : Nat) : w.veil.key? k = (w.key? k).map Key.veil :=
  Bank.read_map (g := Option.map Key.veil) rfl w.keys k

@[simp] theorem veil_setKey (k : Nat) (new : Option Key) :
    (w.setKey k new).veil = w.veil.setKey k (new.map Key.veil) := by
  simp only [veil, setKey, Bank.map_write (g := Option.map Key.veil) rfl]

@[simp] theorem registry_veil (s : Nat) : w.veil.registry s = (w.registry s).veil :=
  Bank.read_map (g := Registry.veil) rfl w.registries s

@[simp] theorem veil_setRegistry (s : Nat) (r : Registry) :
    (w.setRegistry s r).veil = w.veil.setRegistry s r.veil := by
  simp only [veil, setRegistry, Bank.map_write (g := Registry.veil) rfl]

@[simp] theorem address_setRegistry (s : Nat) (r : Registry) (h : Handle) :
    (w.setRegistry s r).address h = w.address h := by
  cases h <;> rfl

@[simp] theorem savedId?_veil (n : Nat) : w.veil.savedId? n = w.savedId? n := rfl

@[simp] theorem veil_saveId (save : Option Nat) (id : ListenerId) :
    (w.saveId save id).veil = w.veil.saveId save id := by
  cases save <;> rfl

@[simp] theorem borrow?_veil (h : Handle) : w.veil.borrow? h = (w.borrow? h).map veil := by
  cases h with
  | none => rfl
  | some o =>
    simp only [borrow?, alive_veil]
    split
    · rw [Option.map_some, veil_acquire]
    · rfl

@[simp] theorem spend?_veil (o : ObjectId) : w.veil.spend? o = (w.spend? o).map veil := by
  simp only [spend?, alive_veil, custody_veil]
  split
  · cases (w.custody o).spend with
    | none => rfl
    | some c => simp
  · rfl

@[simp] theorem adopt?_veil (h : Handle) : w.veil.adopt? h = (w.adopt? h).map veil := by
  cases h with
  | none => rfl
  | some o =>
    simp only [adopt?, spend?_veil]
    cases w.spend? o <;> rfl

@[simp] theorem obtain?_veil (source : Source) :
    w.veil.obtain? source = (w.obtain? source).map fun x => (x.1, x.2.veil) := by
  cases source with
  | fresh target =>
    simp only [obtain?, borrow?_veil]
    cases w.borrow? target <;> rfl
  | copied h => simp [obtain?]
  | taken h => rfl

@[simp] theorem grip?_veil (probe : Probe) :
    w.veil.grip? probe = (w.grip? probe).map fun x => (x.1, x.2.veil) := by
  cases probe with
  | fresh target =>
    simp only [grip?, borrow?_veil]
    cases w.borrow? target <;> rfl
  | register h => rfl

end World

@[simp] theorem Grip.handle_veil (w : World) (grip : Grip) :
    grip.handle w.veil = grip.handle w := by
  cases grip with
  | fresh h => rfl
  | register h => rfl
  | entry s id =>
    simp only [handle, World.registry_veil, Registry.get?_veil, Key.bind_handle_veil]

namespace Outcome

variable (w : World)

@[simp] theorem veil_mk (call : Option Hook) (jobs : List Job) :
    veil ⟨w, call, jobs⟩ = ⟨w.veil, call, jobs.map Job.veil⟩ := rfl

@[simp] theorem veil_say (a : Answer) : (say w a).veil = say w.veil a.veil := rfl

@[simp] theorem veil_put (h : Nat) (new : Handle) (jobs : List Job) :
    (put w h new jobs).veil = put w.veil h new (jobs.map Job.veil) := rfl

@[simp] theorem veil_putKey (k : Nat) (new : Option Key) (jobs : List Job) :
    (putKey w k new jobs).veil = putKey w.veil k (new.map Key.veil) (jobs.map Job.veil) := by
  simp [putKey, veil]

@[simp] theorem veil_deliver (dest : Option Nat) (h : Handle) (jobs : List Job) :
    (deliver w dest h jobs).veil = deliver w.veil dest h (jobs.map Job.veil) := by
  cases dest <;> rfl

end Outcome

end ListenerRegistry
