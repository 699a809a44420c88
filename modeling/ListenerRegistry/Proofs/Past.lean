import ListenerRegistry.Proofs.Run

/-!
# What nobody can see

No job looks at the journal, and only the jobs that collect answers look at the answer of
the last finished step. A variable for a handle that was never used is as good as one that was
cleared. So none of this can be told by foreign code: a job does the same whatever happened
before, and whatever was answered last.
-/

namespace ListenerRegistry

/-! ## Banks with more room -/

namespace Bank

variable {α : Type} [Inhabited α]

def widenCells : Nat → List α → List α
  | 0, cells => cells
  | n + 1, [] => default :: widenCells n []
  | n + 1, c :: cells => c :: widenCells n cells

/-- The same bank, with room for the first `n` registers at least. -/
def widen (b : Bank α) (n : Nat) : Bank α := ⟨widenCells n b.cells⟩

@[simp] theorem read_widen (b : Bank α) (n r : Nat) : (b.widen n).read r = b.read r := by
  have hcells (n : Nat) (cells : List α) (r : Nat) :
      ((widenCells n cells)[r]?).getD default = (cells[r]?).getD default := by
    induction n, cells using widenCells.induct generalizing r with
    | case1 => rfl
    | case2 n ih => cases r <;> simp [widenCells, ih]
    | case3 n c cells ih => cases r <;> simp [widenCells, ih]
  exact hcells n b.cells r

theorem write_widen (b : Bank α) (n r : Nat) (a : α) :
    (b.widen n).write r a = (b.write r a).widen n := by
  have hcells (n : Nat) (cells : List α) (r : Nat) :
      writeCells (widenCells n cells) r a = widenCells n (writeCells cells r a) := by
    induction n, cells using widenCells.induct generalizing r with
    | case1 => rfl
    | case2 n ih => cases r <;> simp [widenCells, writeCells, ih]
    | case3 n c cells ih => cases r <;> simp [widenCells, writeCells, ih]
  exact congrArg Bank.mk (hcells n b.cells r)

/-- To clear a register that holds nothing makes room for it. -/
theorem write_default {b : Bank α} {r : Nat} (h : b.read r = default) :
    b.write r default = b.widen (r + 1) := by
  have hcells (cells : List α) (r : Nat) (h : (cells[r]?).getD default = default) :
      writeCells cells r default = widenCells (r + 1) cells := by
    induction r generalizing cells with
    | zero =>
      cases cells with
      | nil => rfl
      | cons c cells => exact congrArg (· :: cells) h.symm
    | succ r ih =>
      cases cells with
      | nil => exact congrArg (default :: ·) (ih [] rfl)
      | cons c cells => exact congrArg (c :: ·) (ih cells h)
  exact congrArg Bank.mk (hcells b.cells r h)

end Bank

/-! ## Worlds with another past -/

/-- What a world keeps of its past, and nobody can tell: the events, newest first, and for how
many handles there is room. -/
structure Past where
  events : List Event
  room : Nat

namespace World

/-- The same world, with `past` before everything that happened and with `a` for the last
answer. -/
def withPast (w : World) (past : Past) (a : Answer) : World :=
  { w with journal := w.journal ++ past.events, handles := w.handles.widen past.room, answer := a }

/-- The world as foreign code can see it, with no past and no answer. -/
def visible (w : World) : World := { w with journal := [], answer := .done }

variable (w : World) (past : Past) (a : Answer)

/-! ### What can be read -/

@[simp] theorem count_withPast (o : ObjectId) : (w.withPast past a).count o = w.count o := rfl

@[simp] theorem alive_withPast (o : ObjectId) : (w.withPast past a).alive o = w.alive o := rfl

@[simp] theorem custody_withPast (o : ObjectId) : (w.withPast past a).custody o = w.custody o := rfl

@[simp] theorem hashOutcome_withPast (o : ObjectId) :
    (w.withPast past a).hashOutcome o = w.hashOutcome o := rfl

@[simp] theorem address_withPast (h : Handle) : (w.withPast past a).address h = w.address h := by
  cases h <;> rfl

@[simp] theorem handle_withPast (h : Nat) : (w.withPast past a).handle h = w.handle h :=
  Bank.read_widen _ _ _

@[simp] theorem key?_withPast (k : Nat) : (w.withPast past a).key? k = w.key? k := rfl

@[simp] theorem registry_withPast (s : Nat) : (w.withPast past a).registry s = w.registry s := rfl

@[simp] theorem savedId?_withPast (n : Nat) : (w.withPast past a).savedId? n = w.savedId? n := rfl

@[simp] theorem gripped_withPast (grip : Grip) :
    grip.handle (w.withPast past a) = grip.handle w := by
  cases grip <;> simp [Grip.handle]

/-! ### Elementary changes -/

@[simp] theorem emit_withPast (e : Event) :
    (w.withPast past a).emit e = (w.emit e).withPast past a := rfl

@[simp] theorem log_withPast (m : LogMessage) :
    (w.withPast past a).log m = (w.log m).withPast past a := rfl

@[simp] theorem transfer_withPast (t : Transfer) (o : ObjectId) :
    (w.withPast past a).transfer t o = (w.transfer t o).withPast past a := rfl

@[simp] theorem modifyObject_withPast (o : ObjectId) (f : ForeignObject → ForeignObject) :
    (w.withPast past a).modifyObject o f = (w.modifyObject o f).withPast past a := rfl

@[simp] theorem adjust_withPast (o : ObjectId) (d : Int) :
    (w.withPast past a).adjust o d = (w.adjust o d).withPast past a := rfl

@[simp] theorem setCustody_withPast (o : ObjectId) (c : Custody) :
    (w.withPast past a).setCustody o c = (w.setCustody o c).withPast past a := rfl

@[simp] theorem setHandle_withPast (h : Nat) (new : Handle) :
    (w.withPast past a).setHandle h new = (w.setHandle h new).withPast past a := by
  simp only [setHandle, withPast, Bank.write_widen]

@[simp] theorem setKey_withPast (k : Nat) (new : Option Key) :
    (w.withPast past a).setKey k new = (w.setKey k new).withPast past a := rfl

@[simp] theorem setRegistry_withPast (s : Nat) (r : Registry) :
    (w.withPast past a).setRegistry s r = (w.setRegistry s r).withPast past a := rfl

@[simp] theorem acquire_withPast (h : Handle) :
    (w.withPast past a).acquire h = (w.acquire h).withPast past a := by
  cases h <;> rfl

@[simp] theorem abandon_withPast (h : Handle) :
    (w.withPast past a).abandon h = (w.abandon h).withPast past a := by
  cases h <;> rfl

@[simp] theorem saveId_withPast (save : Option Nat) (id : ListenerId) :
    (w.withPast past a).saveId save id = (w.saveId save id).withPast past a := by
  cases save <;> rfl

@[simp] theorem takeOne_withPast (o : ObjectId) :
    HostOp.takeOne (w.withPast past a) o = (HostOp.takeOne w o).withPast past a := rfl

@[simp] theorem borrow?_withPast (target : Handle) :
    (w.withPast past a).borrow? target = (w.borrow? target).map (·.withPast past a) := by
  cases target with
  | none => rfl
  | some o =>
    simp only [borrow?, alive_withPast, acquire_withPast]
    split <;> rfl

@[simp] theorem spend?_withPast (o : ObjectId) :
    (w.withPast past a).spend? o = (w.spend? o).map (·.withPast past a) := by
  have hset : (w.withPast past a).setCustody o = fun c => (w.setCustody o c).withPast past a := rfl
  simp only [spend?, alive_withPast, custody_withPast, hset]
  cases w.alive o <;> simp [Option.map_map, Function.comp_def]

@[simp] theorem adopt?_withPast (target : Handle) :
    (w.withPast past a).adopt? target = (w.adopt? target).map (·.withPast past a) := by
  cases target with
  | none => rfl
  | some o => simp [adopt?, Option.map_map, Function.comp_def]

@[simp] theorem obtain?_withPast (source : Source) :
    (w.withPast past a).obtain? source =
      (w.obtain? source).map fun x => (x.1, x.2.withPast past a) := by
  cases source <;> simp [obtain?, Option.map_map, Function.comp_def]

@[simp] theorem grip?_withPast (probe : Probe) :
    (w.withPast past a).grip? probe = (w.grip? probe).map fun x => (x.1, x.2.withPast past a) := by
  cases probe <;> simp [grip?, Option.map_map, Function.comp_def]

end World

namespace Outcome

def withPast (out : Outcome) (past : Past) (a : Answer) : Outcome :=
  { out with world := out.world.withPast past a }

variable (w : World) (past : Past) (a : Answer)

@[simp] theorem withPast_mk (call : Option Hook) (jobs : List Job) :
    Outcome.withPast ⟨w, call, jobs⟩ past a = ⟨w.withPast past a, call, jobs⟩ := rfl

@[simp] theorem say_withPast (answer : Answer) :
    say (w.withPast past a) answer = (say w answer).withPast past a := rfl

@[simp] theorem put_withPast (h : Nat) (new : Handle) (jobs : List Job) :
    put (w.withPast past a) h new jobs = (put w h new jobs).withPast past a := by
  simp [put]

@[simp] theorem putKey_withPast (k : Nat) (new : Option Key) (jobs : List Job) :
    putKey (w.withPast past a) k new jobs = (putKey w k new jobs).withPast past a := rfl

@[simp] theorem deliver_withPast (dest : Option Nat) (h : Handle) (jobs : List Job) :
    deliver (w.withPast past a) dest h jobs = (deliver w dest h jobs).withPast past a := by
  cases dest with
  | none => rfl
  | some r => exact put_withPast w past a r h jobs

end Outcome

/-! ## Operations -/

section

variable (w : World) (past : Past) (a : Answer)

theorem HandleOp.run_withPast (op : HandleOp) :
    op.run (w.withPast past a) = (op.run w).withPast past a := by
  cases op with
  | borrow h target =>
    simp only [run, World.borrow?_withPast]
    cases w.borrow? target <;> simp
  | adopt h target =>
    simp only [run, World.adopt?_withPast]
    cases w.adopt? target <;> simp
  | cloneFrom h src =>
    simp only [run, overwrite]
    split <;> simp
  | surrender h =>
    simp only [run, World.handle_withPast, World.setHandle_withPast]
    split <;> rfl
  | hash probe =>
    simp only [run, World.grip?_withPast]
    cases w.grip? probe <;> simp
  | _ => simp [run, copy, copyOver]

theorem HostOp.run_withPast (op : HostOp) :
    op.run (w.withPast past a) = (op.run w).withPast past a := by
  cases op with
  | decref o =>
    simp only [run, World.spend?_withPast]
    cases w.spend? o <;> simp [letGo]
  | recover h keep =>
    simp only [run, World.handle_withPast]
    split
    · rfl
    · cases keep <;> rfl
  | dropRecovered =>
    have hrecovered : (w.withPast past a).recovered = w.recovered := rfl
    simp only [run, hrecovered]
    cases w.recovered <;> rfl
  | retire | setHashing => rfl
  | _ =>
    simp only [run, World.alive_withPast, World.custody_withPast]
    split <;> simp [letGo, *]

theorem KeyOp.run_withPast (op : KeyOp) :
    op.run (w.withPast past a) = (op.run w).withPast past a := by
  cases op with
  | make k source =>
    simp only [run, World.obtain?_withPast]
    cases w.obtain? source <;> simp
  | drop k => rfl
  | compare r q =>
    simp only [run, World.key?_withPast]
    split <;> rfl
  | _ =>
    simp only [run, World.key?_withPast]
    split <;> simp

theorem KeySetOp.run_withPast (op : KeySetOp) :
    op.run (w.withPast past a) = (op.run w).withPast past a := by
  have hset : (w.withPast past a).keySet = w.keySet := rfl
  cases op with
  | insert k =>
    have hset (new : Option Key) :
        ((w.withPast past a).setKey k new).keySet = (w.setKey k new).keySet := rfl
    simp only [run, World.key?_withPast, hset]
    split
    · split <;> rfl
    · rfl
  | contains k =>
    simp only [run, World.key?_withPast]
    split <;> rfl
  | remove k =>
    simp only [run, World.key?_withPast, hset]
    split
    · split <;> rfl
    · rfl
  | targets | drain => rfl

namespace RegistryOp

theorem register_withPast (s : Nat) (k : Key) (save : Option Nat) :
    register (w.withPast past a) s k save = (register w s k save).map (·.withPast past a) := by
  simp only [register, World.registry_withPast, bind, Except.bind, pure, Except.pure]
  cases (w.registry s).register k with
  | error f => rfl
  | ok x =>
    obtain ⟨id?, r⟩ := x
    cases id? <;> simp [Except.map]

theorem unlink_withPast (s : Nat) (id : ListenerId) (dest : Option Nat) (jobs : Handle → List Job) :
    unlink (w.withPast past a) s id dest jobs = (unlink w s id dest jobs).map (·.withPast past a) := by
  simp only [unlink, World.registry_withPast, bind, Except.bind, pure, Except.pure]
  cases (w.registry s).unlink id with
  | error f => rfl
  | ok x =>
    obtain ⟨found, r⟩ := x
    cases found <;> simp [Except.map]

theorem logRemoved_withPast (removed : List (ListenerId × Key)) :
    logRemoved (w.withPast past a) removed = (logRemoved w removed).withPast past a := by
  induction removed generalizing w with
  | nil => rfl
  | cons e removed ih =>
    unfold logRemoved at ih ⊢
    simp only [List.foldl_cons, World.address_withPast, World.log_withPast, ih]

theorem screen_withPast (sc : Screening) :
    screen (w.withPast past a) sc = (screen w sc).map (·.withPast past a) := by
  cases hpending : sc.pending with
  | nil =>
    simp only [screen, hpending, prune, World.registry_withPast, bind, Except.bind, pure, Except.pure]
    cases (w.registry sc.registry).prune sc.doomed.reverse with
    | error f => rfl
    | ok x =>
      simp only [World.setRegistry_withPast, logRemoved_withPast, World.log_withPast, Except.map,
        Outcome.withPast_mk]
      split <;> rfl
  | cons i pending =>
    simp only [screen, hpending, World.registry_withPast]
    cases (w.registry sc.registry).entryAt? i with
    | none => rfl
    | some e =>
      obtain ⟨id, k⟩ := e
      have hasked : (k.handle.elim (w.withPast past a) fun o => (w.withPast past a).emit (.keep o)) =
          (k.handle.elim w fun o => w.emit (.keep o)).withPast past a := by
        cases k.handle <;> rfl
      have hverdict (v : World) (asked : Nat) (h : Handle) (rule : KeepRule) :
          verdict (v.withPast past a) asked h rule = verdict v asked h rule := by
        cases rule <;> rfl
      simp only [hasked, hverdict]
      split
      · rfl
      · split <;> rfl

theorem run_withPast (op : RegistryOp) :
    op.run (w.withPast past a) = (op.run w).map (·.withPast past a) := by
  cases op with
  | insert s source save =>
    simp only [run, World.obtain?_withPast]
    rcases w.obtain? source with _ | ⟨_ | o, w'⟩ <;> rfl
  | insertKey s k save =>
    simp only [run, World.key?_withPast]
    split
    · rfl
    · split
      · rfl
      · rw [World.setKey_withPast, register_withPast]
  | find s probe save | contains s probe | remove s probe dest =>
    simp only [run, World.grip?_withPast]
    rcases w.grip? probe with _ | ⟨grip, w'⟩
    · rfl
    · simp only [Option.map_some, World.gripped_withPast]
      split <;> rfl
  | get s n =>
    simp only [run, World.savedId?_withPast]
    split <;> rfl
  | removeId s n dest =>
    simp only [run, World.savedId?_withPast]
    split
    · rfl
    · rw [unlink_withPast]
  | sameId n n' =>
    simp only [run, World.savedId?_withPast]
    split <;> rfl
  | clear s =>
    simp only [run, World.registry_withPast, bind, Except.bind, pure, Except.pure]
    cases (w.registry s).drain <;> rfl
  | _ => rfl

end RegistryOp

theorem HashUse.resume_withPast (outcome : HashOutcome) (use : HashUse) :
    use.resume (w.withPast past a) outcome = (use.resume w outcome).map (·.withPast past a) := by
  cases use with
  | makeKey k h => cases outcome <;> rfl
  | insert s h save =>
    cases outcome with
    | error e => rfl
    | ok hash => exact RegistryOp.register_withPast w past a s _ save
  | find s grip save =>
    cases outcome with
    | error e => rfl
    | ok hash =>
      simp only [resume, World.registry_withPast, World.gripped_withPast, bind, Except.bind, pure,
        Except.pure]
      cases (w.registry s).locate hash (grip.handle w) with
      | error f => rfl
      | ok x =>
        obtain ⟨id?, r⟩ := x
        cases id? <;> simp [Except.map]
  | contains s grip =>
    cases outcome with
    | error e => rfl
    | ok hash =>
      simp only [resume, World.registry_withPast, World.gripped_withPast, bind, Except.bind, pure,
        Except.pure]
      cases (w.registry s).locate hash (grip.handle w) <;> rfl
  | remove s grip dest =>
    cases outcome with
    | error e => rfl
    | ok hash =>
      simp only [resume, World.registry_withPast, World.gripped_withPast, bind, Except.bind, pure,
        Except.pure]
      cases (w.registry s).locate hash (grip.handle w) with
      | error f => rfl
      | ok x =>
        obtain ⟨id?, r⟩ := x
        cases id? with
        | none => rfl
        | some id =>
          simp only [World.setRegistry_withPast]
          rw [RegistryOp.unlink_withPast]
  | _ => rfl

end

/-! ## Jobs -/

namespace Job

/-- The job looks at the answer of the last finished step. -/
def reads : Job → Bool
  | record | gather _ _ => true
  | _ => false

/-- What the job answers, if it does nothing else. -/
def said? (w : World) : Job → Option Answer
  | answer a => some a
  | answerCount o => some (.count (w.count o))
  | _ => none

variable (w : World) (past : Past) (a : Answer)

/-- **A job that looks at no answer** does the same whatever happened before, and keeps the
last answer or gives one of its own. -/
theorem run_withPast {t : Job} (ht : t.reads = false) :
    t.run (w.withPast past a) =
      (t.run w).map fun out => out.withPast past ((t.said? w).getD a) := by
  cases t with
  | perform step =>
    cases step with
    | op op =>
      cases op with
      | handle op => exact congrArg Except.ok (op.run_withPast w past a)
      | host op => exact congrArg Except.ok (op.run_withPast w past a)
      | key op => exact congrArg Except.ok (op.run_withPast w past a)
      | keySet op => exact congrArg Except.ok (op.run_withPast w past a)
      | registry op => exact op.run_withPast w past a
    | batch steps => cases steps <;> rfl
  | release h =>
    cases h with
    | none => rfl
    | some o =>
      by_cases hzero : ((w.adjust o (-1)).emit (.decref o)).count o = 0
      · have hrun : (release (some o)).run w = .ok _ := if_pos hzero
        have hsame : (release (some o)).run (w.withPast past a) = .ok _ := if_pos hzero
        rw [hrun, hsame]
        rfl
      · have hrun : (release (some o)).run w = .ok _ := if_neg hzero
        have hsame : (release (some o)).run (w.withPast past a) = .ok _ := if_neg hzero
        rw [hrun, hsame]
        rfl
  | ask use =>
    simp only [run, World.gripped_withPast]
    split
    · exact use.resume_withPast w past a (.ok 0)
    · rfl
  | hashed o use => exact use.resume_withPast (w.modifyObject o ForeignObject.countHash) past a _
  | screen sc => exact RegistryOp.screen_withPast w past a sc
  | install h new =>
    simp only [run, World.handle_withPast, World.abandon_withPast, World.setHandle_withPast]
    rfl
  | record | gather => cases ht
  | log | answer | answerCount | leave => rfl

/-- **A job does the same whatever happened before**, as long as the last answer is the
same. -/
theorem run_of_past (t : Job) :
    (∃ f, ∀ past, t.run (w.withPast past a) = .error f) ∨
      ∃ (out : Outcome) (answer : Answer), ∀ past,
        t.run (w.withPast past a) = .ok (out.withPast past answer) := by
  cases ht : t.reads with
  | false =>
    simp only [run_withPast w _ a ht]
    cases t.run w with
    | error f => exact Or.inl ⟨f, fun _ => rfl⟩
    | ok out => exact Or.inr ⟨out, _, fun _ => rfl⟩
  | true =>
    refine Or.inr ?_
    cases t with
    | record => exact ⟨{ world := w.emit (.answered a) }, a, fun _ => rfl⟩
    | gather rest answers =>
      cases rest with
      | nil => exact ⟨{ world := w }, .batch (answers ++ [a]), fun _ => rfl⟩
      | cons s rest =>
        exact ⟨{ world := w, jobs := [.perform s, .gather rest (answers ++ [a])] }, a, fun _ => rfl⟩
    | _ => cases ht

/-- A job strikes nothing from the journal. -/
theorem journal_run {w : World} {t : Job} {out : Outcome} (h : t.run w = .ok out) :
    w.journal <:+ out.world.journal := by
  rcases t.run_of_past w.visible w.answer with ⟨f, herr⟩ | ⟨out', answer, hrun⟩
  · cases h.symm.trans (herr ⟨w.journal, 0⟩)
  · obtain rfl := Except.ok.inj (h.symm.trans (hrun ⟨w.journal, 0⟩))
    exact List.suffix_append _ _

end Job

namespace Machine

variable {a b : Machine} {ms : List Machine}

theorem Turn.journal (h : Turn a b) : a.world.journal <:+ b.world.journal := by
  obtain ⟨w, t, rest, rfl, ⟨f, -, rfl⟩ | ⟨t', out, w', above, -, hrun, hw', -, rfl⟩⟩ := h.inv
  · exact List.suffix_rfl
  · rcases hw' with rfl | ⟨hook, -, rfl⟩
    · exact Job.journal_run hrun
    · exact (Job.journal_run hrun).trans (List.suffix_cons _ _)

/-- **The journal only grows.** -/
theorem Run.journal (h : Run a ms b) : a.world.journal <:+ b.world.journal := by
  induction h with
  | nil => exact List.suffix_rfl
  | cons hturn _ ih => exact hturn.journal.trans ih

end Machine

end ListenerRegistry
