import ListenerRegistry.Proofs.Closing
import ListenerRegistry.Proofs.Journal
import ListenerRegistry.Proofs.Mirror
import ListenerRegistry.Proofs.Survival

/-!
# Overwriting a handle in place

A handle that is overwritten by another one acquires first and releases last, so that an
object which both are on is never in danger. It comes to the same as to clone the other
handle into a variable of its own, to move the clone in place and to release what was there.
-/

namespace ListenerRegistry

/-! ## Handles on objects that there are -/

/-- The handles that are held or in hand, and the owners that are kept aside, are on objects
that there are. -/
structure World.Grounded (w : World) (hs : List Handle) : Prop where
  handles : ∀ o, w.objects.length ≤ o → w.held o + hs.count (some o) = 0
  recovered : ∀ o ∈ w.recovered, o < w.objects.length

namespace World.Grounded

variable {w w' : World} {hs hs' : List Handle} {o : ObjectId}

theorem lt_of_pos (h : w.Grounded hs) (ho : 0 < w.held o + hs.count (some o)) :
    o < w.objects.length := by
  refine Nat.lt_of_not_le fun hle => ?_
  have := h.handles o hle
  omega

theorem lt_of_handle (h : w.Grounded hs) {r : Nat} (hr : w.handle r = some o) :
    o < w.objects.length := by
  have := held_of_handle hr
  exact h.lt_of_pos (by omega)

theorem lt_of_vouches (h : w.Grounded hs) (hv : w.Vouches hs o) : o < w.objects.length := by
  rcases hv with halive | hhandle | howner
  · exact lt_length_of_alive halive
  · exact h.lt_of_pos hhandle
  · exact lt_length_of_hasOwner howner

theorem deal (h : w.Grounded hs) (hd : Deal w hs w' hs') : w'.Grounded hs' := by
  constructor
  · intro o ho
    rw [hd.length] at ho
    have hnone := h.handles o ho
    rcases hd.handles_le o with hle | hv | hrecovered
    · omega
    · exact absurd (h.lt_of_vouches hv) (Nat.not_lt.2 ho)
    · exact absurd (h.recovered o hrecovered) (Nat.not_lt.2 ho)
  · intro o ho
    rw [hd.length]
    exact (hd.recovered ho).elim (h.recovered o) h.lt_of_vouches

theorem abandon {p : ObjectId} (h : w.Grounded (some p :: hs)) :
    (w.transfer .abandoned p).Grounded hs where
  handles o ho := by
    have := h.handles o ho
    rw [List.count_cons] at this
    rw [held_transfer]
    omega
  recovered := h.recovered

end World.Grounded

/-- **No handle dangles**, whatever the host does to the counts. -/
theorem Machine.Run.grounded {objects : List ForeignObject} {steps : List Step}
    {ms : List Machine} {m : Machine} (h : Run (session objects steps) ms m) :
    ∀ a ∈ m :: ms, a.world.Grounded a.hands := by
  have hinit : (World.init objects).Grounded [] := ⟨fun _ _ => rfl, fun _ ho => nomatch ho⟩
  exact h.preserves_deals (P := World.Grounded) (fun hw hd => hw.deal hd) (fun hw => hw.abandon) hinit

/-! ## Acquiring and releasing -/

theorem Bank.write_write {α : Type} [Inhabited α] (b : Bank α) (r : Nat) (old new : α) :
    (b.write r old).write r new = b.write r new := by
  have hcells : ∀ (cells : List α) (r : Nat),
      writeCells (writeCells cells r old) r new = writeCells cells r new := by
    intro cells r
    fun_induction writeCells cells r old <;> simp_all [writeCells]
  exact congrArg Bank.mk (hcells b.cells r)

namespace World

variable (w : World)

@[simp] theorem handle_acquire (h : Handle) (r : Nat) : (w.acquire h).handle r = w.handle r := by
  cases h <;> rfl

@[simp] theorem handle_dispose (h : Handle) (r : Nat) : (w.dispose h).handle r = w.handle r := by
  cases h with
  | none => rfl
  | some o =>
    simp only [dispose, relinquish]
    split <;> rfl

theorem handle_setHandle (r : Nat) (new : Handle) (r' : Nat) :
    (w.setHandle r new).handle r' = if r' = r then new else w.handle r' :=
  Bank.read_write _ _ _ _

theorem setHandle_setHandle (r : Nat) (old new : Handle) :
    (w.setHandle r old).setHandle r new = w.setHandle r new := by
  simp only [setHandle, Bank.write_write]

theorem length_acquire_handle (h : Handle) : (w.acquire h).objects.length = w.objects.length := by
  cases h with
  | none => rfl
  | some o => exact length_modifyObject o _

variable {w}

/-- Acquiring a handle counts for its object alone. -/
theorem count_acquire_handle {h : Handle} (hh : ∀ p, h = some p → p < w.objects.length)
    (o : ObjectId) : (w.acquire h).count o = w.count o + if h = some o then 1 else 0 := by
  cases h with
  | none => simp [acquire]
  | some p =>
    by_cases ho : o < w.objects.length
    · simp [count_acquire p ho]
    · have hp : p ≠ o := fun hp => ho (hp ▸ hh p rfl)
      have hle := Nat.le_of_not_lt ho
      rw [count_of_length_le hle, count_of_length_le (by rwa [length_acquire_handle])]
      simp [hp]

/-- Releasing a handle counts for its object alone. -/
theorem count_dispose {h : Handle} (hh : ∀ p, h = some p → p < w.objects.length) (o : ObjectId) :
    (w.dispose h).count o = w.count o - if h = some o then 1 else 0 := by
  cases h with
  | none => simp [dispose]
  | some p =>
    by_cases ho : o < w.objects.length
    · rw [dispose, count_relinquish p ho]
      by_cases hp : p = o
      · simp [hp, Int.sub_eq_add_neg]
      · simp [hp]
    · have hp : p ≠ o := fun hp => ho (hp ▸ hh p rfl)
      have hle := Nat.le_of_not_lt ho
      rw [dispose, count_of_length_le hle, count_of_length_le (by rwa [length_relinquish])]
      simp [hp]

end World

/-! ## Turns that are bound to happen -/

namespace Machine

variable {P : Machine → Prop} {a b c : Machine} {rest : List Job} {ms ns : List Machine}

/-- Turns lead from the first machine to the last one, and they start at the machines in the
list. As long as `P` holds, there are no others to take. -/
inductive Guided (P : Machine → Prop) : Machine → List Machine → Machine → Prop where
  | nil (m : Machine) : Guided P m [] m
  | cons {a b c : Machine} {ms : List Machine} (hturn : Turn a b)
      (honly : ∀ b', Turn a b' → P b' → b' = b) (hrest : Guided P b ms c) :
      Guided P a (a :: ms) c

theorem Guided.run (h : Guided P a ms b) : Run a ms b := by
  induction h with
  | nil => exact .nil _
  | cons hturn _ _ ih => exact .cons hturn ih

theorem Guided.append (h : Guided P a ms b) (h' : Guided P b ns c) : Guided P a (ms ++ ns) c := by
  induction h with
  | nil => exact h'
  | cons hturn honly _ ih => exact .cons hturn honly (ih h')

/-- A run that goes far enough takes the turns that it is bound to take. -/
theorem Guided.of_run (h : Guided P a ms b) (hrun : Run a ns c)
    (hfar : ∀ x ∈ ms, c.jobs.length < x.jobs.length) (hns : ∀ x ∈ ns, P x) (hc : P c) :
    ∃ tail, ns = ms ++ tail ∧ Run b tail c := by
  induction h generalizing ns with
  | nil => exact ⟨ns, rfl, hrun⟩
  | cons _ honly _ ih =>
    obtain ⟨hfirst, hfar⟩ := List.forall_mem_cons.1 hfar
    obtain ⟨b', ns, rfl, hturn, hothers⟩ := hrun.inv_of_lt hfirst
    obtain ⟨-, hns⟩ := List.forall_mem_cons.1 hns
    have hb' : P b' := by
      cases hothers with
      | nil => exact hc
      | cons => exact hns b' List.mem_cons_self
    obtain rfl := honly b' hturn hb'
    obtain ⟨tail, rfl, htail⟩ := ih hothers hfar hns
    exact ⟨tail, rfl, htail⟩

/-- Turns that call nobody lead from the first machine to the last one. They start at the
machines in the list, and there are no others to take. -/
inductive Straight : Machine → List Machine → Machine → Prop where
  | nil (m : Machine) : Straight m [] m
  | cons {w : World} {t : Job} {js : List Job} {out : Outcome} {b : Machine} {ms : List Machine}
      (hrun : t.run w = .ok out) (hcall : out.call = none) (ht : t.visits = false)
      (hrest : Straight ⟨out.world, out.jobs ++ js, none⟩ ms b) :
      Straight ⟨w, t :: js, none⟩ (⟨w, t :: js, none⟩ :: ms) b

theorem Straight.guided (h : Straight a ms b) (P : Machine → Prop) : Guided P a ms b := by
  induction h with
  | nil => exact .nil _
  | cons hrun hcall ht _ ih =>
    exact .cons (.carry hrun) (fun b' hturn _ => hturn.eq_of_run rfl hrun hcall ht) ih

theorem Straight.run (h : Straight a ms b) : Run a ms b := (h.guided fun _ => True).run

theorem Straight.of_run (h : Straight a ms b) (hrun : Run a ns c)
    (hfar : ∀ x ∈ ms, c.jobs.length < x.jobs.length) : ∃ tail, ns = ms ++ tail ∧ Run b tail c :=
  (h.guided fun _ => True).of_run hrun hfar (fun _ _ => trivial) trivial

/-- The step `s` is carried out from beginning to end, in the world `w` and above the jobs
`rest`. Turns start at the machines `ms` and lead to `c`. -/
structure Executes (s : Step) (w : World) (rest : List Job) (ms : List Machine) (c : Machine) :
    Prop where
  run : Run ⟨w, .perform s :: rest, none⟩ ms c
  ends : c.jobs = rest
  within : ∀ x ∈ ms, rest.length < x.jobs.length

/-- A run ends where it comes to the jobs `rest`. -/
theorem Run.ended (h : Run a ms b) (ha : a.jobs = rest)
    (hms : ∀ x ∈ ms, rest.length < x.jobs.length) : ms = [] ∧ b = a := by
  cases h with
  | nil => exact ⟨rfl, rfl⟩
  | cons => exact absurd (hms a List.mem_cons_self) (by simp [ha])

/-- The last turns of a step, if they are bound to happen. -/
theorem Straight.ends (h : Straight a ms b) (hb : b.jobs = rest) (hrun : Run a ns c)
    (hc : c.jobs = rest) (hms : ∀ x ∈ ms, rest.length < x.jobs.length)
    (hns : ∀ x ∈ ns, rest.length < x.jobs.length) : ns = ms ∧ c = b := by
  obtain ⟨tail, rfl, htail⟩ := h.of_run hrun (by simpa [hc] using hms)
  obtain ⟨rfl, rfl⟩ := htail.ended hb fun x hx => hns x (List.mem_append_right _ hx)
  exact ⟨List.append_nil _, rfl⟩

end Machine

/-! ## Overwriting -/

namespace World

/-- The handle in `b` is copied to `a`, and what was in `a` is to be released yet. -/
def installed (w : World) (a b : Nat) : World := (w.acquire (w.handle b)).setHandle a (w.handle b)

/-- The handle in `a` is overwritten, and what was there is released. -/
def overwritten (w : World) (a b : Nat) : World := (w.installed a b).dispose (w.handle a)

/-- The object that loses its last reference when the handle in `a` is overwritten. -/
def finalized? (w : World) (a b : Nat) : Option ObjectId := (w.installed a b).last? (w.handle a)

variable {w : World} {hs : List Handle} {a b : Nat}

theorem handle_overwritten (w : World) (a b r : Nat) :
    (w.overwritten a b).handle r = if r = a then w.handle b else w.handle r := by
  simp [overwritten, installed, handle_setHandle]

theorem journal_overwritten (w : World) (a b : Nat) :
    (w.overwritten a b).journal = Event.collecting (w.finalized? a b) ++
      (Event.releasing (w.handle a) ++ (Event.acquiring (w.handle b) ++ w.journal)) := by
  rw [overwritten, journal_dispose, ← journal_acquire]
  rfl

theorem count_installed (hw : w.Grounded hs) (a b : Nat) (o : ObjectId) :
    (w.installed a b).count o = w.count o + if w.handle b = some o then 1 else 0 :=
  count_acquire_handle (fun _ hp => hw.lt_of_handle hp) o

/-- The new object counts one more, and then the old one counts one less. -/
theorem count_overwritten (hw : w.Grounded hs) (a b : Nat) (o : ObjectId) :
    (w.overwritten a b).count o = w.count o + (if w.handle b = some o then 1 else 0) -
      if w.handle a = some o then 1 else 0 := by
  have hlt : ∀ p, w.handle a = some p → p < (w.installed a b).objects.length := by
    intro p hp
    show p < (w.acquire (w.handle b)).objects.length
    rw [length_acquire_handle]
    exact hw.lt_of_handle hp
  rw [overwritten, count_dispose hlt, count_installed hw]

/-- An object is finalized if its only reference is overwritten, by another one. -/
theorem finalized?_eq_some (hw : w.Grounded hs) {o : ObjectId} :
    w.finalized? a b = some o ↔
      w.handle a = some o ∧ w.count o = if w.handle b = some o then 0 else 1 := by
  rw [finalized?, last?_eq_some]
  refine and_congr_right fun ha => ?_
  have hlt : o < (w.installed a b).objects.length := by
    show o < (w.acquire (w.handle b)).objects.length
    rw [length_acquire_handle]
    exact hw.lt_of_handle ha
  rw [count_adjust o (-1) hlt, if_pos rfl, count_installed hw]
  split <;> omega

end World

namespace Machine

/-- The reference that is copied is acquired and in place, and the old one is released next. -/
def installing (w : World) (a b : Nat) (js : List Job) : Machine :=
  ⟨w.installed a b, .release (w.handle a) :: js, none⟩

/-- How the handle in `a` is overwritten by the one in `b`: the `hooks` are where turns of
finalizers start, and `e` is where all that is left is to answer. -/
structure Overwrites (w : World) (a b : Nat) (rest : List Job) (ms : List Machine) (c : Machine)
    (hooks : List Machine) (e : Machine) : Prop where
  during : ms = ⟨w, .perform (.op (.handle (.cloneFrom a b))) :: rest, none⟩ ::
    installing w a b (.answer .done :: rest) :: (hooks ++ [e])
  ends : c = ⟨{ e.world with answer := .done }, rest, none⟩
  hosted : ∀ x ∈ hooks, x.Hosts (.answer .done :: rest)
  /-- What a finalizer finds, or the caller if there is none. -/
  found : ∀ y, (hooks ++ [e]).head? = some y →
    (hooks = [] ∧ y.world = w.overwritten a b) ∨
      ∃ o, w.finalized? a b = some o ∧ y.world = (w.overwritten a b).emit (.enter ⟨.collect, o⟩)

variable {w : World} {a b : Nat} {rest js : List Job} {ms ns : List Machine} {c x y : Machine}

/-- After a release comes what waits, unless a finalizer is called. -/
theorem Turn.of_release (h : Turn x y) {h' : Handle} (hx : x.jobs = .release h' :: js) :
    y = ⟨x.world.dispose h', js, none⟩ ∨
      ∃ o script, x.world.last? h' = some o ∧
        y = ⟨(x.world.dispose h').emit (.enter ⟨.collect, o⟩), body ⟨.collect, o⟩ script ++ js,
          none⟩ := by
  cases h.follows hx (Job.run_release _ _) with
  | next => exact Or.inl rfl
  | hook hook script hcall =>
    obtain ⟨o, ho, rfl⟩ := Option.map_eq_some_iff.1 hcall
    exact Or.inr ⟨o, script, ho, rfl⟩
  | predicate _ _ hscreen => cases hscreen

theorem straight_overwrite (w : World) {a b : Nat} (hab : a ≠ b) (rest : List Job) :
    Straight ⟨w, .perform (.op (.handle (.cloneFrom a b))) :: rest, none⟩
      [⟨w, .perform (.op (.handle (.cloneFrom a b))) :: rest, none⟩]
      (installing w a b (.answer .done :: rest)) := by
  have hrun : (Job.perform (.op (.handle (.cloneFrom a b)))).run w = .ok
      { world := w.installed a b, jobs := [.release (w.handle a), .answer .done] } := by
    simp only [Job.run, Op.run, HandleOp.run, HandleOp.overwrite, if_neg hab, Outcome.put,
      World.handle_acquire]
    rfl
  exact .cons hrun rfl rfl (.nil _)

theorem straight_answer (w : World) (answer : Answer) (js : List Job) :
    Straight ⟨w, .answer answer :: js, none⟩ [⟨w, .answer answer :: js, none⟩]
      ⟨{ w with answer }, js, none⟩ :=
  .cons rfl rfl rfl (.nil _)

/-- An operation that has only to close and to answer can be brought to its end. -/
theorem exists_closing {closing : List Job} (hclosing : ∀ u ∈ closing, u.Closing) (v : World)
    (answer : Answer) (rest : List Job) : ∃ ms b,
      Run ⟨v, closing ++ .answer answer :: rest, none⟩ ms b ∧ b.jobs = rest ∧
        ∀ x ∈ ms, rest.length < x.jobs.length := by
  induction closing generalizing v with
  | nil => exact ⟨_, _, (straight_answer v answer rest).run, rfl, by simp⟩
  | cons u closing ih =>
    obtain ⟨hu, hclosing⟩ := List.forall_mem_cons.1 hclosing
    obtain ⟨⟨out, hrun, hnone⟩, -, -⟩ := hu.run v
    obtain ⟨ms, b, hrest, hb, hlonger⟩ := ih hclosing out.world
    refine ⟨_ :: ms, b, .cons (.carry hrun) ?_, hb,
      List.forall_mem_cons.2 ⟨by simp; omega, hlonger⟩⟩
    rw [hnone]
    exact hrest

/-- A handle can be overwritten in any state. -/
theorem exists_overwriting (w : World) (hab : a ≠ b) (rest : List Job) :
    ∃ ms c, Executes (.op (.handle (.cloneFrom a b))) w rest ms c := by
  obtain ⟨ms, c, hrun, hc, hlonger⟩ := exists_closing
    (Job.closing_releases id [w.handle a]) (w.installed a b) .done rest
  exact ⟨_, c, (straight_overwrite w hab rest).run.append hrun, hc,
    List.forall_mem_append.2 ⟨by simp, hlonger⟩⟩

/-- **From beginning to end**, a handle is overwritten in one turn, in another one the old
reference is released, and then only a finalizer runs before the answer. -/
theorem Executes.overwrites (h : Executes (.op (.handle (.cloneFrom a b))) w rest ms c)
    (hab : a ≠ b) : ∃ hooks e, Overwrites w a b rest ms c hooks e := by
  obtain ⟨tail, rfl, htail⟩ := (straight_overwrite w hab rest).of_run h.run (by simp [h.ends])
  obtain ⟨_, tail, rfl, -, -⟩ := htail.inv_of_lt (by simp +arith [h.ends, installing])
  obtain ⟨hooks, e, after, rfl, hrun, hafter, he, hhosts⟩ :=
    htail.hosted rfl (Job.run_release _ _) rfl (by simp [h.ends])
  obtain ⟨_, after, rfl, hturn, -⟩ := hafter.inv_of_lt (by simp [h.ends, he])
  obtain ⟨v, js, fault⟩ := e
  obtain rfl : fault = none := hturn.running
  obtain rfl : js = .answer .done :: rest := he
  obtain ⟨hlast, rfl⟩ := (straight_answer v .done rest).ends rfl hafter h.ends (by simp)
    fun x hx => h.within x (by simp [hx])
  refine ⟨hooks, ⟨v, .answer .done :: rest, none⟩, by simp [hlast], rfl, hhosts, fun y hy => ?_⟩
  cases hrun with
  | cons hturn hrest =>
    obtain rfl := Option.some.inj (hrest.head?.symm.trans hy)
    rcases hturn.of_release rfl with rfl | ⟨o, script, ho, rfl⟩
    · refine Or.inl ⟨?_, rfl⟩
      -- a finalizer would have other jobs to do
      rcases hooks with _ | ⟨z, hooks⟩
      · rfl
      · obtain rfl := Option.some.inj hy
        exact absurd (hhosts _ List.mem_cons_self).length (Nat.lt_irrefl _)
    · exact Or.inr ⟨o, ho, rfl⟩

namespace Overwrites

variable {hooks : List Machine} {e : Machine} {hs : List Handle}

/-- Without a finalizer, the world in the end is the one after the release. -/
theorem world_of_no_hooks (h : Overwrites w a b rest ms c [] e) (hnone : w.finalized? a b = none) :
    c.world = { w.overwritten a b with answer := .done } := by
  rcases h.found e rfl with ⟨-, he⟩ | ⟨o, ho, -⟩
  · rw [h.ends, he]
  · rw [hnone] at ho
    cases ho

/-- If nothing is finalized, no foreign code runs. -/
theorem hooks_eq_nil (h : Overwrites w a b rest ms c hooks e) (hnone : w.finalized? a b = none) :
    hooks = [] := by
  obtain ⟨y, hy⟩ : ∃ y, (hooks ++ [e]).head? = some y := by
    cases hooks <;> exact ⟨_, rfl⟩
  rcases h.found y hy with ⟨hooks, -⟩ | ⟨o, ho, -⟩
  · exact hooks
  · rw [hnone] at ho
    cases ho

/-- The calls of the operation itself come first. -/
theorem journal (h : Overwrites w a b rest ms c hooks e)
    (hexec : Executes (.op (.handle (.cloneFrom a b))) w rest ms c) :
    (w.overwritten a b).journal <:+ c.world.journal := by
  obtain ⟨y, tail, hy⟩ := List.exists_cons_of_ne_nil (List.append_ne_nil_of_right_ne_nil hooks
    (List.cons_ne_nil e []))
  have hsplit : ms = [⟨w, .perform (.op (.handle (.cloneFrom a b))) :: rest, none⟩,
      installing w a b (.answer .done :: rest)] ++ y :: tail := by
    rw [h.during, hy]
    rfl
  obtain ⟨-, hrun⟩ := (hsplit ▸ hexec.run).split
  refine List.IsSuffix.trans ?_ hrun.journal
  rcases h.found y (by rw [hy]; rfl) with ⟨-, hworld⟩ | ⟨o, -, hworld⟩
  · rw [hworld]
  · rw [hworld]
    exact List.suffix_cons _ _

/-- **The calls in their order**: at most one reference is acquired, then at most one is
released, and then at most one object is finalized. Whatever comes later is foreign. -/
theorem events (h : Overwrites w a b rest ms c hooks e)
    (hexec : Executes (.op (.handle (.cloneFrom a b))) w rest ms c) :
    ∃ later, World.eventsSince w c.world = Event.acquiring (w.handle b) ++
        (Event.releasing (w.handle a) ++ (Event.collecting (w.finalized? a b) ++ later)) ∧
      (w.finalized? a b = none → later = []) := by
  obtain ⟨new, hnew⟩ := h.journal hexec
  rw [World.journal_overwritten, ← List.append_assoc, ← List.append_assoc, ← List.append_assoc]
    at hnew
  refine ⟨new.reverse, ?_, fun hnone => ?_⟩
  · rw [World.eventsSince_of_append hnew.symm]
    cases w.finalized? a b <;> cases w.handle a <;> cases w.handle b <;>
      simp [Event.collecting, Event.releasing, Event.acquiring]
  · obtain rfl := h.hooks_eq_nil hnone
    rw [h.world_of_no_hooks hnone] at hnew
    have hsame : new ++ (w.overwritten a b).journal = (w.overwritten a b).journal := by
      rw [World.journal_overwritten, ← List.append_assoc, ← List.append_assoc, ← List.append_assoc,
        hnew, World.journal_overwritten]
    rw [List.append_left_eq_self.1 hsame, List.reverse_nil]

end Overwrites

end Machine

/-! ## A clone in a variable of its own -/

namespace World

variable (w : World) (t : Nat)

/-- The same world, with room for the variable `t`. -/
def withRoom : World := { w with handles := w.handles.widen (t + 1) }

@[simp] theorem handle_withRoom (r : Nat) : (w.withRoom t).handle r = w.handle r :=
  Bank.read_widen _ _ _

theorem setHandle_withRoom (r : Nat) (new : Handle) :
    (w.withRoom t).setHandle r new = (w.setHandle r new).withRoom t := by
  simp only [setHandle, withRoom, Bank.write_widen]

variable {w t}

/-- To clear a null variable makes room for it. -/
theorem setHandle_null (h : w.handle t = none) : w.setHandle t none = w.withRoom t :=
  congrArg (fun handles => { w with handles }) (Bank.write_default h)

end World

namespace Machine

variable {w : World} {a b : Nat} {rest : List Job} {ms ns : List Machine} {c y : Machine}

/-- Clones the handle in `b` to `t`, and moves the clone to `a`, which releases what was
there. -/
def cloneThrough (t a b : Nat) : Step :=
  .batch [.op (.handle (.clone t b)), .op (.handle (.take a t))]

/-- What waits when the handle in `a` has been replaced by a clone from `t`. -/
def answering (rest : List Job) : List Job :=
  .answer (.flag true) :: .gather [] [.done] :: rest

/-- The clone is in place, and the old reference is released next. -/
def replacing (w : World) (t a b : Nat) (rest : List Job) : Machine :=
  ⟨{ (w.installed a b).withRoom t with answer := .done },
    .release (w.handle a) :: answering rest, none⟩

theorem straight_cloneThrough {t : Nat} (hnull : w.handle t = none) (a b : Nat)
    (rest : List Job) :
    ∃ lead, Straight ⟨w, .perform (cloneThrough t a b) :: rest, none⟩ lead
        (replacing w t a b rest) ∧
      ∀ x ∈ lead, rest.length < x.jobs.length := by
  let cloned : World := (w.acquire (w.handle b)).setHandle t (w.handle b)
  have hclone : (Job.perform (.op (.handle (.clone t b)))).run w =
      .ok { world := cloned, jobs := [.release none, .answer .done] } := by
    simp only [Job.run, Op.run, HandleOp.run, HandleOp.copy, Outcome.put, World.handle_acquire, hnull]
    rfl
  have htake : (Job.perform (.op (.handle (.take a t)))).run { cloned with answer := .done } =
      .ok { world := { (w.installed a b).withRoom t with answer := .done }
            jobs := [.release (w.handle a), .answer (.flag true)] } := by
    have hsource : World.handle { cloned with answer := .done } t = w.handle b := by
      show cloned.handle t = _
      rw [World.handle_setHandle, if_pos rfl]
    -- the variable is null again, as it was, but there is room for it now
    have hcleared : cloned.setHandle t none = (w.acquire (w.handle b)).withRoom t := by
      rw [World.setHandle_setHandle, World.setHandle_null]
      rw [World.handle_acquire, hnull]
    have hworld : World.setHandle { cloned with answer := .done } t none =
        { (w.acquire (w.handle b)).withRoom t with answer := .done } := by
      rw [← hcleared]
      rfl
    have hread (r : Nat) :
        World.handle { (w.acquire (w.handle b)).withRoom t with answer := .done } r =
          w.handle r := by
      show ((w.acquire (w.handle b)).withRoom t).handle r = _
      rw [World.handle_withRoom, World.handle_acquire]
    have hmoved : World.setHandle { (w.acquire (w.handle b)).withRoom t with answer := .done } a
        (w.handle b) = { (w.installed a b).withRoom t with answer := .done } := by
      rw [World.installed, ← World.setHandle_withRoom]
      rfl
    simp only [Job.run, Op.run, HandleOp.run, Outcome.put, hworld, hread, hnull, hsource, hmoved]
    rfl
  refine ⟨_, .cons rfl rfl rfl (.cons hclone rfl rfl (.cons rfl rfl rfl (.cons rfl rfl rfl
    (.cons rfl rfl rfl (.cons htake rfl rfl (.nil _)))))), ?_⟩
  simp +arith

/-- Moving a clone from `t` to `a` does the same, turn by turn, as overwriting the handle in
`a`: the old reference is released, and then come the answers. -/
abbrev AsOverwriting (w : World) (t a b : Nat) (rest : List Job) :
    List Machine → List Machine → Prop :=
  Parallel (.answer .done :: rest) (answering rest) ⟨(w.installed a b).journal, 0⟩
    ⟨(w.installed a b).journal, t + 1⟩

/-- The turns `ms` of overwriting the handle in `a`, up to `c`, and the turns `ns` of moving a
clone from `t` to `a`, up to `d`, come to the same. From the release of the old handle on they
are the same turn by turn, but for the answer, and so is the world in the end. -/
structure Tallies (w : World) (t a b : Nat) (rest : List Job) (lead ms : List Machine)
    (c : Machine) (ns : List Machine) (d : Machine) : Prop where
  turns : ∃ xs ys last,
    ms = ⟨w, .perform (.op (.handle (.cloneFrom a b))) :: rest, none⟩ :: xs ∧
    ns = lead ++ (ys ++ [last]) ∧ AsOverwriting w t a b rest xs ys
  handles : ∀ r, d.world.handle r = c.world.handle r
  world : d.world =
    { c.world with handles := d.world.handles, answer := .batch [.done, .flag true] }

/-- The last answer is not the same, and there is room for one more variable, but nothing
looks at either. -/
theorem mirrors_installing (w : World) (t a b : Nat) (rest : List Job) :
    Mirrors (.answer .done :: rest) (answering rest) ⟨(w.installed a b).journal, 0⟩
      ⟨(w.installed a b).journal, t + 1⟩ (installing w a b (.answer .done :: rest))
      (replacing w t a b rest) :=
  .intro (w.installed a b).visible [.release (w.handle a)] none (Or.inr rfl)

section

variable {lead xs ys : List Machine} {t : Nat} {e : Machine}

theorem straight_answering (v : World) (rest : List Job) :
    Straight ⟨v, answering rest, none⟩
      [⟨v, answering rest, none⟩, ⟨{ v with answer := .flag true }, .gather [] [.done] :: rest, none⟩]
      ⟨{ v with answer := .batch [.done, .flag true] }, rest, none⟩ :=
  .cons rfl rfl rfl (.cons rfl rfl rfl (.nil _))

/-- Runs that do the same up to the answers are completed by them. -/
theorem executes_of_parallel (hab : a ≠ b)
    (hlead : Straight ⟨w, .perform (cloneThrough t a b) :: rest, none⟩ lead (replacing w t a b rest))
    (hlonger : ∀ x ∈ lead, rest.length < x.jobs.length)
    (hxs : Run (installing w a b (.answer .done :: rest)) xs e) (he : e.jobs = .answer .done :: rest)
    (hys : Run (replacing w t a b rest) ys y)
    (hall : AsOverwriting w t a b rest xs ys)
    (hey : Mirrors (.answer .done :: rest) (answering rest) ⟨(w.installed a b).journal, 0⟩
      ⟨(w.installed a b).journal, t + 1⟩ e y) (hfault : e.fault = none) :
    ∃ c last d, Straight e [e] c ∧ Straight y [y, last] d ∧ c.jobs = rest ∧ d.jobs = rest ∧
      rest.length < last.jobs.length ∧
      Executes (.op (.handle (.cloneFrom a b))) w rest
        (⟨w, .perform (.op (.handle (.cloneFrom a b))) :: rest, none⟩ :: (xs ++ [e])) c ∧
      Executes (cloneThrough t a b) w rest (lead ++ (ys ++ [y, last])) d ∧
      Tallies w t a b rest lead
        (⟨w, .perform (.op (.handle (.cloneFrom a b))) :: rest, none⟩ :: (xs ++ [e])) c
        (lead ++ (ys ++ [y, last])) d := by
  have hends : AsOverwriting w t a b rest (xs ++ [e]) (ys ++ [y]) :=
    List.rel_append hall (.cons hey .nil)
  obtain ⟨v, last, last', rfl, rfl⟩ := hey.worlds he hfault
  have hc := straight_answer (v.withPast ⟨(w.installed a b).journal, 0⟩ last) .done rest
  have hd := straight_answering (v.withPast ⟨(w.installed a b).journal, t + 1⟩ last') rest
  refine ⟨_, _, _, hc, hd, rfl, rfl, by simp, ⟨?_, rfl, ?_⟩, ⟨?_, rfl, ?_⟩,
    ⟨_, _, _, rfl, by rw [List.append_cons ys], hends⟩, v.handle_withRoom t, rfl⟩
  · exact (straight_overwrite w hab rest).run.append (hxs.append hc.run)
  · exact List.forall_mem_cons.2 ⟨by simp, fun x hx => hends.le_length x hx⟩
  · exact hlead.run.append (hys.append hd.run)
  · rw [List.forall_mem_append]
    refine ⟨hlonger, fun x hx => ?_⟩
    rw [List.append_cons ys, List.mem_append, List.mem_singleton] at hx
    rcases hx with hx | rfl
    · have := hends.symm.le_length x hx
      simp only [answering, List.length_cons] at this
      omega
    · simp

/-- Every way to overwrite the handle is a way to move a clone there. -/
theorem Executes.cloneThrough (h : Executes (.op (.handle (.cloneFrom a b))) w rest ms c)
    (hab : a ≠ b)
    (hlead : Straight ⟨w, .perform (cloneThrough t a b) :: rest, none⟩ lead (replacing w t a b rest))
    (hlonger : ∀ x ∈ lead, rest.length < x.jobs.length) :
    ∃ ns d, Executes (cloneThrough t a b) w rest ns d ∧ Tallies w t a b rest lead ms c ns d := by
  obtain ⟨tail, rfl, htail⟩ := (straight_overwrite w hab rest).of_run h.run (by simp [h.ends])
  obtain ⟨xs, e, after, ys, y, rfl, hxs, hafter, he, hys, -, hall, hey⟩ :=
    htail.mirror_returns (mirrors_installing w t a b rest) (by simp [h.ends])
  obtain ⟨_, _, -, hturn, -⟩ := hafter.inv_of_lt (by simp [h.ends, he])
  obtain ⟨c', last, d, hc, -, hc', -, -, -, hexec, htallies⟩ :=
    executes_of_parallel hab hlead hlonger hxs he hys hall hey hturn.running
  obtain ⟨rfl, rfl⟩ := hc.ends hc' hafter h.ends (by simp [he])
    fun x hx => h.within x (by simp [hx])
  exact ⟨_, d, hexec, htallies⟩

/-- Every way to move a clone to `a` is a way to overwrite the handle there. -/
theorem Executes.cloneFrom (h : Executes (Machine.cloneThrough t a b) w rest ns c) (hab : a ≠ b)
    (hlead : Straight ⟨w, .perform (Machine.cloneThrough t a b) :: rest, none⟩ lead
      (replacing w t a b rest))
    (hlonger : ∀ x ∈ lead, rest.length < x.jobs.length) :
    ∃ ms d, Executes (.op (.handle (.cloneFrom a b))) w rest ms d ∧
      Tallies w t a b rest lead ms d ns c := by
  obtain ⟨tail, rfl, htail⟩ := hlead.of_run h.run (by simpa [h.ends] using hlonger)
  obtain ⟨ys, y, after, xs, e, rfl, hys, hafter, hy, hxs, he, hall, hey⟩ :=
    htail.mirror_returns (mirrors_installing w t a b rest).symm (by simp +arith [h.ends, answering])
  obtain ⟨_, _, -, hturn, -⟩ := hafter.inv_of_lt (by simp +arith [h.ends, hy, answering])
  have hfault : e.fault = none := by
    cases hey
    exact hturn.running
  obtain ⟨d, last, c', -, hc, -, hc', hlast, hexec, -, htallies⟩ :=
    executes_of_parallel hab hlead hlonger hxs he hys hall.symm hey.symm hfault
  obtain ⟨rfl, rfl⟩ := hc.ends hc' hafter h.ends (by simpa +arith [hy, answering] using hlast)
    fun x hx => h.within x (by simp [hx])
  exact ⟨_, d, hexec, htallies⟩

end

namespace Overwrites

variable {hooks : List Machine} {e : Machine} {hs : List Handle} {o : ObjectId}

/-- The only reference of an object is not its last one if it is copied onto itself. -/
theorem spares (h : Overwrites w a b rest ms c hooks e)
    (hexec : Executes (.op (.handle (.cloneFrom a b))) w rest ms c) (hw : w.Grounded hs)
    (ha : w.handle a = some o) (hb : w.handle b = some o) (hpos : 0 < w.count o) :
    hooks = [] ∧ World.eventsSince w c.world = [.incref o, .decref o] ∧
      c.world.count o = w.count o := by
  have hnone : w.finalized? a b = none := by
    refine Option.eq_none_iff_forall_ne_some.2 fun p hp => ?_
    obtain ⟨hp, hcount⟩ := (World.finalized?_eq_some hw).1 hp
    obtain rfl := Option.some.inj (ha.symm.trans hp)
    rw [if_pos hb] at hcount
    omega
  obtain ⟨later, hevents, hlater⟩ := h.events hexec
  obtain rfl := h.hooks_eq_nil hnone
  refine ⟨rfl, ?_, ?_⟩
  · rw [hevents, hlater hnone, hnone, ha, hb]
    rfl
  · rw [h.world_of_no_hooks hnone]
    show (w.overwritten a b).count o = _
    rw [World.count_overwritten hw, if_pos ha, if_pos hb]
    omega

/-- Another object's reference that is overwritten finalizes it if it is the last one. -/
theorem collects_iff (h : Overwrites w a b rest ms c hooks e)
    (hexec : Executes (.op (.handle (.cloneFrom a b))) w rest ms c) (hw : w.Grounded hs)
    (ha : w.handle a = some o) (hb : w.handle b ≠ some o) :
    .collect o ∈ World.eventsSince w c.world ↔ w.count o = 1 := by
  have hfinal := World.finalized?_eq_some (a := a) (b := b) (o := o) hw
  rw [if_neg hb] at hfinal
  obtain ⟨later, hevents, hlater⟩ := h.events hexec
  rw [hevents]
  constructor
  · intro hmem
    -- what is not finalized at once is not finalized later
    cases hfinalized : w.finalized? a b with
    | none =>
      rw [hfinalized, hlater hfinalized, ha] at hmem
      cases hb' : w.handle b <;>
        simp [hb', Event.acquiring, Event.releasing, Event.collecting] at hmem
    | some p =>
      obtain ⟨hp, -⟩ := (World.finalized?_eq_some hw).1 hfinalized
      obtain rfl := Option.some.inj (ha.symm.trans hp)
      exact (hfinal.1 hfinalized).2
  · intro hcount
    rw [hfinal.2 ⟨ha, hcount⟩]
    simp [Event.collecting]

/-- Without a finalizer, the counts are those after the release. -/
theorem count_of_no_hooks (h : Overwrites w a b rest ms c [] e) (o : ObjectId) :
    c.world.count o = (w.overwritten a b).count o := by
  rw [h.ends]
  show e.world.count o = _
  rcases h.found e rfl with ⟨-, he⟩ | ⟨p, -, he⟩ <;> rw [he]
  rfl

end Overwrites

/-- **Overwriting a handle is assignment of a clone, and acquires before it releases.** The
calls are at most one that acquires a reference on the object of `b`, then at most one that
releases the reference of `a`, and then the finalizer, which finds the handle of `b` in `a`.
An object that both handles are on is not finalized, not even if nobody else refers to it;
otherwise the old one is finalized if its count was one, and the counts of others are left to
the finalizer. To clone `b` into a null variable `t`, to move the clone to `a` and to release
what was there does the same: the same calls, the same finalizers in the same worlds, and the
same world in the end. -/
theorem overwriting_acquires_first {hs : List Handle} (hw : w.Grounded hs) (hab : a ≠ b)
    (rest : List Job) :
    (∃ ms c, Executes (.op (.handle (.cloneFrom a b))) w rest ms c) ∧
    (∀ ms c, Executes (.op (.handle (.cloneFrom a b))) w rest ms c → ∃ hooks e,
      Overwrites w a b rest ms c hooks e ∧
      (∃ later, World.eventsSince w c.world = Event.acquiring (w.handle b) ++
          (Event.releasing (w.handle a) ++ (Event.collecting (w.finalized? a b) ++ later)) ∧
        (w.finalized? a b = none → hooks = [] ∧ later = [])) ∧
      (∀ o, w.handle a = some o → w.handle b = some o → 0 < w.count o →
        hooks = [] ∧ World.eventsSince w c.world = [.incref o, .decref o] ∧
          c.world.count o = w.count o) ∧
      (∀ o, w.handle a = some o → w.handle b ≠ some o →
        (.collect o ∈ World.eventsSince w c.world ↔ w.count o = 1)) ∧
      (hooks = [] → ∀ o, c.world.count o = (w.overwritten a b).count o)) ∧
    (∀ r, (w.overwritten a b).handle r = if r = a then w.handle b else w.handle r) ∧
    (∀ o, (w.overwritten a b).count o = w.count o + (if w.handle b = some o then 1 else 0) -
      if w.handle a = some o then 1 else 0) ∧
    (∀ t, w.handle t = none → ∃ lead,
      Straight ⟨w, .perform (cloneThrough t a b) :: rest, none⟩ lead (replacing w t a b rest) ∧
      (∀ ms c, Executes (.op (.handle (.cloneFrom a b))) w rest ms c → ∃ ns d,
        Executes (cloneThrough t a b) w rest ns d ∧ Tallies w t a b rest lead ms c ns d) ∧
      (∀ ns d, Executes (cloneThrough t a b) w rest ns d → ∃ ms c,
        Executes (.op (.handle (.cloneFrom a b))) w rest ms c ∧
          Tallies w t a b rest lead ms c ns d)) := by
  refine ⟨exists_overwriting w hab rest, fun ms c hexec => ?_, w.handle_overwritten a b,
    World.count_overwritten hw a b, fun t ht => ?_⟩
  · obtain ⟨hooks, e, h⟩ := hexec.overwrites hab
    obtain ⟨later, hevents, hlater⟩ := h.events hexec
    refine ⟨hooks, e, h, ⟨later, hevents, fun hnone => ⟨h.hooks_eq_nil hnone, hlater hnone⟩⟩,
      fun o ha hb hpos => h.spares hexec hw ha hb hpos,
      fun o ha hb => h.collects_iff hexec hw ha hb, ?_⟩
    rintro rfl
    exact h.count_of_no_hooks
  · obtain ⟨lead, hlead, hlonger⟩ := straight_cloneThrough ht a b rest
    exact ⟨lead, hlead, fun ms c hexec => hexec.cloneThrough hab hlead hlonger,
      fun ns d hexec => hexec.cloneFrom hab hlead hlonger⟩

/-- Two objects, each held once. -/
def handoverObjects : List ForeignObject :=
  [.plain 0x1000 1 (.always .identity), .plain 0x2000 1 (.always .identity)]

/-- The finalizer of the first object looks at the handle that is overwritten, and drops it. -/
def handover : Program :=
  ⟨[⟨none, some [.op (.handle (.peek 0)), .op (.handle (.drop 0))]⟩]⟩

/-- Takes over the only reference on the first object, and overwrites it by one on the second
object. -/
def handoverSteps : List Step :=
  [.op (.handle (.adopt 0 (some 0))), .op (.handle (.borrow 1 (some 1))),
    .op (.handle (.cloneFrom 0 1))]

/-- The machine that is about to overwrite the handle. -/
def handingOver : Machine := (session handoverObjects handoverSteps).turns handover 6

/-- The first object is finalized, and the handle that its finalizer drops is one on the
second object. Moving a clone there comes to the same. -/
theorem overwriting_acquires_first_in_handover :
    .collect 0 ∈ World.eventsSince handingOver.world (handingOver.turns handover 11).world ∧
    (handingOver.world.overwritten 0 1).handle 0 = some 1 ∧
    (handingOver.turns handover 11).world.handle 0 = none ∧
    ∃ ns d, Executes (cloneThrough 2 0 1) handingOver.world [] ns d ∧ d.world.handle 0 = none ∧
      d.world.journal = (handingOver.turns handover 11).world.journal := by
  have hgrounded : handingOver.world.Grounded handingOver.hands :=
    (run_visited handover 6 (session handoverObjects handoverSteps)).grounded _ List.mem_cons_self
  have hexec : Executes (.op (.handle (.cloneFrom 0 1))) handingOver.world []
      (visited handover 11 handingOver) (handingOver.turns handover 11) :=
    ⟨run_visited handover 11 handingOver, rfl, by decide +kernel⟩
  obtain ⟨-, hcalls, hhandle, -, hclone⟩ :=
    overwriting_acquires_first hgrounded (a := 0) (b := 1) (by decide) []
  obtain ⟨_, _, -, -, -, hcollects, -⟩ := hcalls _ _ hexec
  obtain ⟨_, -, hsame, -⟩ := hclone 2 rfl
  obtain ⟨ns, d, hmoves, htallies⟩ := hsame _ _ hexec
  refine ⟨(hcollects 0 rfl (by decide +kernel)).2 (by decide +kernel), ?_, by decide +kernel,
    ns, d, hmoves, ?_, ?_⟩
  · rw [hhandle]
    decide +kernel
  · rw [htallies.handles]
    decide +kernel
  · rw [htallies.world]

end Machine

end ListenerRegistry
