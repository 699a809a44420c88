import ListenerRegistry.Proofs.Blindness

/-!
# Foreign code as a strategy

In a run, foreign code does anything. A strategy says what: it chooses, whenever the
machine takes a turn, and sees all that has happened so far. Here strategies choose
blind steps and see the world through the veil. Programs whose hooks are blind are
such strategies, and every run with blind foreign code is the play of one.
-/

namespace ListenerRegistry

/-! ## Choices -/

/-- What foreign code does in a turn. -/
inductive Choice where
  /-- Nothing. If a hook is called, it does not run. -/
  | idle
  /-- The hook that is called performs some steps. -/
  | hook (script : List Step)
  /-- The predicate of a retaining step performs some steps and decides. -/
  | consult (script : List Step) (keep : Bool)

/-- The retaining step that is about to ask about an entry. -/
def Job.asking? (w : World) : Job → Option Screening
  | screen sc =>
      if (sc.pending.head?.bind (w.registry sc.registry).entryAt?).isSome then some sc else none
  | _ => none

theorem Job.eq_screen_of_asking? {w : World} {t : Job} {sc : Screening}
    (h : t.asking? w = some sc) : ∃ i pending, t = screen sc ∧ sc.pending = i :: pending ∧
      ((w.registry sc.registry).entryAt? i).isSome = true := by
  cases t with
  | screen sc' =>
    simp only [asking?] at h
    split at h
    · rename_i hentry
      cases h
      cases hpending : sc.pending with
      | nil => simp [hpending] at hentry
      | cons i pending =>
        rw [hpending] at hentry
        exact ⟨i, pending, rfl, rfl, hentry⟩
    · cases h
  | _ => cases h

/-- Foreign code is asked about the same entries under the veil. -/
theorem Job.asking?_veil (w : World) (t : Job) : t.veil.asking? w.veil = t.asking? w := by
  cases t with
  | screen sc =>
    have hentry : sc.pending.head?.bind (w.veil.registry sc.registry).entryAt? =
        (sc.pending.head?.bind (w.registry sc.registry).entryAt?).map
          fun e => (e.1, e.2.veil) := by
      rw [World.registry_veil]
      cases sc.pending.head? with
      | none => rfl
      | some i => exact Registry.entryAt?_veil i
    simp only [veil, asking?, hentry, Option.isSome_map]
  | _ => rfl

namespace Choice

/-- The steps do not go by hashes. -/
def blind : Choice → Bool
  | idle => true
  | hook script | consult script _ => Step.allBlind script

/-- The turn of the job `t` in which foreign code does as is said, if it can. -/
def turn (w : World) (t : Job) (rest : List Job) : Choice → Option Machine
  | idle =>
      match t.run w with
      | .ok out => some ⟨out.world, out.jobs ++ rest, none⟩
      | .error f => some ⟨w, t :: rest, some f⟩
  | hook script =>
      match t.run w with
      | .ok out => out.call.map fun hook =>
          ⟨out.world.emit (.enter hook), Machine.body hook script ++ (out.jobs ++ rest), none⟩
      | .error _ => none
  | consult script keep =>
      (t.asking? w).bind fun sc =>
        match Job.run w (.screen { sc with keep := .rule (.always keep) }) with
        | .ok out => some ⟨out.world, script.map .perform ++ (out.jobs ++ rest), none⟩
        | .error _ => none

end Choice

namespace Machine

/-- One turn in which foreign code does as is said, if it can. -/
def respond (m : Machine) (c : Choice) : Option Machine :=
  match m.fault, m.jobs with
  | none, t :: rest => c.turn m.world t rest
  | _, _ => none

/-- No job goes by hashes. -/
def Blind (m : Machine) : Prop := ∀ t ∈ m.jobs, t.blind = true

/-- Every turn is what some choice leads to, and a choice of blind steps if no job goes
by hashes afterwards. -/
theorem Turn.exists_respond {a b : Machine} (h : Turn a b) :
    ∃ c, a.respond c = some b ∧ (b.Blind → c.blind = true) := by
  cases h with
  | carry h => exact ⟨.idle, by simp only [respond, Choice.turn, h], fun _ => rfl⟩
  | @call _ _ _ _ hook script h hcall =>
    refine ⟨.hook script, by simp only [respond, Choice.turn, h, hcall, Option.map_some], ?_⟩
    intro hb
    refine Step.allBlind_iff.2 fun s hs => hb (.perform s) ?_
    have hbody : Job.perform s ∈ body hook script :=
      List.mem_append_left _ (List.mem_flatMap.2 ⟨s, hs, List.mem_cons_self⟩)
    exact List.mem_append_left _ hbody
  | @consult w sc _ _ i pending script keep hslot hentry h =>
    have hasking : (Job.screen sc).asking? w = some sc := by
      simp only [Job.asking?, hslot, List.head?_cons, Option.bind_some, hentry, if_true]
    refine ⟨.consult script keep, by
      simp only [respond, Choice.turn, hasking, Option.bind_some, h], ?_⟩
    intro hb
    refine Step.allBlind_iff.2 fun s hs => hb (.perform s) ?_
    exact List.mem_append_left _ (List.mem_map.2 ⟨s, hs, rfl⟩)
  | fail h => exact ⟨.idle, by simp only [respond, Choice.turn, h], fun _ => rfl⟩

/-- Only a machine that runs responds. -/
theorem respond_inv {a b : Machine} {c : Choice} (h : a.respond c = some b) :
    ∃ w t rest, a = ⟨w, t :: rest, none⟩ ∧ c.turn w t rest = some b := by
  obtain ⟨w, jobs, fault⟩ := a
  rcases fault with _ | f
  · rcases jobs with _ | ⟨t, rest⟩
    · cases h
    · exact ⟨w, t, rest, rfl, h⟩
  · cases h

theorem turn_of_respond {a b : Machine} {c : Choice} (h : a.respond c = some b) : Turn a b := by
  obtain ⟨w, t, rest, rfl, hturn⟩ := respond_inv h
  cases c with
  | idle =>
    simp only [Choice.turn] at hturn
    split at hturn
    · rename_i hrun
      cases hturn
      exact .carry hrun
    · rename_i hrun
      cases hturn
      exact .fail hrun
  | hook script =>
    simp only [Choice.turn] at hturn
    split at hturn
    · rename_i hrun
      obtain ⟨hook, hcall, rfl⟩ := Option.map_eq_some_iff.1 hturn
      exact .call script hrun hcall
    · cases hturn
  | consult script keep =>
    obtain ⟨sc, hasking, hasked⟩ := Option.bind_eq_some_iff.1 hturn
    obtain ⟨i, pending, rfl, hslot, hentry⟩ := Job.eq_screen_of_asking? hasking
    split at hasked
    · rename_i hrun
      cases hasked
      exact .consult script keep hslot hentry hrun
    · cases hasked

def veil (m : Machine) : Machine where
  world := m.world.veil
  jobs := m.jobs.map Job.veil
  fault := m.fault

/-- The job on top finds the handle that is being hashed where it was. -/
def Borrows (m : Machine) : Prop := ∀ t ∈ m.jobs.head?, t.Borrows m.world

instance (m : Machine) : Decidable m.Borrows := by
  unfold Borrows
  infer_instance

theorem blind_session (objects : List ForeignObject) {steps : List Step}
    (h : ∀ s ∈ steps, s.blind = true) : (session objects steps).Blind := by
  intro t ht
  obtain ⟨s, hs, rfl⟩ := List.mem_map.1 ht
  exact h s hs

theorem veil_body (hook : Hook) (script : List Step) :
    (body hook script).map Job.veil = body hook script := by
  have hsteps : (script.flatMap fun s => [Job.perform s, .record]).map Job.veil =
      script.flatMap fun s => [Job.perform s, .record] := by
    rw [List.map_flatMap]
    rfl
  rw [body, List.map_append, hsteps]
  rfl

theorem veil_session {objects objects' : List ForeignObject}
    (h : objects.map ForeignObject.veil = objects'.map ForeignObject.veil) (steps : List Step) :
    (session objects steps).veil = (session objects' steps).veil := by
  simp only [session, veil, World.veil, World.init, h]

/-- **A turn does the same under the veil**, if no job goes by hashes and foreign code
does the same. -/
theorem respond_veil {f : ObjectId → HashOutcome} {a : Machine} (hw : a.world.Veilable f)
    (hf : ∀ o, a.world.hashOutcome o = f o) (hhash : a.world.Hashable) (hblind : a.Blind)
    (hborrows : a.Borrows) (c : Choice) : a.veil.respond c = (a.respond c).map veil := by
  obtain ⟨w, jobs, fault⟩ := a
  rcases fault with _ | f
  swap
  · rfl
  rcases jobs with _ | ⟨t, rest⟩
  · rfl
  show c.turn w.veil t.veil (rest.map Job.veil) = (c.turn w t rest).map veil
  have hrun : t.veil.run w.veil = (t.run w).map Outcome.veil :=
    Job.run_veil hw hf hhash (hblind t List.mem_cons_self) (hborrows t rfl)
  cases c with
  | idle =>
    simp only [Choice.turn, hrun]
    cases t.run w with
    | error f => rfl
    | ok out => simp [Except.map, veil, Outcome.veil]
  | hook script =>
    simp only [Choice.turn, hrun]
    cases t.run w with
    | error f => rfl
    | ok out => cases hcall : out.call <;> simp [Except.map, veil, Outcome.veil, hcall, veil_body]
  | consult script keep =>
    simp only [Choice.turn, Job.asking?_veil]
    cases t.asking? w with
    | none => rfl
    | some sc =>
      have hscreen : Job.run w.veil (.screen { sc with keep := .rule (.always keep) }) =
          (Job.run w (.screen { sc with keep := .rule (.always keep) })).map Outcome.veil :=
        RegistryOp.screen_veil hw rfl
      simp only [Option.bind_some, hscreen]
      cases Job.run w (.screen { sc with keep := .rule (.always keep) }) with
      | error f => rfl
      | ok out => simp [Except.map, veil, Outcome.veil, Function.comp_def]

theorem blind_body {script : List Step} (h : Step.allBlind script = true) (hook : Hook) :
    ∀ t ∈ body hook script, t.blind = true := by
  intro t ht
  simp only [body, List.mem_append, List.mem_flatMap, List.mem_cons, List.not_mem_nil,
    or_false] at ht
  rcases ht with ⟨s, hs, rfl | rfl⟩ | rfl
  · exact Step.allBlind_iff.1 h s hs
  · rfl
  · rfl

/-- Foreign code that does not go by hashes leaves no jobs that do. -/
theorem blind_of_respond {a b : Machine} {c : Choice} (hw : a.world.Consistent) (ha : a.Blind)
    (hc : c.blind = true) (h : a.respond c = some b) : b.Blind := by
  obtain ⟨w, t, rest, rfl, hturn⟩ := respond_inv h
  have hrest : ∀ u ∈ rest, u.blind = true := fun u hu => ha u (List.mem_cons_of_mem _ hu)
  have hleft : ∀ {t' : Job} {out : Outcome}, t'.blind = true → t'.run w = .ok out →
      ∀ u ∈ out.jobs ++ rest, u.blind = true := by
    intro t' out ht' hrun u hu
    rcases List.mem_append.1 hu with hu | hu
    · exact (Job.leads_run hw hrun u hu).blind ht'
    · exact hrest u hu
  have ht : t.blind = true := ha t List.mem_cons_self
  cases c with
  | idle =>
    simp only [Choice.turn] at hturn
    split at hturn
    · rename_i hrun
      cases hturn
      exact hleft ht hrun
    · cases hturn
      exact ha
  | hook script =>
    simp only [Choice.turn] at hturn
    split at hturn
    · rename_i hrun
      obtain ⟨hook, -, rfl⟩ := Option.map_eq_some_iff.1 hturn
      exact List.forall_mem_append.2 ⟨blind_body hc hook, hleft ht hrun⟩
    · cases hturn
  | consult script keep =>
    obtain ⟨sc, -, hturn⟩ := Option.bind_eq_some_iff.1 hturn
    split at hturn
    · rename_i hrun
      cases hturn
      have hscript : ∀ u ∈ script.map Job.perform, u.blind = true := by
        intro u hu
        obtain ⟨s, hs, rfl⟩ := List.mem_map.1 hu
        exact Step.allBlind_iff.1 hc s hs
      exact List.forall_mem_append.2 ⟨hscript, hleft rfl hrun⟩
    · cases hturn

end Machine

/-! ## Plays -/

/-- Foreign code that decides by what it has seen, but not by hashes. The first
argument counts the turns. -/
structure Strategy where
  choose : Nat → Machine → Choice
  /-- The choice is the same under the veil. -/
  veiled : ∀ n a, choose n a.veil = choose n a
  blind : ∀ n a, (choose n a).blind = true

namespace Strategy

variable (σ : Strategy)

/-- The machine after `n` turns. -/
def play (m : Machine) : Nat → Option Machine
  | 0 => some m
  | n + 1 => (play m n).bind fun a => a.respond (σ.choose n a)

variable {σ} {m a : Machine} {n : Nat}

theorem run_of_play (h : σ.play m n = some a) :
    ∃ ms, Machine.Run m ms a ∧ ∀ b ∈ ms, ∃ k < n, σ.play m k = some b := by
  induction n generalizing a with
  | zero =>
    cases h
    exact ⟨[], .nil m, by simp⟩
  | succ n ih =>
    obtain ⟨b, hb, hturn⟩ := Option.bind_eq_some_iff.1 h
    obtain ⟨ms, hrun, hms⟩ := ih hb
    refine ⟨ms ++ [b], hrun.append (.cons (Machine.turn_of_respond hturn) (.nil a)), ?_⟩
    intro d hd
    rcases List.mem_append.1 hd with hd | hd
    · obtain ⟨k, hk, hplay⟩ := hms d hd
      exact ⟨k, by omega, hplay⟩
    · obtain rfl := List.mem_singleton.1 hd
      exact ⟨n, by omega, hb⟩

theorem blind_play {objects : List ForeignObject} {steps : List Step}
    (hsteps : ∀ s ∈ steps, s.blind = true) (h : σ.play (.session objects steps) n = some a) :
    a.Blind := by
  induction n generalizing a with
  | zero =>
    cases h
    exact Machine.blind_session objects hsteps
  | succ n ih =>
    obtain ⟨b, hb, hturn⟩ := Option.bind_eq_some_iff.1 h
    obtain ⟨ms, hrun, -⟩ := run_of_play hb
    exact Machine.blind_of_respond hrun.consistent.1 (ih hb) (σ.blind n b) hturn

/-- Chooses what a list says, without looking. -/
def ofList (cs : List Choice) (h : ∀ c ∈ cs, c.blind = true) : Strategy where
  choose n _ := (cs[n]?).getD .idle
  veiled _ _ := rfl
  blind n _ := by
    cases hc : cs[n]? with
    | none => rfl
    | some c => exact h c (List.mem_of_getElem? hc)

theorem play_ofList_cons {c : Choice} {cs : List Choice} (h : ∀ d ∈ c :: cs, d.blind = true)
    (m : Machine) (n : Nat) : (ofList (c :: cs) h).play m (n + 1) =
      (m.respond c).bind fun a => (ofList cs (List.forall_mem_cons.1 h).2).play a n := by
  induction n with
  | zero => cases hc : m.respond c <;> simp [play, ofList, hc]
  | succ n ih =>
    rw [play, ih]
    cases m.respond c <;> rfl

/-- **Every run with blind foreign code is a play.** -/
theorem exists_play_of_run {ms : List Machine} (h : Machine.Run m ms a)
    (hblind : ∀ b ∈ ms, b.Blind) (ha : a.Blind) :
    ∃ cs hcs, (ofList cs hcs).play m ms.length = some a := by
  induction h with
  | nil => exact ⟨[], by simp, rfl⟩
  | @cons m b a ms hturn hrun ih =>
    obtain ⟨-, hms⟩ := List.forall_mem_cons.1 hblind
    obtain ⟨cs, hcs, hplay⟩ := ih hms ha
    have hb : b.Blind := by
      cases hrun with
      | nil => exact ha
      | cons => exact hms b List.mem_cons_self
    obtain ⟨c, hc, hcblind⟩ := hturn.exists_respond
    refine ⟨c :: cs, List.forall_mem_cons.2 ⟨hcblind hb, hcs⟩, ?_⟩
    rw [List.length_cons, play_ofList_cons, hc]
    exact hplay

end Strategy

end ListenerRegistry
