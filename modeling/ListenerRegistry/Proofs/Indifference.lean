import ListenerRegistry.Proofs.Programs

/-!
# Hashes do not matter

Programs and hooks that do not go by hash values cannot tell how objects hash. Two
runs with the same foreign code, in which the objects have hashes of their own each
time, agree turn by turn in everything but the hashes: both are the same run under the
veil. It does not matter whether hashes collide, be it with each other or with the hash
of null.
-/

namespace ListenerRegistry

/-! ## The two runs -/

/-- Every object answers every request with the hash that is assigned to it. -/
def World.Hashes (hash : ObjectId → UInt64) (w : World) : Prop :=
  ∀ o < w.objects.length, w.hashOutcome o = .ok (hash o)

instance (hash : ObjectId → UInt64) (w : World) : Decidable (w.Hashes hash) := by
  unfold World.Hashes
  infer_instance

theorem World.Hashes.hashable {hash : ObjectId → UInt64} {w : World} (h : w.Hashes hash) :
    w.Hashable := by
  intro o
  by_cases ho : o < w.objects.length
  · exact ⟨hash o, h o ho⟩
  · exact ⟨0, World.hashOutcome_of_length_le (Nat.le_of_not_lt ho)⟩

namespace Machine

variable {objects : List ForeignObject} {steps : List Step} {hash : ObjectId → UInt64}
  {σ : Strategy} {n : Nat} {a : Machine}

/-- Where the objects answer the same hashes all the time, the next turn does the same
under the veil. -/
theorem play_veil (hsteps : ∀ s ∈ steps, s.blind = true)
    (hhashes : ∀ k ≤ n, ∀ b ∈ σ.play (session objects steps) k, b.world.Hashes hash)
    (hborrows : a.Borrows) (ha : σ.play (session objects steps) n = some a) (c : Choice) :
    a.veil.respond c = (a.respond c).map veil := by
  obtain ⟨ms, hrun, hms⟩ := Strategy.run_of_play ha
  have hinit : (World.init objects).Hashes hash := hhashes 0 (Nat.zero_le n) _ rfl
  have hlength : ∀ b ∈ a :: ms, b.world.objects.length = objects.length :=
    fun b hb => (hrun.balanced b hb).length
  have hsteady : ∀ b ∈ ms, b.world.Steady objects := by
    intro b hb o ho
    obtain ⟨k, hk, hplay⟩ := hms b hb
    rw [hinit o ho]
    apply hhashes k (Nat.le_of_lt hk) b hplay
    rwa [hlength b (List.mem_cons_of_mem _ hb)]
  have hsame : ∀ o, a.world.hashOutcome o = (World.init objects).hashOutcome o := by
    refine World.Steady.hashOutcome (fun o ho => ?_) (hrun.balanced a List.mem_cons_self)
    rw [hinit o ho]
    apply hhashes n (Nat.le_refl n) a ha
    rwa [hlength a List.mem_cons_self]
  exact respond_veil ⟨hrun.consistent.1, hrun.keyed hsteady a List.mem_cons_self⟩ hsame
    (hhashes n (Nat.le_refl n) a ha).hashable (Strategy.blind_play hsteps ha) hborrows c

theorem borrows_veil : a.veil.Borrows ↔ a.Borrows := by
  obtain ⟨w, jobs, fault⟩ := a
  have hjob (t : Job) : t.veil.Borrows w.veil ↔ t.Borrows w := by
    cases t with
    | hashed o use => simp only [Job.veil, Job.Borrows, Grip.handle_veil]
    | _ => exact Iff.rfl
  cases jobs with
  | nil => simp [Borrows, veil]
  | cons t rest => simpa [Borrows, veil] using hjob t

/-- What can be seen of two machines is the same. -/
structure Agrees (a b : Machine) : Prop where
  fault : a.fault = b.fault
  counts : ∀ o, a.world.count o = b.world.count o
  handles : ∀ r, a.world.handle r = b.world.handle r
  keys : ∀ r, (a.world.key? r).map Key.handle = (b.world.key? r).map Key.handle
  keySet : a.world.keySet.map Key.handle = b.world.keySet.map Key.handle
  /-- The ids that were answered and saved. -/
  ids : ∀ n, a.world.savedId? n = b.world.savedId? n
  sizes : ∀ s, (a.world.registry s).size = (b.world.registry s).size
  /-- The entries with their ids, in iteration order. -/
  entries : ∀ s, (a.world.registry s).entries.map (fun e => (e.1, e.2.handle)) =
    (b.world.registry s).entries.map fun e => (e.1, e.2.handle)
  /-- The last result, but for a hash that is answered. -/
  answer : a.world.answer.veil = b.world.answer.veil
  /-- The results in hooks, but for hashes that are answered, and all other events. -/
  events : a.world.journal.map Event.veil = b.world.journal.map Event.veil
  /-- The calls of the host, the hooks, the questions and the log. -/
  reported : a.world.journal.filterMap Event.text? = b.world.journal.filterMap Event.text?

theorem agrees_of_veil {b : Machine} (h : a.veil = b.veil) : a.Agrees b := by
  have hworld : a.world.veil = b.world.veil := congrArg Machine.world h
  -- what is the same under the veil is the same in both worlds
  have hsame {α : Type} (g : World → α) (hg : ∀ w : World, g w.veil = g w) :
      g a.world = g b.world := by rw [← hg, hworld, hg]
  constructor
  · exact (Machine.mk.inj h).2.2
  · intro o
    exact hsame (·.count o) fun w => w.count_veil o
  · intro r
    exact hsame (·.handle r) fun w => w.handle_veil r
  · intro r
    refine hsame (fun w => (w.key? r).map Key.handle) fun w => ?_
    rw [World.key?_veil, Option.map_map]
    rfl
  · refine hsame (·.keySet.map Key.handle) fun w => ?_
    exact List.map_map
  · intro n
    exact hsame (·.savedId? n) fun w => w.savedId?_veil n
  · intro s
    refine hsame (fun w => (w.registry s).size) fun w => ?_
    rw [World.registry_veil]
    rfl
  · intro s
    refine hsame (fun w => (w.registry s).entries.map fun e => (e.1, e.2.handle)) fun w => ?_
    rw [World.registry_veil, Registry.entries_veil, List.map_map]
    rfl
  · exact congrArg World.answer hworld
  · exact congrArg World.journal hworld
  · refine hsame (·.journal.filterMap Event.text?) fun w => ?_
    show (w.journal.map Event.veil).filterMap Event.text? = _
    rw [List.filterMap_map]
    congr 1
    funext e
    cases e <;> rfl

/-- Two plays in which the objects have hashes of their own are one play under the veil. -/
theorem play_alike {objects' : List ForeignObject} {hash' : ObjectId → UInt64}
    (hobjects : objects.map ForeignObject.veil = objects'.map ForeignObject.veil)
    (hsteps : ∀ s ∈ steps, s.blind = true)
    (hhash : ∀ k < n, ∀ b ∈ σ.play (session objects steps) k, b.world.Hashes hash)
    (hhash' : ∀ k < n, ∀ b ∈ σ.play (session objects' steps) k, b.world.Hashes hash')
    (hborrows : ∀ k < n, ∀ b ∈ σ.play (session objects steps) k, b.Borrows) :
    (σ.play (session objects steps) n).map veil = (σ.play (session objects' steps) n).map veil := by
  induction n with
  | zero => exact congrArg some (veil_session hobjects steps)
  | succ n ih =>
    have hbefore := ih (fun k hk => hhash k (by omega)) (fun k hk => hhash' k (by omega))
      (fun k hk => hborrows k (by omega))
    rw [Strategy.play, Strategy.play]
    cases ha : σ.play (session objects steps) n with
    | none =>
      rw [ha] at hbefore
      have hnone : σ.play (session objects' steps) n = none := Option.map_eq_none_iff.1 hbefore.symm
      rw [hnone]
    | some a =>
      rw [ha] at hbefore
      obtain ⟨b, hb, hveil⟩ := Option.map_eq_some_iff.1 hbefore.symm
      have haborrows : a.Borrows := hborrows n (Nat.lt_succ_self n) a ha
      have hbborrows : b.Borrows := by
        rwa [← borrows_veil, hveil, borrows_veil]
      -- the strategy cannot tell the two machines apart
      have hchoice : σ.choose n a = σ.choose n b := by
        rw [← σ.veiled n a, ← σ.veiled n b, hveil]
      have ha' := play_veil hsteps (fun k hk => hhash k (Nat.lt_succ_of_le hk)) haborrows ha
        (σ.choose n a)
      have hb' := play_veil hsteps (fun k hk => hhash' k (Nat.lt_succ_of_le hk)) hbborrows hb
        (σ.choose n b)
      rw [hb]
      show (a.respond _).map veil = (b.respond _).map veil
      rw [← ha', ← hb', hveil, hchoice]

/-- **Hash values do not matter.** Take blind steps, foreign code that chooses blind
steps, and two lists of objects that differ in how they hash. As long as each object
answers every request with one hash in the first run, and every object answers with one
hash in the second, and no probe is overwritten while it is hashed, both runs agree
turn by turn: in results and errors, ids, sizes and the order of the entries, in
reference counts, and in all events. -/
theorem hashes_do_not_matter {objects objects' : List ForeignObject}
    (hobjects : objects.map ForeignObject.veil = objects'.map ForeignObject.veil)
    {steps : List Step} (hsteps : ∀ s ∈ steps, s.blind = true) (σ : Strategy)
    {hash hash' : ObjectId → UInt64} {n : Nat}
    (hhash : ∀ k < n, ∀ b ∈ σ.play (session objects steps) k, b.world.Hashes hash)
    (hhash' : ∀ k < n, ∀ b ∈ σ.play (session objects' steps) k, b.world.Hashes hash')
    (hborrows : ∀ k < n, ∀ b ∈ σ.play (session objects steps) k, b.Borrows) :
    ∀ k ≤ n,
      (σ.play (session objects steps) k).map veil =
        (σ.play (session objects' steps) k).map veil ∧
      ∀ a ∈ σ.play (session objects steps) k, ∃ b ∈ σ.play (session objects' steps) k,
        a.Agrees b := by
  intro k hk
  have halike := play_alike hobjects hsteps (fun i hi => hhash i (by omega))
    (fun i hi => hhash' i (by omega)) (fun i hi => hborrows i (Nat.lt_of_lt_of_le hi hk))
  refine ⟨halike, fun a ha => ?_⟩
  rw [show σ.play (session objects steps) k = some a from ha] at halike
  obtain ⟨b, hb, hveil⟩ := Option.map_eq_some_iff.1 halike.symm
  exact ⟨b, hb, agrees_of_veil hveil.symm⟩

/-- Two objects with the hash of null. -/
def maskedObjects : List ForeignObject :=
  [.plain 0x1000 1 (.always (.fixed 0)), .plain 0x2000 1 (.always (.fixed 0))]

/-- Two objects with hashes of their own. -/
def namedObjects : List ForeignObject :=
  [.plain 0x1000 1 (.always .identity), .plain 0x2000 1 (.always .identity)]

/-- Whenever the first object is hashed, it registers the second one. -/
def escorted : Program :=
  ⟨[⟨some [.op (.registry (.insert 0 (.fresh (some 1)) none))], none⟩]⟩

/-- Puts a key of null and one of the second object in the hash set, registers the first
object, takes the second one out of the registry and looks for it. -/
def masqueradeSteps : List Step :=
  [.op (.key (.make 0 (.fresh none))), .op (.keySet (.insert 0)),
    .op (.key (.make 0 (.fresh (some 1)))), .op (.keySet (.insert 0)),
    .op (.registry (.insert 0 (.fresh (some 0)) none)),
    .op (.registry (.remove 0 (.fresh (some 1)) (some 0))),
    .op (.registry (.find 0 (.register 0) none))]

/-- It does not matter that all hashes are zero in one of two runs. -/
theorem hashes_do_not_matter_in_masquerade :
    let masked := (escorted.strategy rfl).play (session maskedObjects masqueradeSteps) 34
    let named := (escorted.strategy rfl).play (session namedObjects masqueradeSteps) 34
    masked.map (·.world.keySet) = some [⟨none, 0⟩, ⟨some 1, 0⟩] ∧
      named.map (·.world.keySet) = some [⟨none, 0⟩, ⟨some 1, 0x2000⟩] ∧
      named.map (fun a => (a.world.registry 0).entries) =
        some [(⟨2, 1⟩, ⟨some 0, 0x1000⟩)] ∧
      ∀ a ∈ masked, ∃ b ∈ named, a.Agrees b := by
  refine ⟨by decide +kernel, by decide +kernel, by decide +kernel, ?_⟩
  have hobjects : maskedObjects.map ForeignObject.veil = namedObjects.map ForeignObject.veil := rfl
  have hsteps : ∀ s ∈ masqueradeSteps, s.blind = true := by decide
  have hmasked : ∀ k < 34,
      ∀ a ∈ (escorted.strategy rfl).play (session maskedObjects masqueradeSteps) k,
        a.world.Hashes fun _ => 0 := by decide +kernel
  have hnamed : ∀ k < 34,
      ∀ a ∈ (escorted.strategy rfl).play (session namedObjects masqueradeSteps) k,
        a.world.Hashes fun o => if o = 0 then 0x1000 else 0x2000 := by decide +kernel
  have hborrows : ∀ k < 34,
      ∀ a ∈ (escorted.strategy rfl).play (session maskedObjects masqueradeSteps) k,
        a.Borrows := by decide +kernel
  exact (hashes_do_not_matter hobjects hsteps _ hmasked hnamed hborrows 34 (Nat.le_refl 34)).2

end Machine

end ListenerRegistry
