import ListenerRegistry.Proofs.Continuations
import ListenerRegistry.Proofs.Overwriting

/-!
# Ways to empty a registry

A registry can be cleared, its entries can be retained with a predicate that always says no,
and it can be discarded. To clear it takes all entries out of the table at once, and to retain
none of them takes them out one by one, through the index. The same table comes of it, down
to the versions of the slots and the order in which they are used again, and in either way the
handles are released only then. So finalizers cannot tell one from the other.
-/

namespace ListenerRegistry

/-! ## Taking out everything -/

namespace Roster

variable {m : Roster}

/-- Taking out the entries from one slot on, one by one, drains these slots. -/
theorem strike_occupied (rest : List (Slot Key)) : ∀ (before : List (Slot Key)) (m : Roster),
    m.slots = before ++ rest → ∀ found, found = SlotTable.occupied (before.length + 1) rest →
      (strike m (found.map (·.1))).2 = ⟨before ++ rest.map Slot.drain,
        (found.map (·.1.index - 1)).reverse ++ m.vacant, m.size - found.length⟩ := by
  induction rest with
  | nil =>
    rintro before ⟨slots, vacant, size⟩ rfl found rfl
    rfl
  | cons x rest ih =>
    rintro before ⟨slots, vacant, size⟩ rfl found rfl
    have hlength (y : Slot Key) : (before ++ [y]).length = before.length + 1 := by simp
    cases hx : x.content with
    | none =>
      have hdrain : x.drain = x := by simp [Slot.drain, hx]
      have hrest := ih (before ++ [x]) ⟨before ++ x :: rest, vacant, size⟩ (by simp) _ rfl
      rw [hlength] at hrest
      simpa [SlotTable.occupied, hx, hdrain] using hrest
    | some k =>
      have hdrain : x.drain = x.vacate := by simp [Slot.drain, hx]
      have hremove : SlotTable.remove ⟨before ++ x :: rest, vacant, size⟩
          ⟨before.length + 1, x.version⟩ =
          some (k, ⟨before ++ x.vacate :: rest, before.length :: vacant, size - 1⟩) := by
        have hlt : before.length < (before ++ x :: rest).length := by simp
        simp [SlotTable.remove, SlotTable.get?, SlotTable.slotAt?, hx,
          List.modify_eq_take_cons_drop hlt]
      have hrest := ih (before ++ [x.vacate])
        ⟨before ++ x.vacate :: rest, before.length :: vacant, size - 1⟩ (by simp) _ rfl
      rw [hlength] at hrest
      simp only [SlotTable.occupied, hx, List.map_cons, strike, take_of_remove hremove, hrest]
      simp [hdrain, Nat.sub_sub, Nat.add_comm]

/-- **Taking out all entries one by one is draining.** -/
theorem strike_all (hm : m.Sound) :
    strike m (m.entries.map (·.1)) = (m.entries, m.drain.2) := by
  have hfound : (strike m (m.entries.map (·.1))).1 = m.entries := by
    have hall := strike_filter m fun _ => true
    rwa [List.filter_true] at hall
  have hleft := strike_occupied m.slots [] m rfl m.entries rfl
  have hsize : m.size - m.entries.length = 0 := by
    rw [hm.size_eq]
    exact Nat.sub_self _
  rw [hsize] at hleft
  exact Prod.ext hfound hleft

end Roster

namespace Registry

variable {r : Registry}

/-- The registry without its entries. The slots stay, and so do their versions. -/
def emptied (r : Registry) : Registry := ⟨r.slots.drain.2, .empty, .idle⟩

theorem entries_emptied (r : Registry) : r.emptied.entries = [] :=
  SlotTable.entries_drain r.slots

theorem drain_eq_emptied (h : r.Sound) : r.drain = .ok (r.entries.map (·.2), r.emptied) := by
  rw [drain_of_sound h, emptied, h.idle]
  rfl

/-- **Unlinking all entries one by one empties the registry**, and leaves nothing in the
index. -/
theorem prune_all (h : r.Sound) :
    r.prune (r.entries.map (·.1)) = .ok (r.entries, r.emptied) := by
  obtain ⟨⟨slots, ⟨filed⟩, monitor⟩, hprune, hslots, hsound⟩ := prune_eq h (r.entries.map (·.1))
  have hall : Roster.strike r.slots (r.entries.map (·.1)) = (r.entries, r.slots.drain.2) :=
    Roster.strike_all h.slots
  rw [hall] at hprune hslots
  obtain rfl : slots = r.slots.drain.2 := hslots
  obtain rfl : monitor = .idle := hsound.idle
  have hfiled : filed.Perm (r.emptied.entries.map filing) := hsound.indexed
  rw [entries_emptied] at hfiled
  obtain rfl : filed = [] := hfiled.eq_nil
  exact hprune

end Registry

/-! ## Retaining steps that say no to every entry -/

/-- The event is a message, or that a retaining step asks about an entry. -/
def Event.isRemark : Event → Bool
  | log _ | keep _ => true
  | _ => false

/-- The step has decided against the entries of `r` that it has asked about, and is going to
decide against the others. -/
structure Screening.Denies (sc : Screening) (r : Registry) : Prop where
  keep : sc.keep = .rule (.always false)
  covers : sc.doomed.reverse ++ sc.ahead r = r.entries.map (·.1)
  fits : sc.asked + (sc.ahead r).length ≤ sc.total

theorem Screening.denies_start {r : Registry} (hr : r.Sound) (s : Nat) :
    Denies ⟨s, .rule (.always false), r.size, r.slotNumbers, 0, []⟩ r := by
  have hvisit : r.slotNumbers.filterMap r.entryAt? = r.entries :=
    (SlotTable.entries_eq_filterMap _).symm
  have hsize : r.size = r.entries.length := hr.slots.size_eq
  refine ⟨rfl, ?_, ?_⟩
  · simp [ahead, hvisit]
  · simp [ahead, hvisit, hsize]

namespace RegistryOp

variable {w : World} {sc : Screening}

/-- The next slot is visited, and if it holds an entry, the step decides against it. -/
theorem screen_of_pending (h : sc.Denies (w.registry sc.registry)) {i : Nat} {pending : List Nat}
    (hpending : sc.pending = i :: pending) : ∃ notes next,
      screen w sc = .ok { world := w.noting notes, jobs := [.screen next] } ∧
        (∀ e ∈ notes, e.isRemark = true) ∧ next.registry = sc.registry ∧ next.pending = pending ∧
        next.Denies (w.registry sc.registry) := by
  obtain ⟨s, keep, total, _, asked, doomed⟩ := sc
  obtain ⟨rfl, hcovers, hfits⟩ := h
  obtain rfl : _ = i :: pending := hpending
  simp only [screen]
  cases hentry : (w.registry s).entryAt? i with
  | none =>
    simp only [Screening.ahead, List.filterMap_cons, hentry] at hcovers hfits
    exact ⟨[], _, rfl, by simp, rfl, rfl, rfl, hcovers, hfits⟩
  | some e =>
    obtain ⟨id, k⟩ := e
    simp only [Screening.ahead, List.filterMap_cons, hentry, List.map_cons, List.length_cons]
      at hcovers hfits
    have hmore : asked ≠ total := by omega
    refine ⟨k.handle.elim [] fun o => [.keep o], ⟨s, .rule (.always false), total, pending,
      asked + 1, id :: doomed⟩, ?_, ?_, rfl, rfl, rfl, ?_, ?_⟩
    · simp only [if_neg hmore]
      cases k.handle <;> rfl
    · cases k.handle <;> simp [Event.isRemark]
    · simpa [Screening.ahead] using hcovers
    · simpa [Screening.ahead, Nat.add_assoc, Nat.add_comm 1] using hfits

/-- When all slots are visited, all entries are unlinked. -/
theorem screen_of_visited (hw : (w.registry sc.registry).Sound)
    (h : sc.Denies (w.registry sc.registry)) (hpending : sc.pending = []) : ∃ notes,
      screen w sc = .ok {
        world := (w.setRegistry sc.registry (w.registry sc.registry).emptied).noting notes
        jobs := (w.registry sc.registry).entries.map (fun x => .release x.2.handle) ++
          [.answer (.count (w.registry sc.registry).entries.length)] } ∧
        ∀ e ∈ notes, e.isRemark = true := by
  have hprune := Registry.prune_all hw
  have hdoomed : sc.doomed.reverse = (w.registry sc.registry).entries.map (·.1) := by
    rw [← h.covers]
    simp [Screening.ahead, hpending]
  rw [← hdoomed] at hprune
  refine ⟨(pruneLog w (w.registry sc.registry).entries sc.total).map .log, ?_, ?_⟩
  · rw [screen, hpending]
    exact prune_of_prune hprune
  · intro e he
    obtain ⟨m, -, rfl⟩ := List.mem_map.1 he
    rfl

end RegistryOp

/-! ## Entries that are stored meanwhile -/

/-- What is in a roster after an action was there before, or the action stored it. -/
theorem Roster.stored_of_apply {m : Roster} {a : Action} {id : ListenerId} {k : Key}
    (h : m.Sound) (hget : (apply m a).2.get? id = some k) :
    m.get? id = some k ∨ a = .insert k ∧ (apply m a).1 = .id (some id) := by
  rcases get?_of_apply h hget with hold | rfl
  · exact Or.inl hold
  · rw [apply, get?_add h] at hget
    split at hget
    · rename_i hnew
      exact Or.inr ⟨rfl, congrArg Reply.id hnew⟩
    · exact Or.inl hget

namespace Machine

variable {P : Machine → Prop} {a b c : Machine} {ms ns lead tail : List Machine} {rest : List Job}
  {w : World} {s : Nat} {r : Registry} {sc : Screening} {notes : List Event} {answer : Answer}

/-- Every entry in the end was there in the beginning, or it was stored on the way. -/
theorem Run.stored (h : Run a ms b) (ha : a.world.Consistent) {id : ListenerId} {k : Key}
    (hget : (b.world.rosters s).get? id = some k) : (a.world.rosters s).get? id = some k ∨
      ∃ x ∈ history ms, x.registry = s ∧ x.action = .insert k ∧ x.reply = .id (some id) := by
  induction h with
  | nil => exact Or.inl hget
  | @cons a b c ms hturn _ ih =>
    rcases ih (hturn.consistent ha) hget with hb | ⟨x, hx, hstored⟩
    · cases hact : a.act? with
      | none =>
        rw [hturn.rosters_of_none ha hact] at hb
        exact Or.inl hb
      | some x =>
        obtain ⟨hreply, hrosters⟩ := hturn.rosters_of_act ha hact
        have hroster : b.world.rosters s = if s = x.registry then
            (Roster.apply (a.world.rosters x.registry) x.action).2 else a.world.rosters s :=
          congrFun hrosters s
        by_cases hs : s = x.registry
        · subst hs
          rw [hroster, if_pos rfl] at hb
          refine (Roster.stored_of_apply (ha x.registry).slots hb).imp_right ?_
          rintro ⟨haction, hid⟩
          refine ⟨x, ?_, rfl, haction, hreply.trans hid⟩
          rw [history, List.filterMap_cons_some hact]
          exact List.mem_cons_self
        · rw [hroster, if_neg hs] at hb
          exact Or.inl hb
    · obtain ⟨y, hy, hyx⟩ := List.mem_filterMap.1 hx
      exact Or.inr ⟨x, List.mem_filterMap.2 ⟨y, List.mem_cons_of_mem _ hy, hyx⟩, hstored⟩

/-! ## Predicates that say no -/

/-- If a retaining step is under way above the jobs `rest`, it says no to every entry, and its
predicate does nothing else. -/
def Denied (rest : List Job) (m : Machine) : Prop :=
  ∀ above sc, m.jobs = above ++ .screen sc :: rest → above = [] ∧ sc.keep = .rule (.always false)

theorem denied_of_jobs {above : List Job} {u : Job} (h : a.jobs = above ++ u :: rest)
    (hu : u.visits = false) : a.Denied rest := by
  intro above' sc hsc
  have hsame := getElem?_reverse_above above u rest
  rw [← h, hsc, getElem?_reverse_above] at hsame
  obtain rfl := Option.some.inj hsame
  cases hu

theorem denied_of_screen (h : a.jobs = .screen sc :: rest)
    (hkeep : sc.keep = .rule (.always false)) : a.Denied rest := by
  intro above sc' hsc
  have hnil : above = [] := by
    have hlength := congrArg List.length (h.symm.trans hsc)
    simp only [List.length_append, List.length_cons] at hlength
    exact List.eq_nil_of_length_eq_zero (by omega)
  subst hnil
  obtain ⟨hscreen, -⟩ := List.cons.inj (h.symm.trans hsc)
  obtain rfl := Job.screen.inj hscreen
  exact ⟨rfl, hkeep⟩

theorem denied_of_ends (h : a.jobs = rest) : a.Denied rest := by
  intro above sc hsc
  have hlength := congrArg List.length (h.symm.trans hsc)
  simp only [List.length_append, List.length_cons] at hlength
  omega

/-- A retaining step that says no to an entry goes on as its rule has it, also if the predicate
was consulted. -/
theorem Turn.of_denied (h : Turn a b) (hjobs : a.jobs = .screen sc :: rest)
    (hkeep : sc.keep = .rule (.always false)) {out : Outcome}
    (hrun : (Job.screen sc).run a.world = .ok out) (hcall : out.call = none)
    (hb : b.Denied rest) : b = ⟨out.world, out.jobs ++ rest, none⟩ := by
  cases h.follows hjobs hrun with
  | next => rfl
  | hook _ _ hcall' =>
    rw [hcall] at hcall'
    cases hcall'
  | @predicate sc' out' i pending script keep hscreen hslot hentry hrun' =>
    obtain rfl := Job.screen.inj hscreen
    obtain ⟨next, hnext, hruled⟩ : ∃ next, out'.jobs = [.screen next] ∧
        next.keep = .rule (.always keep) := by
      obtain ⟨e, he⟩ := Option.isSome_iff_exists.1 hentry
      simp only [Job.run, RegistryOp.screen, hslot, he] at hrun'
      split at hrun' <;> cases hrun'
      exact ⟨_, rfl, Screening.judge_keep _ _ _⟩
    obtain ⟨habove, hno⟩ := hb (script.map .perform) next (by simp [hnext])
    obtain rfl : script = [] := List.map_eq_nil_iff.1 habove
    obtain rfl : keep = false := by
      rw [hruled] at hno
      cases hno
      rfl
    have hsame : ({ sc with keep := .rule (.always false) } : Screening) = sc := by rw [← hkeep]
    rw [hsame] at hrun'
    obtain rfl := Except.ok.inj (hrun'.symm.trans hrun)
    rfl

/-! ## Up to the releases -/

/-- The registry `s` has become `r`, and the handles that were in it are released next. -/
def emptying (w : World) (s : Nat) (r : Registry) (notes : List Event) (answer : Answer)
    (rest : List Job) : Machine :=
  ⟨(w.setRegistry s r).noting notes,
    (w.registry s).entries.map (fun x => .release x.2.handle) ++ .answer answer :: rest, none⟩

/-- To clear the registry `s`. -/
abbrev clearing (s : Nat) : Step := .op (.registry (.clear s))

/-- To retain the entries of the registry `s` for which a predicate holds that never does. -/
abbrev denying (s : Nat) : Step := .op (.registry (.retain s (.rule (.always false))))

/-- To discard the registry `s`. -/
abbrev discarding (s : Nat) : Step := .op (.registry (.discard s))

theorem straight_clear (hw : (w.registry s).Sound) (rest : List Job) :
    Straight ⟨w, .perform (clearing s) :: rest, none⟩ [⟨w, .perform (clearing s) :: rest, none⟩]
      (emptying w s (w.registry s).emptied [] .cleared rest) := by
  have hrun : (Job.perform (clearing s)).run w = .ok
      { world := w.setRegistry s (w.registry s).emptied
        jobs := (w.registry s).entries.map (fun x => .release x.2.handle) ++ [.answer .cleared] } := by
    simp only [Job.run, Op.run, RegistryOp.run, Registry.drain_eq_emptied hw, bind, Except.bind,
      pure, Except.pure, List.map_map]
    rfl
  refine .cons hrun rfl rfl ?_
  rw [List.append_assoc]
  exact .nil _

theorem straight_discard (w : World) (s : Nat) (rest : List Job) :
    Straight ⟨w, .perform (discarding s) :: rest, none⟩
      [⟨w, .perform (discarding s) :: rest, none⟩] (emptying w s .empty [] .dropped rest) := by
  have hrun : (Job.perform (discarding s)).run w = .ok
      { world := w.setRegistry s .empty
        jobs := (w.registry s).entries.map (fun x => .release x.2.handle) ++ [.answer .dropped] } :=
    rfl
  refine .cons hrun rfl rfl ?_
  rw [List.append_assoc]
  exact .nil _

/-- **A retaining step that says no to every entry** visits all slots and then unlinks all
entries in one turn. -/
theorem guided_screen (hw : (w.registry sc.registry).Sound)
    (hsc : sc.Denies (w.registry sc.registry)) (rest : List Job) : ∃ lead notes,
      Guided (Denied rest) ⟨w, .screen sc :: rest, none⟩ lead
        (emptying w sc.registry (w.registry sc.registry).emptied notes
          (.count (w.registry sc.registry).entries.length) rest) ∧
      (∀ e ∈ notes, e.isRemark = true) ∧
      ∀ x ∈ lead, x.Denied rest ∧ ∃ sc, x.jobs = .screen sc :: rest := by
  have hfirst : Machine.Denied rest ⟨w, .screen sc :: rest, none⟩ := denied_of_screen rfl hsc.keep
  induction hpending : sc.pending generalizing w sc with
  | nil =>
    obtain ⟨notes, hrun, hnotes⟩ := RegistryOp.screen_of_visited hw hsc hpending
    refine ⟨[_], notes, .cons (.carry hrun) (fun b' hturn hb' => hturn.of_denied rfl hsc.keep hrun
      rfl hb') ?_, hnotes, by simpa using hfirst⟩
    rw [List.append_assoc]
    exact .nil _
  | cons i pending ih =>
    obtain ⟨notes, next, hrun, hnotes, hregistry, hnext, hdenies⟩ :=
      RegistryOp.screen_of_pending hsc hpending
    have hsame : (w.noting notes).registry next.registry = w.registry sc.registry := by
      rw [hregistry]
      rfl
    have hsound : ((w.noting notes).registry next.registry).Sound := by rwa [hsame]
    have hdenies' : next.Denies ((w.noting notes).registry next.registry) := by rwa [hsame]
    obtain ⟨lead, notes', hguided, hnotes', hlead⟩ :=
      ih hsound hdenies' (denied_of_screen rfl hdenies.keep) hnext
    refine ⟨_ :: lead, notes' ++ notes, .cons (.carry hrun) (fun b' hturn hb' => hturn.of_denied rfl
      hsc.keep hrun rfl hb') ?_, ?_, ?_⟩
    · have hend : emptying (w.noting notes) next.registry (w.registry sc.registry).emptied notes'
          (.count (w.registry sc.registry).entries.length) rest =
          emptying w sc.registry (w.registry sc.registry).emptied (notes' ++ notes)
            (.count (w.registry sc.registry).entries.length) rest := by
        rw [emptying, emptying, hsame, hregistry, ← World.noting_noting]
        rfl
      rw [hsame, hend] at hguided
      exact hguided
    · exact List.forall_mem_append.2 ⟨hnotes', hnotes⟩
    · exact List.forall_mem_cons.2 ⟨⟨hfirst, sc, rfl⟩, hlead⟩

theorem guided_retain (hw : (w.registry s).Sound) (rest : List Job) : ∃ lead notes,
    Guided (Denied rest) ⟨w, .perform (denying s) :: rest, none⟩ lead
      (emptying w s (w.registry s).emptied notes (.count (w.registry s).entries.length) rest) ∧
    (∀ e ∈ notes, e.isRemark = true) ∧
    ∀ x ∈ lead, x.Denied rest ∧ ∃ t, x.jobs = t :: rest ∧ t.released? = none := by
  obtain ⟨lead, notes, hguided, hnotes, hlead⟩ :=
    guided_screen hw (Screening.denies_start hw s) rest
  have hfirst : Straight ⟨w, .perform (denying s) :: rest, none⟩
      [⟨w, .perform (denying s) :: rest, none⟩] ⟨w, .screen _ :: rest, none⟩ :=
    .cons rfl rfl rfl (.nil _)
  refine ⟨_, notes, (hfirst.guided _).append hguided, hnotes, ?_⟩
  rw [List.forall_mem_append]
  refine ⟨fun x hx => ?_, fun x hx => ?_⟩
  · obtain rfl := List.mem_singleton.1 hx
    exact ⟨denied_of_jobs (List.nil_append _).symm rfl, _, rfl, rfl⟩
  · obtain ⟨hdenied, sc, hsc⟩ := hlead x hx
    exact ⟨hdenied, _, hsc, rfl⟩

/-! ## From the releases on -/

/-- How a registry is emptied: foreign code is called only after it has become `r`, and the
handles that were in it are released then. -/
structure Empties (w : World) (s : Nat) (r : Registry) (notes : List Event) (answer : Answer)
    (rest : List Job) (ns : List Machine) (c : Machine) (before after : List Machine) : Prop where
  during : ns = before ++ emptying w s r notes answer rest :: after
  remarks : ∀ e ∈ notes, e.isRemark = true
  alone : ∀ x ∈ before, ∃ t, x.jobs = t :: rest
  /-- Each handle is released once, in the order of the entries. -/
  released : releases rest ns = (w.registry s).entries.map (·.2.handle)
  /-- Until somebody acts on a registry, the registry is empty. -/
  empty : ∀ mid x tail, emptying w s r notes answer rest :: after = mid ++ x :: tail →
    (∀ y ∈ mid, y.act? = none) → (x.world.registry s).entries = []
  /-- Only hooks do so. -/
  hooks : ∀ x ∈ emptying w s r notes answer rest :: after, x.act? ≠ none → x.hosts rest = true
  /-- What is in the registry in the end has been stored since. -/
  stored : ∀ e ∈ (c.world.registry s).entries,
    ∃ x ∈ history (emptying w s r notes answer rest :: after),
      x.registry = s ∧ x.action = .insert e.2 ∧ x.reply = .id (some e.1)
  answered : c.world.answer = answer

theorem released?_of_own {t : Job} (hjobs : a.jobs = t :: rest) (ht : t.released? = none) :
    a.released? rest = none := by
  unfold released?
  rw [hjobs]
  cases t with
  | release => cases ht
  | _ => rfl

/-- **Emptying a registry**, from the first turn to the last one. -/
theorem Run.empties (hlead : Run a lead (emptying w s r notes answer rest))
    (htail : Run (emptying w s r notes answer rest) tail c) (ha : a.world.Consistent)
    (hc : c.jobs = rest) (hlonger : ∀ x ∈ tail, rest.length < x.jobs.length)
    (hown : ∀ x ∈ lead, ∃ t, x.jobs = t :: rest ∧ t.released? = none) (hr : r.entries = [])
    (hnotes : ∀ e ∈ notes, e.isRemark = true) :
    ∃ after, tail = emptying w s r notes answer rest :: after ∧
      Empties w s r notes answer rest (lead ++ tail) c lead after := by
  have hconsistent : (emptying w s r notes answer rest).world.Consistent :=
    (hlead.preserves_consistent ha).1
  have hregistry : (emptying w s r notes answer rest).world.registry s = r :=
    World.registry_setRegistry_self ..
  obtain ⟨d, after, rfl, -, -⟩ := htail.inv_of_lt (by simp +arith [hc, emptying])
  obtain ⟨-, -, hanswer⟩ := htail.answers rfl hc hlonger
  obtain ⟨hreleased, hhooks⟩ := htail.releases (Job.closing_releases _ _) rfl hc hlonger
  refine ⟨after, rfl, rfl, hnotes, fun x hx => ?_, ?_, ?_, hhooks, ?_, hanswer⟩
  · obtain ⟨t, ht, -⟩ := hown x hx
    exact ⟨t, ht⟩
  · have hnone : Machine.releases rest lead = [] := by
      refine List.filterMap_eq_nil_iff.2 fun x hx => ?_
      obtain ⟨t, ht, hnot⟩ := hown x hx
      exact released?_of_own ht hnot
    rw [releases_append, hnone, hreleased, Job.released?_releases, List.nil_append]
  · intro mid x tail hsplit hidle
    obtain ⟨hrun, -⟩ := (hsplit ▸ htail).split
    have hsame := congrFun (hrun.rosters_of_idle hconsistent hidle) s
    show (x.world.rosters s).entries = []
    rw [hsame, World.rosters, hregistry]
    exact hr
  · intro e he
    have hget : (c.world.rosters s).get? e.1 = some e.2 := SlotTable.mem_entries.1 he
    refine (htail.stored hconsistent hget).resolve_left fun hold => ?_
    have hmem : e ∈ ((emptying w s r notes answer rest).world.rosters s).entries :=
      SlotTable.mem_entries.2 hold
    rw [World.rosters, hregistry] at hmem
    have hnone : e ∈ r.entries := hmem
    rw [hr] at hnone
    cases hnone

/-- **What is released and finalized does not depend on how the registry was emptied**, nor
does anything that finalizers do. -/
theorem Run.mirror_emptying (h : Run (emptying w s r notes answer rest) ms c) (hc : c.jobs = rest)
    (hms : ∀ x ∈ ms, rest.length < x.jobs.length) (notes' : List Event) (answer' : Answer) :
    ∃ ns d, Run (emptying w s r notes' answer' rest) ns d ∧ d.jobs = rest ∧
      Parallel (.answer answer :: rest) (.answer answer' :: rest) ⟨notes ++ w.journal, 0⟩
        ⟨notes' ++ w.journal, 0⟩ ms ns ∧
      c.world.visible = d.world.visible ∧
      ∃ later, c.world.journal = later ++ (notes ++ w.journal) ∧
        d.world.journal = later ++ (notes' ++ w.journal) := by
  have hfresh :
      Job.fresh true ((w.registry s).entries.map fun x => Job.release x.2.handle) = true := by
    rw [← List.append_nil (List.map _ _), Job.fresh_releases]
    rfl
  have hmirrors : Mirrors (.answer answer :: rest) (.answer answer' :: rest)
      ⟨notes ++ w.journal, 0⟩ ⟨notes' ++ w.journal, 0⟩ (emptying w s r notes answer rest)
      (emptying w s r notes' answer' rest) :=
    .intro (w.setRegistry s r).visible _ none (Or.inr hfresh)
  obtain ⟨during, e, after, ns, y, rfl, hduring, hafter, he, hrun, hy, hall, hey⟩ :=
    h.mirror_returns hmirrors (by simp [hc])
  obtain ⟨_, _, -, hturn, -⟩ := hafter.inv_of_lt (by simp [hc, he])
  obtain ⟨v, last, last', rfl, rfl⟩ := hey.worlds he hturn.running
  obtain ⟨rfl, rfl⟩ := (straight_answer _ answer rest).ends rfl hafter hc (by simp)
    fun x hx => hms x (List.mem_append_right _ hx)
  exact ⟨_, _, hrun.append (straight_answer _ answer' rest).run, rfl,
    List.rel_append hall (.cons hey .nil), rfl, v.journal, rfl, rfl⟩

/-- Where an operation has only to close and to answer, no step retains entries. -/
theorem denied_of_parallel {js : List Job} {past past' : Past}
    (h : Parallel js (.answer answer :: rest) past past' ms ns) : ∀ x ∈ ns, x.Denied rest := by
  induction h with
  | nil => simp
  | cons hxy _ ih =>
    refine List.forall_mem_cons.2 ⟨?_, ih⟩
    obtain ⟨above, -, hjobs⟩ := hxy.jobs
    exact denied_of_jobs hjobs rfl

/-! ## Whole runs -/

/-- The registry `s` is cleared in the turns of `ns`, none of its entries is retained in those
of `ns'`, and this is the same. -/
structure Agree (w : World) (s : Nat) (rest : List Job) (ns : List Machine) (c : Machine)
    (ns' : List Machine) (c' : Machine) : Prop where
  /-- Once the registry is empty, the same turns follow. Apart from them, there are remarks in
  the journal. -/
  phases : ∃ before after notes before' after',
    Empties w s (w.registry s).emptied [] .cleared rest ns c before after ∧
    Empties w s (w.registry s).emptied notes (.count (w.registry s).entries.length) rest ns' c'
      before' after' ∧
    Parallel (.answer .cleared :: rest) (.answer (.count (w.registry s).entries.length) :: rest)
      ⟨w.journal, 0⟩ ⟨notes ++ w.journal, 0⟩
      (emptying w s (w.registry s).emptied [] .cleared rest :: after)
      (emptying w s (w.registry s).emptied notes (.count (w.registry s).entries.length) rest ::
        after') ∧
    World.eventsSince w c'.world = notes.reverse ++ World.eventsSince w c.world
  /-- Nothing is left that differs, but for the journal and the answer. -/
  world : c.world.visible = c'.world.visible
  /-- Whoever goes on to work with the registry gets the same answers and the same ids. -/
  continues : ∀ (client : Client) l l' d d', Series s c l d → Series s c' l' d' →
    client.Leads l → client.Leads l' → l.length = l'.length →
      l = l' ∧ d.world.registry s = d'.world.registry s

theorem Orderly.begin {m : Machine} (h : m.Orderly) (hrest : rest <:+ m.jobs) (step : Step) :
    Orderly ⟨m.world, .perform step :: rest, none⟩ where
  consistent := h.consistent
  peopled := h.peopled
  proper := List.forall_mem_cons.2 ⟨trivial, fun u hu => h.proper u (hrest.subset hu)⟩

/-- The first turns of an operation that goes on by itself. -/
theorem longer_of_own (h : ∀ x ∈ lead, ∃ t, x.jobs = t :: rest ∧ t.released? = none) :
    ∀ x ∈ lead, rest.length < x.jobs.length := by
  intro x hx
  obtain ⟨t, ht, -⟩ := h x hx
  simp [ht]

theorem own_of_perform (w : World) (step : Step) (rest : List Job) :
    ∀ x ∈ [(⟨w, .perform step :: rest, none⟩ : Machine)],
      ∃ t, x.jobs = t :: rest ∧ t.released? = none := by
  rintro x hx
  obtain rfl := List.mem_singleton.1 hx
  exact ⟨_, rfl, rfl⟩

/-- Once the handles are released next, the step can be brought to its end. -/
theorem exists_executes {step : Step}
    (hlead : Run ⟨w, .perform step :: rest, none⟩ lead (emptying w s r notes answer rest))
    (hown : ∀ x ∈ lead, ∃ t, x.jobs = t :: rest ∧ t.released? = none) :
    ∃ ns c, Executes step w rest ns c := by
  obtain ⟨tail, c, htail, hc, hlonger⟩ := exists_closing
    (Job.closing_releases (fun x => x.2.handle) (w.registry s).entries)
    ((w.setRegistry s r).noting notes) answer rest
  exact ⟨_, c, hlead.append htail, hc, List.forall_mem_append.2 ⟨longer_of_own hown, hlonger⟩⟩

section

variable {tail' : List Machine} {c' : Machine}

/-- Emptyings agree if the same turns follow once the registry is empty. -/
theorem agree_of_parallel (ha : Orderly ⟨w, .perform (clearing s) :: rest, none⟩)
    (ha' : Orderly ⟨w, .perform (denying s) :: rest, none⟩)
    (hlead : Run ⟨w, .perform (denying s) :: rest, none⟩ lead
      (emptying w s (w.registry s).emptied notes (.count (w.registry s).entries.length) rest))
    (hown : ∀ x ∈ lead, ∃ t, x.jobs = t :: rest ∧ t.released? = none)
    (hnotes : ∀ e ∈ notes, e.isRemark = true)
    (htail : Run (emptying w s (w.registry s).emptied [] .cleared rest) tail c)
    (htail' : Run (emptying w s (w.registry s).emptied notes
      (.count (w.registry s).entries.length) rest) tail' c')
    (hc : c.jobs = rest) (hc' : c'.jobs = rest)
    (hall : Parallel (.answer .cleared :: rest)
      (.answer (.count (w.registry s).entries.length) :: rest) ⟨w.journal, 0⟩
      ⟨notes ++ w.journal, 0⟩ tail tail')
    (hvisible : c.world.visible = c'.world.visible)
    (hjournal : ∃ later, c.world.journal = later ++ w.journal ∧
      c'.world.journal = later ++ (notes ++ w.journal)) :
    Agree w s rest ([⟨w, .perform (clearing s) :: rest, none⟩] ++ tail) c (lead ++ tail') c' := by
  have hw : (w.registry s).Sound := ha.consistent s
  have hempty := Registry.entries_emptied (w.registry s)
  have hclear := (straight_clear hw rest).run
  obtain ⟨after, rfl, hempties⟩ := hclear.empties htail ha.consistent hc hall.le_length
    (own_of_perform w _ rest) hempty (by simp)
  obtain ⟨after', rfl, hempties'⟩ := hlead.empties htail' ha.consistent hc' hall.symm.le_length
    hown hempty hnotes
  obtain ⟨later, hlater, hlater'⟩ := hjournal
  refine ⟨⟨_, after, notes, lead, after', hempties, hempties', hall, ?_⟩, hvisible, ?_⟩
  · rw [World.eventsSince_of_append hlater,
      World.eventsSince_of_append (hlater'.trans (List.append_assoc _ _ _).symm), List.reverse_append]
  · intro client l l' d d' hl hl' hleads hleads' hlength
    have hsame : c.world.registry s = c'.world.registry s :=
      congrArg (fun v => v.registry s) hvisible
    have hcleared := hl.converses ((hclear.append htail).orderly ha)
    rw [hsame] at hcleared
    exact hcleared.unique (hl'.converses ((hlead.append htail').orderly ha')) hleads hleads' hlength

/-- For every way to clear a registry, there is one to retain none of its entries. -/
theorem Executes.denying (h : Executes (clearing s) w rest ns c)
    (ha : Orderly ⟨w, .perform (clearing s) :: rest, none⟩)
    (ha' : Orderly ⟨w, .perform (denying s) :: rest, none⟩) :
    ∃ ns' c', Executes (Machine.denying s) w rest ns' c' ∧ (∀ x ∈ ns', x.Denied rest) ∧
      Agree w s rest ns c ns' c' := by
  obtain ⟨lead, notes, hretain, hnotes, hlead⟩ := guided_retain (ha.consistent s) rest
  have hown : ∀ x ∈ lead, ∃ t, x.jobs = t :: rest ∧ t.released? = none := fun x hx => (hlead x hx).2
  obtain ⟨tail, rfl, htail⟩ := (straight_clear (ha.consistent s) rest).of_run h.run (by simp [h.ends])
  obtain ⟨-, hwithin⟩ := List.forall_mem_append.1 h.within
  obtain ⟨tail', c', htail', hc', hall, hvisible, hjournal⟩ :=
    htail.mirror_emptying h.ends hwithin notes (.count (w.registry s).entries.length)
  refine ⟨lead ++ tail', c', ⟨hretain.run.append htail', hc', ?_⟩, ?_, ?_⟩
  · exact List.forall_mem_append.2 ⟨longer_of_own hown, hall.symm.le_length⟩
  · exact List.forall_mem_append.2 ⟨fun x hx => (hlead x hx).1, denied_of_parallel hall⟩
  · exact agree_of_parallel ha ha' hretain.run hown hnotes htail htail' h.ends hc' hall hvisible
      hjournal

/-- For every way to retain none of the entries of a registry, there is one to clear it. -/
theorem Executes.clearing (h : Executes (Machine.denying s) w rest ns c)
    (hdenied : ∀ x ∈ ns, x.Denied rest) (ha : Orderly ⟨w, .perform (clearing s) :: rest, none⟩)
    (ha' : Orderly ⟨w, .perform (Machine.denying s) :: rest, none⟩) :
    ∃ ns' c', Executes (Machine.clearing s) w rest ns' c' ∧ Agree w s rest ns' c' ns c := by
  obtain ⟨lead, notes, hretain, hnotes, hlead⟩ := guided_retain (ha.consistent s) rest
  have hown : ∀ x ∈ lead, ∃ t, x.jobs = t :: rest ∧ t.released? = none := fun x hx => (hlead x hx).2
  obtain ⟨tail, rfl, htail⟩ := hretain.of_run h.run
    (fun x hx => h.ends ▸ longer_of_own hown x hx) hdenied (denied_of_ends h.ends)
  obtain ⟨-, hwithin⟩ := List.forall_mem_append.1 h.within
  obtain ⟨tail', c', htail', hc', hall, hvisible, later, hlater, hlater'⟩ :=
    htail.mirror_emptying h.ends hwithin [] .cleared
  refine ⟨_, c', ⟨(straight_clear (ha.consistent s) rest).run.append htail', hc', ?_⟩, ?_⟩
  · exact List.forall_mem_append.2 ⟨longer_of_own (own_of_perform w _ rest), hall.symm.le_length⟩
  · exact agree_of_parallel ha ha' hretain.run hown hnotes htail' htail hc' h.ends hall.symm
      hvisible.symm ⟨later, hlater', hlater⟩

end

/-- **Three ways to empty a registry agree.** From any state that can be reached, to clear a
registry and to retain none of its entries is the same: for every run of one there is a run of
the other with the same releases, the same finalizers in the same worlds, and the same world in
the end. Foreign code is called only when the registry is empty already. Then every handle is
released once, in the order of the entries. What is in the registry in the end has been stored
by finalizers, and whoever goes on to work with it gets the same ids. To discard a registry
releases the same handles in the same order. -/
theorem emptyings_agree {objects : List ForeignObject} {steps : List Step} {m : Machine}
    (h : Run (session objects steps) ms m) (hrest : rest <:+ m.jobs) (s : Nat) :
    (∃ ns c, Executes (clearing s) m.world rest ns c) ∧
    (∀ ns c, Executes (clearing s) m.world rest ns c → ∃ ns' c',
      Executes (denying s) m.world rest ns' c' ∧ (∀ x ∈ ns', x.Denied rest) ∧
        Agree m.world s rest ns c ns' c') ∧
    (∀ ns' c', Executes (denying s) m.world rest ns' c' → (∀ x ∈ ns', x.Denied rest) → ∃ ns c,
      Executes (clearing s) m.world rest ns c ∧ Agree m.world s rest ns c ns' c') ∧
    (∃ ns c, Executes (discarding s) m.world rest ns c) ∧
    ∀ ns c, Executes (discarding s) m.world rest ns c → ∃ before after,
      Empties m.world s .empty [] .dropped rest ns c before after := by
  have horderly : m.Orderly := h.orderly (orderly_session objects steps)
  have ha := horderly.begin hrest (clearing s)
  have ha' := horderly.begin hrest (denying s)
  have hclear := straight_clear (horderly.consistent s) rest
  have hdiscard := straight_discard m.world s rest
  refine ⟨exists_executes hclear.run (own_of_perform _ _ _), fun ns c hexec => hexec.denying ha ha',
    fun ns' c' hexec hdenied => hexec.clearing hdenied ha ha',
    exists_executes hdiscard.run (own_of_perform _ _ _), fun ns c hexec => ?_⟩
  obtain ⟨tail, rfl, htail⟩ := hdiscard.of_run hexec.run (by simp [hexec.ends])
  obtain ⟨-, hwithin⟩ := List.forall_mem_append.1 hexec.within
  obtain ⟨after, -, hempties⟩ := hdiscard.run.empties htail horderly.consistent hexec.ends hwithin
    (own_of_perform _ _ _) rfl (by simp)
  exact ⟨_, after, hempties⟩

/-- The machine that is about to clear the registry instead. -/
def relapseClearing : Machine := ⟨relapsing.world, [.perform (clearing 0)], none⟩

/-- All three objects are released, and the third one is registered again by the finalizer of
the first one. It gets the id that it gets when the registry is cleared. -/
theorem emptyings_agree_in_relapse : ∃ ns c, Executes (denying 0) relapsing.world [] ns c ∧
    releases [] ns = [some 0, some 1, some 2] ∧
    (c.world.registry 0).get? ⟨3, 3⟩ = some ⟨some 2, 0x3000⟩ := by
  have hclear : Executes (clearing 0) relapsing.world [] (visited relapse 11 relapseClearing)
      (relapseClearing.turns relapse 11) :=
    ⟨run_visited relapse 11 relapseClearing, rfl, by decide +kernel⟩
  have hrest : [] <:+ relapsing.jobs := List.nil_suffix
  obtain ⟨-, hsame, -⟩ :=
    emptyings_agree (run_visited relapse 15 (session relapseObjects relapseSteps)) hrest 0
  obtain ⟨ns, c, hexec, -, hagree⟩ := hsame _ _ hclear
  obtain ⟨_, _, _, _, _, -, hempties, -⟩ := hagree.phases
  refine ⟨ns, c, hexec, hempties.released.trans (by decide +kernel), ?_⟩
  have hregistry : (relapseClearing.turns relapse 11).world.registry 0 = c.world.registry 0 :=
    congrArg (fun v => v.registry 0) hagree.world
  rw [← hregistry]
  decide +kernel

end Machine

end ListenerRegistry
