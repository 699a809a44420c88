import ListenerRegistry.Proofs.Consistency
import ListenerRegistry.Proofs.Dealings

/-!
# Operations are chains of dealings

An operation honors the handles that it is given if a chain of dealings leads
from them to the handles that its jobs own in the end.
-/

namespace ListenerRegistry

open World

/-- A chain of dealings leads from the world `w` with the handles `hs` in hand to
the outcome. -/
def Outcome.Honors (w : World) (hs : List Handle) (out : Outcome) : Prop :=
  Deals w hs out.world (out.jobs.flatMap Job.hands)

namespace Outcome

variable {w w' : World} {hs hs' : List Handle} {out : Outcome}

theorem Honors.of_deals (h : Deals w hs w' hs') (hout : Honors w' hs' out) : Honors w hs out :=
  h.trans hout

theorem honors_say (w : World) (a : Answer) : Honors w [] (.say w a) :=
  .refl w []

theorem honors_put (w : World) (r : Nat) (new : Handle) {jobs : List Job}
    (hjobs : jobs.flatMap Job.hands = hs) : Honors w (new :: hs) (put w r new jobs) := by
  subst hjobs
  exact .stow w _ r new

theorem honors_putKey (w : World) (k : Nat) (new : Option Key) {jobs : List Job}
    (hjobs : jobs.flatMap Job.hands = hs) :
    Honors w (Key.handle? new :: hs) (putKey w k new jobs) := by
  subst hjobs
  exact .stowKey w _ k new

theorem honors_deliver (w : World) (dest : Option Nat) (h : Handle) {jobs : List Job}
    (hjobs : jobs.flatMap Job.hands = hs) : Honors w (h :: hs) (deliver w dest h jobs) := by
  cases dest with
  | some r => exact honors_put w r h hjobs
  | none =>
    subst hjobs
    exact .refl w _

end Outcome

open Outcome

/-! ## Handles -/

/-- A handle in a register vouches for its object. -/
theorem World.vouches_handle {w : World} (hs : List Handle) (r : Nat) (o : ObjectId)
    (h : w.handle r = some o) : w.Vouches hs o := by
  have := held_of_handle h
  exact Or.inr (Or.inl (by omega))

/-- A key vouches for its object. -/
theorem World.vouches_key {w : World} (hs : List Handle) (k : Nat) (o : ObjectId)
    (h : Key.handle? (w.key? k) = some o) : w.Vouches hs o := by
  have := held_of_key h
  exact Or.inr (Or.inl (by omega))

theorem HandleOp.honors_run (w : World) (op : HandleOp) : (op.run w).Honors w [] := by
  have hnull (w : World) : Deals w [] w [none] := .hands fun o => by simp
  cases op with
  | setNull r => exact .of_deals (hnull w) (honors_put w r none rfl)
  | borrow r target =>
    simp only [run]
    split
    · rename_i w' hw
      exact .of_deals (.borrow hw) (honors_put w' r target rfl)
    · exact honors_say w _
  | adopt r target =>
    simp only [run]
    split
    · rename_i w' hw
      exact .of_deals (.adopt hw) (honors_put w' r target rfl)
    · exact honors_say w _
  | reborrow r src | clone r src =>
    exact .of_deals (.acquire (vouches_handle [] src)) (honors_put _ r _ rfl)
  | assign r src =>
    -- the copy stays in hand while the register is null
    have hcopy : Deals w [] (w.acquire (w.handle src)) [w.handle src] :=
      .acquire (vouches_handle [] src)
    have hout : Deals (w.acquire (w.handle src)) [none, w.handle src]
        ((w.acquire (w.handle src)).setHandle r none)
        [(w.acquire (w.handle src)).handle r, w.handle src] := .stow _ _ r none
    have hsame : (w.acquire (w.handle src)).handle r = w.handle r := by
      cases w.handle src <;> rfl
    rw [hsame] at hout
    exact hcopy.trans ((hnull _).frame [w.handle src] |>.trans hout)
  | cloneFrom r src =>
    simp only [run, overwrite]
    split
    · refine .of_deals (.acquire (vouches_handle [] src)) (.of_deals (.acquire fun o ho => ?_)
        (honors_put _ r _ rfl))
      exact Or.inr (Or.inl (by simp [ho]))
    · exact .of_deals (.acquire (vouches_handle [] src)) (honors_put _ r _ rfl)
  | take r src =>
    exact .of_deals ((hnull w).trans (.stow w [] src none)) (honors_put _ r _ rfl)
  | drop r => exact .of_deals (hnull w) (honors_put w r none rfl)
  | surrender r =>
    have hout : Deals w [] (w.setHandle r none) [w.handle r] := (hnull w).trans (.stow w [] r none)
    simp only [run]
    split
    · rename_i hr
      rw [hr] at hout
      exact .of_deals (hout.trans (.hands fun o => by simp)) (honors_say _ _)
    · rename_i o hr
      rw [hr] at hout
      exact .of_deals (hout.step (.surrender o)) (honors_say _ _)
  | hash probe =>
    simp only [run]
    split
    · rename_i grip w' hw
      exact .of_deals (.grip hw) (.refl w' [grip.owned])
    · exact honors_say w _
  | hashEq a b => exact hnull w
  | peek | isNull | eq | render => exact honors_say w _

/-! ## The host -/

theorem HostOp.honors_run (w : World) (op : HostOp) : (op.run w).Honors w [] := by
  cases op with
  | incref o =>
    simp only [run]
    split
    · rename_i halive
      exact .of_deal (.hostAcquire o halive)
    · exact honors_say w _
  | decref o =>
    simp only [run]
    split
    · rename_i w' hw
      simp only [spend?] at hw
      split at hw
      · rename_i halive
        obtain ⟨c, hc, rfl⟩ := Option.map_eq_some_iff.1 hw
        exact .of_deal (.takeOver o (Or.inr rfl) (Or.inl halive) (Custody.spends_of_spend hc))
      · cases hw
    · exact honors_say w _
  | retire o | setHashing o rule =>
    exact .idle (.of_modifyObject w o (fun _ => rfl) (fun _ => rfl) fun _ => rfl) (fun _ => rfl)
      fun _ => rfl
  | track r o =>
    simp only [run]
    split
    · rename_i howner
      refine .of_deals (.acquire fun p hp => ?_) (honors_put _ r _ rfl)
      cases hp
      exact Or.inr (Or.inr howner)
    · exact honors_say w _
  | share r o =>
    simp only [run]
    split
    · rename_i howner
      exact .of_deals (.of_deal (.share o howner)) (honors_put _ r _ rfl)
    · exact honors_say w _
  | give r o =>
    simp only [run]
    split
    · rename_i howner
      exact .of_deals (.of_deal (.takeOver o (Or.inl rfl) (Or.inr howner)
        (Custody.spends_withoutOwner howner))) (honors_put _ r _ rfl)
    · exact honors_say w _
  | recover r keep =>
    simp only [run]
    split
    · exact honors_say w _
    · rename_i o ho
      have hacquire : Deals w [] (w.acquire (some o)) [some o] :=
        .acquire fun p hp => vouches_handle [] r p (ho.trans hp)
      have hrecover := hacquire.step (.recover o)
      split
      · exact hrecover
      · -- an owner that is let go of at once is kept aside for no time
        exact hrecover.step (.takeBack o rfl)
  | dropRecovered =>
    simp only [run]
    split
    · exact honors_say w _
    · rename_i o rest hrecovered
      exact .of_deal (.takeBack o hrecovered)
  | dropOwner o =>
    simp only [run]
    split
    · rename_i howner
      exact .of_deal (.takeOver o (Or.inr rfl) (Or.inr howner) (Custody.spends_withoutOwner howner))
    · exact honors_say w _

/-! ## Keys -/

theorem KeyOp.honors_run (w : World) (op : KeyOp) : (op.run w).Honors w [] := by
  have hnull (w : World) : Deals w [] w [none] := .hands fun o => by simp
  cases op with
  | make k source =>
    simp only [run]
    split
    · rename_i h w' hw
      exact .of_deals (.obtain hw) (.refl w' [h])
    · exact honors_say w _
  | clone k src =>
    simp only [run]
    split
    · rename_i key hkey
      refine .of_deals (.acquire fun o ho => ?_) (honors_putKey _ k (some key) rfl)
      exact vouches_key [] src o (by rw [hkey]; exact ho)
    · exact honors_say w _
  | drop k => exact .of_deals (hnull w) (honors_putKey w k none rfl)
  | unwrap k r =>
    simp only [run]
    split
    · rename_i key hkey
      have hout := Deals.stowKey w [] k none
      rw [hkey] at hout
      exact .of_deals ((hnull w).trans hout) (honors_put _ r _ rfl)
    · exact honors_say w _
  | copyHandle k r =>
    simp only [run]
    split
    · rename_i key hkey
      refine .of_deals (.acquire fun o ho => ?_) (honors_put _ r _ rfl)
      exact vouches_key [] k o (by rw [hkey]; exact ho)
    · exact honors_say w _
  | compare a b | summary k layout =>
    simp only [run]
    split <;> exact honors_say w _

theorem KeySetOp.honors_run (w : World) (op : KeySetOp) : (op.run w).Honors w [] := by
  have hnull (w : World) : Deals w [] w [none] := .hands fun o => by simp
  cases op with
  | insert k =>
    simp only [run]
    split
    · rename_i key hkey
      have hout := (hnull w).trans (Deals.stowKey w [] k none)
      rw [hkey] at hout
      split
      · exact .of_deals hout (.refl _ [key.handle])
      · refine .of_deals hout (.setKeySet _ _ fun o => ?_)
        simp [Outcome.say, Job.hands, List.count_append, Key.handle?]
    · exact honors_say w _
  | remove k =>
    simp only [run]
    split
    · rename_i key hkey
      split
      · rename_i hmem
        refine .setKeySet _ _ fun o => ?_
        have hperm := ((List.perm_cons_erase hmem).map Key.handle).count_eq (some o)
        simp [Job.hands, List.count_cons] at hperm ⊢
        omega
      · exact honors_say w _
    · exact honors_say w _
  | drain =>
    refine .setKeySet _ _ fun o => ?_
    have hperm := ((List.mergeSort_perm w.keySet Key.precedes).map Key.handle).count_eq (some o)
    simp [run, releaseOrder, List.flatMap_append, Job.hands, hperm]
  | contains k =>
    simp only [run]
    split <;> exact honors_say w _
  | targets => exact honors_say w _

/-! ## Registries -/

/-- An operation that looks at a null handle owns none. -/
theorem Grip.owned_of_null {w : World} (grip : Grip) (h : grip.handle w = none) :
    grip.owned = none := by
  cases grip with
  | fresh => exact h
  | register | entry => rfl

namespace RegistryOp

variable {w : World} {out : Outcome}

theorem honors_register {s : Nat} {k : Key} {save : Option Nat} (hw : (w.registry s).Sound)
    (h : register w s k save = .ok out) : out.Honors w [k.handle] := by
  obtain ⟨r, hr, -⟩ := Registry.register_eq hw k
  have hhandles := Registry.handles_register hw hr
  simp only [register, hr, bind, Except.bind] at h
  cases h
  cases hid : (Roster.add (w.registry s).slots k).1 with
  | none => exact .setRegistry w s r fun o => by simpa [hid, Job.hands] using hhandles o
  | some id =>
    have hstore : Deals w [k.handle] (w.setRegistry s r) [] :=
      .setRegistry w s r fun o => by simpa [hid] using hhandles o
    exact .of_deals (hstore.trans ((Deals.log _ _ _).trans (.saveId _ _ save id)))
      (honors_say _ _)

theorem honors_unlink {s : Nat} {id : ListenerId} {dest : Option Nat} {jobs : Handle → List Job}
    {hs : List Handle} (hw : (w.registry s).Sound) (hjobs : ∀ h, (jobs h).flatMap Job.hands = hs)
    (h : unlink w s id dest jobs = .ok out) : out.Honors w hs := by
  obtain ⟨r, hr, -⟩ := Registry.unlink_eq hw id
  have hhandles := Registry.handles_unlink hw hr
  simp only [unlink, hr, bind, Except.bind] at h
  cases h
  cases hfound : (Roster.take (w.registry s).slots id).1 with
  | none =>
    refine .setRegistry w s r fun o => ?_
    have := hhandles o
    simp [hfound, Key.handle?] at this
    simp [hjobs, this]
  | some k =>
    have hunlink : Deals w hs (w.setRegistry s r) (k.handle :: hs) := by
      refine .setRegistry w s r fun o => ?_
      have := hhandles o
      simp [hfound, Key.handle?, List.count_cons] at this ⊢
      omega
    exact .of_deals (hunlink.trans (.log _ _ _)) (honors_deliver _ dest _ (hjobs _))

theorem deals_logRemoved (w : World) (hs : List Handle) (removed : List (ListenerId × Key)) :
    Deals w hs (logRemoved w removed) hs := by
  induction removed generalizing w with
  | nil => exact .refl w hs
  | cons e removed ih => exact (Deals.log w hs _).trans (ih _)

theorem honors_prune {s : Screening} (hw : (w.registry s.registry).Sound)
    (h : prune w s = .ok out) : out.Honors w [] := by
  obtain ⟨r, hr, -⟩ := Registry.prune_eq hw s.doomed.reverse
  generalize (Roster.strike (w.registry s.registry).slots s.doomed.reverse).1 = removed at hr
  simp only [prune, hr, bind, Except.bind] at h
  cases h
  have hunlink : Deals w [] (w.setRegistry s.registry r) (removed.map fun e => e.2.handle) :=
    .setRegistry w s.registry r fun o => by simpa using Registry.handles_prune hw hr o
  simp only [Honors, List.flatMap_append, Job.hands_releases, List.flatMap_singleton, Job.hands,
    List.append_nil]
  have hlogged := hunlink.trans (deals_logRemoved _ _ removed)
  split
  · exact hlogged.trans (.log _ _ _)
  · exact hlogged

theorem honors_screen {s : Screening} (hw : (w.registry s.registry).Sound)
    (h : screen w s = .ok out) : out.Honors w [] := by
  simp only [screen] at h
  split at h
  · exact honors_prune hw h
  · split at h
    · cases h
      exact .refl w []
    · rename_i id k _
      split at h
      · cases h
      · have hkeep : Deals w [] (k.handle.elim w fun o => w.emit (.keep o)) [none] := by
          cases k.handle with
          | none => exact .hands fun o => by simp
          | some o => exact .idle (.of_objects rfl rfl rfl) (fun _ => rfl) fun o => by simp
        split at h <;> cases h
        · exact hkeep
        · exact hkeep.trans (.hands fun o => by simp [Job.hands])

theorem honors_run (hw : w.Consistent) {op : RegistryOp} (h : op.run w = .ok out) :
    out.Honors w [] := by
  cases op with
  | insert s source save =>
    simp only [run] at h
    split at h
    · cases h
      exact honors_say w _
    · rename_i w' hw'
      cases h
      exact .of_deals ((Deals.obtain hw').trans (.hands fun o => by simp)) (honors_say w' _)
    · rename_i o w' hw'
      cases h
      exact .of_deals (.obtain hw') (.refl w' [some o])
  | insertKey s k save =>
    simp only [run] at h
    split at h
    · cases h
      exact honors_say w _
    · rename_i key hkey
      have hout : Deals w [] (w.setKey k none) [key.handle] := by
        have hout := Deals.stowKey w [] k none
        rw [hkey] at hout
        exact (Deals.hands fun o => by simp [Key.handle?]).trans hout
      split at h
      · rename_i hnull
        cases h
        rw [hnull] at hout
        exact .of_deals (hout.trans (.hands fun o => by simp)) (honors_say _ _)
      · exact .of_deals hout (honors_register (hw s) h)
  | find s probe save | contains s probe | remove s probe dest =>
    simp only [run] at h
    split at h
    · cases h
      exact honors_say w _
    · rename_i grip w' hw'
      split at h <;> cases h
      · rename_i hnull
        refine .of_deals ((Deals.grip hw').trans (.hands fun o => ?_)) (honors_say w' _)
        simp [grip.owned_of_null hnull]
      · exact .of_deals (.grip hw') (.refl w' [grip.owned])
  | get s n =>
    simp only [run] at h
    split at h <;> cases h <;> exact honors_say w _
  | removeId s n dest =>
    simp only [run] at h
    split at h
    · cases h
      exact honors_say w _
    · exact honors_unlink (hw s) (fun _ => rfl) h
  | sameId a b =>
    simp only [run] at h
    split at h <;> cases h <;> exact honors_say w _
  | retain s keep =>
    cases h
    exact .refl w []
  | clear s =>
    obtain ⟨r, hr, -⟩ := Registry.drain_eq (hw s)
    obtain ⟨hnone, hkeys⟩ := Registry.handles_drain (hw s) hr
    simp only [run, hr, bind, Except.bind] at h
    cases h
    refine .setRegistry w s r fun o => ?_
    simp [hnone, hkeys, List.flatMap_append, Job.hands]
  | discard s =>
    cases h
    refine .setRegistry w s .empty fun o => ?_
    have hnone : Registry.empty.handles = [] := rfl
    rw [hnone]
    simp [List.flatMap_append, Job.hands, Registry.handles]
  | size | entries =>
    cases h
    exact honors_say w _

end RegistryOp

/-! ## Jobs -/

/-- Whatever is looked at vouches for its object. -/
theorem Grip.vouches {w : World} (grip : Grip) {o : ObjectId} (h : grip.handle w = some o) :
    w.Vouches [grip.owned] o := by
  cases grip with
  | fresh h' =>
    obtain rfl : h' = some o := h
    exact Or.inr (Or.inl (by simp [owned]))
  | register r => exact vouches_handle _ r o h
  | entry s id =>
    obtain ⟨k, hk, ho⟩ := Option.bind_eq_some_iff.1 h
    have := held_of_entry (SlotTable.mem_entries.2 hk) ho
    exact Or.inr (Or.inl (by omega))

theorem HashUse.honors_resume {w : World} (hw : w.Consistent) {outcome : HashOutcome}
    {use : HashUse} {out : Outcome} (h : use.resume w outcome = .ok out) : out.Honors w [use.owned] := by
  have hnone : Deals w [none] w [] := .hands fun o => by simp
  cases use with
  | answer probe =>
    cases h
    exact .refl w [probe.owned]
  | compareWith a b =>
    cases h
    exact .refl w [none]
  | compareTo first b =>
    cases h
    exact .of_deals hnone (honors_say w _)
  | makeKey k h' =>
    cases outcome with
    | ok hash =>
      cases h
      exact honors_putKey w k (some ⟨h', hash⟩) rfl
    | error e =>
      cases h
      exact .refl w [h']
  | insert s h' save =>
    cases outcome with
    | ok hash => exact RegistryOp.honors_register (hw s) h
    | error e =>
      cases h
      exact .refl w [h']
  | find s probe save =>
    cases outcome with
    | error e =>
      cases h
      exact .refl w [probe.owned]
    | ok hash =>
      have hr := Registry.locate_eq (hw s) hash (probe.handle w)
      simp only [resume, hr, bind, Except.bind] at h
      cases h
      have hsame : Deals w [probe.owned] (w.setRegistry s (w.registry s)) [probe.owned] :=
        .setRegistry w s _ fun _ => rfl
      cases hid : Roster.idOf? (w.registry s).slots ⟨probe.handle w, hash⟩ with
      | none => exact hsame
      | some id => exact hsame.trans (.saveId _ _ save id)
  | contains s probe =>
    cases outcome with
    | error e =>
      cases h
      exact .refl w [probe.owned]
    | ok hash =>
      have hr := Registry.locate_eq (hw s) hash (probe.handle w)
      simp only [resume, hr, bind, Except.bind] at h
      cases h
      exact .setRegistry w s _ fun _ => rfl
  | remove s probe dest =>
    cases outcome with
    | error e =>
      cases h
      exact .refl w [probe.owned]
    | ok hash =>
      have hr := Registry.locate_eq (hw s) hash (probe.handle w)
      simp only [resume, hr, bind, Except.bind] at h
      have hsame : Deals w [probe.owned] (w.setRegistry s (w.registry s)) [probe.owned] :=
        .setRegistry w s _ fun _ => rfl
      split at h
      · cases h
        exact hsame
      · -- the lookup wrote the registry back as it was
        have hw' : ((w.setRegistry s (w.registry s)).registry s).Sound := by
          rw [registry_setRegistry_self]
          exact hw s
        exact .of_deals hsame (RegistryOp.honors_unlink hw' (fun _ => rfl) h)
  | screen bound id s =>
    cases h
    exact hnone

/-- **Every job is a chain of dealings**, from the handles it owns to the handles
of the jobs that it leaves. -/
theorem Job.honors_run {w : World} (hw : w.Consistent) {t : Job} {out : Outcome}
    (h : t.run w = .ok out) (ht : ∀ r new, t ≠ .install r new) : out.Honors w t.hands := by
  cases t with
  | perform step =>
    cases step with
    | op op =>
      cases op with
      | handle op => cases h; exact op.honors_run w
      | host op => cases h; exact op.honors_run w
      | key op => cases h; exact op.honors_run w
      | keySet op => cases h; exact op.honors_run w
      | registry op => exact RegistryOp.honors_run hw h
    | batch steps => cases steps <;> cases h <;> exact .refl w []
  | release h' =>
    cases h' with
    | none =>
      cases h
      exact .hands fun o => by simp [hands]
    | some o =>
      have hrelease : Deals w [some o] (w.relinquish o) [] := .of_deal (.release o)
      simp only [run] at h
      simp only [relinquish] at hrelease
      split at h <;> rename_i hzero <;> cases h
      · rwa [if_pos hzero] at hrelease
      · rwa [if_neg hzero] at hrelease
  | install r new => exact absurd rfl (ht r new)
  | ask use =>
    simp only [run] at h
    split at h
    · exact HashUse.honors_resume hw h
    · rename_i o ho
      cases h
      exact .of_deal (.hash o (use.probe.vouches ho))
  | hashed o use =>
    have hw' : (w.modifyObject o ForeignObject.countHash).Consistent := hw
    have hcounted : Deals w [use.owned] (w.modifyObject o ForeignObject.countHash) [use.owned] :=
      .idle (.of_modifyObject w o (fun _ => rfl) (fun _ => rfl) fun _ => rfl) (fun _ => rfl)
        fun _ => rfl
    exact .of_deals hcounted (HashUse.honors_resume hw' h)
  | screen s => exact RegistryOp.honors_screen (hw s.registry) h
  | gather steps answers =>
    cases steps <;> cases h <;>
      exact .idle (.of_objects rfl rfl rfl) (fun _ => rfl) fun _ => rfl
  | log | answer | answerCount | record | leave =>
    cases h
    exact .idle (.of_objects rfl rfl rfl) (fun _ => rfl) fun _ => rfl

/-! ## Turns and runs -/

namespace Machine

theorem hands_above {above jobs : List Job} (habove : ∀ u ∈ above, Job.Foreign u) :
    (above ++ jobs).flatMap Job.hands = jobs.flatMap Job.hands := by
  have hnone : above.flatMap Job.hands = [] :=
    List.flatMap_eq_nil_iff.2 fun u hu => Job.hands_of_foreign (habove u hu)
  rw [List.flatMap_append, hnone, List.nil_append]

/-- A turn is a chain of dealings, unless it ends an assignment. -/
theorem Turn.deals {a b : Machine} (h : Turn a b) (ha : a.world.Consistent)
    (hinstall : ∀ r new rest, a.jobs ≠ .install r new :: rest) :
    Deals a.world a.hands b.world b.hands := by
  obtain ⟨w, t, rest, rfl, ⟨f, -, rfl⟩ | ⟨t', out, w', above, ht', hrun, hw', habove, rfl⟩⟩ := h.inv
  · exact .refl _ _
  have hhands : t'.hands = t.hands := by
    rcases ht' with rfl | ⟨s, rule, -, rfl, rfl⟩ <;> rfl
  have hnot : ∀ r new, t' ≠ .install r new := by
    rintro r new rfl
    rcases ht' with rfl | ⟨s, rule, -, -, ht'⟩
    · exact hinstall r new rest rfl
    · cases ht'
  have hjob : Deals w (t.hands ++ rest.flatMap Job.hands) out.world
      (out.jobs.flatMap Job.hands ++ rest.flatMap Job.hands) := by
    rw [← hhands]
    exact (Job.honors_run ha hrun hnot).frame _
  simp only [hands, hands_above habove, List.flatMap_cons, List.flatMap_append]
  rcases hw' with rfl | ⟨hook, -, rfl⟩
  · exact hjob
  · exact hjob.trans (.idle (.of_objects rfl rfl rfl) (fun _ => rfl) fun _ => rfl)

/-- The end of an assignment leaves a handle in nobody's hand. -/
theorem Turn.abandons {a b : Machine} (h : Turn a b) {r : Nat} {new : Handle} {rest : List Job}
    (ha : a.jobs = .install r new :: rest) :
    ∃ w, Deals a.world a.hands w (a.world.handle r :: b.hands) ∧
      b.world = w.abandon (a.world.handle r) := by
  obtain ⟨w, t, rest', rfl, ⟨f, herr, rfl⟩ | ⟨t', out, w', above, ht', hrun, hw', habove, rfl⟩⟩ :=
    h.inv
  · cases ha
    cases herr
  · cases ha
    rcases ht' with rfl | ⟨s, rule, -, ht', -⟩
    · cases hrun
      simp only [hands, hands_above habove, List.flatMap_cons, List.nil_append]
      refine ⟨w.setHandle r new, .stow w _ r new, ?_⟩
      rcases hw' with rfl | ⟨hook, hcall, -⟩
      · cases w.handle r <;> rfl
      · cases hcall
    · cases ht'

/-- What every dealing preserves, and the loss of a handle preserves, every turn
preserves. -/
theorem Turn.preserves_deals {P : World → List Handle → Prop}
    (deal : ∀ {w hs w' hs'}, P w hs → Deal w hs w' hs' → P w' hs')
    (abandon : ∀ {w hs o}, P w (some o :: hs) → P (w.transfer .abandoned o) hs)
    {a b : Machine} (h : Turn a b) (ha : a.world.Consistent) (hP : P a.world a.hands) :
    P b.world b.hands := by
  by_cases hinstall : ∃ r new rest, a.jobs = .install r new :: rest
  · obtain ⟨r, new, rest, hjobs⟩ := hinstall
    obtain ⟨w, hdeals, hb⟩ := h.abandons hjobs
    have hw := hdeals.preserves deal hP
    rw [hb]
    cases hold : a.world.handle r with
    | none =>
      rw [hold] at hw
      exact Deals.preserves deal (.hands fun o => by simp) hw
    | some o =>
      rw [hold] at hw
      exact abandon hw
  · exact (h.deals ha fun r new rest hjobs => hinstall ⟨r, new, rest, hjobs⟩).preserves deal hP

theorem Run.preserves_deals {P : World → List Handle → Prop}
    (deal : ∀ {w hs w' hs'}, P w hs → Deal w hs w' hs' → P w' hs')
    (abandon : ∀ {w hs o}, P w (some o :: hs) → P (w.transfer .abandoned o) hs)
    {objects : List ForeignObject} {steps : List Step} {ms : List Machine} {m : Machine}
    (h : Run (session objects steps) ms m) (hP : P (.init objects) []) :
    ∀ a ∈ m :: ms, P a.world a.hands := by
  have hstart : (session objects steps).hands = [] := by
    simp [session, hands, List.flatMap_map, Job.hands]
  obtain ⟨hm, hms⟩ := h.preserves (P := fun a => a.world.Consistent ∧ P a.world a.hands)
    (fun _ _ ha hab => ⟨hab.consistent ha.1, hab.preserves_deals deal abandon ha.1 ha.2⟩)
    ⟨World.consistent_init objects, hstart ▸ hP⟩
  rintro a (_ | ⟨_, ha⟩)
  · exact hm.2
  · exact (hms a ha).2

end Machine

end ListenerRegistry
