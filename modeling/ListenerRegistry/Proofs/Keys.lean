import ListenerRegistry.Proofs.Consistency
import ListenerRegistry.Proofs.Entries

/-!
# Where keys come from

Keys are copied and moved about, but a new key is made only where a hash comes
back: it holds the handle that was hashed, and the hash. So no registry stores a
key of null, and where every object always answers alike, every key there is has
the hash of its object.
-/

namespace ListenerRegistry

namespace World

variable {w w' : World} {k : Key}

/-! ## Keys outside the registries -/

/-- The keys in registers, and those in the hash set. -/
def shelf (w : World) : Bank (Option Key) × List Key := (w.keys, w.keySet)

@[simp] theorem shelf_emit (e : Event) : (w.emit e).shelf = w.shelf := rfl

@[simp] theorem shelf_log (m : LogMessage) : (w.log m).shelf = w.shelf := rfl

@[simp] theorem shelf_modifyObject (o : ObjectId) (f : ForeignObject → ForeignObject) :
    (w.modifyObject o f).shelf = w.shelf := rfl

@[simp] theorem shelf_adjust (o : ObjectId) (d : Int) : (w.adjust o d).shelf = w.shelf := rfl

@[simp] theorem shelf_setHandle (h : Nat) (new : Handle) : (w.setHandle h new).shelf = w.shelf := rfl

@[simp] theorem shelf_setRegistry (s : Nat) (r : Registry) :
    (w.setRegistry s r).shelf = w.shelf := rfl

@[simp] theorem shelf_acquire (h : Handle) : (w.acquire h).shelf = w.shelf := by
  cases h <;> rfl

@[simp] theorem shelf_abandon (h : Handle) : (w.abandon h).shelf = w.shelf := by
  cases h <;> rfl

@[simp] theorem shelf_saveId (save : Option Nat) (id : ListenerId) :
    (w.saveId save id).shelf = w.shelf := by
  cases save <;> rfl

theorem shelf_of_stores (h : w'.stores = w.stores) : w'.shelf = w.shelf :=
  (Prod.mk.inj h).2

/-- The key is in a register or in the hash set. -/
def Shelved (w : World) (k : Key) : Prop := (∃ r, w.key? r = some k) ∨ k ∈ w.keySet

theorem Shelved.of_shelf (h : w'.Shelved k) (hw : w'.shelf = w.shelf) : w.Shelved k := by
  obtain ⟨hkeys, hset⟩ := Prod.mk.inj hw
  unfold Shelved key? at h ⊢
  rwa [hkeys, hset] at h

theorem shelf_setKey {r : Nat} {new : Option Key} (h : w'.shelf = w.shelf) :
    (w'.setKey r new).shelf = (w.setKey r new).shelf := by
  obtain ⟨hkeys, hset⟩ := Prod.mk.inj h
  simp only [shelf, setKey, hkeys, hset]

theorem Shelved.of_setKey {r : Nat} {new : Option Key} (h : (w.setKey r new).Shelved k) :
    w.Shelved k ∨ new = some k := by
  rcases h with ⟨q, hq⟩ | hset
  · have hread : (w.keys.write r new).read q = some k := hq
    rw [Bank.read_write] at hread
    split at hread
    · exact Or.inr hread
    · exact Or.inl (Or.inl ⟨q, hread⟩)
  · exact Or.inl (Or.inr hset)

/-- Emptying a register puts no key anywhere. -/
theorem Shelved.of_setKey_none {r : Nat} (h : (w.setKey r none).Shelved k) : w.Shelved k :=
  h.of_setKey.resolve_right (Option.some_ne_none k).symm

/-- The hash set stays as it is. At most one register is written, with a key that is there
already or is of the kind `new`. -/
inductive Reshelves (new : Key → Prop) (w w' : World) : Prop where
  | keeps (h : w'.shelf = w.shelf)
  | writes (r : Nat) (key? : Option Key) (h : w'.shelf = (w.setKey r key?).shelf)
      (hkey : ∀ k ∈ key?, w.Shelved k ∨ new k)

section

variable {new new' : Key → Prop}

theorem Reshelves.keySet (h : Reshelves new w w') : w'.keySet = w.keySet := by
  cases h with
  | keeps h => exact (Prod.mk.inj h).2
  | writes r key? h => exact (Prod.mk.inj h).2

theorem Reshelves.shelved (h : Reshelves new w w') (hk : w'.Shelved k) : w.Shelved k ∨ new k := by
  cases h with
  | keeps h => exact Or.inl (hk.of_shelf h)
  | writes r key? h hkey =>
    rcases (hk.of_shelf h).of_setKey with hold | hnew
    · exact Or.inl hold
    · exact hkey k hnew

theorem Reshelves.of_shelf {v : World} (h : Reshelves new v w') (hv : v.shelf = w.shelf) :
    Reshelves new w w' := by
  cases h with
  | keeps h => exact .keeps (h.trans hv)
  | writes r key? h hkey =>
    exact .writes r key? (h.trans (shelf_setKey hv)) fun k hk => (hkey k hk).imp_left (·.of_shelf hv)

theorem Reshelves.mono (h : Reshelves new w w') (hnew : ∀ k, new k → new' k) :
    Reshelves new' w w' := by
  cases h with
  | keeps h => exact .keeps h
  | writes r key? h hkey => exact .writes r key? h fun k hk => (hkey k hk).imp_right (hnew k)

/-- A register is emptied. -/
theorem Reshelves.empties {r : Nat} (h : w'.shelf = (w.setKey r none).shelf) :
    Reshelves new w w' :=
  .writes r none h (by simp)

end

end World

open World

/-! ## Operations outside the registries -/

/-- Operations on keys make no key at once; they ask for a hash first. -/
theorem KeyOp.reshelves_run (w : World) (op : KeyOp) :
    Reshelves (fun _ => False) w (op.run w).world := by
  cases op with
  | make r source =>
    simp only [run]
    split
    · rename_i w' hw
      exact .keeps (shelf_of_stores (stores_of_obtain? hw))
    · exact .keeps rfl
  | clone r src =>
    simp only [run]
    split
    · rename_i key hkey
      refine .writes r (some key) (shelf_setKey (shelf_acquire _)) ?_
      rintro _ ⟨⟩
      exact Or.inl (Or.inl ⟨src, hkey⟩)
    · exact .keeps rfl
  | drop r => exact .empties rfl
  | unwrap r h =>
    simp only [run]
    split
    · exact .empties rfl
    · exact .keeps rfl
  | copyHandle r h =>
    simp only [run]
    split
    · exact .keeps (by simp [Outcome.put])
    · exact .keeps rfl
  | compare a b =>
    simp only [run]
    split <;> exact .keeps rfl
  | summary r layout =>
    simp only [run]
    split <;> exact .keeps rfl

theorem KeySetOp.shelved_run {w : World} {op : KeySetOp} {k : Key}
    (h : (op.run w).world.Shelved k) : w.Shelved k := by
  cases op with
  | insert r =>
    simp only [run] at h
    split at h
    · rename_i key hkey
      split at h
      · exact h.of_setKey_none
      · rcases h with ⟨q, hq⟩ | hset
        · have h : (w.setKey r none).Shelved k := Or.inl ⟨q, hq⟩
          exact h.of_setKey_none
        · rcases List.mem_append.1 hset with hset | hset
          · exact Or.inr hset
          · cases List.mem_singleton.1 hset
            exact Or.inl ⟨r, hkey⟩
    · exact h
  | contains r =>
    simp only [run] at h
    split at h <;> exact h
  | remove r =>
    simp only [run] at h
    split at h
    · split at h
      · exact h.imp id List.mem_of_mem_erase
      · exact h
    · exact h
  | targets => exact h
  | drain => exact Or.inl (h.resolve_right List.not_mem_nil)

/-! ## Operations on registries -/

namespace RegistryOp

theorem shelf_logRemoved (w : World) (removed : List (ListenerId × Key)) :
    (logRemoved w removed).shelf = w.shelf := by
  induction removed generalizing w with
  | nil => rfl
  | cons e removed ih =>
    rw [logRemoved, List.foldl_cons]
    exact (ih _).trans (shelf_log _)

theorem shelf_register {w : World} {s : Nat} {k : Key} {save : Option Nat} {out : Outcome}
    (h : register w s k save = .ok out) : out.world.shelf = w.shelf := by
  simp only [register, bind, Except.bind, pure, Except.pure] at h
  split at h
  · cases h
  · cases h
    split <;> simp [Outcome.say]

theorem shelf_unlink {w : World} {s : Nat} {id : ListenerId} {dest : Option Nat}
    {jobs : Handle → List Job} {out : Outcome} (h : unlink w s id dest jobs = .ok out) :
    out.world.shelf = w.shelf := by
  simp only [unlink, bind, Except.bind, pure, Except.pure] at h
  split at h
  · cases h
  · cases h
    split
    · cases dest <;> simp [Outcome.deliver, Outcome.put]
    · rfl

theorem shelf_screen {w : World} {s : Screening} {out : Outcome} (h : screen w s = .ok out) :
    out.world.shelf = w.shelf := by
  cases hpending : s.pending with
  | nil =>
    simp only [screen, hpending, prune, bind, Except.bind, pure, Except.pure] at h
    split at h
    · cases h
    · cases h
      show World.shelf (if _ then _ else _) = _
      split <;> simp [shelf_logRemoved]
  | cons i pending =>
    simp only [screen, hpending] at h
    split at h
    · cases h
      rfl
    · rename_i id k _
      have hasked : (k.handle.elim w fun o => w.emit (.keep o)).shelf = w.shelf := by
        cases k.handle <;> rfl
      split at h
      · cases h
      · split at h <;> cases h <;> exact hasked

theorem reshelves_run {w : World} {op : RegistryOp} {out : Outcome} (hrun : op.run w = .ok out) :
    Reshelves (fun _ => False) w out.world := by
  cases op with
  | insert s source save =>
    simp only [run] at hrun
    split at hrun <;> cases hrun
    · exact .keeps rfl
    · rename_i hw
      exact .keeps (shelf_of_stores (stores_of_obtain? hw))
    · rename_i hw
      exact .keeps (shelf_of_stores (stores_of_obtain? hw))
  | insertKey s r save =>
    simp only [run] at hrun
    split at hrun
    · cases hrun
      exact .keeps rfl
    · split at hrun
      · cases hrun
        exact .empties rfl
      · exact .empties (shelf_register hrun)
  | find s probe save | contains s probe | remove s probe dest =>
    simp only [run] at hrun
    split at hrun
    · cases hrun
      exact .keeps rfl
    · rename_i hw
      split at hrun <;> cases hrun <;> exact .keeps (shelf_of_stores (stores_of_grip? hw))
  | get s n =>
    simp only [run] at hrun
    split at hrun <;> cases hrun <;> exact .keeps rfl
  | removeId s n dest =>
    simp only [run] at hrun
    split at hrun
    · cases hrun
      exact .keeps rfl
    · exact .keeps (shelf_unlink hrun)
  | sameId a b =>
    simp only [run] at hrun
    split at hrun <;> cases hrun <;> exact .keeps rfl
  | clear s =>
    simp only [run, bind, Except.bind, pure, Except.pure] at hrun
    split at hrun <;> cases hrun
    exact .keeps rfl
  | retain | discard | size | entries =>
    cases hrun
    exact .keeps rfl

end RegistryOp

/-- **A key is made of the handle that was hashed and of the hash.** -/
theorem HashUse.reshelves_resume {w : World} {outcome : HashOutcome} {use : HashUse}
    {out : Outcome} (hrun : use.resume w outcome = .ok out) :
    Reshelves (fun k => use.probe = .fresh k.handle ∧ outcome = .ok k.hash) w out.world := by
  cases use with
  | makeKey r h =>
    cases outcome with
    | error e => cases hrun; exact .keeps rfl
    | ok hash =>
      cases hrun
      refine .writes r (some ⟨h, hash⟩) rfl ?_
      rintro _ ⟨⟩
      exact Or.inr ⟨rfl, rfl⟩
  | insert s h save =>
    cases outcome with
    | error e => cases hrun; exact .keeps rfl
    | ok hash => exact .keeps (RegistryOp.shelf_register hrun)
  | find s probe save =>
    cases outcome with
    | error e => cases hrun; exact .keeps rfl
    | ok hash =>
      simp only [resume, bind, Except.bind, pure, Except.pure] at hrun
      split at hrun
      · cases hrun
      · rename_i v _
        obtain ⟨id?, r⟩ := v
        cases hrun
        exact .keeps (by cases id? <;> simp)
  | contains s probe =>
    cases outcome with
    | error e => cases hrun; exact .keeps rfl
    | ok hash =>
      simp only [resume, bind, Except.bind, pure, Except.pure] at hrun
      split at hrun
      · cases hrun
      · cases hrun
        exact .keeps (shelf_setRegistry _ _)
  | remove s probe dest =>
    cases outcome with
    | error e => cases hrun; exact .keeps rfl
    | ok hash =>
      simp only [resume, bind, Except.bind, pure, Except.pure] at hrun
      split at hrun
      · cases hrun
      · split at hrun
        · cases hrun
          exact .keeps (shelf_setRegistry _ _)
        · exact .keeps ((RegistryOp.shelf_unlink hrun).trans (shelf_setRegistry _ _))
  | answer | compareWith | compareTo | screen =>
    cases hrun
    exact .keeps rfl

/-! ## Jobs -/

namespace Job

/-- The job makes the key `k`, of the handle that it hashes. -/
def Makes (w : World) (k : Key) : Job → Prop
  | ask use => use.probe = .fresh none ∧ k = ⟨none, 0⟩
  | hashed o use => use.probe = .fresh k.handle ∧ w.hashOutcome o = .ok k.hash
  | _ => False

variable {w : World} {t : Job} {out : Outcome} {k : Key}

theorem makes_of_ask {use : HashUse} (hnull : use.probe.handle w = none)
    (h : use.probe = .fresh k.handle ∧ (.ok 0 : HashOutcome) = .ok k.hash) :
    (ask use).Makes w k := by
  obtain ⟨hprobe, hhash⟩ := h
  rw [hprobe] at hnull
  have hhandle : k.handle = none := hnull
  rw [hhandle] at hprobe
  have hhash : 0 = k.hash := Except.ok.inj hhash
  refine ⟨hprobe, ?_⟩
  obtain ⟨handle, hash⟩ := k
  simp only at hhandle hhash
  rw [hhandle, hhash]

/-- **Only an operation on the hash set changes it**, and a key that was not there before is
one that the job makes. -/
theorem reshelves_run (hrun : t.run w = .ok out) (ht : ∀ op, t ≠ .perform (.op (.keySet op))) :
    Reshelves (fun k => t.Makes w k) w out.world := by
  cases t with
  | perform step =>
    cases step with
    | op op =>
      cases op with
      | handle op => cases hrun; exact .keeps (shelf_of_stores (op.stores_run w))
      | host op => cases hrun; exact .keeps (shelf_of_stores (op.stores_run w))
      | key op => cases hrun; exact (op.reshelves_run w).mono fun _ => False.elim
      | keySet op => exact absurd rfl (ht op)
      | registry op => exact (RegistryOp.reshelves_run hrun).mono fun _ => False.elim
    | batch steps => cases steps <;> cases hrun <;> exact .keeps rfl
  | release h =>
    cases h with
    | none => cases hrun; exact .keeps rfl
    | some o =>
      simp only [run] at hrun
      split at hrun <;> cases hrun <;> exact .keeps (by simp)
  | install r new =>
    cases hrun
    exact .keeps (by simp)
  | ask use =>
    simp only [run] at hrun
    split at hrun
    · rename_i hnull
      exact (HashUse.reshelves_resume hrun).mono fun _ => makes_of_ask hnull
    · cases hrun
      exact .keeps rfl
  | hashed o use => exact (HashUse.reshelves_resume hrun).of_shelf (shelf_modifyObject _ _)
  | screen s => exact .keeps (RegistryOp.shelf_screen hrun)
  | gather steps answers => cases steps <;> cases hrun <;> exact .keeps rfl
  | log | answer | answerCount | record | leave =>
    cases hrun
    exact .keeps rfl

theorem shelved_run (hrun : t.run w = .ok out) (h : out.world.Shelved k) :
    w.Shelved k ∨ t.Makes w k := by
  by_cases ht : ∃ op, t = .perform (.op (.keySet op))
  · obtain ⟨op, rfl⟩ := ht
    cases hrun
    exact Or.inl (KeySetOp.shelved_run h)
  · exact (reshelves_run hrun fun op heq => ht ⟨op, heq⟩).shelved h

/-- **An entry was there before, or is the key that the job's action stores.** -/
theorem get?_run (hw : w.Consistent) (hrun : t.run w = .ok out) {s : Nat} {id : ListenerId}
    (h : (out.world.registry s).get? id = some k) :
    (w.registry s).get? id = some k ∨ t.action? w = some (s, .insert k) := by
  cases ha : t.action? w with
  | none =>
    rw [registry_run ha hrun] at h
    exact Or.inl h
  | some sa =>
    obtain ⟨s', a⟩ := sa
    obtain ⟨r, hp, hslots, -⟩ := Registry.perform_eq (hw s') a
    obtain ⟨out', hout, htakes⟩ := takes_run ha hp
    obtain rfl := Except.ok.inj (hout.symm.trans hrun)
    by_cases hs : s = s'
    · subst hs
      rw [htakes.acted, Registry.get?, hslots] at h
      rcases Roster.get?_of_apply (hw s).slots h with h | rfl
      · exact Or.inl h
      · exact Or.inr rfl
    · rw [htakes.others s hs] at h
      exact Or.inl h

/-- What a job stores is a key out of a register, or one that it makes. -/
theorem shelved_of_insert {s : Nat} (ha : t.action? w = some (s, .insert k)) :
    w.Shelved k ∨ t.Makes w k := by
  have huse : ∀ {outcome : HashOutcome} {use : HashUse},
      use.action? w outcome = some (s, .insert k) →
        use.probe = .fresh k.handle ∧ outcome = .ok k.hash := by
    intro outcome use ha
    cases outcome with
    | error e => cases use <;> cases ha
    | ok hash => cases use <;> cases ha; exact ⟨rfl, rfl⟩
  cases t with
  | perform step =>
    left
    cases step with
    | op op =>
      cases op with
      | registry op =>
        cases op with
        | insertKey s' r save =>
          obtain ⟨key, hkey, ha⟩ := Option.bind_eq_some_iff.1 ha
          split at ha <;> cases ha
          exact Or.inl ⟨r, hkey⟩
        | get s' n | removeId s' n dest =>
          obtain ⟨id, -, ha⟩ := Option.map_eq_some_iff.1 ha
          cases ha
        | _ => cases ha
      | _ => cases ha
    | batch => cases ha
  | ask use =>
    right
    simp only [action?] at ha
    split at ha
    · rename_i hnull
      exact makes_of_ask hnull (huse ha)
    · cases ha
  | hashed o use => exact Or.inr (huse ha)
  | screen sc =>
    simp only [action?] at ha
    split at ha <;> cases ha
  | _ => cases ha

end Job

end ListenerRegistry
