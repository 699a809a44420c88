import ListenerRegistry.Proofs.VeiledWorld

/-!
# Operations under the veil

An operation does the same under the veil, unless it compares hashes, shows them in a
text or changes how objects hash. The hash set needs keys that fit. What comes after a
hash needs more: the hash has to be that of the handle which is stored or looked up.
-/

namespace ListenerRegistry

/-! ## Operations outside the registries -/

/-- The operation does not compare hashes, show them in a text or change how an
object hashes, and it does not decide by a hash. Listing and draining the hash set are
among these operations only because the order in which they go is fixed from outside
(`KeySetOp.releaseOrder`): the keys of different objects stand in the order of their
objects, and two keys of one object release the same handle. -/
def Op.blind : Op → Bool
  | .handle (.hashEq _ _) | .host (.setHashing _ _) | .key (.compare _ _) | .key (.summary _ _)
  | .registry (.retain _ (.hashBelow _)) => false
  | _ => true

theorem HandleOp.run_veil (w : World) {op : HandleOp} (h : (Op.handle op).blind = true) :
    op.run w.veil = (op.run w).veil := by
  cases op with
  | borrow h target =>
    simp only [run, World.borrow?_veil]
    cases w.borrow? target <;> simp
  | adopt h target =>
    simp only [run, World.adopt?_veil]
    cases w.adopt? target <;> simp
  | cloneFrom h src =>
    simp only [run, overwrite]
    split <;> simp
  | take h src => rfl
  | surrender r =>
    have hcustody (o : ObjectId) : (w.veil.setHandle r none).custody o =
        (w.setHandle r none).custody o := (w.setHandle r none).custody_veil o
    simp only [run, World.handle_veil]
    split
    · rfl
    · simp [hcustody]
  | hash probe =>
    simp only [run, World.grip?_veil]
    cases w.grip? probe <;> simp
  | hashEq a b => cases h
  | _ => simp [run, copy, copyOver]

theorem HostOp.run_veil (w : World) {op : HostOp} (h : (Op.host op).blind = true) :
    op.run w.veil = (op.run w).veil := by
  cases op with
  | incref o =>
    simp only [run, World.alive_veil, World.custody_veil]
    split <;> simp [takeOne]
  | decref o =>
    simp only [run, World.spend?_veil]
    cases w.spend? o <;> simp [letGo]
  | retire o =>
    simp only [run, Outcome.veil_say, Answer.veil]
    rw [World.veil_modifyObject]
    intro x
    rfl
  | setHashing o rule => cases h
  | track h o | give h o | share h o | dropOwner o =>
    simp only [run, World.custody_veil]
    split <;> simp [takeOne, letGo]
  | recover h keep =>
    simp only [run, World.handle_veil]
    split
    · simp
    · rename_i o _
      have hveil : (w.veil.acquire (some o)).transfer .surrendered o =
          ((w.acquire (some o)).transfer .surrendered o).veil := by simp
      simp only [hveil]
      generalize (w.acquire (some o)).transfer .surrendered o = v
      rw [v.elim_veil "" (f := ForeignObject.value) (fun _ => rfl), v.count_veil]
      cases keep <;> rfl
  | dropRecovered =>
    have hrecovered : w.veil.recovered = w.recovered := rfl
    simp only [run, hrecovered]
    cases w.recovered <;> rfl

theorem KeyOp.run_veil (w : World) {op : KeyOp} (h : (Op.key op).blind = true) :
    op.run w.veil = (op.run w).veil := by
  cases op with
  | make k source =>
    simp only [run, World.obtain?_veil]
    cases w.obtain? source <;> simp
  | drop k => simp [run]
  | clone r k | copyHandle k r | unwrap k r =>
    simp only [run, World.key?_veil]
    cases w.key? k <;> simp
  | compare a b | summary k layout => cases h

/-- Keys that fit are released in the same order under the veil. -/
theorem Key.precedes_veil {f : ObjectId → HashOutcome} {k k' : Key} (hk : k.Fits f)
    (hk' : k'.Fits f) : k.precedes k' = k.veil.precedes k'.veil := by
  by_cases h : k.handle = k'.handle
  · obtain rfl := hk.ext hk' h
    obtain ⟨handle, hash⟩ := k
    cases handle <;> simp [precedes, veil]
  · obtain ⟨handle, hash⟩ := k
    obtain ⟨handle', hash'⟩ := k'
    cases handle with
    | none =>
      cases handle' with
      | none => exact absurd rfl h
      | some o' => rfl
    | some o =>
      cases handle' with
      | none => rfl
      | some o' =>
        have ho : (o == o') = false := beq_false_of_ne fun ho => h (congrArg some ho)
        simp [precedes, veil, ho]

theorem KeySetOp.run_veil {f : ObjectId → HashOutcome} {w : World} (hw : w.Keyed f)
    (op : KeySetOp) : op.run w.veil = (op.run w).veil := by
  have hset : ∀ k ∈ w.keySet, k.Fits f := fun k hk => hw.shelved k (Or.inr hk)
  have hregister : ∀ r k, w.key? r = some k → k.Fits f :=
    fun r k hk => hw.shelved k (Or.inl ⟨r, hk⟩)
  have hmem : ∀ k : Key, k.Fits f → (k.veil ∈ w.veil.keySet ↔ k ∈ w.keySet) := by
    intro k hk
    show k.veil ∈ w.keySet.map Key.veil ↔ _
    rw [List.mem_map]
    constructor
    · rintro ⟨k', hk', heq⟩
      rwa [← (hset k' hk').veil_inj hk heq]
    · intro hk'
      exact ⟨k, hk', rfl⟩
  have horder : releaseOrder w.veil.keySet = (releaseOrder w.keySet).map Key.veil := by
    symm
    apply List.map_mergeSort
    intro k hk k' hk'
    exact Key.precedes_veil (hset k hk) (hset k' hk')
  cases op with
  | insert r =>
    simp only [run, World.key?_veil]
    cases hk : w.key? r with
    | none => rfl
    | some k =>
      have hiff : k.veil ∈ (w.veil.setKey r none).keySet ↔ k ∈ (w.setKey r none).keySet :=
        hmem k (hregister r k hk)
      simp only [Option.map_some, hiff]
      split
      · simp
      · have hset : (w.veil.setKey r none).keySet ++ [k.veil] =
            ((w.setKey r none).keySet ++ [k]).map Key.veil := by
          rw [List.map_append]
          rfl
        have hveil : w.veil.setKey r none = (w.setKey r none).veil := (w.veil_setKey r none).symm
        rw [hset, hveil]
        rfl
  | contains r =>
    simp only [run, World.key?_veil]
    cases hk : w.key? r with
    | none => rfl
    | some k => simp [hmem k (hregister r k hk)]
  | remove r =>
    simp only [run, World.key?_veil]
    cases hk : w.key? r with
    | none => rfl
    | some k =>
      have hfits := hregister r k hk
      have herase : w.veil.keySet.erase k.veil = (w.keySet.erase k).map Key.veil :=
        (map_erase_of_inj fun k' hk' heq => (hset k' hk').veil_inj hfits heq).symm
      simp only [Option.map_some, hmem k hfits, herase]
      split
      · rfl
      · rfl
  | targets =>
    simp only [run, horder, List.map_map]
    rfl
  | drain =>
    simp only [run, horder, Outcome.veil_mk, List.map_append, List.map_map]
    rfl

/-! ## Operations on registries -/

/-- The registries are in order, and the stored hashes are those that `f` gives. -/
structure World.Veilable (f : ObjectId → HashOutcome) (w : World) : Prop where
  consistent : w.Consistent
  keyed : w.Keyed f

theorem World.Veilable.setKey_none {f : ObjectId → HashOutcome} {w : World} (hw : w.Veilable f)
    (r : Nat) : (w.setKey r none).Veilable f where
  consistent := hw.consistent
  keyed := {
    shelved := fun k hk => hw.keyed.shelved k hk.of_setKey_none
    stored := hw.keyed.stored }

/-- Putting a registry back changes nothing. -/
theorem World.Veilable.setRegistry_self {f : ObjectId → HashOutcome} {w : World}
    (hw : w.Veilable f) (s : Nat) : (w.setRegistry s (w.registry s)).Veilable f := by
  have hsame (s' : Nat) : (w.setRegistry s (w.registry s)).registry s' = w.registry s' := by
    rw [registry_setRegistry]
    split
    · rename_i hs
      rw [hs]
    · rfl
  constructor
  · intro s'
    rw [hsame]
    exact hw.consistent s'
  · refine ⟨fun k hk => hw.keyed.shelved k (hk.of_shelf (shelf_setRegistry _ _)), fun s' => ?_⟩
    rw [hsame]
    exact hw.keyed.stored s'

namespace RegistryOp

variable {f : ObjectId → HashOutcome} {w : World} (hw : w.Veilable f)
include hw

theorem register_veil (s : Nat) {k : Key} (hk : k.Fits f) (save : Option Nat) :
    register w.veil s k.veil save = (register w s k save).map Outcome.veil := by
  obtain ⟨id?, r, h, hveil⟩ :=
    (w.registry s).register_veil (hw.consistent s) (hw.keyed.stored s) hk
  simp only [register, World.registry_veil, h, hveil, bind, Except.bind, pure, Except.pure,
    Except.map]
  cases id? <;> simp

theorem unlink_veil (s : Nat) (id : ListenerId) (dest : Option Nat) {jobs : Handle → List Job}
    (hjobs : ∀ h, (jobs h).map Job.veil = jobs h) :
    unlink w.veil s id dest jobs = (unlink w s id dest jobs).map Outcome.veil := by
  obtain ⟨found, r, h, hveil⟩ :=
    (w.registry s).unlink_veil (hw.consistent s) (hw.keyed.stored s) id
  simp only [unlink, World.registry_veil, h, hveil, bind, Except.bind, pure, Except.pure,
    Except.map]
  cases found <;> simp [hjobs]

omit hw in
theorem logRemoved_veil (w : World) (removed : List (ListenerId × Key)) :
    logRemoved w.veil (removed.map fun e => (e.1, e.2.veil)) = (logRemoved w removed).veil := by
  induction removed generalizing w with
  | nil => rfl
  | cons e removed ih =>
    have hlog : (w.log (.removed (w.address e.2.handle) e.1)).veil =
        w.veil.log (.removed (w.veil.address e.2.veil.handle) e.1) := by simp
    unfold logRemoved at ih ⊢
    rw [List.map_cons, List.foldl_cons, List.foldl_cons, ← ih, hlog]

theorem prune_veil (sc : Screening) : prune w.veil sc = (prune w sc).map Outcome.veil := by
  obtain ⟨removed, r, h, hveil⟩ := (w.registry sc.registry).prune_veil
    (hw.consistent sc.registry) (hw.keyed.stored sc.registry) sc.doomed.reverse
  simp only [prune, World.registry_veil, h, hveil, bind, Except.bind, pure, Except.pure,
    Except.map, ← World.veil_setRegistry, logRemoved_veil, List.length_map]
  split <;> simp

omit hw in
theorem verdict_veil (asked : Nat) (h : Handle) (rule : KeepRule) :
    verdict w.veil asked h rule = verdict w asked h rule := by
  cases rule with
  | live =>
    cases h with
    | none => rfl
    | some o =>
      exact congrArg not (w.elim_veil false (f := ForeignObject.retired) (fun _ => rfl) o)
  | _ => rfl

/-- A visit of a retaining step that decides by a rule. -/
theorem screen_veil {sc : Screening} {rule : KeepRule} (hkeep : sc.keep = .rule rule) :
    screen w.veil sc = (screen w sc).map Outcome.veil := by
  cases hpending : sc.pending with
  | nil =>
    simp only [screen, hpending]
    exact prune_veil hw sc
  | cons i pending =>
    simp only [screen, hpending, World.registry_veil, Registry.entryAt?_veil]
    cases (w.registry sc.registry).entryAt? i with
    | none => rfl
    | some e =>
      obtain ⟨id, k⟩ := e
      have hasked : (k.handle.elim w fun o => w.emit (.keep o)).veil =
          k.handle.elim w.veil fun o => w.veil.emit (.keep o) := by
        cases k.handle <;> rfl
      simp only [Option.map_some, hkeep, Key.handle_veil, ← hasked, verdict_veil]
      split <;> simp [Except.map]

theorem run_veil {op : RegistryOp} (h : (Op.registry op).blind = true) :
    op.run w.veil = (op.run w).map Outcome.veil := by
  cases op with
  | insert s source save =>
    simp only [run, World.obtain?_veil]
    cases w.obtain? source with
    | none => rfl
    | some x =>
      obtain ⟨h, w'⟩ := x
      cases h <;> rfl
  | insertKey s r save =>
    simp only [run, World.key?_veil]
    cases hk : w.key? r with
    | none => rfl
    | some k =>
      have hveil : w.veil.setKey r none = (w.setKey r none).veil := (w.veil_setKey r none).symm
      simp only [Option.map_some, hveil, Key.handle_veil]
      split
      · rfl
      · exact register_veil (hw.setKey_none r) s (hw.keyed.shelved k (Or.inl ⟨r, hk⟩)) save
  | find s probe save | contains s probe | remove s probe dest =>
    simp only [run, World.grip?_veil]
    cases w.grip? probe with
    | none => rfl
    | some x =>
      obtain ⟨grip, w'⟩ := x
      simp only [Option.map_some, Grip.handle_veil]
      cases grip.handle w' <;> rfl
  | get s n =>
    simp only [run, World.savedId?_veil, World.registry_veil, Registry.get?_veil,
      Key.bind_handle_veil]
    cases w.savedId? n <;> rfl
  | removeId s n dest =>
    simp only [run, World.savedId?_veil]
    cases w.savedId? n with
    | none => rfl
    | some id => exact unlink_veil hw s id dest fun _ => rfl
  | sameId a b =>
    simp only [run, World.savedId?_veil]
    cases w.savedId? a with
    | none => rfl
    | some id => cases w.savedId? b <;> rfl
  | retain s keep => simp [run, Except.map]
  | clear s =>
    obtain ⟨keys, r, h, hveil⟩ :=
      (w.registry s).drain_veil (hw.consistent s) (hw.keyed.stored s)
    simp only [run, World.registry_veil, h, hveil, bind, Except.bind, pure, Except.pure,
      Except.map]
    simp
  | discard s =>
    simp only [run, World.registry_veil, Registry.entries_veil, List.map_map, Except.map,
      Outcome.veil_mk, World.veil_setRegistry, List.map_append]
    rfl
  | size s => simp [run, Except.map]
  | entries s =>
    simp only [run, World.registry_veil, Registry.entries_veil, List.map_map]
    rfl

end RegistryOp

/-! ## Jobs -/

/-- The hash is not asked for in order to be compared. -/
def HashUse.blind : HashUse → Bool
  | compareWith _ _ | compareTo _ _ | screen _ _ _ => false
  | _ => true

/-- What comes after a hash is the same under the veil, if the hash is that of the
handle which is stored or looked up. -/
theorem HashUse.resume_veil {f : ObjectId → HashOutcome} {w : World} (hw : w.Veilable f)
    {use : HashUse} (huse : use.blind = true) {hash : UInt64}
    (hfits : Key.Fits f ⟨use.probe.handle w, hash⟩) :
    use.resume w.veil (.ok 0) = (use.resume w (.ok hash)).map Outcome.veil := by
  cases use with
  | answer grip => rfl
  | compareWith | compareTo | screen => cases huse
  | makeKey k h => simp [resume, Except.map, Key.veil]
  | insert s h save => exact RegistryOp.register_veil hw s hfits save
  | find s grip save =>
    obtain ⟨id?, h, hveil⟩ :=
      (w.registry s).locate_veil (hw.consistent s) (hw.keyed.stored s) hfits
    have hprobe : grip.handle w = (HashUse.find s grip save).probe.handle w := rfl
    simp only [resume, World.registry_veil, Grip.handle_veil, hprobe, h, hveil, bind, Except.bind,
      pure, Except.pure, Except.map]
    cases id? <;> simp
  | contains s grip =>
    obtain ⟨id?, h, hveil⟩ :=
      (w.registry s).locate_veil (hw.consistent s) (hw.keyed.stored s) hfits
    have hprobe : grip.handle w = (HashUse.contains s grip).probe.handle w := rfl
    simp only [resume, World.registry_veil, Grip.handle_veil, hprobe, h, hveil, bind, Except.bind,
      pure, Except.pure, Except.map]
    simp
  | remove s grip dest =>
    obtain ⟨id?, h, hveil⟩ :=
      (w.registry s).locate_veil (hw.consistent s) (hw.keyed.stored s) hfits
    have hprobe : grip.handle w = (HashUse.remove s grip dest).probe.handle w := rfl
    simp only [resume, World.registry_veil, Grip.handle_veil, hprobe, h, hveil, bind, Except.bind,
      pure, Except.pure, ← World.veil_setRegistry]
    cases id? with
    | none => simp [Except.map]
    | some id =>
      exact RegistryOp.unlink_veil (hw.setRegistry_self s) s id dest fun _ => rfl

end ListenerRegistry
