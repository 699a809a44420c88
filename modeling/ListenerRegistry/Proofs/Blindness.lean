import ListenerRegistry.Proofs.VeiledOperations

/-!
# Blind jobs

A step is blind if it does not go by hash values: it compares none, shows none in a
text, and neither changes nor is decided by one. Blind steps may still make keys, and
store and look up listeners. Blind jobs leave blind jobs, and where the stored hashes
fit, they do the same under the veil.
-/

namespace ListenerRegistry

/-! ## Programs that do not go by hashes -/

mutual

/-- No operation in the step goes by hashes. -/
def Step.blind : Step → Bool
  | op o => o.blind
  | batch steps => allBlind steps

def Step.allBlind : List Step → Bool
  | [] => true
  | s :: steps => s.blind && allBlind steps

end

theorem Step.allBlind_iff {steps : List Step} :
    allBlind steps = true ↔ ∀ s ∈ steps, s.blind = true := by
  induction steps with
  | nil => simp [allBlind]
  | cons s steps ih => simp [allBlind, ih]

def Keep.blind : Keep → Bool
  | rule _ => true
  | hashBelow _ => false

def Job.blind : Job → Bool
  | perform s => s.blind
  | ask use | hashed _ use => use.blind
  | screen sc => sc.keep.blind
  | gather rest _ => Step.allBlind rest
  | _ => true

theorem Op.Needs.blind {op : Op} {use : HashUse} (h : op.Needs use) (hop : op.blind = true) :
    use.blind = true := by
  cases use with
  | compareWith a b =>
    cases op with
    | handle op =>
      cases op with
      | hashEq => cases hop
      | _ => exact h.elim
    | host op | key op | keySet op | registry op => cases op <;> exact h.elim
  | compareTo | screen =>
    cases op with
    | handle op | host op | key op | keySet op | registry op => cases op <;> exact h.elim
  | _ => rfl

/-- Jobs that do not go by hashes leave such jobs. -/
theorem Job.Leads.blind {w : World} {t u : Job} (h : t.Leads w u) (ht : t.blind = true) :
    u.blind = true := by
  have huse : ∀ use, t.use? = some use → use.blind = true := by
    intro use hu
    cases t with
    | ask | hashed =>
      cases hu
      exact ht
    | _ => cases hu
  cases h with
  | begins s rest =>
    exact Step.allBlind_iff.1 ht s List.mem_cons_self
  | gathers s rest | gathersOn s rest answers =>
    exact Step.allBlind_iff.2 fun s hs => Step.allBlind_iff.1 ht s (List.mem_cons_of_mem _ hs)
  | next s rest answers => exact Step.allBlind_iff.1 ht s List.mem_cons_self
  | asks hneeds => exact hneeds.blind ht
  | asksAgain hu => cases huse _ hu
  | awaits => exact ht
  | retains s keep =>
    cases keep with
    | rule => rfl
    | hashBelow => cases ht
  | visits hkeep =>
    show Keep.blind _ = true
    rw [hkeep]
    exact ht
  | considers id hkeep =>
    have hblind : Keep.blind _ = true := ht
    rw [hkeep] at hblind
    cases hblind
  | judges hu => cases huse _ hu
  | _ => rfl

/-! ## One job under the veil -/

/-- The handle that is being hashed is still where it was. A handle of the operation's
own always is. One in a register is looked at in place, and nobody may write there
meanwhile. -/
def Job.Borrows (w : World) : Job → Prop
  | hashed o use => use.probe.handle w = some o
  | _ => True

instance (w : World) (t : Job) : Decidable (t.Borrows w) := by
  unfold Job.Borrows
  split <;> infer_instance

namespace World

variable {f : ObjectId → HashOutcome} {w : World}

theorem Veilable.modifyObject (hw : w.Veilable f) (o : ObjectId)
    (g : ForeignObject → ForeignObject) : (w.modifyObject o g).Veilable f :=
  ⟨hw.consistent, hw.keyed.shelved, hw.keyed.stored⟩

/-- No request for a hash is refused. -/
def Hashable (w : World) : Prop := ∀ o, ∃ hash, w.hashOutcome o = .ok hash

end World

namespace Job

variable {f : ObjectId → HashOutcome} {w : World} {t : Job}

/-- **A job that does not go by hashes does the same under the veil.** -/
theorem run_veil (hw : w.Veilable f) (hf : ∀ o, w.hashOutcome o = f o) (hhash : w.Hashable)
    (ht : t.blind = true) (hborrows : t.Borrows w) :
    t.veil.run w.veil = (t.run w).map Outcome.veil := by
  cases t with
  | perform step =>
    cases step with
    | op op =>
      cases op with
      | handle op => exact congrArg Except.ok (op.run_veil w ht)
      | host op => exact congrArg Except.ok (op.run_veil w ht)
      | key op => exact congrArg Except.ok (op.run_veil w ht)
      | keySet op => exact congrArg Except.ok (op.run_veil hw.keyed)
      | registry op => exact op.run_veil hw ht
    | batch steps => cases steps <;> rfl
  | release h =>
    cases h with
    | none => rfl
    | some o =>
      have hveil : (w.veil.adjust o (-1)).emit (.decref o) =
          ((w.adjust o (-1)).emit (.decref o)).veil := by simp
      simp only [veil, run, hveil, World.count_veil]
      split <;> rfl
  | install r new =>
    simp only [veil, run, Except.map, Outcome.veil_mk, World.veil_setHandle, World.veil_abandon,
      World.handle_veil]
    rfl
  | ask use =>
    simp only [veil, run, Grip.handle_veil]
    split
    · rename_i hnull
      exact HashUse.resume_veil hw ht (by rw [hnull]; rfl)
    · rfl
  | hashed o use =>
    obtain ⟨hash, hout⟩ := hhash o
    have hcount : w.veil.modifyObject o ForeignObject.countHash =
        (w.modifyObject o ForeignObject.countHash).veil :=
      (w.veil_modifyObject (f := ForeignObject.countHash) (fun _ => rfl) o).symm
    have hgrip : use.probe.handle (w.modifyObject o ForeignObject.countHash) = some o := by
      rw [← show use.probe.handle w = some o from hborrows]
      cases use.probe <;> rfl
    simp only [veil, run, World.hashOutcome_veil, hcount, hout]
    apply HashUse.resume_veil (hw.modifyObject o _) ht
    rw [hgrip]
    exact (hf o).symm.trans hout
  | screen sc =>
    cases hkeep : sc.keep with
    | rule rule => exact RegistryOp.screen_veil hw hkeep
    | hashBelow bound =>
      have hblind : sc.keep.blind = true := ht
      rw [hkeep] at hblind
      cases hblind
  | gather rest answers =>
    have hanswers : Answer.veilAll answers ++ [w.veil.answer] =
        Answer.veilAll (answers ++ [w.answer]) := by
      simp only [Answer.veilAll_eq_map, List.map_append]
      rfl
    cases rest with
    | nil =>
      simp only [veil, run, hanswers]
      rfl
    | cons s rest =>
      simp only [veil, run, hanswers]
      rfl
  | answerCount o =>
    simp only [veil, run, World.count_veil]
    rfl
  | record | log | answer | leave => rfl

end Job

end ListenerRegistry
