import ListenerRegistry.Proofs.Coherence
import ListenerRegistry.Proofs.Serialization
import Mathlib.Data.Finset.Dedup
import Mathlib.Data.Finset.Erase
import Mathlib.Data.Finset.Lattice.Lemmas

/-!
# The hash set of keys is a set of identities

Keys are compared by their handles, but a hash set looks for a key by its hash. Where the
objects answer steadily every key has the hash of its object, so that keys on one object
are found wherever they were made. Then the hash set is a finite set of identities, in
which null may occur like any object.
-/

namespace ListenerRegistry

/-! ## Finite sets of identities -/

/-- The identities of the keys in the hash set. -/
def World.members (w : World) : Finset Handle := (w.keySet.map Key.handle).toFinset

namespace KeySetOp

/-- What an operation makes of a finite set of identities. -/
def next (key? : Nat → Option Key) (s : Finset Handle) : KeySetOp → Finset Handle
  | insert r => (key? r).elim s fun k => Insert.insert k.handle s
  | remove r => (key? r).elim s fun k => s.erase k.handle
  | contains _ | targets => s
  | drain => ∅

/-- What an operation on a finite set of identities answers, and the handles that it
releases. A key that is refused or taken out is released, others are not. -/
def Replies (key? : Nat → Option Key) (s : Finset Handle) (released : List Handle)
    (answer : Answer) : KeySetOp → Prop
  | insert r =>
      match key? r with
      | none => released = [] ∧ answer = .noKey
      | some k =>
          released = (if k.handle ∈ s then [k.handle] else []) ∧ answer = .flag (k.handle ∉ s)
  | contains r =>
      match key? r with
      | none => released = [] ∧ answer = .noKey
      | some k => released = [] ∧ answer = .flag (k.handle ∈ s)
  | remove r =>
      match key? r with
      | none => released = [] ∧ answer = .noKey
      | some k =>
          released = (if k.handle ∈ s then [k.handle] else []) ∧ answer = .flag (k.handle ∈ s)
  | targets => released = [] ∧ ∃ hs, answer = .targets hs ∧ hs.Nodup ∧ hs.toFinset = s
  | drain => released.Nodup ∧ released.toFinset = s ∧ answer = .cleared

end KeySetOp

namespace World

variable {f : ObjectId → HashOutcome} {w : World}

/-- The key is in a register, in the hash set or in a registry. -/
def HasKey (w : World) (k : Key) : Prop :=
  w.Shelved k ∨ ∃ s id, (w.registry s).get? id = some k

theorem mem_members {p : Handle} : p ∈ w.members ↔ ∃ k ∈ w.keySet, k.handle = p := by
  rw [members, List.mem_toFinset, List.mem_map]

/-- The hash set has at most one key of each object. -/
theorem nodup_handles (hw : w.Keyed f) (hnodup : w.keySet.Nodup) :
    (w.keySet.map Key.handle).Nodup := by
  refine hnodup.map_on fun k hk k' hk' h => ?_
  exact (hw.shelved k (Or.inr hk)).ext (hw.shelved k' (Or.inr hk')) h

/-- A key is found wherever there is one of its object. -/
theorem mem_keySet_iff (hw : w.Keyed f) {r : Nat} {k : Key} (hk : w.key? r = some k) :
    k ∈ w.keySet ↔ k.handle ∈ w.members := by
  rw [mem_members]
  constructor
  · intro h
    exact ⟨k, h, rfl⟩
  · rintro ⟨k', hk', h⟩
    rwa [← (hw.shelved k' (Or.inr hk')).ext (hw.shelved k (Or.inl ⟨r, hk⟩)) h]

end World

namespace KeySetOp

open World

variable {f : ObjectId → HashOutcome} {w : World}

theorem perm_releaseOrder (keys : List Key) : (releaseOrder keys).Perm keys :=
  List.mergeSort_perm keys _

theorem nodup_releaseOrder (h : (w.keySet.map Key.handle).Nodup) :
    ((releaseOrder w.keySet).map Key.handle).Nodup :=
  ((perm_releaseOrder w.keySet).map Key.handle).nodup_iff.2 h

theorem toFinset_releaseOrder :
    ((releaseOrder w.keySet).map Key.handle).toFinset = w.members :=
  List.toFinset_eq_of_perm _ _ ((perm_releaseOrder w.keySet).map Key.handle)

theorem members_erase (hw : w.Keyed f) (hnodup : w.keySet.Nodup) {k : Key} (hk : k ∈ w.keySet) :
    ((w.keySet.erase k).map Key.handle).toFinset = w.members.erase k.handle := by
  ext p
  rw [List.mem_toFinset, List.mem_map, Finset.mem_erase, mem_members]
  constructor
  · rintro ⟨k', hk', rfl⟩
    obtain ⟨hne, hk'⟩ := hnodup.mem_erase_iff.1 hk'
    refine ⟨fun h => hne ?_, k', hk', rfl⟩
    exact (hw.shelved k' (Or.inr hk')).ext (hw.shelved k (Or.inr hk)) h
  · rintro ⟨hne, k', hk', rfl⟩
    exact ⟨k', hnodup.mem_erase_iff.2 ⟨fun h => hne (h ▸ rfl), hk'⟩, rfl⟩

/-- The outcome is that of the operation on a set of identities. An insertion takes the
key out of its register. -/
structure Refines (w : World) (op : KeySetOp) (out : Outcome) : Prop where
  members : out.world.members = op.next w.key? w.members
  nodup : out.world.keySet.Nodup
  key? : ∀ r, out.world.key? r = if op = .insert r then none else w.key? r
  call : out.call = none
  jobs : ∃ released answer, op.Replies w.key? w.members released answer ∧
    out.jobs = released.map .release ++ [.answer answer]

/-- Nothing is done but to answer. -/
theorem refines_say {op : KeySetOp} {answer : Answer} (hnodup : w.keySet.Nodup)
    (hnext : op.next w.key? w.members = w.members)
    (hkeys : ∀ r, op = .insert r → w.key? r = none)
    (hreplies : op.Replies w.key? w.members [] answer) : op.Refines w (.say w answer) where
  members := hnext.symm
  nodup := hnodup
  key? r := by
    split
    · rename_i hop
      exact hkeys r hop
    · rfl
  call := rfl
  jobs := ⟨[], answer, hreplies, rfl⟩

theorem key?_setKey_none (w : World) (r q : Nat) :
    (w.setKey r none).key? q = if insert r = insert q then none else w.key? q := by
  rw [World.key?, World.setKey, Bank.read_write]
  by_cases h : q = r
  · rw [if_pos h, if_pos (by rw [h])]
  · rw [if_neg h, if_neg (by simpa using Ne.symm h)]
    rfl

/-- **An operation on the hash set does what it should do to a set of identities.** -/
theorem refines_run (hw : w.Keyed f) (hnodup : w.keySet.Nodup) (op : KeySetOp) :
    op.Refines w (op.run w) := by
  cases op with
  | insert r =>
    cases hk : w.key? r with
    | none =>
      simp only [run, hk]
      refine refines_say hnodup (by simp [next, hk]) (fun q hq => ?_) (by simp [Replies, hk])
      cases hq
      exact hk
    | some k =>
      have hmem := mem_keySet_iff hw hk
      have hset : (w.setKey r none).keySet = w.keySet := rfl
      simp only [run, hk, hset]
      split
      · rename_i hin
        have hold := hmem.1 hin
        refine ⟨?_, hnodup, key?_setKey_none w r, rfl, [k.handle], .flag false, ?_, rfl⟩
        · rw [next, hk, Option.elim_some, Finset.insert_eq_of_mem hold]
          rfl
        · simp [Replies, hk, hold]
      · rename_i hout
        have hnew : k.handle ∉ w.members := fun h => hout (hmem.2 h)
        refine ⟨?_, ?_, key?_setKey_none w r, rfl, [], .flag true, ?_, rfl⟩
        · show ((w.keySet ++ [k]).map Key.handle).toFinset = _
          rw [next, hk, Option.elim_some, Finset.insert_eq, Finset.union_comm, List.map_append,
            List.toFinset_append]
          rfl
        · exact hnodup.append (List.nodup_singleton k) (by simpa using hout)
        · simp [Replies, hk, hnew]
  | contains r =>
    cases hk : w.key? r with
    | none =>
      simp only [run, hk]
      exact refines_say hnodup rfl (by simp) (by simp [Replies, hk])
    | some k =>
      simp only [run, hk, mem_keySet_iff hw hk]
      exact refines_say hnodup rfl (by simp) (by simp [Replies, hk])
  | remove r =>
    cases hk : w.key? r with
    | none =>
      simp only [run, hk]
      exact refines_say hnodup (by simp [next, hk]) (by simp) (by simp [Replies, hk])
    | some k =>
      have hmem := mem_keySet_iff hw hk
      simp only [run, hk]
      split
      · rename_i hin
        refine ⟨?_, hnodup.erase k, fun q => by simp; rfl, rfl, [k.handle], .flag true, ?_, rfl⟩
        · rw [next, hk]
          exact members_erase hw hnodup hin
        · simp [Replies, hk, hmem.1 hin]
      · rename_i hout
        have hnew : k.handle ∉ w.members := fun h => hout (hmem.2 h)
        refine refines_say hnodup ?_ (by simp) (by simp [Replies, hk, hnew])
        rw [next, hk]
        exact Finset.erase_eq_of_notMem hnew
  | targets =>
    refine refines_say hnodup rfl (by simp) ⟨rfl, _, rfl, ?_, toFinset_releaseOrder⟩
    exact nodup_releaseOrder (nodup_handles hw hnodup)
  | drain =>
    refine ⟨rfl, List.nodup_nil, fun q => by simp; rfl, rfl,
      (releaseOrder w.keySet).map Key.handle, .cleared, ⟨?_, toFinset_releaseOrder, rfl⟩, ?_⟩
    · exact nodup_releaseOrder (nodup_handles hw hnodup)
    · simp [run]

end KeySetOp

/-! ## Turns and runs -/

namespace Machine

open World

variable {objects : List ForeignObject} {steps : List Step} {ms : List Machine} {a b m : Machine}

/-- What the next turn of the machine makes of a finite set of identities. -/
def alter (m : Machine) (s : Finset Handle) : Finset Handle :=
  match m.jobs with
  | .perform (.op (.keySet op)) :: _ => op.next m.world.key? s
  | _ => s

/-- The finite set that the operations on the hash set make in some turns, the oldest
one first, out of the empty set. -/
def identities (ms : List Machine) : Finset Handle :=
  ms.foldl (fun s m => m.alter s) ∅

theorem alter_of_ne {t : Job} {rest : List Job} (hjobs : m.jobs = t :: rest)
    (ht : ∀ op, t ≠ .perform (.op (.keySet op))) (s : Finset Handle) : m.alter s = s := by
  unfold alter
  split
  · rename_i op rest' hop
    rw [hjobs] at hop
    exact absurd (List.cons.inj hop).1 (ht op)
  · rfl

/-- **The hash set follows the set of identities.** -/
theorem Turn.alters (h : Turn a b) {f : ObjectId → HashOutcome} (ha : a.world.Keyed f)
    (hnodup : a.world.keySet.Nodup) :
    b.world.keySet.Nodup ∧ b.world.members = a.alter a.world.members := by
  by_cases hop : ∃ op rest, a.jobs = .perform (.op (.keySet op)) :: rest
  · obtain ⟨op, rest, hjobs⟩ := hop
    have href := op.refines_run ha hnodup
    obtain rfl := h.eq_of_run hjobs rfl href.call rfl
    refine ⟨href.nodup, ?_⟩
    obtain ⟨w, js, f⟩ := a
    obtain rfl : js = .perform (.op (.keySet op)) :: rest := hjobs
    exact href.members
  · have hsame : b.world.keySet = a.world.keySet := by
      obtain ⟨w, t, rest, rfl, ⟨f, -, rfl⟩ | ⟨t', out, w', above, ht', hrun, hw', -, rfl⟩⟩ := h.inv
      · rfl
      · have hout : out.world.keySet = w.keySet := by
          refine (Job.reshelves_run hrun fun op heq => hop ?_).keySet
          rcases ht' with rfl | ⟨s, rule, -, -, rfl⟩
          · exact ⟨op, rest, by rw [heq]⟩
          · cases heq
        rcases hw' with rfl | ⟨hook, -, rfl⟩ <;> exact hout
    obtain ⟨w, t, rest, rfl, -⟩ := h.inv
    rw [alter_of_ne rfl fun op heq => hop ⟨op, rest, by rw [heq]⟩, members, members, hsame]
    exact ⟨hnodup, rfl⟩

/-- What holds of one turn holds of several: the hash set follows the operations. -/
theorem Run.alters (h : Run a ms b) {f : ObjectId → HashOutcome}
    (hkeyed : ∀ x ∈ ms, x.world.Keyed f) (hnodup : a.world.keySet.Nodup) :
    b.world.keySet.Nodup ∧ b.world.members = ms.foldl (fun s x => x.alter s) a.world.members := by
  induction h with
  | nil => exact ⟨hnodup, rfl⟩
  | cons hturn _ ih =>
    rw [List.forall_mem_cons] at hkeyed
    obtain ⟨hnext, hmembers⟩ := hturn.alters hkeyed.1 hnodup
    obtain ⟨hlast, hfold⟩ := ih hkeyed.2 hnext
    refine ⟨hlast, ?_⟩
    rw [hfold, hmembers, List.foldl_cons]

/-- An operation on the hash set that is performed, from its first turn to the end. -/
theorem Run.replies {op : KeySetOp} {rest : List Job} {d c : Machine} {during : List Machine}
    {f : ObjectId → HashOutcome} (hjobs : m.jobs = .perform (.op (.keySet op)) :: rest)
    (hturn : Turn m d) (hrun : Run d during c) (hc : c.jobs = rest)
    (hduring : ∀ x ∈ during, rest.length < x.jobs.length) (hkeyed : m.world.Keyed f)
    (hnodup : m.world.keySet.Nodup) :
    (∃ released, op.Replies m.world.key? m.world.members released c.world.answer ∧
      d.jobs = released.map .release ++ .answer c.world.answer :: rest) ∧
    d.world.members = op.next m.world.key? m.world.members ∧
    ∀ r, d.world.key? r = if op = .insert r then none else m.world.key? r := by
  have href := op.refines_run hkeyed hnodup
  obtain rfl := hturn.eq_of_run hjobs rfl href.call rfl
  obtain ⟨released, answer, hreplies, hout⟩ := href.jobs
  have hbelow : (op.run m.world).jobs ++ rest = released.map .release ++ .answer answer :: rest := by
    rw [hout, List.append_assoc]
    rfl
  obtain ⟨-, -, hanswer⟩ := hrun.answers hbelow hc hduring
  rw [hanswer]
  exact ⟨⟨released, hreplies, hbelow⟩, href.members, href.key?⟩

/-- **A hash set of keys is a finite set of identities.** If every object always answers
alike, then every key, wherever it is and however it was made, has the hash of its object,
and null has the hash zero. So keys that are equal have equal hashes, at whatever times they
were made. The hash set is the finite set of identities that the operations on it make out
of the empty set, and it has one key of each member. Each operation answers as it should,
and releases the key that it refuses or takes out. -/
theorem hash_set_holds_identities (h : Run (session objects steps) ms m)
    (hsteady : ∀ a ∈ ms, a.world.Steady objects) :
    (∀ a ∈ m :: ms, ∀ k, a.world.HasKey k → k.Fits (World.init objects).hashOutcome) ∧
    (∀ a ∈ m :: ms, ∀ b ∈ m :: ms, ∀ k k', a.world.HasKey k → b.world.HasKey k' →
      k.same k' = true → k.hash = k'.hash ∧ k.digest = k'.digest) ∧
    m.world.members = identities ms ∧
    (∀ p, (m.world.keySet.map Key.handle).count p = if p ∈ m.world.members then 1 else 0) ∧
    ∀ op rest d during c, m.jobs = .perform (.op (.keySet op)) :: rest → Turn m d →
      Run d during c → c.jobs = rest → (∀ x ∈ during, rest.length < x.jobs.length) →
        (∃ released, op.Replies m.world.key? m.world.members released c.world.answer ∧
          d.jobs = released.map .release ++ .answer c.world.answer :: rest) ∧
        d.world.members = op.next m.world.key? m.world.members ∧
        ∀ r, d.world.key? r = if op = .insert r then none else m.world.key? r := by
  have hkeyed := h.keyed hsteady
  have hm := hkeyed m List.mem_cons_self
  obtain ⟨hnodup, hmembers⟩ := h.alters (fun x hx => hkeyed x (List.mem_cons_of_mem _ hx))
    List.nodup_nil
  have hfits (a : Machine) (ha : a ∈ m :: ms) (k : Key) (hk : a.world.HasKey k) :
      k.Fits (World.init objects).hashOutcome := by
    rcases hk with hk | ⟨s, id, hk⟩
    · exact (hkeyed a ha).shelved k hk
    · exact (hkeyed a ha).stored s id k hk
  refine ⟨hfits, fun a ha b hb k k' hk hk' hsame => ?_, hmembers, fun p => ?_, ?_⟩
  · have heq := (hfits a ha k hk).ext (hfits b hb k' hk') (beq_iff_eq.1 hsame)
    rw [heq]
    exact ⟨rfl, rfl⟩
  · rw [(nodup_handles hm hnodup).count]
    simp only [members, List.mem_toFinset]
  · intro op rest d during c hjobs hturn hrun hc hduring
    exact hrun.replies hjobs hturn hc hduring hm hnodup

/-- Two objects that hash to zero, like null. -/
def zeroObjects : List ForeignObject :=
  [.plain 0x1000 1 (.always (.fixed 0)), .plain 0x2000 1 (.always (.fixed 0))]

/-- Puts a key of null and one of each object in the hash set, then another one of the first
object. -/
def zeroSteps : List Step :=
  [.op (.key (.make 0 (.fresh none))), .op (.keySet (.insert 0)),
    .op (.key (.make 0 (.fresh (some 0)))), .op (.keySet (.insert 0)),
    .op (.key (.make 0 (.fresh (some 1)))), .op (.keySet (.insert 0)),
    .op (.key (.make 0 (.fresh (some 0)))), .op (.keySet (.insert 0))]

/-- The machine that is about to insert the key of the first object again. -/
def zeros : Machine := (session zeroObjects zeroSteps).turns still 25

/-- Null and two objects with its hash are told apart, and the second key of the first
object is refused and released. -/
theorem hash_set_holds_identities_of_zeros :
    zeros.world.members = {none, some 0, some 1} ∧
      (zeros.turns still 1).jobs = [.release (some 0), .answer (.flag false)] ∧
      (zeros.turns still 1).world.members = {none, some 0, some 1} := by
  have hrun := run_visited still 25 (session zeroObjects zeroSteps)
  obtain ⟨-, -, hmembers, -, hop⟩ := hash_set_holds_identities hrun (by decide +kernel)
  have hzeros : zeros.world.members = {none, some 0, some 1} := by
    rw [zeros, hmembers]
    decide +kernel
  obtain ⟨⟨released, ⟨hreleased, hanswer⟩, hjobs⟩, hnext, -⟩ := hop (.insert 0) [] (zeros.turns still 1)
    (visited still 2 (zeros.turns still 1)) (zeros.turns still 3) rfl
    (turn_of_turn (p := still) (by rfl)) (run_visited still 2 _) rfl (by decide +kernel)
  have hold : some 0 ∈ zeros.world.members := by
    rw [hzeros]
    decide
  have hreleased : released = [some 0] := hreleased.trans (if_pos hold)
  refine ⟨hzeros, ?_, (hnext.trans (Finset.insert_eq_of_mem hold)).trans hzeros⟩
  rw [hjobs, hreleased, hanswer]
  rfl

end Machine

end ListenerRegistry
