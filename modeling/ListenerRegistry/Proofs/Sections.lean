import ListenerRegistry.Monitor.Session

/-!
# One section at a time

A monitor keeps no account of the sections that it gave out. All it has is a flag,
and closing a section resets the flag without a look at which section it is. The
flag is right all the same, because a refused request gives out nothing that could
be closed later.

Which sections are alive is told by the requests and their replies alone
(`living`). Whatever is requested, and in whatever order, at most one of them is, and
the flag, the refusals and the closings agree with it (`Exclusive`).
-/

namespace ListenerRegistry

namespace Monitor.Session

/-- The session after some requests. -/
def after (s : Session) (requests : List Request) : Session :=
  requests.foldl (fun s q => (s.serve q).2) s

/-- The requests, each with the reply that it gets. -/
def transcript (s : Session) (requests : List Request) : List (Request × Reply) :=
  requests.zip ((s.run requests).map (·.1))

/-- The sections that are alive after one more request: for each the register that
it was put into and the name that was asked for. A section that was put into a
register is closed by closing that register, whatever the monitor makes of it, and
by nothing else. -/
def track (alive : List (Nat × String)) : Request × Reply → List (Nat × String)
  | (.enter r name, .entered) => (r, name) :: alive
  | (.leave r, .left) => alive.filter (·.1 != r)
  | (.leave r, .refused _) => alive.filter (·.1 != r)
  | _ => alive

/-- The sections that were obtained and not closed yet. -/
def living (history : List (Request × Reply)) : List (Nat × String) :=
  history.foldl track []

variable {s : Session} {held : Bank (Option Section)} {alive : List (Nat × String)}
  {r : Nat} {name current : String}

/-! ## Single requests -/

theorem serve_enter_idle :
    (Session.mk idle held).serve (.enter r name) =
      (.entered, ⟨⟨some name⟩, held.write r (some ⟨name⟩)⟩) := rfl

theorem serve_enter_active :
    (Session.mk ⟨some current⟩ held).serve (.enter r name) =
      (.refused (.reentered name current), ⟨⟨some current⟩, held⟩) := rfl

theorem serve_leave_vacant (h : s.held.read r = none) : s.serve (.leave r) = (.empty, s) := by
  simp only [serve, h]

theorem serve_leave_active {x : Section} (h : held.read r = some x) :
    (Session.mk ⟨some current⟩ held).serve (.leave r) = (.left, ⟨idle, held.write r none⟩) := by
  simp only [serve, h, leave_active]

/-! ## The flag tells which section is alive -/

/-- The flag and the registers tell which sections are alive. Either there is none,
or there is one, in a register of its own and with its name in the flag. -/
inductive Tells : Session → List (Nat × String) → Prop where
  | idle {held : Bank (Option Section)} (hheld : ∀ q, held.read q = none) :
      Tells ⟨.idle, held⟩ []
  | busy {held : Bank (Option Section)} {r : Nat} {name : String}
      (hheld : ∀ q, held.read q = if q = r then some ⟨name⟩ else none) :
      Tells ⟨⟨some name⟩, held⟩ [(r, name)]

theorem tells_start : Tells start [] := .idle Bank.read_empty

/-- While a section is alive, nothing but closing it has an effect. -/
theorem Tells.serve_eq (h : Tells s [(r, name)]) {q : Request} (hq : q ≠ .leave r) :
    (s.serve q).2 = s := by
  cases h with
  | busy hheld =>
    cases q with
    | enter r' name' => rw [serve_enter_active]
    | leave r' =>
      have hr : r' ≠ r := fun heq => hq (heq ▸ rfl)
      rw [serve_leave_vacant ((hheld r').trans (if_neg hr))]

/-- The section that is alive can be closed. -/
theorem Tells.serve_leave (h : Tells s [(r, name)]) :
    s.serve (.leave r) = (.left, ⟨.idle, s.held.write r none⟩) := by
  cases h with
  | busy hheld => exact serve_leave_active ((hheld r).trans (if_pos rfl))

/-- **One request keeps the account.** -/
theorem Tells.serve (h : Tells s alive) (q : Request) :
    Tells (s.serve q).2 (track alive (q, (s.serve q).1)) := by
  cases h with
  | idle hheld =>
    cases q with
    | enter r name =>
      rw [serve_enter_idle]
      apply Tells.busy
      intro q
      rw [Bank.read_write, hheld]
    | leave r =>
      rw [serve_leave_vacant (hheld r)]
      exact .idle hheld
  | @busy held r name hheld =>
    cases q with
    | enter r' name' =>
      rw [serve_enter_active]
      exact .busy hheld
    | leave r' =>
      by_cases hr : r' = r
      · -- no other register has a section, so the flag that is reset is this one's
        subst hr
        rw [(Tells.busy hheld).serve_leave]
        have hnone : track [(r', name)] (.leave r', .left) = [] := by simp [track]
        rw [hnone]
        apply Tells.idle
        intro q
        by_cases hq : q = r'
        · rw [Bank.read_write, if_pos hq]
        · rw [Bank.read_write, hheld, if_neg hq, if_neg hq]
      · rw [serve_leave_vacant ((hheld r').trans (if_neg hr))]
        exact .busy hheld

/-- The account is kept by any number of requests. -/
theorem Tells.after (h : Tells s alive) (requests : List Request) :
    Tells (s.after requests) ((s.transcript requests).foldl track alive) := by
  -- the requests that are left start from any session that has an account
  induction requests generalizing s alive with
  | nil => exact h
  | cons q requests ih => exact ih (h.serve q)

/-- A section that is alive stays so, and so does everything else, until it is
closed. -/
theorem Tells.after_eq (h : Tells s [(r, name)]) {requests : List Request}
    (hkept : .leave r ∉ requests) : s.after requests = s := by
  induction requests with
  | nil => rfl
  | cons q requests ih =>
    rw [List.mem_cons, not_or] at hkept
    have hq : (s.serve q).2 = s := h.serve_eq (Ne.symm hkept.1)
    calc s.after (q :: requests) = (s.serve q).2.after requests := rfl
      _ = s.after requests := by rw [hq]
      _ = s := ih hkept.2

/-! ## Mutual exclusion -/

/-- What holds in a session in which `alive` are the sections that were obtained and
not closed yet. -/
structure Exclusive (s : Session) (alive : List (Nat × String)) : Prop where
  /-- At most one section is alive. -/
  single : alive.length ≤ 1
  /-- A section is in its register for as long as it is alive. -/
  held : ∀ r name, s.held.read r = some ⟨name⟩ ↔ (r, name) ∈ alive
  /-- The flag is set if and only if a section is alive, to the name given for it. -/
  flag : ∀ name, s.monitor.active = some name ↔ ∃ r, (r, name) ∈ alive
  /-- A section is given out if and only if none is alive. -/
  entered : ∀ r name, (s.serve (.enter r name)).1 = .entered ↔ alive = []
  /-- A section is refused if and only if one is alive, for the reason that this one is
  open. -/
  refused : ∀ r name fault, (s.serve (.enter r name)).1 = .refused fault ↔
    ∃ x ∈ alive, fault = .reentered name x.2
  /-- The message of a refusal names what was asked for and what is open. -/
  message : ∀ r name fault, (s.serve (.enter r name)).1 = .refused fault →
    ∃ x ∈ alive, fault.message =
      "reentrant `" ++ name ++ "` while `" ++ x.2 ++ "` is in progress on a listener set"
  /-- A refusal leaves everything as it was. -/
  untouched : ∀ r name fault, (s.serve (.enter r name)).1 = .refused fault →
    (s.serve (.enter r name)).2 = s
  /-- The open section stays as it is whatever is requested before it is closed. -/
  kept : ∀ r name, (r, name) ∈ alive → ∀ requests, .leave r ∉ requests → s.after requests = s
  /-- Closing it clears the flag, and the next section is given out. -/
  closed : ∀ r name, (r, name) ∈ alive →
    (s.serve (.leave r)).1 = .left ∧ (s.serve (.leave r)).2.monitor = idle ∧
      ∀ r' name', ((s.serve (.leave r)).2.serve (.enter r' name')).1 = .entered
  /-- A section that is not alive cannot be closed. -/
  vacant : ∀ r, (∀ name, (r, name) ∉ alive) → s.serve (.leave r) = (.empty, s)
  /-- The monitor never objects to the closing of a section. -/
  unopposed : ∀ r fault, (s.serve (.leave r)).1 ≠ .refused fault

theorem exclusive_idle (hheld : ∀ q, held.read q = none) : Exclusive ⟨idle, held⟩ [] where
  single := Nat.zero_le 1
  held := by simp [hheld]
  flag := by simp [idle]
  entered := by simp [serve_enter_idle]
  refused := by simp [serve_enter_idle]
  message := by simp [serve_enter_idle]
  untouched := by simp [serve_enter_idle]
  kept := by simp
  closed := by simp
  vacant r _ := serve_leave_vacant (hheld r)
  unopposed r fault := by simp [serve_leave_vacant (s := ⟨idle, held⟩) (hheld r)]

theorem exclusive_busy (hheld : ∀ q, held.read q = if q = r then some ⟨name⟩ else none) :
    Exclusive ⟨⟨some name⟩, held⟩ [(r, name)] where
  single := Nat.le_refl 1
  held q other := by
    by_cases hq : q = r
    · simp [hheld, hq, eq_comm]
    · simp [hheld, hq]
  flag := by simp [eq_comm]
  entered := by simp [serve_enter_active]
  refused := by simp [serve_enter_active, eq_comm]
  message q other fault h := by
    rw [serve_enter_active, Reply.refused.injEq] at h
    exact ⟨_, List.mem_singleton_self _, h ▸ rfl⟩
  untouched := by simp [serve_enter_active]
  kept q other hq requests hkept := by
    cases List.mem_singleton.1 hq
    exact (Tells.busy hheld).after_eq hkept
  closed q other hq := by
    cases List.mem_singleton.1 hq
    rw [(Tells.busy hheld).serve_leave]
    exact ⟨rfl, rfl, fun _ _ => rfl⟩
  vacant q hq := by
    have hne : q ≠ r := fun heq => hq name (heq ▸ List.mem_singleton_self _)
    exact serve_leave_vacant ((hheld q).trans (if_neg hne))
  unopposed q fault := by
    by_cases hq : q = r
    · simp [hq, (Tells.busy hheld).serve_leave]
    · simp [serve_leave_vacant (s := ⟨⟨some name⟩, held⟩) ((hheld q).trans (if_neg hq))]

theorem Tells.exclusive (h : Tells s alive) : Exclusive s alive := by
  cases h with
  | idle hheld => exact exclusive_idle hheld
  | busy hheld => exact exclusive_busy hheld

/-- **Sections exclude one another.** Whatever is requested of a new monitor, and in
whatever order, at most one section is alive at any time, and the flag has its name
while it is. Another section is refused exactly for as long, with a message that
names both, and the refusal leaves the flag and the open section alone: the open
section can be closed later, and then the next one is given out. No closing is ever
objected to. -/
theorem sections_exclude_one_another (requests : List Request) :
    Exclusive (start.after requests) (living (start.transcript requests)) :=
  (tells_start.after requests).exclusive

/-- A section that was refused cannot be closed, so the one that is open stays open. -/
example : start.transcript [.enter 0 "insert", .enter 1 "remove", .leave 1, .enter 1 "clear",
      .leave 0, .leave 0, .enter 1 "remove"] =
    [(.enter 0 "insert", .entered), (.enter 1 "remove", .refused (.reentered "remove" "insert")),
      (.leave 1, .empty), (.enter 1 "clear", .refused (.reentered "clear" "insert")),
      (.leave 0, .left), (.leave 0, .empty), (.enter 1 "remove", .entered)] := by
  decide

end Monitor.Session

end ListenerRegistry
