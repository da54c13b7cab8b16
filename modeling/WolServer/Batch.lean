import WolServer.Registry

/-!
# A batch of events

`epoll_wait` returns several descriptors at once, and the handler is called
for one after the other. Between the return and a call, earlier calls have
opened and closed descriptors – and a number that was closed may be given to
a new connection at once. An event that was meant for the old connection
would then be taken for one of the new.

It never is. A call closes its own descriptor at most, the descriptors of a
batch are distinct, and `accept` returns none that is open; so a descriptor
that waits for its call is still the connection it was
(`Server.no_stale_event`). The code has no name for a connection but its
descriptor. The trace has: a connection is the how-manieth of its number.
-/

namespace Server

/-- **Which connection a descriptor is**: how often `accept` has returned its
number. -/
def connection (tr : List Effect) (fd : ℕ) : ℕ := tr.count (.accepted fd)

/-- An action that leaves a descriptor registered has neither opened nor
closed it. -/
theorem Action.keeps {listen x : ℕ} {s s' : Server} {es : List Effect} (h : Agrees listen s)
    (ha : Action listen s es s') (hx : x ∈ s.epoll.kernel.registered)
    (hx' : x ∈ s'.epoll.kernel.registered) : .accepted x ∉ es ∧ .closed x ∉ es := by
  have hopen : x ∈ s.epoll.kernel.opened := by
    rw [h.watches.opened, ← h.watches.registered]
    exact hx
  cases ha with
  | idle phase t => simp
  | look hi => simp
  | @letIn fd now addr e hnew hfd hptr he =>
    have hne : x ≠ fd := fun h => hnew (h ▸ hopen)
    simp [hne]
  | @refuse fd e hnew hptr he =>
    have hne : x ≠ fd := fun h => hnew (h ▸ hopen)
    simp [hne]
  | @drop fd timestamp e hfd hptr he =>
    have hne : x ≠ fd := by
      rintro rfl
      change x ∈ e.kernel.registered at hx'
      rw [he.registered] at hx'
      rcases Finset.mem_insert.mp hx' with rfl | hx'
      · exact h.watches.separate (h.mem hfd)
      · exact Finset.notMem_erase _ _ hx'
    simp [hne]
  | @request fd text now hfd =>
    obtain ⟨es, hes, hans⟩ := handleRequest_answers (s := s) text now (h.bounded _ hfd)
    have hquiet : ∀ e : Effect, (∀ i, e ≠ .access i) → e.isSend = false →
      (∀ i t, e ≠ .received i t) →
        e ∉ (handleRequest s fd text now).2 := by
      intro e hacc hsend hrec he
      rw [hes] at he
      rcases List.mem_cons.mp he with rfl | he
      · exact hrec _ _ rfl
      rcases hans e he with ⟨i, -, rfl⟩ | hs
      · exact hacc i rfl
      · rw [hsend] at hs
        cases hs
    exact ⟨hquiet _ (by simp) rfl (by simp), hquiet _ (by simp) rfl (by simp)⟩

/-- **A part of a batch**: after some of the calls, the others are still to
come, and none of their descriptors was opened or closed. -/
theorem run_handles {listen : ℕ} {s s' : Server} {fds : List ℕ} {envs : List Env}
    {tr : List Effect} (h : Session listen s) (hphase : s.phase = .next fds)
    (hsmall : ∀ env ∈ envs, ∀ x ∈ (Label.handle env).admitted, x < slots)
    (hrun : Runs.run step s (envs.map .handle) = some (s', tr)) :
    Session listen s' ∧ s'.phase = .next (fds.drop envs.length)
      ∧ ∀ fd ∈ fds.drop envs.length, .accepted fd ∉ tr ∧ .closed fd ∉ tr := by
  induction envs generalizing s fds tr with
  | nil =>
    obtain ⟨rfl, rfl⟩ := Prod.mk.inj (Option.some.inj hrun)
    exact ⟨h, hphase, fun fd _ => ⟨List.not_mem_nil, List.not_mem_nil⟩⟩
  | cons env envs ih =>
    obtain ⟨s₁, es, tr₁, hstep, hrest, rfl⟩ := Runs.run_cons_eq_some.mp hrun
    obtain ⟨henv, henvs⟩ := List.forall_mem_cons.mp hsmall
    have hsess₁ := (step_actions h henv hstep).2
    rcases step_cases hstep with ⟨_, hl, -⟩ | ⟨_, hl, -⟩ | ⟨_, hl, -⟩
      | ⟨fd, rest, env', hl, hdispatch, hans, rfl, rfl⟩
    · cases hl
    · cases hl
    · cases hl
    obtain rfl := Label.handle.inj hl
    -- the batch goes on with the descriptor the handler is called for
    obtain rfl : fds = fd :: rest := by
      rw [hphase] at hdispatch
      cases fds with
      | nil => cases hdispatch
      | cons _ _ => exact Phase.dispatch.inj hdispatch
    obtain ⟨hsess', hphase', hkeep⟩ := ih hsess₁ rfl henvs hrest
    refine ⟨hsess', hphase', fun x hx => ?_⟩
    have hpend : (fd :: rest).Nodup ∧ ∀ x ∈ fd :: rest, x ∈ s.epoll.kernel.registered := by
      have := h.pending
      rwa [Pending, hdispatch] at this
    have hxrest : x ∈ rest := List.mem_of_mem_drop hx
    have hreg : x ∈ s.epoll.kernel.registered := hpend.2 x (List.mem_cons_of_mem _ hxrest)
    have hne : x ≠ fd := by
      rintro rfl
      exact (List.nodup_cons.mp hpend.1).1 hxrest
    obtain ⟨hact, hstay⟩ := handleSocket_action h.agrees (hpend.2 fd List.mem_cons_self) hans henv
    obtain ⟨hacc, hcl⟩ := hact.keeps h.agrees hreg (hstay x hreg hne)
    obtain ⟨hacc', hcl'⟩ := hkeep x hx
    exact ⟨fun hm => (List.mem_append.mp hm).elim hacc hacc',
      fun hm => (List.mem_append.mp hm).elim hcl hcl'⟩

variable {memory : ClientList} {listenFd : ℕ} {portWarn : UInt16}

/-- **No event is stale.** In every execution that lets in descriptors of the
table only: when `epoll_wait` has returned a batch, and the calls for some of
its events have been made, whatever came of them, the next call is for the
next event, whose descriptor is still registered and open; and if it is not
the listening one, its slot is in use, as it was when `epoll_wait` returned,
by the same connection, which has not been closed in between. -/
theorem no_stale_event {before : List Label} {events : List ℕ} {envs : List Env} {s₁ s₂ : Server}
    {tr₁ tr₂ : List Effect} {fd : ℕ}
    (hbefore : ∀ l ∈ before, ∀ x ∈ l.admitted, x < slots)
    (hsmall : ∀ env ∈ envs, ∀ x ∈ (Label.handle env).admitted, x < slots)
    (h₁ : execute memory listenFd portWarn before = some (s₁, tr₁))
    (h₂ : Runs.run step s₁ (.wait events :: envs.map .handle) = some (s₂, tr₂))
    (hj : events[envs.length]? = some fd) :
    s₂.phase = .dispatch (fd :: events.drop (envs.length + 1))
      ∧ fd ∈ s₂.epoll.kernel.registered ∧ fd ∈ s₂.epoll.kernel.opened
      ∧ (fd ≠ listenFd → (s₁.clientList fd).enable = true ∧ (s₂.clientList fd).enable = true
        ∧ connection (tr₁ ++ tr₂) fd = connection tr₁ fd ∧ .closed fd ∉ tr₂) := by
  obtain ⟨-, hsess₁⟩ := execute_invariant (fun _ _ => True) trivial (fun _ _ _ => trivial)
    hbefore h₁
  obtain ⟨s, es, tr, hwait, hrest, rfl⟩ := Runs.run_cons_eq_some.mp h₂
  have hsess := (step_actions hsess₁ (fun x hx => by cases hx) hwait).2
  obtain ⟨hcan, rfl, rfl⟩ : CanReport s₁.epoll events ∧ s = { s₁ with phase := .next events }
      ∧ es = [] := by
    rcases step_cases hwait with ⟨_, hl, -⟩ | ⟨_, hl, -⟩ | ⟨_, hl, -, hcan, hs, hes⟩
      | ⟨_, _, _, hl, -⟩
    · cases hl
    · cases hl
    · obtain rfl := Label.wait.inj hl
      exact ⟨hcan, hs, hes⟩
    · cases hl
  obtain ⟨hsess₂, hphase, hkeep⟩ := run_handles hsess rfl hsmall hrest
  have hdrop : events.drop envs.length = fd :: events.drop (envs.length + 1) := by
    obtain ⟨hlt, hget⟩ := List.getElem?_eq_some_iff.mp hj
    rw [List.drop_eq_getElem_cons hlt, hget]
  rw [hdrop] at hphase hkeep
  obtain ⟨hacc, hcl⟩ := hkeep fd List.mem_cons_self
  have hreg : fd ∈ s₂.epoll.kernel.registered := by
    have := hsess₂.pending
    rw [Pending, hphase] at this
    exact this.2 fd List.mem_cons_self
  have hw := hsess₂.agrees.watches
  refine ⟨hphase, hreg, ?_, fun hne => ⟨?_, ?_, ?_, hcl⟩⟩
  · rw [hw.opened, ← hw.registered]
    exact hreg
  · have hmem := hsess₁.agrees.watches.mem_clients (hcan.2.1 fd (List.mem_of_getElem? hj)) hne
    exact (mem_enabledSlots.mp hmem).2
  · exact (mem_enabledSlots.mp (hw.mem_clients hreg hne)).2
  · rw [connection, connection, List.count_append, List.nil_append,
      List.count_eq_zero.mpr hacc, Nat.add_zero]

unseal slots bufferSize in
set_option maxRecDepth 8000 in
/-- Two connections are reported after the listening descriptor; the first
closes, and its number is given to a new connection before the second is
handled. -/
theorem no_stale_event_run :
    ∃ s₁ tr₁ s₂ tr₂, execute zeroMemory 3 50174
        [.check 0, .wait [3], .handle { quiet with accept := some (5, ⟨192, 168, 0, 7⟩) },
          .check 0, .wait [3], .handle { quiet with accept := some (6, ⟨192, 168, 0, 8⟩) },
          .check 0] = some (s₁, tr₁)
      ∧ Runs.run step s₁ (.wait [5, 3, 6] :: [{ quiet with closed := true },
          { quiet with accept := some (5, ⟨192, 168, 0, 9⟩) }].map .handle) = some (s₂, tr₂)
      ∧ 6 ∈ s₂.epoll.kernel.opened ∧ connection (tr₁ ++ tr₂) 6 = connection tr₁ 6 := by
  obtain ⟨⟨s₂, tr⟩, h⟩ := Option.isSome_iff_exists.mp (show (Runs.run step
      (bootState zeroMemory 3 50174)
      ([.check 0, .wait [3], .handle { quiet with accept := some (5, ⟨192, 168, 0, 7⟩) },
          .check 0, .wait [3], .handle { quiet with accept := some (6, ⟨192, 168, 0, 8⟩) },
          .check 0] ++ (.wait [5, 3, 6] :: [{ quiet with closed := true },
          { quiet with accept := some (5, ⟨192, 168, 0, 9⟩) }].map .handle))).isSome = true
      by decide)
  obtain ⟨s₁, tr₁, tr₂, h₁, h₂, rfl⟩ := Runs.run_append_eq_some.mp h
  have hstale := no_stale_event (by decide) (by decide) (execute_eq_some.mpr ⟨tr₁, h₁, rfl⟩) h₂
    (show [5, 3, 6][2]? = some 6 from rfl)
  exact ⟨s₁, _, s₂, tr₂, execute_eq_some.mpr ⟨tr₁, h₁, rfl⟩, h₂, hstale.2.2.1,
    (hstale.2.2.2 (by decide)).2.2.1⟩

end Server
