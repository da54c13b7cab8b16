import WolServer.Session
import WolServer.Values

/-!
# Tables that can be reached

The converse of the invariants: which tables the server does get into. A
descriptor below 1024 that is not in use can be let in, its connection can
bind with any text that announces a binding, and neither changes any other
slot. So every table that a list of connections describes is the table of an
execution (`Server.execute_population`), and a statement that fails at some
such table fails in a run of the program and not just at a state nobody sees.

The steps are taken one turn of the loop at a time (`Server.run_turn`), on a
clock that stands still, so that no sweep comes in between.
-/

namespace Server

/-- The loop is at its condition, and no sweep is due at time zero. -/
structure Idle (listen : ℕ) (s : Server) : Prop where
  agrees : Agrees listen s
  phase : s.phase = .loop
  notDue : s.timestampChecktimeout = 0
  room : 0 < s.epoll.mCount

theorem idle_boot {memory : ClientList} {listenFd : ℕ} {portWarn : UInt16} :
    Idle listenFd (bootState memory listenFd portWarn) :=
  ⟨session_boot.agrees, rfl, rfl, (by decide : 0 < 512)⟩

/-! ## One turn of the loop -/

/-- The handler does not look at the phase of the loop, nor change it. -/
theorem handleSocket_phase (s : Server) (p : Phase) (fd : ℕ) (env : Env) :
    handleSocket { s with phase := p } fd env
      = ({ (handleSocket s fd env).1 with phase := p }, (handleSocket s fd env).2) := by
  unfold handleSocket
  split
  · unfold acceptClient
    cases env.accept with
    | none => rfl
    | some r =>
      dsimp only
      split <;> rfl
  split <;> rfl

/-- The loop comes to the dispatch of one event. -/
theorem run_wait {listen fd : ℕ} {s : Server} (h : Idle listen s)
    (hfd : fd ∈ s.epoll.kernel.registered) :
    Runs.run step s [.check 0, .wait [fd]] = some ({ s with phase := .dispatch [fd] }, []) := by
  have hcheck : step s (.check 0) = some ({ s with phase := .wait }, []) := by
    have hsweep : checkTimeout s 0 = (s, []) := if_neg (Nat.not_lt_zero _)
    rw [step, if_pos h.agrees.loop, hsweep]
    exact h.phase
  have hwait : step { s with phase := .wait } (.wait [fd])
      = some ({ s with phase := .dispatch [fd] }, []) := by
    refine if_pos ⟨List.nodup_singleton fd, fun x hx => ?_, h.room⟩
    rw [List.mem_singleton.mp hx]
    exact hfd
  exact Runs.run_cons_eq_some.mpr ⟨_, _, _, hcheck, Runs.run_single hwait, rfl⟩

/-- The handler is called for the event. -/
theorem step_handle {s : Server} {fd : ℕ} {env : Env} (hans : CanAnswer s.epoll fd env) :
    step { s with phase := .dispatch [fd] } (.handle env)
      = some ({ (handleSocket s fd env).1 with phase := .loop }, (handleSocket s fd env).2) := by
  have hans' : CanAnswer { s with phase := .dispatch [fd] }.epoll fd env := hans
  unfold step
  dsimp only
  rw [if_pos hans', handleSocket_phase]
  rfl

/-- **A turn of the loop with one event** calls the handler once. -/
theorem run_turn {listen fd : ℕ} {s : Server} {env : Env} (h : Idle listen s)
    (hfd : fd ∈ s.epoll.kernel.registered) (hans : CanAnswer s.epoll fd env) :
    Runs.run step s [.check 0, .wait [fd], .handle env]
      = some ({ (handleSocket s fd env).1 with phase := .loop }, (handleSocket s fd env).2) :=
  Runs.run_append (run_wait h hfd) (Runs.run_single (step_handle hans))

/-- The slot of a connection that is let in. -/
theorem run_accept {listen fd : ℕ} {s : Server} (h : Idle listen s) (hfd : fd < slots)
    (hne : fd ≠ listen) (hfree : (s.clientList fd).enable = false) (addr : InAddr) :
    ∃ s' tr, Runs.run step s [.check 0, .wait [listen],
        .handle ⟨some (fd, addr), true, [], false, 0⟩] = some (s', tr)
      ∧ Idle listen s' ∧ s'.clientList = Function.update s.clientList fd (newClient 0 addr) := by
  have hw := h.agrees.watches
  have hclosed : fd ∉ s.epoll.kernel.opened := by
    rw [hw.opened, Finset.mem_insert, not_or]
    refine ⟨hne, fun hm => ?_⟩
    rw [(mem_enabledSlots.mp hm).2] at hfree
    cases hfree
  have hlisten : s.epoll.checkListen listen = true := hw.checkListen_iff.mpr rfl
  obtain ⟨e, hadd, he, hptr, hcount⟩ := hw.add hclosed (card_enabledSlots_lt _)
  have hsocket : handleSocket s listen ⟨some (fd, addr), true, [], false, 0⟩
      = ({ s with epoll := e
                  clientList := Function.update s.clientList fd (newClient 0 addr) },
        [.accepted fd, .access fd]) := by
    rw [handleSocket, if_pos hlisten, acceptClient]
    dsimp only
    rw [hadd, if_pos rfl]
  have hans : CanAnswer s.epoll listen ⟨some (fd, addr), true, [], false, 0⟩ :=
    ⟨fun p hp => Option.some.inj hp ▸ ⟨hlisten, hclosed⟩, fun c hc => absurd hc List.not_mem_nil⟩
  have hrun := run_turn h (hw.registered ▸ Finset.mem_insert_self _ _) hans
  rw [hsocket] at hrun
  have hact : Action listen s [.accepted fd, .access fd] { s with
      epoll := e, clientList := Function.update s.clientList fd (newClient 0 addr) } :=
    Action.letIn hclosed hfd hptr he
  have hagrees := hact.agrees h.agrees
  exact ⟨_, _, hrun, ⟨⟨hagrees.watches, hagrees.bounded⟩, rfl, h.notDue, hcount ▸ h.room⟩, rfl⟩

/-- **A request that arrives whole**, in a turn of its own. -/
theorem run_request {listen fd : ℕ} {s : Server} (h : Idle listen s)
    (hfd : (s.clientList fd).enable = true) {text : Bytes} (hnul : (0 : UInt8) ∉ text)
    (hpos : 0 < text.length) (hlt : text.length < bufferSize) :
    Runs.run step s [.check 0, .wait [fd], .handle (receive text)]
        = some ({ (handleRequest s fd text 0).1 with phase := .loop },
          (handleRequest s fd text 0).2)
      ∧ Idle listen { (handleRequest s fd text 0).1 with phase := .loop } := by
  have hw := h.agrees.watches
  have hmem := h.agrees.mem hfd
  have hlisten : ¬ s.epoll.checkListen fd = true := fun hl => by
    rw [hw.checkListen_iff.mp hl] at hmem
    exact hw.separate hmem
  have hsocket : handleSocket s fd (receive text) = handleRequest s fd text 0 := by
    have hdrain : drain [text] = text := by
      rw [drain, List.flatMap_singleton, cstr_eq_self hnul]
    rw [handleSocket, if_neg hlisten, if_neg (show ¬ (receive text).closed = true from
      Bool.false_ne_true)]
    exact congrArg (fun t => handleRequest s fd t 0) hdrain
  have hans : CanAnswer s.epoll fd (receive text) := by
    refine ⟨fun p hp => (by cases hp), fun c hc => ?_⟩
    rw [List.mem_singleton.mp hc]
    exact ⟨hpos, by omega⟩
  have hrun := run_turn h (hw.registered ▸ Finset.mem_insert_of_mem hmem) hans
  rw [hsocket] at hrun
  have hact : Agrees listen (handleRequest s fd text 0).1 :=
    (Action.request text 0 hfd).agrees h.agrees
  exact ⟨hrun, ⟨hact.watches, hact.bounded⟩, rfl, h.notDue, h.room⟩

/-! ## Whole tables -/

/-- A connection to be made: its descriptor, its address, and the text it
sends. -/
structure Caller where
  (fd : ℕ) (addr : InAddr) (text : Bytes)

/-- A caller that can be let in and announces a binding. -/
structure Caller.Binds (c : Caller) (b : Binding) : Prop where
  small : c.fd < slots
  binding : bindingOf c.text = some b
  noNul : (0 : UInt8) ∉ c.text
  fits : c.text.length < bufferSize

/-- The slot of a connection from an address that has bound. -/
def Connected (c : ClientInfo) (addr : InAddr) (b : Binding) : Prop :=
  c.enable = true ∧ c.esp8266 = true ∧ Stores c b
    ∧ c.globalIp = CArray.print 16 (inetNtoa addr)

/-- A text that announces something is not empty. -/
theorem length_pos_of_bindingOf {text : Bytes} {b : Binding} (h : bindingOf text = some b) :
    0 < text.length := by
  refine List.length_pos_iff.mpr ?_
  rintro rfl
  have hnone : bindingOf [] = none := rfl
  rw [hnone] at h
  cases h

/-- What happens when a caller joins: it is let in, and its text arrives. -/
def joinLabels (listen : ℕ) (c : Caller) : List Label :=
  [.check 0, .wait [listen], .handle ⟨some (c.fd, c.addr), true, [], false, 0⟩]
    ++ [.check 0, .wait [c.fd], .handle (receive c.text)]

theorem joinLabels_admitted {listen : ℕ} {c : Caller} {b : Binding} (h : c.Binds b) :
    ∀ l ∈ joinLabels listen c, ∀ x ∈ l.admitted, x < slots := by
  have hadmitted : (joinLabels listen c).filterMap Label.admitted = [c.fd] := rfl
  intro l hl x hx
  have : x ∈ (joinLabels listen c).filterMap Label.admitted :=
    List.mem_filterMap.mpr ⟨l, hl, hx⟩
  rw [hadmitted, List.mem_singleton] at this
  exact this ▸ h.small

/-- **A caller joins.** -/
theorem run_join {listen : ℕ} {s : Server} (h : Idle listen s) {c : Caller} {b : Binding}
    (hc : c.Binds b) (hne : c.fd ≠ listen) (hfree : (s.clientList c.fd).enable = false) :
    ∃ s' tr, Runs.run step s (joinLabels listen c) = some (s', tr)
      ∧ Idle listen s' ∧ Connected (s'.clientList c.fd) c.addr b
      ∧ ∀ i, i ≠ c.fd → s'.clientList i = s.clientList i := by
  obtain ⟨s₁, tr₁, hrun₁, hidle₁, hlist₁⟩ := run_accept h hc.small hne hfree c.addr
  have hslot : s₁.clientList c.fd = newClient 0 c.addr := by
    rw [hlist₁, Function.update_self]
  have hen : (s₁.clientList c.fd).enable = true := hslot ▸ rfl
  obtain ⟨hrun₂, hidle₂⟩ := run_request hidle₁ hen hc.noNul (length_pos_of_bindingOf hc.binding)
    hc.fits
  refine ⟨_, _, Runs.run_append hrun₁ hrun₂, hidle₂, ?_, fun i hi => ?_⟩
  · obtain ⟨t, ht⟩ := handleRequest_clientList s₁ c.fd c.text 0
    show Connected ((handleRequest s₁ c.fd c.text 0).1.clientList c.fd) c.addr b
    rw [ht, Function.update_self]
    rcases bound_cases c.text with ⟨hnone, -⟩ | ⟨b', args, hb', hreq, hst⟩
    · rw [hc.binding] at hnone
      cases hnone
    · obtain rfl : b = b' := Option.some.inj (hc.binding.symm.trans hb')
      rw [hreq]
      exact ⟨hen, rfl, hst (s₁.clientList c.fd), congrArg ClientInfo.globalIp hslot⟩
  · obtain ⟨t, ht⟩ := handleRequest_clientList s₁ c.fd c.text 0
    show (handleRequest s₁ c.fd c.text 0).1.clientList i = s.clientList i
    rw [ht, Function.update_of_ne hi, hlist₁, Function.update_of_ne hi]

/-- **Callers with distinct descriptors join one after the other.** -/
theorem run_population {listen : ℕ} {s : Server} (h : Idle listen s) {cs : List Caller}
    (hdistinct : (cs.map Caller.fd).Nodup)
    (hcs : ∀ c ∈ cs, (∃ b, c.Binds b) ∧ c.fd ≠ listen ∧ (s.clientList c.fd).enable = false) :
    ∃ labels s' tr, Runs.run step s labels = some (s', tr) ∧ Idle listen s'
      ∧ (∀ l ∈ labels, ∀ x ∈ l.admitted, x < slots)
      ∧ (∀ c ∈ cs, ∀ b, c.Binds b → Connected (s'.clientList c.fd) c.addr b)
      ∧ ∀ i, i ∉ cs.map Caller.fd → s'.clientList i = s.clientList i := by
  induction cs generalizing s with
  | nil => exact ⟨[], s, [], rfl, h, List.forall_mem_nil _, List.forall_mem_nil _, fun _ _ => rfl⟩
  | cons c cs ih =>
    obtain ⟨hnew, hdistinct⟩ := List.nodup_cons.mp hdistinct
    obtain ⟨⟨⟨b, hb⟩, hne, hfree⟩, hcs⟩ := List.forall_mem_cons.mp hcs
    obtain ⟨s₁, tr₁, hrun₁, hidle₁, hslot₁, hkeep₁⟩ := run_join h hb hne hfree
    have hother : ∀ c' ∈ cs, c'.fd ≠ c.fd := fun c' hc' heq =>
      hnew (heq ▸ List.mem_map_of_mem hc')
    obtain ⟨labels, s', tr, hrun, hidle, hsmall, hslots, hkeep⟩ := ih hidle₁ hdistinct
      (fun c' hc' => ⟨(hcs c' hc').1, (hcs c' hc').2.1,
        (hkeep₁ _ (hother c' hc')).symm ▸ (hcs c' hc').2.2⟩)
    refine ⟨_, s', _, Runs.run_append hrun₁ hrun, hidle, fun l hl => ?_, fun c' hc' b' hb' => ?_,
      fun i hi => ?_⟩
    · rcases List.mem_append.mp hl with hl | hl
      · exact joinLabels_admitted hb l hl
      · exact hsmall l hl
    · rcases List.mem_cons.mp hc' with rfl | hc'
      · obtain rfl : b' = b := Option.some.inj (hb'.binding.symm.trans hb.binding)
        rw [hkeep _ hnew]
        exact hslot₁
      · exact hslots c' hc' b' hb'
    · rw [List.map_cons, List.mem_cons, not_or] at hi
      rw [hkeep i hi.2, hkeep₁ i hi.1]

/-- **Every table of bound connections is reached by an execution.** -/
theorem execute_population {listenFd : ℕ} (memory : ClientList) (portWarn : UInt16)
    {cs : List Caller} (hdistinct : (cs.map Caller.fd).Nodup)
    (hcs : ∀ c ∈ cs, (∃ b, c.Binds b) ∧ c.fd ≠ listenFd) :
    ∃ labels s tr, execute memory listenFd portWarn labels = some (s, tr) ∧ Idle listenFd s
      ∧ (∀ l ∈ labels, ∀ x ∈ l.admitted, x < slots)
      ∧ (∀ c ∈ cs, ∀ b, c.Binds b → Connected (s.clientList c.fd) c.addr b)
      ∧ ∀ i, i ∉ cs.map Caller.fd → (s.clientList i).enable = false := by
  have hboot : Idle listenFd (bootState memory listenFd portWarn) := idle_boot
  obtain ⟨labels, s, tr, hrun, hidle, hsmall, hslots, hkeep⟩ :=
    run_population hboot hdistinct (fun c hc => ⟨(hcs c hc).1, (hcs c hc).2, rfl⟩)
  refine ⟨labels, s, _, execute_eq_some.mpr ⟨tr, hrun, rfl⟩, hidle, hsmall, hslots,
    fun i hi => ?_⟩
  rw [hkeep i hi]
  rfl

end Server
