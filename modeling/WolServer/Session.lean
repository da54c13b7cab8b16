import WolServer.Request

/-!
# Sessions

Four things have to agree for the server to know its connections: which
descriptors the kernel has open, which ones the epoll instance watches, the
counter of `Lib_Epoll`, and the flags of the table. Accepting, failing to
register, a closing peer and a timeout each change several of them, in
different functions.

`Server.Action` lists what the server ever does to that state – let a
connection in, turn it away, drop it, answer a request – and
`Server.execute_invariant` is the induction rule over executions: a property
of the state and the effects so far that every action keeps holds of every
execution. All later results about runs come from that rule, so none of them
looks at the handler, the sweep or the loop again.

The results of this module: the four agree in every reachable state
(`Server.session_table`), and every access to the table is in bounds exactly
as long as `accept` returns small descriptors (`Server.accesses_lt_iff`).
-/

namespace Server

/-! ## The slots in use -/

/-- The slots of a table that are in use. -/
def enabledSlots (list : ClientList) : Finset ℕ :=
  (Finset.range slots).filter (fun i => (list i).enable = true)

theorem mem_enabledSlots {list : ClientList} {i : ℕ} :
    i ∈ enabledSlots list ↔ i < slots ∧ (list i).enable = true := by
  rw [enabledSlots, Finset.mem_filter, Finset.mem_range]

theorem enabledSlots_update_true {list : ClientList} {fd : ℕ} {c : ClientInfo} (hfd : fd < slots)
    (hc : c.enable = true) :
    enabledSlots (Function.update list fd c) = insert fd (enabledSlots list) := by
  ext i
  rw [Finset.mem_insert, mem_enabledSlots, mem_enabledSlots, Function.update_apply]
  by_cases hi : i = fd
  · rw [if_pos hi]
    exact ⟨fun _ => Or.inl hi, fun _ => ⟨hi ▸ hfd, hc⟩⟩
  · rw [if_neg hi, or_iff_right hi]

theorem enabledSlots_update_false {list : ClientList} {fd : ℕ} {c : ClientInfo}
    (hc : c.enable = false) :
    enabledSlots (Function.update list fd c) = (enabledSlots list).erase fd := by
  ext i
  rw [Finset.mem_erase, mem_enabledSlots, mem_enabledSlots, Function.update_apply]
  by_cases hi : i = fd
  · rw [if_pos hi, hc]
    exact ⟨fun h => absurd h.2 Bool.false_ne_true, fun h => absurd hi h.1⟩
  · rw [if_neg hi, and_iff_right hi]

theorem enabledSlots_congr {list list' : ClientList}
    (h : ∀ i, (list' i).enable = (list i).enable) : enabledSlots list' = enabledSlots list := by
  ext i
  rw [mem_enabledSlots, mem_enabledSlots, h]

theorem card_enabledSlots_le (list : ClientList) : (enabledSlots list).card ≤ slots :=
  (Finset.card_filter_le _ _).trans (Finset.card_range slots).le

/-- The counter of `Lib_Epoll` has room for every slot. -/
theorem card_enabledSlots_lt (list : ClientList) : (enabledSlots list).card + 2 < 2 ^ 32 := by
  have hle := card_enabledSlots_le list
  rw [slots_eq] at hle
  omega

/-- **The table agrees with the epoll object**, and uses its own slots
only. -/
structure Agrees (listen : ℕ) (s : Server) : Prop where
  watches : s.epoll.Watches listen (enabledSlots s.clientList)
  bounded : ∀ i, (s.clientList i).enable = true → i < slots

/-- A slot in use belongs to a connection that is not the listening
descriptor. -/
theorem Agrees.mem {listen fd : ℕ} {s : Server} (h : Agrees listen s)
    (hfd : (s.clientList fd).enable = true) : fd ∈ enabledSlots s.clientList :=
  mem_enabledSlots.mpr ⟨h.bounded fd hfd, hfd⟩

/-! ## Actions -/

/-- **What the server ever does**, with its effects. -/
inductive Action (listen : ℕ) (s : Server) : List Effect → Server → Prop
  /-- The loop goes on. -/
  | idle (phase : Phase) (timestampChecktimeout : ℕ) :
      Action listen s [] { s with phase := phase, timestampChecktimeout := timestampChecktimeout }
  /-- A slot is looked at. -/
  | look {i : ℕ} (hi : i < slots) : Action listen s [.access i] s
  /-- A connection is let in. -/
  | letIn {fd now : ℕ} {addr : InAddr} {e : LibEpoll} (hnew : fd ∉ s.epoll.kernel.opened)
      (hfd : fd < slots) (hptr : e.mPtr = s.epoll.mPtr)
      (he : e.Watches listen (insert fd (enabledSlots s.clientList))) :
      Action listen s [.accepted fd, .access fd]
        { s with epoll := e, clientList := Function.update s.clientList fd (newClient now addr) }
  /-- A connection is turned away. -/
  | refuse {fd : ℕ} {e : LibEpoll} (hnew : fd ∉ s.epoll.kernel.opened)
      (hptr : e.mPtr = s.epoll.mPtr) (he : e.Watches listen (enabledSlots s.clientList)) :
      Action listen s [.accepted fd, .closed fd] { s with epoll := e }
  /-- A connection is dropped: its peer has closed, or its time is up. -/
  | drop {fd timestamp : ℕ} {e : LibEpoll} (hfd : (s.clientList fd).enable = true)
      (hptr : e.mPtr = s.epoll.mPtr)
      (he : e.Watches listen ((enabledSlots s.clientList).erase fd)) :
      Action listen s [.access fd, .closed fd]
        { s with epoll := e
                 clientList := Function.update s.clientList fd
                   { s.clientList fd with enable := false, timestamp := timestamp } }
  /-- A request is answered. -/
  | request {fd : ℕ} (strRecv : Bytes) (now : ℕ) (hfd : (s.clientList fd).enable = true) :
      Action listen s (handleRequest s fd strRecv now).2 (handleRequest s fd strRecv now).1

/-- **Every action keeps the table in agreement.** -/
theorem Action.agrees {listen : ℕ} {s s' : Server} {es : List Effect} (h : Agrees listen s)
    (ha : Action listen s es s') : Agrees listen s' := by
  cases ha with
  | idle phase t => exact ⟨h.watches, h.bounded⟩
  | look hi => exact h
  | @letIn fd now addr e hnew hfd hptr he =>
    refine ⟨?_, fun i hi => ?_⟩
    · show e.Watches listen (enabledSlots (Function.update s.clientList fd _))
      rw [enabledSlots_update_true hfd rfl]
      exact he
    · by_cases hif : i = fd
      · rw [hif]
        exact hfd
      · exact h.bounded i (by simpa only [Function.update_of_ne hif] using hi)
  | refuse hnew hptr he => exact ⟨he, h.bounded⟩
  | @drop fd timestamp e hfd hptr he =>
    refine ⟨?_, fun i hi => ?_⟩
    · show e.Watches listen (enabledSlots (Function.update s.clientList fd _))
      rw [enabledSlots_update_false rfl]
      exact he
    · by_cases hif : i = fd
      · rw [hif]
        exact h.bounded fd hfd
      · exact h.bounded i (by simpa only [Function.update_of_ne hif] using hi)
  | @request fd strRecv now hfd =>
    have henable := handleRequest_enable s fd strRecv now
    refine ⟨?_, fun i hi => h.bounded i (henable i ▸ hi)⟩
    rw [enabledSlots_congr henable]
    exact h.watches

/-- A sequence of actions. -/
inductive Actions (listen : ℕ) : Server → List Effect → Server → Prop
  | nil (s : Server) : Actions listen s [] s
  | cons {s s₁ s' : Server} {es es' : List Effect} (h : Action listen s es s₁)
      (hs : Actions listen s₁ es' s') : Actions listen s (es ++ es') s'

theorem Action.single {listen : ℕ} {s s' : Server} {es : List Effect}
    (h : Action listen s es s') : Actions listen s es s' := by
  have := Actions.cons h (Actions.nil s')
  rwa [List.append_nil] at this

theorem Actions.append {listen : ℕ} {s s₁ s' : Server} {es es' : List Effect}
    (h : Actions listen s es s₁) (h' : Actions listen s₁ es' s') :
    Actions listen s (es ++ es') s' := by
  induction h with
  | nil s => exact h'
  | cons h _ ih =>
    rw [List.append_assoc]
    exact Actions.cons h (ih h')

theorem Actions.agrees {listen : ℕ} {s s' : Server} {es : List Effect} (h : Agrees listen s)
    (hs : Actions listen s es s') : Agrees listen s' := by
  induction hs with
  | nil s => exact h
  | cons ha _ ih => exact ih (ha.agrees h)

/-! ## Every step is a sequence of actions -/

/-- The descriptor of a connection that is let in: `accept` returned it, and
it can be registered. -/
def Label.admitted : Label → Option ℕ
  | .handle env => if env.addOk = true then env.accept.map Prod.fst else none
  | _ => none

/-- What a step was. -/
theorem step_cases {s s' : Server} {l : Label} {es : List Effect}
    (hs : step s l = some (s', es)) :
    (∃ now, l = .check now ∧ s.phase = .loop ∧ s.epoll.loop = true
        ∧ s' = { (checkTimeout s now).1 with phase := .wait } ∧ es = (checkTimeout s now).2)
      ∨ (∃ now, l = .check now ∧ s.phase = .loop ∧ ¬ s.epoll.loop = true
        ∧ s' = { s with phase := .out } ∧ es = [])
      ∨ (∃ events, l = .wait events ∧ s.phase = .wait ∧ CanReport s.epoll events
        ∧ s' = { s with phase := .next events } ∧ es = [])
      ∨ (∃ fd rest env, l = .handle env ∧ s.phase = .dispatch (fd :: rest)
        ∧ CanAnswer s.epoll fd env
        ∧ s' = { (handleSocket s fd env).1 with phase := .next rest }
        ∧ es = (handleSocket s fd env).2) := by
  unfold step at hs
  split at hs
  · rename_i now hphase
    split at hs
    · rename_i hloop
      obtain ⟨rfl, rfl⟩ := Prod.mk.inj (Option.some.inj hs)
      exact Or.inl ⟨now, rfl, hphase, hloop, rfl, rfl⟩
    · rename_i hloop
      obtain ⟨rfl, rfl⟩ := Prod.mk.inj (Option.some.inj hs)
      exact Or.inr (Or.inl ⟨now, rfl, hphase, hloop, rfl, rfl⟩)
  · rename_i events hphase
    split at hs
    · rename_i hrep
      obtain ⟨rfl, rfl⟩ := Prod.mk.inj (Option.some.inj hs)
      exact Or.inr (Or.inr (Or.inl ⟨events, rfl, hphase, hrep, rfl, rfl⟩))
    · cases hs
  · rename_i fd rest env hphase
    split at hs
    · rename_i hans
      obtain ⟨rfl, rfl⟩ := Prod.mk.inj (Option.some.inj hs)
      exact Or.inr (Or.inr (Or.inr ⟨fd, rest, env, rfl, hphase, hans, rfl, rfl⟩))
    · cases hs
  · cases hs

/-! ## Only requests are answered -/

/-- The sweep sends nothing. -/
theorem checkTimeout_isSend (s : Server) (timestamp : ℕ) :
    ∀ e ∈ (checkTimeout s timestamp).2, e.isSend = false := by
  have hstep : ∀ (s : Server) (i : ℕ), ∀ e ∈ (sweepStep timestamp s i).2, e.isSend = false := by
    intro s i e he
    unfold sweepStep at he
    split at he
    · rcases List.mem_cons.mp he with rfl | he
      · rfl
      · split at he
        · rw [List.mem_singleton.mp he]
          rfl
        · exact absurd he List.not_mem_nil
    · rw [List.mem_singleton.mp he]
      rfl
  have hsweep : ∀ (n i : ℕ) (s : Server),
      ∀ e ∈ (sweepFrom timestamp i n s).2, e.isSend = false := by
    intro n
    induction n with
    | zero => exact fun i s e he => absurd he List.not_mem_nil
    | succ n ih =>
      intro i s e he
      rcases List.mem_append.mp he with he | he
      · exact hstep s i e he
      · exact ih (i + 1) _ e he
  unfold checkTimeout
  split
  · exact hsweep _ _ _
  · exact List.forall_mem_nil _

theorem acceptClient_isSend (s : Server) (env : Env) :
    ∀ e ∈ (acceptClient s env).2, e.isSend = false := by
  unfold acceptClient
  cases env.accept with
  | none => exact List.forall_mem_nil _
  | some p =>
    dsimp only
    split
    · exact List.forall_mem_cons.mpr ⟨rfl, List.forall_mem_singleton.mpr rfl⟩
    · exact List.forall_mem_cons.mpr ⟨rfl, List.forall_mem_singleton.mpr rfl⟩

theorem closeClient_isSend (s : Server) (fd : ℕ) :
    ∀ e ∈ (closeClient s fd).2, e.isSend = false := by
  unfold closeClient
  refine List.forall_mem_cons.mpr ⟨rfl, ?_⟩
  split
  · exact List.forall_mem_singleton.mpr rfl
  · exact List.forall_mem_nil _

/-- **The data that a step reads**: the descriptor, and what the outside world
answers. -/
def reads (s : Server) : Label → Option (ℕ × Env)
  | .handle env =>
    match s.phase with
    | .dispatch (fd :: _) =>
      if s.epoll.checkListen fd = true ∨ env.closed = true then none else some (fd, env)
    | _ => none
  | _ => none

/-- **A step that sends something** answers the data it reads. -/
theorem step_reads {s s' : Server} {l : Label} {es : List Effect}
    (hs : step s l = some (s', es)) :
    (reads s l = none ∧ ∀ e ∈ es, e.isSend = false)
      ∨ ∃ fd env, reads s l = some (fd, env)
        ∧ es = (handleRequest s fd (drain env.chunks) env.now).2 := by
  rcases step_cases hs with ⟨now, rfl, -, -, -, rfl⟩ | ⟨now, rfl, -, -, -, rfl⟩
    | ⟨events, rfl, -, -, -, rfl⟩ | ⟨fd, rest, env, rfl, hphase, -, -, rfl⟩
  · exact Or.inl ⟨rfl, checkTimeout_isSend s now⟩
  · exact Or.inl ⟨rfl, List.forall_mem_nil _⟩
  · exact Or.inl ⟨rfl, List.forall_mem_nil _⟩
  have hreads : reads s (.handle env)
      = if s.epoll.checkListen fd = true ∨ env.closed = true then none else some (fd, env) := by
    unfold reads
    rw [hphase]
  rw [hreads]
  unfold handleSocket
  by_cases hl : s.epoll.checkListen fd = true
  · rw [if_pos hl, if_pos (Or.inl hl)]
    exact Or.inl ⟨rfl, acceptClient_isSend s env⟩
  by_cases hc : env.closed = true
  · rw [if_neg hl, if_pos hc, if_pos (Or.inr hc)]
    exact Or.inl ⟨rfl, closeClient_isSend s fd⟩
  · rw [if_neg hl, if_neg hc, if_neg (not_or.mpr ⟨hl, hc⟩)]
    exact Or.inr ⟨fd, env, rfl, rfl⟩

/-! ## The steps of a session -/

/-- `handle_socket` is one action, and only its own descriptor can leave the
epoll instance. -/
theorem handleSocket_action {listen fd : ℕ} {s : Server} {env : Env} (h : Agrees listen s)
    (hfd : fd ∈ s.epoll.kernel.registered) (hans : CanAnswer s.epoll fd env)
    (hsmall : ∀ x ∈ (Label.handle env).admitted, x < slots) :
    Action listen s (handleSocket s fd env).2 (handleSocket s fd env).1
      ∧ ∀ x ∈ s.epoll.kernel.registered, x ≠ fd →
        x ∈ (handleSocket s fd env).1.epoll.kernel.registered := by
  unfold handleSocket
  split
  · unfold acceptClient
    cases hacc : env.accept with
    | none => exact ⟨Action.idle s.phase s.timestampChecktimeout, fun x hx _ => hx⟩
    | some p =>
      obtain ⟨tmpFd, addr⟩ := p
      have hnew : tmpFd ∉ s.epoll.kernel.opened := (hans.1 (tmpFd, addr) hacc).2
      dsimp only
      cases hok : env.addOk with
      | true =>
        have hlt : tmpFd < slots := hsmall tmpFd (by simp [Label.admitted, hacc, hok])
        obtain ⟨e, hadd, he, hptr, -⟩ := h.watches.add hnew (card_enabledSlots_lt _)
        rw [hadd, if_pos rfl]
        refine ⟨Action.letIn hnew hlt hptr he, fun x hx _ => ?_⟩
        show x ∈ e.kernel.registered
        rw [he.registered, Finset.insert_comm, ← h.watches.registered]
        exact Finset.mem_insert_of_mem hx
      | false =>
        rw [LibEpoll.add_of_failure, if_neg Bool.false_ne_true]
        have he := h.watches.refuse hnew
        refine ⟨Action.refuse hnew rfl he, fun x hx _ => ?_⟩
        rw [h.watches.registered] at hx
        exact he.registered ▸ hx
  · rename_i hlisten
    have hne : fd ≠ listen := fun h' => hlisten (h.watches.checkListen_iff.mpr h')
    have hmem := h.watches.mem_clients hfd hne
    have henable := (mem_enabledSlots.mp hmem).2
    split
    · obtain ⟨e, hdel, he, hptr, -⟩ := h.watches.del hmem
      unfold closeClient
      rw [hdel]
      refine ⟨Action.drop henable hptr he, fun x hx hxfd => ?_⟩
      rw [h.watches.registered] at hx
      show x ∈ e.kernel.registered
      rw [he.registered]
      rcases Finset.mem_insert.mp hx with rfl | hx
      · exact Finset.mem_insert_self _ _
      · exact Finset.mem_insert_of_mem (Finset.mem_erase.mpr ⟨hxfd, hx⟩)
    · exact ⟨Action.request _ _ henable, fun x hx _ => hx⟩

/-- One pass of the sweep looks at a slot, or drops its connection. -/
theorem sweepStep_action {listen i : ℕ} {s : Server} (timestamp : ℕ) (h : Agrees listen s)
    (hi : i < slots) :
    Action listen s (sweepStep timestamp s i).2 (sweepStep timestamp s i).1 := by
  unfold sweepStep
  split
  · rename_i hdue
    obtain ⟨e, hdel, he, hptr, -⟩ := h.watches.del (h.mem hdue.1)
    rw [hdel]
    exact Action.drop hdue.1 hptr he
  · exact Action.look hi

theorem sweepFrom_actions {listen : ℕ} (timestamp n : ℕ) {i : ℕ} {s : Server}
    (h : Agrees listen s) (hi : i + n ≤ slots) :
    Actions listen s (sweepFrom timestamp i n s).2 (sweepFrom timestamp i n s).1 := by
  induction n generalizing i s with
  | zero => exact Actions.nil s
  | succ n ih =>
    have hstep := sweepStep_action timestamp h (show i < slots by omega)
    exact Actions.cons hstep (ih (hstep.agrees h) (by omega))

theorem checkTimeout_actions {listen : ℕ} {s : Server} (timestamp : ℕ) (h : Agrees listen s) :
    Actions listen s (checkTimeout s timestamp).2 (checkTimeout s timestamp).1 := by
  unfold checkTimeout
  split
  · have hidle : Action listen s [] { s with timestampChecktimeout := timestamp + 10000000 } :=
      Action.idle s.phase (timestamp + 10000000)
    have hsweep := sweepFrom_actions timestamp slots (i := 0) (hidle.agrees h)
      (Nat.zero_add slots).le
    have := Actions.cons hidle hsweep
    rwa [List.nil_append] at this
  · exact Actions.nil s

/-- The events still to dispatch are distinct, and registered. -/
def Pending (s : Server) : Prop :=
  match s.phase with
  | .dispatch events => events.Nodup ∧ ∀ fd ∈ events, fd ∈ s.epoll.kernel.registered
  | .out => False
  | _ => True

theorem pending_next {s : Server} {events : List ℕ} (hn : events.Nodup)
    (hr : ∀ fd ∈ events, fd ∈ s.epoll.kernel.registered) :
    Pending { s with phase := .next events } := by
  cases events with
  | nil => trivial
  | cons fd rest => exact ⟨hn, hr⟩

/-- **The invariant of a session**: the table agrees with the epoll object,
the events in flight are registered, and the loop has not ended. -/
structure Session (listen : ℕ) (s : Server) : Prop where
  agrees : Agrees listen s
  pending : Pending s

/-- The loop does not end: the listening descriptor is counted. -/
theorem Agrees.loop {listen : ℕ} {s : Server} (h : Agrees listen s) : s.epoll.loop = true := by
  have hpos : 0 < s.epoll.mNums.toNat := by
    rw [h.watches.nums]
    exact Finset.card_pos.mpr ⟨listen, Finset.mem_insert_self _ _⟩
  exact decide_eq_true (UInt32.lt_iff_toNat_lt.mpr hpos)

/-- **Every step is a sequence of actions, and keeps the invariant.** -/
theorem step_actions {listen : ℕ} {s s' : Server} {l : Label} {es : List Effect}
    (h : Session listen s) (hsmall : ∀ x ∈ l.admitted, x < slots)
    (hs : step s l = some (s', es)) : Actions listen s es s' ∧ Session listen s' := by
  rcases step_cases hs with ⟨now, -, -, -, rfl, rfl⟩ | ⟨now, -, -, hout, -⟩
    | ⟨events, -, -, hrep, rfl, rfl⟩ | ⟨fd, rest, env, rfl, hphase, hans, rfl, rfl⟩
  · have hchk := checkTimeout_actions now h.agrees
    have hagrees := hchk.agrees h.agrees
    refine ⟨?_, ⟨hagrees.watches, hagrees.bounded⟩, trivial⟩
    have hidle : Action listen (checkTimeout s now).1 []
        { (checkTimeout s now).1 with phase := .wait } :=
      Action.idle .wait (checkTimeout s now).1.timestampChecktimeout
    have := hchk.append hidle.single
    rwa [List.append_nil] at this
  · exact absurd h.agrees.loop hout
  · exact ⟨(Action.idle (.next events) s.timestampChecktimeout).single,
      ⟨h.agrees.watches, h.agrees.bounded⟩, pending_next hrep.1 hrep.2.1⟩
  · have hpend : (fd :: rest).Nodup ∧ ∀ x ∈ fd :: rest, x ∈ s.epoll.kernel.registered := by
      have := h.pending
      rwa [Pending, hphase] at this
    obtain ⟨hact, hkeep⟩ := handleSocket_action h.agrees (hpend.2 fd List.mem_cons_self)
      hans hsmall
    have hagrees := hact.agrees h.agrees
    have hnodup := List.nodup_cons.mp hpend.1
    refine ⟨?_, ⟨hagrees.watches, hagrees.bounded⟩, pending_next hnodup.2 (fun x hx => ?_)⟩
    · have hidle : Action listen (handleSocket s fd env).1 []
          { (handleSocket s fd env).1 with phase := .next rest } :=
        Action.idle (.next rest) (handleSocket s fd env).1.timestampChecktimeout
      have := hact.single.append hidle.single
      rwa [List.append_nil] at this
    · refine hkeep x (hpend.2 x (List.mem_cons_of_mem fd hx)) ?_
      rintro rfl
      exact hnodup.1 hx

/-! ## Executions -/

/-- The state in which the loop starts. -/
def bootState (memory : ClientList) (listenFd : ℕ) (portWarn : UInt16) : Server where
  epoll := { mCount := 512, mNums := 1, mListen := listenFd, mPtr := some portWarn,
             kernel := ⟨{listenFd}, {listenFd}, 0⟩ }
  clientList := fun i => { memory i with enable := false }
  timestampChecktimeout := 0
  phase := .loop

variable {memory : ClientList} {listenFd : ℕ} {portWarn : UInt16}

theorem boot_eq : boot memory listenFd portWarn
    = some (bootState memory listenFd portWarn, (List.range slots).map .access) := by
  have hobj : LibEpoll.getObject 512 = some
      { mCount := 512, mNums := 0, mListen := -1, mPtr := none, kernel := ⟨∅, ∅, 0⟩ } := rfl
  have hadd : ∀ e : LibEpoll, e.kernel = ⟨{listenFd}, ∅, 0⟩ → e.add listenFd true true
      = (true, { e with mNums := e.mNums + 1, mListen := listenFd,
                        kernel := ⟨{listenFd}, {listenFd}, 0⟩ }) := by
    intro e he
    have hctl : e.ctlAdd listenFd true
        = (true, { e with mNums := e.mNums + 1, kernel := ⟨{listenFd}, {listenFd}, 0⟩ }) := by
      rw [LibEpoll.ctlAdd, if_neg (LibEpoll.not_negative listenFd), Int.toNat_natCast, he,
        if_pos ⟨rfl, Finset.mem_singleton_self _, Finset.notMem_empty _⟩]
      rfl
    rw [LibEpoll.add, hctl]
    rfl
  rw [boot, hobj]
  dsimp only
  rw [hadd _ rfl, if_pos rfl]
  rfl

theorem execute_eq_some {labels : List Label} {s : Server} {tr : List Effect} :
    execute memory listenFd portWarn labels = some (s, tr) ↔
      ∃ tr', Runs.run step (bootState memory listenFd portWarn) labels = some (s, tr')
        ∧ tr = (List.range slots).map .access ++ tr' := by
  rw [execute, boot_eq]
  simp only [Option.map_eq_some_iff, Prod.mk.injEq]
  constructor
  · rintro ⟨⟨s', tr'⟩, hrun, rfl, rfl⟩
    exact ⟨tr', hrun, rfl⟩
  · rintro ⟨tr', hrun, rfl⟩
    exact ⟨(s, tr'), hrun, rfl, rfl⟩

/-- An execution goes on with a run from where it is. -/
theorem execute_append {labels labels' : List Label} {s s' : Server} {tr tr' : List Effect}
    (h : execute memory listenFd portWarn labels = some (s, tr))
    (hrun : Runs.run step s labels' = some (s', tr')) :
    execute memory listenFd portWarn (labels ++ labels') = some (s', tr ++ tr') := by
  obtain ⟨tr₁, hrun₁, rfl⟩ := execute_eq_some.mp h
  rw [List.append_assoc]
  exact execute_eq_some.mpr ⟨tr₁ ++ tr', Runs.run_append hrun₁ hrun, rfl⟩

theorem session_boot : Session listenFd (bootState memory listenFd portWarn) := by
  have hnone : enabledSlots (bootState memory listenFd portWarn).clientList = ∅ :=
    Finset.filter_eq_empty_iff.mpr (fun i _ => Bool.false_ne_true)
  refine ⟨⟨?_, fun i hi => absurd hi Bool.false_ne_true⟩, trivial⟩
  rw [hnone]
  exact ⟨rfl, rfl, rfl, rfl, Finset.notMem_empty _, rfl⟩

/-- **The rule for executions**: what holds of the booted server, and is
kept by every action of a server whose table agrees with its epoll object,
holds of every execution that lets in descriptors of the table only. -/
theorem execute_invariant (Inv : Server → List Effect → Prop)
    (hboot : Inv (bootState memory listenFd portWarn) ((List.range slots).map .access))
    (hact : ∀ {s s' es tr}, Agrees listenFd s → Inv s tr → Action listenFd s es s' →
      Inv s' (tr ++ es))
    {labels : List Label} {s : Server} {tr : List Effect}
    (hsmall : ∀ l ∈ labels, ∀ x ∈ l.admitted, x < slots)
    (h : execute memory listenFd portWarn labels = some (s, tr)) :
    Inv s tr ∧ Session listenFd s := by
  obtain ⟨tr', hrun, rfl⟩ := execute_eq_some.mp h
  have hacts : ∀ {s s' es}, Actions listenFd s es s' → Agrees listenFd s → ∀ {tr}, Inv s tr →
      Inv s' (tr ++ es) := by
    intro s s' es hs
    induction hs with
    | nil s =>
      intro _ tr hi
      rwa [List.append_nil]
    | cons ha _ ih =>
      intro hag tr hi
      rw [← List.append_assoc]
      exact ih (ha.agrees hag) (hact hag hi ha)
  refine Runs.run_invariant (fun s tr => Inv s tr ∧ Session listenFd s)
    (fun l => ∀ x ∈ l.admitted, x < slots) (fun hi hL hs => ?_) ⟨hboot, session_boot⟩
    hsmall hrun
  obtain ⟨has, hsess⟩ := step_actions hi.2 hL hs
  exact ⟨hacts has hi.2.agrees hi.1, hsess⟩

/-! ## The session table -/

/-- The server never closes its listening descriptor. -/
theorem Action.not_closed_listen {listen : ℕ} {s s' : Server} {es : List Effect}
    (h : Agrees listen s) (ha : Action listen s es s') : Effect.closed listen ∉ es := by
  have hopen : listen ∈ s.epoll.kernel.opened := h.watches.opened ▸ Finset.mem_insert_self _ _
  cases ha with
  | idle phase t => simp
  | look hi => simp
  | letIn hnew hfd hptr he => simp
  | @refuse fd e hnew hptr he =>
    have hne : listen ≠ fd := fun h' => hnew (h' ▸ hopen)
    simp [hne]
  | @drop fd t e hfd hptr he =>
    have hne : listen ≠ fd := fun h' => h.watches.separate (h' ▸ h.mem hfd)
    simp [hne]
  | request strRecv now hfd =>
    obtain ⟨es, hes, hans⟩ := handleRequest_answers strRecv now (h.bounded _ hfd)
    rw [hes]
    rintro (_ | ⟨_, he⟩)
    rcases hans _ he with ⟨i, -, hi⟩ | hs
    · cases hi
    · cases hs

/-- **The session table.** In every state of every execution that lets in
descriptors of the table only: the registered descriptors are the listening
one and those of the enabled slots; the other open descriptors are exactly
the enabled slots, and no descriptor was closed that was not open; the
counter counts the registered descriptors; the listening descriptor is known,
is not taken for a client and never closed; and the loop goes on. -/
theorem session_table {labels : List Label} {s : Server} {tr : List Effect}
    (hsmall : ∀ l ∈ labels, ∀ x ∈ l.admitted, x < slots)
    (h : execute memory listenFd portWarn labels = some (s, tr)) :
    (∀ fd, fd ∈ s.epoll.kernel.registered ↔ fd = listenFd ∨ (s.clientList fd).enable = true)
      ∧ (∀ fd, fd ∈ s.epoll.kernel.opened ∧ fd ≠ listenFd ↔ (s.clientList fd).enable = true)
      ∧ s.epoll.kernel.strayCloses = 0
      ∧ s.epoll.mNums.toNat = s.epoll.kernel.registered.card
      ∧ s.epoll.mListen = listenFd
      ∧ (s.clientList listenFd).enable = false
      ∧ Effect.closed listenFd ∉ tr
      ∧ s.epoll.loop = true := by
  obtain ⟨hclosed, hsess⟩ := execute_invariant (fun _ tr => Effect.closed listenFd ∉ tr)
    (by simp) (fun hag hi ha => by
      rw [List.mem_append, not_or]
      exact ⟨hi, ha.not_closed_listen hag⟩) hsmall h
  have hag := hsess.agrees
  have hw := hag.watches
  have hclient : ∀ fd, fd ∈ enabledSlots s.clientList ↔ (s.clientList fd).enable = true :=
    fun fd => ⟨fun hm => (mem_enabledSlots.mp hm).2, hag.mem⟩
  refine ⟨fun fd => ?_, fun fd => ?_, hw.strays, ?_, hw.listens, ?_, hclosed, hag.loop⟩
  · rw [hw.registered, Finset.mem_insert, hclient]
  · rw [hw.opened, Finset.mem_insert, hclient, or_and_right, and_not_self_iff, false_or,
      and_iff_left_iff_imp]
    rintro hen rfl
    exact hw.separate (hag.mem hen)
  · rw [hw.nums, hw.registered]
  · exact Bool.eq_false_iff.mpr (fun hen => hw.separate (hag.mem hen))

/-- Memory that happens to hold zeros. -/
def zeroMemory : ClientList := fun _ =>
  ⟨false, false, 0, CArray.zeroed 16, CArray.zeroed 32, CArray.zeroed 16, CArray.zeroed 16⟩

/-- The answers of a call in which nothing arrives. -/
def quiet : Env := ⟨none, true, [], false, 0⟩

/-- The answers of a call in which a connection sends a text. -/
def receive (text : Bytes) : Env := { quiet with chunks := [text] }

unseal slots bufferSize in
set_option maxRecDepth 8000 in
/-- One connection is let in, one is turned away, and the first one closes. -/
theorem session_table_run :
    ∃ s tr, execute zeroMemory 3 50174
      [.check 0, .wait [3], .handle { quiet with accept := some (5, ⟨192, 168, 0, 7⟩) },
        .check 0, .wait [5, 3], .handle { quiet with closed := true },
        .handle { quiet with accept := some (5, ⟨192, 168, 0, 8⟩), addOk := false }]
        = some (s, tr)
      ∧ s.epoll.mNums.toNat = s.epoll.kernel.registered.card ∧ s.epoll.loop = true := by
  obtain ⟨⟨s, tr⟩, h⟩ := Option.isSome_iff_exists.mp (show (execute zeroMemory 3 50174
      [.check 0, .wait [3], .handle { quiet with accept := some (5, ⟨192, 168, 0, 7⟩) },
        .check 0, .wait [5, 3], .handle { quiet with closed := true },
        .handle { quiet with accept := some (5, ⟨192, 168, 0, 8⟩), addOk := false }]).isSome = true
      by decide)
  have htable := session_table (by decide) h
  exact ⟨s, tr, h, htable.2.2.2.1, htable.2.2.2.2.2.2.2⟩

/-! ## Bounds -/

/-- An action looks at slots of the table. -/
theorem Action.access_lt {listen i : ℕ} {s s' : Server} {es : List Effect}
    (h : Agrees listen s) (ha : Action listen s es s') (hi : Effect.access i ∈ es) :
    i < slots := by
  cases ha with
  | idle phase t => simp at hi
  | look hlt =>
    obtain rfl : i = _ := by simpa using hi
    exact hlt
  | letIn hnew hfd hptr he =>
    obtain rfl : i = _ := by simpa using hi
    exact hfd
  | refuse hnew hptr he => simp at hi
  | drop hfd hptr he =>
    obtain rfl : i = _ := by simpa using hi
    exact h.bounded _ hfd
  | request strRecv now hfd =>
    obtain ⟨es, hes, hans⟩ := handleRequest_answers strRecv now (h.bounded _ hfd)
    rw [hes] at hi
    obtain _ | ⟨_, he⟩ := hi
    rcases hans _ he with ⟨j, hj, hij⟩ | hs
    · exact Effect.access.inj hij ▸ hj
    · cases hs

/-- A connection that is let in has its slot written. -/
theorem step_admits {listen x : ℕ} {s s' : Server} {l : Label} {es : List Effect}
    (h : Session listen s) (hx : x ∈ l.admitted) (hs : step s l = some (s', es)) :
    Effect.access x ∈ es := by
  cases l with
  | check now => cases hx
  | wait events => cases hx
  | handle env =>
    obtain ⟨hok, p, hacc, rfl⟩ : env.addOk = true ∧ ∃ p, env.accept = some p ∧ p.1 = x := by
      cases hok : env.addOk with
      | true =>
        rw [Label.admitted, if_pos hok] at hx
        exact ⟨rfl, Option.map_eq_some_iff.mp hx⟩
      | false =>
        rw [Label.admitted, if_neg (hok ▸ Bool.false_ne_true)] at hx
        cases hx
    rcases step_cases hs with ⟨_, hl, -⟩ | ⟨_, hl, -⟩ | ⟨_, hl, -⟩
      | ⟨fd, rest, env', hl, -, hans, -, rfl⟩
    · cases hl
    · cases hl
    · cases hl
    obtain rfl := Label.handle.inj hl
    obtain ⟨hlisten, hnew⟩ := hans.1 p hacc
    obtain ⟨e, hadd, -, -, -⟩ := h.agrees.watches.add hnew (card_enabledSlots_lt _)
    unfold handleSocket acceptClient
    rw [if_pos hlisten, hacc]
    dsimp only
    rw [hok, hadd, if_pos rfl]
    exact List.mem_cons_of_mem _ List.mem_cons_self

/-- **Every access to the table is in bounds exactly as long as every
connection that is let in has a descriptor below the number of slots.** -/
theorem accesses_lt_iff {labels : List Label} {s : Server} {tr : List Effect}
    (h : execute memory listenFd portWarn labels = some (s, tr)) :
    (∀ i, Effect.access i ∈ tr → i < slots)
      ↔ ∀ l ∈ labels, ∀ x ∈ l.admitted, x < slots := by
  constructor
  · intro hacc
    obtain ⟨tr', hrun, rfl⟩ := execute_eq_some.mp h
    have hacc' : ∀ i, Effect.access i ∈ tr' → i < slots :=
      fun i hi => hacc i (List.mem_append_right _ hi)
    clear h hacc
    have hsess : Session listenFd (bootState memory listenFd portWarn) := session_boot
    generalize bootState memory listenFd portWarn = s₀ at hrun hsess
    induction labels generalizing s₀ tr' with
    | nil => exact List.forall_mem_nil _
    | cons l labels ih =>
      obtain ⟨s₁, es, tr₁, hstep, hrest, rfl⟩ := Runs.run_cons_eq_some.mp hrun
      have hl : ∀ x ∈ l.admitted, x < slots := fun x hx =>
        hacc' x (List.mem_append_left _ (step_admits hsess hx hstep))
      exact List.forall_mem_cons.mpr ⟨hl, ih tr₁ (fun i hi => hacc' i (List.mem_append_right _ hi))
        s₁ hrest (step_actions hsess hl hstep).2⟩
  · intro hsmall
    refine (execute_invariant (fun _ tr => ∀ i, Effect.access i ∈ tr → i < slots)
      (fun i hi => ?_) (fun hag hi ha i hmem => ?_) hsmall h).1
    · obtain ⟨j, hj, he⟩ := List.mem_map.mp hi
      exact Effect.access.inj he ▸ List.mem_range.mp hj
    · exact (List.mem_append.mp hmem).elim (hi i) (ha.access_lt hag)

unseal slots bufferSize in
set_option maxRecDepth 8000 in
theorem accesses_lt_run :
    ∃ s tr, execute zeroMemory 3 50174
      [.check 0, .wait [3], .handle { quiet with accept := some (1023, ⟨192, 168, 0, 7⟩) }]
        = some (s, tr)
      ∧ ∀ i, Effect.access i ∈ tr → i < slots := by
  obtain ⟨⟨s, tr⟩, h⟩ := Option.isSome_iff_exists.mp (show (execute zeroMemory 3 50174
      [.check 0, .wait [3],
        .handle { quiet with accept := some (1023, ⟨192, 168, 0, 7⟩) }]).isSome = true
      by decide)
  exact ⟨s, tr, h, (accesses_lt_iff h).mpr (by decide)⟩

unseal slots bufferSize in
set_option maxRecDepth 8000 in
/-- A connection with descriptor 1024 has its slot written behind the
table. -/
theorem access_behind_table : ¬ ∀ (memory : ClientList) (listenFd : ℕ) (portWarn : UInt16)
    (labels : List Label) (s : Server) (tr : List Effect),
    execute memory listenFd portWarn labels = some (s, tr) →
      ∀ i, Effect.access i ∈ tr → i < slots := by
  intro hall
  have hbad : (Runs.run step (bootState zeroMemory 3 50174) [.check 0, .wait [3],
      .handle { quiet with accept := some (1024, ⟨192, 168, 0, 7⟩) }]).any
        (fun r => decide (Effect.access 1024 ∈ r.2)) = true := by decide
  obtain ⟨⟨s, tr⟩, hrun, hmem⟩ := (Option.any_eq_true _ _).mp hbad
  have := hall _ _ _ _ _ _ (execute_eq_some.mpr ⟨tr, hrun, rfl⟩) 1024
    (List.mem_append_right _ (of_decide_eq_true hmem))
  rw [slots_eq] at this
  exact absurd this (lt_irrefl _)

end Server
