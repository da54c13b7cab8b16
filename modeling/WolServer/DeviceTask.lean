import WolServer.Device
import WolServer.Ledger

/-!
# The task of the device

What is around the loop of `Device`: the outer loop of `wol_client_task`,
which looks whether the station is connected, makes a socket, looks the server
up, connects, stays in the inner loop until it is left, closes the socket, and
starts over a second later.

An `Attempt` is what the outside world answers in one iteration. The
descriptors are those of the system: `socket` returns one that is not open, so
a state knows which sockets the task holds (`ClientTask.held`). This set is not a
variable of the source, and nothing reads it but the system.

The task owns no socket when an iteration starts – unless the lookup has
failed in an earlier one, after the socket was made: that path goes on with
the next iteration and does not pass the `close` (`Device.settled_iff`).
-/

/-- What `gethostbyname` returns: the length of the addresses, and the first of
them. -/
structure HostEnt where
  /-- `h_length`. -/
  length : ℕ
  /-- `h_addr_list[0]`. -/
  addr : InAddr

/-- **What the outside world answers** in an iteration of the outer loop. -/
structure Attempt where
  /-- `wifi_check_connect_status`. -/
  connected : Bool
  /-- What `socket` returns, if it is a descriptor. -/
  socket : Option ℕ
  /-- Whether `setsockopt` succeeds. -/
  setsockopt : Bool
  /-- What each call of `gethostbyname` returns. -/
  gethostbyname : ℕ → Option HostEnt
  /-- Whether `connect` succeeds. -/
  connect : Bool
  /-- The turns of the inner loop, each with the descriptor that `wol_send` or
  `shutdown_send` gets in it. -/
  turns : List (Turn × ℕ)

/-- What the task does with sockets and the network, besides what `Act` says. -/
inductive TaskAct where
  /-- A socket is made, or closed. -/
  | socket (e : Ledger.Event ℕ)
  /-- `connect` to an address. -/
  | connecting (fd : ℕ) (addr : InAddr) (connected : Bool)
  /-- An act of the inner loop. -/
  | act (a : Act)
  /-- `wifi_station_disconnect` and `wifi_station_connect`. -/
  | reconnect

/-- **The variables of the outer loop**, and the sockets the task holds. -/
structure ClientTask where
  /-- `sockfd`, if it is not `-1`. -/
  sockfd : Option ℕ
  /-- How many connections in a row have failed. -/
  retryCount : ℕ
  /-- How often in a row the pin read low. -/
  ioWarnCount : ℕ
  /-- The sockets that are open. -/
  held : Finset ℕ

namespace Device

/-! ## An iteration -/

/-- The loop of `get_server_ip`: up to 31 calls of `gethostbyname`. -/
def lookup (gethostbyname : ℕ → Option HostEnt) : Option HostEnt :=
  (List.range 31).findSome? gethostbyname

/-- `get_server_ip`. -/
def getServerIp (domain : Bytes) (gethostbyname : ℕ → Option HostEnt) : Option InAddr :=
  if 0 < domain.length then
    match lookup gethostbyname with
    | some hptr => if hptr.length = 4 then some hptr.addr else none
    | none => none
  else none

/-- `SERVICE_ADDRESS`. -/
def serviceAddress : Bytes := lit "example.com"

/-- The sockets of an act: `wol_send` and `shutdown_send` make one, if they can,
and close it. -/
def actSockets (able : Bool) (fd : ℕ) : Act → List (Ledger.Event ℕ)
  | .wolSend _ | .shutdownSend _ => if able = true then [.opened fd, .closed fd] else []
  | _ => []

/-- What an act is to the task. -/
def taskActs (able : Bool) (fd : ℕ) (a : Act) : List TaskAct :=
  .act a :: (actSockets able fd a).map .socket

/-- **A turn of the inner loop**, with its sockets. A descriptor that is held is
not handed out. -/
def taskTurn (parse : Bytes → Option CJSON) (key : Bytes) (held : Finset ℕ) (d : Device)
    (l : Turn × ℕ) : Option (Device × List TaskAct) :=
  if l.2 ∈ held then none
  else (turn parse key d l.1).map (fun r => (r.1, r.2.flatMap (taskActs l.1.able l.2)))

/-- What is done once the address of the server is known: `connect`, and the
inner loop until it is left. A null pointer ends the task, and a loop that is
not left does not come back. -/
def serve (parse : Bytes → Option CJSON) (key : Bytes) (task : ClientTask) (fd : ℕ)
    (addr : InAddr) (a : Attempt) : Option (ClientTask × List TaskAct) :=
  let retryCount := task.retryCount + 1
  if a.connect = true then
    match Runs.run (taskTurn parse key task.held) (start task.ioWarnCount) a.turns with
    | none => none
    | some (d, acts) =>
      if d.ending = none ∨ d.ending = some .fault then none
      else some ({ task with retryCount := 0, ioWarnCount := d.ioWarnCount },
        .connecting fd addr true :: acts)
  else if 5 ≤ retryCount then
    some ({ task with retryCount := 0 }, [.connecting fd addr false, .reconnect])
  else some ({ task with retryCount := retryCount }, [.connecting fd addr false])

/-- `close(sockfd)`. -/
def close (task : ClientTask) (fd : ℕ) : ClientTask × List TaskAct :=
  ({ task with sockfd := none, held := task.held.erase fd }, [.socket (.closed fd)])

/-- **An iteration of the outer loop**, up to the pause at its end. -/
def iterate (parse : Bytes → Option CJSON) (key : Bytes) (task : ClientTask) (a : Attempt) :
    Option (ClientTask × List TaskAct) :=
  if a.connected = true then
    match a.socket with
    | none => some ({ task with sockfd := none }, [])
    | some fd =>
      if fd ∈ task.held then none
      else
        let task := { task with sockfd := some fd, held := insert fd task.held }
        let opened := TaskAct.socket (.opened fd)
        if a.setsockopt = true then
          match getServerIp serviceAddress a.gethostbyname with
          -- `continue`
          | none => some (task, [opened])
          | some addr =>
            (serve parse key task fd addr a).map (fun r =>
              ((close r.1 fd).1, opened :: (r.2 ++ (close r.1 fd).2)))
        else some ((close task fd).1, opened :: (close task fd).2)
  else some (task, [])

/-- The task when it starts. -/
def startTask : ClientTask := ⟨none, 0, 0, ∅⟩

/-- **The lookup fails after the socket was made.** -/
def LookupFails (a : Attempt) : Prop :=
  a.connected = true ∧ a.socket ≠ none ∧ a.setsockopt = true
    ∧ getServerIp serviceAddress a.gethostbyname = none

/-! ## The ledger of the sockets -/

/-- The event of a socket, if it is one. -/
def event : TaskAct → Option (Ledger.Event ℕ)
  | .socket e => some e
  | _ => none

/-- **The ledger of the sockets.** -/
def ledger (acts : List TaskAct) : List (Ledger.Event ℕ) := acts.filterMap event

open Ledger (Holds Settled)

variable {parse : Bytes → Option CJSON} {key : Bytes} {held : Finset ℕ} {d d' : Device}
  {task task' : ClientTask} {a : Attempt} {acts : List TaskAct} {es : List (Ledger.Event ℕ)}

theorem ledger_append (acts acts' : List TaskAct) :
    ledger (acts ++ acts') = ledger acts ++ ledger acts' := List.filterMap_append

/-- The acts of a turn close what they open. -/
theorem holds_taskActs (able : Bool) {fd : ℕ} (hfd : fd ∉ held) (l : List Act)
    (h : Holds es held) : Holds (es ++ ledger (l.flatMap (taskActs able fd))) held := by
  have hone : ∀ {es : List (Ledger.Event ℕ)} (a : Act), Holds es held →
      Holds (es ++ actSockets able fd a) held := by
    intro es a h
    have hused : Holds (es ++ if able = true then [.opened fd, .closed fd] else []) held := by
      split
      · exact h.used hfd
      · rw [List.append_nil]
        exact h
    have hnone : Holds (es ++ []) held := by
      rw [List.append_nil]
      exact h
    cases a with
    | wolSend mac => exact hused
    | shutdownSend mac => exact hused
    | send | received | reset => exact hnone
  have hledger : ∀ a : Act, ledger (taskActs able fd a) = actSockets able fd a := by
    intro a
    rw [ledger, taskActs, List.filterMap_cons_none rfl, List.filterMap_map]
    exact List.filterMap_some
  induction l generalizing es with
  | nil => simpa [ledger] using h
  | cons a l ih =>
    rw [List.flatMap_cons, ledger_append, hledger, ← List.append_assoc]
    exact ih (hone a h)

/-- **The inner loop holds the sockets it was started with.** -/
theorem holds_run {turns : List (Turn × ℕ)}
    (hrun : Runs.run (taskTurn parse key held) d turns = some (d', acts)) (h : Holds es held) :
    Holds (es ++ ledger acts) held := by
  have hstep : ∀ {d : Device} {l : Turn × ℕ} {d' : Device} {acts tr : List TaskAct},
      Holds (es ++ ledger tr) held → True → taskTurn parse key held d l = some (d', acts) →
      Holds (es ++ ledger (tr ++ acts)) held := by
    intro d l d' acts tr htr _ hturn
    unfold taskTurn at hturn
    split at hturn
    · cases hturn
    · rename_i hfd
      obtain ⟨r, -, hr⟩ := Option.map_eq_some_iff.mp hturn
      obtain ⟨-, rfl⟩ := Prod.mk.inj hr
      rw [ledger_append, ← List.append_assoc]
      exact holds_taskActs l.1.able hfd r.2 htr
  have hstart : Holds (es ++ ledger []) held := by
    simpa [ledger] using h
  exact Runs.run_invariant (fun _ tr => Holds (es ++ ledger tr) held) (fun _ => True) hstep
    hstart (fun _ _ => trivial) hrun

/-- Talking to the server holds the sockets, too. -/
theorem holds_serve {fd : ℕ} {addr : InAddr}
    (hserve : serve parse key task fd addr a = some (task', acts)) (h : Holds es task.held) :
    Holds (es ++ ledger acts) task.held ∧ task'.held = task.held := by
  have hnone : Holds (es ++ []) task.held := by
    rw [List.append_nil]
    exact h
  unfold serve at hserve
  dsimp only at hserve
  split_ifs at hserve
  · split at hserve
    · cases hserve
    · rename_i d loop hrun
      split_ifs at hserve
      obtain ⟨rfl, rfl⟩ := Prod.mk.inj (Option.some.inj hserve)
      have hloop := holds_run hrun h
      exact ⟨hloop, rfl⟩
  · obtain ⟨rfl, rfl⟩ := Prod.mk.inj (Option.some.inj hserve)
    exact ⟨hnone, rfl⟩
  · obtain ⟨rfl, rfl⟩ := Prod.mk.inj (Option.some.inj hserve)
    exact ⟨hnone, rfl⟩

/-- **What an iteration does to the sockets.** The ledger is kept up to date;
one more socket is held if the lookup fails, and the same ones if not. -/
theorem holds_iterate (hit : iterate parse key task a = some (task', acts))
    (h : Holds es task.held) :
    Holds (es ++ ledger acts) task'.held
      ∧ ((LookupFails a ∧ ∃ fd, task'.held = insert fd task.held)
        ∨ (¬ LookupFails a ∧ task'.held = task.held)) := by
  have hnone : Holds (es ++ ledger []) task.held := by
    simpa [ledger] using h
  by_cases hwifi : a.connected = true
  swap
  · rw [iterate, if_neg hwifi] at hit
    obtain ⟨rfl, rfl⟩ := Prod.mk.inj (Option.some.inj hit)
    exact ⟨hnone, Or.inr ⟨fun hf => hwifi hf.1, rfl⟩⟩
  cases hsocket : a.socket with
  | none =>
    rw [iterate, if_pos hwifi, hsocket] at hit
    obtain ⟨rfl, rfl⟩ := Prod.mk.inj (Option.some.inj hit)
    exact ⟨hnone, Or.inr ⟨fun hf => hf.2.1 hsocket, rfl⟩⟩
  | some fd =>
    rw [iterate, if_pos hwifi, hsocket] at hit
    dsimp only at hit
    by_cases hfd : fd ∈ task.held
    · rw [if_pos hfd] at hit
      cases hit
    rw [if_neg hfd] at hit
    have hopened := h.opened hfd
    have hclosed : (insert fd task.held).erase fd = task.held := Finset.erase_insert hfd
    by_cases hopt : a.setsockopt = true
    swap
    · rw [if_neg hopt] at hit
      obtain ⟨rfl, rfl⟩ := Prod.mk.inj (Option.some.inj hit)
      refine ⟨?_, Or.inr ⟨fun hf => hopt hf.2.2.1, hclosed⟩⟩
      show Holds (es ++ [.opened fd, .closed fd]) ((insert fd task.held).erase fd)
      rw [hclosed]
      exact h.used hfd
    rw [if_pos hopt] at hit
    cases hlookup : getServerIp serviceAddress a.gethostbyname with
    | none =>
      -- `continue` skips the `close`
      rw [hlookup] at hit
      obtain ⟨rfl, rfl⟩ := Prod.mk.inj (Option.some.inj hit)
      exact ⟨hopened, Or.inl ⟨⟨hwifi, by simp [hsocket], hopt, hlookup⟩, fd, rfl⟩⟩
    | some addr =>
      rw [hlookup] at hit
      obtain ⟨r, hserve, hr⟩ := Option.map_eq_some_iff.mp hit
      obtain ⟨rfl, rfl⟩ := Prod.mk.inj hr
      obtain ⟨hloop, hsame⟩ := holds_serve hserve hopened
      have hend := hloop.closed (Finset.mem_insert_self fd task.held)
      have hheld : r.1.held.erase fd = task.held := by
        rw [hsame]
        exact hclosed
      refine ⟨?_, Or.inr ⟨fun hf => ?_, hheld⟩⟩
      · show Holds (es ++ ledger (.socket (.opened fd) :: (r.2 ++ [.socket (.closed fd)])))
          (r.1.held.erase fd)
        rw [hsame]
        simpa [ledger, event] using hend
      · have hnot := hf.2.2.2
        rw [hlookup] at hnot
        cases hnot

/-- **What a run does to the sockets.** -/
theorem holds_attempts {attempts : List Attempt}
    (hrun : Runs.run (iterate parse key) task attempts = some (task', acts))
    (h : Holds es task.held) :
    Holds (es ++ ledger acts) task'.held ∧ task.held ⊆ task'.held
      ∧ (task'.held = ∅ ↔ task.held = ∅ ∧ ∀ a ∈ attempts, ¬ LookupFails a) := by
  induction attempts generalizing task es acts with
  | nil =>
    obtain ⟨rfl, rfl⟩ := Prod.mk.inj (Option.some.inj hrun)
    exact ⟨by simpa [ledger] using h, Finset.Subset.refl _, by simp⟩
  | cons a attempts ih =>
    obtain ⟨m, acts₁, acts₂, hit, hrest, rfl⟩ := Runs.run_cons_eq_some.mp hrun
    obtain ⟨hm, hcases⟩ := holds_iterate hit h
    obtain ⟨hend, hsub, hempty⟩ := ih hrest hm
    rw [ledger_append, ← List.append_assoc, hempty, List.forall_mem_cons]
    rcases hcases with ⟨hfails, fd, hheld⟩ | ⟨hok, hheld⟩
    · refine ⟨hend, ?_, ?_⟩
      · exact ((Finset.subset_insert fd _).trans hheld.symm.subset).trans hsub
      · rw [hheld]
        exact ⟨fun h => absurd h.1 (Finset.insert_ne_empty _ _), fun h => absurd hfails h.2.1⟩
    · rw [hheld] at hsub ⊢
      exact ⟨hend, hsub, ⟨fun h => ⟨h.1, hok, h.2⟩, fun h => ⟨h.1, h.2.2⟩⟩⟩

/-- **At the top of every iteration, each socket the task has opened has been
closed exactly once, if and only if no lookup has failed** after its socket
was made. -/
theorem settled_iff {attempts : List Attempt}
    (hrun : Runs.run (iterate parse key) startTask attempts = some (task, acts)) :
    Settled (ledger acts) ↔ ∀ a ∈ attempts, ¬ LookupFails a := by
  have hstart : Holds [] startTask.held := Ledger.holds_nil
  obtain ⟨hend, -, hempty⟩ := holds_attempts hrun hstart
  rw [List.nil_append] at hend
  rw [hend.settled_iff_empty, hempty]
  exact ⟨And.right, fun h => ⟨rfl, h⟩⟩

/-- An attempt in which the lookup answers this, and the server closes the
connection at once. -/
def attemptWith (hptr : Option HostEnt) : Attempt :=
  ⟨true, some 3, true, fun _ => hptr, true, [(turnAt 0 .closed, 4)]⟩

theorem settled_iff_closed :
    ∃ task acts, Runs.run (iterate CJSON.parse (lit "a")) startTask
        [attemptWith (some ⟨4, ⟨192, 168, 0, 1⟩⟩)] = some (task, acts) ∧ Settled (ledger acts) := by
  obtain ⟨task, acts, hrun⟩ : ∃ task acts, Runs.run (iterate CJSON.parse (lit "a")) startTask
      [attemptWith (some ⟨4, ⟨192, 168, 0, 1⟩⟩)] = some (task, acts) := ⟨_, _, rfl⟩
  refine ⟨task, acts, hrun, (settled_iff hrun).mpr (List.forall_mem_singleton.mpr ?_)⟩
  rintro ⟨-, -, -, hlookup⟩
  cases hlookup

/-- A lookup that fails leaves a socket open. -/
theorem socket_left_open :
    ¬ ∀ (parse : Bytes → Option CJSON) (key : Bytes) (attempts : List Attempt) (task : ClientTask)
      (acts : List TaskAct), Runs.run (iterate parse key) startTask attempts = some (task, acts) →
      Settled (ledger acts) := by
  intro hall
  have hopen : Holds [Ledger.Event.opened 3] {3} := Ledger.holds_nil.opened (Finset.notMem_empty 3)
  have hsettled := hall CJSON.parse (lit "a") [attemptWith none] _ _ rfl
  exact Finset.singleton_ne_empty 3 (hopen.settled_iff_empty.mp hsettled)

end Device
