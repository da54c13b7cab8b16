import WolServer.Server

/-!
# Requests

What the handler does with a text, in two halves: `Server.requestOf` reads
the text as a `Request`, and `Server.perform` carries the request out. The
source interleaves the two, command by command; `Server.branch_eq` says that
this comes to the same. Everything proved about requests is proved about
`perform`, one case for each kind.

`wol`, `shutdown` and `reset` are one kind, `Request.forward`: a key and the
message for its connection. Whatever is not understood – no JSON, no
command, a missing or an empty string, a MAC address that does not read – is
`Request.refuse`.
-/

/-- **What a text asks for.** -/
inductive Request where
  /-- A `response`, which gets no reply. -/
  | ignore
  /-- A `bind` with all its strings. -/
  | bind (args : Server.BindArgs)
  /-- A `client_list`. -/
  | clientList
  /-- A message for the connection of a key. -/
  | forward (key message : Bytes)
  /-- A `warn`. -/
  | warn
  /-- A `beat`. -/
  | beat
  /-- Anything else. -/
  | refuse

namespace Server

/-! ## Reading -/

/-- The request of a `bind`. -/
def bindOf (root : CJSON) : Request :=
  match bindArgs root with
  | none => .refuse
  | some args => .bind args

/-- The request of a `wol` or `shutdown`. -/
def forwardOf (root : CJSON) (message : List UInt8 → Bytes) : Request :=
  match LibJson.getValueString root (lit "key") 32,
    LibJson.getValueString root (lit "mac") 32 with
  | some key, some mac =>
    if 0 < (cstr key).length ∧ 0 < (cstr mac).length then
      match scanMac (cstr mac) with
      | none => .refuse
      | some val => .forward (cstr key) (message val)
    else .refuse
  | _, _ => .refuse

/-- The request of a `reset`. -/
def resetOf (root : CJSON) : Request :=
  match LibJson.getValueString root (lit "key") 32 with
  | none => .refuse
  | some key => if 0 < (cstr key).length then .forward (cstr key) resetSend else .refuse

/-- The request of a command. -/
def requestOfCommand (root : CJSON) (cmd : Bytes) : Request :=
  if cmd = lit "response" then .ignore
  else if cmd = lit "bind" then bindOf root
  else if cmd = lit "client_list" then .clientList
  else if cmd = lit "wol" then forwardOf root wolSend
  else if cmd = lit "shutdown" then forwardOf root shutdownSend
  else if cmd = lit "warn" then .warn
  else if cmd = lit "reset" then resetOf root
  else if cmd = lit "beat" then .beat
  else .refuse

/-- The request of a parsed text. -/
def requestOfRoot (root : CJSON) : Request :=
  match LibJson.getValueString root (lit "cmd") 32 with
  | none => .refuse
  | some buf => requestOfCommand root (cstr buf)

/-- **The request of a received text.** -/
def requestOf (strRecv : Bytes) : Request :=
  if 0 < strRecv.length then
    match LibJson.getObject (cstr strRecv) strRecv.length with
    | none => .refuse
    | some root => requestOfRoot root
  else .refuse

/-! ## Carrying out -/

/-- **The branch a request takes.** -/
def perform (s : Server) (fd : ℕ) : Request → Branch
  | .ignore => { Branch.none s.clientList [] with retToIgnore := true }
  | .bind args =>
    ⟨Function.update s.clientList fd (bindClient (s.clientList fd) args), [], true, false,
      [.access fd]⟩
  | .clientList => clientListCmd s.clientList
  | .forward key message => deliver s.clientList key message
  | .warn => warn s fd
  | .beat => { Branch.none s.clientList [] with retToClient := true }
  | .refuse => .none s.clientList []

theorem forward_eq (s : Server) (fd : ℕ) (root : CJSON) (message : List UInt8 → Bytes) :
    forward s.clientList root message = perform s fd (forwardOf root message) := by
  unfold forward forwardOf
  cases LibJson.getValueString root (lit "key") 32 with
  | none => rfl
  | some key =>
    cases LibJson.getValueString root (lit "mac") 32 with
    | none => rfl
    | some mac =>
      dsimp only
      by_cases h : 0 < (cstr key).length ∧ 0 < (cstr mac).length
      · rw [if_pos h, if_pos h]
        cases scanMac (cstr mac) <;> rfl
      · rw [if_neg h, if_neg h]
        rfl

theorem reset_eq (s : Server) (fd : ℕ) (root : CJSON) :
    reset s.clientList root = perform s fd (resetOf root) := by
  unfold reset resetOf
  cases LibJson.getValueString root (lit "key") 32 with
  | none => rfl
  | some key =>
    dsimp only
    by_cases h : 0 < (cstr key).length
    · rw [if_pos h, if_pos h]
      rfl
    · rw [if_neg h, if_neg h]
      rfl

theorem bind_eq (s : Server) (fd : ℕ) (root : CJSON) :
    bind s.clientList fd root = perform s fd (bindOf root) := by
  unfold bind bindOf
  cases bindArgs root <;> rfl

theorem command_eq (s : Server) (fd : ℕ) (root : CJSON) :
    command s fd root = perform s fd (requestOfRoot root) := by
  unfold command requestOfRoot
  cases LibJson.getValueString root (lit "cmd") 32 with
  | none => rfl
  | some buf =>
    dsimp only
    simp only [requestOfCommand, apply_ite (perform s fd), ← bind_eq, ← reset_eq]
    rw [wol, shutdown, forward_eq s fd, forward_eq s fd]
    rfl

/-- **The handler reads a text as a request and carries it out.** -/
theorem branch_eq (s : Server) (fd : ℕ) (strRecv : Bytes) :
    branch s fd strRecv = perform s fd (requestOf strRecv) := by
  unfold branch requestOf
  by_cases h : 0 < strRecv.length
  · rw [if_pos h, if_pos h]
    cases LibJson.getObject (cstr strRecv) strRecv.length with
    | none => rfl
    | some root => exact command_eq s fd root
  · rw [if_neg h, if_neg h]
    rfl

/-! ## The table after a request -/

/-- The slot of the connection, after its request: a `bind` fills it in. -/
def bound (c : ClientInfo) : Request → ClientInfo
  | .bind args => bindClient c args
  | _ => c

theorem deliver_clientList (list : ClientList) (key message : Bytes) :
    (deliver list key message).clientList = list := by
  unfold deliver
  dsimp only
  split
  · rfl
  · split <;> rfl

theorem perform_clientList (s : Server) (fd : ℕ) (r : Request) :
    (perform s fd r).clientList = Function.update s.clientList fd (bound (s.clientList fd) r) := by
  have hsame : Function.update s.clientList fd (s.clientList fd) = s.clientList :=
    Function.update_eq_self fd s.clientList
  cases r with
  | bind args => rfl
  | forward key message =>
    rw [perform, deliver_clientList]
    exact hsame.symm
  | _ => exact hsame.symm

/-- **A request changes no slot but that of its connection**, and there only
the timeout, and what a `bind` fills in. -/
theorem handleRequest_clientList (s : Server) (fd : ℕ) (strRecv : Bytes) (now : ℕ) :
    ∃ timestamp, (handleRequest s fd strRecv now).1.clientList
      = Function.update s.clientList fd
          { bound (s.clientList fd) (requestOf strRecv) with timestamp := timestamp } := by
  have hlist := perform_clientList s fd (requestOf strRecv)
  show ∃ timestamp, (reply (branch s fd strRecv) fd now).1 = _
  rw [branch_eq]
  unfold reply
  dsimp only
  split
  · exact ⟨_, hlist⟩
  split
  · split
    · refine ⟨now + 10000000, ?_⟩
      rw [hlist, Function.update_idem, Function.update_self]
    · exact ⟨_, hlist⟩
  · exact ⟨_, hlist⟩

theorem bound_enable (c : ClientInfo) (r : Request) : (bound c r).enable = c.enable := by
  cases r <;> rfl

theorem bound_globalIp (c : ClientInfo) (r : Request) : (bound c r).globalIp = c.globalIp := by
  cases r <;> rfl

theorem handleRequest_enable (s : Server) (fd : ℕ) (strRecv : Bytes) (now i : ℕ) :
    ((handleRequest s fd strRecv now).1.clientList i).enable = (s.clientList i).enable := by
  obtain ⟨timestamp, h⟩ := handleRequest_clientList s fd strRecv now
  rw [h, Function.update_apply]
  split
  · rename_i hi
    rw [hi]
    exact bound_enable _ _
  · rfl

/-! ## What a request does -/

theorem lookup_lt {list : ClientList} {key : Bytes} {i : ℕ} (h : lookup list key = some i) :
    i < slots :=
  List.mem_range.mp (List.mem_of_find?_eq_some h)

/-- The search stays inside the table. -/
theorem searched_lt {list : ClientList} {key : Bytes} {i : ℕ} (hi : i ∈ searched list key) :
    i < slots := by
  unfold searched at hi
  split at hi
  · exact List.mem_range.mp hi
  · rename_i j hj
    exact lt_of_lt_of_le (List.mem_range.mp hi) (lookup_lt hj)

/-- A delivery sends the message to the first connection of the key. -/
theorem deliver_eq {list : ClientList} {key message : Bytes} (hm : 0 < message.length) :
    deliver list key message =
      match lookup list key with
      | none => .none list ((searched list key).map .access)
      | some i => ⟨list, [], true, false, (searched list key).map .access
          ++ [.send i (snprintf bufferSize message).1 message.length]⟩ := by
  unfold deliver
  dsimp only
  cases lookup list key with
  | none => rfl
  | some i => exact if_pos hm

/-- The connection can warn: it has bound, and there is a port. -/
def warnPort (s : Server) (fd : ℕ) : Option UInt16 :=
  if (s.clientList fd).enable = true ∧ (s.clientList fd).esp8266 = true then
    s.epoll.mPtr.filter (fun port => decide (0 < port))
  else none

/-- A notice fits the buffer. -/
theorem length_noticeText_lt {key : Bytes} (h : key.length < 16) :
    (noticeText key).length < bufferSize := by
  have h₁ : (lit "\x7b\"cmd\":\"send_notice\",\"key\":\"").length = 28 := by decide
  have h₂ : (lit "\"\x7d").length = 2 := by decide
  rw [bufferSize_eq, noticeText, List.length_append, List.length_append]
  omega

/-- A warning sends its notice to the port, if it can. -/
theorem warn_eq (s : Server) (fd : ℕ) :
    warn s fd = .none s.clientList (.access fd ::
      match warnPort s fd with
      | none => []
      | some port => [.sendto port (snprintf bufferSize (noticeText (s.clientList fd).key.text)).1
          (noticeText (s.clientList fd).key.text).length]) := by
  have hpos : 0 < (noticeText (s.clientList fd).key.text).length := by
    rw [noticeText, List.length_append, List.length_append]
    exact Nat.add_pos_right _ (by decide)
  unfold warn warnPort LibEpoll.getPtr
  by_cases hb : (s.clientList fd).enable = true ∧ (s.clientList fd).esp8266 = true
  · simp only [if_pos hb]
    cases s.epoll.mPtr with
    | none => rfl
    | some port =>
      by_cases hp : 0 < port
      · simp [hp, snprintf, hpos, sendUdp, Option.filter]
      · simp [hp, Option.filter]
  · simp only [if_neg hb]

theorem retStr_length_pos (status : Bool) (strSend : Bytes) :
    0 < (retStr status strSend).length := by
  simp only [retStr, List.length_append]
  exact Nat.add_pos_left (Nat.add_pos_left (by decide) _) _

/-- The reply is sent, and a status of true refreshes the connection. -/
theorem reply_eq {b : Branch} (h : b.retToIgnore = false) (fd now : ℕ) :
    reply b fd now =
      (if b.retToClient = true then
        Function.update b.clientList fd { b.clientList fd with timestamp := now + 10000000 }
        else b.clientList,
      (if b.retToClient = true then [.access fd] else [])
        ++ [.send fd (snprintf bufferSize (retStr b.retToClient b.strSend)).1
          (retStr b.retToClient b.strSend).length]) := by
  have hpos : 0 < (snprintf bufferSize (retStr b.retToClient b.strSend)).2 :=
    retStr_length_pos _ _
  unfold reply
  dsimp only
  rw [if_neg (h ▸ Bool.false_ne_true), if_pos hpos]
  split <;> rfl

/-- Only a `response` is not replied to. -/
theorem perform_retToIgnore (s : Server) (fd : ℕ) {r : Request} (h : r ≠ .ignore) :
    (perform s fd r).retToIgnore = false := by
  cases r with
  | ignore => exact absurd rfl h
  | forward key message =>
    unfold perform deliver
    dsimp only
    split
    · rfl
    · split <;> rfl
  | _ => rfl

/-- Only `client_list` has a response. -/
theorem perform_strSend (s : Server) (fd : ℕ) {r : Request} (h : r ≠ .clientList) :
    (perform s fd r).strSend = [] := by
  cases r with
  | clientList => exact absurd rfl h
  | forward key message =>
    unfold perform deliver
    dsimp only
    split
    · rfl
    · split <;> rfl
  | _ => rfl

theorem handleRequest_effects (s : Server) (fd : ℕ) (strRecv : Bytes) (now : ℕ) :
    (handleRequest s fd strRecv now).2 = .received fd strRecv ::
      ((perform s fd (requestOf strRecv)).effects
        ++ (reply (perform s fd (requestOf strRecv)) fd now).2) := by
  rw [← branch_eq]
  rfl

/-- An effect of the branch or of the reply: a look at a slot of the table,
or something sent. -/
def Answers (e : Effect) : Prop := (∃ i < slots, e = .access i) ∨ e.isSend = true

theorem answers_map {l : List ℕ} {e : Effect} (hl : ∀ i ∈ l, i < slots)
    (he : e ∈ l.map Effect.access) : Answers e := by
  obtain ⟨i, hi, rfl⟩ := List.mem_map.mp he
  exact Or.inl ⟨i, hl i hi, rfl⟩

theorem answers_singleton {e e' : Effect} (hs : e'.isSend = true) (he : e ∈ [e']) :
    Answers e := by
  rw [List.mem_singleton.mp he]
  exact Or.inr hs

theorem perform_answers {s : Server} {fd : ℕ} {r : Request} {e : Effect} (hfd : fd < slots)
    (he : e ∈ (perform s fd r).effects) : Answers e := by
  have hself : Answers (.access fd) := Or.inl ⟨fd, hfd, rfl⟩
  cases r with
  | bind args =>
    rw [List.mem_singleton.mp he]
    exact hself
  | clientList => exact answers_map (fun i hi => List.mem_range.mp hi) he
  | forward key message =>
    unfold perform deliver at he
    dsimp only at he
    split at he
    · exact answers_map (fun i hi => searched_lt hi) he
    · split at he
      · rcases List.mem_append.mp he with he | he
        · exact answers_map (fun i hi => searched_lt hi) he
        · exact answers_singleton rfl he
      · exact answers_map (fun i hi => searched_lt hi) he
  | warn =>
    rw [perform, warn_eq] at he
    rcases List.mem_cons.mp he with rfl | he
    · exact hself
    · split at he
      · exact absurd he List.not_mem_nil
      · exact answers_singleton rfl he
  | _ => exact absurd he List.not_mem_nil

theorem reply_answers {b : Branch} {fd now : ℕ} {e : Effect} (hfd : fd < slots)
    (he : e ∈ (reply b fd now).2) : Answers e := by
  unfold reply at he
  dsimp only at he
  split at he
  · exact absurd he List.not_mem_nil
  split at he
  · split at he
    · rcases List.mem_cons.mp he with rfl | he
      · exact Or.inl ⟨fd, hfd, rfl⟩
      · exact answers_singleton rfl he
    · exact answers_singleton rfl he
  · exact absurd he List.not_mem_nil

/-- **A request receives its text, looks at slots of the table and sends**,
and does nothing else. -/
theorem handleRequest_answers {s : Server} {fd : ℕ} (strRecv : Bytes) (now : ℕ)
    (hfd : fd < slots) :
    ∃ es, (handleRequest s fd strRecv now).2 = .received fd strRecv :: es
      ∧ ∀ e ∈ es, Answers e :=
  ⟨_, handleRequest_effects s fd strRecv now, fun _ he =>
    (List.mem_append.mp he).elim (perform_answers hfd) (reply_answers hfd)⟩

end Server
