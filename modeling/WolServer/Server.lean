import WolServer.LibJson
import WolServer.LibEpoll

/-!
# The server

The embedding of `main.cpp`: the table of connections, `handle_socket` with
one function for each command, and the loop of `doMainFunc` as a machine.

**Effects.** A handler returns the next state and the list of what it did to
the world, in order: the system calls that matter – a descriptor opened or
closed, a `send`, a datagram – the text of each drained request, and each
access to a slot of the table. A call of `send` is recorded as the program
makes it, with the characters the buffer holds and the length it passes.

**The outside world.** What `accept`, `recv` and the clock return is an
`Env`, one for each call of the handler. The machine (`Server.step`) takes
these as labels and refuses only what a kernel does not do: it reports
distinct descriptors that are registered, and `accept` does not return a
descriptor that is still open. The clock may show anything.

**The table** is a function of the index. The code allocates 1024 slots and
never checks an index against that; what lies behind the last slot has no
model, so a run that goes there is recorded by its accesses and given the
memory the code would hope for.
-/

/-- The number of slots `doMainFunc` allocates. -/
@[irreducible] def slots : ℕ := 1024

/-- `sizeof(buffer)` in `handle_socket`. -/
@[irreducible] def bufferSize : ℕ := 32 * 1024

theorem slots_eq : slots = 1024 := by unfold slots; rfl

theorem bufferSize_eq : bufferSize = 32768 := by unfold bufferSize; rfl

instance neZero_sixteen : NeZero 16 := ⟨by decide⟩

instance neZero_thirtyTwo : NeZero 32 := ⟨by decide⟩

/-- **A slot**, `struct client_info`. -/
structure ClientInfo where
  /-- Whether a connection uses the slot. -/
  enable : Bool
  /-- Whether the connection has bound. -/
  esp8266 : Bool
  /-- When the connection times out, in microseconds. -/
  timestamp : ℕ
  /-- The key it bound. -/
  key : CArray 16
  /-- The network it is in. -/
  ssid : CArray 32
  /-- Its own address. -/
  lanIp : CArray 16
  /-- The address it connected from. -/
  globalIp : CArray 16

/-- The table. -/
abbrev ClientList := ℕ → ClientInfo

/-- What the server does to the world, and to its table. -/
inductive Effect where
  /-- An access to a slot of the table. -/
  | access (i : ℕ)
  /-- `accept` returned a descriptor. -/
  | accepted (fd : ℕ)
  /-- `close`. -/
  | closed (fd : ℕ)
  /-- The text of a drain, on a connection that goes on. -/
  | received (fd : ℕ) (text : Bytes)
  /-- `send(fd, buffer, size)`: the characters in the buffer, and the
  length. -/
  | send (fd : ℕ) (buffer : Bytes) (size : ℕ)
  /-- `sendto` the local notice service. -/
  | sendto (port : UInt16) (buffer : Bytes) (size : ℕ)
deriving DecidableEq

/-- The effect sends something. -/
def Effect.isSend : Effect → Bool
  | .send .. | .sendto .. => true
  | _ => false

/-- An IPv4 address, as its four bytes. -/
structure InAddr where
  (b₁ b₂ b₃ b₄ : UInt8)

/-- `inet_ntoa`. -/
def inetNtoa (a : InAddr) : Bytes :=
  decimal a.b₁.toNat ++ 46 :: (decimal a.b₂.toNat ++ 46 :: (decimal a.b₃.toNat
    ++ 46 :: decimal a.b₄.toNat))

/-- An address is digits and dots. -/
theorem mem_inetNtoa {addr : InAddr} {b : UInt8} (h : b ∈ inetNtoa addr) :
    b = 46 ∨ isDigit b = true := by
  simp only [inetNtoa, List.mem_append, List.mem_cons] at h
  rcases h with h | h | h | h | h | h | h
  · exact Or.inr (isDigit_of_mem_decimal h)
  · exact Or.inl h
  · exact Or.inr (isDigit_of_mem_decimal h)
  · exact Or.inl h
  · exact Or.inr (isDigit_of_mem_decimal h)
  · exact Or.inl h
  · exact Or.inr (isDigit_of_mem_decimal h)

/-- **What the outside world answers** in one call of the handler. -/
structure Env where
  /-- The result of `accept`: the descriptor and the peer's address. -/
  accept : Option (ℕ × InAddr)
  /-- Whether the new descriptor can be made non-blocking and registered. -/
  addOk : Bool
  /-- The data `recv` returns, call by call. -/
  chunks : List Bytes
  /-- Whether the last `recv` returns zero – the peer has closed – and not an
  error. -/
  closed : Bool
  /-- The clock. -/
  now : ℕ

/-- The phases of the loop of `doMainFunc`. -/
inductive Phase where
  /-- At the condition of the loop. -/
  | loop
  /-- Before `epoll_wait`. -/
  | wait
  /-- In `Lib_Epoll::wait`, with these events to dispatch. -/
  | dispatch (events : List ℕ)
  /-- After the loop. -/
  | out

/-- Where the loop is with these events to dispatch. -/
def Phase.next : List ℕ → Phase
  | [] => .loop
  | events => .dispatch events

/-- **The state of the server.** -/
structure Server where
  /-- The epoll object, and the kernel. -/
  epoll : LibEpoll
  /-- The table. -/
  clientList : ClientList
  /-- When the next sweep is due. -/
  timestampChecktimeout : ℕ
  /-- Where the loop is. -/
  phase : Phase

namespace Server

/-! ## `accept` -/

/-- The slot of a new connection. -/
def newClient (now : ℕ) (addr : InAddr) : ClientInfo where
  enable := true
  esp8266 := false
  timestamp := now + 10000000
  key := CArray.zeroed 16
  ssid := CArray.zeroed 32
  lanIp := CArray.zeroed 16
  globalIp := CArray.print 16 (inetNtoa addr)

/-- The branch of `handle_socket` for the listening descriptor. -/
def acceptClient (s : Server) (env : Env) : Server × List Effect :=
  match env.accept with
  | none => (s, [])
  | some (tmpFd, addr) =>
    let e := { s.epoll with kernel := s.epoll.kernel.open tmpFd }
    let ret := e.add tmpFd false env.addOk
    if ret.1 = true then
      ({ s with epoll := ret.2
                clientList := Function.update s.clientList tmpFd (newClient env.now addr) },
        [.accepted tmpFd, .access tmpFd])
    else
      ({ s with epoll := { ret.2 with kernel := ret.2.kernel.close tmpFd } },
        [.accepted tmpFd, .closed tmpFd])

/-! ## `recv` -/

/-- The loop over `recv`: each chunk is appended as a C string. -/
def drain (chunks : List Bytes) : Bytes := chunks.flatMap cstr

/-- The branch for a peer that has closed. -/
def closeClient (s : Server) (fd : ℕ) : Server × List Effect :=
  let ret := s.epoll.del fd true
  ({ s with epoll := ret.2
            clientList := Function.update s.clientList fd { s.clientList fd with enable := false } },
    .access fd :: if ret.1 then [.closed fd] else [])

/-! ## Commands -/

/-- **What the branch of a command leaves behind**: the table, `str_send`,
the two flags, and what it did. -/
structure Branch where
  /-- The table. -/
  clientList : ClientList
  /-- `str_send`: the response to put into the reply. -/
  strSend : Bytes
  /-- `ret_to_client`: the status to reply. -/
  retToClient : Bool
  /-- `ret_to_ignore`: whether not to reply at all. -/
  retToIgnore : Bool
  /-- What the branch did. -/
  effects : List Effect

/-- No branch: the flags as they are initialised. -/
def Branch.none (list : ClientList) (effects : List Effect) : Branch :=
  ⟨list, [], false, false, effects⟩

/-- The strings of a `bind`. -/
structure BindArgs where
  (key ssid ip : Bytes)

/-- The strings of a `bind` that is accepted: all three are there, and none
is empty. -/
def bindArgs (root : CJSON) : Option BindArgs :=
  match LibJson.getValueString root (lit "key") 32, LibJson.getValueString root (lit "ssid") 32,
    LibJson.getValueString root (lit "ip") 32 with
  | some key, some ssid, some ip =>
    if 0 < (cstr key).length ∧ 0 < (cstr ssid).length ∧ 0 < (cstr ip).length then
      some ⟨key, ssid, ip⟩
    else none
  | _, _, _ => none

/-- The slot of a connection that binds. -/
def bindClient (c : ClientInfo) (args : BindArgs) : ClientInfo :=
  { c with
    esp8266 := true
    key := CArray.print 16 args.key
    ssid := CArray.print 32 args.ssid
    lanIp := CArray.print 16 args.ip }

/-- The command `bind`. -/
def bind (list : ClientList) (fd : ℕ) (root : CJSON) : Branch :=
  match bindArgs root with
  | none => .none list []
  | some args =>
    ⟨Function.update list fd (bindClient (list fd) args), [], true, false, [.access fd]⟩

/-- The record of a slot in the reply to `client_list`. -/
def record (c : ClientInfo) : Bytes :=
  lit "\x7b\"key\":\"" ++ c.key.text ++ (lit "\",\"ssid\":\"" ++ c.ssid.text
    ++ (lit "\",\"lan_ip\":\"" ++ c.lanIp.text ++ (lit "\",\"global_ip\":\"" ++ c.globalIp.text
    ++ lit "\"\x7d")))

/-- One pass of the loop of `client_list`, over `count` and `str_send`. -/
def listStep (list : ClientList) (r : ℕ × Bytes) (i : ℕ) : ℕ × Bytes :=
  if (list i).enable = true then
    if (list i).esp8266 = true then
      (r.1 + 1, (if 1 < r.2.length then r.2 ++ [44] else r.2)
        ++ (snprintf bufferSize (record (list i))).1)
    else (r.1 + 1, r.2)
  else r

/-- The response to `client_list`. -/
def listText (list : ClientList) : Bytes :=
  let r := (List.range slots).foldl (listStep list) (0, [91])
  (snprintf bufferSize (lit "\x7b\"count\":" ++ decimal r.1 ++ lit ",\"list\":")).1
    ++ (r.2 ++ [93]) ++ [125]

/-- The command `client_list`. -/
def clientListCmd (list : ClientList) : Branch :=
  ⟨list, listText list, true, false, (List.range slots).map .access⟩

/-- The slot holds a bound connection of this key. -/
def holds (c : ClientInfo) (key : Bytes) : Bool :=
  c.enable && c.esp8266 && c.key.text == key

/-- The search of `wol`, `shutdown` and `reset`: the first slot that holds a
bound connection of the key. -/
def lookup (list : ClientList) (key : Bytes) : Option ℕ :=
  (List.range slots).find? (fun i => holds (list i) key)

/-- The slots the search looks at. -/
def searched (list : ClientList) (key : Bytes) : List ℕ :=
  match lookup list key with
  | none => List.range slots
  | some i => List.range (i + 1)

/-- The loop that finds the connection of a key and sends it a message. -/
def deliver (list : ClientList) (key message : Bytes) : Branch :=
  let looked := (searched list key).map Effect.access
  match lookup list key with
  | none => .none list looked
  | some i =>
    let ret := snprintf bufferSize message
    if 0 < ret.2 then ⟨list, [], true, false, looked ++ [.send i ret.1 ret.2]⟩
    else .none list looked

/-! ### MAC addresses -/

/-- `isspace`, in the C locale. -/
def isspace (b : UInt8) : Bool := b == 32 || (9 ≤ b && b ≤ 13)

/-- `%02x` in `sscanf`: a hexadecimal number in a field of two characters,
after white space. A sign and the prefix `0x` are part of the field. -/
def scanHex (str : Bytes) : Option (UInt32 × Bytes) :=
  match str.dropWhile isspace with
  | [] => none
  | a :: rest =>
    if a = 43 ∨ a = 45 then
      (JsonText.hexVal (deref rest)).map
        (fun v => ((if a = 45 then -v.toUInt32 else v.toUInt32), rest.tail))
    else
      match JsonText.hexVal a with
      | none => none
      | some v =>
        if a = 48 ∧ (deref rest = 120 ∨ deref rest = 88) then none
        else match JsonText.hexVal (deref rest) with
          | none => some (v.toUInt32, rest)
          | some w => some ((v * 16 + w).toUInt32, rest.tail)

/-- `sscanf` of `n + 1` fields with a separator between them. -/
def scanFields (sep : UInt8) : ℕ → Bytes → Option (List UInt32)
  | 0, str => (scanHex str).map (fun r => [r.1])
  | n + 1, str =>
    match scanHex str with
    | none => none
    | some (v, rest) =>
      if deref rest = sep then (scanFields sep n rest.tail).map (v :: ·) else none

/-- The two attempts to read a MAC address. -/
def scanMac (mac : Bytes) : Option (List UInt8) :=
  ((scanFields 58 5 mac).or (scanFields 45 5 mac)).map
    (fun vals => vals.map (fun v => (v &&& 0xFF).toUInt8))

/-- `%u,%u,%u,%u,%u,%u` of a MAC address. -/
def macText (mac : List UInt8) : Bytes :=
  List.intercalate [44] (mac.map (fun b => decimal b.toNat))

/-- The body that `wol` and `shutdown` share: read the key and the MAC
address, and send the connection of the key the message of the address. -/
def forward (list : ClientList) (root : CJSON) (message : List UInt8 → Bytes) : Branch :=
  match LibJson.getValueString root (lit "key") 32,
    LibJson.getValueString root (lit "mac") 32 with
  | some key, some mac =>
    if 0 < (cstr key).length ∧ 0 < (cstr mac).length then
      match scanMac (cstr mac) with
      | none => .none list []
      | some val => deliver list (cstr key) (message val)
    else .none list []
  | _, _ => .none list []

/-- The message `wol_send`. -/
def wolSend (mac : List UInt8) : Bytes :=
  lit "\x7b\"cmd\":\"wol_send\",\"mac\":[" ++ macText mac ++ lit "]\x7d"

/-- The message `shutdown_send`. -/
def shutdownSend (mac : List UInt8) : Bytes :=
  lit "\x7b\"cmd\":\"shutdown_send\",\"mac\":[" ++ macText mac ++ lit "]\x7d"

/-- The message `reset`. -/
def resetSend : Bytes := lit "\x7b\"cmd\":\"reset\"\x7d"

/-- The command `wol`. -/
def wol (list : ClientList) (root : CJSON) : Branch := forward list root wolSend

/-- The command `shutdown`. -/
def shutdown (list : ClientList) (root : CJSON) : Branch := forward list root shutdownSend

/-- The command `reset`. -/
def reset (list : ClientList) (root : CJSON) : Branch :=
  match LibJson.getValueString root (lit "key") 32 with
  | none => .none list []
  | some key =>
    if 0 < (cstr key).length then deliver list (cstr key) resetSend else .none list []

/-- The datagram of a warning. -/
def noticeText (key : Bytes) : Bytes :=
  lit "\x7b\"cmd\":\"send_notice\",\"key\":\"" ++ key ++ lit "\"\x7d"

/-- `send_udp`, to the local host. -/
def sendUdp (port : UInt16) (data : Bytes) (size : ℕ) : List Effect :=
  if 0 < port ∧ 0 < size then [.sendto port data size] else []

/-- The command `warn`. It leaves the status as it is initialised. -/
def warn (s : Server) (fd : ℕ) : Branch :=
  let c := s.clientList fd
  .none s.clientList (.access fd ::
    if c.enable = true ∧ c.esp8266 = true then
      match s.epoll.getPtr with
      | none => []
      | some port =>
        if 0 < port then
          let ret := snprintf bufferSize (noticeText c.key.text)
          if 0 < ret.2 then sendUdp port ret.1 ret.2 else []
        else []
    else [])

/-- **The branches of `handle_socket` on the command.** -/
def command (s : Server) (fd : ℕ) (root : CJSON) : Branch :=
  match LibJson.getValueString root (lit "cmd") 32 with
  | none => .none s.clientList []
  | some buf =>
    let cmd := cstr buf
    if cmd = lit "response" then { Branch.none s.clientList [] with retToIgnore := true }
    else if cmd = lit "bind" then bind s.clientList fd root
    else if cmd = lit "client_list" then clientListCmd s.clientList
    else if cmd = lit "wol" then wol s.clientList root
    else if cmd = lit "shutdown" then shutdown s.clientList root
    else if cmd = lit "warn" then warn s fd
    else if cmd = lit "reset" then reset s.clientList root
    else if cmd = lit "beat" then { Branch.none s.clientList [] with retToClient := true }
    else .none s.clientList []

/-! ## The reply -/

/-- `JSON_RET_STR`, with the status and the response. -/
def retStr (status : Bool) (strSend : Bytes) : Bytes :=
  lit "\x7b\"status\":" ++ (if status then lit "true" else lit "false")
    ++ (lit ",\"response\":" ++ (if 0 < strSend.length then cstr strSend else lit "null")
    ++ lit "\x7d")

/-- The end of `handle_socket`: the reply, and the new timeout of a
connection whose request succeeded. -/
def reply (b : Branch) (fd now : ℕ) : ClientList × List Effect :=
  if b.retToIgnore = true then (b.clientList, [])
  else
    let ret := snprintf bufferSize (retStr b.retToClient b.strSend)
    if 0 < ret.2 then
      if b.retToClient = true then
        (Function.update b.clientList fd { b.clientList fd with timestamp := now + 10000000 },
          [.access fd, .send fd ret.1 ret.2])
      else (b.clientList, [.send fd ret.1 ret.2])
    else (b.clientList, [])

/-- The branch a received text takes. -/
def branch (s : Server) (fd : ℕ) (strRecv : Bytes) : Branch :=
  if 0 < strRecv.length then
    match LibJson.getObject (cstr strRecv) strRecv.length with
    | none => .none s.clientList []
    | some jsonRecv => command s fd jsonRecv
  else .none s.clientList []

/-- The part of `handle_socket` after the drain. -/
def handleRequest (s : Server) (fd : ℕ) (strRecv : Bytes) (now : ℕ) : Server × List Effect :=
  let b := branch s fd strRecv
  let r := reply b fd now
  ({ s with clientList := r.1 }, .received fd strRecv :: (b.effects ++ r.2))

/-- **`handle_socket`.** -/
def handleSocket (s : Server) (fd : ℕ) (env : Env) : Server × List Effect :=
  if s.epoll.checkListen fd = true then acceptClient s env
  else if env.closed = true then closeClient s fd
  else handleRequest s fd (drain env.chunks) env.now

/-! ## The loop -/

/-- One pass of the sweep: a connection whose time is up is closed. -/
def sweepStep (timestamp : ℕ) (s : Server) (i : ℕ) : Server × List Effect :=
  if (s.clientList i).enable = true ∧ (s.clientList i).timestamp < timestamp then
    let ret := s.epoll.del i true
    ({ s with epoll := ret.2
              clientList := Function.update s.clientList i
                { s.clientList i with enable := false, timestamp := 0 } },
      .access i :: if ret.1 then [.closed i] else [])
  else (s, [.access i])

/-- The sweep, from slot `i` on, over `n` slots. -/
def sweepFrom (timestamp : ℕ) : ℕ → ℕ → Server → Server × List Effect
  | _, 0, s => (s, [])
  | i, n + 1, s =>
    let r := sweepStep timestamp s i
    let t := sweepFrom timestamp (i + 1) n r.1
    (t.1, r.2 ++ t.2)

/-- The body of the loop before `epoll_wait`. -/
def checkTimeout (s : Server) (timestamp : ℕ) : Server × List Effect :=
  if s.timestampChecktimeout < timestamp then
    sweepFrom timestamp 0 slots { s with timestampChecktimeout := timestamp + 10000000 }
  else (s, [])

/-- What happens next. -/
inductive Label where
  /-- The condition of the loop is tested and the clock is read. -/
  | check (now : ℕ)
  /-- `epoll_wait` returns these descriptors. -/
  | wait (events : List ℕ)
  /-- The next event is dispatched. -/
  | handle (env : Env)

/-- What `epoll_wait` may return. -/
def CanReport (e : LibEpoll) (events : List ℕ) : Prop :=
  events.Nodup ∧ (∀ fd ∈ events, fd ∈ e.kernel.registered) ∧ events.length ≤ e.mCount

instance (e : LibEpoll) (events : List ℕ) : Decidable (CanReport e events) :=
  inferInstanceAs (Decidable (_ ∧ _ ∧ _))

/-- What `accept` and `recv` may return in a call for a descriptor: `accept`
is called for the listening one only, and returns a descriptor that is not
open; data fits the buffer. -/
def CanAnswer (e : LibEpoll) (fd : ℕ) (env : Env) : Prop :=
  (∀ p ∈ env.accept, e.checkListen fd = true ∧ p.1 ∉ e.kernel.opened)
    ∧ ∀ chunk ∈ env.chunks, 0 < chunk.length ∧ chunk.length ≤ bufferSize - 1

instance (e : LibEpoll) (fd : ℕ) (env : Env) : Decidable (CanAnswer e fd env) :=
  inferInstanceAs (Decidable (_ ∧ _))

/-- **A step of the server.** -/
def step (s : Server) (l : Label) : Option (Server × List Effect) :=
  match s.phase, l with
  | .loop, .check now =>
    if s.epoll.loop = true then
      let r := checkTimeout s now
      some ({ r.1 with phase := .wait }, r.2)
    else some ({ s with phase := .out }, [])
  | .wait, .wait events =>
    if CanReport s.epoll events then some ({ s with phase := .next events }, []) else none
  | .dispatch (fd :: rest), .handle env =>
    if CanAnswer s.epoll fd env then
      let r := handleSocket s fd env
      some ({ r.1 with phase := .next rest }, r.2)
    else none
  | _, _ => none

/-- **Before the loop**: the epoll object is made, the table – whatever the
memory held – is marked unused, and the listening descriptor is
registered. -/
def boot (memory : ClientList) (listenFd : ℕ) (portWarn : UInt16) :
    Option (Server × List Effect) :=
  match LibEpoll.getObject 512 with
  | none => none
  | some e =>
    let ret := LibEpoll.add { e with kernel := e.kernel.open listenFd } listenFd true true
    if ret.1 = true then
      some ({ epoll := ret.2.setPtr portWarn
              clientList := fun i => { memory i with enable := false }
              timestampChecktimeout := 0
              phase := .loop },
        (List.range slots).map .access)
    else none

/-- **An execution of `doMainFunc`**: the state after the steps of these
labels, and all effects from the start. -/
def execute (memory : ClientList) (listenFd : ℕ) (portWarn : UInt16) (labels : List Label) :
    Option (Server × List Effect) :=
  match boot memory listenFd portWarn with
  | none => none
  | some (s, tr) => (Runs.run step s labels).map (fun r => (r.1, tr ++ r.2))

end Server
