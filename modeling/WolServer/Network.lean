import WolServer.Announce
import WolServer.Lanes

/-!
# The server, devices and clients as one system

A message that was sent is in flight until it is delivered; the messages of a
connection in one direction stay in order, and otherwise any may be next. The
server is the one of `Server.step`, with everything that may happen to it; at
the other end of each connection is a device – the two halves of its turn,
`Device.sendDue` and `Device.receive` – or anybody else, who sends what he
likes.

No socket waits, so that a `send` of the server may be refused, and what it
should have sent is lost (`Move.lost`). TCP keeps the bytes of a direction, but
not where a message ends: one may arrive in pieces, or two in one event, and a
`send` may take the front of a message only (`Packet.Recut`). Neither side looks
for that. What is proved of a connection is proved of the runs in which no
message of it was cut, and a step that cuts messages says of which direction.

So a step says of itself what kind of step it is: whether a message was
delivered, which were sent for it and which were lost; whether something was
sent without; whether messages were cut; or nothing of these.
-/

/-- **A message in flight**, of a connection. -/
inductive Packet where
  /-- To the server, as `recv` will return it. -/
  | up (conn : ℕ) (chunks : List Bytes)
  /-- From the server. -/
  | down (conn : ℕ) (bytes : Bytes)

/-- Who is at the other end of a connection. -/
inductive Peer where
  /-- Anybody. -/
  | client
  /-- A device with this key. -/
  | device (key : {key : Bytes // Server.IsKey key}) (d : Device)

/-- **The system.** Connections are numbered as they are let in, and a number
is not used again. -/
structure Network where
  /-- The server. -/
  server : Server
  /-- The connection on a descriptor of the server. -/
  conn : ℕ → Option ℕ
  /-- The other end of a connection. -/
  peer : ℕ → Peer
  /-- The number of the next connection. -/
  next : ℕ
  /-- The messages in flight. -/
  flight : List Packet

/-- What kind of step was taken. -/
inductive Move where
  /-- Nothing was delivered, and nothing was sent. -/
  | quiet
  /-- A message was delivered; for it the first were sent, and the others the
  server's socket refused. -/
  | delivery (p : Packet) (sent lost : List Packet)
  /-- Something was sent on somebody's own initiative. -/
  | initiative
  /-- The messages of a connection and direction were cut. -/
  | recut (lane : ℕ × Bool)

/-- The connection and direction whose messages were cut. -/
def Move.cut : Move → Option (ℕ × Bool)
  | .recut lane => some lane
  | _ => none

namespace Packet

/-- The connection. -/
def conn : Packet → ℕ
  | .up c _ => c
  | .down c _ => c

/-- Whether the message goes to the server. -/
def isUp : Packet → Bool
  | .up _ _ => true
  | .down _ _ => false

/-- The lane of a message: its connection and its direction. -/
def lane (p : Packet) : ℕ × Bool := (p.conn, p.isUp)

/-- The bytes of a message. -/
def bytes : Packet → Bytes
  | .up _ chunks => chunks.flatten
  | .down _ bytes => bytes

/-- **The message is next in its lane.** -/
def Front (flight : List Packet) (p : Packet) (rest : List Packet) : Prop :=
  Lanes.Front lane flight p rest

/-- **The messages of a lane, cut otherwise.** The bytes are the same and in
the same order, and some may be missing, where a `send` took the front of its
message only. No message is empty, and those of other lanes stay as they are. -/
structure Recut (l : ℕ × Bool) (flight flight' : List Packet) : Prop where
  others : ∀ l' ≠ l, Lanes.inLane lane l' flight' = Lanes.inLane lane l' flight
  stream : ((Lanes.inLane lane l flight').flatMap bytes).Sublist
    ((Lanes.inLane lane l flight).flatMap bytes)
  ne_nil : ∀ p ∈ Lanes.inLane lane l flight', p.bytes ≠ []

end Packet

namespace Network

/-! ## The steps of the system -/

/-- The message that an effect of the server is to send. What `send` takes from
behind a buffer is left out: only the reply to a `client_list` can be so long. -/
def downward (conn : ℕ → Option ℕ) : Effect → Option Packet
  | .send i buffer size => (conn i).map (fun c => .down c (buffer.take size))
  | _ => none

/-- The messages that effects of the server are to send, and that a socket
treats as `took` says. -/
def sends (conn : ℕ → Option ℕ) (took : Packet → Bool) (es : List Effect) : List Packet :=
  (es.filterMap (downward conn)).filter took

/-- What an act of a device puts in flight. -/
def upward (c : ℕ) : Act → Option Packet
  | .send _ _ buffer size taken => if taken = true then some (.up c [buffer.take size]) else none
  | _ => none

/-- What an effect of the server means for the connections. -/
def follow (peer : Peer) (S : Network) : Effect → Network
  | .accepted fd =>
    { S with conn := Function.update S.conn fd (some S.next)
             peer := Function.update S.peer S.next peer
             next := S.next + 1 }
  | .closed fd => { S with conn := Function.update S.conn fd none }
  | _ => S

/-- **The system after a step of the server** with these effects, where
`flight` is what is left in flight, `took` tells the messages that the sockets
take, and `peer` is whoever has been let in. -/
def served (peer : Peer) (S : Network) (s : Server) (es : List Effect) (took : Packet → Bool)
    (flight : List Packet) : Network :=
  es.foldl (follow peer)
    { S with
      server := s
      flight := flight ++ sends S.conn took es }

/-- **The system after a step of a device**, with these acts. -/
def acted (S : Network) (c : ℕ) (key : {key : Bytes // Server.IsKey key}) (d : Device)
    (acts : List Act) (flight : List Packet) : Network where
  server := S.server
  conn := S.conn
  peer := Function.update S.peer c (.device key d)
  next := S.next
  flight := flight ++ acts.filterMap (upward c)

/-- A peer that has just connected. -/
inductive New : Peer → Prop
  | client : New .client
  | device (key : {key : Bytes // Server.IsKey key}) (ioWarnCount : ℕ) :
      New (.device key (Device.start ioWarnCount))

/-- **A step of the system**, and of what kind it is. -/
inductive Step (parse : Bytes → Option CJSON) : Network → Move → Network → Prop
  /-- The server does something else than to read data: it lets somebody in, it
  closes a connection, it looks for those whose time is up. -/
  | serve {S : Network} {l : Server.Label} {s : Server} {es : List Effect} {peer : Peer}
      (took : Packet → Bool) (hnew : New peer) (h : Server.step S.server l = some (s, es))
      (hreads : Server.reads S.server l = none) :
      Step parse S .quiet (served peer S s es took S.flight)
  /-- The server reads a message and answers it, as far as its sockets take the
  answers. -/
  | request {S : Network} {l : Server.Label} {s : Server} {es : List Effect} {fd c : ℕ} {env : Env}
      {rest : List Packet} (took : Packet → Bool) (h : Server.step S.server l = some (s, es))
      (hreads : Server.reads S.server l = some (fd, env)) (hconn : S.conn fd = some c)
      (hfront : Packet.Front S.flight (.up c env.chunks) rest) :
      Step parse S
        (.delivery (.up c env.chunks) (sends S.conn took es) (sends S.conn (fun p => !took p) es))
        (served .client S s es took rest)
  /-- A device receives a message. -/
  | hear {S : Network} {c : ℕ} {bytes : Bytes} {rest : List Packet}
      {key : {key : Bytes // Server.IsKey key}} {d : Device} {t : Turn}
      (hpeer : S.peer c = .device key d) (hgo : d.ending = none)
      (hfront : Packet.Front S.flight (.down c bytes) rest) (ht : t.recv = .data bytes) :
      Step parse S
        (.delivery (.down c bytes) ((Device.receive parse key d t).2.filterMap (upward c)) [])
        (acted S c key (Device.receive parse key d t).1 (Device.receive parse key d t).2 rest)
  /-- Another client receives a message. -/
  | read {S : Network} {c : ℕ} {bytes : Bytes} {rest : List Packet}
      (hpeer : S.peer c = .client) (hfront : Packet.Front S.flight (.down c bytes) rest) :
      Step parse S (.delivery (.down c bytes) [] []) { S with flight := rest }
  /-- Another client sends something. -/
  | say {S : Network} {c : ℕ} (chunks : List Bytes) (hc : c < S.next)
      (hpeer : S.peer c = .client) :
      Step parse S .initiative { S with flight := S.flight ++ [.up c chunks] }
  /-- A device looks at its timers, and none is due. -/
  | look {S : Network} {c : ℕ} {key : {key : Bytes // Server.IsKey key}} {d d' : Device} {t : Turn}
      (hc : c < S.next) (hpeer : S.peer c = .device key d) (hgo : d.ending = none)
      (h : Device.sendDue key d t = some (d', [])) :
      Step parse S .quiet (acted S c key d' [] S.flight)
  /-- A device looks at its timers, and one is due. -/
  | due {S : Network} {c : ℕ} {key : {key : Bytes // Server.IsKey key}} {d d' : Device}
      {t : Turn} {acts : List Act} (hc : c < S.next) (hpeer : S.peer c = .device key d)
      (hgo : d.ending = none) (h : Device.sendDue key d t = some (d', acts)) (hacts : acts ≠ []) :
      Step parse S .initiative (acted S c key d' acts S.flight)
  /-- A timer is due, and a device has waited too long for an answer. -/
  | leave {S : Network} {c : ℕ} {key : {key : Bytes // Server.IsKey key}} {d : Device} {t : Turn}
      (hc : c < S.next) (hpeer : S.peer c = .device key d) (hgo : d.ending = none)
      (h : Device.sendDue key d t = none) :
      Step parse S .initiative (acted S c key { d with ending := some .noResponse } [] S.flight)
  /-- A device receives no data, and the pin does not read low. -/
  | idle {S : Network} {c : ℕ} {key : {key : Bytes // Server.IsKey key}} {d : Device} {t : Turn}
      (hc : c < S.next) (hpeer : S.peer c = .device key d) (hgo : d.ending = none)
      (ht : ∀ bytes, t.recv ≠ .data bytes) (hpin : t.pinLow = false) :
      Step parse S .quiet
        (acted S c key (Device.receive parse key d t).1 (Device.receive parse key d t).2 S.flight)
  /-- A device receives no data, and the pin reads low. -/
  | alarm {S : Network} {c : ℕ} {key : {key : Bytes // Server.IsKey key}} {d : Device} {t : Turn}
      (hc : c < S.next) (hpeer : S.peer c = .device key d) (hgo : d.ending = none)
      (ht : ∀ bytes, t.recv ≠ .data bytes) (hpin : t.pinLow = true) :
      Step parse S .initiative
        (acted S c key (Device.receive parse key d t).1 (Device.receive parse key d t).2 S.flight)
  /-- Messages are cut. -/
  | recut {S : Network} {l : ℕ × Bool} {flight : List Packet}
      (h : Packet.Recut l S.flight flight) : Step parse S (.recut l) { S with flight := flight }

/-- The system when the server starts. -/
def Starts (S : Network) : Prop :=
  (∃ memory listenFd portWarn es, Server.boot memory listenFd portWarn = some (S.server, es))
    ∧ S.conn = (fun _ => none) ∧ S.next = 0 ∧ S.flight = []

/-- **The messages of a connection arrive whole**, each in an event of its own. -/
def Whole (c : ℕ) (tr : List Move) : Prop := ∀ up, Move.recut (c, up) ∉ tr

/-- **A state the system can get to**, as long as every message arrives whole. -/
def Reachable (parse : Bytes → Option CJSON) (S : Network) : Prop :=
  ∃ S₀ tr, Starts S₀ ∧ Lanes.Run (Step parse) S₀ tr S ∧ ∀ c, Whole c tr

/-- A message is delivered. -/
def Delivers (parse : Bytes → Option CJSON) (S S' : Network) : Prop :=
  ∃ p sent lost, Step parse S (.delivery p sent lost) S'

/-- Nothing is delivered, and nothing is sent. -/
def Quiet (parse : Bytes → Option CJSON) (S S' : Network) : Prop := Step parse S .quiet S'

end Network
