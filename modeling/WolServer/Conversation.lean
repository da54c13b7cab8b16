import WolServer.Identity

/-!
# Conversations

What becomes of a request, over whole runs of the system. Every request of a
connection has one reply, unless its socket refuses it, and the replies arrive
in the order of the requests (`Network.replies_in_order`). A request for a key
is routed to one connection at most; a connection gets the commands that are
routed to it and that its socket takes, in this order, each of them once and no
others, and a device only those for its own key (`Network.commands_in_order`).
So whatever a device does was asked for under its key (`Network.deeds_asked`).

All of it is about a connection whose messages arrive whole, whatever becomes
of those of others; each result says in which direction they have to. A
connection and a direction make a lane, and that a lane loses, repeats and
reorders nothing is general (`Lanes.Run.conserved`). What is proved here is what
each step puts there.
-/

/-- There is no NUL in a message. -/
theorem Message.zero_notMem_text (m : Message) : (0 : UInt8) ∉ m.text := by
  obtain ⟨tail, htext, hinner, -⟩ := m.text_eq
  rw [htext, List.mem_cons]
  rintro (h0 | h0)
  · cases h0
  · exact absurd (hinner 0 h0).1 (by decide)

namespace Move

/-- What was delivered. -/
def taken : Move → List Packet
  | .delivery p _ _ => [p]
  | _ => []

/-- What was sent for it. -/
def added : Move → List Packet
  | .delivery _ sent _ => sent
  | _ => []

/-- What should have been sent for it, and a socket refused. -/
def lost : Move → List Packet
  | .delivery _ _ lost => lost
  | _ => []

end Move

namespace Network

variable {parse : Bytes → Option CJSON}

/-- The messages from the server on a connection. -/
def toward (c : ℕ) (ps : List Packet) : List Packet := Lanes.inLane Packet.lane (c, false) ps

@[simp] theorem toward_nil (c : ℕ) : toward c [] = [] := rfl

theorem toward_append (c : ℕ) (ps qs : List Packet) :
    toward c (ps ++ qs) = toward c ps ++ toward c qs := Lanes.inLane_append ..

theorem toward_eq_nil (c : ℕ) {ps : List Packet} (h : ∀ p ∈ ps, p.isUp = true) :
    toward c ps = [] :=
  Lanes.inLane_eq_nil (fun p hp hl => Bool.noConfusion ((h p hp).symm.trans (congrArg Prod.snd hl)))

theorem toward_filter (c : ℕ) (is : Packet → Bool) (ps : List Packet) :
    toward c (ps.filter is) = (toward c ps).filter is := List.filter_comm ..

theorem toward_down (c c' : ℕ) (bytes : Bytes) :
    toward c [.down c' bytes] = if c' = c then [.down c' bytes] else [] := by
  simp [toward, Lanes.inLane, Packet.lane, Packet.conn, Packet.isUp, List.filter_cons]

/-- What a device sends is for the server. -/
theorem isUp_upward (c : ℕ) (acts : List Act) : ∀ p ∈ acts.filterMap (upward c), p.isUp = true := by
  intro p hp
  obtain ⟨act, -, hact⟩ := List.mem_filterMap.mp hp
  cases act with
  | send kind time buffer size taken =>
    simp only [upward] at hact
    split at hact
    · obtain rfl := Option.some.inj hact
      rfl
    · cases hact
  | _ => cases hact

/-! ## Nothing is lost -/

/-- **A step takes from the front of a lane, and puts at its end what it says it
sends**, unless it cuts this lane. Whatever else is put in flight is for the
server. -/
theorem Step.toward {S S' : Network} {move : Move} (h : Step parse S move S') {c : ℕ}
    (hmove : move ≠ .recut (c, false)) :
    toward c S.flight ++ toward c move.added = toward c move.taken ++ toward c S'.flight := by
  -- what is sent without a delivery, by somebody else than the server
  have hsaid : ∀ ps : List Packet, (∀ p ∈ ps, p.isUp = true) →
      Network.toward c S.flight ++ Network.toward c []
        = Network.toward c [] ++ Network.toward c (S.flight ++ ps) := by
    intro ps hps
    rw [toward_append, toward_eq_nil c hps]
    rfl
  have hdelivered : ∀ {p : Packet} {rest sent : List Packet}, Packet.Front S.flight p rest →
      Network.toward c S.flight ++ Network.toward c sent
        = Network.toward c [p] ++ Network.toward c (rest ++ sent) := by
    intro p rest sent hfront
    rw [toward_append, ← List.append_assoc]
    exact congrArg (· ++ _) (Lanes.inLane_front hfront (c, false))
  cases h with
  | serve took hnew h hreads =>
    rw [served_flight, sends_eq_nil h hreads]
    exact hsaid [] (List.forall_mem_nil _)
  | request took h hreads hconn hfront =>
    rw [served_flight]
    exact hdelivered hfront
  | hear hpeer hgo hfront ht => exact hdelivered hfront
  | read hpeer hfront =>
    have h : _ = _ ++ Network.toward c (_ ++ []) := hdelivered hfront
    rwa [List.append_nil] at h
  | say chunks hc hpeer => exact hsaid _ (List.forall_mem_singleton.mpr rfl)
  | look | due | leave | idle | alarm => exact hsaid _ (isUp_upward _ _)
  | @recut l flight h =>
    have hlane : (c, false) ≠ l := fun hl => hmove (congrArg Move.recut hl.symm)
    show Network.toward c S.flight ++ [] = [] ++ Network.toward c flight
    rw [List.append_nil, List.nil_append]
    exact (h.others _ hlane).symm

/-- **What was sent on a connection has arrived, or is in flight.** -/
theorem Run.toward {S₀ S : Network} {tr : List Move} (hstart : Starts S₀)
    (h : Lanes.Run (Step parse) S₀ tr S) {c : ℕ} (hwhole : .recut (c, false) ∉ tr) :
    toward c (tr.flatMap Move.taken ++ S.flight) = toward c (tr.flatMap Move.added) := by
  have hall : Network.toward c S₀.flight ++ Network.toward c (tr.flatMap Move.added)
      = Network.toward c (tr.flatMap Move.taken) ++ Network.toward c S.flight :=
    h.conserved (fun _ hmem _ _ hstep => hstep.toward (fun heq => hwhole (heq ▸ hmem)))
  rw [hstart.2.2.2] at hall
  rw [toward_append, ← hall]
  rfl

/-! ## What is sent for a message -/

/-- The text of a reply. -/
def replyText : Packet → Option Bytes
  | .up _ _ => none
  | .down c bytes => if isReply (.down c bytes) = true then some bytes else none

/-- The text of a command. -/
def commandText : Packet → Option Bytes
  | .up _ _ => none
  | .down c bytes => if isCommand (.down c bytes) = true then some bytes else none

/-- What a request forwards is a command. -/
theorem message_of_forward {text key message : Bytes}
    (h : Server.requestOf text = .forward key message) :
    ∃ m : Message, message = m.text ∧ m.isCommand = true := by
  rcases Server.requestOf_forward h with ⟨mac, hmac, rfl | rfl⟩ | rfl
  · exact ⟨.wolSend ⟨mac, hmac⟩, rfl, rfl⟩
  · exact ⟨.shutdownSend ⟨mac, hmac⟩, rfl, rfl⟩
  · exact ⟨.reset, rfl, rfl⟩

theorem isReply_of_forward {text key message : Bytes}
    (h : Server.requestOf text = .forward key message) (c : ℕ) :
    isReply (.down c message) = false := by
  obtain ⟨m, rfl, hm⟩ := message_of_forward h
  rw [isReply_text, hm]
  rfl

theorem isCommand_eq (c : ℕ) (bytes : Bytes) :
    isCommand (.down c bytes) = !isReply (.down c bytes) := rfl

/-- **Where a request for a key is routed to**: the message, and a connection if
there is one. -/
structure Route where
  /-- The key. -/
  key : Bytes
  /-- What is sent. -/
  message : Bytes
  /-- The connection. -/
  conn : Option ℕ

/-- What a route puts in flight. -/
def Route.packet (r : Route) : Option Packet := r.conn.map (fun c => .down c r.message)

/-- The route of a text, where the connections are as they are. -/
def routeIn (S : Network) (text : Bytes) : Option Route :=
  match Server.requestOf text with
  | .forward key message => some ⟨key, message, (Server.lookup S.server.clientList key).bind S.conn⟩
  | _ => none

/-- The command that a text makes the server send. -/
def routed (S : Network) (text : Bytes) : List Packet :=
  ((routeIn S text).bind Route.packet).toList

theorem requestOf_of_routeIn {S : Network} {text : Bytes} {r : Route}
    (h : routeIn S text = some r) : Server.requestOf text = .forward r.key r.message
      ∧ r.conn = (Server.lookup S.server.clientList r.key).bind S.conn := by
  unfold routeIn at h
  split at h
  · rename_i hreq
    obtain rfl := Option.some.inj h
    exact ⟨hreq, rfl⟩
  · cases h

theorem downward_perform (S : Network) (fd : ℕ) (text : Bytes) :
    (Server.perform S.server fd (Server.requestOf text)).effects.filterMap (downward S.conn)
      = routed S text := by
  have hlook : ∀ l : List ℕ, (l.map Effect.access).filterMap (downward S.conn) = [] := fun l => by
    rw [List.filterMap_map]
    exact List.filterMap_eq_nil_iff.mpr (fun i _ => rfl)
  unfold routed routeIn
  cases hreq : Server.requestOf text with
  | forward key message =>
    obtain ⟨hpos, hlt⟩ := Server.requestOf_message hreq
    rw [Server.perform, Server.deliver_eq hpos]
    dsimp only [Option.bind_some, Route.packet]
    cases Server.lookup S.server.clientList key with
    | none => exact hlook _
    | some i =>
      dsimp only
      rw [List.filterMap_append, hlook, List.nil_append, snprintf_of_lt hlt]
      cases hconn : S.conn i with
      | none => simp [downward, hconn]
      | some c => simp [downward, hconn]
  | warn =>
    rw [Server.perform, Server.warn_eq]
    dsimp only [Server.Branch.none]
    split <;> rfl
  | clientList => exact hlook _
  | _ => rfl

/-- The reply has a status, and goes to whoever has asked. -/
theorem downward_reply {conn : ℕ → Option ℕ} {fd c : ℕ} (hconn : conn fd = some c)
    {b : Server.Branch} (hign : b.retToIgnore = false) (now : ℕ) :
    ∃ bytes, isReply (.down c bytes) = true
      ∧ (Server.reply b fd now).2.filterMap (downward conn) = [.down c bytes] := by
  have hlook : (if b.retToClient = true then [Effect.access fd] else []).filterMap
      (downward conn) = [] := by
    split <;> rfl
  have hstatus : (lit "\x7b\"status\":").isPrefixOf
      ((snprintf bufferSize (Server.retStr b.retToClient b.strSend)).1.take
        (Server.retStr b.retToClient b.strSend).length) = true := by
    have hbuffer := Server.isPrefixOf_reply b.retToClient b.strSend
    rw [List.isPrefixOf_iff_prefix] at hbuffer ⊢
    refine List.prefix_take_iff.mpr ⟨hbuffer, hbuffer.length_le.trans ?_⟩
    rw [snprintf, List.length_take]
    exact Nat.min_le_right _ _
  refine ⟨_, hstatus, ?_⟩
  rw [Server.reply_eq hign, List.filterMap_append, hlook, List.nil_append]
  simp [downward, hconn]

/-- What is to be sent for a request: the command, if any, and the reply. -/
def answers (S : Network) (text : Bytes) (c : ℕ) (bytes : Bytes) : List Packet :=
  routed S text ++ [.down c bytes]

/-- **What the server sends for a message**: nothing if it is a response, and
otherwise the command it is good for, if any, and a reply. -/
theorem downward_handleRequest {S : Network} {fd c : ℕ} (hconn : S.conn fd = some c)
    (text : Bytes) (now : ℕ) :
    (Server.requestOf text = .ignore
        ∧ (Server.handleRequest S.server fd text now).2.filterMap (downward S.conn) = [])
      ∨ (Server.requestOf text ≠ .ignore ∧ ∃ bytes, isReply (.down c bytes) = true
        ∧ (Server.handleRequest S.server fd text now).2.filterMap (downward S.conn)
          = answers S text c bytes) := by
  rw [Server.handleRequest_effects, List.filterMap_cons_none rfl, List.filterMap_append,
    downward_perform]
  by_cases hign : Server.requestOf text = .ignore
  · refine Or.inl ⟨hign, ?_⟩
    rw [routed, routeIn, hign]
    rfl
  · obtain ⟨bytes, hbytes, hsent⟩ :=
      downward_reply hconn (Server.perform_retToIgnore S.server fd hign) now
    exact Or.inr ⟨hign, bytes, hbytes, congrArg _ hsent⟩

/-! ## What a step is for a conversation -/

/-- The connection sends a request that gets a reply. -/
def asks (c : ℕ) : Move → Bool
  | .delivery (.up c' chunks) _ _ => c' = c && !decide (Server.IsResponse (Server.drain chunks))
  | _ => false

/-- **The route of a request that was read**: the connection is the one that a
command was to be sent on. -/
def routeOf : Move → Option Route
  | .delivery (.up _ chunks) sent lost =>
    match Server.requestOf (Server.drain chunks) with
    | .forward key message =>
      some ⟨key, message, ((sent ++ lost).find? isCommand).map Packet.conn⟩
    | _ => none
  | _ => none

/-- **The socket of the connection refuses a message of the kind.** -/
def loses (is : Packet → Bool) (c : ℕ) (move : Move) : Bool :=
  !((toward c move.lost).filter is).isEmpty

/-- **A request is read and answered**: what is to be sent for it is sent, or
refused, as `took` says. -/
def answering (S : Network) (c : ℕ) (chunks : List Bytes) (bytes : Bytes)
    (took : Packet → Bool) : Move :=
  .delivery (.up c chunks) ((answers S (Server.drain chunks) c bytes).filter took)
    ((answers S (Server.drain chunks) c bytes).filter (fun p => !took p))

/-- **A move that is no part of a conversation**: nobody asks, nothing is routed,
and the server sends nothing. -/
structure Mute (move : Move) : Prop where
  added : ∀ p ∈ move.added, p.isUp = true
  lost : move.lost = []
  asks : ∀ c, Network.asks c move = false
  route : routeOf move = none

/-- **What a step is for a conversation**: the server answers a request that it
has read, or the step is no part of any. -/
theorem Step.sent {S S' : Network} {move : Move} (h : Step parse S move S') :
    (∃ c chunks bytes took, Server.requestOf (Server.drain chunks) ≠ .ignore
        ∧ isReply (.down c bytes) = true ∧ move = answering S c chunks bytes took)
      ∨ Mute move := by
  have hnone : ∀ p ∈ ([] : List Packet), p.isUp = true := List.forall_mem_nil _
  cases h with
  | @request l s es fd c env rest took h hreads hconn hfront =>
    have hsent := downward_handleRequest hconn (Server.drain env.chunks) env.now
    rw [← (Server.step_read h hreads).2] at hsent
    unfold sends
    rcases hsent with ⟨hign, hnothing⟩ | ⟨hreq, bytes, hbytes, hsome⟩
    · rw [hnothing]
      have hresponse := (Server.requestOf_eq_ignore_iff _).mp hign
      exact Or.inr ⟨hnone, rfl, fun c => by simp [asks, hresponse], by simp only [routeOf, hign]⟩
    · rw [hsome]
      exact Or.inl ⟨c, env.chunks, bytes, took, hreq, hbytes, rfl⟩
  | hear => exact Or.inr ⟨isUp_upward _ _, rfl, fun c => rfl, rfl⟩
  | serve | read | say | look | due | leave | idle | alarm | recut =>
    exact Or.inr ⟨hnone, rfl, fun c => rfl, rfl⟩

/-! ## Every request has its reply -/

/-- The connection sends a request whose reply its socket takes. -/
def answered (c : ℕ) (move : Move) : Bool := asks c move && !loses isReply c move

/-- The command among what is to be sent for a request is no reply. -/
theorem isReply_of_mem_routed {S : Network} {text : Bytes} {p : Packet} (h : p ∈ routed S text) :
    isReply p = false := by
  rw [routed, Option.mem_toList] at h
  obtain ⟨r, hroute, hpacket⟩ := Option.bind_eq_some_iff.mp h
  obtain ⟨c, -, rfl⟩ := Option.map_eq_some_iff.mp hpacket
  exact isReply_of_forward (requestOf_of_routeIn hroute).1 c

/-- **The replies among what is to be sent** for a request, and what comes of
them. -/
theorem replies_answers (S : Network) (text : Bytes) {c' : ℕ} {bytes : Bytes}
    (hbytes : isReply (.down c' bytes) = true) (is : Packet → Bool) (c : ℕ) :
    (toward c ((answers S text c' bytes).filter is)).filter isReply
      = if c' = c ∧ is (.down c' bytes) = true then [Packet.down c' bytes] else [] := by
  have hnone : (toward c ((routed S text).filter is)).filter isReply = [] := by
    refine List.filter_eq_nil_iff.mpr (fun p hp => ?_)
    rw [isReply_of_mem_routed (List.mem_of_mem_filter (Lanes.mem_inLane.mp hp).1)]
    exact Bool.false_ne_true
  rw [answers, List.filter_append, toward_append, List.filter_append, hnone, List.nil_append,
    toward_filter, toward_down]
  by_cases hc : c' = c
  · subst hc
    cases his : is (.down c' bytes) <;> simp [his, hbytes]
  · simp [hc]

/-- The texts of the replies are those of the replies. -/
theorem filterMap_replyText (ps : List Packet) :
    ps.filterMap replyText = (ps.filter isReply).filterMap replyText := by
  rw [List.filterMap_filter]
  refine List.filterMap_congr (fun p _ => ?_)
  cases p with
  | up c chunks => rfl
  | down c bytes => cases h : isReply (.down c bytes) <;> simp [replyText, h]

/-- **A step sends one reply to whoever makes a request**, unless it is refused,
and none else. -/
theorem Step.reply {S S' : Network} {move : Move} (h : Step parse S move S') (c : ℕ) :
    if answered c move = true then
        ∃ bytes, (Network.toward c move.added).filterMap replyText = [bytes]
      else (Network.toward c move.added).filterMap replyText = [] := by
  rcases h.sent with ⟨c', chunks, bytes, took, hreq, hbytes, rfl⟩ | hmute
  · have hresponse := (Server.requestOf_eq_ignore_iff _).not.mp hreq
    have hreplies := replies_answers S (Server.drain chunks) hbytes
    have hanswered : answered c (answering S c' chunks bytes took)
        = decide (c' = c ∧ took (.down c' bytes) = true) := by
      rw [answered, loses, answering]
      dsimp only [Move.lost]
      rw [hreplies]
      by_cases hc : c' = c <;> cases htook : took (.down c' bytes) <;> simp [asks, hresponse, hc]
    rw [hanswered, filterMap_replyText, answering]
    dsimp only [Move.added]
    rw [hreplies]
    by_cases hsent : c' = c ∧ took (.down c' bytes) = true
    · rw [decide_eq_true hsent, if_pos rfl, if_pos hsent]
      exact ⟨bytes, by simp [replyText, hbytes]⟩
    · rw [decide_eq_false hsent, if_neg Bool.false_ne_true, if_neg hsent]
      rfl
  · rw [answered, hmute.asks, Bool.false_and, if_neg Bool.false_ne_true,
      toward_eq_nil c hmute.added]
    rfl

theorem mem_of_mem_replies {c : ℕ} {ps : List Packet} {bytes : Bytes}
    (h : bytes ∈ (toward c ps).filterMap replyText) :
    .down c bytes ∈ ps ∧ isReply (.down c bytes) = true := by
  obtain ⟨p, hp, hbytes⟩ := List.mem_filterMap.mp h
  obtain ⟨hmem, hlane⟩ := Lanes.mem_inLane.mp hp
  cases p with
  | up c' chunks => cases hbytes
  | down c' bytes' =>
    obtain rfl : c' = c := congrArg Prod.fst hlane
    simp only [replyText] at hbytes
    split at hbytes
    · rename_i hreply
      obtain rfl := Option.some.inj hbytes
      exact ⟨hmem, hreply⟩
    · cases hbytes

/-- **Every request has its reply.** The replies that a connection gets, and
those that are in flight to it, are for the requests that were read from it,
one for each whose reply its socket did not refuse, and in this order. -/
theorem replies_in_order {S₀ S : Network} {tr : List Move} (hstart : Starts S₀)
    (h : Lanes.Run (Step parse) S₀ tr S) {c : ℕ} (hwhole : .recut (c, false) ∉ tr) :
    List.Forall₂ (fun move bytes => .down c bytes ∈ move.added ∧ isReply (.down c bytes) = true)
      (tr.filter (answered c))
      ((toward c (tr.flatMap Move.taken ++ S.flight)).filterMap replyText) := by
  rw [Run.toward hstart h hwhole]
  refine h.invariant (fun tr _ => List.Forall₂ _ (tr.filter (answered c))
    ((toward c (tr.flatMap Move.added)).filterMap replyText)) List.Forall₂.nil ?_
  intro tr S move S' _ ih hstep
  rw [List.filter_append, List.flatMap_append, List.flatMap_singleton, toward_append,
    List.filterMap_append]
  refine List.rel_append ih ?_
  have hreply := hstep.reply c
  split at hreply
  · rename_i hanswered
    obtain ⟨bytes, hbytes⟩ := hreply
    rw [List.filter_cons_of_pos hanswered, hbytes]
    exact List.Forall₂.cons (mem_of_mem_replies (hbytes ▸ List.mem_singleton_self _))
      List.Forall₂.nil
  · rename_i hanswered
    rw [List.filter_cons_of_neg hanswered, hreply]
    exact List.Forall₂.nil

/-- The replies on the connection of a client, and the requests they are for. -/
theorem replies_in_order_client : ∃ S₀ S tr, Starts S₀ ∧ Lanes.Run (Step CJSON.parse) S₀ tr S
    ∧ .down 1 (Message.reply true).text ∈ S.flight
    ∧ List.Forall₂ (fun move bytes => .down 1 bytes ∈ move.added ∧ isReply (.down 1 bytes) = true)
      (tr.filter (answered 1))
      ((toward 1 (tr.flatMap Move.taken ++ S.flight)).filterMap replyText) := by
  obtain ⟨S, d, h, -, -, -, -, hflight⟩ := reachable_commanded
  obtain ⟨S₀, tr, hstart, hrun, hwhole⟩ := h
  exact ⟨S₀, S, tr, hstart, hrun, by rw [hflight]; simp,
    replies_in_order hstart hrun (hwhole 1 false)⟩

/-! ## Commands go where they are routed to -/

/-- What is routed is a command. -/
theorem isCommand_of_mem_routed {S : Network} {text : Bytes} {p : Packet}
    (h : p ∈ routed S text) : isCommand p = true := by
  have hreply := isReply_of_mem_routed h
  rw [routed, Option.mem_toList] at h
  obtain ⟨r, -, hpacket⟩ := Option.bind_eq_some_iff.mp h
  obtain ⟨c, -, rfl⟩ := Option.map_eq_some_iff.mp hpacket
  rw [isCommand_eq, hreply]
  rfl

/-- The command is found among what is sent and what is lost. -/
theorem routeOf_answering (S : Network) (chunks : List Bytes) {c : ℕ} {bytes : Bytes}
    (hbytes : isReply (.down c bytes) = true) (took : Packet → Bool) :
    routeOf (answering S c chunks bytes took) = routeIn S (Server.drain chunks) := by
  have hnot : isCommand (.down c bytes) = false := by rw [isCommand_eq, hbytes]; rfl
  have hcommand : ∀ p ∈ routed S (Server.drain chunks), isCommand p = true :=
    fun _ => isCommand_of_mem_routed
  rw [answering, routeOf, answers]
  unfold routed at hcommand ⊢
  unfold routeIn at hcommand ⊢
  cases hreq : Server.requestOf (Server.drain chunks) with
  | forward key message =>
    rw [hreq] at hcommand
    dsimp only [Option.bind_some, Route.packet] at hcommand ⊢
    cases hconn : (Server.lookup S.server.clientList key).bind S.conn with
    | none => cases htook : took (.down c bytes) <;> simp [htook, hnot]
    | some c' =>
      rw [hconn] at hcommand
      have hmessage : isCommand (.down c' message) = true := hcommand _ List.mem_cons_self
      cases htook : took (.down c bytes) <;> cases htook' : took (.down c' message) <;>
        simp [htook, htook', hnot, hmessage, Packet.conn]
  | _ => rfl

/-- **The commands among what is to be sent** for a request, and what comes of
them. -/
theorem commands_answers (S : Network) (text : Bytes) {c' : ℕ} {bytes : Bytes}
    (hbytes : isReply (.down c' bytes) = true) (is : Packet → Bool) (c : ℕ) :
    (toward c ((answers S text c' bytes).filter is)).filter isCommand
      = toward c ((routed S text).filter is) := by
  have hnot : isCommand (.down c' bytes) = false := by rw [isCommand_eq, hbytes]; rfl
  have hreply : (toward c ([Packet.down c' bytes].filter is)).filter isCommand = [] := by
    refine List.filter_eq_nil_iff.mpr (fun p hp => ?_)
    rw [List.mem_singleton.mp (List.mem_of_mem_filter (Lanes.mem_inLane.mp hp).1), hnot]
    exact Bool.false_ne_true
  rw [answers, List.filter_append, toward_append, List.filter_append, hreply, List.append_nil]
  refine List.filter_eq_self.mpr (fun p hp => ?_)
  exact isCommand_of_mem_routed (List.mem_of_mem_filter (Lanes.mem_inLane.mp hp).1)

/-- The texts of the commands are those of the commands. -/
theorem filterMap_commandText (ps : List Packet) :
    ps.filterMap commandText = (ps.filter isCommand).filterMap commandText := by
  rw [List.filterMap_filter]
  refine List.filterMap_congr (fun p _ => ?_)
  cases p with
  | up c chunks => rfl
  | down c bytes => cases h : isCommand (.down c bytes) <;> simp [commandText, h]

/-- What is sent of a command that is routed, and what comes of it. -/
theorem commands_routed (S : Network) (text : Bytes) (took : Packet → Bool) (c : ℕ) :
    (toward c ((routed S text).filter took)).filterMap commandText
      = if (!(toward c ((routed S text).filter (fun p => !took p))).isEmpty) = true then []
        else ((routeIn S text).toList.filter (fun r => r.conn = some c)).map Route.message := by
  have hcommand : ∀ p ∈ routed S text, isCommand p = true := fun _ => isCommand_of_mem_routed
  unfold routed at hcommand ⊢
  cases hroute : routeIn S text with
  | none => rfl
  | some r =>
    rw [hroute] at hcommand
    rw [Option.bind_some, Route.packet] at hcommand ⊢
    cases hconn : r.conn with
    | none => simp [hconn]
    | some c' =>
      rw [hconn] at hcommand
      have hmessage : isCommand (.down c' r.message) = true := hcommand _ List.mem_cons_self
      have hdown := toward_down c c' r.message
      by_cases hc : c' = c
      · subst hc
        cases htook : took (.down c' r.message) <;>
          simp [htook, hdown, hconn, commandText, hmessage]
      · cases htook : took (.down c' r.message) <;> simp [htook, hc, hdown, hconn]

/-- **What a step routes, and what it sends for it**, unless it is refused. -/
theorem Step.route {S S' : Network} {move : Move} (h : Step parse S move S') :
    (∀ r ∈ routeOf move, r.conn = (Server.lookup S.server.clientList r.key).bind S.conn)
      ∧ ∀ c, (Network.toward c move.added).filterMap commandText
        = if loses isCommand c move = true then []
          else ((routeOf move).toList.filter (fun r => r.conn = some c)).map Route.message := by
  rcases h.sent with ⟨c', chunks, bytes, took, hreq, hbytes, rfl⟩ | hmute
  · have hcommands := commands_answers S (Server.drain chunks) hbytes
    rw [routeOf_answering S chunks hbytes took]
    refine ⟨fun r hr => (requestOf_of_routeIn hr).2, fun c => ?_⟩
    have hloses : loses isCommand c (answering S c' chunks bytes took)
        = !(Network.toward c ((routed S (Server.drain chunks)).filter
          (fun p => !took p))).isEmpty := by
      rw [loses, answering]
      dsimp only [Move.lost]
      rw [hcommands]
    rw [hloses, filterMap_commandText, answering]
    dsimp only [Move.added]
    rw [hcommands]
    exact commands_routed S (Server.drain chunks) took c
  · rw [hmute.route]
    refine ⟨fun r hr => (by cases hr), fun c => ?_⟩
    rw [toward_eq_nil c hmute.added]
    split <;> rfl

/-- A command for a device is one for its own key. -/
theorem Step.route_key {S S' : Network} {move : Move} {c : ℕ} (hS : Placed S) (hN : Named c S)
    (h : Step parse S move S') {r : Route} (hr : r ∈ routeOf move) (hc : r.conn = some c) :
    c < S.next ∧ ∀ key, (S.peer c).key = some key → r.key = key.1 := by
  rw [h.route.1 r hr] at hc
  obtain ⟨i, hfind, hconn⟩ := Option.bind_eq_some_iff.mp hc
  refine ⟨hS.conn_lt i c hconn, fun key hkey => ?_⟩
  have hholds : Server.holds (S.server.clientList i) r.key = true :=
    List.find?_some (p := fun i => Server.holds (S.server.clientList i) r.key) hfind
  rw [Server.holds, Bool.and_eq_true, Bool.and_eq_true, beq_iff_eq] at hholds
  exact hholds.2.symm.trans (hN.slot i key hconn hkey hholds.1.2)

theorem Run.route_key {S₀ S : Network} {tr : List Move} (hstart : Starts S₀)
    (h : Lanes.Run (Step parse) S₀ tr S) {c : ℕ} (hwhole : .recut (c, true) ∉ tr) :
    ∀ r ∈ tr.filterMap routeOf, r.conn = some c →
      c < S.next ∧ ∀ key, (S.peer c).key = some key → r.key = key.1 := by
  refine h.invariant (fun tr S => .recut (c, true) ∉ tr → ∀ r ∈ tr.filterMap routeOf,
    r.conn = some c → c < S.next ∧ ∀ key, (S.peer c).key = some key → r.key = key.1)
    (fun _ r hr => absurd hr List.not_mem_nil) ?_ hwhole
  intro tr S move S' hrun ih hstep hwhole r hr hc
  rw [List.mem_append, not_or] at hwhole
  obtain ⟨hnext, hkeeps, -⟩ := hstep.keeps
  have hbefore : c < S.next ∧ ∀ key, (S.peer c).key = some key → r.key = key.1 := by
    rw [List.filterMap_append, List.mem_append] at hr
    rcases hr with hr | hr
    · exact ih hwhole.1 r hr hc
    · obtain ⟨m, hm, hroute⟩ := List.mem_filterMap.mp hr
      rw [List.mem_singleton.mp hm] at hroute
      exact hstep.route_key (Run.placed hstart hrun) (Run.named hstart hrun hwhole.1) hroute hc
  exact ⟨hbefore.1.trans_le hnext, fun key hkey => hbefore.2 key (hkeeps c hbefore.1 ▸ hkey)⟩

/-- **Commands go where they are routed to.** The commands that a connection
gets, and those that are in flight to it, are the messages of the requests that
were routed to it and whose command its socket did not refuse, each once and in
this order, as long as what is sent to it arrives whole. What is routed to a
device is for its own key, as long as what it sends does. -/
theorem commands_in_order {S₀ S : Network} {tr : List Move} (hstart : Starts S₀)
    (h : Lanes.Run (Step parse) S₀ tr S) (c : ℕ) :
    (.recut (c, false) ∉ tr →
        (toward c (tr.flatMap Move.taken ++ S.flight)).filterMap commandText
          = (((tr.filter (fun move => !loses isCommand c move)).filterMap routeOf).filter
            (fun r => r.conn = some c)).map Route.message)
      ∧ (.recut (c, true) ∉ tr → ∀ key, (S.peer c).key = some key →
        ∀ r ∈ tr.filterMap routeOf, r.conn = some c → r.key = key.1) := by
  refine ⟨fun hwhole => ?_, fun hwhole key hkey r hr hc =>
    (Run.route_key hstart h hwhole r hr hc).2 key hkey⟩
  rw [Run.toward hstart h hwhole]
  refine h.invariant (fun tr _ => (toward c (tr.flatMap Move.added)).filterMap commandText
    = (((tr.filter (fun move => !loses isCommand c move)).filterMap routeOf).filter
      (fun r => r.conn = some c)).map Route.message) rfl ?_
  intro tr S move S' _ ih hstep
  have hone : ([move].filter (fun move => !loses isCommand c move)).filterMap routeOf
      = if loses isCommand c move = true then [] else (routeOf move).toList := by
    cases hloses : loses isCommand c move <;> cases hroute : routeOf move <;> simp [hloses, hroute]
  rw [List.flatMap_append, List.flatMap_singleton, toward_append, List.filterMap_append, ih,
    List.filter_append, List.filterMap_append, List.filter_append, List.map_append, hone,
    hstep.route.2 c]
  split <;> rfl

/-- The commands on the connection of a device, and how they were routed. -/
theorem commands_in_order_device : ∃ S₀ S tr, Starts S₀
    ∧ Lanes.Run (Step CJSON.parse) S₀ tr S ∧ .down 0 Message.reset.text ∈ S.flight
    ∧ (toward 0 (tr.flatMap Move.taken ++ S.flight)).filterMap commandText
      = (((tr.filter (fun move => !loses isCommand 0 move)).filterMap routeOf).filter
        (fun r => r.conn = some 0)).map Route.message := by
  obtain ⟨S, d, h, -, -, -, -, hflight⟩ := reachable_commanded
  obtain ⟨S₀, tr, hstart, hrun, hwhole⟩ := h
  exact ⟨S₀, S, tr, hstart, hrun, by rw [hflight]; simp,
    (commands_in_order hstart hrun 0).1 (hwhole 0 false)⟩

/-! ## What a device does was asked for -/

/-- A device does what a message says. -/
theorem deeds_receive (hp : CJSON.FrontParser parse) (key : Bytes) (d : Device) {t : Turn}
    {m : Message} (ht : t.recv = .data m.text) :
    Device.deeds (Device.receive parse key d t).2 = m.deeds := by
  have hparse : parse (cstr m.text) = some (CJSON.ofJson m.value) := by
    have hderives := m.derives_text []
    rw [List.append_nil] at hderives
    rw [cstr_eq_self m.zero_notMem_text, hp.value_front hderives]
  rw [Device.receive, ht]
  dsimp only
  rw [hparse, Option.elim_some, ← Device.rootDeeds_value m]
  exact (Device.handleRoot_deeds key d t (CJSON.ofJson m.value)).1

/-- **Whatever a device does was asked for.** When a device is about to receive
something, and does anything for it, then a request for its own key has been
routed to it, and what it does is what the request says, as long as the
messages on its connection arrive whole. -/
theorem deeds_asked (hp : CJSON.FrontParser parse) {S₀ S : Network} {tr : List Move}
    (hstart : Starts S₀) (h : Lanes.Run (Step parse) S₀ tr S) {c : ℕ} {bytes : Bytes}
    {rest : List Packet} {key : {key : Bytes // Server.IsKey key}} {d : Device} {t : Turn}
    (hwhole : Whole c tr) (hpeer : S.peer c = .device key d)
    (hfront : Packet.Front S.flight (.down c bytes) rest) (ht : t.recv = .data bytes)
    (hdeeds : Device.deeds (Device.receive parse key d t).2 ≠ []) :
    ∃ m : Message, Device.deeds (Device.receive parse key d t).2 = m.deeds
      ∧ ∃ r ∈ tr.filterMap routeOf, r.conn = some c ∧ r.key = key ∧ r.message = m.text := by
  have hmem := (mem_of_front hfront).1
  have hdevice : S.peer c ≠ .client := by
    rw [hpeer]
    exact Peer.noConfusion
  obtain ⟨m, rfl⟩ := Run.sound hstart h hwhole _ hmem rfl hdevice
  have hdone := deeds_receive hp key.1 d ht
  have hcommand : isCommand (.down c m.text) = true := by
    rw [isCommand_eq, isReply_text, (Message.deeds_ne_nil_iff m).mp (hdone ▸ hdeeds)]
    rfl
  obtain ⟨horder, hkey⟩ := commands_in_order hstart h c
  have horder := horder (hwhole false)
  have hget : m.text ∈ (toward c (tr.flatMap Move.taken ++ S.flight)).filterMap commandText :=
    List.mem_filterMap.mpr ⟨.down c m.text,
      Lanes.mem_inLane.mpr ⟨List.mem_append_right _ hmem, rfl⟩, if_pos hcommand⟩
  rw [horder] at hget
  obtain ⟨r, hr, hmessage⟩ := List.mem_map.mp hget
  obtain ⟨hr, hc⟩ := List.mem_filter.mp hr
  have hc := of_decide_eq_true hc
  have hr := (List.filter_sublist.filterMap routeOf).subset hr
  exact ⟨m, hdone, r, hr, hc, hkey (hwhole true) key (by rw [hpeer]; rfl) r hr hc, hmessage⟩

/-- A device has the reply to its `bind`, and gets a `reset`. -/
theorem deeds_asked_reset : ∃ S₀ S tr, Starts S₀ ∧ Lanes.Run (Step CJSON.parse) S₀ tr S
    ∧ ∃ r ∈ tr.filterMap routeOf, r.conn = some 0 ∧ r.key = lit "0123456789AB" := by
  obtain ⟨S, d, h, -, hpeer, hgo, -, hflight⟩ := reachable_commanded
  let key : {key : Bytes // Server.IsKey key} := ⟨lit "0123456789AB", Server.isKey_digits⟩
  let t := Device.turnAt 1000000 (.data (Message.reply true).text)
  let t' := Device.turnAt 1000000 (.data Message.reset.text)
  have hfront : Packet.Front S.flight (.down 0 (Message.reply true).text)
      [.down 0 Message.reset.text, .down 1 (Message.reply true).text] :=
    ⟨[], _, hflight, rfl, List.forall_mem_nil _⟩
  have h' := h.step (.hear (t := t) hpeer hgo hfront rfl) rfl
  obtain ⟨S₀, tr, hstart, hrun, hwhole⟩ := h'
  have hpeer' : (acted S 0 key (Device.receive CJSON.parse key d t).1
      (Device.receive CJSON.parse key d t).2 [.down 0 Message.reset.text,
        .down 1 (Message.reply true).text]).peer 0
        = .device key (Device.receive CJSON.parse key d t).1 := acted_peer ..
  obtain ⟨m, -, r, hr, hc, hkey, -⟩ := deeds_asked CJSON.frontParser hstart hrun (t := t')
    (hwhole 0) hpeer' ⟨[], _, rfl, rfl, List.forall_mem_nil _⟩ rfl
    (by rw [deeds_receive CJSON.frontParser key.1 _ rfl]; exact List.cons_ne_nil _ _)
  exact ⟨S₀, _, tr, hstart, hrun, r, hr, hc, hkey⟩

end Network
