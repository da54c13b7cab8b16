import WolServer.DeviceStream
import WolServer.Network
import WolServer.Segmentation

/-!
# How each side reacts to a message

A request makes the server send a reply and at most one command
(`Network.weight_handleRequest`); a command makes a device send at most one
response (`Network.upward_receive`); and there it ends, because a reply and a
response make nobody send. So a request in flight is good for four deliveries
at most, a command for two, a reply and a response for one (`Network.cost`).

That a device makes nothing of a reply has to be known of the replies it
gets, and a `client_list` has a reply that can be anything. A device never
asks for one – whatever the name of its network is
(`Network.modest_bindText`).
-/

namespace Network

/-! ## What is in flight -/

/-- A message to the server that is a `response`. -/
def isResponse : Packet → Bool
  | .up _ chunks => decide (Server.IsResponse (Server.drain chunks))
  | .down _ _ => false

/-- A message to the server that is none: a request. -/
def isRequest : Packet → Bool
  | .up _ chunks => !decide (Server.IsResponse (Server.drain chunks))
  | .down _ _ => false

/-- A message from the server that has a status: a reply. -/
def isReply : Packet → Bool
  | .up _ _ => false
  | .down _ bytes => (lit "\x7b\"status\":").isPrefixOf bytes

/-- A message from the server that has none: a command. -/
def isCommand : Packet → Bool
  | .up _ _ => false
  | .down _ bytes => !(lit "\x7b\"status\":").isPrefixOf bytes

/-- **How many deliveries a message is good for.** -/
def cost (p : Packet) : ℕ :=
  if isRequest p = true then 4 else if isCommand p = true then 2 else 1

/-- How many deliveries the messages in flight are good for. -/
def weight (ps : List Packet) : ℕ := (ps.map cost).sum

theorem cost_pos (p : Packet) : 0 < cost p := by
  unfold cost
  split_ifs <;> exact Nat.succ_pos _

theorem cost_le_four (p : Packet) : cost p ≤ 4 := by
  unfold cost
  split_ifs <;> decide

theorem cost_response {p : Packet} (h : isResponse p = true) : cost p = 1 := by
  cases p with
  | up c chunks =>
    have hrequest : isRequest (.up c chunks) = !isResponse (.up c chunks) := rfl
    rw [cost, hrequest, h]
    rfl
  | down c bytes => cases h

theorem cost_request {c : ℕ} {chunks : List Bytes} (h : isResponse (.up c chunks) = false) :
    cost (.up c chunks) = 4 := by
  have hrequest : isRequest (.up c chunks) = !isResponse (.up c chunks) := rfl
  rw [cost, hrequest, h]
  rfl

theorem cost_command {p : Packet} (h : isCommand p = true) : cost p = 2 := by
  cases p with
  | up c chunks => cases h
  | down c bytes =>
    rw [cost, h]
    rfl

theorem cost_down_le (c : ℕ) (bytes : Bytes) : cost (.down c bytes) ≤ 2 := by
  rw [cost, if_neg Bool.noConfusion]
  split_ifs <;> decide

theorem cost_eq (p : Packet) :
    cost p = 4 * (if isRequest p = true then 1 else 0) + 2 * (if isCommand p = true then 1 else 0)
      + (if isReply p = true then 1 else 0) + if isResponse p = true then 1 else 0 := by
  cases p with
  | up c chunks =>
    have hrequest : isRequest (.up c chunks) = !isResponse (.up c chunks) := rfl
    rw [cost, hrequest]
    cases isResponse (.up c chunks) <;> rfl
  | down c bytes =>
    have hcommand : isCommand (.down c bytes) = !isReply (.down c bytes) := rfl
    rw [cost, hcommand]
    cases isReply (.down c bytes) <;> rfl

/-- The weight goes by how many messages there are of each kind. -/
theorem weight_eq (ps : List Packet) :
    weight ps = 4 * ps.countP isRequest + 2 * ps.countP isCommand + ps.countP isReply
      + ps.countP isResponse := by
  induction ps with
  | nil => rfl
  | cons p ps ih =>
    have hcons : weight (p :: ps) = cost p + weight ps := rfl
    rw [hcons, ih, cost_eq]
    simp only [List.countP_cons]
    ring

theorem weight_singleton (p : Packet) : weight [p] = cost p := Nat.add_zero _

theorem weight_append (ps qs : List Packet) : weight (ps ++ qs) = weight ps + weight qs := by
  rw [weight, List.map_append, List.sum_append]
  rfl

/-- A message that is taken from the front takes its cost with it. -/
theorem weight_front {flight rest : List Packet} {p : Packet} (h : Packet.Front flight p rest) :
    weight flight = weight rest + cost p := by
  obtain ⟨before, after, rfl, rfl, -⟩ := h
  have hcons : weight (p :: after) = cost p + weight after := rfl
  rw [weight_append, weight_append, hcons]
  omega

theorem mem_of_front {flight rest : List Packet} {p : Packet} (h : Packet.Front flight p rest) :
    p ∈ flight ∧ rest ⊆ flight := by
  obtain ⟨before, after, rfl, rfl, -⟩ := h
  exact ⟨by simp, List.append_subset.mpr ⟨by simp, fun q hq => by simp [hq]⟩⟩

/-- **What a message makes its receiver send**: a reply nothing, a response
nothing, and a command one response at most. -/
structure Reacts (p : Packet) (sent : List Packet) : Prop where
  reply : isReply p = true → sent = []
  response : isResponse p = true → sent = []
  command : isCommand p = true → sent = [] ∨ ∃ r, sent = [r] ∧ isResponse r = true

/-! ## How the server reacts -/

/-- What the server sends costs two at most, each. -/
theorem weight_downward_le (conn : ℕ → Option ℕ) (es : List Effect) :
    weight (es.filterMap (downward conn)) ≤ 2 * es.countP Effect.isSend := by
  have hone : ∀ e : Effect,
      weight (downward conn e).toList ≤ 2 * if e.isSend = true then 1 else 0 := by
    intro e
    cases e with
    | send i buffer size =>
      cases hc : conn i with
      | none => simp [downward, hc, weight]
      | some c =>
        simpa [downward, hc, weight, Effect.isSend] using cost_down_le c (buffer.take size)
    | _ => exact Nat.zero_le _
  induction es with
  | nil => exact Nat.zero_le _
  | cons e es ih =>
    have he := hone e
    rw [List.countP_cons]
    cases hd : downward conn e with
    | none =>
      rw [List.filterMap_cons_none hd]
      omega
    | some p =>
      rw [hd] at he
      rw [List.filterMap_cons_some hd, ← List.singleton_append, weight_append]
      have : weight [p] ≤ 2 * if e.isSend = true then 1 else 0 := he
      omega

/-- A branch sends one message at most. -/
theorem perform_sends_le (s : Server) (fd : ℕ) (r : Request) :
    (Server.perform s fd r).effects.countP Effect.isSend ≤ 1 := by
  have hlook : ∀ l : List ℕ, (l.map Effect.access).countP Effect.isSend = 0 := fun l =>
    List.countP_eq_zero.mpr (fun e he => by
      obtain ⟨i, -, rfl⟩ := List.mem_map.mp he
      exact Bool.false_ne_true)
  cases r with
  | forward key message =>
    unfold Server.perform Server.deliver
    dsimp only
    split
    · exact (hlook _).trans_le (Nat.zero_le 1)
    · split
      · rw [List.countP_append, hlook]
        exact le_refl 1
      · exact (hlook _).trans_le (Nat.zero_le 1)
  | warn =>
    rw [Server.perform, Server.warn_eq]
    dsimp only [Server.Branch.none]
    split <;> simp [Effect.isSend]
  | clientList => exact (hlook _).trans_le (Nat.zero_le 1)
  | _ => exact Nat.zero_le 1

/-- The reply costs one. -/
theorem weight_reply_le (conn : ℕ → Option ℕ) (b : Server.Branch) (fd now : ℕ) :
    weight ((Server.reply b fd now).2.filterMap (downward conn)) ≤ 1 := by
  cases hign : b.retToIgnore with
  | true =>
    rw [Server.reply, if_pos hign]
    exact Nat.zero_le 1
  | false =>
    rw [Server.reply_eq hign, List.filterMap_append]
    have hlook : (if b.retToClient = true then [Effect.access fd] else []).filterMap
        (downward conn) = [] := by
      split <;> rfl
    rw [hlook, List.nil_append]
    cases hc : conn fd with
    | none => simp [downward, hc, weight]
    | some c =>
      -- what is sent of the buffer starts with the status
      have hstatus : (lit "\x7b\"status\":").isPrefixOf
          ((snprintf bufferSize (Server.retStr b.retToClient b.strSend)).1.take
            (Server.retStr b.retToClient b.strSend).length) = true := by
        have hbuffer := Server.isPrefixOf_reply b.retToClient b.strSend
        rw [List.isPrefixOf_iff_prefix] at hbuffer ⊢
        refine List.prefix_take_iff.mpr ⟨hbuffer, hbuffer.length_le.trans ?_⟩
        rw [snprintf, List.length_take]
        exact Nat.min_le_right _ _
      simp [downward, hc, weight, cost, isRequest, isCommand, hstatus]

/-- **How the server reacts to a message**: not at all to a response, and with
three at most to a request. -/
theorem weight_handleRequest (conn : ℕ → Option ℕ) (s : Server) (fd now : ℕ) (text : Bytes) :
    (Server.IsResponse text →
        (Server.handleRequest s fd text now).2.filterMap (downward conn) = [])
      ∧ weight ((Server.handleRequest s fd text now).2.filterMap (downward conn)) ≤ 3 := by
  constructor
  · intro hresponse
    rw [Server.handleRequest_effects, (Server.requestOf_eq_ignore_iff text).mpr hresponse]
    rfl
  · rw [Server.handleRequest_effects, List.filterMap_cons_none rfl, List.filterMap_append,
      weight_append]
    have hbranch := weight_downward_le conn (Server.perform s fd (Server.requestOf text)).effects
    have hsends := perform_sends_le s fd (Server.requestOf text)
    have hreply := weight_reply_le conn (Server.perform s fd (Server.requestOf text)) fd now
    omega

/-- A step of the server that reads nothing sends nothing. -/
theorem sends_eq_nil {S : Network} {l : Server.Label} {s : Server} {es : List Effect}
    (h : Server.step S.server l = some (s, es)) (hreads : Server.reads S.server l = none)
    (took : Packet → Bool) : sends S.conn took es = [] := by
  rcases Server.step_reads h with ⟨-, hsend⟩ | ⟨fd, env, hsome, -⟩
  · have hnone : es.filterMap (downward S.conn) = [] := by
      refine List.filterMap_eq_nil_iff.mpr (fun e he => ?_)
      cases e with
      | send i buffer size => cases hsend _ he
      | _ => rfl
    rw [sends, hnone]
    rfl
  · cases hreads.symm.trans hsome

/-- What a step of the server sends that reads a message. -/
theorem effects_of_reads {S : Network} {l : Server.Label} {s : Server} {es : List Effect} {fd : ℕ}
    {env : Env} (h : Server.step S.server l = some (s, es))
    (hreads : Server.reads S.server l = some (fd, env)) :
    es = (Server.handleRequest S.server fd (Server.drain env.chunks) env.now).2 := by
  rcases Server.step_reads h with ⟨hnone, -⟩ | ⟨fd', env', hsome, hes⟩
  · cases hreads.symm.trans hnone
  · obtain ⟨rfl, rfl⟩ := Prod.mk.inj (Option.some.inj (hreads.symm.trans hsome))
    exact hes

/-- What a socket refuses costs nothing. -/
theorem weight_filter_le (took : Packet → Bool) (ps : List Packet) :
    weight (ps.filter took) ≤ weight ps :=
  (List.filter_sublist.map cost).sum_le_sum (fun _ _ => Nat.zero_le _)

/-- **What the server does when it has read a message**, whatever its sockets
take. -/
theorem reacts_request {S : Network} {l : Server.Label} {s : Server} {es : List Effect}
    {fd : ℕ} {env : Env} (c : ℕ) (took : Packet → Bool)
    (h : Server.step S.server l = some (s, es))
    (hreads : Server.reads S.server l = some (fd, env)) :
    Reacts (.up c env.chunks)
        (sends S.conn took es ++ sends S.conn (fun p => !took p) es)
      ∧ weight (sends S.conn took es) < cost (.up c env.chunks) := by
  obtain ⟨hignore, hweight⟩ := weight_handleRequest S.conn S.server fd env.now
    (Server.drain env.chunks)
  rw [← effects_of_reads h hreads] at hignore hweight
  have hsends : weight (sends S.conn took es) ≤ weight (es.filterMap (downward S.conn)) :=
    weight_filter_le took _
  have hresponse : isResponse (.up c env.chunks) = true → ∀ took, sends S.conn took es = [] := by
    intro hr took
    rw [isResponse, decide_eq_true_eq] at hr
    rw [sends, hignore hr]
    rfl
  refine ⟨⟨Bool.noConfusion, fun hr => ?_, Bool.noConfusion⟩, ?_⟩
  · rw [hresponse hr, hresponse hr]
    rfl
  · cases hr : isResponse (.up c env.chunks) with
    | true =>
      rw [hresponse hr]
      exact cost_pos _
    | false =>
      rw [cost_request hr]
      exact Nat.lt_succ_of_le (hsends.trans hweight)

/-! ## How a device reacts -/

open Device (sendText responseText bindText beatText warnText handleRoot rootDeeds)

/-- A text that a device sends is in flight if `send` took it, as much of it as
fits the buffer. -/
theorem upward_sendText (c : ℕ) (t : Turn) (kind : Kind) (text : Bytes) :
    (sendText t kind text).filterMap (upward c) = []
      ∨ (sendText t kind text).filterMap (upward c) = [.up c [text.take 255]] := by
  have hbuffer : (text.take 255).take text.length = text.take 255 :=
    List.take_of_length_le (by rw [List.length_take]; exact Nat.min_le_right _ _)
  unfold sendText
  dsimp only
  split
  · cases ht : t.takes kind with
    | true => exact Or.inr (by simp [upward, snprintf, hbuffer])
    | false => exact Or.inl (by simp [upward])
  · exact Or.inl rfl

/-- What is done for a command puts nothing in flight. -/
theorem upward_command (c : ℕ) {t : Turn} {pRoot : CJSON} {cmd : Bytes} {acts : List Act}
    {cmdStatus : Bool} (h : Device.command t pRoot cmd = some (acts, cmdStatus)) :
    acts.filterMap (upward c) = [] := by
  unfold Device.command at h
  split_ifs at h
  · split at h
    · cases h
    · obtain ⟨rfl, -⟩ := Prod.mk.inj (Option.some.inj h)
      rfl
    · obtain ⟨rfl, -⟩ := Prod.mk.inj (Option.some.inj h)
      rfl
  · split at h
    · cases h
    · obtain ⟨rfl, -⟩ := Prod.mk.inj (Option.some.inj h)
      rfl
    · obtain ⟨rfl, -⟩ := Prod.mk.inj (Option.some.inj h)
      rfl
  · obtain ⟨rfl, -⟩ := Prod.mk.inj (Option.some.inj h)
    rfl
  · obtain ⟨rfl, -⟩ := Prod.mk.inj (Option.some.inj h)
    rfl

/-- A parsed text makes a device send a response at most, and only if it is a
command. -/
theorem upward_handleRoot (c : ℕ) (key : Bytes) (d : Device) (t : Turn) (pRoot : CJSON) :
    (handleRoot key d t pRoot).2.filterMap (upward c) = []
      ∨ (rootDeeds pRoot ≠ [] ∧ ∃ cmdStatus, (handleRoot key d t pRoot).2.filterMap (upward c)
        = [.up c [(responseText cmdStatus key).take 255]]) := by
  have hdeeds := (Device.handleRoot_deeds key d t pRoot).1
  unfold handleRoot at hdeeds ⊢
  split at hdeeds
  · exact Or.inl rfl
  · exact Or.inl rfl
  split at hdeeds
  · exact Or.inl rfl
  · exact Or.inl rfl
  · split at hdeeds
    · exact Or.inl rfl
    · rename_i acts cmdStatus hcommand
      rw [List.filterMap_append, upward_command c hcommand, List.nil_append]
      refine (upward_sendText c t .response (responseText cmdStatus key)).imp id
        (fun hsent => ⟨?_, cmdStatus, hsent⟩)
      rw [← hdeeds, Device.deeds_append, Device.deeds_response]
      simp

/-- A key can be written as it is. -/
theorem plain_key {key : Bytes} (hkey : Server.IsKey key) : JsonText.Plain key := by
  intro b hb
  obtain ⟨v, hv⟩ := Option.isSome_iff_exists.mp (hkey.2 b hb)
  have hdigit := JsonText.toNat_of_hexVal hv
  have h₁ : (32 : UInt8).toNat = 32 := rfl
  simp only [JsonText.special, Bool.or_eq_false_iff, decide_eq_false_iff_not, beq_eq_false_iff_ne,
    UInt8.lt_iff_toNat_lt, h₁]
  refine ⟨⟨by omega, ?_⟩, ?_⟩ <;> (rintro rfl; cases hv)

open JsonText in
/-- The text of a response is a text of an object. -/
theorem derives_responseText {key : Bytes} (hkey : Server.IsKey key) (cmdStatus : Bool)
    (r : Bytes) : Derives (responseText cmdStatus key ++ r) (.value (.obj
      [(lit "cmd", .str (lit "response")), (lit "response", .obj
        [(lit "status", .bool cmdStatus), (lit "key", .str key)])])) r := by
  have htext : responseText cmdStatus key = 123 :: 34 :: (lit "cmd" ++ 34 :: 58 :: 34
      :: (lit "response" ++ 34 :: 44 :: 34 :: (lit "response" ++ 34 :: 58 :: 123 :: 34
        :: (lit "status" ++ 34 :: 58 :: ((if cmdStatus then lit "true" else lit "false")
          ++ 44 :: 34 :: (lit "key" ++ 34 :: 58 :: 34 :: (key ++ [34, 125, 125]))))))) := by
    have h₁ : lit "\x7b\"cmd\":\"response\",\"response\":\x7b\"status\":" = 123 :: 34 :: (lit "cmd"
      ++ 34 :: 58 :: 34 :: (lit "response" ++ 34 :: 44 :: 34 :: (lit "response" ++ 34 :: 58 :: 123
        :: 34 :: (lit "status" ++ [34, 58])))) := rfl
    have h₂ : lit ",\"key\":\"" = 44 :: 34 :: (lit "key" ++ [34, 58, 34]) := rfl
    have h₃ : lit "\"\x7d\x7d" = [34, 125, 125] := rfl
    rw [responseText, h₁, h₂, h₃]
    simp only [List.cons_append, List.append_assoc, List.nil_append]
  rw [htext]
  simp only [List.cons_append, List.append_assoc, List.nil_append]
  refine Derives.obj (derives_member (by simp [Plain, special, lit])
    (derives_str (by simp [Plain, special, lit]) _)
    (derives_lastMember (by simp [Plain, special, lit]) (Derives.obj (derives_member
      (by simp [Plain, special, lit]) ?_ (derives_lastMember (by simp [Plain, special, lit])
        (derives_str (plain_key hkey) _))))))
  cases cmdStatus with
  | true => exact Derives.true_ _
  | false => exact Derives.false_ _

/-- **The response of a device is one.** -/
theorem isResponse_responseText {key : Bytes} (hkey : Server.IsKey key) (cmdStatus : Bool) :
    Server.IsResponse (Server.drain [(responseText cmdStatus key).take 255]) := by
  have hlen : (responseText cmdStatus key).length ≤ 255 := by
    have h₁ : (lit "\x7b\"cmd\":\"response\",\"response\":\x7b\"status\":").length = 39 := by decide
    have h₂ : (lit ",\"key\":\"").length = 8 := by decide
    have h₃ : (lit "\"\x7d\x7d").length = 3 := by decide
    have h₄ : (if cmdStatus then lit "true" else lit "false").length ≤ 5 := by
      cases cmdStatus <;> decide
    have hkeylen := hkey.1
    simp only [responseText, List.length_append, h₁, h₂, h₃]
    omega
  have hzero : (0 : UInt8) ∉ responseText cmdStatus key := by
    have hkeyzero := hkey.bare.zero_notMem
    cases cmdStatus <;> simp [responseText, lit, hkeyzero]
  have hderives := derives_responseText hkey cmdStatus []
  rw [List.append_nil] at hderives
  rw [List.take_of_length_le hlen]
  have hdrain : Server.drain [responseText cmdStatus key] = responseText cmdStatus key := by
    rw [Server.drain, List.flatMap_singleton, cstr_eq_self hzero]
  rw [hdrain, Server.IsResponse, Server.member, Server.rootOf, cstr_eq_self hzero,
    CJSON.frontParser.value_front hderives]
  rfl

variable {parse : Bytes → Option CJSON}

/-- A message has a status exactly if it is a reply. -/
theorem isReply_text (c : ℕ) (m : Message) : isReply (.down c m.text) = !m.isCommand := by
  cases m with
  | reply status =>
    show (lit "\x7b\"status\":").isPrefixOf (Server.retStr status []) = true
    cases status <;> decide
  | wolSend mac => rfl
  | shutdownSend mac => rfl
  | reset => rfl

/-- **How a device reacts to a message of the server**: not at all to a reply,
and with one response at most to a command. -/
theorem upward_receive (hp : CJSON.FrontParser parse) (c : ℕ) {key : Bytes}
    (hkey : Server.IsKey key) (d : Device) {t : Turn} {m : Message} (ht : t.recv = .data m.text) :
    (Device.receive parse key d t).2.filterMap (upward c) = []
      ∨ (m.isCommand = true ∧ ∃ r, (Device.receive parse key d t).2.filterMap (upward c) = [r]
        ∧ isResponse r = true) := by
  have hzero : (0 : UInt8) ∉ m.text := by
    obtain ⟨tail, htext, hinner, -⟩ := m.text_eq
    rw [htext, List.mem_cons]
    rintro (h0 | h0)
    · cases h0
    · exact absurd (hinner 0 h0).1 (by decide)
  have hderives := m.derives_text []
  rw [List.append_nil] at hderives
  have hparse : parse (cstr m.text) = some (CJSON.ofJson m.value) := by
    rw [cstr_eq_self hzero, hp.value_front hderives]
  rw [Device.receive, ht]
  dsimp only
  rw [hparse, Option.elim_some, List.filterMap_cons_none rfl]
  rcases upward_handleRoot c key d t (CJSON.ofJson m.value) with h | ⟨hdeeds, cmdStatus, h⟩
  · exact Or.inl h
  · rw [Device.rootDeeds_value, Message.deeds_ne_nil_iff] at hdeeds
    have hresponse := isResponse_responseText hkey cmdStatus
    refine Or.inr ⟨hdeeds, _, h, ?_⟩
    rw [isResponse, decide_eq_true_eq]
    exact hresponse

/-- **What a device does when it has received a message.** -/
theorem reacts_receive (hp : CJSON.FrontParser parse) (c : ℕ) {key : Bytes}
    (hkey : Server.IsKey key) (d : Device) {t : Turn} {m : Message} (ht : t.recv = .data m.text) :
    Reacts (.down c m.text) ((Device.receive parse key d t).2.filterMap (upward c))
      ∧ weight ((Device.receive parse key d t).2.filterMap (upward c)) < cost (.down c m.text) := by
  rcases upward_receive hp c hkey d ht with hnone | ⟨hcommand, r, hone, hr⟩
  · rw [hnone]
    exact ⟨⟨fun _ => rfl, fun _ => rfl, fun _ => Or.inl rfl⟩, cost_pos _⟩
  · rw [hone]
    have hreply : isReply (.down c m.text) = false := by rw [isReply_text, hcommand]; rfl
    have hcmd : isCommand (.down c m.text) = true := congrArg not hreply
    refine ⟨⟨fun h => ?_, Bool.noConfusion, fun _ => Or.inr ⟨r, rfl, hr⟩⟩, ?_⟩
    · cases hreply.symm.trans h
    · rw [weight_singleton, cost_response hr, cost_command hcmd]
      exact Nat.lt_succ_self 1

/-! ## What a device asks for -/

/-- A text that starts with a command, cut behind the comma. -/
theorem front_eq (cmd r : Bytes) : 123 :: (memberText (lit "cmd", cmd) ++ 44 :: r)
    = 123 :: (memberText (lit "cmd", cmd) ++ [44]) ++ r := by simp

theorem cstr_front {cmd : Bytes} (hcmd : Bare cmd) (r : Bytes) :
    cstr (123 :: (memberText (lit "cmd", cmd) ++ 44 :: r))
      = 123 :: (memberText (lit "cmd", cmd) ++ 44 :: cstr r) := by
  have hzero : (0 : UInt8) ∉ 123 :: (memberText (lit "cmd", cmd) ++ [44]) := by
    have := hcmd.zero_notMem
    simp [memberText, lit, this]
  rw [front_eq, cstr_append hzero, ← front_eq]

/-- A text that starts with a command asks for what the command is, or for
nothing. -/
theorem requestOf_front {cmd : Bytes} (hcmd : Bare cmd) (r : Bytes) :
    Server.requestOf (123 :: (memberText (lit "cmd", cmd) ++ 44 :: r)) = .refuse
      ∨ ∃ root, Server.requestOf (123 :: (memberText (lit "cmd", cmd) ++ 44 :: r))
        = Server.requestOfCommand root cmd := by
  have hname : Bare (lit "cmd") := by simp [Bare, lit]
  cases hroot : Server.rootOf (123 :: (memberText (lit "cmd", cmd) ++ 44 :: r)) with
  | none =>
    rw [Server.requestOf_eq, hroot]
    exact Or.inl rfl
  | some root =>
    -- whatever the parser makes of the rest, the first member is the command
    refine Or.inr ⟨root, Server.requestOf_of_command hroot ?_⟩
    rw [Server.rootOf, cstr_front hcmd] at hroot
    obtain ⟨ms, hchild⟩ := CJSON.parse_front ⟨hname, hcmd⟩ hroot
    rw [LibJson.textValue, LibJson.stringValue, CJSON.getObjectItem, hchild]
    exact congrArg some (cstr_eq_self hcmd.zero_notMem)

/-- The messages of a device: none of them asks for the list of the clients. -/
def Modest (chunks : List Bytes) : Prop := Server.requestOf (Server.drain chunks) ≠ .clientList

/-- A `bind` asks for no list, whatever the network is called. -/
theorem modest_bindText (key ssid ip : Bytes) : Modest [(bindText key ssid ip).take 255] := by
  have hbind : Bare (lit "bind") := by simp [Bare, lit]
  have hfront : (123 :: (memberText (lit "cmd", lit "bind") ++ [44])).length ≤ 255 := by decide
  -- the buffer keeps the command, and a part of the rest
  obtain ⟨r, hr⟩ : ∃ r, Server.drain [(bindText key ssid ip).take 255]
      = 123 :: (memberText (lit "cmd", lit "bind") ++ 44 :: r) := by
    rw [Device.bindText_eq, front_eq, List.take_append, List.take_of_length_le hfront,
      ← front_eq, Server.drain, List.flatMap_singleton, cstr_front hbind]
    exact ⟨_, rfl⟩
  rw [Modest, hr]
  rcases requestOf_front hbind r with h | ⟨root, h⟩
  · rw [h]
    exact Request.noConfusion
  · rw [h]
    show Server.bindOf root ≠ .clientList
    unfold Server.bindOf
    split <;> exact Request.noConfusion

/-- Nor does a text that is its command alone. -/
theorem modest_plain {cmd : Bytes} (hcmd : Bare cmd) (hlen : cmd.length ≤ 200)
    (hne : ∀ root, Server.requestOfCommand root cmd ≠ .clientList) :
    Modest [(flatText [(lit "cmd", cmd)]).take 255] := by
  have hms : Readable [(lit "cmd", cmd)] :=
    List.forall_mem_singleton.mpr ⟨by simp [Bare, lit], hcmd⟩
  have hsize : (flatText [(lit "cmd", cmd)]).length ≤ 255 := by
    rw [flatText, List.map_singleton, List.intercalate_singleton, memberText]
    simp only [List.length_cons, List.length_append, List.length_nil]
    have : (lit "cmd").length = 3 := by decide
    omega
  have hdrain : Server.drain [flatText [(lit "cmd", cmd)]] = flatText [(lit "cmd", cmd)] := by
    rw [Server.drain, List.flatMap_singleton, cstr_eq_self (zero_notMem_flatText hms)]
  have hvalue : LibJson.textValue (CJSON.flatRoot [(lit "cmd", cmd)]) (lit "cmd") = some cmd :=
    CJSON.textValue_flatRoot hms _
  rw [Modest, List.take_of_length_le hsize, hdrain, Server.requestOf_of_command
    (Server.rootOf_flatText (List.cons_ne_nil _ _) hms) hvalue]
  exact hne _

theorem modest_responseText {key : Bytes} (hkey : Server.IsKey key) (cmdStatus : Bool) :
    Modest [(responseText cmdStatus key).take 255] := by
  rw [Modest, (Server.requestOf_eq_ignore_iff _).mpr (isResponse_responseText hkey cmdStatus)]
  exact Request.noConfusion

/-- A message to the server that a device may have sent. -/
def ModestUp (c : ℕ) (p : Packet) : Prop := ∃ chunks, p = .up c chunks ∧ Modest chunks

theorem modest_sendText (c : ℕ) (t : Turn) (kind : Kind) {text : Bytes}
    (h : Modest [text.take 255]) :
    ∀ p ∈ (sendText t kind text).filterMap (upward c), ModestUp c p := by
  rcases upward_sendText c t kind text with hnone | hone
  · rw [hnone]
    exact List.forall_mem_nil _
  · rw [hone]
    exact List.forall_mem_singleton.mpr ⟨_, rfl, h⟩

/-- **What a device sends when it is due asks for no list.** -/
theorem modest_sendDue (c : ℕ) {key : Bytes} {d d' : Device} {t : Turn} {acts : List Act}
    (h : Device.sendDue key d t = some (d', acts)) :
    ∀ p ∈ acts.filterMap (upward c), ModestUp c p := by
  have hbeat : Modest [beatText.take 255] := by
    have htext : beatText = flatText [(lit "cmd", lit "beat")] := rfl
    rw [htext]
    exact modest_plain (by simp [Bare, lit]) (by decide) (fun root => Request.noConfusion)
  unfold Device.sendDue at h
  dsimp only at h
  split_ifs at h
  · obtain ⟨-, rfl⟩ := Prod.mk.inj (Option.some.inj h)
    exact modest_sendText c t .bind (modest_bindText _ _ _)
  · obtain ⟨-, rfl⟩ := Prod.mk.inj (Option.some.inj h)
    exact modest_sendText c t .beat hbeat
  · obtain ⟨-, rfl⟩ := Prod.mk.inj (Option.some.inj h)
    exact List.forall_mem_nil _

/-- **What a device sends when it has received something asks for no list.** -/
theorem modest_receive (parse : Bytes → Option CJSON) (c : ℕ) {key : Bytes}
    (hkey : Server.IsKey key) (d : Device) (t : Turn) :
    ∀ p ∈ (Device.receive parse key d t).2.filterMap (upward c), ModestUp c p := by
  have hwarn : Modest [warnText.take 255] := by
    have htext : warnText = flatText [(lit "cmd", lit "warn")] := rfl
    rw [htext]
    exact modest_plain (by simp [Bare, lit]) (by decide) (fun root => Request.noConfusion)
  unfold Device.receive
  cases t.recv with
  | closed => exact List.forall_mem_nil _
  | failed => exact List.forall_mem_nil _
  | again =>
    dsimp only
    unfold Device.checkPin
    split_ifs
    · exact modest_sendText c t .warn hwarn
    · exact List.forall_mem_nil _
    · exact List.forall_mem_nil _
  | data bytes =>
    dsimp only
    rw [List.filterMap_cons_none rfl]
    cases parse (cstr bytes) with
    | none => exact List.forall_mem_nil _
    | some pRoot =>
      rw [Option.elim_some]
      rcases upward_handleRoot c key d t pRoot with h | ⟨-, cmdStatus, h⟩
      · rw [h]
        exact List.forall_mem_nil _
      · rw [h]
        exact List.forall_mem_singleton.mpr ⟨_, rfl, modest_responseText hkey cmdStatus⟩

end Network
