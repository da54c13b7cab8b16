import WolServer.Values
import WolServer.Device
import WolServer.Framing

/-!
# The stream to a device

What the server writes to a device is a stream of messages: the replies to
what the device has sent, and between them, at any place, the commands of
other clients. The device parses what a `recv` returns as one value and keeps
nothing, so of every piece of the stream it handles the message at the front
and drops the rest.

That is a `Framing.FrontReceiver`, for any parser that reads the value at
the front of a buffer (`Device.frontReceiver`). What has to be shown for it
is that a piece which starts inside of a message is harmless: a brace stands
only at the start of a message, so such a piece is no object; it may be an
array – the address of a command – but the elements of an array are numbers,
and the device looks for strings and truth values only.

So the device performs every command exactly once if, and only if, each
begins a piece and lies in it as a whole (`Device.performs_iff`).
-/

/-- **A message of the server to a device.** -/
inductive Message where
  /-- The reply to a request of the device. -/
  | reply (status : Bool)
  /-- The command to wake a host. -/
  | wolSend (mac : List.Vector UInt8 6)
  /-- The command to shut a host down. -/
  | shutdownSend (mac : List.Vector UInt8 6)
  /-- The command to reset the device. -/
  | reset

/-- **What a command is about**: the calls it leads to, and the response to
it. -/
inductive Deed where
  /-- `wol_send`. -/
  | wolSend (mac : List UInt8)
  /-- `shutdown_send`. -/
  | shutdownSend (mac : List UInt8)
  /-- The task that resets the device is started. -/
  | reset
  /-- A `response` is sent. -/
  | response
deriving DecidableEq

namespace Message

/-- The text of a message, as the server prints it. -/
def text : Message → Bytes
  | reply status => Server.retStr status []
  | wolSend mac => Server.wolSend mac.toList
  | shutdownSend mac => Server.shutdownSend mac.toList
  | reset => Server.resetSend

/-- **What a message asks for**: a reply for nothing, a command to be
performed and to be answered. -/
def deeds : Message → List Deed
  | reply _ => []
  | wolSend mac => [.wolSend mac.toList, .response]
  | shutdownSend mac => [.shutdownSend mac.toList, .response]
  | reset => [.reset, .response]

/-- The message is a command. -/
def isCommand : Message → Bool
  | reply _ => false
  | _ => true

theorem deeds_ne_nil_iff (m : Message) : m.deeds ≠ [] ↔ m.isCommand = true := by
  cases m <;> simp [deeds, isCommand]

end Message

/-- **What the server sends is a message**, unless it answers a `client_list`:
to whomever it is sent, and whatever has been requested. -/
theorem Server.handleRequest_message {s : Server} {fd now i size : ℕ} {text buffer : Bytes}
    (hlist : requestOf text ≠ .clientList)
    (h : .send i buffer size ∈ (handleRequest s fd text now).2) :
    ∃ m : Message, buffer = m.text ∧ size = m.text.length := by
  rw [handleRequest_effects, List.mem_cons, List.mem_append] at h
  rcases h with h | h | h
  · cases h
  · -- only a message for the connection of a key is sent by a branch
    cases hreq : requestOf text with
    | forward key message =>
      obtain ⟨hpos, hlt⟩ := requestOf_message hreq
      rw [hreq, perform, deliver_eq hpos] at h
      have hm : buffer = message ∧ size = message.length := by
        cases hl : lookup s.clientList key with
        | none =>
          rw [hl] at h
          obtain ⟨j, -, hj⟩ := List.mem_map.mp h
          cases hj
        | some j =>
          rw [hl] at h
          rcases List.mem_append.mp h with h | h
          · obtain ⟨j, -, hj⟩ := List.mem_map.mp h
            cases hj
          · obtain ⟨-, rfl, rfl⟩ := Effect.send.inj (List.mem_singleton.mp h)
            rw [snprintf_of_lt hlt]
            exact ⟨rfl, rfl⟩
      rcases requestOf_forward hreq with ⟨mac, hmac, rfl | rfl⟩ | rfl
      · exact ⟨.wolSend ⟨mac, hmac⟩, hm⟩
      · exact ⟨.shutdownSend ⟨mac, hmac⟩, hm⟩
      · exact ⟨.reset, hm⟩
    | warn =>
      rw [hreq, perform, warn_eq] at h
      cases hw : warnPort s fd with
      | none => simp [hw, Branch.none] at h
      | some port => simp [hw, Branch.none] at h
    | clientList => exact absurd hreq hlist
    | bind args | ignore | beat | refuse => simp [hreq, perform, Branch.none] at h
  · cases hign : (perform s fd (requestOf text)).retToIgnore with
    | true => simp [reply, hign] at h
    | false =>
      rw [reply_eq hign, perform_strSend s fd hlist, List.mem_append, List.mem_singleton] at h
      rcases h with h | h
      · split at h
        · cases List.mem_singleton.mp h
        · cases h
      · obtain ⟨-, rfl, rfl⟩ := Effect.send.inj h
        have hlt : (retStr (perform s fd (requestOf text)).retToClient []).length < bufferSize := by
          rw [bufferSize_eq]
          cases (perform s fd (requestOf text)).retToClient <;> decide
        rw [snprintf_of_lt hlt]
        exact ⟨.reply _, rfl, rfl⟩

namespace Message

open JsonText

/-! ## The text of a message -/

/-- The address in a command. -/
def macValue (mac : List.Vector UInt8 6) : Json :=
  .arr (mac.toList.map (fun b => .num b.toNat 0))

/-- The value of a message. -/
def value : Message → Json
  | reply status => .obj [(lit "status", .bool status), (lit "response", .null)]
  | wolSend mac => .obj [(lit "cmd", .str (lit "wol_send")), (lit "mac", macValue mac)]
  | shutdownSend mac => .obj [(lit "cmd", .str (lit "shutdown_send")), (lit "mac", macValue mac)]
  | reset => .obj [(lit "cmd", .str (lit "reset"))]

theorem derives_mac (mac : List.Vector UInt8 6) (r : Bytes) :
    Derives (91 :: (Server.macText mac.toList ++ 93 :: r)) (.value (macValue mac)) r :=
  derives_arr (fun b : UInt8 => decimal b.toNat) (fun b => .num b.toNat 0)
    (fun b _ _ hr => derives_decimal b.toNat hr) r

/-- The text of a command up to the bracket of its address. -/
def front (cmd : Bytes) : Bytes :=
  34 :: (lit "cmd" ++ 34 :: 58 :: 34 :: (cmd ++ 34 :: 44 :: 34 :: (lit "mac" ++ [34, 58])))

theorem wolSend_eq (mac : List UInt8) : Server.wolSend mac
    = 123 :: (front (lit "wol_send") ++ 91 :: (Server.macText mac ++ [93, 125])) := by
  have hfront : lit "\x7b\"cmd\":\"wol_send\",\"mac\":[" = 123 :: (front (lit "wol_send") ++ [91]) :=
    rfl
  have hend : lit "]\x7d" = [93, 125] := rfl
  rw [Server.wolSend, hfront, hend]
  simp only [List.cons_append, List.append_assoc, List.nil_append]

theorem shutdownSend_eq (mac : List UInt8) : Server.shutdownSend mac
    = 123 :: (front (lit "shutdown_send") ++ 91 :: (Server.macText mac ++ [93, 125])) := by
  have hfront : lit "\x7b\"cmd\":\"shutdown_send\",\"mac\":["
      = 123 :: (front (lit "shutdown_send") ++ [91]) := rfl
  have hend : lit "]\x7d" = [93, 125] := rfl
  rw [Server.shutdownSend, hfront, hend]
  simp only [List.cons_append, List.append_assoc, List.nil_append]

/-- A command with an address is a text of its value. -/
theorem derives_command {cmd : Bytes} (hcmd : Plain cmd) (mac : List.Vector UInt8 6) (r : Bytes) :
    Derives (123 :: (front cmd ++ 91 :: (Server.macText mac.toList ++ [93, 125])) ++ r)
      (.value (.obj [(lit "cmd", .str cmd), (lit "mac", macValue mac)])) r := by
  simp only [front, List.cons_append, List.append_assoc, List.nil_append]
  exact Derives.obj (derives_member (by simp [Plain, special, lit]) (derives_str hcmd _)
    (derives_lastMember (by simp [Plain, special, lit]) (derives_mac mac _)))

/-- **A message is a text of its value**, whatever follows it. -/
theorem derives_text (m : Message) (r : Bytes) : Derives (m.text ++ r) (.value m.value) r := by
  cases m with
  | reply status =>
    have htext : Server.retStr status [] = 123 :: 34 :: (lit "status" ++ 34 :: 58
        :: ((if status then lit "true" else lit "false") ++ 44 :: 34 :: (lit "response"
        ++ 34 :: 58 :: (lit "null" ++ [125])))) := by
      cases status <;> rfl
    rw [text, htext]
    simp only [List.cons_append, List.append_assoc, List.nil_append]
    refine Derives.obj (derives_member (by simp [Plain, special, lit]) ?_
      (derives_lastMember (by simp [Plain, special, lit]) (Derives.null _)))
    cases status with
    | true => exact Derives.true_ _
    | false => exact Derives.false_ _
  | wolSend mac =>
    rw [text, wolSend_eq]
    exact derives_command (by simp [Plain, special, lit]) mac r
  | shutdownSend mac =>
    rw [text, shutdownSend_eq]
    exact derives_command (by simp [Plain, special, lit]) mac r
  | reset =>
    have htext : Server.resetSend = 123 :: 34 :: (lit "cmd" ++ 34 :: 58 :: 34
        :: (lit "reset" ++ [34, 125])) := rfl
    rw [text, htext]
    simp only [List.cons_append, List.append_assoc, List.nil_append]
    exact Derives.obj (derives_lastMember (by simp [Plain, special, lit])
      (derives_str (by simp [Plain, special, lit]) _))

/-- A byte that is printed, and neither an opening brace nor a backslash. -/
def Calm (b : UInt8) : Prop := 32 < b ∧ b ≠ 92 ∧ b ≠ 123

instance (b : UInt8) : Decidable (Calm b) := inferInstanceAs (Decidable (_ ∧ _ ∧ _))

theorem mem_macText {mac : List UInt8} {b : UInt8} (h : b ∈ Server.macText mac) :
    b = 44 ∨ isDigit b = true := by
  refine (mem_intercalate h).imp id (fun ⟨r, hr, hb⟩ => ?_)
  obtain ⟨c, -, rfl⟩ := List.mem_map.mp hr
  exact isDigit_of_mem_decimal hb

/-- An address has no bracket in it. -/
theorem calm_macText {mac : List UInt8} {b : UInt8} (h : b ∈ Server.macText mac) :
    Calm b ∧ b ≠ 91 := by
  have hdigit : ∀ b : UInt8, isDigit b = true → Calm b ∧ b ≠ 91 := by
    grind [isDigit, Calm]
  rcases mem_macText h with rfl | h
  · decide
  · exact hdigit b h

/-- The bytes are calm, and a bracket among them stands before the address of
a command. -/
def Inner (tail : Bytes) : Prop :=
  (∀ b ∈ tail, Calm b) ∧ ∀ a b, tail = a ++ 91 :: b →
    ∃ mac : List.Vector UInt8 6, b = Server.macText mac.toList ++ [93, 125]

theorem inner_of_notMem {tail : Bytes} (h : ∀ b ∈ tail, Calm b ∧ b ≠ 91) : Inner tail :=
  ⟨fun b hb => (h b hb).1,
    fun a _ heq => absurd rfl (h 91 (heq ▸ List.mem_append_right a List.mem_cons_self)).2⟩

theorem inner_command {cmd : Bytes} (hcmd : ∀ b ∈ front cmd, Calm b ∧ b ≠ 91)
    (mac : List.Vector UInt8 6) :
    Inner (front cmd ++ 91 :: (Server.macText mac.toList ++ [93, 125])) := by
  have hend : ∀ b ∈ ([93, 125] : Bytes), Calm b ∧ b ≠ 91 := by simp [Calm]
  have htail : ∀ b ∈ Server.macText mac.toList ++ [93, 125], Calm b ∧ b ≠ 91 :=
    List.forall_mem_append.mpr ⟨fun _ => calm_macText, hend⟩
  constructor
  · refine List.forall_mem_append.mpr ⟨fun b hb => (hcmd b hb).1,
      List.forall_mem_cons.mpr ⟨by decide, fun b hb => (htail b hb).1⟩⟩
  · intro a b heq
    obtain ⟨-, -, rfl⟩ := (List.append_cons_inj_of_notMem (fun h => (hcmd 91 h).2 rfl)
      (fun h => (htail 91 h).2 rfl)).mp heq
    exact ⟨mac, rfl⟩

/-- **A brace stands only at the start of a message**, and a bracket only
before the address of a command. -/
theorem text_eq (m : Message) : ∃ tail, m.text = 123 :: tail ∧ Inner tail := by
  cases m with
  | reply status =>
    refine ⟨(Server.retStr status []).tail, by cases status <;> rfl, inner_of_notMem ?_⟩
    cases status <;> simp [Server.retStr, lit, Calm]
  | wolSend mac => exact ⟨_, wolSend_eq mac.toList, inner_command (by simp [front, lit, Calm]) mac⟩
  | shutdownSend mac =>
    exact ⟨_, shutdownSend_eq mac.toList, inner_command (by simp [front, lit, Calm]) mac⟩
  | reset =>
    exact ⟨Server.resetSend.tail, rfl, inner_of_notMem (by simp [Server.resetSend, lit, Calm])⟩

end Message

namespace Device

/-! ## What a piece makes the device do -/

/-- The deed an act is. -/
def deed : Act → Option Deed
  | .wolSend mac => some (.wolSend mac)
  | .shutdownSend mac => some (.shutdownSend mac)
  | .reset => some .reset
  | .send .response .. => some .response
  | _ => none

/-- What was received. -/
def piece : Act → Option Bytes
  | .received bytes => some bytes
  | _ => none

/-- **The deeds of a run.** -/
def deeds (acts : List Act) : List Deed := acts.filterMap deed

/-- **The pieces** in which the stream arrived. -/
def pieces (acts : List Act) : List Bytes := acts.filterMap piece

/-- What a parsed text makes the device do, whatever its state. -/
def rootDeeds (pRoot : CJSON) : List Deed :=
  match jsonGetValueBoolean pRoot (lit "status"), jsonGetValueString pRoot (lit "cmd") with
  | .missing, .found cmd =>
    if cmd = lit "wol_send" then
      match jsonGetValueArray pRoot (lit "mac") 6 with
      | .fault => []
      | .missing => [.response]
      | .found mac => [.wolSend mac, .response]
    else if cmd = lit "shutdown_send" then
      match jsonGetValueArray pRoot (lit "mac") 6 with
      | .fault => []
      | .missing => [.response]
      | .found mac => [.shutdownSend mac, .response]
    else if cmd = lit "reset" then [.reset, .response]
    else [.response]
  | _, _ => []

/-- What a piece makes the device do. -/
def handle (parse : Bytes → Option CJSON) (bytes : Bytes) : List Deed :=
  (parse (cstr bytes)).elim [] rootDeeds

variable {parse : Bytes → Option CJSON} {key : Bytes} {d d' : Device} {t : Turn} {acts : List Act}

theorem deeds_append (acts acts' : List Act) : deeds (acts ++ acts') = deeds acts ++ deeds acts' :=
  List.filterMap_append

theorem pieces_append (acts acts' : List Act) :
    pieces (acts ++ acts') = pieces acts ++ pieces acts' := List.filterMap_append

theorem pieces_sendText (t : Turn) (kind : Kind) (text : Bytes) :
    pieces (sendText t kind text) = [] := by
  unfold sendText
  dsimp only
  split <;> rfl

theorem deeds_sendText (t : Turn) {kind : Kind} (h : kind ≠ .response) (text : Bytes) :
    deeds (sendText t kind text) = [] := by
  unfold sendText
  dsimp only
  split
  · cases kind <;> first | rfl | exact absurd rfl h
  · rfl

theorem deeds_response (t : Turn) (cmdStatus : Bool) (key : Bytes) :
    deeds (sendText t .response (responseText cmdStatus key)) = [.response] := by
  have hpos : 0 < (responseText cmdStatus key).length := by
    simp only [responseText, List.length_append]
    exact Nat.add_pos_left (Nat.add_pos_left (by decide) _) _
  rw [sendText_eq t .response hpos]
  rfl

/-- The deeds for a parsed text depend on the text alone. -/
theorem handleRoot_deeds (key : Bytes) (d : Device) (t : Turn) (pRoot : CJSON) :
    deeds (handleRoot key d t pRoot).2 = rootDeeds pRoot
      ∧ pieces (handleRoot key d t pRoot).2 = [] := by
  -- what a command does is followed by the response
  have hdone : ∀ (acts : List Act) (cmdStatus : Bool), pieces acts = [] →
      deeds (acts ++ sendText t .response (responseText cmdStatus key)) = deeds acts ++ [.response]
        ∧ pieces (acts ++ sendText t .response (responseText cmdStatus key)) = [] := by
    intro acts cmdStatus hacts
    rw [deeds_append, pieces_append, deeds_response, pieces_sendText, hacts]
    exact ⟨rfl, rfl⟩
  unfold handleRoot rootDeeds
  cases jsonGetValueBoolean pRoot (lit "status") with
  | fault => exact ⟨rfl, rfl⟩
  | found => exact ⟨rfl, rfl⟩
  | missing =>
    cases jsonGetValueString pRoot (lit "cmd") with
    | fault => exact ⟨rfl, rfl⟩
    | missing => exact ⟨rfl, rfl⟩
    | found cmd =>
      dsimp only
      unfold command
      by_cases hwol : cmd = lit "wol_send"
      · rw [if_pos hwol, if_pos hwol]
        cases jsonGetValueArray pRoot (lit "mac") 6 with
        | fault => exact ⟨rfl, rfl⟩
        | missing => exact hdone [] false rfl
        | found mac => exact hdone [.wolSend mac] t.able rfl
      rw [if_neg hwol, if_neg hwol]
      by_cases hshut : cmd = lit "shutdown_send"
      · rw [if_pos hshut, if_pos hshut]
        cases jsonGetValueArray pRoot (lit "mac") 6 with
        | fault => exact ⟨rfl, rfl⟩
        | missing => exact hdone [] false rfl
        | found mac => exact hdone [.shutdownSend mac] t.able rfl
      rw [if_neg hshut, if_neg hshut]
      by_cases hreset : cmd = lit "reset"
      · rw [if_pos hreset, if_pos hreset]
        exact hdone [.reset] true rfl
      · rw [if_neg hreset, if_neg hreset]
        exact hdone [] false rfl

/-- What is sent because it is due is no deed. -/
theorem sendDue_deeds {d₁ : Device} (h : sendDue key d t = some (d₁, acts)) :
    deeds acts = [] ∧ pieces acts = [] := by
  rcases sendDue_cases h with ⟨-, -, rfl⟩ | ⟨-, -, kind, timer, text, hkind, -, rfl⟩
  · exact ⟨rfl, rfl⟩
  · rcases hkind with ⟨rfl, -⟩ | ⟨rfl, -⟩ <;> exact ⟨rfl, rfl⟩

/-- **A turn handles the piece it receives**, and does nothing else that is a
deed. -/
theorem receive_deeds (parse : Bytes → Option CJSON) (key : Bytes) (d : Device) (t : Turn) :
    deeds (receive parse key d t).2
      = (pieces (receive parse key d t).2).flatMap (handle parse) := by
  unfold receive
  cases t.recv with
  | closed => rfl
  | failed => rfl
  | data bytes =>
    show deeds ((parse (cstr bytes)).elim (d, []) (handleRoot key d t)).2
      = (bytes :: pieces ((parse (cstr bytes)).elim (d, []) (handleRoot key d t)).2).flatMap
        (handle parse)
    cases hp : parse (cstr bytes) with
    | none => simp [handle, hp, deeds, pieces]
    | some pRoot =>
      obtain ⟨hdeeds, hpieces⟩ := handleRoot_deeds key d t pRoot
      simp [handle, hp, hdeeds, hpieces]
  | again =>
    show deeds (checkPin d t).2 = (pieces (checkPin d t).2).flatMap (handle parse)
    unfold checkPin
    split_ifs
    · rw [deeds_sendText t (by decide), pieces_sendText]
      rfl
    · rfl
    · rfl

/-- What a turn receives is its data. -/
theorem receive_pieces (parse : Bytes → Option CJSON) (key : Bytes) (d : Device) (t : Turn) :
    ∀ bytes ∈ pieces (receive parse key d t).2, t.recv = .data bytes := by
  unfold receive
  cases t.recv with
  | closed => exact List.forall_mem_nil _
  | failed => exact List.forall_mem_nil _
  | data bytes =>
    show ∀ b ∈ bytes :: pieces ((parse (cstr bytes)).elim (d, []) (handleRoot key d t)).2,
      Recv.data bytes = .data b
    have hpieces : pieces ((parse (cstr bytes)).elim (d, []) (handleRoot key d t)).2 = [] := by
      cases parse (cstr bytes) with
      | none => rfl
      | some pRoot => exact (handleRoot_deeds key d t pRoot).2
    rw [hpieces]
    exact List.forall_mem_singleton.mpr rfl
  | again =>
    show ∀ b ∈ pieces (checkPin d t).2, _
    have hpieces : pieces (checkPin d t).2 = [] := by
      unfold checkPin
      split_ifs
      · exact pieces_sendText t .warn warnText
      · rfl
      · rfl
    rw [hpieces]
    exact List.forall_mem_nil _

/-- A turn does what its piece says, and the piece is its data. -/
theorem turn_deeds (h : turn parse key d t = some (d', acts)) :
    deeds acts = (pieces acts).flatMap (handle parse)
      ∧ ∀ bytes ∈ pieces acts, t.recv = .data bytes := by
  obtain ⟨-, ⟨-, -, rfl⟩ | ⟨d₁, acts₁, hdue, -, rfl⟩⟩ := turn_cases h
  · exact ⟨rfl, List.forall_mem_nil _⟩
  · obtain ⟨hdeeds, hpieces⟩ := sendDue_deeds hdue
    rw [deeds_append, pieces_append, hdeeds, hpieces, List.nil_append, List.nil_append]
    exact ⟨receive_deeds parse key _ t, receive_pieces parse key _ t⟩

/-- **A run does what its pieces say**, and the pieces are its data. -/
theorem run_deeds {turns : List Turn}
    (hrun : Runs.run (turn parse key) d turns = some (d', acts)) :
    deeds acts = (pieces acts).flatMap (handle parse)
      ∧ ∀ bytes ∈ pieces acts, ∃ t ∈ turns, t.recv = .data bytes := by
  induction turns generalizing d acts with
  | nil =>
    obtain ⟨-, rfl⟩ := Prod.mk.inj (Option.some.inj hrun)
    exact ⟨rfl, List.forall_mem_nil _⟩
  | cons t turns ih =>
    obtain ⟨d₁, acts₁, acts₂, hturn, hrest, rfl⟩ := Runs.run_cons_eq_some.mp hrun
    obtain ⟨hdeeds, hdata⟩ := turn_deeds hturn
    obtain ⟨ihdeeds, ihdata⟩ := ih hrest
    rw [deeds_append, pieces_append, List.flatMap_append, hdeeds, ihdeeds]
    refine ⟨rfl, List.forall_mem_append.mpr ⟨fun b hb => ?_, fun b hb => ?_⟩⟩
    · exact ⟨t, List.mem_cons_self, hdata b hb⟩
    · obtain ⟨u, hu, hub⟩ := ihdata b hb
      exact ⟨u, List.mem_cons_of_mem t hu, hub⟩

/-! ## A receiver of the message at the front -/

/-- A node without children says nothing. -/
theorem rootDeeds_nil {pRoot : CJSON} (h : pRoot.child = []) : rootDeeds pRoot = [] := by
  have hcmd : jsonGetValueString pRoot (lit "cmd") = .missing := by
    rw [jsonGetValueString, h]
    rfl
  unfold rootDeeds
  rw [hcmd]
  cases jsonGetValueBoolean pRoot (lit "status") <;> rfl

theorem ofElements_map {α : Type} (f : α → Json) (l : List α) :
    CJSON.ofElements (l.map f) = l.map (fun a => CJSON.ofJson (f a)) := by
  induction l with
  | nil => rfl
  | cons a l ih => rw [List.map_cons, CJSON.ofElements, ih, List.map_cons]

theorem child_mac (mac : List.Vector UInt8 6) : (CJSON.ofJson (Message.macValue mac)).child
    = mac.toList.map (fun b => CJSON.ofJson (.num b.toNat 0)) := by
  rw [Message.macValue, CJSON.ofJson, ofElements_map]

/-- An array of numbers says nothing. -/
theorem rootDeeds_mac (mac : List.Vector UInt8 6) :
    rootDeeds (CJSON.ofJson (Message.macValue mac)) = [] := by
  have hscan : ∀ (type : CJSONType) (name : Bytes) (l : List UInt8), type ≠ .number →
      jsonScan type name (l.map (fun b => CJSON.ofJson (.num b.toNat 0))) = .missing := by
    intro type name l htype
    induction l with
    | nil => rfl
    | cons b l ih =>
      have hnum : ¬ (CJSON.ofJson (.num b.toNat 0)).type = type := Ne.symm htype
      rw [List.map_cons, jsonScan, if_neg hnum, ih]
  have hcmd : jsonGetValueString (CJSON.ofJson (Message.macValue mac)) (lit "cmd") = .missing := by
    rw [jsonGetValueString, child_mac, hscan _ _ _ (by decide)]
  unfold rootDeeds
  rw [hcmd]
  cases jsonGetValueBoolean (CJSON.ofJson (Message.macValue mac)) (lit "status") <;> rfl

/-- The numbers of an address are read back. -/
theorem jsonGetValueArray_command (cmd : Bytes) (mac : List.Vector UInt8 6) :
    jsonGetValueArray (CJSON.ofJson (.obj [(lit "cmd", .str cmd),
      (lit "mac", Message.macValue mac)])) (lit "mac") 6 = .found mac.toList := by
  have hbyte : ∀ b : UInt8, lowByte (CJSON.ofJson (.num b.toNat 0)).valueint = b := fun b => by
    have hval : (CJSON.ofJson (.num b.toNat 0)).valueint = (b.toNat : ℤ) := by
      simp [CJSON.ofJson, Decimal.toInt]
    have hmod : (b.toNat : ℤ) % 256 = b.toNat := by
      have := b.toNat_lt
      omega
    rw [hval, lowByte, hmod, Int.toNat_natCast]
    exact UInt8.ofNat_toNat
  have hscan : jsonScan .array (lit "mac") (CJSON.ofJson (.obj [(lit "cmd", .str cmd),
      (lit "mac", Message.macValue mac)])).child
      = .found { CJSON.ofJson (Message.macValue mac) with
        string := some (dropNul (lit "mac")) } := by
    rfl
  have hbytes : ((CJSON.ofJson (Message.macValue mac)).child.take 6).map
      (fun pArray => lowByte pArray.valueint) = mac.toList := by
    rw [child_mac, List.take_of_length_le (by simp), List.map_map]
    exact (List.map_congr_left (fun b _ => hbyte b)).trans (List.map_id _)
  unfold jsonGetValueArray
  rw [hscan]
  dsimp only
  rw [hbytes]
  simp

/-- **A message says what it asks for.** -/
theorem rootDeeds_value (m : Message) : rootDeeds (CJSON.ofJson m.value) = m.deeds := by
  cases m with
  | reply status => cases status <;> rfl
  | wolSend mac =>
    unfold rootDeeds
    rw [Message.value, jsonGetValueArray_command]
    rfl
  | shutdownSend mac =>
    unfold rootDeeds
    rw [Message.value, jsonGetValueArray_command]
    rfl
  | reset => rfl

/-- What the device makes of a text at the front of a piece. -/
theorem handle_front (hp : CJSON.FrontParser parse) {text r : Bytes} {v : Json}
    (hzero : (0 : UInt8) ∉ text)
    (h : ∀ r, JsonText.Derives (text ++ r) (.value v) r) :
    handle parse (text ++ r) = rootDeeds (CJSON.ofJson v) := by
  rw [handle, cstr_append hzero, hp.value_front (h (cstr r))]
  rfl

/-- It makes nothing of the front of an array or an object. -/
theorem handle_cut (hp : CJSON.FrontParser parse) {text piece : Bytes} {v : Json}
    (hplain : ∀ b ∈ text, b ≠ 0 ∧ b ≠ 92) (h : JsonText.Derives text (.value v) [])
    (hb : deref text = 91 ∨ deref text = 123) (hpre : piece <+: text) (hne : piece ≠ text) :
    handle parse piece = [] := by
  obtain ⟨x, rfl⟩ := hpre
  have hzero : (0 : UInt8) ∉ piece := fun h0 =>
    (hplain 0 (List.mem_append_left x h0)).1 rfl
  have hx : x ≠ [] := fun h0 => hne (by rw [h0, List.append_nil])
  rw [handle, cstr_eq_self hzero, hp.bracket_cut h hb (fun h92 => (hplain 92 h92).2 rfl) hx]
  rfl

/-- **The device is a receiver of the message at the front.** -/
theorem frontReceiver (hp : CJSON.FrontParser parse) :
    Framing.FrontReceiver Message.text Message.deeds (handle parse) := by
  have hcalm : ∀ {b : UInt8}, Message.Calm b → b ≠ 0 ∧ b ≠ 92 := fun hb =>
    ⟨fun h0 => absurd (h0 ▸ hb.1) (by decide), hb.2.1⟩
  have hplain : ∀ m : Message, ∀ b ∈ m.text, b ≠ 0 ∧ b ≠ 92 := by
    intro m
    obtain ⟨tail, htext, hinner⟩ := m.text_eq
    rw [htext]
    exact List.forall_mem_cons.mpr ⟨by decide, fun b hb => hcalm (hinner.1 b hb)⟩
  refine ⟨fun m => ?_, fun m piece hpre => ?_, fun m piece _ hpre hne => ?_,
    fun b y piece z hrest hne heq => ?_⟩
  · obtain ⟨tail, htext, -⟩ := m.text_eq
    rw [htext]
    exact List.cons_ne_nil _ _
  · obtain ⟨r, rfl⟩ := hpre
    rw [handle_front hp (fun h0 => (hplain m 0 h0).1 rfl) m.derives_text, rootDeeds_value]
  · obtain ⟨tail, htext, -⟩ := m.text_eq
    have hderives := m.derives_text []
    rw [List.append_nil] at hderives
    exact handle_cut hp (hplain m) hderives (Or.inr (by rw [htext]; rfl)) hpre hne
  · -- the piece starts inside of a message, with its byte `c`
    obtain ⟨hb, m, a, ha, hm⟩ := hrest
    obtain ⟨tail, htext, hinner⟩ := m.text_eq
    obtain ⟨c, b, rfl⟩ := List.exists_cons_of_ne_nil hb
    obtain ⟨c', piece, rfl⟩ := List.exists_cons_of_ne_nil hne
    obtain ⟨rfl, heq⟩ := List.cons.inj heq
    obtain ⟨e, a, rfl⟩ := List.exists_cons_of_ne_nil ha
    have htail : tail = a ++ c :: b := (List.cons.inj (htext.symm.trans hm)).2
    have hc : Message.Calm c := hinner.1 c (htail ▸ List.mem_append_right a List.mem_cons_self)
    by_cases hbracket : c = 91
    · -- it starts with the address of a command
      subst hbracket
      obtain ⟨mac, rfl⟩ := hinner.2 a b htail
      have hmac : ∀ b ∈ 91 :: (Server.macText mac.toList ++ [93]), b ≠ 0 ∧ b ≠ 92 := by
        refine List.forall_mem_cons.mpr ⟨by decide, List.forall_mem_append.mpr
          ⟨fun b hb => hcalm (Message.calm_macText hb).1, by simp⟩⟩
      have hderives := Message.derives_mac mac
      have hwhole : (91 :: (Server.macText mac.toList ++ [93])) ++ (125 :: y)
          = (91 :: piece) ++ z := by
        rw [← heq]
        simp
      by_cases hall : 91 :: (Server.macText mac.toList ++ [93]) <+: 91 :: piece
      · obtain ⟨r, hr⟩ := hall
        rw [← hr, handle_front hp (fun h0 => (hmac 0 h0).1 rfl) (v := Message.macValue mac)
          (fun r => by simpa using hderives r), rootDeeds_mac]
      · have hpre := (List.prefix_or_prefix_of_prefix (⟨z, hwhole.symm⟩ : 91 :: piece <+: _)
          (List.prefix_append _ _)).resolve_right hall
        exact handle_cut hp hmac (hderives []) (Or.inl rfl) hpre
          (fun h => hall (h ▸ List.prefix_rfl))
    · -- it starts with something that has no children
      have hcstr : cstr (c :: piece) = c :: cstr piece :=
        cstr_append (p := [c]) (by simpa using fun h0 => (hcalm hc).1 h0.symm) piece
      rw [handle, hcstr]
      cases hparse : parse (c :: cstr piece) with
      | none => rfl
      | some pRoot =>
        exact rootDeeds_nil (hp.no_bracket (show 32 < deref (c :: _) from hc.1) hbracket hc.2.2
          hparse)

/-- What `recv` may return: some data, and no more than the buffer takes. -/
def CanReceive (t : Turn) : Prop :=
  ∀ bytes, t.recv = .data bytes → 0 < bytes.length ∧ bytes.length ≤ 255

/-- **A command is performed exactly if it arrives at the front of a piece.**
In every run of the loop in which the pieces make up the stream of some
messages, the device performs every command among them once, in order, and
sends one response to it, exactly when each of the commands begins a piece
and lies in it as a whole. -/
theorem performs_iff (hp : CJSON.FrontParser parse) {turns : List Turn} {ioWarnCount : ℕ}
    (hrecv : ∀ t ∈ turns, CanReceive t)
    (hrun : Runs.run (turn parse key) (start ioWarnCount) turns = some (d, acts))
    {ms : List Message} (hstream : (pieces acts).flatten = ms.flatMap Message.text) :
    deeds acts = ms.flatMap Message.deeds ↔
      ∀ before m after, ms = before ++ m :: after → m.isCommand = true →
        Framing.Begins (pieces acts) (before.flatMap Message.text).length m.text := by
  obtain ⟨hdeeds, hdata⟩ := run_deeds hrun
  have hne : ∀ p ∈ pieces acts, p ≠ [] := by
    intro p hpiece
    obtain ⟨t, ht, hbytes⟩ := hdata p hpiece
    exact List.length_pos_iff.mp (hrecv t ht p hbytes).1
  rw [hdeeds, Framing.handled_eq_iff (frontReceiver hp) hne hstream]
  simp only [Message.deeds_ne_nil_iff]

/-- The address in the runs below. -/
def someMac : List.Vector UInt8 6 := ⟨[0, 17, 34, 51, 68, 255], rfl⟩

/-- A reply that arrives in two pieces, and a command after it. -/
def cutTurns : List Turn :=
  [turnAt 5000000 (.data ((Server.retStr true []).take 9)),
    turnAt 5100000 (.data ((Server.retStr true []).drop 9)),
    turnAt 5200000 (.data (Server.wolSend someMac.toList))]

set_option maxRecDepth 8000 in
theorem performs_run :
    ∃ d acts, Runs.run (turn CJSON.parse (lit "0123456789AB")) (start 0) cutTurns = some (d, acts)
      ∧ (deeds acts = [.reply true, .wolSend someMac].flatMap Message.deeds ↔
        ∀ before m after, [.reply true, .wolSend someMac] = before ++ m :: after →
          m.isCommand = true →
          Framing.Begins (pieces acts) (before.flatMap Message.text).length m.text) := by
  have hstream : (Runs.run (turn CJSON.parse (lit "0123456789AB")) (start 0) cutTurns).map
      (fun r => (pieces r.2).flatten)
        = some ([.reply true, .wolSend someMac].flatMap Message.text) := by decide
  obtain ⟨⟨d, acts⟩, hrun, hstream⟩ := Option.map_eq_some_iff.mp hstream
  refine ⟨d, acts, hrun, performs_iff CJSON.frontParser ?_ hrun hstream⟩
  simp only [cutTurns, List.forall_mem_cons, CanReceive, turnAt, Recv.data.injEq]
  exact ⟨fun b hb => hb ▸ by decide, fun b hb => hb ▸ by decide,
    fun b hb => hb ▸ by decide, List.forall_mem_nil _⟩

/-- A command right behind the reply to a beat, in one piece with it. -/
def joinedTurn : Turn := turnAt 5000000 (.data (Server.retStr true [] ++ Server.resetSend))

set_option maxRecDepth 8000 in
/-- A command that arrives in one piece with a reply is lost. -/
theorem joined_command_lost :
    ¬ ∀ (parse : Bytes → Option CJSON) (key : Bytes) (turns : List Turn) (ioWarnCount : ℕ)
      (d : Device) (acts : List Act) (ms : List Message), CJSON.FrontParser parse →
      (∀ t ∈ turns, CanReceive t) →
      Runs.run (turn parse key) (start ioWarnCount) turns = some (d, acts) →
      (pieces acts).flatten = ms.flatMap Message.text → deeds acts = ms.flatMap Message.deeds := by
  intro hall
  have hlost : (Runs.run (turn CJSON.parse (lit "0123456789AB")) (start 0) [joinedTurn]).map
      (fun r => ((pieces r.2).flatten, deeds r.2))
        = some ([.reply true, .reset].flatMap Message.text, []) := by decide
  obtain ⟨⟨d, acts⟩, hrun, heq⟩ := Option.map_eq_some_iff.mp hlost
  obtain ⟨hstream, hnone⟩ := Prod.mk.inj heq
  have hrecv : ∀ t ∈ [joinedTurn], CanReceive t := by
    simp only [joinedTurn, List.forall_mem_singleton, CanReceive, turnAt, Recv.data.injEq]
    exact fun b hb => hb ▸ by decide
  have hdone := hall _ _ _ _ _ _ _ CJSON.frontParser hrecv hrun hstream
  rw [hnone] at hdone
  exact absurd hdone (by decide)

end Device
