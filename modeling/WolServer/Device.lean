import WolServer.CJSONFront
import WolServer.Runs
import WolServer.Server

/-!
# The device

The loop of a connected `wol_client_task` in `user_main.c`, as a machine. A
turn of it reads the clock, sends a `bind` or a `beat` if one is due, and then
waits up to a second for data. Everything the device does is an `Act`; what
the outside world answers in a turn – the time, the state of the network, the
results of the calls – is a `Turn`.

The parser is a parameter. The device uses the `cJSON_Parse` of its SDK,
which is not part of the repository; what the results below need of it is
`CJSON.FrontParser`.

The pin of the alarm is behind `IO_WARN_TO_PINID`. A build without it is one
whose pin never reads low. Two things are left out: the texts `os_printf`
prints, and what is around the loop – connecting, and closing the socket.

The counters of the source have 32 bits. The clock does too, and wraps
(`Device.systemGetTime`); the deadlines do not, because a number of seconds
is at most 4294.
-/

/-- What `recv` returns in a turn. -/
inductive Recv where
  /-- Data. -/
  | data (bytes : Bytes)
  /-- The server has closed. -/
  | closed
  /-- Nothing in a second: `EAGAIN`. -/
  | again
  /-- Another error. -/
  | failed

/-- The messages of a device. -/
inductive Kind where
  | bind
  | beat
  | response
  | warn
deriving DecidableEq

/-- **What the outside world answers** in a turn. -/
structure Turn where
  /-- The real time, in microseconds. -/
  time : ℕ
  /-- The address of the device, if `wifi_get_ip_info` knows it. -/
  address : Option InAddr
  /-- The memory from `sta_con.ssid` on, if `wifi_station_get_config`
  succeeds. -/
  station : Option Bytes
  /-- Whether `send` takes a message. -/
  takes : Kind → Bool
  /-- What `recv` returns. -/
  recv : Recv
  /-- Whether `wol_send` and `shutdown_send` get the memory and the socket
  they need. -/
  able : Bool
  /-- Whether the pin of the alarm reads low. -/
  pinLow : Bool

/-- **What the device does.** -/
inductive Act where
  /-- `send` of a message, at this time, with the characters in the buffer
  and the length; and whether it was taken. -/
  | send (kind : Kind) (time : ℕ) (buffer : Bytes) (size : ℕ) (taken : Bool)
  /-- `recv` returned this. -/
  | received (bytes : Bytes)
  /-- `wol_send`. -/
  | wolSend (mac : List UInt8)
  /-- `shutdown_send`. -/
  | shutdownSend (mac : List UInt8)
  /-- The task that resets the device is started. -/
  | reset
deriving DecidableEq

/-- Why the loop was left. -/
inductive Ending where
  /-- Three messages had no answer, and the next was due. -/
  | noResponse
  /-- The server has closed. -/
  | closed
  /-- `recv` failed. -/
  | failed
  /-- A null pointer was read. -/
  | fault
deriving DecidableEq

/-- **The variables of the loop.** -/
structure Device where
  /-- When the next `bind` is due, in seconds of the clock. -/
  timestampSendBind : ℕ
  /-- When the next `beat` is due. -/
  timestampSendBeat : ℕ
  /-- Whether an answer is outstanding. -/
  responseNotRecv : Bool
  /-- How many messages were sent since the last answer. -/
  responseLostCount : ℕ
  /-- How often in a row the pin read low. -/
  ioWarnCount : ℕ
  /-- Whether the loop was left, and why. -/
  ending : Option Ending
deriving DecidableEq

namespace Device

/-! ## Members of a parsed text -/

/-- The result of a search by name. -/
inductive Found (α : Type) where
  /-- A null pointer is passed to `strcmp`. -/
  | fault
  /-- There is no such member. -/
  | missing
  /-- The member. -/
  | found (a : α)

/-- The loop of `json_get_value_boolean`, `json_get_value_string` and
`json_get_value_array`: the first node of a type and a name. The name of a
node is looked at if its type fits, whether it has one or not. -/
def jsonScan (type : CJSONType) (name : Bytes) : List CJSON → Found CJSON
  | [] => .missing
  | pNode :: rest =>
    if pNode.type = type then
      match pNode.string with
      | none => .fault
      | some string => if cstr string = name then .found pNode else jsonScan type name rest
    else jsonScan type name rest

/-- `json_get_value_boolean`. -/
def jsonGetValueBoolean (pRoot : CJSON) (name : Bytes) : Found Unit :=
  match jsonScan .true_ name pRoot.child with
  | .fault => .fault
  | .missing => .missing
  | .found _ => .found ()

/-- `json_get_value_string`. A null string is read by the caller. -/
def jsonGetValueString (pRoot : CJSON) (name : Bytes) : Found Bytes :=
  match jsonScan .string name pRoot.child with
  | .fault => .fault
  | .missing => .missing
  | .found pNode =>
    match pNode.valuestring with
    | none => .fault
    | some value => .found (cstr value)

/-- `(unsigned char)(valueint & 0xFF)`. -/
def lowByte (valueint : ℤ) : UInt8 := (valueint % 256).toNat.toUInt8

/-- `json_get_value_array`: as many elements as there are, up to the size of
the buffer, and the zeros of the buffer after them. -/
def jsonGetValueArray (pRoot : CJSON) (name : Bytes) (size : ℕ) : Found (List UInt8) :=
  match jsonScan .array name pRoot.child with
  | .fault => .fault
  | .missing => .missing
  | .found pNode =>
    let buf := (pNode.child.take size).map (fun pArray => lowByte pArray.valueint)
    .found (buf ++ List.replicate (size - buf.length) 0)

/-! ## Messages -/

/-- The text of a `bind`. -/
def bindText (key ssid ip : Bytes) : Bytes :=
  lit "\x7b\"cmd\":\"bind\",\"key\":\"" ++ key ++ (lit "\",\"ssid\":\"" ++ ssid
    ++ (lit "\",\"ip\":\"" ++ ip ++ lit "\"\x7d"))

/-- The text of a `beat`. -/
def beatText : Bytes := lit "\x7b\"cmd\":\"beat\"\x7d"

/-- The text of a `warn`. -/
def warnText : Bytes := lit "\x7b\"cmd\":\"warn\"\x7d"

/-- The text of a `response`. -/
def responseText (cmdStatus : Bool) (key : Bytes) : Bytes :=
  lit "\x7b\"cmd\":\"response\",\"response\":\x7b\"status\":"
    ++ (if cmdStatus then lit "true" else lit "false")
    ++ (lit ",\"key\":\"" ++ key ++ lit "\"\x7d\x7d")

/-- `snprintf` into `buffer` and `send` from it. -/
def sendText (t : Turn) (kind : Kind) (text : Bytes) : List Act :=
  let ret := snprintf 256 text
  if 0 < ret.2 then [.send kind t.time ret.1 ret.2 (t.takes kind)] else []

/-- A text that is not empty is sent. -/
theorem sendText_eq (t : Turn) (kind : Kind) {text : Bytes} (h : 0 < text.length) :
    sendText t kind text
      = [.send kind t.time (snprintf 256 text).1 text.length (t.takes kind)] := if_pos h

/-! ## Timers -/

/-- `system_get_time`: microseconds, in 32 bits. -/
def systemGetTime (time : ℕ) : ℕ := time % 2 ^ 32

/-- `timestamp_now`: seconds. -/
def timestampNow (time : ℕ) : ℕ := systemGetTime time / 1000000

/-- A message was sent: if `send` took it, an answer is outstanding. -/
def sent (d : Device) (taken : Bool) : Device :=
  if taken = true then
    { d with responseNotRecv := true, responseLostCount := d.responseLostCount + 1 }
  else d

/-- Three messages had no answer. -/
def lost (d : Device) : Bool := d.responseNotRecv && decide (3 ≤ d.responseLostCount)

/-- The address for a `bind`, or an empty text. -/
def ipText (t : Turn) : Bytes := t.address.elim [] inetNtoa

/-- The network for a `bind`, or an empty text. -/
def ssidText (t : Turn) : Bytes := t.station.elim [] cstr

/-- **The first half of a turn**: the `bind` or the `beat` that is due, or
nothing where the loop is left. -/
def sendDue (key : Bytes) (d : Device) (t : Turn) : Option (Device × List Act) :=
  let now := timestampNow t.time
  if d.timestampSendBind < now then
    if d.lost = true then none
    else
      let d := { d with timestampSendBind := now + 60, timestampSendBeat := now + 6 }
      some (d.sent (t.takes .bind), sendText t .bind (bindText key (ssidText t) (ipText t)))
  else if d.timestampSendBeat < now then
    if d.lost = true then none
    else
      let d := { d with timestampSendBeat := now + 6 }
      some (d.sent (t.takes .beat), sendText t .beat beatText)
  else some (d, [])

/-! ## Receiving -/

/-- What is done for a command, and its status, or nothing where a null
pointer is read. -/
def command (t : Turn) (pRoot : CJSON) (cmd : Bytes) : Option (List Act × Bool) :=
  if cmd = lit "wol_send" then
    match jsonGetValueArray pRoot (lit "mac") 6 with
    | .fault => none
    | .missing => some ([], false)
    | .found mac => some ([.wolSend mac], t.able)
  else if cmd = lit "shutdown_send" then
    match jsonGetValueArray pRoot (lit "mac") 6 with
    | .fault => none
    | .missing => some ([], false)
    | .found mac => some ([.shutdownSend mac], t.able)
  else if cmd = lit "reset" then some ([.reset], true)
  else some ([], false)

/-- An answer of the server: none is outstanding any more. -/
def answered (d : Device) : Device :=
  if d.responseNotRecv = true then { d with responseNotRecv := false, responseLostCount := 0 }
  else d

/-- What a parsed text does. -/
def handleRoot (key : Bytes) (d : Device) (t : Turn) (pRoot : CJSON) : Device × List Act :=
  match jsonGetValueBoolean pRoot (lit "status") with
  | .fault => ({ d with ending := some .fault }, [])
  | .found _ => (d.answered, [])
  | .missing =>
    match jsonGetValueString pRoot (lit "cmd") with
    | .fault => ({ d with ending := some .fault }, [])
    | .missing => (d, [])
    | .found cmd =>
      match command t pRoot cmd with
      | none => ({ d with ending := some .fault }, [])
      | some (acts, cmdStatus) => (d, acts ++ sendText t .response (responseText cmdStatus key))

/-- The alarm: the third time in a row that the pin reads low, a `warn`. -/
def checkPin (d : Device) (t : Turn) : Device × List Act :=
  if t.pinLow = true then
    if 3 ≤ d.ioWarnCount + 1 then ({ d with ioWarnCount := 0 }, sendText t .warn warnText)
    else ({ d with ioWarnCount := d.ioWarnCount + 1 }, [])
  else ({ d with ioWarnCount := 0 }, [])

/-- **The second half of a turn.** Data is parsed as it comes, and nothing of
it is kept. -/
def receive (parse : Bytes → Option CJSON) (key : Bytes) (d : Device) (t : Turn) :
    Device × List Act :=
  match t.recv with
  | .data bytes =>
    let r := (parse (cstr bytes)).elim (d, []) (handleRoot key d t)
    (r.1, .received bytes :: r.2)
  | .closed => ({ d with ending := some .closed }, [])
  | .failed => ({ d with ending := some .failed }, [])
  | .again => checkPin d t

/-- **A turn of the loop.** -/
def turn (parse : Bytes → Option CJSON) (key : Bytes) (d : Device) (t : Turn) :
    Option (Device × List Act) :=
  if d.ending ≠ none then none
  else
    match sendDue key d t with
    | none => some ({ d with ending := some .noResponse }, [])
    | some (d, acts) =>
      let r := receive parse key d t
      some (r.1, acts ++ r.2)

/-! ## What a turn can do -/

/-- A `bind` or a `beat` is due. -/
def Due (d : Device) (t : Turn) : Prop :=
  d.timestampSendBind < timestampNow t.time ∨ d.timestampSendBeat < timestampNow t.time

theorem sendDue_eq_none_iff (key : Bytes) {d : Device} {t : Turn} :
    sendDue key d t = none ↔ d.Due t ∧ d.lost = true := by
  unfold sendDue Due
  dsimp only
  by_cases hbind : d.timestampSendBind < timestampNow t.time
  · rw [if_pos hbind, and_iff_right (Or.inl hbind)]
    by_cases hl : d.lost = true <;> simp [hl]
  · rw [if_neg hbind, or_iff_right hbind]
    by_cases hbeat : d.timestampSendBeat < timestampNow t.time
    · rw [if_pos hbeat, and_iff_right hbeat]
      by_cases hl : d.lost = true <;> simp [hl]
    · rw [if_neg hbeat]
      simp [hbeat]

/-- **What the first half of a turn does**, where the loop is not left:
nothing is due, or one message is sent and the deadlines are set. -/
theorem sendDue_cases {key : Bytes} {d d₁ : Device} {t : Turn} {acts : List Act}
    (h : sendDue key d t = some (d₁, acts)) :
    (¬ d.Due t ∧ d₁ = d ∧ acts = [])
      ∨ (d.Due t ∧ d.lost = false ∧ ∃ kind timer text,
        (kind = .bind ∧ timer = timestampNow t.time + 60
          ∨ kind = .beat ∧ ¬ d.timestampSendBind < timestampNow t.time
            ∧ timer = d.timestampSendBind)
        ∧ d₁ = sent { d with
                  timestampSendBind := timer
                  timestampSendBeat := timestampNow t.time + 6 } (t.takes kind)
        ∧ acts = [.send kind t.time (snprintf 256 text).1 text.length (t.takes kind)]) := by
  have hpos : ∀ key ssid ip : Bytes, 0 < (bindText key ssid ip).length := fun _ _ _ => by
    simp only [bindText, List.length_append]
    exact Nat.add_pos_left (Nat.add_pos_left (by decide) _) _
  unfold sendDue at h
  dsimp only at h
  split at h
  · rename_i hbind
    split at h
    · cases h
    rename_i hlost
    obtain ⟨rfl, rfl⟩ := Prod.mk.inj (Option.some.inj h)
    exact Or.inr ⟨Or.inl hbind, Bool.eq_false_of_not_eq_true hlost, .bind, _,
      bindText key (ssidText t) (ipText t), Or.inl ⟨rfl, rfl⟩, rfl,
      sendText_eq t .bind (hpos _ _ _)⟩
  rename_i hbind
  split at h
  · rename_i hbeat
    split at h
    · cases h
    rename_i hlost
    obtain ⟨rfl, rfl⟩ := Prod.mk.inj (Option.some.inj h)
    exact Or.inr ⟨Or.inr hbeat, Bool.eq_false_of_not_eq_true hlost, .beat, _, beatText,
      Or.inr ⟨rfl, hbind, rfl⟩, rfl, sendText_eq t .beat (by decide)⟩
  · rename_i hbeat
    obtain ⟨rfl, rfl⟩ := Prod.mk.inj (Option.some.inj h)
    exact Or.inl ⟨not_or.mpr ⟨hbind, hbeat⟩, rfl, rfl⟩

/-- **What a turn does**: it leaves the loop at once, or its two halves are
done. -/
theorem turn_cases {parse : Bytes → Option CJSON} {key : Bytes} {d d' : Device} {t : Turn}
    {acts : List Act} (h : turn parse key d t = some (d', acts)) :
    d.ending = none ∧
      ((sendDue key d t = none ∧ d' = { d with ending := some .noResponse } ∧ acts = [])
        ∨ ∃ d₁ acts₁, sendDue key d t = some (d₁, acts₁) ∧ d' = (receive parse key d₁ t).1
          ∧ acts = acts₁ ++ (receive parse key d₁ t).2) := by
  unfold turn at h
  split at h
  · cases h
  rename_i hgo
  refine ⟨not_not.mp hgo, ?_⟩
  cases hdue : sendDue key d t with
  | none =>
    rw [hdue] at h
    obtain ⟨rfl, rfl⟩ := Prod.mk.inj (Option.some.inj h)
    exact Or.inl ⟨rfl, rfl, rfl⟩
  | some r =>
    rw [hdue] at h
    obtain ⟨rfl, rfl⟩ := Prod.mk.inj (Option.some.inj h)
    exact Or.inr ⟨r.1, r.2, rfl, rfl, rfl⟩

/-- The variables when the connection is made. The count of the pin is as it
was left. -/
def start (ioWarnCount : ℕ) : Device where
  timestampSendBind := 0
  timestampSendBeat := 0
  responseNotRecv := false
  responseLostCount := 0
  ioWarnCount := ioWarnCount
  ending := none

/-- A turn in which everything works, with this time and this data. -/
def turnAt (time : ℕ) (recv : Recv) : Turn :=
  ⟨time, some ⟨192, 168, 0, 7⟩, some (lit "net"), fun _ => true, recv, true, false⟩

end Device
