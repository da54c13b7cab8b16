import WolServer.DeviceStream
import WolServer.FlatText
import WolServer.HexText
import WolServer.MacText

/-!
# From a hardware address to a broadcast

A client names a host by its hardware address, in hexadecimal. The server
reads it with `sscanf` – first with colons, and if that fails with hyphens –
and prints it in decimal into a command; the device reads the numbers back,
and broadcasts a packet that wakes the host, or a message that asks it to
shut down. This module follows an address all the way
(`Server.address_broadcast`).

The packet is filled by a loop that goes round the address sixteen times; the
message is printed.
-/

/-- **A datagram**: where it goes, the bytes in the buffer, and how many of
them are sent. -/
structure Datagram where
  /-- The address it is sent to. -/
  address : InAddr
  /-- The port. -/
  port : UInt16
  /-- The buffer. -/
  buffer : Bytes
  /-- The length that `sendto` is given. -/
  size : ℕ

namespace Device

/-! ## What is broadcast -/

/-- The packet of `wol_send`: zeros, six bytes `0xFF`, and then a loop over
the address. -/
def wolPacket (mac : List UInt8) : Bytes :=
  let packet := (List.range' 0 6).foldl (fun packet i => packet.set i 0xFF)
    (List.replicate 0x6C 0)
  (List.range' 0x6 0x60).foldl
    (fun packet i => packet.set i (mac.getD ((i - 0x6) % 0x6) 0)) packet

/-- The text of `shutdown_send`. -/
def shutdownText (mac : List UInt8) : Bytes :=
  lit "\x7b\"cmd\":\"shutdown\",\"mac\":\"" ++ HexText.print 45 mac ++ lit "\"\x7d"

/-- `255.255.255.255`. -/
def everyone : InAddr := ⟨255, 255, 255, 255⟩

/-- `wol_send`, where it gets its memory and a socket: its result, and what it
sends. -/
def wolSend (able : Bool) (mac : List UInt8) : Bool × List Datagram :=
  if able = true then (true, [⟨everyone, 60069, wolPacket mac, 0x6C⟩]) else (false, [])

/-- `shutdown_send`, where it gets a socket. -/
def shutdownSend (able : Bool) (mac : List UInt8) : Bool × List Datagram :=
  if able = true then
    let len := snprintf 128 (shutdownText mac)
    (true, [⟨everyone, 4003, len.1, len.2⟩])
  else (false, [])

/-- What a deed broadcasts. -/
def datagrams (able : Bool) : Deed → List Datagram
  | .wolSend mac => (wolSend able mac).2
  | .shutdownSend mac => (shutdownSend able mac).2
  | .reset => []
  | .response => []

/-- **What the acts of a turn broadcast.** -/
def broadcast (t : Turn) (acts : List Act) : List Datagram :=
  (deeds acts).flatMap (datagrams t.able)

/-! ## The packet -/

/-- A loop that fills a part of a buffer replaces what was there. -/
theorem foldl_set {f : ℕ → UInt8} (b : Bytes) {n o : ℕ} {a c : Bytes} (ha : a.length = o)
    (hc : c.length = n) :
    (List.range' o n).foldl (fun packet i => packet.set i (f i)) (a ++ c ++ b)
      = a ++ (List.range' o n).map f ++ b := by
  induction n generalizing o a c with
  | zero =>
    obtain rfl := List.length_eq_zero_iff.mp hc
    rfl
  | succ n ih =>
    obtain ⟨x, c, rfl⟩ := List.exists_cons_of_length_eq_add_one hc
    -- the first round overwrites `x`, and the others start behind it
    have hset : (a ++ x :: c ++ b).set o (f o) = (a ++ [f o]) ++ c ++ b := by
      rw [List.append_assoc, List.set_append_right _ _ ha.le, ha, Nat.sub_self]
      simp
    rw [List.range'_succ, List.foldl_cons, hset,
      ih (by rw [List.length_append, ha]; rfl) (Nat.succ.inj hc), List.map_cons]
    simp

/-- Counting modulo the length of a list goes round it. -/
theorem map_getD_mod (l : Bytes) (k : ℕ) :
    (List.range (k * l.length)).map (fun i => l.getD (i % l.length) 0)
      = (List.replicate k l).flatten := by
  induction k with
  | zero => simp
  | succ k ih =>
    have hround : (List.range l.length).map (fun i => l.getD ((k * l.length + i) % l.length) 0)
        = l := by
      refine List.ext_getElem (by simp) (fun i h₁ h₂ => ?_)
      rw [List.getElem_map, List.getElem_range, Nat.mul_comm, Nat.mul_add_mod,
        Nat.mod_eq_of_lt h₂, List.getD_eq_getElem _ _ h₂]
    rw [Nat.succ_mul, List.range_add, List.map_append, ih, List.map_map,
      List.replicate_succ', List.flatten_append, List.flatten_singleton]
    exact congrArg _ hround

/-- **The packet is six bytes `0xFF`, the address sixteen times, and six
zeros.** -/
theorem wolPacket_eq {mac : List UInt8} (h : mac.length = 6) :
    wolPacket mac
      = List.replicate 6 0xFF ++ (List.replicate 16 mac).flatten ++ List.replicate 6 0 := by
  have hfront : (List.range' 0 6).foldl (fun packet i => packet.set i 0xFF)
      (List.replicate 0x6C (0 : UInt8))
      = List.replicate 6 0xFF ++ List.replicate 0x60 0 ++ List.replicate 6 0 := rfl
  have hround : (List.range' 0x6 0x60).map (fun i => mac.getD ((i - 0x6) % 0x6) 0)
      = (List.replicate 16 mac).flatten := by
    rw [← map_getD_mod, h, List.range'_eq_map_range, List.map_map]
    refine List.map_congr_left (fun i _ => ?_)
    rw [Function.comp_apply, Nat.add_sub_cancel_left]
  rw [wolPacket, hfront, foldl_set (List.replicate 6 0) (by simp) (by simp), hround]

/-! ## The message -/

/-- The message is a text of strings: the command, and the address. -/
theorem shutdownText_eq (mac : List UInt8) :
    shutdownText mac
      = flatText [(lit "cmd", lit "shutdown"), (lit "mac", HexText.print 45 mac)] := by
  have hfront : lit "\x7b\"cmd\":\"shutdown\",\"mac\":\""
      = 123 :: (memberText (lit "cmd", lit "shutdown")
        ++ 44 :: 34 :: (lit "mac" ++ [34, 58, 34])) := rfl
  have hend : lit "\"\x7d" = [34, 125] := rfl
  rw [shutdownText, hfront, hend, flatText, List.map_cons, List.map_singleton,
    List.intercalate_cons_cons, List.intercalate_singleton, memberText, memberText]
  simp only [List.cons_append, List.append_assoc, List.nil_append]

end Device

namespace Server

open HexText (Spells Spelling)

/-! ## Reading an address -/

/-- Masking a number and cutting it to a byte is cutting it. -/
theorem mask_toUInt8 (n : ℕ) : (n.toUInt32 &&& 0xFF).toUInt8 = n.toUInt8 := by
  have hmask : n % 256 &&& 255 = n % 256 := by
    rw [Nat.and_two_pow_sub_one_eq_mod (n % 256) 8, Nat.mod_mod]
  refine UInt8.toNat_inj.mp ?_
  simpa using hmask

/-- **`%02x` reads a byte that is spelt with two digits**, and nothing of what
follows. -/
theorem scanHex_spells {t : Bytes} {b : UInt8} (h : Spells t b) (r : Bytes) :
    ∃ v : UInt32, scanHex (t ++ r) = some (v, r) ∧ (v &&& 0xFF).toUInt8 = b := by
  obtain ⟨hx, hy⟩ := h
  rename_i x y v w
  -- neither digit is white space, a sign or an `x`
  obtain ⟨hplus, hminus, -, -, -, -, hspace⟩ := hexVal_ne hx
  obtain ⟨-, -, hlower, hupper, -⟩ := hexVal_ne hy
  refine ⟨(v * 16 + w).toUInt32, ?_, ?_⟩
  · have hskip : ([x, y] ++ r).dropWhile isspace = x :: y :: r := by
      rw [List.cons_append, List.dropWhile_cons_of_neg (by rw [hspace]; decide)]
      rfl
    rw [scanHex, hskip]
    dsimp only
    rw [if_neg (not_or.mpr ⟨hplus, hminus⟩), hx]
    dsimp only
    rw [deref_cons, if_neg (fun h => h.2.elim hlower hupper), hy]
    rfl
  · exact mask_toUInt8 (v * 16 + w)

/-- A list of two bytes or more has a first and a second. -/
theorem exists_cons_cons {bytes : List UInt8} {n : ℕ} (h : bytes.length = n + 2) :
    ∃ a b rest, bytes = a :: b :: rest := by
  obtain ⟨a, t, rfl⟩ := List.exists_cons_of_length_eq_add_one h
  obtain ⟨b, rest, rfl⟩ := List.exists_cons_of_length_eq_add_one (Nat.succ.inj h)
  exact ⟨a, b, rest, rfl⟩

/-- Fields that are spelt with the separator are read. -/
theorem scanFields_spelling {sep : UInt8} {bytes : List UInt8} {n : ℕ} {text : Bytes}
    (h : Spelling sep bytes text) (hlen : bytes.length = n + 1) :
    ∃ vals, scanFields sep n text = some vals
      ∧ vals.map (fun v => (v &&& 0xFF).toUInt8) = bytes := by
  induction n generalizing bytes text with
  | zero =>
    obtain ⟨b, rfl⟩ := List.length_eq_one_iff.mp hlen
    obtain ⟨v, hv, hb⟩ := scanHex_spells h.singleton []
    rw [List.append_nil] at hv
    exact ⟨[v], by rw [scanFields, hv, Option.map_some], by rw [List.map_singleton, hb]⟩
  | succ n ih =>
    obtain ⟨a, b, bytes, rfl⟩ := exists_cons_cons hlen
    obtain ⟨t, rest, ht, hrest, rfl⟩ := h.cons_cons
    obtain ⟨v, hv, ha⟩ := scanHex_spells ht (sep :: rest)
    obtain ⟨vals, hvals, hbytes⟩ := ih hrest (Nat.succ.inj hlen)
    refine ⟨v :: vals, ?_, by rw [List.map_cons, ha, hbytes]⟩
    rw [scanFields, hv]
    dsimp only
    rw [if_pos (deref_cons sep rest), List.tail_cons, hvals, Option.map_some]

/-- With another separator they are not. -/
theorem scanFields_other {sep sep' : UInt8} (hne : sep' ≠ sep) {a b : UInt8} {bytes : List UInt8}
    {n : ℕ} {text : Bytes} (h : Spelling sep' (a :: b :: bytes) text) :
    scanFields sep (n + 1) text = none := by
  obtain ⟨t, rest, ht, -, rfl⟩ := h.cons_cons
  obtain ⟨v, hv, -⟩ := scanHex_spells ht (sep' :: rest)
  rw [scanFields, hv]
  exact if_neg hne

/-- **Both spellings of an address are read.** -/
theorem scanMac_spelling {sep : UInt8} (hsep : sep = 58 ∨ sep = 45) (m : List.Vector UInt8 6)
    {text : Bytes} (h : Spelling sep m.toList text) : scanMac text = some m.toList := by
  obtain ⟨vals, hvals, hbytes⟩ := scanFields_spelling h m.toList_length
  rcases hsep with rfl | rfl
  · rw [scanMac, hvals, Option.some_or, Option.map_some, hbytes]
  · have hcolon : scanFields 58 5 text = none := by
      obtain ⟨a, b, bytes, hm⟩ := exists_cons_cons m.toList_length
      exact scanFields_other (by decide) (hm ▸ h)
    rw [scanMac, hcolon, Option.none_or, hvals, Option.map_some, hbytes]

/-- The length of a spelling: two digits for each byte, and the separators. -/
theorem length_spelling {sep : UInt8} {n : ℕ} {bytes : List UInt8} {text : Bytes}
    (h : Spelling sep bytes text) (hlen : bytes.length = n + 1) : text.length = 3 * n + 2 := by
  have htwo : ∀ {t : Bytes} {b : UInt8}, Spells t b → t.length = 2 := by
    rintro t b ⟨-, -⟩
    rfl
  induction n generalizing bytes text with
  | zero =>
    obtain ⟨b, rfl⟩ := List.length_eq_one_iff.mp hlen
    exact htwo h.singleton
  | succ n ih =>
    obtain ⟨a, b, bytes, rfl⟩ := exists_cons_cons hlen
    obtain ⟨t, rest, ht, hrest, rfl⟩ := h.cons_cons
    rw [List.length_append, List.length_cons, htwo ht, ih hrest (Nat.succ.inj hlen)]
    omega

/-- **A `wol` or `shutdown` with a spelling of an address asks for the message
of the address.** -/
theorem asks_spelling {sep : UInt8} (hsep : sep = 58 ∨ sep = 45) (m : List.Vector UInt8 6)
    {text key mac : Bytes} (hkey : member text (lit "key") = some key) (hk : key ≠ [])
    (hk' : key.length < 32) (hmac : member text (lit "mac") = some mac)
    (hspell : Spelling sep m.toList mac) :
    (member text (lit "cmd") = some (lit "wol") →
        Asks text key (Message.wolSend m).text)
      ∧ (member text (lit "cmd") = some (lit "shutdown") →
        Asks text key (Message.shutdownSend m).text) := by
  have hlen : mac.length = 17 := length_spelling hspell m.toList_length
  have hne : mac ≠ [] := List.ne_nil_of_length_eq_add_one hlen
  have hscan := scanMac_spelling hsep m hspell
  exact ⟨fun hcmd => .wol hcmd hkey hk hk' hmac hne (by omega) hscan,
    fun hcmd => .shutdown hcmd hkey hk hk' hmac hne (by omega) hscan⟩

end Server

namespace Device

/-! ## From the message to the datagram -/

variable {parse : Bytes → Option CJSON}

/-- What a turn does with the data it receives. -/
theorem receive_data (key : Bytes) (d : Device) {t : Turn} {bytes : Bytes}
    (h : t.recv = .data bytes) : deeds (receive parse key d t).2 = handle parse bytes := by
  have hpieces : pieces (receive parse key d t).2 = [bytes] := by
    rw [receive, h]
    show bytes :: pieces ((parse (cstr bytes)).elim (d, []) (handleRoot key d t)).2 = [bytes]
    cases parse (cstr bytes) with
    | none => rfl
    | some pRoot => exact congrArg _ (handleRoot_deeds key d t pRoot).2
  rw [receive_deeds, hpieces, List.flatMap_singleton]

/-- **A message at the front of the data is broadcast as it asks.** -/
theorem broadcast_message (hp : CJSON.FrontParser parse) (key : Bytes) (d : Device) {t : Turn}
    {m : Message} {r : Bytes} (h : t.recv = .data (m.text ++ r)) :
    broadcast t (receive parse key d t).2 = m.deeds.flatMap (datagrams t.able) := by
  have hzero : (0 : UInt8) ∉ m.text := by
    obtain ⟨tail, htext, hinner, -⟩ := m.text_eq
    rw [htext, List.mem_cons]
    rintro (h0 | h0)
    · cases h0
    · exact absurd (hinner 0 h0).1 (by decide)
  rw [broadcast, receive_data key d h, handle_front hp hzero m.derives_text, rootDeeds_value]

/-- The messages of a shutdown fit the buffer. -/
theorem snprintf_shutdownText (m : List.Vector UInt8 6) :
    snprintf 128 (shutdownText m.toList)
      = (shutdownText m.toList, (shutdownText m.toList).length) := by
  have hprint := Server.length_spelling (HexText.spelling_print 45 m.toList) m.toList_length
  have hfront : (lit "\x7b\"cmd\":\"shutdown\",\"mac\":\"").length = 25 := by decide
  have hend : (lit "\"\x7d").length = 2 := by decide
  refine snprintf_of_lt ?_
  rw [shutdownText, List.length_append, List.length_append, hprint, hfront, hend]
  decide

end Device

namespace Server

open HexText (Spelling)

variable {memory : ClientList} {listenFd : ℕ} {portWarn : UInt16} {labels : List Label}
  {s : Server} {tr : List Effect}

/-- A request for a key that fits its slot goes to one connection, which
stores the key. -/
theorem sent_of_bound (hsmall : ∀ l ∈ labels, ∀ x ∈ l.admitted, x < slots)
    (h : execute memory listenFd portWarn labels = some (s, tr)) {i : ℕ} {b : Binding}
    (hb : LastBind tr i b) (hlen : b.key.length ≤ 15) {text message : Bytes}
    (hask : Asks text b.key message) (fd now : ℕ) :
    ∃ j, Bound tr j b.key ∧ sent s fd text now = [.send j message message.length,
      .send fd (retStr true []) (retStr true []).length] := by
  obtain ⟨href, hag⟩ := execute_refines hsmall h
  have hholds : holds (s.clientList i) b.key = true :=
    href.holds_iff.mpr ⟨b, registry_eq_bound_iff.mpr hb, List.take_of_length_le hlen⟩
  have hen : (s.clientList i).enable = true := by
    simp only [holds, Bool.and_eq_true] at hholds
    exact hholds.1.1
  have hfound : ∃ j, lookup s.clientList b.key = some j := Option.isSome_iff_exists.mp
    (List.find?_isSome.mpr ⟨i, List.mem_range.mpr (hag.bounded i hen), hholds⟩)
  obtain ⟨j, hj⟩ := hfound
  refine ⟨j, href.holds_iff.mp (lookup_eq_some_iff.mp hj).2.1, ?_⟩
  rw [sent_of_asks hask, hj]

/-- **An address reaches the broadcast as it was spelt.** A `wol` for a key
that a connection has bound makes the server send one command, to a connection
of the key, and what the device makes of it is the packet of the address; a
`shutdown` makes it broadcast a message with the address in capitals, joined
by hyphens. -/
theorem address_broadcast (hsmall : ∀ l ∈ labels, ∀ x ∈ l.admitted, x < slots)
    (h : execute memory listenFd portWarn labels = some (s, tr)) {i : ℕ} {b : Binding}
    (hb : LastBind tr i b) (hpos : b.key ≠ []) (hlen : b.key.length ≤ 15)
    {sep : UInt8} (hsep : sep = 58 ∨ sep = 45) (m : List.Vector UInt8 6) {text mac : Bytes}
    (hkey : member text (lit "key") = some b.key) (hmac : member text (lit "mac") = some mac)
    (hspell : Spelling sep m.toList mac) (fd now : ℕ)
    {parse : Bytes → Option CJSON} (hp : CJSON.FrontParser parse) :
    (member text (lit "cmd") = some (lit "wol") →
        ∃ j, Bound tr j b.key
          ∧ sent s fd text now = [.send j (wolSend m.toList) (wolSend m.toList).length,
            .send fd (retStr true []) (retStr true []).length]
          ∧ ∀ key d (t : Turn) r, t.able = true → t.recv = .data (wolSend m.toList ++ r) →
            Device.broadcast t (Device.receive parse key d t).2
              = [⟨⟨255, 255, 255, 255⟩, 60069, List.replicate 6 0xFF
                ++ (List.replicate 16 m.toList).flatten ++ List.replicate 6 0, 108⟩])
      ∧ (member text (lit "cmd") = some (lit "shutdown") →
        ∃ j, Bound tr j b.key
          ∧ sent s fd text now = [.send j (shutdownSend m.toList) (shutdownSend m.toList).length,
            .send fd (retStr true []) (retStr true []).length]
          ∧ ∀ key d (t : Turn) r, t.able = true → t.recv = .data (shutdownSend m.toList ++ r) →
            ∃ mac' notice, Spelling 45 m.toList mac' ∧ (∀ x ∈ mac', x < 97)
              ∧ notice = flatText [(lit "cmd", lit "shutdown"), (lit "mac", mac')]
              ∧ Device.broadcast t (Device.receive parse key d t).2
                = [⟨⟨255, 255, 255, 255⟩, 4003, notice, notice.length⟩]) := by
  obtain ⟨hwol, hshutdown⟩ := asks_spelling hsep m hkey hpos (by omega) hmac hspell
  constructor
  · intro hcmd
    obtain ⟨j, hj, hsent⟩ := sent_of_bound hsmall h hb hlen (hwol hcmd) fd now
    refine ⟨j, hj, hsent, fun key d t r hable hrecv => ?_⟩
    have hcast := Device.broadcast_message hp key d (m := .wolSend m) hrecv
    rw [hcast, hable, ← Device.wolPacket_eq m.toList_length]
    rfl
  · intro hcmd
    obtain ⟨j, hj, hsent⟩ := sent_of_bound hsmall h hb hlen (hshutdown hcmd) fd now
    refine ⟨j, hj, hsent, fun key d t r hable hrecv => ⟨HexText.print 45 m.toList, _,
      HexText.spelling_print 45 _, HexText.print_lt (by decide) _, rfl, ?_⟩⟩
    have hcast := Device.broadcast_message hp key d (m := .shutdownSend m) hrecv
    have hfits := Device.snprintf_shutdownText m
    rw [Device.shutdownText_eq] at hfits
    rw [hcast, hable, Message.deeds, List.flatMap_cons, Device.datagrams, Device.shutdownSend,
      if_pos rfl, Device.shutdownText_eq, hfits]
    rfl

/-- An address. -/
def address : List.Vector UInt8 6 := ⟨[0x00, 0x1A, 0x2B, 0x3C, 0x4D, 0xFF], rfl⟩

/-- A `wol` for `address`. -/
def addressMembers : List (Bytes × Bytes) :=
  [(lit "cmd", lit "wol"), (lit "key", lit "a"), (lit "mac", lit "00:1a:2B:3c:4D:ff")]

theorem address_broadcast_run :
    ∃ labels s tr, execute zeroMemory 3 50174 labels = some (s, tr) ∧ ∃ j, Bound tr j (lit "a")
      ∧ sent s 6 (flatText addressMembers) 0
        = [.send j (wolSend address.toList) (wolSend address.toList).length,
          .send 6 (retStr true []) (retStr true []).length]
      ∧ (Device.broadcast (Device.turnAt 0 (.data (wolSend address.toList)))
        (Device.receive CJSON.parse (lit "a") (Device.start 0)
          (Device.turnAt 0 (.data (wolSend address.toList)))).2).map Datagram.size = [108] := by
  obtain ⟨labels, s, tr, h, -, hsmall, hslot, -, -⟩ := execute_device (lit "a") (lit "s") (lit "i")
    (by simp [Bare, lit]) (by simp [Bare, lit]) (by simp [Bare, lit]) (by decide) (by decide)
  obtain ⟨href, -⟩ := execute_refines hsmall h
  -- the key that fills a slot is the one that was announced
  obtain ⟨⟨key, ssid, ip⟩, hb, hkey⟩ : Bound tr 5 (lit "a") := by
    obtain ⟨hen, hesp, ⟨hkey, -, -⟩, -⟩ := hslot
    refine href.holds_iff.mp ?_
    simp [holds, hen, hesp, hkey, lit]
  obtain rfl : key = lit "a" := (take_eq_iff (by decide)).mp hkey
  have hms : Readable addressMembers := by simp [Readable, addressMembers, Bare, lit]
  have hmember := member_flatText (List.cons_ne_nil _ _) hms
  have hspell : Spelling 58 address.toList (lit "00:1a:2B:3c:4D:ff") :=
    ⟨[lit "00", lit "1a", lit "2B", lit "3c", lit "4D", lit "ff"],
      .cons (.digits (v := 0) (w := 0) rfl rfl) (.cons (.digits (v := 1) (w := 10) rfl rfl)
        (.cons (.digits (v := 2) (w := 11) rfl rfl) (.cons (.digits (v := 3) (w := 12) rfl rfl)
          (.cons (.digits (v := 4) (w := 13) rfl rfl)
            (.cons (.digits (v := 15) (w := 15) rfl rfl) .nil))))), rfl⟩
  obtain ⟨j, hj, hsent, hcast⟩ := (address_broadcast hsmall h (registry_eq_bound_iff.mp hb)
    (by decide : lit "a" ≠ []) (by decide : (lit "a").length ≤ 15) (Or.inl rfl) address
    (hmember _) (hmember _) hspell 6 0
    CJSON.frontParser).1 (hmember _)
  refine ⟨labels, s, tr, h, j, hj, hsent, ?_⟩
  rw [hcast (lit "a") (Device.start 0) _ [] rfl (by rw [List.append_nil]; rfl)]
  rfl

end Server
