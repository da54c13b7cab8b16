import WolServer.Listing

/-!
# What the server says

The server writes JSON by hand: strings of a slot go between quotes as they
are. The strings come out of a JSON decoder, so they can hold quotes,
backslashes and control characters, and what is written then is no text of
the value it should have.

The converse is the point of `JsonText.Derives.length_le`. A reply that
decodes to the table in whatever way – not only by reading it as it was
meant – is no shorter than the least text of the table, and the reply has
exactly the length that leaves no room for an escape. So the reply to
`client_list` and the notice of a `warn` decode to what the server holds
exactly when no string in them needs one (`Server.output_decodes_iff`).
-/

namespace Server

open JsonText

/-! ## What should be said -/

/-- The record of a slot. -/
def recordValue (c : ClientInfo) : Json :=
  .obj [(lit "key", .str c.key.text), (lit "ssid", .str c.ssid.text),
    (lit "lan_ip", .str c.lanIp.text), (lit "global_ip", .str c.globalIp.text)]

/-- **The reply to `client_list`**: the number of connections, and the
records of those that have bound, in the order of their descriptors. -/
def listValue (list : ClientList) : Json :=
  .obj [(lit "status", .bool true),
    (lit "response", .obj [(lit "count", .num (enabledSlots list).card 0),
      (lit "list", .arr ((boundSlots list).map (fun i => recordValue (list i))))])]

/-- The notice of a warning. -/
def noticeValue (key : Bytes) : Json :=
  .obj [(lit "cmd", .str (lit "send_notice")), (lit "key", .str key)]

/-- The strings of a slot that its connection announced can be printed as they
are. -/
def Printable (c : ClientInfo) : Prop :=
  Plain c.key.text ∧ Plain c.ssid.text ∧ Plain c.lanIp.text

/-! ## Strings that need no escape -/

theorem derives_record {c : ClientInfo} (hc : Printable c) (hglobal : Plain c.globalIp.text)
    (r : Bytes) : Derives (record c ++ r) (.value (recordValue c)) r := by
  have htext : record c ++ r = 123 :: 34 :: (lit "key" ++ 34 :: 58 :: 34 :: (c.key.text
      ++ 34 :: 44 :: 34 :: (lit "ssid" ++ 34 :: 58 :: 34 :: (c.ssid.text
      ++ 34 :: 44 :: 34 :: (lit "lan_ip" ++ 34 :: 58 :: 34 :: (c.lanIp.text
      ++ 34 :: 44 :: 34 :: (lit "global_ip" ++ 34 :: 58 :: 34 :: (c.globalIp.text
      ++ 34 :: 125 :: r)))))))) := by
    simp [record, lit]
  rw [htext]
  exact Derives.obj (derives_member (by simp [Plain, special, lit]) (derives_str hc.1 _)
    (derives_member (by simp [Plain, special, lit]) (derives_str hc.2.1 _)
      (derives_member (by simp [Plain, special, lit]) (derives_str hc.2.2 _)
        (derives_lastMember (by simp [Plain, special, lit]) (derives_str hglobal _)))))

/-- The reply to `client_list` is a text of its value if the strings in it
can be printed as they are. -/
theorem isText_listReply {list : ClientList}
    (h : ∀ i ∈ boundSlots list, Printable (list i) ∧ Plain (list i).globalIp.text) :
    IsText (listValue list) (retStr true (listText list)) := by
  have hpos : 0 < (listText list).length := by
    have := length_listText list
    unfold replySize at this
    omega
  have htext : retStr true (listText list) = 123 :: 34 :: (lit "status" ++ 34 :: 58 :: (lit "true"
      ++ 44 :: 34 :: (lit "response" ++ 34 :: 58 :: 123 :: 34 :: (lit "count" ++ 34 :: 58
      :: (decimal (enabledSlots list).card ++ 44 :: 34 :: (lit "list" ++ 34 :: 58
      :: 91 :: ([44].intercalate ((boundSlots list).map (fun i => record (list i)))
      ++ 93 :: 125 :: [125]))))))) := by
    rw [retStr, if_pos rfl, if_pos hpos, cstr_eq_self (zero_notMem_listText list), listText_eq]
    simp [lit, records, boundSlots]
  refine ⟨_, [], Ws.nil _, ?_, Ws.nil _⟩
  rw [htext]
  have hcount : NumEnd (44 :: 34 :: (lit "list" ++ 34 :: 58 :: 91
      :: ([44].intercalate ((boundSlots list).map (fun i => record (list i)))
        ++ 93 :: 125 :: [125]))) := by
    intro b hb
    obtain rfl : 44 = b := Option.some.inj hb
    decide
  exact Derives.obj (derives_member (by simp [Plain, special, lit]) (Derives.true_ _)
    (derives_lastMember (by simp [Plain, special, lit]) (Derives.obj
      (derives_member (by simp [Plain, special, lit]) (derives_decimal _ hcount)
        (derives_lastMember (by simp [Plain, special, lit])
          (derives_arr _ _ (fun i hi r _ => derives_record (h i hi).1 (h i hi).2 r) _))))))

/-- The notice of a warning is a text of its value if the key can be printed
as it is. -/
theorem isText_noticeText {key : Bytes} (h : Plain key) :
    IsText (noticeValue key) (noticeText key) := by
  have htext : noticeText key = 123 :: 34 :: (lit "cmd" ++ 34 :: 58 :: 34
      :: (lit "send_notice" ++ 34 :: 44 :: 34 :: (lit "key" ++ 34 :: 58 :: 34
      :: (key ++ 34 :: 125 :: [])))) := by
    simp [noticeText, lit]
  refine ⟨_, [], Ws.nil _, ?_, Ws.nil _⟩
  rw [htext]
  exact Derives.obj (derives_member (by simp [Plain, special, lit])
    (derives_str (by simp [Plain, special, lit]) _)
    (derives_lastMember (by simp [Plain, special, lit]) (derives_str h _)))

/-! ## Strings that do -/

/-- The number of bytes in the strings of a slot that need an escape. -/
def escapes (c : ClientInfo) : ℕ :=
  c.key.text.countP special + c.ssid.text.countP special + c.lanIp.text.countP special
    + c.globalIp.text.countP special

theorem minSize_recordValue (c : ClientInfo) :
    (recordValue c).minSize = 47 + stringsSize c + escapes c := by
  have h₁ : strSize (lit "key") = 3 := by decide
  have h₂ : strSize (lit "ssid") = 4 := by decide
  have h₃ : strSize (lit "lan_ip") = 6 := by decide
  have h₄ : strSize (lit "global_ip") = 9 := by decide
  simp only [recordValue, Json.minSize, Json.membersSize, h₁, h₂, h₃, h₄]
  simp only [strSize, stringsSize, escapes]
  omega

/-- The least size of the reply is the size of what is written, and a byte
for every one that needs an escape. -/
theorem minSize_listValue (list : ClientList) :
    (listValue list).minSize = 47 + (decimal (enabledSlots list).card).length
      + (((boundSlots list).map (fun i => 48 + stringsSize (list i) + escapes (list i))).sum
        - 1) := by
  have h₁ : strSize (lit "status") = 6 := by decide
  have h₂ : strSize (lit "response") = 8 := by decide
  have h₃ : strSize (lit "count") = 5 := by decide
  have h₄ : strSize (lit "list") = 4 := by decide
  have hsum : (boundSlots list).map (fun i => (recordValue (list i)).minSize + 1)
      = (boundSlots list).map (fun i => 48 + stringsSize (list i) + escapes (list i)) := by
    refine List.map_congr_left (fun i _ => ?_)
    rw [minSize_recordValue]
    omega
  have harr := Json.minSize_arr ((boundSlots list).map (fun i => recordValue (list i)))
  rw [Json.elementsSize_map, hsum] at harr
  simp only [listValue, Json.minSize_obj, Json.membersSize, harr, h₁, h₂, h₃, h₄]
  simp only [Json.minSize, Int.natAbs_natCast, if_true]
  omega

/-- A sum that gains nothing gains nothing anywhere. -/
theorem sum_map_add_le {α : Type} {l : List α} {f g : α → ℕ}
    (h : (l.map (fun a => f a + g a)).sum ≤ (l.map f).sum) : ∀ a ∈ l, g a = 0 := by
  rw [List.sum_map_add] at h
  have hzero : (l.map g).sum = 0 := by omega
  exact fun a ha => List.sum_eq_zero_iff.mp hzero _ (List.mem_map_of_mem ha)

/-- **A reply that decodes to the table has no byte in it that needs an
escape.** -/
theorem printable_of_isText {list : ClientList}
    (h : IsText (listValue list) (retStr true (listText list))) :
    ∀ i ∈ boundSlots list, Printable (list i) := by
  have hle := h.minSize_le
  rw [minSize_listValue, length_listReply, replySize] at hle
  intro i hi
  have hpos : 48 ≤ ((boundSlots list).map (fun i => 48 + stringsSize (list i))).sum :=
    (Nat.le_add_right 48 _).trans
      (List.single_le_sum (fun _ _ => Nat.zero_le _) _ (List.mem_map_of_mem hi))
  have hnone := sum_map_add_le (show ((boundSlots list).map
    (fun i => 48 + stringsSize (list i) + escapes (list i))).sum ≤ _ by omega) i hi
  simp only [escapes, Nat.add_eq_zero_iff] at hnone
  exact ⟨plain_iff_countP.mpr hnone.1.1.1, plain_iff_countP.mpr hnone.1.1.2,
    plain_iff_countP.mpr hnone.1.2⟩

/-- The same for the notice of a warning. -/
theorem plain_of_isText {key : Bytes} (h : IsText (noticeValue key) (noticeText key)) :
    Plain key := by
  have hle := h.minSize_le
  have h₁ : strSize (lit "cmd") = 3 := by decide
  have h₂ : strSize (lit "key") = 3 := by decide
  have h₃ : strSize (lit "send_notice") = 11 := by decide
  have h₄ : (lit "\x7b\"cmd\":\"send_notice\",\"key\":\"").length = 28 := by decide
  have h₅ : (lit "\"\x7d").length = 2 := by decide
  simp only [noticeValue, Json.minSize, Json.membersSize, noticeText, List.length_append, h₁, h₂,
    h₃, h₄, h₅] at hle
  rw [strSize] at hle
  exact plain_iff_countP.mpr (by omega)

/-! ## Addresses -/

theorem special_of_isDigit {b : UInt8} (h : isDigit b = true) : special b = false := by
  revert h
  grind [isDigit, special]

/-- An address can be printed as it is. -/
theorem plain_inetNtoa (addr : InAddr) : Plain (inetNtoa addr) := by
  intro b hb
  rcases mem_inetNtoa hb with rfl | hdigit
  · decide
  · exact special_of_isDigit hdigit

/-- The slot holds the address its connection came from, if it is in use. -/
def Located (c : ClientInfo) : Prop :=
  c.enable = true → ∃ addr, c.globalIp = CArray.print 16 (inetNtoa addr)

theorem located_update {list : ClientList} {c : ClientInfo} (h : ∀ i, Located (list i))
    (hc : Located c) (fd i : ℕ) : Located (Function.update list fd c i) := by
  by_cases hi : i = fd
  · rw [hi, Function.update_self]
    exact hc
  · rw [Function.update_of_ne hi]
    exact h i

theorem Action.located {listen : ℕ} {s s' : Server} {es : List Effect}
    (h : ∀ i, Located (s.clientList i)) (ha : Action listen s es s') :
    ∀ i, Located (s'.clientList i) := by
  cases ha with
  | idle phase t => exact h
  | look hi => exact h
  | @letIn fd now addr e hnew hfd hptr he => exact located_update h (fun _ => ⟨addr, rfl⟩) fd
  | refuse hnew hptr he => exact h
  | @drop fd t e hfd hptr he => exact located_update h (fun hen => by cases hen) fd
  | @request fd strRecv now hfd =>
    obtain ⟨t, ht⟩ := handleRequest_clientList s fd strRecv now
    rw [ht]
    refine located_update h (fun _ => ?_) fd
    obtain ⟨addr, haddr⟩ := h fd hfd
    exact ⟨addr, (bound_globalIp _ _).trans haddr⟩

variable {memory : ClientList} {listenFd : ℕ} {portWarn : UInt16} {labels : List Label}
  {s : Server} {tr : List Effect}

theorem execute_located (hsmall : ∀ l ∈ labels, ∀ x ∈ l.admitted, x < slots)
    (h : execute memory listenFd portWarn labels = some (s, tr)) :
    ∀ i, Located (s.clientList i) :=
  (execute_invariant (fun s _ => ∀ i, Located (s.clientList i)) (fun _ hi => by cases hi)
    (fun _ hi ha => ha.located hi) hsmall h).1

theorem Located.plain {c : ClientInfo} (h : Located c) (hc : c.enable = true) :
    Plain c.globalIp.text := by
  obtain ⟨addr, haddr⟩ := h hc
  rw [haddr, CArray.print_text]
  intro b hb
  exact plain_inetNtoa addr b ((List.takeWhile_prefix _).subset (List.mem_of_mem_take hb))

/-! ## Decoding -/

theorem mem_boundSlots {list : ClientList} {i : ℕ} :
    i ∈ boundSlots list ↔ i < slots ∧ (list i).enable = true ∧ (list i).esp8266 = true := by
  rw [boundSlots, List.mem_filter, List.mem_range, Bool.and_eq_true]

/-- A list that fits is sent as it is. -/
theorem sent_of_clientList {text : Bytes}
    (htext : member text (lit "cmd") = some (lit "client_list"))
    (hfits : replySize s.clientList < bufferSize) (fd now : ℕ) :
    sent s fd text now = [.send fd (retStr true (listText s.clientList))
      (retStr true (listText s.clientList)).length] := by
  have hwhole : (snprintf bufferSize (retStr true (listText s.clientList))).1
      = retStr true (listText s.clientList) := by
    refine List.take_of_length_le ?_
    rw [length_listReply]
    omega
  rw [sent, handleRequest_effects, requestOf_clientList htext, reply_eq rfl]
  show ((.received fd text :: ((List.range slots).map .access ++ ([.access fd]
    ++ [.send fd (snprintf bufferSize (retStr true (listText s.clientList))).1
      (retStr true (listText s.clientList)).length])) : List Effect)).filter Effect.isSend = _
  rw [hwhole, List.filter_cons_of_neg (by exact Bool.false_ne_true), List.filter_append,
    filter_isSend_access]
  rfl

/-- **What the server says decodes to what it holds exactly when no string in
it needs an escape.** In every state of every execution that lets in
descriptors of the table only: a reply to `client_list` that fits the buffer
is a text of the list exactly when the strings of all bound slots can be
printed as they are, and the notice of a warning is a text of the sender's
key exactly when that key can. -/
theorem output_decodes_iff (hsmall : ∀ l ∈ labels, ∀ x ∈ l.admitted, x < slots)
    (h : execute memory listenFd portWarn labels = some (s, tr)) :
    (∀ text fd now, member text (lit "cmd") = some (lit "client_list") →
        replySize s.clientList < bufferSize →
        ((∃ t, sent s fd text now = [.send fd t t.length] ∧ IsText (listValue s.clientList) t)
          ↔ ∀ i, (s.clientList i).enable = true → (s.clientList i).esp8266 = true →
            Printable (s.clientList i)))
      ∧ ∀ text i now, member text (lit "cmd") = some (lit "warn") → 0 < portWarn →
        (s.clientList i).enable = true → (s.clientList i).esp8266 = true →
        ((∃ t, sent s i text now
            = [.sendto portWarn t t.length, .send i (retStr false []) (retStr false []).length]
              ∧ IsText (noticeValue (s.clientList i).key.text) t)
          ↔ Plain (s.clientList i).key.text) := by
  have hloc := execute_located hsmall h
  obtain ⟨href, hag⟩ := execute_refines hsmall h
  refine ⟨fun text fd now htext hfits => ⟨?_, fun hprint => ?_⟩,
    fun text i now htext hport hen hesp => ⟨?_, fun hplain => ?_⟩⟩
  · rintro ⟨t, ht, hdec⟩ i hen hesp
    rw [sent_of_clientList htext hfits] at ht
    obtain ⟨-, rfl, -⟩ := Effect.send.inj (List.cons.inj ht).1
    exact printable_of_isText hdec i (mem_boundSlots.mpr ⟨hag.bounded i hen, hen, hesp⟩)
  · refine ⟨_, sent_of_clientList htext hfits fd now, isText_listReply (fun i hi => ?_)⟩
    obtain ⟨-, hen, hesp⟩ := mem_boundSlots.mp hi
    exact ⟨hprint i hen hesp, (hloc i).plain hen⟩
  · rintro ⟨t, ht, hdec⟩
    rw [sent_of_warn htext now href.port hport hen hesp] at ht
    obtain ⟨-, rfl, -⟩ := Effect.sendto.inj (List.cons.inj ht).1
    exact plain_of_isText hdec
  · exact ⟨_, sent_of_warn htext now href.port hport hen hesp, isText_noticeText hplain⟩

/-- A connection binds a key with a quote in it. -/
def quoteLabels : List Label :=
  [.check 0, .wait [3], .handle { quiet with accept := some (5, ⟨192, 168, 0, 7⟩) },
    .check 0, .wait [5],
    .handle (receive (lit
      "\x7b\"cmd\":\"bind\",\"key\":\"a\\\"b\",\"ssid\":\"s\",\"ip\":\"i\"\x7d"))]

/-- The execution of `quoteLabels`. -/
theorem execute_quoteLabels :
    ∃ s tr, execute zeroMemory 3 50174 quoteLabels = some (s, tr)
      ∧ replySize s.clientList < bufferSize ∧ (s.clientList 5).enable = true
      ∧ (s.clientList 5).esp8266 = true ∧ (s.clientList 5).key.text = [97, 34, 98] := by
  obtain ⟨⟨s, tr⟩, h, hslot⟩ := (Option.any_eq_true _ _).mp
    (show (execute zeroMemory 3 50174 quoteLabels).any (fun r =>
      decide (replySize r.1.clientList < bufferSize ∧ (r.1.clientList 5).enable = true
        ∧ (r.1.clientList 5).esp8266 = true
        ∧ (r.1.clientList 5).key.text = [97, 34, 98])) = true by decide +kernel)
  exact ⟨s, tr, h, of_decide_eq_true hslot⟩

unseal slots bufferSize in
set_option maxRecDepth 8000 in
theorem output_decodes_run :
    ∃ s tr, execute zeroMemory 3 50174 quoteLabels = some (s, tr)
      ∧ ((∃ t, sent s 5 listRequest 0 = [.send 5 t t.length] ∧ IsText (listValue s.clientList) t)
        ↔ ∀ i, (s.clientList i).enable = true → (s.clientList i).esp8266 = true →
          Printable (s.clientList i)) := by
  obtain ⟨s, tr, h, hfits, -⟩ := execute_quoteLabels
  exact ⟨s, tr, h, (output_decodes_iff (by decide) h).1 listRequest 5 0
    (by decide) hfits⟩

unseal slots bufferSize in
set_option maxRecDepth 8000 in
/-- A key with a quote in it makes the list no text of the table. -/
theorem quote_not_decoded :
    ¬ ∀ (memory : ClientList) (listenFd : ℕ) (portWarn : UInt16) (labels : List Label)
      (s : Server) (tr : List Effect), (∀ l ∈ labels, ∀ x ∈ l.admitted, x < slots) →
      execute memory listenFd portWarn labels = some (s, tr) →
      ∀ text fd now, member text (lit "cmd") = some (lit "client_list") →
        replySize s.clientList < bufferSize →
        ∃ t, sent s fd text now = [.send fd t t.length] ∧ IsText (listValue s.clientList) t := by
  intro hall
  obtain ⟨s, tr, h, hfits, hen, hesp, hkey⟩ := execute_quoteLabels
  have hrequest : member listRequest (lit "cmd") = some (lit "client_list") := by decide
  obtain ⟨t, ht, hdec⟩ := hall _ _ _ _ _ _ (by decide) h listRequest 5 0 hrequest hfits
  rw [sent_of_clientList hrequest hfits] at ht
  obtain ⟨-, rfl, -⟩ := Effect.send.inj (List.cons.inj ht).1
  have hplain := (printable_of_isText hdec 5 (mem_boundSlots.mpr
    ⟨by rw [slots_eq]; decide, hen, hesp⟩)).1
  rw [hkey] at hplain
  exact absurd (hplain 34 (by decide)) (by decide)

end Server
