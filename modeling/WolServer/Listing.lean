import WolServer.Registry
import WolServer.Population

/-!
# The list of clients

The reply to `client_list` is the one message of the server whose length the
code does not fix: a record for each bound connection, printed one by one
into the buffer, appended to a string and printed into the buffer again as
part of the reply. This module says what comes out – `Server.listText_eq`,
with the comma logic of the loop resolved – and how long it is
(`Server.length_listReply`).

The length passed to `send` is the result of `snprintf`, which is the length
the whole reply would have. A table can be filled until that is more than the
buffer holds, and then `send` is given a length that reaches behind it.
`Server.sends_stored_iff` says that this is the only way.
-/

namespace Server

/-! ## The loop over the table -/

/-- The slots of bound connections, in the order of their descriptors. -/
def boundSlots (list : ClientList) : List ℕ :=
  (List.range slots).filter (fun i => (list i).enable && (list i).esp8266)

/-- The length of the four strings of a slot. -/
def stringsSize (c : ClientInfo) : ℕ :=
  c.key.text.length + c.ssid.text.length + c.lanIp.text.length + c.globalIp.text.length

theorem length_record (c : ClientInfo) : (record c).length = 47 + stringsSize c := by
  have h₁ : (lit "\x7b\"key\":\"").length = 8 := by decide
  have h₂ : (lit "\",\"ssid\":\"").length = 10 := by decide
  have h₃ : (lit "\",\"lan_ip\":\"").length = 12 := by decide
  have h₄ : (lit "\",\"global_ip\":\"").length = 15 := by decide
  have h₅ : (lit "\"\x7d").length = 2 := by decide
  simp only [record, stringsSize, List.length_append, h₁, h₂, h₃, h₄, h₅]
  omega

/-- A record fits the buffer. -/
theorem snprintf_record (c : ClientInfo) : (snprintf bufferSize (record c)).1 = record c := by
  have hkey := c.key.length_lt
  have hssid := c.ssid.length_lt
  have hlan := c.lanIp.length_lt
  have hglobal := c.globalIp.length_lt
  refine List.take_of_length_le ?_
  rw [bufferSize_eq, length_record, stringsSize]
  omega

/-- The records of some slots. -/
def records (list : ClientList) (is : List ℕ) : List Bytes :=
  (is.filter (fun i => (list i).enable && (list i).esp8266)).map (fun i => record (list i))

/-- **The loop counts the enabled slots and joins the records with commas**:
before each one stands a comma, except before the first in a text that is
still only a bracket. -/
theorem foldl_listStep (list : ClientList) (is : List ℕ) (n : ℕ) (str : Bytes) :
    is.foldl (listStep list) (n, str)
      = (n + is.countP (fun i => (list i).enable),
        str ++ if 1 < str.length then (records list is).flatMap (44 :: ·)
          else [44].intercalate (records list is)) := by
  induction is generalizing n str with
  | nil => simp [records]
  | cons i is ih =>
    rw [List.foldl_cons, listStep, List.countP_cons]
    cases hen : (list i).enable with
    | false =>
      rw [if_neg Bool.false_ne_true, ih]
      simp [records, hen]
    | true =>
      rw [if_pos rfl, if_pos rfl]
      cases hesp : (list i).esp8266 with
      | false =>
        rw [if_neg Bool.false_ne_true, ih]
        simp [records, hen, hesp, Nat.add_assoc, Nat.add_comm 1]
      | true =>
        have hrec : records list (i :: is) = record (list i) :: records list is := by
          simp [records, hen, hesp]
        -- from here on the text is longer than a bracket
        have hlen : ∀ u : Bytes, 1 < (u ++ record (list i)).length := fun u => by
          rw [List.length_append, length_record]
          omega
        rw [if_pos rfl, snprintf_record, ih, if_pos (hlen _), hrec]
        dsimp only
        by_cases hstr : 1 < str.length
        · rw [if_pos hstr, if_pos hstr]
          simp [Nat.add_assoc, Nat.add_comm 1]
        · rw [if_neg hstr, if_neg hstr, intercalate_cons]
          simp [Nat.add_assoc, Nat.add_comm 1]

theorem countP_enable (list : ClientList) :
    (List.range slots).countP (fun i => (list i).enable) = (enabledSlots list).card := by
  rw [List.countP_eq_length_filter, enabledSlots, ← List.toFinset_range, ← List.toFinset_filter,
    List.toFinset_card_of_nodup (List.nodup_range.filter _)]

/-- The number of enabled slots has at most four digits. -/
theorem length_count_le (list : ClientList) :
    (decimal (enabledSlots list).card).length ≤ 4 := by
  have := card_enabledSlots_le list
  rw [slots_eq] at this
  exact length_decimal_le (by omega)

/-- **The response to `client_list`**: the number of enabled slots, and the
records of the bound ones. -/
theorem listText_eq (list : ClientList) :
    listText list = lit "\x7b\"count\":" ++ (decimal (enabledSlots list).card
      ++ (lit ",\"list\":[" ++ ([44].intercalate (records list (List.range slots))
        ++ lit "]\x7d"))) := by
  have hcount := length_count_le list
  have hshort : (snprintf bufferSize (lit "\x7b\"count\":" ++ decimal (enabledSlots list).card
        ++ lit ",\"list\":")).1
      = lit "\x7b\"count\":" ++ decimal (enabledSlots list).card ++ lit ",\"list\":" := by
    refine List.take_of_length_le ?_
    have h₁ : (lit "\x7b\"count\":").length = 9 := by decide
    have h₂ : (lit ",\"list\":").length = 8 := by decide
    rw [bufferSize_eq]
    simp only [List.length_append]
    omega
  rw [listText, foldl_listStep, Nat.zero_add, countP_enable, if_neg (by simp)]
  dsimp only
  rw [hshort]
  simp [lit]

/-! ## The reply -/

theorem length_intercalate (rs : List Bytes) :
    ([44].intercalate rs).length = (rs.map (fun r => r.length + 1)).sum - 1 := by
  cases rs with
  | nil => rfl
  | cons r rs =>
    have hflat : (rs.flatMap (44 :: ·)).length = (rs.map (fun r => r.length + 1)).sum := by
      rw [List.length_flatMap]
      rfl
    rw [intercalate_cons, List.length_append, hflat, List.map_cons, List.sum_cons]
    omega

/-- **The size of the reply to `client_list`**, by the strings of the table:
48 bytes around the strings of each bound slot, the last one less the comma,
and 47 bytes and the number of enabled slots around the records. -/
def replySize (list : ClientList) : ℕ :=
  47 + (decimal (enabledSlots list).card).length
    + (((boundSlots list).map (fun i => 48 + stringsSize (list i))).sum - 1)

theorem length_listText (list : ClientList) : (listText list).length + 27 = replySize list := by
  have h₁ : (lit "\x7b\"count\":").length = 9 := by decide
  have h₂ : (lit ",\"list\":[").length = 9 := by decide
  have h₃ : (lit "]\x7d").length = 2 := by decide
  have hsum : (records list (List.range slots)).map (fun r => r.length + 1)
      = (boundSlots list).map (fun i => 48 + stringsSize (list i)) := by
    rw [records, List.map_map]
    refine List.map_congr_left (fun i _ => ?_)
    show (record (list i)).length + 1 = _
    rw [length_record]
    omega
  rw [listText_eq, replySize, ← hsum, ← length_intercalate]
  simp only [List.length_append, h₁, h₂, h₃]
  omega

theorem zero_notMem_decimal (n : ℕ) : (0 : UInt8) ∉ decimal n := fun h =>
  absurd (isDigit_of_mem_decimal h) (by decide)

theorem zero_notMem_record (c : ClientInfo) : (0 : UInt8) ∉ record c := by
  simp only [record, List.mem_append, not_or, and_assoc]
  exact ⟨by decide, c.key.noNul, by decide, c.ssid.noNul, by decide, c.lanIp.noNul, by decide,
    c.globalIp.noNul, by decide⟩

/-- No NUL cuts the response short. -/
theorem zero_notMem_listText (list : ClientList) : (0 : UInt8) ∉ listText list := by
  have hrecords : (0 : UInt8) ∉ [44].intercalate (records list (List.range slots)) := by
    intro h
    rcases mem_intercalate h with h | ⟨r, hr, h⟩
    · exact absurd h (by decide)
    · obtain ⟨i, -, rfl⟩ := List.mem_map.mp hr
      exact zero_notMem_record _ h
  rw [listText_eq]
  simp only [List.mem_append, not_or]
  exact ⟨by decide, zero_notMem_decimal _, by decide, hrecords, by decide⟩

/-- **The size of the reply to `client_list`.** -/
theorem length_listReply (list : ClientList) :
    (retStr true (listText list)).length = replySize list := by
  have hpos : 0 < (listText list).length := by
    have := length_listText list
    unfold replySize at this
    omega
  have h₁ : (lit "\x7b\"status\":").length = 10 := by decide
  have h₂ : (lit "true").length = 4 := by decide
  have h₃ : (lit ",\"response\":").length = 12 := by decide
  have h₄ : (lit "\x7d").length = 1 := by decide
  rw [retStr, if_pos rfl, if_pos hpos, cstr_eq_self (zero_notMem_listText list),
    ← length_listText]
  simp only [List.length_append, h₁, h₂, h₃, h₄]
  omega

/-! ## What is sent is stored -/

/-- A send passes a length of characters that the buffer holds. -/
def Stored : Effect → Prop
  | .send _ buffer size => size ≤ buffer.length
  | .sendto _ buffer size => size ≤ buffer.length
  | _ => True

/-- What is printed is stored exactly when it fits the buffer. -/
theorem length_le_stored_iff {text : Bytes} :
    text.length ≤ (snprintf bufferSize text).1.length ↔ text.length < bufferSize :=
  snprintf_le_stored_iff (by rw [bufferSize_eq]; decide) text

theorem stored_of_isSend {e : Effect} (h : e.isSend = false) : Stored e := by
  cases e with
  | send => cases h
  | sendto => cases h
  | _ => trivial

theorem stored_looks (l : List ℕ) : ∀ e ∈ l.map Effect.access, Stored e := fun e he => by
  obtain ⟨i, -, rfl⟩ := List.mem_map.mp he
  trivial

/-- **No branch sends more than it has printed**: the messages are short. -/
theorem perform_stored (s : Server) (fd : ℕ) (text : Bytes) :
    ∀ e ∈ (perform s fd (requestOf text)).effects, Stored e := by
  intro e he
  cases hreq : requestOf text with
  | bind args =>
    rw [hreq] at he
    exact stored_looks [fd] e he
  | clientList =>
    rw [hreq] at he
    exact stored_looks _ e he
  | forward key message =>
    obtain ⟨hpos, hlt⟩ := requestOf_message hreq
    rw [hreq, perform, deliver_eq hpos] at he
    cases hl : lookup s.clientList key with
    | none =>
      rw [hl] at he
      exact stored_looks _ e he
    | some i =>
      rw [hl] at he
      rcases List.mem_append.mp he with he | he
      · exact stored_looks _ e he
      · rw [List.mem_singleton.mp he]
        exact length_le_stored_iff.mpr hlt
  | warn =>
    rw [hreq, perform, warn_eq] at he
    rcases List.mem_cons.mp he with rfl | he
    · trivial
    cases hw : warnPort s fd with
    | none =>
      rw [hw] at he
      exact absurd he List.not_mem_nil
    | some port =>
      rw [hw] at he
      rw [List.mem_singleton.mp he]
      exact length_le_stored_iff.mpr (length_noticeText_lt (CArray.length_lt _))
  | ignore | beat | refuse =>
    rw [hreq] at he
    exact absurd he List.not_mem_nil

/-- **A request is answered with stored characters only exactly when it is no
`client_list`, or the reply fits the buffer.** -/
theorem handleRequest_stored_iff (s : Server) (fd : ℕ) (text : Bytes) (now : ℕ) :
    (∀ e ∈ (handleRequest s fd text now).2, Stored e)
      ↔ (requestOf text = .clientList → replySize s.clientList < bufferSize) := by
  have hreply : (∀ e ∈ (handleRequest s fd text now).2, Stored e)
      ↔ ∀ e ∈ (reply (perform s fd (requestOf text)) fd now).2, Stored e := by
    rw [handleRequest_effects, List.forall_mem_cons, List.forall_mem_append]
    exact ⟨fun h => h.2.2, fun h => ⟨trivial, perform_stored s fd text, h⟩⟩
  have hlook : ∀ status : Bool,
      ∀ e ∈ (if status = true then [Effect.access fd] else []), Stored e := fun status e he => by
    cases status with
    | true => rw [List.mem_singleton.mp he]; trivial
    | false => exact absurd he List.not_mem_nil
  rw [hreply]
  by_cases hlist : requestOf text = .clientList
  · rw [hlist, reply_eq rfl, List.forall_mem_append, List.forall_mem_singleton]
    show (∀ e ∈ (if true = true then [Effect.access fd] else []), Stored e)
      ∧ Stored (.send fd (snprintf bufferSize (retStr true (listText s.clientList))).1
        (retStr true (listText s.clientList)).length) ↔ _
    rw [Stored, length_le_stored_iff, length_listReply]
    exact ⟨fun h _ => h.2, fun h => ⟨hlook true, h rfl⟩⟩
  · refine ⟨fun _ h => absurd h hlist, fun _ => ?_⟩
    cases hign : (perform s fd (requestOf text)).retToIgnore with
    | true =>
      rw [reply, if_pos hign]
      exact List.forall_mem_nil _
    | false =>
      have hshort : ∀ status : Bool, (retStr status []).length < bufferSize := fun status => by
        rw [bufferSize_eq]
        cases status <;> decide
      rw [reply_eq hign, perform_strSend s fd hlist, List.forall_mem_append,
        List.forall_mem_singleton]
      exact ⟨hlook _, length_le_stored_iff.mpr (hshort _)⟩

/-! ## Over a run -/

/-- The request that a step answers. -/
def asked (s : Server) (l : Label) : Option Request :=
  (reads s l).map (fun r => requestOf (drain r.2.chunks))

/-- A step sends stored characters only exactly when it answers no
`client_list`, or the reply fits the buffer. -/
theorem step_stored_iff {s s' : Server} {l : Label} {es : List Effect}
    (hs : step s l = some (s', es)) :
    (∀ e ∈ es, Stored e)
      ↔ (asked s l = some .clientList → replySize s.clientList < bufferSize) := by
  unfold asked
  rcases step_reads hs with ⟨hreads, hquiet⟩ | ⟨fd, env, hreads, rfl⟩
  · rw [hreads]
    exact ⟨fun _ h => (by cases h), fun _ e he => stored_of_isSend (hquiet e he)⟩
  · rw [hreads, handleRequest_stored_iff, Option.map_some, Option.some_inj]

variable {memory : ClientList} {listenFd : ℕ} {portWarn : UInt16} {labels : List Label}
  {s : Server} {tr : List Effect}

/-- Every `client_list` among these labels is answered at a table whose list
fits the buffer. -/
def ListsFit (memory : ClientList) (listenFd : ℕ) (portWarn : UInt16) (labels : List Label) :
    Prop :=
  ∀ before l after s₁ tr₁, labels = before ++ l :: after →
    execute memory listenFd portWarn before = some (s₁, tr₁) →
    asked s₁ l = some .clientList → replySize s₁.clientList < bufferSize

/-- **Every send of an execution passes a length of stored characters exactly
when every `client_list` in it is answered at a table whose list fits the
buffer.** -/
theorem sends_stored_iff (h : execute memory listenFd portWarn labels = some (s, tr)) :
    (∀ e ∈ tr, Stored e) ↔ ListsFit memory listenFd portWarn labels := by
  obtain ⟨tr', hrun, rfl⟩ := execute_eq_some.mp h
  rw [List.forall_mem_append, and_iff_right (stored_looks (List.range slots)),
    Runs.forall_effects_iff Stored _ (fun hs => step_stored_iff hs) hrun]
  refine forall₄_congr (fun before l after s₁ => ⟨fun hall tr₁ heq hexec => ?_,
    fun hall tr₁ heq hrun => hall _ heq (execute_eq_some.mpr ⟨tr₁, hrun, rfl⟩)⟩)
  obtain ⟨tr₂, hrun₂, -⟩ := execute_eq_some.mp hexec
  exact hall tr₂ heq hrun₂

/-- The request `client_list`. -/
def listRequest : Bytes := lit "\x7b\"cmd\":\"client_list\"\x7d"

unseal slots bufferSize in
set_option maxRecDepth 8000 in
theorem sends_stored_run :
    ∃ s tr, execute zeroMemory 3 50174
      [.check 0, .wait [3], .handle { quiet with accept := some (5, ⟨192, 168, 0, 7⟩) },
        .check 0, .wait [5], .handle (receive listRequest)] = some (s, tr)
      ∧ ((∀ e ∈ tr, Stored e) ↔ ListsFit zeroMemory 3 50174
        [.check 0, .wait [3], .handle { quiet with accept := some (5, ⟨192, 168, 0, 7⟩) },
          .check 0, .wait [5], .handle (receive listRequest)]) := by
  obtain ⟨⟨s, tr⟩, h⟩ := Option.isSome_iff_exists.mp (show (execute zeroMemory 3 50174
      [.check 0, .wait [3], .handle { quiet with accept := some (5, ⟨192, 168, 0, 7⟩) },
        .check 0, .wait [5], .handle (receive listRequest)]).isSome = true by decide)
  exact ⟨s, tr, h, sends_stored_iff h⟩

/-- A `bind` whose strings fill a slot. -/
def fullBind : Bytes :=
  lit "\x7b\"cmd\":\"bind\",\"key\":\"aaaaaaaaaaaaaaa\","
    ++ lit "\"ssid\":\"aaaaaaaaaaaaaaaaaaaaaaaaaaaaaaa\",\"ip\":\"192.168.100.100\"\x7d"

/-- The binding of `fullBind`. -/
def fullBinding : Binding :=
  ⟨List.replicate 15 97, List.replicate 31 97, lit "192.168.100.100"⟩

/-- As many connections as it takes. -/
def crowd : List Caller := (List.range 264).map (fun i => ⟨i + 4, ⟨192, 168, 100, 100⟩, fullBind⟩)

theorem mem_crowd {i : ℕ} : i ∈ crowd.map Caller.fd ↔ 4 ≤ i ∧ i < 268 := by
  rw [crowd, List.map_map, List.mem_map]
  constructor
  · rintro ⟨j, hj, rfl⟩
    have := List.mem_range.mp hj
    show 4 ≤ j + 4 ∧ j + 4 < 268
    omega
  · rintro ⟨h₁, h₂⟩
    exact ⟨i - 4, List.mem_range.mpr (by omega), Nat.sub_add_cancel h₁⟩

theorem crowd_binds {c : Caller} (hc : c ∈ crowd) : c.Binds fullBinding := by
  have hbinding : bindingOf fullBind = some fullBinding := by decide +kernel
  have hnul : (0 : UInt8) ∉ fullBind := by decide
  have hfits : fullBind.length < bufferSize := by
    rw [bufferSize_eq]
    decide
  obtain ⟨j, hj, rfl⟩ := List.mem_map.mp hc
  refine ⟨?_, hbinding, hnul, hfits⟩
  have hj := List.mem_range.mp hj
  rw [slots_eq]
  show j + 4 < 1024
  omega

unseal slots bufferSize in
set_option maxRecDepth 8000 in
/-- The list of the crowd does not fit. -/
theorem replySize_crowd {list : ClientList}
    (hin : ∀ c ∈ crowd, Connected (list c.fd) c.addr fullBinding)
    (hout : ∀ i, i ∉ crowd.map Caller.fd → (list i).enable = false) :
    bufferSize ≤ replySize list := by
  have hslot : ∀ i, 4 ≤ i ∧ i < 268 →
      Connected (list i) ⟨192, 168, 100, 100⟩ fullBinding := fun i hi => by
    obtain ⟨c, hc, rfl⟩ := List.mem_map.mp (mem_crowd.mpr hi)
    obtain ⟨j, -, rfl⟩ := List.mem_map.mp hc
    exact hin _ hc
  have hbound : boundSlots list
      = (List.range slots).filter (fun i => decide (4 ≤ i ∧ i < 268)) := by
    refine List.filter_congr (fun i _ => ?_)
    by_cases hi : 4 ≤ i ∧ i < 268
    · rw [(hslot i hi).1, (hslot i hi).2.1, decide_eq_true hi]
      rfl
    · rw [hout i (fun hm => hi (mem_crowd.mp hm)), decide_eq_false hi]
      rfl
  have hsize : ∀ i ∈ boundSlots list, 48 + stringsSize (list i) = 124 := fun i hi => by
    rw [hbound, List.mem_filter, decide_eq_true_eq] at hi
    obtain ⟨-, -, ⟨hkey, hssid, hlan⟩, hglobal⟩ := hslot i hi.2
    rw [stringsSize, hkey, hssid, hlan, hglobal]
    decide
  have hlen : (boundSlots list).length = 264 := by
    rw [hbound, slots_eq]
    decide
  rw [replySize, List.map_congr_left hsize, List.map_const', hlen, List.sum_replicate,
    smul_eq_mul, bufferSize_eq]
  omega

unseal slots bufferSize in
set_option maxRecDepth 8000 in
/-- A table can be filled until the list does not fit the buffer. -/
theorem send_behind_buffer :
    ¬ ∀ (memory : ClientList) (listenFd : ℕ) (portWarn : UInt16) (labels : List Label)
      (s : Server) (tr : List Effect), (∀ l ∈ labels, ∀ x ∈ l.admitted, x < slots) →
      execute memory listenFd portWarn labels = some (s, tr) → ∀ e ∈ tr, Stored e := by
  intro hall
  have hdistinct : (crowd.map Caller.fd).Nodup := by
    rw [crowd, List.map_map]
    exact List.nodup_range.map (fun i j h => Nat.add_right_cancel h)
  have hlisten : ∀ c ∈ crowd, (∃ b, c.Binds b) ∧ c.fd ≠ 3 := fun c hc => by
    have := mem_crowd.mp (List.mem_map_of_mem hc)
    exact ⟨⟨fullBinding, crowd_binds hc⟩, by omega⟩
  obtain ⟨labels, s, tr, h, hidle, hsmall, hin, hout⟩ :=
    execute_population zeroMemory 50174 hdistinct hlisten
  have hsize := replySize_crowd (fun c hc => hin c hc _ (crowd_binds hc)) hout
  -- one of them asks for the list
  have hen : (s.clientList 4).enable = true := by
    obtain ⟨c, hc, h4⟩ := List.mem_map.mp (mem_crowd.mpr (by omega : 4 ≤ 4 ∧ 4 < 268))
    exact h4 ▸ (hin c hc _ (crowd_binds hc)).1
  obtain ⟨hrun, -⟩ := run_request hidle hen (show (0 : UInt8) ∉ listRequest by decide)
    (by decide) (by rw [bufferSize_eq]; decide)
  have hlist : requestOf listRequest = .clientList := requestOf_clientList (by decide)
  have hsent := hall _ _ _ _ _ _ (fun l hl => ?_) (execute_append h hrun)
  · have hfits := (handleRequest_stored_iff s 4 listRequest 0).mp
      (fun e he => hsent e (List.mem_append_right _ he)) hlist
    omega
  · rcases List.mem_append.mp hl with hl | hl
    · exact hsmall l hl
    · intro x hx
      have : x ∈ [Label.check 0, .wait [4], .handle (receive listRequest)].filterMap
          Label.admitted := List.mem_filterMap.mpr ⟨l, hl, hx⟩
      exact absurd this List.not_mem_nil

end Server
