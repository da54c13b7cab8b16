import WolServer.Storm

/-!
# Who is who

A device binds its own key and no other, whatever its network is called and
wherever its buffer ends. So the slot of its connection, once it is bound,
holds its key (`Network.device_identity`): a command for another key is not
sent to it, and a warning of it names it.

This needs the messages of the device to arrive whole, each in an event of its
own. The name of a network may have the text of another `bind` in it, and the
server would take the rest of a message that TCP cuts there for one
(`Network.tail_of_bind`). What becomes of the messages of others does not
matter.

Nothing of this is known of the slot of another client, which may bind any
key.
-/

/-- The first two members of an object. -/
theorem CJSON.parse_front_two {m m' : Bytes × Bytes} (hm : Bare m.1 ∧ Bare m.2)
    (hm' : Bare m'.1 ∧ Bare m'.2) {r : Bytes} {root : CJSON}
    (h : parse (123 :: (memberText m ++ 44 :: (memberText m' ++ 44 :: r))) = some root) :
    ∃ ms, root.child = flatNode m :: flatNode m' :: ms := by
  have hfirst : deref (memberText m ++ 44 :: (memberText m' ++ 44 :: r)) = 34 := rfl
  obtain ⟨n, hn⟩ : ∃ n, 2 * (memberText m ++ 44 :: (memberText m' ++ 44 :: r)).length + 1
      = n + 3 :=
    Nat.exists_eq_add_of_le' (by rw [List.length_append, List.length_cons]; omega)
  rw [parse_object hfirst, hn, show n + 3 = n + 1 + 2 from rfl, parseMembers_cons hm,
    parseMembers_cons hm'] at h
  obtain ⟨r₁, h₁, rfl⟩ := Option.map_eq_some_iff.mp h
  obtain ⟨r₂, h₂, rfl⟩ := Option.map_eq_some_iff.mp h₁
  obtain ⟨r₃, -, rfl⟩ := Option.map_eq_some_iff.mp h₂
  exact ⟨r₃.1, rfl⟩

namespace Network

open Device (sendText responseText bindText beatText warnText)

variable {parse : Bytes → Option CJSON}

/-! ## What a device binds -/

/-- **A message that binds this key**, if it binds any. -/
def Own (key : Bytes) (chunks : List Bytes) : Prop :=
  ∀ args, Server.requestOf (Server.drain chunks) = .bind args → cstr args.key = key

/-- The text of a `bind` up to the name of the network. -/
def bindFront (key : Bytes) : Bytes :=
  123 :: (memberText (lit "cmd", lit "bind") ++ 44 :: (memberText (lit "key", key) ++ [44]))

theorem bindFront_append (key r : Bytes) : bindFront key ++ r
    = 123 :: (memberText (lit "cmd", lit "bind") ++ 44 :: (memberText (lit "key", key)
      ++ 44 :: r)) := by
  simp only [bindFront, List.cons_append, List.append_assoc, List.nil_append]

/-- A text that starts like the `bind` of a key binds this key, if it binds
any. -/
theorem requestOf_bindFront {key : Bytes} (hkey : Server.IsKey key) {r : Bytes}
    {args : Server.BindArgs} (h : Server.requestOf (bindFront key ++ r) = .bind args) :
    cstr args.key = key := by
  have hzero : (0 : UInt8) ∉ bindFront key := by
    have := hkey.bare.zero_notMem
    simp [bindFront, memberText, lit, this]
  cases hroot : Server.rootOf (bindFront key ++ r) with
  | none =>
    rw [Server.requestOf_eq, hroot] at h
    cases h
  | some root =>
    have hparse := hroot
    rw [Server.rootOf, cstr_append hzero, bindFront_append] at hparse
    obtain ⟨ms, hchild⟩ := CJSON.parse_front_two ⟨by simp [Bare, lit], by simp [Bare, lit]⟩
      ⟨by simp [Bare, lit], hkey.bare⟩ hparse
    have hcmd : LibJson.textValue root (lit "cmd") = some (lit "bind") := by
      rw [LibJson.textValue, LibJson.stringValue, CJSON.getObjectItem, hchild]
      rfl
    have hname : LibJson.textValue root (lit "key") = some key := by
      rw [LibJson.textValue, LibJson.stringValue, CJSON.getObjectItem, hchild]
      exact congrArg some (cstr_eq_self hkey.bare.zero_notMem)
    rw [Server.requestOf_of_command hroot hcmd] at h
    have hbind : Server.bindOf root = .bind args := h
    -- the key is short enough for its buffer
    obtain ⟨buf, hbuf, hcut⟩ := Server.getValueString_short (by decide) hname
      (by rw [hkey.1]; decide)
    unfold Server.bindOf Server.bindArgs at hbind
    rw [hbuf] at hbind
    split at hbind
    · cases hbind
    · rename_i args' hargs
      split at hargs
      · split at hargs
        · rename_i key' ssid ip hkey' hssid hip hpos
          obtain rfl := Request.bind.inj hbind
          obtain rfl := Option.some.inj hargs
          obtain rfl := Option.some.inj hkey'
          exact hcut
        · cases hargs
      · cases hargs

theorem own_bindText {key : Bytes} (hkey : Server.IsKey key) (ssid ip : Bytes) :
    Own key [(bindText key ssid ip).take 255] := by
  have hlen : (bindFront key).length ≤ 255 := by
    have hcmd : (memberText (lit "cmd", lit "bind")).length = 12 := by decide
    have hname : (lit "key").length = 3 := by decide
    simp only [bindFront, memberText, List.length_cons, List.length_append, List.length_nil,
      hkey.1, hname] at hcmd ⊢
    omega
  have hzero : (0 : UInt8) ∉ bindFront key := by
    have := hkey.bare.zero_notMem
    simp [bindFront, memberText, lit, this]
  intro args h
  rw [Device.bindText_eq, ← bindFront_append, List.take_append, List.take_of_length_le hlen,
    Server.drain, List.flatMap_singleton, cstr_append hzero] at h
  exact requestOf_bindFront hkey h

/-- A message that asks for something else binds nothing. -/
theorem own_of_ne {key : Bytes} {chunks : List Bytes}
    (h : ∀ args, Server.requestOf (Server.drain chunks) ≠ .bind args) : Own key chunks :=
  fun args hargs => absurd hargs (h args)

/-- A text that is its command alone binds nothing, unless it is a `bind`. -/
theorem own_plain (key : Bytes) {cmd : Bytes} (hcmd : Bare cmd) (hlen : cmd.length ≤ 200)
    (hne : ∀ root args, Server.requestOfCommand root cmd ≠ .bind args) :
    Own key [(flatText [(lit "cmd", cmd)]).take 255] := by
  have hms : Readable [(lit "cmd", cmd)] :=
    List.forall_mem_singleton.mpr ⟨by simp [Bare, lit], hcmd⟩
  have hsize : (flatText [(lit "cmd", cmd)]).length ≤ 255 := by
    have hname : (lit "cmd").length = 3 := by decide
    rw [flatText, List.map_singleton, List.intercalate_singleton, memberText]
    simp only [List.length_cons, List.length_append, List.length_nil, hname]
    omega
  have hvalue : LibJson.textValue (CJSON.flatRoot [(lit "cmd", cmd)]) (lit "cmd") = some cmd :=
    CJSON.textValue_flatRoot hms _
  refine own_of_ne (fun args => ?_)
  rw [List.take_of_length_le hsize, Server.drain, List.flatMap_singleton,
    cstr_eq_self (zero_notMem_flatText hms),
    Server.requestOf_of_command (Server.rootOf_flatText (List.cons_ne_nil _ _) hms) hvalue]
  exact hne _ args

theorem own_responseText {key : Bytes} (hkey : Server.IsKey key) (cmdStatus : Bool) :
    Own key [(responseText cmdStatus key).take 255] := by
  refine own_of_ne (fun args => ?_)
  rw [(Server.requestOf_eq_ignore_iff _).mpr (isResponse_responseText hkey cmdStatus)]
  exact Request.noConfusion

/-- A message to the server that binds this key, if any. -/
def OwnUp (c : ℕ) (key : Bytes) (p : Packet) : Prop := ∃ chunks, p = .up c chunks ∧ Own key chunks

theorem own_sendText (c : ℕ) {key : Bytes} (t : Turn) (kind : Kind) {text : Bytes}
    (h : Own key [text.take 255]) :
    ∀ p ∈ (sendText t kind text).filterMap (upward c), OwnUp c key p := by
  rcases upward_sendText c t kind text with hnone | hone
  · rw [hnone]
    exact List.forall_mem_nil _
  · rw [hone]
    exact List.forall_mem_singleton.mpr ⟨_, rfl, h⟩

/-- **What a device sends when it is due binds its own key**, if any. -/
theorem own_sendDue (c : ℕ) {key : Bytes} (hkey : Server.IsKey key) {d d' : Device} {t : Turn}
    {acts : List Act} (h : Device.sendDue key d t = some (d', acts)) :
    ∀ p ∈ acts.filterMap (upward c), OwnUp c key p := by
  have hbeat : Own key [beatText.take 255] := by
    rw [show beatText = flatText [(lit "cmd", lit "beat")] from rfl]
    exact own_plain key (by simp [Bare, lit]) (by decide) (fun root args => Request.noConfusion)
  unfold Device.sendDue at h
  dsimp only at h
  split_ifs at h
  · obtain ⟨-, rfl⟩ := Prod.mk.inj (Option.some.inj h)
    exact own_sendText c t .bind (own_bindText hkey _ _)
  · obtain ⟨-, rfl⟩ := Prod.mk.inj (Option.some.inj h)
    exact own_sendText c t .beat hbeat
  · obtain ⟨-, rfl⟩ := Prod.mk.inj (Option.some.inj h)
    exact List.forall_mem_nil _

/-- **What a device sends when it has received something binds nothing.** -/
theorem own_receive (parse : Bytes → Option CJSON) (c : ℕ) {key : Bytes}
    (hkey : Server.IsKey key) (d : Device) (t : Turn) :
    ∀ p ∈ (Device.receive parse key d t).2.filterMap (upward c), OwnUp c key p := by
  have hwarn : Own key [warnText.take 255] := by
    rw [show warnText = flatText [(lit "cmd", lit "warn")] from rfl]
    exact own_plain key (by simp [Bare, lit]) (by decide) (fun root args => Request.noConfusion)
  unfold Device.receive
  cases t.recv with
  | closed => exact List.forall_mem_nil _
  | failed => exact List.forall_mem_nil _
  | again =>
    show ∀ p ∈ (Device.checkPin d t).2.filterMap (upward c), OwnUp c key p
    unfold Device.checkPin
    split_ifs
    · exact own_sendText c t .warn hwarn
    · exact List.forall_mem_nil _
    · exact List.forall_mem_nil _
  | data bytes =>
    dsimp only
    rw [List.filterMap_cons_none rfl]
    cases parse (cstr bytes) with
    | none => exact List.forall_mem_nil _
    | some pRoot =>
      rw [Option.elim_some]
      rcases upward_handleRoot c key d t pRoot with h | ⟨-, cmdStatus, h⟩
      · rw [h]
        exact List.forall_mem_nil _
      · rw [h]
        exact List.forall_mem_singleton.mpr ⟨_, rfl, own_responseText hkey cmdStatus⟩

end Network

/-! ## What the server stores -/

namespace Server

/-- Nobody is let in by a request. -/
theorem accepted_notMem_handleRequest (s : Server) (fd i now : ℕ) (text : Bytes) :
    .accepted i ∉ (handleRequest s fd text now).2 := by
  have hlook : ∀ l : List ℕ, .accepted i ∉ l.map Effect.access := fun l h => by
    obtain ⟨j, -, hj⟩ := List.mem_map.mp h
    cases hj
  have hbranch : .accepted i ∉ (perform s fd (requestOf text)).effects := by
    cases hreq : requestOf text with
    | forward key message =>
      rw [perform, deliver_eq (requestOf_message hreq).1]
      split
      · exact hlook _
      · rw [List.mem_append, List.mem_singleton]
        exact not_or.mpr ⟨hlook _, Effect.noConfusion⟩
    | warn =>
      rw [perform, warn_eq]
      dsimp only [Branch.none]
      split <;> simp
    | clientList => exact hlook _
    | bind args => exact List.mem_singleton.not.mpr Effect.noConfusion
    | _ => exact List.not_mem_nil
  have hreply : .accepted i ∉ (reply (perform s fd (requestOf text)) fd now).2 := by
    unfold reply
    dsimp only
    split_ifs <;> simp
  rw [handleRequest_effects, List.mem_cons, List.mem_append]
  exact not_or.mpr ⟨Effect.noConfusion, not_or.mpr ⟨hbranch, hreply⟩⟩

/-- **Two slots of the same name**: bound or not, and with the same key. -/
def SameName (c c' : ClientInfo) : Prop := c'.esp8266 = c.esp8266 ∧ c'.key = c.key

theorem sweepStep_unread (timestamp : ℕ) (s : Server) (i : ℕ) :
    (∀ fd, .accepted fd ∉ (sweepStep timestamp s i).2)
      ∧ ∀ j, SameName (s.clientList j) ((sweepStep timestamp s i).1.clientList j) := by
  unfold sweepStep
  split
  · refine ⟨fun fd => ?_, fun j => ?_⟩
    · dsimp only
      split <;> simp
    · show SameName _ (Function.update s.clientList i _ j)
      rw [Function.update_apply]
      split
      · rename_i hj
        rw [hj]
        exact ⟨rfl, rfl⟩
      · exact ⟨rfl, rfl⟩
  · exact ⟨fun fd => by simp, fun j => ⟨rfl, rfl⟩⟩

/-- A sweep lets nobody in, and leaves the names. -/
theorem sweepFrom_unread (timestamp n i : ℕ) (s : Server) :
    (∀ fd, .accepted fd ∉ (sweepFrom timestamp i n s).2)
      ∧ ∀ j, SameName (s.clientList j) ((sweepFrom timestamp i n s).1.clientList j) := by
  induction n generalizing i s with
  | zero => exact ⟨fun fd => List.not_mem_nil, fun j => ⟨rfl, rfl⟩⟩
  | succ n ih =>
    obtain ⟨hacc, hname⟩ := sweepStep_unread timestamp s i
    obtain ⟨hacc', hname'⟩ := ih (i + 1) (sweepStep timestamp s i).1
    refine ⟨fun fd h => (List.mem_append.mp h).elim (hacc fd) (hacc' fd), fun j => ?_⟩
    exact ⟨(hname' j).1.trans (hname j).1, (hname' j).2.trans (hname j).2⟩

theorem checkTimeout_unread (s : Server) (timestamp : ℕ) :
    (∀ fd, .accepted fd ∉ (checkTimeout s timestamp).2)
      ∧ ∀ j, SameName (s.clientList j) ((checkTimeout s timestamp).1.clientList j) := by
  unfold checkTimeout
  generalize slots = n
  split
  · exact sweepFrom_unread timestamp n 0 { s with timestampChecktimeout := timestamp + 10000000 }
  · exact ⟨fun fd => List.not_mem_nil, fun j => ⟨rfl, rfl⟩⟩

/-- **A step of the server that reads nothing**: it lets nobody in and leaves
the names, or it lets somebody in whose slot has none, or it turns somebody
away. -/
theorem step_unread {s s' : Server} {l : Label} {es : List Effect}
    (hs : step s l = some (s', es)) (hreads : reads s l = none) :
    ((∀ fd, .accepted fd ∉ es) ∧ ∀ i, SameName (s.clientList i) (s'.clientList i))
      ∨ ∃ fd, (es = [.accepted fd, .access fd] ∧ ∃ now addr,
            s'.clientList = Function.update s.clientList fd (newClient now addr))
          ∨ (es = [.accepted fd, .closed fd] ∧ s'.clientList = s.clientList) := by
  have hidle : (∀ fd, .accepted fd ∉ ([] : List Effect))
      ∧ ∀ i, SameName (s.clientList i) (s.clientList i) :=
    ⟨fun fd => List.not_mem_nil, fun i => ⟨rfl, rfl⟩⟩
  rcases step_cases hs with ⟨now, rfl, -, -, rfl, rfl⟩ | ⟨now, rfl, -, -, rfl, rfl⟩
    | ⟨events, rfl, -, -, rfl, rfl⟩ | ⟨fd, rest, env, rfl, hphase, -, rfl, rfl⟩
  · exact Or.inl (checkTimeout_unread s now)
  · exact Or.inl hidle
  · exact Or.inl hidle
  · unfold handleSocket
    by_cases hlisten : s.epoll.checkListen fd = true
    · rw [if_pos hlisten]
      unfold acceptClient
      cases env.accept with
      | none => exact Or.inl hidle
      | some p =>
        refine Or.inr ⟨p.1, ?_⟩
        dsimp only
        split
        · exact Or.inl ⟨rfl, env.now, p.2, rfl⟩
        · exact Or.inr ⟨rfl, rfl⟩
    · rw [if_neg hlisten]
      by_cases hclosed : env.closed = true
      · -- the slot of a connection that has closed keeps its name
        rw [if_pos hclosed]
        refine Or.inl ⟨fun i => ?_, fun i => ?_⟩
        · unfold closeClient
          dsimp only
          split <;> simp
        · show SameName _ (Function.update s.clientList fd _ i)
          rw [Function.update_apply]
          split
          · rename_i hi
            rw [hi]
            exact ⟨rfl, rfl⟩
          · exact ⟨rfl, rfl⟩
      · simp [reads, hphase, hlisten, hclosed] at hreads

/-- A step of the server that reads a message. -/
theorem step_read {s s' : Server} {l : Label} {es : List Effect} {fd : ℕ} {env : Env}
    (hs : step s l = some (s', es)) (hreads : reads s l = some (fd, env)) :
    s'.clientList = (handleRequest s fd (drain env.chunks) env.now).1.clientList
      ∧ es = (handleRequest s fd (drain env.chunks) env.now).2 := by
  rcases step_cases hs with ⟨now, rfl, -, -, rfl, rfl⟩ | ⟨now, rfl, -, -, rfl, rfl⟩
    | ⟨events, rfl, -, -, rfl, rfl⟩ | ⟨fd', rest, env', rfl, hphase, -, rfl, rfl⟩
  · cases hreads
  · cases hreads
  · cases hreads
  · simp only [reads, hphase] at hreads
    split at hreads
    · cases hreads
    · rename_i hgo
      obtain ⟨hlisten, hclosed⟩ := not_or.mp hgo
      obtain ⟨rfl, rfl⟩ := Prod.mk.inj (Option.some.inj hreads)
      rw [handleSocket, if_neg hlisten, if_neg hclosed]
      exact ⟨rfl, rfl⟩

end Server

namespace Network

variable {parse : Bytes → Option CJSON}

/-! ## The other end of a connection stays who it is -/

/-- Where nobody is let in, there are no new connections. -/
theorem foldl_follow_of_notMem (peer : Peer) {es : List Effect} (h : ∀ fd, .accepted fd ∉ es)
    (S : Network) (fd c : ℕ) (hc : (es.foldl (follow peer) S).conn fd = some c) :
    S.conn fd = some c := by
  induction es generalizing S with
  | nil => exact hc
  | cons e es ih =>
    have hc := ih (fun fd hfd => h fd (List.mem_cons_of_mem e hfd)) (follow peer S e) hc
    cases e with
    | accepted fd => exact absurd List.mem_cons_self (h fd)
    | closed fd' =>
      have hc : Function.update S.conn fd' none fd = some c := hc
      rw [Function.update_apply] at hc
      split at hc
      · cases hc
      · exact hc
    | _ => exact hc

/-- The server has no part in who is at the other end. -/
theorem served_of_notMem (peer : Peer) (S : Network) (s : Server) {es : List Effect}
    (took : Packet → Bool) (flight : List Packet) (h : ∀ fd, .accepted fd ∉ es) :
    (served peer S s es took flight).server = s
      ∧ ∀ fd c, (served peer S s es took flight).conn fd = some c → S.conn fd = some c :=
  ⟨(follows_foldl peer _ es).server, foldl_follow_of_notMem peer h _⟩

/-! ## A slot holds the key of its device -/

/-- **The invariant** of a connection. What a device has in flight binds its
own key, and the slot of its connection holds this key once it is bound. -/
structure Named (c : ℕ) (S : Network) : Prop where
  own : ∀ chunks key, .up c chunks ∈ S.flight → (S.peer c).key = some key → Own key chunks
  slot : ∀ fd key, S.conn fd = some c → (S.peer c).key = some key →
    (S.server.clientList fd).esp8266 = true → (S.server.clientList fd).key.text = key.1

/-- A message that a device puts in flight binds its own key, if any. -/
theorem Fresh.own {S : Network} {c : ℕ} {chunks : List Bytes}
    {key : {key : Bytes // Server.IsKey key}} (h : Fresh parse S (.up c chunks))
    (hkey : (S.peer c).key = some key) : Own key chunks := by
  have hown : ∀ {c' : ℕ} {key' : {key : Bytes // Server.IsKey key}} {d : Device},
      S.peer c' = .device key' d → OwnUp c' key' (.up c chunks) → Own key chunks := by
    rintro c' key' d hpeer ⟨chunks', heq, hown⟩
    obtain ⟨rfl, rfl⟩ := Packet.up.inj heq
    rw [hpeer] at hkey
    obtain rfl := Option.some.inj hkey
    exact hown
  cases h with
  | answer hconn hup hp =>
    obtain ⟨e, -, hdown⟩ := List.mem_filterMap.mp hp
    cases e with
    | send i buffer size =>
      obtain ⟨c', -, heq⟩ := Option.map_eq_some_iff.mp hdown
      cases heq
    | _ => cases hdown
  | said chunks hc hpeer => exact absurd hpeer (Peer.ne_client hkey)
  | @due c' key' d d' t acts _ hc hpeer h hp => exact hown hpeer (own_sendDue c' key'.2 h _ hp)
  | @heard c' key' d t _ hc hpeer hp => exact hown hpeer (own_receive parse c' key'.2 d t _ hp)

theorem named_starts {S : Network} (h : Starts S) (c : ℕ) : Named c S := by
  obtain ⟨-, hconn, -, hflight⟩ := h
  constructor
  · rw [hflight]
    exact fun chunks key hp => absurd hp List.not_mem_nil
  · rw [hconn]
    rintro fd key ⟨⟩

/-- The slots of connections that there were keep their names, or get the name
that the connection has. -/
theorem Named.slot_request {S : Network} {c : ℕ} (hN : Named c S) {fd c' now : ℕ}
    {chunks : List Bytes} (hconn' : S.conn fd = some c') (hup : .up c' chunks ∈ S.flight)
    {fd' : ℕ} {key : {key : Bytes // Server.IsKey key}} (hconn : S.conn fd' = some c)
    (hkey : (S.peer c).key = some key) {slot : ClientInfo}
    (hslot : (Server.handleRequest S.server fd (Server.drain chunks) now).1.clientList fd' = slot)
    (hbound : slot.esp8266 = true) : slot.key.text = key.1 := by
  obtain ⟨timestamp, hlist⟩ := Server.handleRequest_clientList S.server fd (Server.drain chunks) now
  rw [hlist, Function.update_apply] at hslot
  subst hslot
  by_cases hfd : fd' = fd
  · subst hfd
    obtain rfl := Option.some.inj (hconn'.symm.trans hconn)
    rw [if_pos rfl] at hbound ⊢
    cases hreq : Server.requestOf (Server.drain chunks) with
    | bind args =>
      show (CArray.print 16 args.key).text = key.1
      rw [CArray.print_text, hN.own chunks key hup hkey args hreq]
      exact List.take_of_length_le (by rw [key.2.1]; decide)
    | _ =>
      rw [hreq] at hbound
      exact hN.slot fd' key hconn hkey hbound
  · rw [if_neg hfd] at hbound ⊢
    exact hN.slot fd' key hconn hkey hbound

/-- A step that is not the server's keeps the slots. -/
theorem Named.slot_of_eq {S S' : Network} {c : ℕ} (hN : Named c S) (hS : Placed S)
    (hkeeps : ∀ c < S.next, (S'.peer c).key = (S.peer c).key) (hserver : S'.server = S.server)
    (hconn : S'.conn = S.conn) (fd : ℕ) (key : {key : Bytes // Server.IsKey key})
    (hc : S'.conn fd = some c) (hkey : (S'.peer c).key = some key)
    (hbound : (S'.server.clientList fd).esp8266 = true) :
    (S'.server.clientList fd).key.text = key.1 := by
  rw [hserver] at hbound ⊢
  rw [hconn] at hc
  rw [hkeeps c (hS.conn_lt fd c hc)] at hkey
  exact hN.slot fd key hc hkey hbound

/-- **Every step keeps the slots.** -/
theorem Named.slot_step {S S' : Network} {move : Move} {c : ℕ} (hN : Named c S) (hS : Placed S)
    (h : Step parse S move S') (fd : ℕ) (key : {key : Bytes // Server.IsKey key})
    (hc : S'.conn fd = some c) (hkey : (S'.peer c).key = some key)
    (hbound : (S'.server.clientList fd).esp8266 = true) :
    (S'.server.clientList fd).key.text = key.1 := by
  have hkeeps := h.keeps.2.1
  cases h with
  | @serve l s es peer took hnew h hreads =>
    rcases Server.step_unread h hreads with
      ⟨hacc, hname⟩ | ⟨tmpFd, ⟨rfl, now, addr, hlist⟩ | ⟨rfl, hlist⟩⟩
    · obtain ⟨hserver, hconn⟩ := served_of_notMem peer S s took S.flight hacc
      rw [hserver] at hbound ⊢
      have hc := hconn fd c hc
      rw [hkeeps c (hS.conn_lt fd c hc)] at hkey
      rw [(hname fd).1] at hbound
      rw [(hname fd).2]
      exact hN.slot fd key hc hkey hbound
    · -- whoever has been let in is not bound
      have hc : Function.update S.conn tmpFd (some S.next) fd = some c := hc
      have hbound : (s.clientList fd).esp8266 = true := hbound
      show (s.clientList fd).key.text = key.1
      rw [hlist, Function.update_apply] at hbound ⊢
      rw [Function.update_apply] at hc
      split at hc
      · rename_i hfd
        rw [if_pos hfd] at hbound
        cases hbound
      · rename_i hfd
        rw [if_neg hfd] at hbound ⊢
        rw [hkeeps c (hS.conn_lt fd c hc)] at hkey
        exact hN.slot fd key hc hkey hbound
    · have hc : Function.update (Function.update S.conn tmpFd (some S.next)) tmpFd none fd
          = some c := hc
      have hbound : (s.clientList fd).esp8266 = true := hbound
      show (s.clientList fd).key.text = key.1
      rw [hlist] at hbound ⊢
      rw [Function.update_idem, Function.update_apply] at hc
      split at hc
      · cases hc
      · rw [hkeeps c (hS.conn_lt fd c hc)] at hkey
        exact hN.slot fd key hc hkey hbound
  | @request l s es fd₀ c₀ env rest took h hreads hconn₀ hfront =>
    obtain ⟨hlist, hes⟩ := Server.step_read h hreads
    have hacc : ∀ i, .accepted i ∉ es := fun i => by
      rw [hes]
      exact Server.accepted_notMem_handleRequest _ _ _ _ _
    obtain ⟨hserver, hconn⟩ := served_of_notMem .client S s took rest hacc
    rw [hserver] at hbound ⊢
    have hc := hconn fd c hc
    rw [hkeeps c (hS.conn_lt fd c hc)] at hkey
    exact hN.slot_request hconn₀ (mem_of_front hfront).1 hc hkey
      (congrFun hlist.symm fd) hbound
  | _ => exact hN.slot_of_eq hS hkeeps rfl rfl fd key hc hkey hbound

/-- **Every step keeps the invariant** of a connection, unless it cuts what is
in flight from it. -/
theorem Named.step {S S' : Network} {move : Move} {c : ℕ} (hN : Named c S) (hS : Placed S)
    (h : Step parse S move S') (hmove : move ≠ .recut (c, true)) : Named c S' := by
  refine ⟨fun chunks key hup hkey => ?_, hN.slot_step hS h⟩
  rcases h.fresh hS hup hmove with hmem | hfresh
  · rw [h.keeps.2.1 c (hS.flight_lt _ hmem)] at hkey
    exact hN.own chunks key hmem hkey
  · rw [h.keeps.2.1 c (hfresh.conn_lt hS)] at hkey
    exact hfresh.own hkey

/-- **In every run that leaves whole what is in flight from it, the invariant of
a connection holds.** -/
theorem Run.named {S₀ S : Network} {tr : List Move} {c : ℕ} (hstart : Starts S₀)
    (h : Lanes.Run (Step parse) S₀ tr S) (hwhole : .recut (c, true) ∉ tr) : Named c S :=
  h.invariant_of (· ≠ .recut (c, true)) (Named c) (fun _ hmem heq => hwhole (heq ▸ hmem))
    (named_starts hstart c)
    (fun hrun hmove hN hstep => hN.step (Run.placed hstart hrun) hstep hmove)

/-- **A device is who it is.** In every run, the slot of a device's connection
holds the key of the device, once it is bound, as long as what the device sends
arrives whole. So what finds this slot is a request for this key, and a warning
of the device names it. -/
theorem device_identity {S₀ S : Network} {tr : List Move} (hstart : Starts S₀)
    (h : Lanes.Run (Step parse) S₀ tr S) {fd c : ℕ} {key : {key : Bytes // Server.IsKey key}}
    {d : Device} (hconn : S.conn fd = some c) (hpeer : S.peer c = .device key d)
    (hwhole : .recut (c, true) ∉ tr) :
    ((S.server.clientList fd).esp8266 = true → (S.server.clientList fd).key.text = key)
      ∧ (∀ key', Server.lookup S.server.clientList key' = some fd → key' = key)
      ∧ ∀ port, Server.warnPort S.server fd = some port →
        (Server.warn S.server fd).effects
          = [.access fd, .sendto port (Server.noticeText key) (Server.noticeText key).length] := by
  have hslot := (Run.named hstart h hwhole).slot fd key hconn (by rw [hpeer]; rfl)
  refine ⟨hslot, fun key' hfind => ?_, fun port hport => ?_⟩
  · have hholds : Server.holds (S.server.clientList fd) key' = true :=
      List.find?_some (p := fun i => Server.holds (S.server.clientList i) key') hfind
    rw [Server.holds, Bool.and_eq_true, Bool.and_eq_true, beq_iff_eq] at hholds
    exact hholds.2.symm.trans (hslot hholds.1.2)
  · have hbound : (S.server.clientList fd).esp8266 = true := by
      unfold Server.warnPort at hport
      split at hport
      · rename_i hboth
        exact hboth.2
      · cases hport
    have hlen : key.1.length < 16 := by rw [key.2.1]; decide
    rw [Server.warn_eq, hport, hslot hbound, snprintf_of_lt (Server.length_noticeText_lt hlen)]
    rfl

/-- **Why the messages of a device have to arrive whole**: when TCP cuts its
`bind` inside the name of the network, the rest may be a `bind` for another
key. -/
theorem tail_of_bind {key : Bytes} (hkey : Server.IsKey key) (addr : InAddr) :
    ∃ ssid front rest b, (Device.bindText key ssid (inetNtoa addr)).take 255 = front ++ rest
      ∧ Server.bindingOf (Server.drain [rest]) = some b ∧ b.key ≠ key := by
  let ssid := lit "\x7b\"cmd\":\"bind\",\"key\":\"0\",\"ssid\":\"x"
  let front := lit "\x7b\"cmd\":\"bind\",\"key\":\"" ++ key ++ lit "\",\"ssid\":\""
  let rest := Device.bindText (lit "0") (lit "x") (inetNtoa addr)
  have hcut : Device.bindText key ssid (inetNtoa addr) = front ++ rest := by
    have hssid : ssid = lit "\x7b\"cmd\":\"bind\",\"key\":\"" ++ lit "0" ++ lit "\",\"ssid\":\""
        ++ lit "x" := by decide
    simp only [Device.bindText, front, rest, hssid, List.append_assoc]
  have hfits : (Device.bindText key ssid (inetNtoa addr)).length ≤ 255 := by
    have hlen : ssid.length = 33 := by decide
    have hip := Server.length_inetNtoa_le addr
    rw [Device.length_bindText, hkey.1, hlen]
    omega
  have hbind : Server.bindingOf (Server.drain [rest])
      = some ⟨lit "0", lit "x", inetNtoa addr⟩ := by
    have hzero : (0 : UInt8) ∉ rest := Device.zero_notMem_bindText (by decide) (by decide)
      (Server.bare_inetNtoa addr).zero_notMem
    rw [Server.drain, List.flatMap_singleton, cstr_eq_self hzero]
    show Server.bindingOf (Device.bindText _ _ _) = _
    rw [Device.bindText_eq_flatText]
    exact Server.bindingOf_bindMembers (by simp [Bare, lit]) (by simp [Bare, lit])
      (Server.bare_inetNtoa addr) ⟨by decide, by decide, Server.inetNtoa_ne_nil addr⟩
  refine ⟨ssid, front, rest, _, by rw [List.take_of_length_le hfits, hcut], hbind, ?_⟩
  intro heq
  have hone : (lit "0").length = 12 := (congrArg List.length heq).trans hkey.1
  exact absurd hone (by decide)
/-- The loop of the server comes to a descriptor, when no sweep is due. -/
theorem Reachable.poll {S : Network} (h : Reachable parse S) {s : Server} {fd : ℕ}
    (hserver : S.server = { s with phase := .loop }) (hloop : s.epoll.loop = true)
    (hrep : Server.CanReport s.epoll [fd]) :
    Reachable parse { S with server := { s with phase := .dispatch [fd] } } := by
  have hsame : ∀ (S : Network) (s : Server),
      served .client S s [] (fun _ => true) S.flight = { S with server := s } := fun S s => by
    simp only [served, sends, List.foldl_nil, List.filterMap_nil, List.filter_nil,
      List.append_nil]
  have hcheck : Server.step S.server (.check 0) = some ({ s with phase := .wait }, []) := by
    rw [hserver]
    unfold Server.step Server.checkTimeout
    dsimp only
    rw [if_pos hloop, if_neg (Nat.not_lt_zero _)]
  have hwait : Server.step { s with phase := .wait } (.wait [fd])
      = some ({ s with phase := .dispatch [fd] }, []) := if_pos hrep
  have h₁ := h.step (.serve (fun _ => true) .client hcheck rfl) rfl
  rw [hsame] at h₁
  have h₂ := h₁.step (.serve (fun _ => true) .client hwait rfl) rfl
  rwa [hsame] at h₂

unseal slots bufferSize in
set_option maxRecDepth 8000 in
/-- A device is let in and binds, and a client that is let in after it asks for
a `reset` of it. -/
theorem reachable_commanded : ∃ S d, Reachable CJSON.parse S ∧ S.conn 4 = some 0
    ∧ S.peer 0 = .device ⟨lit "0123456789AB", Server.isKey_digits⟩ d ∧ d.ending = none
    ∧ (S.server.clientList 4).esp8266 = true
    ∧ S.flight = [.down 0 (Message.reply true).text, .down 0 Message.reset.text,
      .down 1 (Message.reply true).text] := by
  let key : {key : Bytes // Server.IsKey key} := ⟨lit "0123456789AB", Server.isKey_digits⟩
  let s := Server.bootState Server.zeroMemory 3 50174
  let t := Device.turnAt 1000000 .again
  let accept (fd : ℕ) : Env := ⟨some (fd, ⟨0, 0, 0, 0⟩), true, [], false, 0⟩
  let heard (text : Bytes) : Env := ⟨none, true, [text], false, 0⟩
  let front (text : Bytes) : Bytes := (snprintf 256 text).1.take text.length
  let s₁ := (Server.handleSocket s 3 (accept 4)).1
  let s₂ (text : Bytes) := (Server.handleSocket s₁ 4 (heard (front text))).1
  let s₃ (text : Bytes) := (Server.handleSocket (s₂ text) 3 (accept 5)).1
  -- the texts are evaluated here, and nowhere else
  obtain ⟨text, ask, ok, cmd, htext, hok, hcmd, hpos, hans₂, hloop₃, hrep₃, hans₃, hes₃, hloop₄,
      hrep₄, hans₄, hes₂, hes₄, hbound⟩ :
      ∃ text ask ok cmd, text = Device.bindText key.1 (Device.ssidText t) (Device.ipText t)
        ∧ ok = (Message.reply true).text ∧ cmd = Message.reset.text ∧ 0 < text.length
        ∧ Server.CanAnswer s₁.epoll 4 (heard (front text)) ∧ (s₂ text).epoll.loop = true
        ∧ Server.CanReport (s₂ text).epoll [3] ∧ Server.CanAnswer (s₂ text).epoll 3 (accept 5)
        ∧ (Server.handleSocket (s₂ text) 3 (accept 5)).2 = [.accepted 5, .access 5]
        ∧ (s₃ text).epoll.loop = true ∧ Server.CanReport (s₃ text).epoll [5]
        ∧ Server.CanAnswer (s₃ text).epoll 5 (heard ask)
        ∧ (Server.handleSocket s₁ 4 (heard (front text))).2
          = [.received 4 (front text), .access 4, .access 4, .send 4 ok ok.length]
        ∧ (Server.handleSocket (s₃ text) 5 (heard ask)).2
          = [.received 5 ask, .access 0, .access 1, .access 2, .access 3, .access 4,
            .send 4 cmd cmd.length, .access 5, .send 5 ok ok.length]
        ∧ ((Server.handleSocket (s₃ text) 5 (heard ask)).1.clientList 4).esp8266 = true :=
    ⟨_, lit "\x7b\"cmd\":\"reset\",\"key\":\"0123456789AB\"\x7d", _, _, rfl, rfl, rfl,
      by decide +kernel⟩
  have hdue : Device.sendDue key (Device.start 0) t
      = some (Device.sent { Device.start 0 with
                  timestampSendBind := Device.timestampNow t.time + 60
                  timestampSendBeat := Device.timestampNow t.time + 6 } true,
        [.send .bind t.time (snprintf 256 text).1 text.length true]) := by
    rw [htext] at hpos ⊢
    rw [show [Act.send .bind t.time _ _ true] = _ from (Device.sendText_eq t .bind hpos).symm]
    exact (if_pos (by decide)).trans (if_neg (by decide))
  have haccept : Server.step { s with phase := .dispatch [3] } (.handle (accept 4))
      = some ({ s₁ with phase := .loop }, [.accepted 4, .access 4]) :=
    Server.step_handle (by decide)
  have hbind : Server.step { s₁ with phase := .dispatch [4] } (.handle (heard (front text)))
      = some ({ s₂ text with phase := .loop },
        [.received 4 (front text), .access 4, .access 4, .send 4 ok ok.length]) := by
    rw [← hes₂]
    exact Server.step_handle hans₂
  have haccept' : Server.step { s₂ text with phase := .dispatch [3] } (.handle (accept 5))
      = some ({ s₃ text with phase := .loop }, [.accepted 5, .access 5]) := by
    rw [← hes₃]
    exact Server.step_handle hans₃
  have hreset : Server.step { s₃ text with phase := .dispatch [5] } (.handle (heard ask))
      = some ({ (Server.handleSocket (s₃ text) 5 (heard ask)).1 with phase := .loop },
        [.received 5 ask, .access 0, .access 1, .access 2, .access 3, .access 4,
          .send 4 cmd cmd.length, .access 5, .send 5 ok ok.length]) := by
    rw [← hes₄]
    exact Server.step_handle hans₄
  have hfront : Packet.Front [.up 0 [front text]] (.up 0 [front text]) [] :=
    ⟨[], [], rfl, rfl, List.forall_mem_nil _⟩
  have hfront' : Packet.Front [.down 0 (ok.take ok.length), .up 1 [ask]] (.up 1 [ask])
      [.down 0 (ok.take ok.length)] :=
    ⟨[_], [], rfl, rfl, List.forall_mem_singleton.mpr
      (fun h => Bool.noConfusion (congrArg Prod.snd h))⟩
  have h₀ : Reachable CJSON.parse ⟨s, fun _ => none, fun _ => .client, 0, []⟩ :=
    ⟨_, [], ⟨⟨_, 3, 50174, _, Server.boot_eq⟩, rfl, rfl, rfl⟩, .nil, fun _ _ => List.not_mem_nil⟩
  -- every socket takes what is sent
  have h₁ := (h₀.poll rfl rfl (by decide)).step
    (.serve (fun _ => true) (.device key 0) haccept rfl) rfl
  have h₂ := h₁.step (.due (c := 0) Nat.zero_lt_one rfl rfl hdue (List.cons_ne_nil _ _)) rfl
  have h₃ := (h₂.poll (s := s₁) rfl rfl (by decide)).step
    (.request (fun _ => true) hbind rfl rfl hfront) rfl
  have h₄ := (h₃.poll (s := s₂ text) rfl hloop₃ hrep₃).step
    (.serve (fun _ => true) .client haccept' rfl) rfl
  have h₅ := h₄.step (.say (c := 1) [ask] Nat.one_lt_two rfl) rfl
  have h₆ := (h₅.poll (s := s₃ text) rfl hloop₄ hrep₄).step
    (.request (fun _ => true) hreset rfl rfl hfront') rfl
  refine ⟨_, _, h₆, rfl, rfl, rfl, hbound, ?_⟩
  rw [← hok, ← hcmd]
  show [Packet.down 0 (ok.take ok.length), .down 0 (cmd.take cmd.length),
    .down 1 (ok.take ok.length)] = _
  rw [List.take_length, List.take_length]

theorem device_identity_bound : ∃ S, Reachable CJSON.parse S ∧ S.conn 4 = some 0
    ∧ (S.server.clientList 4).key.text = lit "0123456789AB" := by
  obtain ⟨S, d, h, hconn, hpeer, -, hbound, -⟩ := reachable_commanded
  obtain ⟨S₀, tr, hstart, hrun, hwhole⟩ := h
  exact ⟨S, ⟨S₀, tr, hstart, hrun, hwhole⟩, hconn,
    (device_identity hstart hrun hconn hpeer (hwhole 0 true)).1 hbound⟩

end Network
