import WolServer.Draining
import WolServer.Population
import WolServer.Reactions

/-!
# No message storm

When nobody sends on its own initiative any more, the deliveries come to an
end (`Network.no_storm`): each takes a message from what is in flight, and
puts there only what the message was good for beyond its own delivery.

The invariant on the way is about what is in flight on a connection
(`Network.Sound`), and it holds as long as the messages of this connection
arrive whole. What a device has sent asks for no list of the clients, so it
gets none, and whatever a device gets is a message that it makes of what it
should. That connections and messages have been let in at all is known of
every run (`Network.Placed`).
-/

namespace Peer

/-- The key of a device. -/
def key : Peer → Option {key : Bytes // Server.IsKey key}
  | .client => none
  | .device key _ => some key

theorem ne_client {p : Peer} {k : {key : Bytes // Server.IsKey key}} (h : p.key = some k) :
    p ≠ .client := by
  rintro rfl
  cases h

/-- A peer that has the key of a client is one. -/
theorem ne_client_of_key_eq {p p' : Peer} (h : p'.key = p.key) (hp : p' ≠ .client) :
    p ≠ .client := by
  rintro rfl
  cases p' with
  | client => exact hp rfl
  | device key d => cases h

end Peer

namespace Network

open Device (beatText)

variable {parse : Bytes → Option CJSON}

/-! ## What a step leaves, and what it puts in flight -/

/-- **What effects of the server leave.** The numbers go up, and whoever has
been let in stays who he is. -/
structure Follows (S S' : Network) : Prop where
  server : S'.server = S.server
  flight : S'.flight = S.flight
  next : S.next ≤ S'.next
  peer : ∀ c < S.next, S'.peer c = S.peer c
  conn : ∀ fd c, S'.conn fd = some c → S.conn fd = some c ∨ (S.next ≤ c ∧ c < S'.next)

theorem Follows.refl (S : Network) : Follows S S :=
  ⟨rfl, rfl, le_refl _, fun _ _ => rfl, fun _ _ h => Or.inl h⟩

theorem Follows.trans {S S' S'' : Network} (h : Follows S S') (h' : Follows S' S'') :
    Follows S S'' where
  server := h'.server.trans h.server
  flight := h'.flight.trans h.flight
  next := h.next.trans h'.next
  peer c hc := (h'.peer c (hc.trans_le h.next)).trans (h.peer c hc)
  conn fd c hc := by
    rcases h'.conn fd c hc with hc | ⟨hlo, hhi⟩
    · exact (h.conn fd c hc).imp id (fun hnew => ⟨hnew.1, hnew.2.trans_le h'.next⟩)
    · exact Or.inr ⟨h.next.trans hlo, hhi⟩

theorem follows_follow (peer : Peer) (S : Network) (e : Effect) : Follows S (follow peer S e) := by
  cases e with
  | accepted fd =>
    refine ⟨rfl, rfl, Nat.le_succ _, fun c hc => Function.update_of_ne hc.ne _ _,
      fun fd' c hc => ?_⟩
    have hc : Function.update S.conn fd (some S.next) fd' = some c := hc
    rw [Function.update_apply] at hc
    split at hc
    · obtain rfl := Option.some.inj hc
      exact Or.inr ⟨le_refl _, Nat.lt_succ_self _⟩
    · exact Or.inl hc
  | closed fd =>
    refine ⟨rfl, rfl, le_refl _, fun _ _ => rfl, fun fd' c hc => ?_⟩
    have hc : Function.update S.conn fd none fd' = some c := hc
    rw [Function.update_apply] at hc
    split at hc
    · cases hc
    · exact Or.inl hc
  | _ => exact Follows.refl S

theorem follows_foldl (peer : Peer) (S : Network) (es : List Effect) :
    Follows S (es.foldl (follow peer) S) := by
  induction es generalizing S with
  | nil => exact Follows.refl S
  | cons e es ih => exact (follows_follow peer S e).trans (ih _)

theorem served_flight (peer : Peer) (S : Network) (s : Server) (es : List Effect)
    (took : Packet → Bool) (flight : List Packet) :
    (served peer S s es took flight).flight = flight ++ sends S.conn took es :=
  (follows_foldl peer _ es).flight

/-- What is to be sent goes to connections that there are. -/
theorem conn_of_mem_downward {conn : ℕ → Option ℕ} {es : List Effect} {p : Packet}
    (h : p ∈ es.filterMap (downward conn)) : ∃ fd, conn fd = some p.conn := by
  obtain ⟨e, -, hdown⟩ := List.mem_filterMap.mp h
  cases e with
  | send i buffer size =>
    obtain ⟨c, hc, rfl⟩ := Option.map_eq_some_iff.mp hdown
    exact ⟨i, hc⟩
  | _ => cases hdown

/-- What a device sends is sent on its connection. -/
theorem conn_of_mem_upward {c : ℕ} {acts : List Act} {p : Packet}
    (h : p ∈ acts.filterMap (upward c)) : p.conn = c := by
  obtain ⟨act, -, hup⟩ := List.mem_filterMap.mp h
  cases act with
  | send kind time buffer size taken =>
    simp only [upward] at hup
    split at hup
    · obtain rfl := Option.some.inj hup
      rfl
    · cases hup
  | _ => cases hup

theorem acted_peer (S : Network) (c : ℕ) (key : {key : Bytes // Server.IsKey key}) (d : Device)
    (acts : List Act) (flight : List Packet) :
    (acted S c key d acts flight).peer c = .device key d := by
  show Function.update S.peer c (.device key d) c = .device key d
  exact Function.update_self ..

theorem acted_key {S : Network} {c : ℕ} {key : {key : Bytes // Server.IsKey key}} {d : Device}
    (hpeer : S.peer c = .device key d) (d' : Device) (acts : List Act) (flight : List Packet)
    (c' : ℕ) : ((acted S c key d' acts flight).peer c').key = (S.peer c').key := by
  show (Function.update S.peer c (.device key d') c').key = _
  rw [Function.update_apply]
  split
  · rename_i hc
    rw [hc, hpeer]
    rfl
  · rfl

/-- **Whoever has been let in keeps his key**, and there are no connections but
those that have been let in. -/
theorem Step.keeps {S S' : Network} {move : Move} (h : Step parse S move S') :
    S.next ≤ S'.next ∧ (∀ c < S.next, (S'.peer c).key = (S.peer c).key)
      ∧ ∀ fd c, S'.conn fd = some c → S.conn fd = some c ∨ c < S'.next := by
  have hserved : ∀ (peer : Peer) (s : Server) (es : List Effect) (took : Packet → Bool)
      (flight : List Packet), S.next ≤ (served peer S s es took flight).next
        ∧ (∀ c < S.next, ((served peer S s es took flight).peer c).key = (S.peer c).key)
        ∧ ∀ fd c, (served peer S s es took flight).conn fd = some c →
          S.conn fd = some c ∨ c < (served peer S s es took flight).next := by
    intro peer s es took flight
    have hfollows := follows_foldl peer
      { S with
        server := s
        flight := flight ++ sends S.conn took es } es
    exact ⟨hfollows.next, fun c hc => congrArg Peer.key (hfollows.peer c hc),
      fun fd c hc => (hfollows.conn fd c hc).imp id And.right⟩
  cases h with
  | serve took hnew h hreads => exact hserved _ _ _ took _
  | request took h hreads hconn hfront => exact hserved _ _ _ took _
  | hear hpeer | look hc hpeer | due hc hpeer | leave hc hpeer | idle hc hpeer | alarm hc hpeer =>
    exact ⟨le_refl _, fun c _ => acted_key hpeer _ _ _ c, fun _ _ hc => Or.inl hc⟩
  | read | say | recut => exact ⟨le_refl _, fun _ _ => rfl, fun _ _ hc => Or.inl hc⟩

/-- **A message that a step puts in flight.** -/
inductive Fresh (parse : Bytes → Option CJSON) (S : Network) : Packet → Prop
  /-- The server sends it when it has read a message. -/
  | answer {fd c now : ℕ} {chunks : List Bytes} {p : Packet} (hconn : S.conn fd = some c)
      (hup : .up c chunks ∈ S.flight)
      (hp : p ∈ (Server.handleRequest S.server fd (Server.drain chunks) now).2.filterMap
        (downward S.conn)) : Fresh parse S p
  /-- A client says it. -/
  | said {c : ℕ} (chunks : List Bytes) (hc : c < S.next) (hpeer : S.peer c = .client) :
      Fresh parse S (.up c chunks)
  /-- A device sends it when it is due. -/
  | due {c : ℕ} {key : {key : Bytes // Server.IsKey key}} {d d' : Device} {t : Turn}
      {acts : List Act} {p : Packet} (hc : c < S.next) (hpeer : S.peer c = .device key d)
      (h : Device.sendDue key d t = some (d', acts)) (hp : p ∈ acts.filterMap (upward c)) :
      Fresh parse S p
  /-- A device sends it when it has looked for a message. -/
  | heard {c : ℕ} {key : {key : Bytes // Server.IsKey key}} {d : Device} {t : Turn} {p : Packet}
      (hc : c < S.next) (hpeer : S.peer c = .device key d)
      (hp : p ∈ (Device.receive parse key d t).2.filterMap (upward c)) : Fresh parse S p

/-- The connections have been let in, and the messages in flight are on such. -/
structure Placed (S : Network) : Prop where
  conn_lt : ∀ fd c, S.conn fd = some c → c < S.next
  flight_lt : ∀ p ∈ S.flight, p.conn < S.next

theorem Fresh.conn_lt {S : Network} {p : Packet} (hS : Placed S) (h : Fresh parse S p) :
    p.conn < S.next := by
  cases h with
  | answer hconn hup hp =>
    obtain ⟨fd, hfd⟩ := conn_of_mem_downward hp
    exact hS.conn_lt fd _ hfd
  | said chunks hc hpeer => exact hc
  | due hc hpeer h hp => exact (conn_of_mem_upward hp).trans_lt hc
  | heard hc hpeer hp => exact (conn_of_mem_upward hp).trans_lt hc

/-- **What is in flight after a step** was before, or it has been put there, if
it is on no lane that was cut. -/
theorem Step.fresh {S S' : Network} {move : Move} (hS : Placed S) (h : Step parse S move S')
    {p : Packet} (hp : p ∈ S'.flight) (hmove : move ≠ .recut p.lane) :
    p ∈ S.flight ∨ Fresh parse S p := by
  have happend : ∀ {rest sent : List Packet}, p ∈ rest ++ sent → rest ⊆ S.flight →
      (p ∈ sent → Fresh parse S p) → p ∈ S.flight ∨ Fresh parse S p := by
    intro rest sent hp hrest hsent
    exact (List.mem_append.mp hp).imp (fun h => hrest h) hsent
  have hself : S.flight ⊆ S.flight := List.Subset.refl _
  cases h with
  | serve took hnew h hreads =>
    rw [served_flight, sends_eq_nil h hreads, List.append_nil] at hp
    exact Or.inl hp
  | request took h hreads hconn hfront =>
    obtain ⟨hmem, hrest⟩ := mem_of_front hfront
    rw [served_flight] at hp
    refine happend hp hrest (fun hsent => ?_)
    rw [sends, effects_of_reads h hreads] at hsent
    exact .answer hconn hmem (List.mem_of_mem_filter hsent)
  | hear hpeer hgo hfront ht =>
    obtain ⟨hmem, hrest⟩ := mem_of_front hfront
    exact happend hp hrest (fun hsent => .heard (hS.flight_lt _ hmem) hpeer hsent)
  | read hpeer hfront => exact Or.inl ((mem_of_front hfront).2 hp)
  | say chunks hc hpeer =>
    refine happend hp hself (fun hsent => ?_)
    rw [List.mem_singleton.mp hsent]
    exact .said chunks hc hpeer
  | look | leave => exact happend hp hself (fun hsent => absurd hsent List.not_mem_nil)
  | due hc hpeer hgo h hacts => exact happend hp hself (fun hsent => .due hc hpeer h hsent)
  | idle hc hpeer | alarm hc hpeer =>
    exact happend hp hself (fun hsent => .heard hc hpeer hsent)
  | @recut l flight h =>
    -- the message is on another lane
    have hlane : p.lane ≠ l := fun hl => hmove (congrArg Move.recut hl.symm)
    have hin : p ∈ Lanes.inLane Packet.lane p.lane flight := Lanes.mem_inLane.mpr ⟨hp, rfl⟩
    rw [h.others _ hlane] at hin
    exact Or.inl (Lanes.mem_inLane.mp hin).1

theorem placed_starts {S : Network} (h : Starts S) : Placed S := by
  obtain ⟨-, hconn, -, hflight⟩ := h
  constructor
  · rw [hconn]
    rintro fd c ⟨⟩
  · rw [hflight]
    exact List.forall_mem_nil _

/-- A lane that is cut has had messages before. -/
theorem exists_of_recut {l : ℕ × Bool} {flight flight' : List Packet}
    (h : Packet.Recut l flight flight') {p : Packet} (hp : p ∈ flight') (hl : p.lane = l) :
    ∃ q ∈ flight, q.lane = l := by
  have hin : p ∈ Lanes.inLane Packet.lane l flight' := Lanes.mem_inLane.mpr ⟨hp, hl⟩
  obtain ⟨b, hb⟩ := List.exists_mem_of_ne_nil _ (h.ne_nil p hin)
  have hbytes := h.stream.subset (List.mem_flatMap.mpr ⟨p, hin, hb⟩)
  obtain ⟨q, hq, -⟩ := List.mem_flatMap.mp hbytes
  exact ⟨q, (Lanes.mem_inLane.mp hq).1, (Lanes.mem_inLane.mp hq).2⟩

/-- **Every step keeps what is let in let in.** -/
theorem Placed.step {S S' : Network} {move : Move} (hS : Placed S) (h : Step parse S move S') :
    Placed S' := by
  obtain ⟨hnext, -, hconn⟩ := h.keeps
  refine ⟨fun fd c hc => ?_, fun p hp => ?_⟩
  · rcases hconn fd c hc with hold | hnew
    · exact (hS.conn_lt fd c hold).trans_le hnext
    · exact hnew
  · by_cases hmove : move = .recut p.lane
    · subst hmove
      cases h with
      | recut h =>
        obtain ⟨q, hq, hlane⟩ := exists_of_recut h hp rfl
        exact (congrArg Prod.fst hlane).symm.trans_lt (hS.flight_lt q hq)
    · rcases h.fresh hS hp hmove with hmem | hfresh
      · exact (hS.flight_lt p hmem).trans_le hnext
      · exact (hfresh.conn_lt hS).trans_le hnext

/-- **In every run, the connections have been let in.** -/
theorem Run.placed {S₀ S : Network} {tr : List Move} (hstart : Starts S₀)
    (h : Lanes.Run (Step parse) S₀ tr S) : Placed S :=
  h.invariant (fun _ S => Placed S) (placed_starts hstart) (fun _ hS hstep => hS.step hstep)

/-! ## What is known of what is in flight -/

/-- **A message in flight is what it should be**: a device sends nothing that
asks for the list of the clients, and what is sent to it is a message. -/
def Fine (peer : ℕ → Peer) : Packet → Prop
  | .up c chunks => peer c ≠ .client → Modest chunks
  | .down c bytes => peer c ≠ .client → ∃ m : Message, bytes = m.text

/-- **The invariant** of a connection: what is in flight on it is what it should
be. -/
def Sound (c : ℕ) (S : Network) : Prop := ∀ p ∈ S.flight, p.conn = c → Fine S.peer p

/-- What is known of a message lasts as long as no client becomes a device. -/
theorem Fine.mono {peer peer' : ℕ → Peer} {p : Packet} (h : Fine peer p)
    (hpeer : peer' p.conn ≠ .client → peer p.conn ≠ .client) : Fine peer' p := by
  cases p with
  | up c chunks => exact fun hc => h (hpeer hc)
  | down c bytes => exact fun hc => h (hpeer hc)

theorem sound_starts {S : Network} (h : Starts S) (c : ℕ) : Sound c S := by
  rw [Sound, h.2.2.2]
  exact fun p hp => absurd hp List.not_mem_nil

/-- The reply to a request for the list goes to whoever has asked. -/
theorem send_eq_of_clientList {s : Server} {fd now i size : ℕ} {text buffer : Bytes}
    (hlist : Server.requestOf text = .clientList)
    (h : .send i buffer size ∈ (Server.handleRequest s fd text now).2) : i = fd := by
  rw [Server.handleRequest_effects, hlist, List.mem_cons, List.mem_append] at h
  rcases h with h | h | h
  · cases h
  · obtain ⟨j, -, hj⟩ := List.mem_map.mp h
    cases hj
  · rw [Server.reply_eq rfl, List.mem_append, List.mem_singleton] at h
    rcases h with h | h
    · split at h
      · cases List.mem_singleton.mp h
      · cases h
    · exact (Effect.send.inj h).1

/-- **What the server sends when it has read a message is what it should be**:
a device gets a message, because whoever asks for the list of the clients is
none, and it alone gets the list. -/
theorem Sound.fine_request {S : Network} {c : ℕ} (hS : Sound c S) {fd c' now : ℕ}
    {chunks : List Bytes} (hconn : S.conn fd = some c') (hup : .up c' chunks ∈ S.flight)
    {p : Packet} (hp : p ∈ (Server.handleRequest S.server fd (Server.drain chunks) now).2.filterMap
      (downward S.conn)) (hc : p.conn = c) : Fine S.peer p := by
  obtain ⟨e, he, hdown⟩ := List.mem_filterMap.mp hp
  cases e with
  | send i buffer size =>
    obtain ⟨c'', hc'', rfl⟩ := Option.map_eq_some_iff.mp hdown
    intro hdevice
    by_cases hlist : Server.requestOf (Server.drain chunks) = .clientList
    · obtain rfl := send_eq_of_clientList hlist he
      obtain rfl := Option.some.inj (hconn.symm.trans hc'')
      exact absurd hlist (hS _ hup hc hdevice)
    · obtain ⟨m, rfl, rfl⟩ := Server.handleRequest_message hlist he
      exact ⟨m, List.take_length⟩
  | _ => cases hdown

/-- What a step puts in flight is what it should be. -/
theorem Sound.fine_fresh {S : Network} {c : ℕ} (hS : Sound c S) {p : Packet}
    (h : Fresh parse S p) (hc : p.conn = c) : Fine S.peer p := by
  have hmodest : ∀ {c' : ℕ}, ModestUp c' p → Fine S.peer p := by
    rintro c' ⟨chunks, rfl, hmodest⟩
    exact fun _ => hmodest
  cases h with
  | answer hconn hup hp => exact hS.fine_request hconn hup hp hc
  | said chunks hlt hpeer => exact fun hdevice => absurd hpeer hdevice
  | due hlt hpeer h hp => exact hmodest (modest_sendDue _ h p hp)
  | @heard c' key d t _ hlt hpeer hp => exact hmodest (modest_receive parse c' key.2 d t p hp)

/-- **Every step keeps the invariant** of a connection whose messages it does
not cut. -/
theorem Sound.step {S S' : Network} {move : Move} {c : ℕ} (hS : Sound c S) (hplaced : Placed S)
    (h : Step parse S move S') (hmove : ∀ up, move ≠ .recut (c, up)) : Sound c S' := by
  intro p hp hc
  have hold : p.conn < S.next ∧ Fine S.peer p := by
    rcases h.fresh hplaced hp (fun heq => hmove p.isUp (hc ▸ heq)) with hmem | hfresh
    · exact ⟨hplaced.flight_lt p hmem, hS p hmem hc⟩
    · exact ⟨hfresh.conn_lt hplaced, hS.fine_fresh hfresh hc⟩
  exact hold.2.mono (Peer.ne_client_of_key_eq (h.keeps.2.1 _ hold.1))

/-- **In every run that leaves its messages whole, the invariant of a connection
holds.** -/
theorem Run.sound {S₀ S : Network} {tr : List Move} {c : ℕ} (hstart : Starts S₀)
    (h : Lanes.Run (Step parse) S₀ tr S) (hwhole : Whole c tr) : Sound c S :=
  h.invariant_of (fun move => ∀ up, move ≠ .recut (c, up)) (Sound c)
    (fun _ hmem up heq => hwhole up (heq ▸ hmem)) (sound_starts hstart c)
    (fun hrun hmove hS hstep => hS.step (Run.placed hstart hrun) hstep hmove)

theorem Reachable.step {S S' : Network} {move : Move} (h : Reachable parse S)
    (hstep : Step parse S move S') (hmove : move.cut = none) : Reachable parse S' := by
  obtain ⟨S₀, tr, hstart, hrun, hwhole⟩ := h
  refine ⟨S₀, tr ++ [move], hstart, hrun.snoc hstep, fun c up hmem => ?_⟩
  rcases List.mem_append.mp hmem with hmem | hmem
  · exact hwhole c up hmem
  · rw [← List.mem_singleton.mp hmem] at hmove
    cases hmove

/-! ## The deliveries come to an end -/

/-- **A delivery**: the message is taken from the front, what is sent for it is
put in flight, and it is worth less. -/
theorem Sound.delivery (hp : CJSON.FrontParser parse) {S S' : Network} {p : Packet}
    {sent lost : List Packet} (hS : Sound p.conn S) (h : Step parse S (.delivery p sent lost) S') :
    (Reacts p (sent ++ lost) ∧ weight sent < cost p)
      ∧ ∃ rest, Packet.Front S.flight p rest ∧ S'.flight = rest ++ sent := by
  cases h with
  | @request l s es fd c env rest took h hreads hconn hfront =>
    exact ⟨reacts_request c took h hreads, rest, hfront, served_flight _ _ _ _ _ _⟩
  | @hear c bytes rest key d t hpeer hgo hfront ht =>
    have hdevice : S.peer c ≠ .client := by
      rw [hpeer]
      exact Peer.noConfusion
    obtain ⟨m, rfl⟩ := hS _ (mem_of_front hfront).1 rfl hdevice
    rw [List.append_nil]
    exact ⟨reacts_receive hp c key.2 d ht, rest, hfront, rfl⟩
  | @read c bytes rest hpeer hfront =>
    exact ⟨⟨⟨fun _ => rfl, fun _ => rfl, fun _ => Or.inl rfl⟩, cost_pos _⟩,
      rest, hfront, (List.append_nil rest).symm⟩

/-- **A quiet step puts nothing in flight.** -/
theorem flight_of_quiet {S S' : Network} (h : Quiet parse S S') : S'.flight = S.flight := by
  cases h with
  | serve took hnew h hreads =>
    rw [served_flight, sends_eq_nil h hreads, List.append_nil]
  | look hc hpeer hgo h => exact List.append_nil _
  | @idle c key d t hc hpeer hgo ht hpin =>
    have hacts : (Device.receive parse key d t).2 = [] := by
      unfold Device.receive
      cases hrecv : t.recv with
      | data bytes => exact absurd hrecv (ht bytes)
      | closed => rfl
      | failed => rfl
      | again =>
        dsimp only
        rw [Device.checkPin, if_neg (by rw [hpin]; exact Bool.noConfusion)]
    rw [hacts]
    exact List.append_nil _

/-- **No message storm.** Whatever state the system is in: as long as nobody
sends on its own initiative, a request that is in flight is good for four
deliveries at most, a command for two, a reply and a response for one. A reply
makes nobody send, nor does a response, and a command makes a device send one
response at most. -/
theorem no_storm (hp : CJSON.FrontParser parse) {S : Network} (hS : Reachable parse S) :
    (∀ n S', Draining.Drains (Delivers parse) (Quiet parse) S n S' →
        n ≤ 4 * S.flight.countP isRequest + 2 * S.flight.countP isCommand
          + S.flight.countP isReply + S.flight.countP isResponse)
      ∧ ∀ p sent lost S', Step parse S (.delivery p sent lost) S' → Reacts p (sent ++ lost) := by
  obtain ⟨S₀, tr, hstart, hrun, hwhole⟩ := hS
  have hplaced := Run.placed hstart hrun
  have hsound : ∀ c, Sound c S := fun c => Run.sound hstart hrun (hwhole c)
  refine ⟨fun n S' hdrains => ?_, fun p sent lost S' h => ((hsound p.conn).delivery hp h).1.1⟩
  let Inv (S : Network) : Prop := Placed S ∧ ∀ c, Sound c S
  have hquiet : ∀ {S₁ S₂}, Inv S₁ → Quiet parse S₁ S₂ →
      Inv S₂ ∧ weight S₂.flight ≤ weight S₁.flight :=
    fun h₁ h => ⟨⟨h₁.1.step h, fun c => (h₁.2 c).step h₁.1 h (fun _ => Move.noConfusion)⟩,
      (congrArg weight (flight_of_quiet h)).le⟩
  have hdeliver : ∀ {S₁ S₂}, Inv S₁ → Delivers parse S₁ S₂ →
      Inv S₂ ∧ weight S₂.flight < weight S₁.flight := by
    rintro S₁ S₂ h₁ ⟨p, sent, lost, h⟩
    obtain ⟨⟨-, hlt⟩, rest, hfront, hflight⟩ := (h₁.2 p.conn).delivery hp h
    refine ⟨⟨h₁.1.step h, fun c => (h₁.2 c).step h₁.1 h (fun _ => Move.noConfusion)⟩, ?_⟩
    rw [hflight, weight_append, weight_front hfront]
    exact Nat.add_lt_add_left hlt _
  have hbound : n + weight S'.flight ≤ weight S.flight :=
    hdrains.add_measure_le Inv (fun S => weight S.flight) hquiet hdeliver ⟨hplaced, hsound⟩
  rw [← weight_eq]
  exact (Nat.le_add_right _ _).trans hbound

/-- Anything may be in flight: a client has been let in, and has said it. -/
theorem reachable_say (parse : Bytes → Option CJSON) (chunks : List Bytes) :
    ∃ S, Reachable parse S ∧ S.flight = [.up 0 chunks] := by
  let s := Server.bootState Server.zeroMemory 3 50174
  let env : Env := ⟨some (4, ⟨0, 0, 0, 0⟩), true, [], false, 0⟩
  have hcheck : Server.step s (.check 0) = some ({ s with phase := .wait }, []) := rfl
  have hwait : Server.step { s with phase := .wait } (.wait [3])
      = some ({ s with phase := .dispatch [3] }, []) :=
    if_pos (e := none) (by decide : Server.CanReport s.epoll [3])
  have haccept : Server.step { s with phase := .dispatch [3] } (.handle env)
      = some ({ (Server.handleSocket s 3 env).1 with phase := .loop },
        [.accepted 4, .access 4]) := Server.step_handle (by decide)
  have h₀ : Reachable parse ⟨s, fun _ => none, fun _ => .client, 0, []⟩ :=
    ⟨_, [], ⟨⟨_, 3, 50174, _, Server.boot_eq⟩, rfl, rfl, rfl⟩, .nil, fun _ _ => List.not_mem_nil⟩
  have h₁ := h₀.step (.serve (fun _ => true) .client hcheck rfl) rfl
  have h₂ := h₁.step (.serve (fun _ => true) .client hwait rfl) rfl
  have h₃ := h₂.step (.serve (fun _ => true) .client haccept rfl) rfl
  exact ⟨_, h₃.step (.say chunks Nat.zero_lt_one rfl) rfl, rfl⟩

theorem no_storm_say : ∃ S, Reachable CJSON.parse S ∧ S.flight = [.up 0 [beatText]]
    ∧ ∀ n S', Draining.Drains (Delivers CJSON.parse) (Quiet CJSON.parse) S n S' → n ≤ 4 := by
  obtain ⟨S, hS, hflight⟩ := reachable_say CJSON.parse [beatText]
  refine ⟨S, hS, hflight, fun n S' hdrains => ?_⟩
  have hle := (no_storm CJSON.frontParser hS).1 n S' hdrains
  rw [← weight_eq, hflight, weight_singleton] at hle
  exact hle.trans (cost_le_four _)

end Network
