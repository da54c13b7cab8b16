import WolServer.Device

/-!
# The keepalive of the device

A device sends something every few seconds, so that the server does not time
it out: a `bind` each minute, a `beat` six seconds after whatever was sent
last. Both deadlines are seconds of a clock of 32 bits of microseconds, which
starts again every 71 minutes, and they are compared as plain numbers.

As long as the clock does not wrap this keeps every gap below eight seconds.
When it wraps, the deadlines lie ahead of any time the clock will show for
more than an hour, and the device falls silent. `Device.keepalive_iff` says
both at once: two consecutive sends are less than eight seconds apart exactly
when they fall in the same round of the clock.
-/

namespace Device

variable {parse : Bytes → Option CJSON} {key : Bytes} {d d' : Device} {t : Turn} {acts : List Act}

/-! ## What a turn does to the timers -/

/-- The time of a `bind` or a `beat`. -/
def keepaliveTime : Act → Option ℕ
  | .send .bind time .. => some time
  | .send .beat time .. => some time
  | _ => none

/-- **When something was sent to keep the connection alive.** -/
def sendTimes (acts : List Act) : List ℕ := acts.filterMap keepaliveTime

theorem sendTimes_append (acts acts' : List Act) :
    sendTimes (acts ++ acts') = sendTimes acts ++ sendTimes acts' := List.filterMap_append

theorem sendTimes_sendText_other {kind : Kind} (h : kind = .response ∨ kind = .warn)
    (text : Bytes) : sendTimes (sendText t kind text) = [] := by
  unfold sendText
  dsimp only
  split
  · rcases h with rfl | rfl <;> rfl
  · rfl

/-- Both timers are as they were. -/
def SameTimers (d d' : Device) : Prop :=
  d'.timestampSendBind = d.timestampSendBind ∧ d'.timestampSendBeat = d.timestampSendBeat

theorem sent_timers (d : Device) (taken : Bool) : SameTimers d (d.sent taken) := by
  unfold sent
  split <;> exact ⟨rfl, rfl⟩

theorem command_sendTimes {pRoot : CJSON} {cmd : Bytes} {cmdStatus : Bool}
    (h : command t pRoot cmd = some (acts, cmdStatus)) : sendTimes acts = [] := by
  unfold command at h
  split at h
  · split at h <;> cases h <;> rfl
  split at h
  · split at h <;> cases h <;> rfl
  split at h <;> cases h <;> rfl

/-- **Receiving does not touch the timers**, and keeps nothing alive. -/
theorem receive_timers (parse : Bytes → Option CJSON) (key : Bytes) (d : Device) (t : Turn) :
    SameTimers d (receive parse key d t).1 ∧ sendTimes (receive parse key d t).2 = [] := by
  unfold receive
  cases t.recv with
  | data bytes =>
    dsimp only
    cases parse (cstr bytes) with
    | none => exact ⟨⟨rfl, rfl⟩, rfl⟩
    | some pRoot =>
      show SameTimers d (handleRoot key d t pRoot).1
        ∧ sendTimes (.received bytes :: (handleRoot key d t pRoot).2) = []
      unfold handleRoot
      split
      · exact ⟨⟨rfl, rfl⟩, rfl⟩
      · unfold answered
        split <;> exact ⟨⟨rfl, rfl⟩, rfl⟩
      split
      · exact ⟨⟨rfl, rfl⟩, rfl⟩
      · exact ⟨⟨rfl, rfl⟩, rfl⟩
      cases hc : command t pRoot _ with
      | none => exact ⟨⟨rfl, rfl⟩, rfl⟩
      | some r =>
        obtain ⟨acts, cmdStatus⟩ := r
        refine ⟨⟨rfl, rfl⟩, ?_⟩
        show sendTimes (acts ++ _) = []
        rw [sendTimes_append, command_sendTimes hc, sendTimes_sendText_other (Or.inl rfl)]
        rfl
  | closed => exact ⟨⟨rfl, rfl⟩, rfl⟩
  | failed => exact ⟨⟨rfl, rfl⟩, rfl⟩
  | again =>
    show SameTimers d (checkPin d t).1 ∧ sendTimes (checkPin d t).2 = []
    unfold checkPin
    split
    · split
      · exact ⟨⟨rfl, rfl⟩, sendTimes_sendText_other (t := t) (Or.inr rfl) warnText⟩
      · exact ⟨⟨rfl, rfl⟩, rfl⟩
    · exact ⟨⟨rfl, rfl⟩, rfl⟩

/-- **What a turn does to the timers**: something is sent and they are set,
or nothing is due and they stay; or the loop is left. -/
theorem turn_timers (h : turn parse key d t = some (d', acts)) :
    (sendTimes acts = [t.time]
        ∧ (d.timestampSendBind < timestampNow t.time ∨ d.timestampSendBeat < timestampNow t.time)
        ∧ d'.timestampSendBeat = timestampNow t.time + 6
        ∧ (d'.timestampSendBind = timestampNow t.time + 60
          ∨ ¬ d.timestampSendBind < timestampNow t.time
            ∧ d'.timestampSendBind = d.timestampSendBind))
      ∨ (sendTimes acts = [] ∧ timestampNow t.time ≤ d.timestampSendBind
        ∧ timestampNow t.time ≤ d.timestampSendBeat ∧ SameTimers d d')
      ∨ (sendTimes acts = [] ∧ d'.ending = some .noResponse) := by
  obtain ⟨-, ⟨-, rfl, rfl⟩ | ⟨d₁, acts₁, hsend, rfl, rfl⟩⟩ := turn_cases h
  · exact Or.inr (Or.inr ⟨rfl, rfl⟩)
  obtain ⟨htimers, hnone⟩ := receive_timers parse key d₁ t
  rw [sendTimes_append, hnone, List.append_nil]
  rcases sendDue_cases hsend with ⟨hnot, rfl, rfl⟩ | ⟨hdue, -, kind, timer, text, hkind, rfl, rfl⟩
  · obtain ⟨hbind, hbeat⟩ := not_or.mp hnot
    exact Or.inr (Or.inl ⟨rfl, Nat.le_of_not_lt hbind, Nat.le_of_not_lt hbeat, htimers⟩)
  · obtain ⟨hb, ht⟩ := htimers
    have hbind := hb.trans (sent_timers _ _).1
    have hbeat := ht.trans (sent_timers _ _).2
    rcases hkind with ⟨rfl, rfl⟩ | ⟨rfl, hnot, rfl⟩
    · exact Or.inl ⟨rfl, hdue, hbeat, Or.inl hbind⟩
    · exact Or.inl ⟨rfl, hdue, hbeat, Or.inr ⟨hnot, hbind⟩⟩

/-! ## From one send to the next -/

/-- A turn is at most a second after the one before. -/
def Soon (a b : ℕ) : Prop := a ≤ b ∧ b ≤ a + 1000000

instance (a b : ℕ) : Decidable (Soon a b) := inferInstanceAs (Decidable (_ ∧ _))

/-- **Two sends are close exactly when the clock has not wrapped.** -/
def CloseUnlessWrapped (a b : ℕ) : Prop := b < a + 8000000 ↔ a / 2 ^ 32 = b / 2 ^ 32

/-- After a send at time `a`, and turns up to time `p` in which nothing was
due. -/
structure Waiting (a p : ℕ) (d : Device) : Prop where
  beat : d.timestampSendBeat = timestampNow a + 6
  bind : 60 ≤ d.timestampSendBind
  order : a ≤ p
  notDue : timestampNow p ≤ timestampNow a + 6

/-- **The send after the next second.** Within a round of the clock the
deadline is passed by less than two seconds; in the next round the clock
would have to show more than six seconds, or more than a minute, for
anything to be due. -/
theorem Waiting.closeUnlessWrapped {a p b : ℕ} (h : Waiting a p d) (hsoon : Soon p b)
    (hdue : d.timestampSendBind < timestampNow b ∨ d.timestampSendBeat < timestampNow b) :
    CloseUnlessWrapped a b := by
  obtain ⟨hbeat, hbind, horder, hnot⟩ := h
  obtain ⟨hpb, hsec⟩ := hsoon
  rw [hbeat] at hdue
  simp only [timestampNow, systemGetTime] at hnot hdue
  constructor
  · intro hclose
    by_contra hround
    -- the last seconds of one round, and the first ones of the next
    omega
  · intro hround
    omega

/-- Once the loop is left, nothing is done. -/
theorem run_left {turns : List Turn} (h : d.ending ≠ none)
    (hrun : Runs.run (turn parse key) d turns = some (d', acts)) : acts = [] := by
  cases turns with
  | nil => exact (Prod.mk.inj (Option.some.inj hrun)).2.symm
  | cons t turns =>
    obtain ⟨_, _, _, hturn, -⟩ := Runs.run_cons_eq_some.mp hrun
    rw [turn, if_pos h] at hturn
    cases hturn

/-- **From a send on**, every two sends in a row are close unless the clock
wrapped between them. -/
theorem run_waiting {turns : List Turn} {a p : ℕ} (h : Waiting a p d)
    (hsoon : (p :: turns.map Turn.time).IsChain Soon)
    (hrun : Runs.run (turn parse key) d turns = some (d', acts)) :
    (a :: sendTimes acts).IsChain CloseUnlessWrapped := by
  induction turns generalizing a p d acts with
  | nil =>
    obtain ⟨-, rfl⟩ := Prod.mk.inj (Option.some.inj hrun)
    exact List.isChain_singleton a
  | cons t turns ih =>
    obtain ⟨d₁, acts₁, acts₂, hturn, hrest, rfl⟩ := Runs.run_cons_eq_some.mp hrun
    rw [List.map_cons, List.isChain_cons_cons] at hsoon
    obtain ⟨hpt, hsoon⟩ := hsoon
    rw [sendTimes_append]
    rcases turn_timers hturn with ⟨hs, hdue, hbeat, hbind⟩ | ⟨hs, -, hnot, hb, ht⟩ | ⟨hs, hleft⟩
    · rw [hs]
      refine List.isChain_cons_cons.mpr ⟨h.closeUnlessWrapped hpt hdue, ih ?_ hsoon hrest⟩
      refine ⟨hbeat, ?_, le_rfl, Nat.le_add_right _ _⟩
      have := h.bind
      omega
    · rw [hs]
      refine ih ⟨ht.trans h.beat, hb ▸ h.bind, h.order.trans hpt.1, ?_⟩ hsoon hrest
      rw [← h.beat]
      exact hnot
    · rw [hs, run_left (by rw [hleft]; simp) hrest]
      exact List.isChain_singleton a

/-- Before the first send, everything is due at once. -/
theorem run_start {turns : List Turn} (hb : d.timestampSendBind = 0)
    (hsoon : (turns.map Turn.time).IsChain Soon)
    (hrun : Runs.run (turn parse key) d turns = some (d', acts)) :
    (sendTimes acts).IsChain CloseUnlessWrapped := by
  induction turns generalizing d acts with
  | nil =>
    obtain ⟨-, rfl⟩ := Prod.mk.inj (Option.some.inj hrun)
    exact List.isChain_nil
  | cons t turns ih =>
    obtain ⟨d₁, acts₁, acts₂, hturn, hrest, rfl⟩ := Runs.run_cons_eq_some.mp hrun
    rw [sendTimes_append]
    rcases turn_timers hturn with ⟨hs, hdue, hbeat, hbind⟩ | ⟨hs, -, -, hb', -⟩ | ⟨hs, hleft⟩
    · rw [hs]
      refine run_waiting ⟨hbeat, ?_, le_rfl, Nat.le_add_right _ _⟩ hsoon hrest
      rcases hbind with h | ⟨h, -⟩ <;> omega
    · rw [hs]
      exact ih (hb'.trans hb) hsoon.tail hrest
    · rw [hs, run_left (by rw [hleft]; simp) hrest]
      exact List.isChain_nil

/-- Only turns send. -/
theorem sendTimes_mem {turns : List Turn}
    (hrun : Runs.run (turn parse key) d turns = some (d', acts)) :
    ∀ a ∈ sendTimes acts, a ∈ turns.map Turn.time := by
  induction turns generalizing d acts with
  | nil =>
    obtain ⟨-, rfl⟩ := Prod.mk.inj (Option.some.inj hrun)
    exact List.forall_mem_nil _
  | cons t turns ih =>
    obtain ⟨d₁, acts₁, acts₂, hturn, hrest, rfl⟩ := Runs.run_cons_eq_some.mp hrun
    have hone : ∀ a ∈ sendTimes acts₁, a = t.time := by
      rcases turn_timers hturn with ⟨hs, -⟩ | ⟨hs, -⟩ | ⟨hs, -⟩ <;> rw [hs]
      · exact List.forall_mem_singleton.mpr rfl
      · exact List.forall_mem_nil _
      · exact List.forall_mem_nil _
    rw [sendTimes_append, List.map_cons]
    intro a ha
    rcases List.mem_append.mp ha with ha | ha
    · exact List.mem_cons.mpr (Or.inl (hone a ha))
    · exact List.mem_cons_of_mem _ (ih hrest a ha)

/-- **The keepalive holds exactly as long as the clock does not wrap.** In
every run of the loop whose turns are at most a second apart, two consecutive
sends are less than eight seconds apart exactly when they fall in the same
round of the clock; so in a run within one round every two are. -/
theorem keepalive_iff {turns : List Turn} {ioWarnCount : ℕ}
    (hsoon : (turns.map Turn.time).IsChain Soon)
    (hrun : Runs.run (turn parse key) (start ioWarnCount) turns = some (d, acts)) :
    (sendTimes acts).IsChain (fun a b => b < a + 8000000 ↔ a / 2 ^ 32 = b / 2 ^ 32)
      ∧ ∀ round, (∀ t ∈ turns, t.time / 2 ^ 32 = round) →
        (sendTimes acts).IsChain (fun a b => b < a + 8000000) := by
  have hchain := run_start rfl hsoon hrun
  refine ⟨hchain, fun round hround => hchain.imp_of_mem_imp (fun a b ha hb hab => hab.mpr ?_)⟩
  obtain ⟨t, ht, rfl⟩ := List.mem_map.mp (sendTimes_mem hrun a ha)
  obtain ⟨u, hu, rfl⟩ := List.mem_map.mp (sendTimes_mem hrun b hb)
  rw [hround t ht, hround u hu]

/-! ## A run across the wrap -/

/-- Turns at which nothing arrives, a second apart. -/
def quietTurns : ℕ → ℕ → List Turn
  | _, 0 => []
  | time, n + 1 => turnAt time .again :: quietTurns (time + 1000000) n

set_option maxRecDepth 8000 in
theorem keepalive_run :
    ∃ d acts, Runs.run (turn CJSON.parse (lit "0123456789AB")) (start 0) (quietTurns 5000000 8)
        = some (d, acts)
      ∧ (sendTimes acts).IsChain (fun a b => b < a + 8000000 ↔ a / 2 ^ 32 = b / 2 ^ 32) := by
  obtain ⟨⟨d, acts⟩, h⟩ := Option.isSome_iff_exists.mp
    (show (Runs.run (turn CJSON.parse (lit "0123456789AB")) (start 0)
      (quietTurns 5000000 8)).isSome = true by decide)
  exact ⟨d, acts, h, (keepalive_iff (by decide) h).1⟩

theorem quietTurns_soon (p n : ℕ) (recv : Recv) :
    (p :: (quietTurns (p + 1000000) n ++ [turnAt (p + (n + 1) * 1000000) recv]).map
      Turn.time).IsChain Soon := by
  induction n generalizing p with
  | zero =>
    refine List.isChain_pair.mpr ⟨?_, ?_⟩
    · exact Nat.le_add_right _ _
    · show p + (0 + 1) * 1000000 ≤ p + 1000000
      omega
  | succ n ih =>
    have hlast : p + (n + 1 + 1) * 1000000 = p + 1000000 + (n + 1) * 1000000 := by ring
    rw [hlast]
    exact List.isChain_cons_cons.mpr ⟨⟨Nat.le_add_right _ _, le_rfl⟩, ih (p + 1000000)⟩

/-- Nothing is done while nothing is due and nothing arrives. -/
theorem run_quiet {time n : ℕ} (hgo : d.ending = none) (hpin : d.ioWarnCount = 0)
    (hquiet : ∀ k < n, timestampNow (time + k * 1000000) ≤ d.timestampSendBind
      ∧ timestampNow (time + k * 1000000) ≤ d.timestampSendBeat) :
    Runs.run (turn parse key) d (quietTurns time n) = some (d, []) := by
  induction n generalizing time with
  | zero => rfl
  | succ n ih =>
    have hturn : turn parse key d (turnAt time .again) = some (d, []) := by
      have h0 := hquiet 0 (Nat.succ_pos n)
      rw [Nat.zero_mul, Nat.add_zero] at h0
      have hdue : sendDue key d (turnAt time .again) = some (d, []) := by
        unfold sendDue
        dsimp only [turnAt]
        rw [if_neg (Nat.not_lt.mpr h0.1), if_neg (Nat.not_lt.mpr h0.2)]
      have hreceive : receive parse key d (turnAt time .again) = (d, []) := by
        show ({ d with ioWarnCount := 0 }, []) = (d, [])
        rw [← hpin]
      rw [turn, if_neg (by rw [hgo]; simp), hdue]
      dsimp only
      rw [hreceive]
      rfl
    refine Runs.run_cons_eq_some.mpr ⟨d, [], [], hturn, ih (fun k hk => ?_), rfl⟩
    have := hquiet (k + 1) (Nat.succ_lt_succ hk)
    rwa [show time + (k + 1) * 1000000 = time + 1000000 + k * 1000000 by ring] at this

/-- Between two sends there is an answer. -/
def Answered (acts : List Act) : Prop :=
  ∀ pre x mid y post, acts = pre ++ x :: (mid ++ y :: post) → keepaliveTime x ≠ none →
    keepaliveTime y ≠ none → .received (Server.retStr true []) ∈ mid

/-- The turn that sends the `bind`, eight seconds before the clock wraps. -/
def bindTurn : Turn := turnAt 4287990000 (.data (Server.retStr true []))

/-- The turn that sends the next `beat`, in the last second of the next
round. -/
def beatTurn : Turn := turnAt 8588990000 .again

/-- The device while it waits. -/
def waiting : Device := ⟨4347, 4293, false, 0, 0, none⟩

set_option maxRecDepth 8000 in
/-- A device that binds eight seconds before its clock wraps sends nothing for
more than an hour. -/
theorem silent_after_wrap :
    ¬ ∀ (parse : Bytes → Option CJSON) (key : Bytes) (turns : List Turn) (ioWarnCount : ℕ)
      (d : Device) (acts : List Act), CJSON.FrontParser parse →
      (turns.map Turn.time).IsChain Soon → (∀ t ∈ turns, ∀ kind, t.takes kind = true) →
      Runs.run (turn parse key) (start ioWarnCount) turns = some (d, acts) → Answered acts →
      (sendTimes acts).IsChain (fun a b => b < a + 8000000) := by
  intro hall
  have hbind : turn CJSON.parse (lit "0123456789AB") (start 0) bindTurn = some (waiting,
      sendText bindTurn .bind (bindText (lit "0123456789AB") (lit "net") (lit "192.168.0.7"))
        ++ [.received (Server.retStr true [])]) := by decide
  have hbeat : turn CJSON.parse (lit "0123456789AB") waiting beatTurn
      = some ({ waiting with timestampSendBeat := 4300, responseNotRecv := true,
                             responseLostCount := 1 }, sendText beatTurn .beat beatText) := by
    decide
  have hquiet : Runs.run (turn CJSON.parse (lit "0123456789AB")) waiting
      (quietTurns 4288990000 4300) = some (waiting, []) := by
    refine run_quiet rfl rfl (fun k hk => ?_)
    -- six seconds to the wrap, and then the seconds of the next round
    rcases Nat.lt_or_ge k 6 with h6 | h6
    · interval_cases k <;> decide
    · have hnow : timestampNow (4288990000 + k * 1000000) = k - 6 := by
        have hmod : (4288990000 + k * 1000000) % 2 ^ 32 = (k - 6) * 1000000 + 22704 := by omega
        rw [timestampNow, systemGetTime, hmod]
        omega
      rw [hnow]
      exact ⟨show k - 6 ≤ 4347 by omega, show k - 6 ≤ 4293 by omega⟩
  have hrun := Runs.run_cons_eq_some.mpr ⟨_, _, _, hbind,
    Runs.run_append hquiet (Runs.run_single hbeat), rfl⟩
  rw [sendText_eq _ _ (by decide), sendText_eq _ _ (by decide)] at hrun
  have hsoon : ((bindTurn :: (quietTurns 4288990000 4300 ++ [beatTurn])).map Turn.time).IsChain
      Soon := quietTurns_soon 4287990000 4300 .again
  have htakes : ∀ t ∈ bindTurn :: (quietTurns 4288990000 4300 ++ [beatTurn]),
      ∀ kind, t.takes kind = true := by
    have hquiet : ∀ n time, ∀ t ∈ quietTurns time n, ∀ kind, t.takes kind = true := by
      intro n
      induction n with
      | zero => exact fun _ => List.forall_mem_nil _
      | succ n ih => exact fun time => List.forall_mem_cons.mpr ⟨fun _ => rfl, ih _⟩
    exact List.forall_mem_cons.mpr ⟨fun _ => rfl, List.forall_mem_append.mpr
      ⟨hquiet _ _, List.forall_mem_singleton.mpr (fun _ => rfl)⟩⟩
  refine absurd (List.isChain_pair.mp (hall _ _ _ _ _ _ CJSON.frontParser hsoon htakes hrun ?_))
    (by decide)
  -- the first act is the `bind`, the second its answer, the third the `beat`
  intro pre x mid y post heq hx hy
  match pre, mid with
  | [], [] =>
    obtain ⟨-, rfl, -⟩ := by simpa using heq
    exact absurd rfl hy
  | [], m :: mid =>
    obtain ⟨-, rfl, -⟩ := by simpa using heq
    exact List.mem_cons_self
  | [_], _ =>
    obtain ⟨-, rfl, -⟩ := by simpa using heq
    exact absurd rfl hx
  | _ :: _ :: pre, mid =>
    have := congrArg List.length heq
    simp at this
    omega

end Device
