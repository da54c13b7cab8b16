import WolServer.Lookups

/-!
# The watchdog of the device

A connection on which nothing comes back is given up. The device counts the
messages it has sent since the server last said `"status":true`, keeps a flag
beside the count, and leaves the loop when the next message is due and three
are unanswered. Count and flag are set in four places – where a `bind` is
sent, where a `beat` is sent, where an answer is received, and where the
connection is made.

`Device.unanswered` reads the number off what the device has done, without
the two variables: the messages taken by `send`, counted from the last answer
on. `Device.watchdog` says that the variables follow it, between the two
halves of a turn as well as between turns, that the count never passes three,
and that the loop is left for want of an answer exactly when it has to be.
-/

namespace Device

variable {parse : Bytes → Option CJSON} {key : Bytes} {d d' : Device} {t : Turn} {acts : List Act}

/-! ## The unanswered messages -/

/-- A text that says `"status":true`. -/
def SaysTrue (parse : Bytes → Option CJSON) (bytes : Bytes) : Prop :=
  ∃ c ∈ parse (cstr bytes), ∃ e ∈ c.child, e.type = .true_ ∧ Named (lit "status") e

instance (name : Bytes) (e : CJSON) : Decidable (Named name e) :=
  inferInstanceAs (Decidable (_ = _))

instance (parse : Bytes → Option CJSON) (bytes : Bytes) : Decidable (SaysTrue parse bytes) :=
  match h : parse (cstr bytes) with
  | none => .isFalse (fun ⟨_, hc, _⟩ => by rw [h] at hc; cases hc)
  | some c => decidable_of_iff (∃ e ∈ c.child, e.type = .true_ ∧ Named (lit "status") e)
      ⟨fun he => ⟨c, h, he⟩, fun ⟨_, hc, he⟩ => by
        obtain rfl := Option.some.inj (h.symm.trans hc)
        exact he⟩

/-- One more act of the device: a `bind` or a `beat` that was taken is not
answered yet, and a status of true answers all before it. -/
def tally (parse : Bytes → Option CJSON) (n : ℕ) : Act → ℕ
  | .send .bind _ _ _ taken => if taken = true then n + 1 else n
  | .send .beat _ _ _ taken => if taken = true then n + 1 else n
  | .received bytes => if SaysTrue parse bytes then 0 else n
  | _ => n

/-- **The messages that are not answered**: the `bind` and `beat` messages
that `send` took, since the last message with a status of true. -/
def unanswered (parse : Bytes → Option CJSON) (acts : List Act) : ℕ :=
  acts.foldl (tally parse) 0

/-- Acts that neither keep the connection alive nor receive. -/
def Aside (parse : Bytes → Option CJSON) (acts : List Act) : Prop :=
  ∀ a ∈ acts, ∀ n, tally parse n a = n

theorem foldl_tally_aside (h : Aside parse acts) (n : ℕ) :
    acts.foldl (tally parse) n = n := by
  induction acts with
  | nil => rfl
  | cons a acts ih =>
    unfold Aside at h
    rw [List.forall_mem_cons] at h
    rw [List.foldl_cons, h.1 n]
    exact ih h.2

theorem aside_sendText {kind : Kind} (h : kind = .response ∨ kind = .warn) (text : Bytes) :
    Aside parse (sendText t kind text) := by
  unfold sendText
  dsimp only
  split
  · rcases h with rfl | rfl <;> exact List.forall_mem_singleton.mpr (fun _ => rfl)
  · exact List.forall_mem_nil _

theorem aside_command {pRoot : CJSON} {cmd : Bytes} {cmdStatus : Bool}
    (h : command t pRoot cmd = some (acts, cmdStatus)) : Aside parse acts := by
  unfold command at h
  split at h
  · split at h <;> cases h
    · exact List.forall_mem_nil _
    · exact List.forall_mem_singleton.mpr (fun _ => rfl)
  split at h
  · split at h <;> cases h
    · exact List.forall_mem_nil _
    · exact List.forall_mem_singleton.mpr (fun _ => rfl)
  split at h <;> cases h
  · exact List.forall_mem_singleton.mpr (fun _ => rfl)
  · exact List.forall_mem_nil _

/-! ## The two variables -/

/-- The variables of the watchdog are as they were. -/
def SameWatch (d d' : Device) : Prop :=
  d'.responseNotRecv = d.responseNotRecv ∧ d'.responseLostCount = d.responseLostCount

/-- **The variables agree with what was sent and answered.** -/
structure Watched (parse : Bytes → Option CJSON) (acts : List Act) (d : Device) : Prop where
  /-- The count is that of the messages that are not answered. -/
  count_eq : d.responseLostCount = unanswered parse acts
  /-- It never passes three. -/
  count_le : d.responseLostCount ≤ 3
  /-- The flag is set exactly when there are any. -/
  notRecv_iff : d.responseNotRecv = true ↔ 0 < d.responseLostCount

theorem Watched.congr (h : Watched parse acts d) (hs : SameWatch d d') :
    Watched parse acts d' := by
  obtain ⟨hn, hl⟩ := hs
  exact ⟨hl ▸ h.count_eq, hl ▸ h.count_le, by rw [hn, hl]; exact h.notRecv_iff⟩

theorem Watched.aside (h : Watched parse acts d) {more : List Act}
    (hm : Aside parse more) : Watched parse (acts ++ more) d := by
  refine ⟨?_, h.count_le, h.notRecv_iff⟩
  rw [unanswered, List.foldl_append, foldl_tally_aside hm]
  exact h.count_eq

/-- The loop is left only with three unanswered. -/
theorem Watched.lost_iff (h : Watched parse acts d) :
    d.lost = true ↔ unanswered parse acts = 3 := by
  have := h.count_le
  rw [lost, Bool.and_eq_true, decide_eq_true_iff, h.notRecv_iff, ← h.count_eq]
  omega

/-- **A message that is sent is one more**, if it was taken; and there was
room for it. -/
theorem Watched.send (h : Watched parse acts d) (hl : d.lost = false) {kind : Kind}
    (hk : kind = .bind ∨ kind = .beat) (taken : Bool) (time : ℕ) (buffer : Bytes) (size : ℕ) :
    Watched parse (acts ++ [.send kind time buffer size taken]) (d.sent taken) := by
  have hroom : d.responseLostCount ≠ 3 := fun h3 => by
    rw [← Bool.not_eq_true, h.lost_iff, ← h.count_eq] at hl
    exact hl h3
  have := h.count_le
  have htally : unanswered parse (acts ++ [.send kind time buffer size taken])
      = if taken = true then unanswered parse acts + 1 else unanswered parse acts := by
    rw [unanswered, List.foldl_append]
    rcases hk with rfl | rfl <;> rfl
  unfold sent
  by_cases htaken : taken = true
  · rw [if_pos htaken]
    refine ⟨?_, ?_, ?_⟩
    · rw [htally, if_pos htaken, ← h.count_eq]
    · show d.responseLostCount + 1 ≤ 3
      omega
    · exact iff_of_true rfl (Nat.succ_pos _)
  · rw [if_neg htaken]
    refine ⟨?_, h.count_le, h.notRecv_iff⟩
    rw [htally, if_neg htaken]
    exact h.count_eq

theorem unanswered_received (bytes : Bytes) :
    unanswered parse (acts ++ [.received bytes])
      = if SaysTrue parse bytes then 0 else unanswered parse acts := by
  rw [unanswered, List.foldl_append]
  rfl

/-- **An answer ends the count.** -/
theorem Watched.answer (h : Watched parse acts d) {bytes : Bytes} (hs : SaysTrue parse bytes) :
    Watched parse (acts ++ [.received bytes]) d.answered := by
  have hzero : d.answered.responseLostCount = 0 ∧ d.answered.responseNotRecv = false := by
    unfold answered
    by_cases hn : d.responseNotRecv = true
    · rw [if_pos hn]
      exact ⟨rfl, rfl⟩
    · rw [if_neg hn]
      have hcount := mt h.notRecv_iff.mpr hn
      exact ⟨Nat.eq_zero_of_not_pos hcount, Bool.eq_false_of_not_eq_true hn⟩
  refine ⟨?_, ?_, ?_⟩
  · rw [unanswered_received, if_pos hs]
    exact hzero.1
  · rw [hzero.1]
    exact Nat.zero_le 3
  · rw [hzero.1, hzero.2]
    exact iff_of_false Bool.false_ne_true (lt_irrefl 0)

/-- Anything else that is received changes nothing. -/
theorem Watched.receive_other (h : Watched parse acts d) (bytes : Bytes)
    (hs : ¬ SaysTrue parse bytes) : Watched parse (acts ++ [.received bytes]) d := by
  refine ⟨?_, h.count_le, h.notRecv_iff⟩
  rw [unanswered_received, if_neg hs]
  exact h.count_eq

/-! ## A turn -/

/-- The first half of a turn. -/
theorem Watched.sendDue {d₁ : Device} {acts₁ : List Act} (h : Watched parse acts d)
    (hdue : sendDue key d t = some (d₁, acts₁)) : Watched parse (acts ++ acts₁) d₁ := by
  rcases sendDue_cases hdue with
    ⟨-, rfl, rfl⟩ | ⟨-, hlost, kind, timer, text, hkind, rfl, rfl⟩
  · rw [List.append_nil]
    exact h
  · have hk : kind = .bind ∨ kind = .beat := hkind.imp And.left And.left
    have htimers : Watched parse acts { d with
        timestampSendBind := timer
        timestampSendBeat := timestampNow t.time + 6 } := h.congr ⟨rfl, rfl⟩
    exact htimers.send hlost hk _ _ _ _

/-- A parsed text: a status of true answers, and nothing else does. -/
theorem Watched.handleRoot (h : Watched parse acts d)
    (hp : ∀ {text : Bytes} {c : CJSON}, parse text = some c → CJSON.Built c) {bytes : Bytes}
    {pRoot : CJSON} (hparse : parse (cstr bytes) = some pRoot) :
    Watched parse (acts ++ .received bytes :: (handleRoot key d t pRoot).2)
      (handleRoot key d t pRoot).1 := by
  have htrue : SaysTrue parse bytes ↔ jsonGetValueBoolean pRoot (lit "status") = .found () := by
    rw [jsonGetValueBoolean_found_iff (hp hparse)]
    exact ⟨fun ⟨c, hc, he⟩ => Option.some.inj (hparse.symm.trans hc) ▸ he,
      fun he => ⟨pRoot, hparse, he⟩⟩
  unfold Device.handleRoot
  cases hstatus : jsonGetValueBoolean pRoot (lit "status") with
  | found u => exact h.answer (htrue.mpr hstatus)
  | fault =>
    have hno := h.receive_other bytes (by rw [htrue, hstatus]; exact fun h => by cases h)
    exact hno.congr ⟨rfl, rfl⟩
  | missing =>
    have hno := h.receive_other bytes (by rw [htrue, hstatus]; exact fun h => by cases h)
    dsimp only
    cases jsonGetValueString pRoot (lit "cmd") with
    | fault => exact hno.congr ⟨rfl, rfl⟩
    | missing => exact hno
    | found cmd =>
      dsimp only
      cases hc : command t pRoot cmd with
      | none => exact hno.congr ⟨rfl, rfl⟩
      | some r =>
        obtain ⟨acts', cmdStatus⟩ := r
        have haside : Aside parse (acts' ++ sendText t .response (responseText cmdStatus key)) :=
          List.forall_mem_append.mpr ⟨aside_command hc, aside_sendText (Or.inl rfl) _⟩
        have := hno.aside haside
        rwa [List.append_assoc] at this

/-- The second half of a turn. -/
theorem Watched.receive (h : Watched parse acts d)
    (hp : ∀ {text : Bytes} {c : CJSON}, parse text = some c → CJSON.Built c) :
    Watched parse (acts ++ (receive parse key d t).2) (receive parse key d t).1 := by
  unfold Device.receive
  cases t.recv with
  | data bytes =>
    dsimp only
    cases hparse : parse (cstr bytes) with
    | none =>
      refine h.receive_other bytes (fun ⟨c, hc, _⟩ => ?_)
      rw [hparse] at hc
      cases hc
    | some pRoot => exact h.handleRoot hp hparse
  | closed =>
    rw [List.append_nil]
    exact h.congr ⟨rfl, rfl⟩
  | failed =>
    rw [List.append_nil]
    exact h.congr ⟨rfl, rfl⟩
  | again =>
    show Watched parse (acts ++ (checkPin d t).2) (checkPin d t).1
    unfold checkPin
    split
    · split
      · exact (h.aside (aside_sendText (Or.inr rfl) warnText)).congr ⟨rfl, rfl⟩
      · rw [List.append_nil]
        exact h.congr ⟨rfl, rfl⟩
    · rw [List.append_nil]
      exact h.congr ⟨rfl, rfl⟩

/-- **A turn keeps the variables in agreement.** -/
theorem Watched.turn {acts' : List Act} (h : Watched parse acts d)
    (hp : ∀ {text : Bytes} {c : CJSON}, parse text = some c → CJSON.Built c)
    (hturn : turn parse key d t = some (d', acts')) : Watched parse (acts ++ acts') d' := by
  obtain ⟨-, ⟨-, rfl, rfl⟩ | ⟨d₁, acts₁, hdue, rfl, rfl⟩⟩ := turn_cases hturn
  · rw [List.append_nil]
    exact h.congr ⟨rfl, rfl⟩
  · rw [← List.append_assoc]
    exact (h.sendDue hdue).receive hp

theorem watched_start (ioWarnCount : ℕ) : Watched parse [] (start ioWarnCount) :=
  ⟨rfl, Nat.zero_le 3, iff_of_false Bool.false_ne_true (lt_irrefl 0)⟩

theorem handleRoot_ending (key : Bytes) (d : Device) (t : Turn) (pRoot : CJSON) :
    (Device.handleRoot key d t pRoot).1.ending = d.ending
      ∨ (Device.handleRoot key d t pRoot).1.ending = some .fault := by
  unfold Device.handleRoot
  split
  · exact Or.inr rfl
  · exact Or.inl (answered_ending d)
  split
  · exact Or.inr rfl
  · exact Or.inl rfl
  split
  · exact Or.inr rfl
  · exact Or.inl rfl

theorem checkPin_ending (d : Device) (t : Turn) : (checkPin d t).1.ending = d.ending := by
  unfold checkPin
  split
  · split <;> rfl
  · rfl

/-- Receiving does not find that there was no answer. -/
theorem receive_ending (hd : d.ending = none) :
    (Device.receive parse key d t).1.ending ≠ some .noResponse := by
  unfold Device.receive
  cases t.recv with
  | data bytes =>
    dsimp only
    cases parse (cstr bytes) with
    | none => simp [hd]
    | some pRoot =>
      rw [Option.elim_some]
      rcases handleRoot_ending key d t pRoot with h | h
      · simp [h, hd]
      · simp [h]
  | closed => simp
  | failed => simp
  | again => simp [checkPin_ending, hd]

/-- **A turn ends for want of an answer exactly when a message is due and
three are unanswered.** -/
theorem turn_noResponse_iff {acts' : List Act} (h : Watched parse acts d)
    (hturn : Device.turn parse key d t = some (d', acts')) :
    d'.ending = some .noResponse ↔ d.Due t ∧ unanswered parse acts = 3 := by
  rw [← h.lost_iff, ← sendDue_eq_none_iff key]
  obtain ⟨hgo, ⟨hnone, rfl, rfl⟩ | ⟨d₁, acts₁, hdue, rfl, rfl⟩⟩ := turn_cases hturn
  · exact iff_of_true rfl hnone
  · have hgo₁ : d₁.ending = none := by
      rcases sendDue_cases hdue with ⟨-, rfl, -⟩ | ⟨-, -, kind, timer, text, -, rfl, -⟩
      · exact hgo
      · unfold sent
        split <;> exact hgo
    rw [hdue]
    exact iff_of_false (receive_ending hgo₁) (fun h => by cases h)

/-- **The lost-response watchdog.** In every reachable state of the loop,
between turns and between the halves of a turn, the count is the number of
messages not answered, it is at most three, and the flag is set exactly when
it is positive; and the loop is left for want of an answer exactly when a
further message is due while three are not answered. -/
theorem watchdog
    (hp : ∀ {text : Bytes} {c : CJSON}, parse text = some c → CJSON.Built c)
    {turns : List Turn} {ioWarnCount : ℕ}
    (hrun : Runs.run (Device.turn parse key) (start ioWarnCount) turns = some (d, acts)) :
    Watched parse acts d
      ∧ (∀ t d₁ acts₁, Device.sendDue key d t = some (d₁, acts₁) →
        Watched parse (acts ++ acts₁) d₁)
      ∧ ∀ t d' acts', Device.turn parse key d t = some (d', acts') →
        (d'.ending = some .noResponse ↔ d.Due t ∧ unanswered parse acts = 3) := by
  have h : Watched parse acts d := Runs.run_invariant (fun d acts => Watched parse acts d)
    (fun _ => True) (fun h _ hturn => h.turn hp hturn) (watched_start ioWarnCount)
    (fun _ _ => trivial) hrun
  exact ⟨h, fun t d₁ acts₁ hdue => h.sendDue hdue,
    fun t d' acts' hturn => turn_noResponse_iff h hturn⟩

/-- Turns in which everything that is due is sent and nothing comes back. -/
def silentTurns : List Turn :=
  [turnAt 1000000 .again, turnAt 8000000 .again, turnAt 15000000 .again, turnAt 22000000 .again]

/-- Three messages without an answer, and a fourth that is due. -/
theorem watchdog_silent :
    ∃ d acts, Runs.run (Device.turn CJSON.parse []) (start 0) silentTurns = some (d, acts)
      ∧ Watched CJSON.parse acts d ∧ unanswered CJSON.parse acts = 3
      ∧ d.ending = some .noResponse := by
  obtain ⟨⟨d, acts⟩, hrun, hend⟩ := (Option.any_eq_true _ _).mp
    (show (Runs.run (Device.turn CJSON.parse []) (start 0) silentTurns).any
      (fun r => decide (unanswered CJSON.parse r.2 = 3 ∧ r.1.ending = some .noResponse)) = true
        by decide)
  exact ⟨d, acts, hrun, (watchdog CJSON.built_of_parse hrun).1, of_decide_eq_true hend⟩

end Device
