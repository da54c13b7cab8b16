import WolServer.CString
import WolServer.Runs

/-!
# The notice service

The loop in `main.go` that turns warnings into notifications: it reads a
datagram, and if it is a `send_notice` for a key and the last notification for
that key was more than a minute ago, it asks a server on the internet to
notify the owner. The time of the last one is kept in a map. It is written
before the request is made, and what the request returns is dropped – so a
notification that failed silences its key for a minute, too.

What “no alarm is lost” comes to is `Notice.no_alarm_lost_iff`: a
datagram is passed over with good reason exactly if every request for its key
in the minute before it succeeded.

`json.Unmarshal` is a parameter. Times are nanoseconds since the zero time of
Go, and never that time itself. Of the request only the result is modelled,
not its address, which is the same for all keys but for the time in it.
-/

/-- What comes of `Get` and of reading the body of its response. -/
inductive Response where
  /-- `Get` returns an error. -/
  | failed
  /-- The body cannot be read. -/
  | unread
  /-- The body. -/
  | body (data : Bytes)

/-- The fields of a datagram. -/
structure Command where
  (cmd key : Bytes)

/-- **What the outside world answers** in a round of the loop. -/
structure Arrival where
  /-- What `Read` returns, unless it is an error. -/
  datagram : Option Bytes
  /-- `time.Now()`. -/
  time : ℕ
  /-- What comes of the request, if one is made. -/
  response : Response
  /-- It is later than the zero time. -/
  time_pos : 0 < time

/-- **A request for a notification**: the key, the time, and whether it
succeeded. -/
structure Notification where
  (key : Bytes) (time : ℕ) (delivered : Bool)
deriving DecidableEq

/-- **The variables of the loop.** -/
structure Notice where
  /-- `timemap`. A key that is not in the map has the zero time. -/
  timemap : Bytes → ℕ
  /-- Whether the loop goes on. -/
  running : Bool

namespace Notice

/-! ## The loop -/

/-- `time.Minute`. -/
def minute : ℕ := 60000000000

/-- `HttpRequestGet`, whose address is not empty. -/
def httpRequestGet : Response → Option Bytes
  | .failed => none
  | .unread => none
  | .body data => some data

/-- The key of a datagram, if it is a `send_notice`. The buffer has 1024
bytes. -/
def noticeKey (unmarshal : Bytes → Option Command) (datagram : Bytes) : Option Bytes :=
  match unmarshal (datagram.take 1024) with
  | none => none
  | some cmd => if cmd.cmd = lit "send_notice" then some cmd.key else none

/-- **A round of the loop.** A read that fails ends the program. -/
def round (unmarshal : Bytes → Option Command) (s : Notice) (a : Arrival) :
    Option (Notice × List Notification) :=
  if s.running = true then
    match a.datagram with
    | none => some ({ s with running := false }, [])
    | some datagram =>
      match noticeKey unmarshal datagram with
      | none => some (s, [])
      | some key =>
        let last := s.timemap key
        if last = 0 ∨ last + minute < a.time then
          some ({ s with timemap := Function.update s.timemap key a.time },
            [⟨key, a.time, (httpRequestGet a.response).isSome⟩])
        else some (s, [])
  else none

/-- The loop when it starts. -/
def start : Notice := ⟨fun _ => 0, true⟩

/-! ## What the map knows -/

variable {unmarshal : Bytes → Option Command} {s s' : Notice} {a : Arrival}
  {tr es : List Notification}

/-- **The map holds the time of the last request for a key**, and every other
request for it was more than a minute before that one. -/
def Records (s : Notice) (tr : List Notification) : Prop :=
  ∀ key, (s.timemap key = 0 ∧ ∀ n ∈ tr, n.key ≠ key)
    ∨ ∃ last ∈ tr, last.key = key ∧ last.time = s.timemap key ∧ 0 < last.time
      ∧ ∀ n ∈ tr, n.key = key → n = last ∨ n.time + minute < last.time

/-- What a round does: nothing to the map and no request, or a request for a
key that is due, and the map holds its time. -/
theorem round_cases (h : round unmarshal s a = some (s', es)) :
    (s'.timemap = s.timemap ∧ es = [])
      ∨ ∃ key delivered, (s.timemap key = 0 ∨ s.timemap key + minute < a.time)
        ∧ s'.timemap = Function.update s.timemap key a.time
        ∧ es = [⟨key, a.time, delivered⟩] := by
  unfold round at h
  split_ifs at h
  split at h
  · obtain ⟨rfl, rfl⟩ := Prod.mk.inj (Option.some.inj h)
    exact Or.inl ⟨rfl, rfl⟩
  split at h
  · obtain ⟨rfl, rfl⟩ := Prod.mk.inj (Option.some.inj h)
    exact Or.inl ⟨rfl, rfl⟩
  dsimp only at h
  split_ifs at h with hdue
  · obtain ⟨rfl, rfl⟩ := Prod.mk.inj (Option.some.inj h)
    exact Or.inr ⟨_, _, hdue, rfl, rfl⟩
  · obtain ⟨rfl, rfl⟩ := Prod.mk.inj (Option.some.inj h)
    exact Or.inl ⟨rfl, rfl⟩

/-- **A round keeps what the map knows.** -/
theorem Records.round (hrec : Records s tr) (h : round unmarshal s a = some (s', es)) :
    Records s' (tr ++ es) := by
  rcases round_cases h with ⟨hmap, rfl⟩ | ⟨key, delivered, hdue, hmap, rfl⟩
  · rw [List.append_nil]
    unfold Records
    rw [hmap]
    exact hrec
  intro k
  rw [hmap]
  by_cases hk : k = key
  · -- the new request is the last one, and the others are more than a minute ago
    subst hk
    rw [Function.update_self]
    refine Or.inr ⟨_, List.mem_append_right tr (List.mem_singleton_self _), rfl, rfl, a.time_pos,
      fun n hn hnk => ?_⟩
    rcases List.mem_append.mp hn with hn | hn
    · refine Or.inr (show n.time + minute < a.time from ?_)
      rcases hrec k with ⟨-, hnone⟩ | ⟨last, -, -, hlast, hpos, hall⟩
      · exact absurd hnk (hnone n hn)
      · rw [← hlast] at hdue
        have hlate : last.time + minute < a.time := hdue.resolve_left hpos.ne'
        rcases hall n hn hnk with rfl | hn
        · exact hlate
        · omega
    · exact Or.inl (List.mem_singleton.mp hn)
  · rw [Function.update_of_ne hk]
    have hother : ∀ n ∈ [(⟨key, a.time, delivered⟩ : Notification)], n.key ≠ k := by
      intro n hn
      rw [List.mem_singleton.mp hn]
      exact Ne.symm hk
    rcases hrec k with ⟨hzero, hnone⟩ | ⟨last, hmem, hkey, hlast, hpos, hall⟩
    · exact Or.inl ⟨hzero, List.forall_mem_append.mpr ⟨hnone, hother⟩⟩
    · refine Or.inr ⟨last, List.mem_append_left _ hmem, hkey, hlast, hpos, fun n hn hnk => ?_⟩
      rcases List.mem_append.mp hn with hn | hn
      · exact hall n hn hnk
      · exact absurd hnk (hother n hn)

/-- **The map knows the requests of a run.** -/
theorem records_run {arrivals : List Arrival}
    (hrun : Runs.run (Notice.round unmarshal) start arrivals = some (s, tr)) : Records s tr := by
  have hstart : Records start [] := fun key => Or.inl ⟨rfl, List.forall_mem_nil _⟩
  exact Runs.run_invariant Records (fun _ => True) (fun hrec _ h => hrec.round h) hstart
    (fun _ _ => trivial) hrun

/-- The requests of a run are made when datagrams arrive. -/
theorem time_le_of_run {arrivals : List Arrival} {t : ℕ} (ht : ∀ a ∈ arrivals, a.time ≤ t)
    (hrun : Runs.run (Notice.round unmarshal) start arrivals = some (s, tr)) :
    ∀ n ∈ tr, n.time ≤ t := by
  have hstep : ∀ {s : Notice} {a : Arrival} {s' : Notice} {es tr : List Notification},
      (∀ n ∈ tr, n.time ≤ t) → a.time ≤ t → round unmarshal s a = some (s', es) →
      ∀ n ∈ tr ++ es, n.time ≤ t := by
    intro s a s' es tr htr ha h
    refine List.forall_mem_append.mpr ⟨htr, ?_⟩
    rcases round_cases h with ⟨-, rfl⟩ | ⟨key, delivered, -, -, rfl⟩
    · exact List.forall_mem_nil _
    · exact List.forall_mem_singleton.mpr ha
  exact Runs.run_invariant (fun _ tr => ∀ n ∈ tr, n.time ≤ t) (fun a => a.time ≤ t) hstep
    (List.forall_mem_nil _) ht hrun

/-! ## Which datagrams are passed over -/

/-- The datagrams arrive in order. -/
def Ordered (arrivals : List Arrival) : Prop := (arrivals.map Arrival.time).Pairwise (· ≤ ·)

instance (arrivals : List Arrival) : Decidable (Ordered arrivals) :=
  inferInstanceAs (Decidable (List.Pairwise _ _))

/-- **A datagram for a key is read** in a run: the requests before it, and what
the round requests. -/
structure Reads (unmarshal : Bytes → Option Command) (arrivals : List Arrival) (a : Arrival)
    (key : Bytes) (tr es : List Notification) : Prop where
  /-- The datagram asks for a notice for the key. -/
  asks : ∃ datagram, a.datagram = some datagram ∧ noticeKey unmarshal datagram = some key
  /-- The run gets to it. -/
  happens : ∃ before after s s', arrivals = before ++ a :: after
    ∧ Runs.run (Notice.round unmarshal) start before = some (s, tr)
    ∧ round unmarshal s a = some (s', es)

variable {arrivals : List Arrival} {key : Bytes}

/-- What a datagram for a key requests goes by the map. -/
theorem round_eq_nil_iff (hasks : ∃ datagram, a.datagram = some datagram
    ∧ noticeKey unmarshal datagram = some key) (h : round unmarshal s a = some (s', es)) :
    es = [] ↔ s.timemap key ≠ 0 ∧ a.time ≤ s.timemap key + minute := by
  obtain ⟨datagram, hdata, hkey⟩ := hasks
  unfold round at h
  rw [hdata] at h
  dsimp only at h
  rw [hkey] at h
  dsimp only at h
  split_ifs at h with hrunning hdue
  · obtain ⟨-, rfl⟩ := Prod.mk.inj (Option.some.inj h)
    refine ⟨fun hnil => (by cases hnil), fun ⟨hne, hle⟩ => ?_⟩
    exact absurd (hdue.resolve_left hne) (Nat.not_lt.mpr hle)
  · obtain ⟨-, rfl⟩ := Prod.mk.inj (Option.some.inj h)
    obtain ⟨hne, hle⟩ := not_or.mp hdue
    exact ⟨fun _ => ⟨hne, Nat.not_lt.mp hle⟩, fun _ => rfl⟩

/-- **A datagram is passed over exactly when there was a request for its key in
the minute before it.** -/
theorem Reads.passed_iff (h : Reads unmarshal arrivals a key tr es) :
    (es = [] ↔ ∃ n ∈ tr, n.key = key ∧ a.time ≤ n.time + minute) := by
  obtain ⟨before, after, s, s', -, hbefore, hround⟩ := h.happens
  rw [round_eq_nil_iff h.asks hround]
  rcases records_run hbefore key with ⟨hzero, hnone⟩ | ⟨last, hmem, hkey, hlast, hpos, hall⟩
  · refine ⟨fun hmap => absurd hzero hmap.1, ?_⟩
    rintro ⟨n, hn, hnk, -⟩
    exact absurd hnk (hnone n hn)
  · rw [← hlast]
    refine ⟨fun hmap => ⟨last, hmem, hkey, hmap.2⟩, ?_⟩
    rintro ⟨n, hn, hnk, hle⟩
    rcases hall n hn hnk with rfl | hearly
    · exact ⟨hpos.ne', hle⟩
    · exact ⟨hpos.ne', by omega⟩

/-- The requests before a datagram are not later than it. -/
theorem Reads.time_le (hord : Ordered arrivals) (h : Reads unmarshal arrivals a key tr es) :
    ∀ n ∈ tr, n.time ≤ a.time := by
  obtain ⟨before, after, s, s', rfl, hbefore, -⟩ := h.happens
  rw [Ordered, List.map_append, List.pairwise_append] at hord
  refine time_le_of_run (fun b hb => ?_) hbefore
  exact hord.2.2 b.time (List.mem_map_of_mem hb) a.time List.mem_cons_self

/-- In the minute before a datagram there is one request for its key at
most. -/
theorem Reads.unique (hord : Ordered arrivals) (h : Reads unmarshal arrivals a key tr es)
    {n n' : Notification} (hn : n ∈ tr) (hk : n.key = key) (ht : a.time ≤ n.time + minute)
    (hn' : n' ∈ tr) (hk' : n'.key = key) (ht' : a.time ≤ n'.time + minute) : n = n' := by
  have hle := h.time_le hord
  obtain ⟨before, after, s, s', -, hbefore, -⟩ := h.happens
  rcases records_run hbefore key with ⟨-, hnone⟩ | ⟨last, hmem, -, -, -, hall⟩
  · exact absurd hk (hnone n hn)
  have hlast : ∀ n ∈ tr, n.key = key → a.time ≤ n.time + minute → n = last := by
    intro n hn hk ht
    refine (hall n hn hk).resolve_right (fun hearly => ?_)
    have := hle last hmem
    omega
  exact (hlast n hn hk ht).trans (hlast n' hn' hk' ht').symm

/-- **No alarm is lost, if and only if every request for a key is delivered
that another datagram for the key follows within a minute.** -/
theorem no_alarm_lost_iff (unmarshal : Bytes → Option Command) (hord : Ordered arrivals) :
    (∀ a key tr es, Reads unmarshal arrivals a key tr es → es = [] →
        ∃ n ∈ tr, n.key = key ∧ n.delivered = true ∧ n.time ≤ a.time
          ∧ a.time ≤ n.time + minute)
      ↔ ∀ a key tr es, Reads unmarshal arrivals a key tr es →
        ∀ n ∈ tr, n.key = key → a.time ≤ n.time + minute → n.delivered = true := by
  constructor
  · intro hlaw a key tr es h n hn hk ht
    obtain ⟨n', hn', hk', hdel, -, ht'⟩ := hlaw a key tr es h (h.passed_iff.mpr ⟨n, hn, hk, ht⟩)
    rw [h.unique hord hn hk ht hn' hk' ht']
    exact hdel
  · intro hdelivered a key tr es h hnil
    obtain ⟨n, hn, hk, ht⟩ := h.passed_iff.mp hnil
    exact ⟨n, hn, hk, hdelivered a key tr es h n hn hk ht, h.time_le hord n hn, ht⟩

/-- The datagram that the server sends for the key `a`. -/
def noticeText : Bytes := lit "\x7b\"cmd\":\"send_notice\",\"key\":\"a\"\x7d"

/-- What `json.Unmarshal` makes of it. -/
def unmarshalNotice (bytes : Bytes) : Option Command :=
  if bytes = noticeText then some ⟨lit "send_notice", lit "a"⟩ else none

/-- A datagram for the key `a`. -/
def arrivalAt (time : ℕ) (response : Response) (h : 0 < time) : Arrival :=
  ⟨some noticeText, time, response, h⟩

/-- Two datagrams for it, and a request that succeeds. -/
def pair : List Arrival :=
  [arrivalAt 1 (.body []) (by decide), arrivalAt 2 (.body []) (by decide)]

theorem no_alarm_lost_iff_pair :
    Reads unmarshalNotice pair (arrivalAt 2 (.body []) (by decide)) (lit "a")
        [⟨lit "a", 1, true⟩] []
      ∧ ∃ n ∈ [(⟨lit "a", 1, true⟩ : Notification)], n.key = lit "a" ∧ n.delivered = true
        ∧ n.time ≤ 2 ∧ 2 ≤ n.time + minute := by
  have hreads : Reads unmarshalNotice pair (arrivalAt 2 (.body []) (by decide)) (lit "a")
      [⟨lit "a", 1, true⟩] [] := ⟨⟨noticeText, rfl, rfl⟩, [_], [], _, _, rfl, rfl, rfl⟩
  refine ⟨hreads, (no_alarm_lost_iff unmarshalNotice (show Ordered pair by decide)).mpr ?_
    _ _ _ _ hreads rfl⟩
  intro a key tr es h n hn _ _
  obtain ⟨before, after, s, s', heq, hrun, -⟩ := h.happens
  match before, heq, hrun with
  | [], _, hrun =>
    cases hrun
    cases hn
  | [_], heq, hrun =>
    obtain ⟨rfl, -⟩ := List.cons.inj heq
    cases hrun
    rw [List.mem_singleton.mp hn]
    rfl
  | _ :: _ :: _, heq, _ => exact absurd (congrArg List.length heq) (by simp [pair])

/-- A request that failed silences its key. -/
theorem alarm_lost :
    ¬ ∀ (unmarshal : Bytes → Option Command) (arrivals : List Arrival), Ordered arrivals →
      ∀ a key tr es, Reads unmarshal arrivals a key tr es → es = [] →
        ∃ n ∈ tr, n.key = key ∧ n.delivered = true ∧ n.time ≤ a.time
          ∧ a.time ≤ n.time + minute := by
  intro hall
  have hreads : Reads unmarshalNotice
      [arrivalAt 1 .failed (by decide), arrivalAt 2 .failed (by decide)]
      (arrivalAt 2 .failed (by decide)) (lit "a") [⟨lit "a", 1, false⟩] [] :=
    ⟨⟨noticeText, rfl, rfl⟩, [_], [], _, _, rfl, rfl, rfl⟩
  obtain ⟨n, hn, -, hdel, -, -⟩ := hall _ _ (by decide) _ _ _ _ hreads rfl
  rw [List.mem_singleton.mp hn] at hdel
  cases hdel

end Notice
