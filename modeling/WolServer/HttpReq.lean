import Mathlib

/-!
# The dials of `httpreq`

`newHttpDial` of `httpreq.go` dials until it gets a connection or an error
that is no timeout, or until `timeoutMax` has elapsed. Each dial is given the
time that remains, but half a second at least and three seconds at most – so
the last dial may run over the budget, by less than the half second.

The network is a list of answers: what each dial comes to, and how long it
takes. `HttpReq.newHttpDial` returns the dials that were started and what the
function returns, if it has returned by the end of the answers; the loop's own
steps take no time. `HttpReq.dial_budget` bounds all of it, for every sequence
of answers in time.

Durations are integers of nanoseconds. `HttpSetTimeout` multiplies in 64 bits:
from 9223372037 seconds on the product wraps, and `HttpReq.second_le_timeoutMax`
is about numbers below that.
-/

/-- An error of `net.DialTimeout`, by its type: what `Timeout` and `Temporary`
say of it, and its `Err`. -/
inductive DialError (ε : Type) where
  | url (timeout : Bool) (err : ε)
  | op (timeout temporary : Bool) (err : ε)
  | other (err : ε)

/-- **What a dial comes to**: a connection or an error, after some time. -/
structure DialAnswer (κ ε : Type) where
  result : Except (DialError ε) κ
  /-- The nanoseconds the dial takes. -/
  duration : ℕ

/-- **A dial**: the time that had elapsed when it was started, the timeout it
was given, and the answer. -/
structure Dial (κ ε : Type) where
  start : ℤ
  timeout : ℤ
  answer : DialAnswer κ ε

/-- What `newHttpDial` returns. -/
inductive DialReturn (κ ε : Type) where
  /-- A connection, and the deadline it was given. -/
  | conn (c : κ) (deadline : ℤ)
  /-- An error of a dial. -/
  | failed (err : ε)
  /-- `Request Timeout(cnt: …)`, with the time that has elapsed. -/
  | requestTimeout (cnt : ℕ) (elapse : ℤ)

namespace HttpReq

variable {κ ε : Type}

/-! ## Functions -/

/-- `time.Millisecond`. -/
def millisecond : ℤ := 1000000

/-- `time.Second`. -/
def second : ℤ := 1000 * millisecond

/-- `timeoutMax`, as it is initialised. -/
def defaultTimeoutMax : ℤ := 10 * second

/-- **`HttpSetTimeout`**: the new `timeoutMax`. -/
def httpSetTimeout (timeoutMax sec : ℤ) : ℤ :=
  if 1 ≤ sec then (sec * second).bmod (2 ^ 64) else timeoutMax

/-- The timeout of a dial. -/
def remain (timeoutMax elapse : ℤ) : ℤ :=
  let remain := timeoutMax - elapse
  if 500 * millisecond > remain then 500 * millisecond
  else if 3 * second < remain then 3 * second
  else remain

/-- The error that `newHttpDial` returns after an error of a dial, unless it
goes on. -/
def returned : DialError ε → Option ε
  | .url timeout err => if timeout = false then some err else none
  | .op timeout temporary err =>
    if timeout = false then some err
    else if temporary = false then some err
    else none
  | .other err => some err

/-- **The loop of `newHttpDial`**, from its `cnt` and the time that has
elapsed: the dials, and what is returned and when. -/
def newHttpDialLoop (timeoutMax : ℤ) :
    ℕ → ℤ → List (DialAnswer κ ε) → List (Dial κ ε) × Option (DialReturn κ ε × ℤ)
  | cnt, elapse, [] =>
    if timeoutMax > elapse then ([], none)
    else ([], some (.requestTimeout cnt elapse, elapse))
  | cnt, elapse, a :: answers =>
    if timeoutMax > elapse then
      let d : Dial κ ε := ⟨elapse, remain timeoutMax elapse, a⟩
      -- the time when the dial is over
      let now := elapse + a.duration
      match a.result with
      | .ok c => ([d], some (.conn c (now + timeoutMax), now))
      | .error e =>
        match returned e with
        | some err => ([d], some (.failed err, now))
        | none =>
          let r := newHttpDialLoop timeoutMax (cnt + 1) now answers
          (d :: r.1, r.2)
    else ([], some (.requestTimeout cnt elapse, elapse))

/-- **`newHttpDial`**. -/
def newHttpDial (timeoutMax : ℤ) (answers : List (DialAnswer κ ε)) :
    List (Dial κ ε) × Option (DialReturn κ ε × ℤ) := newHttpDialLoop timeoutMax 0 0 answers

/-! ## `timeoutMax` -/

/-- **`timeoutMax` is a second at least**, whatever it has been set to, if the
multiplication does not wrap. -/
theorem second_le_timeoutMax {secs : List ℤ} (h : ∀ sec ∈ secs, sec * second < 2 ^ 63) :
    second ≤ secs.foldl httpSetTimeout defaultTimeoutMax := by
  have hset : ∀ {timeoutMax sec : ℤ}, second ≤ timeoutMax → sec * second < 2 ^ 63 →
      second ≤ httpSetTimeout timeoutMax sec := by
    intro timeoutMax sec hmax hsec
    unfold httpSetTimeout
    split
    · unfold second millisecond at *
      rw [Int.bmod_eq_of_le (by omega) (by omega)]
      omega
    · exact hmax
  have hinit : second ≤ defaultTimeoutMax := by decide
  generalize defaultTimeoutMax = timeoutMax at hinit
  induction secs generalizing timeoutMax with
  | nil => exact hinit
  | cons sec secs ih =>
    rw [List.forall_mem_cons] at h
    exact ih h.2 _ (hset hinit h.1)

/-! ## The budget -/

/-- The error is a timeout. -/
def IsTimeout : DialError ε → Prop
  | .url timeout _ => timeout = true
  | .op timeout _ _ => timeout = true
  | .other _ => False

/-- The dial has come to a timeout. -/
def TimedOut (d : Dial κ ε) : Prop := ∃ e, d.answer.result = .error e ∧ IsTimeout e

/-- **The dials keep to the budget**, from a time on. -/
structure Budgeted (timeoutMax elapse : ℤ) (r : List (Dial κ ε) × Option (DialReturn κ ε × ℤ)) :
    Prop where
  /-- A dial gets between half a second and three seconds. -/
  timeout : ∀ d ∈ r.1, 500 * millisecond ≤ d.timeout ∧ d.timeout ≤ 3 * second
  /-- No dial is started when the time is over. -/
  start : ∀ d ∈ r.1, d.start < timeoutMax
  /-- The first dial is started at once. -/
  first : ∀ d ∈ r.1.head?, d.start = elapse
  /-- A further dial is started when the one before it has timed out. -/
  next : r.1.IsChain (fun d d' => TimedOut d ∧ d'.start = d.start + d.answer.duration)
  /-- The function returns in time, if it returns. -/
  returns : ∀ ret now, r.2 = some (ret, now) → now < timeoutMax + 500 * millisecond

theorem remain_le (timeoutMax elapse : ℤ) :
    500 * millisecond ≤ remain timeoutMax elapse ∧ remain timeoutMax elapse ≤ 3 * second := by
  unfold remain second millisecond
  dsimp only
  split_ifs <;> omega

/-- A dial that is started in time and ends in time is over before the half
second is. -/
theorem add_remain_lt {timeoutMax elapse : ℤ} (h : timeoutMax > elapse) :
    elapse + remain timeoutMax elapse < timeoutMax + 500 * millisecond := by
  unfold remain second millisecond
  dsimp only
  split_ifs <;> omega

/-- The loop goes on after a timeout only. -/
theorem isTimeout_of_returned {e : DialError ε} (h : returned e = none) : IsTimeout e := by
  cases e with
  | url timeout err =>
    cases timeout with
    | false => cases h
    | true => rfl
  | op timeout temporary err =>
    cases timeout with
    | false => cases h
    | true => rfl
  | other err => cases h

/-- Without a dial, only the time of the return matters. -/
theorem budgeted_nil {timeoutMax elapse : ℤ} {ret : Option (DialReturn κ ε × ℤ)}
    (hret : ∀ r now, ret = some (r, now) → now < timeoutMax + 500 * millisecond) :
    Budgeted timeoutMax elapse ([], ret) where
  timeout := List.forall_mem_nil _
  start := List.forall_mem_nil _
  first _ := nofun
  next := .nil
  returns := hret

/-- A dial that is the last one keeps to the budget. -/
theorem budgeted_last {timeoutMax elapse : ℤ} (h : timeoutMax > elapse) {a : DialAnswer κ ε}
    (hin : (a.duration : ℤ) ≤ remain timeoutMax elapse) (ret : DialReturn κ ε) :
    Budgeted timeoutMax elapse
      ([⟨elapse, remain timeoutMax elapse, a⟩], some (ret, elapse + a.duration)) where
  timeout := List.forall_mem_singleton.mpr (remain_le timeoutMax elapse)
  start := List.forall_mem_singleton.mpr h
  first := by
    rintro d ⟨⟩
    rfl
  next := .singleton _
  returns := by
    rintro ret now ⟨⟩
    have := add_remain_lt h
    omega

/-- A dial that times out, and what comes after it. -/
theorem Budgeted.cons {timeoutMax elapse : ℤ} (h : timeoutMax > elapse) {a : DialAnswer κ ε}
    {e : DialError ε} (ha : a.result = .error e) (he : returned e = none)
    {r : List (Dial κ ε) × Option (DialReturn κ ε × ℤ)}
    (hr : Budgeted timeoutMax (elapse + a.duration) r) :
    Budgeted timeoutMax elapse (⟨elapse, remain timeoutMax elapse, a⟩ :: r.1, r.2) where
  timeout := List.forall_mem_cons.mpr ⟨remain_le timeoutMax elapse, hr.timeout⟩
  start := List.forall_mem_cons.mpr ⟨h, hr.start⟩
  first := by
    rintro d ⟨⟩
    rfl
  next := List.isChain_cons.mpr ⟨fun d hd =>
    ⟨⟨e, ha, isTimeout_of_returned he⟩, hr.first d hd⟩, hr.next⟩
  returns := hr.returns

/-- **The loop keeps to the budget**, by induction on the answers. It is
entered before the half second after `timeoutMax` is over, and if the dials
answer in time, so is every turn of it. -/
theorem newHttpDialLoop_budgeted {timeoutMax elapse : ℤ} {cnt : ℕ}
    {answers : List (DialAnswer κ ε)} (helapse : elapse < timeoutMax + 500 * millisecond)
    (hin : ∀ d ∈ (newHttpDialLoop timeoutMax cnt elapse answers).1,
      (d.answer.duration : ℤ) ≤ d.timeout) :
    Budgeted timeoutMax elapse (newHttpDialLoop timeoutMax cnt elapse answers) := by
  induction answers generalizing cnt elapse with
  | nil =>
    rw [newHttpDialLoop]
    split
    · exact budgeted_nil (fun _ _ => nofun)
    · refine budgeted_nil ?_
      rintro _ _ ⟨⟩
      exact helapse
  | cons a answers ih =>
    rw [newHttpDialLoop] at hin ⊢
    by_cases h : timeoutMax > elapse
    · rw [if_pos h] at hin ⊢
      dsimp only at hin ⊢
      split
      · rename_i c hc
        rw [hc] at hin
        exact budgeted_last h (hin _ (List.mem_singleton_self _)) _
      · rename_i e he
        rw [he] at hin
        dsimp only at hin
        split
        · rename_i err hret
          rw [hret] at hin
          exact budgeted_last h (hin _ (List.mem_singleton_self _)) _
        · rename_i hret
          rw [hret] at hin
          obtain ⟨hdial, hrest⟩ := List.forall_mem_cons.mp hin
          have hnow := add_remain_lt h
          exact (ih (by dsimp only at hdial; omega) hrest).cons h he hret
    · rw [if_neg h]
      refine budgeted_nil ?_
      rintro _ _ ⟨⟩
      exact helapse

/-- **The budget of the dials.** If no dial takes longer than the timeout it is
given, every dial that is started gets between half a second and three seconds
and is started before `timeoutMax` has elapsed, a further dial is started only
after a timeout, and the function returns before `timeoutMax` and half a second
have elapsed, whenever it returns. -/
theorem dial_budget {timeoutMax : ℤ} (hmax : second ≤ timeoutMax)
    {answers : List (DialAnswer κ ε)}
    (hin : ∀ d ∈ (newHttpDial timeoutMax answers).1, (d.answer.duration : ℤ) ≤ d.timeout) :
    Budgeted timeoutMax 0 (newHttpDial timeoutMax answers) := by
  refine newHttpDialLoop_budgeted ?_ hin
  unfold second millisecond at *
  omega

/-- Two dials that time out: the second one is started with 400 milliseconds
to go. -/
def slow : List (DialAnswer Unit Unit) :=
  [⟨.error (.op true true ()), 600000000⟩, ⟨.error (.op true true ()), 500000000⟩]

/-- A budget of a second, and a return after 1100 milliseconds. -/
theorem dial_budget_slow :
    (newHttpDial second slow).2 = some (.requestTimeout 2 (1100 * millisecond), 1100 * millisecond)
      ∧ 1100 * millisecond < second + 500 * millisecond :=
  ⟨rfl, (@dial_budget Unit Unit second le_rfl slow (by decide)).returns _ _ rfl⟩

end HttpReq
