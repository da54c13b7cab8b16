import WolServer.LibEpoll

/-!
# The counter of `Lib_Epoll`

`m_nums` counts the registered descriptors, and `loop()` goes on while it is
positive. `quit()` ends the loop by setting it to zero – and leaves the
descriptors registered. From then on the counter and what it counts are two
things: a later `del` of a descriptor that was registered before the `quit()`
still counts down, from zero, and an unsigned number has no number below
zero. It becomes `2 ^ 32 - 1`, and the loop goes on.

The state that matters is a balance, the additions less the deletions since
the last `quit()` (`LibEpoll.balance`). The counter is that number modulo
`2 ^ 32` in every run, and `LibEpoll.counter_iff` says which runs are sound:
those in which the balance never falls below zero.

Between the calls the process may open and close any descriptors that are not
registered.
-/

namespace LibEpoll

/-- **A call of the object**, or of the system between two calls. An `int` is
an `Int32`. -/
inductive Call where
  /-- `add(fd, is_listen)`; `ok` says whether `fcntl` can set the descriptor
  to non-blocking. -/
  | add (fd : Int32) (isListen ok : Bool)
  /-- `del(fd, is_close)`. -/
  | del (fd : Int32) (isClose : Bool)
  /-- `quit()`. -/
  | quit
  /-- The descriptors that are open are these, and the registered ones. -/
  | world (fds : Finset ℕ)

/-- What a call leaves behind. -/
def call (e : LibEpoll) : Call → LibEpoll
  | .add fd isListen ok => (e.add fd.toInt isListen ok).2
  | .del fd isClose => (e.del fd.toInt isClose).2
  | .quit => e.quit
  | .world fds => { e with kernel := { e.kernel with opened := fds ∪ e.kernel.registered } }

/-- The call is an `add` that succeeds. -/
def Adds (e : LibEpoll) (c : Call) : Prop :=
  ∃ fd isListen ok, c = .add fd isListen ok ∧ (e.add fd.toInt isListen ok).1 = true

/-- The call is a `del` that succeeds. -/
def Deletes (e : LibEpoll) (c : Call) : Prop :=
  ∃ fd isClose, c = .del fd isClose ∧ (e.del fd.toInt isClose).1 = true

/-- One more call in the balance. -/
def tally (e : LibEpoll) (n : ℤ) : Call → ℤ
  | .add fd isListen ok => if (e.add fd.toInt isListen ok).1 = true then n + 1 else n
  | .del fd isClose => if (e.del fd.toInt isClose).1 = true then n - 1 else n
  | .quit => 0
  | .world _ => n

/-- The object after a sequence of calls. -/
def after (e : LibEpoll) (calls : List Call) : LibEpoll := calls.foldl call e

/-- **The balance**: the additions less the deletions since the last
`quit()`. -/
def balance (e : LibEpoll) (calls : List Call) : ℤ :=
  (calls.foldl (fun p c => (call p.1 c, tally p.1 p.2 c)) (e, 0)).2

/-- **The counter is sound in a run**: no deletion takes it below zero, and
after a `quit()` the loop is over until an addition succeeds. -/
structure Sound (e : LibEpoll) (calls : List Call) : Prop where
  /-- A deletion that succeeds finds the counter positive. -/
  positive : ∀ before c rest, calls = before ++ c :: rest → Deletes (e.after before) c →
    0 < (e.after before).mNums
  /-- `quit()` ends the loop. -/
  ended : ∀ before between rest, calls = before ++ .quit :: (between ++ rest) →
    (∀ b₁ c b₂, between = b₁ ++ c :: b₂ → ¬ Adds (e.after (before ++ .quit :: b₁)) c) →
    (e.after (before ++ .quit :: between)).loop = false

/-! ## One call -/

variable {e : LibEpoll} {c : Call} {n : ℤ}

theorem toNat_lt_of_int (fd : Int32) : fd.toInt.toNat < 2 ^ 31 := by
  have := fd.toInt_lt
  omega

/-- What an addition does: nothing, or it registers a descriptor and counts
it. -/
theorem add_cases (e : LibEpoll) (fd : ℤ) (isListen ok : Bool) :
    e.add fd isListen ok = (false, e)
      ∨ ∃ e', e.add fd isListen ok = (true, e') ∧ fd.toNat ∉ e.kernel.registered
        ∧ e'.kernel.registered = insert fd.toNat e.kernel.registered
        ∧ e'.mNums = e.mNums + 1 := by
  unfold add ctlAdd
  split
  · exact Or.inl (if_neg (fun h => Bool.false_ne_true h.1))
  split
  · rename_i h
    refine Or.inr ?_
    dsimp only
    split
    · exact ⟨_, rfl, h.2.2, rfl, rfl⟩
    · exact ⟨_, rfl, h.2.2, rfl, rfl⟩
  · exact Or.inl (if_neg (fun h => Bool.false_ne_true h.1))

/-- What a deletion does: nothing, or it ends a registration and counts it
down. -/
theorem del_cases (e : LibEpoll) (fd : ℤ) (isClose : Bool) :
    e.del fd isClose = (false, e)
      ∨ ∃ e', e.del fd isClose = (true, e') ∧ fd.toNat ∈ e.kernel.registered
        ∧ e'.kernel.registered = e.kernel.registered.erase fd.toNat
        ∧ e'.mNums = e.mNums - 1 := by
  unfold del ctlDel
  split
  · exact Or.inl (if_neg Bool.false_ne_true)
  split
  · rename_i h
    refine Or.inr ?_
    dsimp only
    rw [if_pos rfl]
    refine ⟨_, rfl, h, ?_, ?_⟩
    · split
      · split <;> exact Finset.erase_idem
      · split <;> rfl
    · split
      · split <;> rfl
      · split <;> rfl
  · exact Or.inl (if_neg Bool.false_ne_true)

/-- **The counter shows the balance**, modulo `2 ^ 32`, and the balance is at
most the number of registered descriptors. -/
structure Counts (e : LibEpoll) (n : ℤ) : Prop where
  /-- The counter is the balance, modulo `2 ^ 32`. -/
  nums : (e.mNums.toNat : ℤ) = n % 2 ^ 32
  /-- No more is added than is registered. -/
  le_card : n ≤ e.kernel.registered.card
  /-- Descriptors are positive numbers of an `int`. -/
  range : e.kernel.registered ⊆ Finset.range (2 ^ 31)

theorem Counts.le (h : Counts e n) : n ≤ 2 ^ 31 := by
  have := Finset.card_le_card h.range
  rw [Finset.card_range] at this
  have := h.le_card
  omega

/-- **A call keeps the counter on the balance.** -/
theorem Counts.call (h : Counts e n) (c : Call) : Counts (e.call c) (tally e n c) := by
  have hnums := h.nums
  have hcard := h.le_card
  cases c with
  | add fd isListen ok =>
    unfold LibEpoll.call tally
    dsimp only
    rcases add_cases e fd.toInt isListen ok with hadd | ⟨e', hadd, hnew, hreg, hmn⟩
    · rw [hadd, if_neg Bool.false_ne_true]
      exact h
    · rw [hadd, if_pos rfl]
      refine ⟨?_, ?_, ?_⟩
      · rw [hmn, UInt32.toNat_add, UInt32.toNat_one]
        omega
      · rw [hreg, Finset.card_insert_of_notMem hnew]
        omega
      · rw [hreg]
        exact Finset.insert_subset (Finset.mem_range.mpr (toNat_lt_of_int fd)) h.range
  | del fd isClose =>
    unfold LibEpoll.call tally
    dsimp only
    rcases del_cases e fd.toInt isClose with hdel | ⟨e', hdel, hold, hreg, hmn⟩
    · rw [hdel, if_neg Bool.false_ne_true]
      exact h
    · rw [hdel, if_pos rfl]
      have hpos := Finset.card_pos.mpr ⟨_, hold⟩
      have hlt := e.mNums.toNat_lt
      refine ⟨?_, ?_, ?_⟩
      · rw [hmn, UInt32.toNat_sub, UInt32.toNat_one]
        omega
      · rw [hreg, Finset.card_erase_of_mem hold]
        omega
      · rw [hreg]
        exact (Finset.erase_subset _ _).trans h.range
  | quit => exact ⟨rfl, Int.natCast_nonneg _, h.range⟩
  | world fds => exact ⟨hnums, hcard, h.range⟩

/-! ## A run -/

theorem foldl_call_fst (e : LibEpoll) (n : ℤ) (calls : List Call) :
    (calls.foldl (fun p c => (LibEpoll.call p.1 c, tally p.1 p.2 c)) (e, n)).1 = e.after calls := by
  induction calls generalizing e n with
  | nil => rfl
  | cons c calls ih => exact ih (e.call c) (tally e n c)

theorem after_concat (e : LibEpoll) (calls : List Call) (c : Call) :
    e.after (calls ++ [c]) = (e.after calls).call c := by
  rw [after, List.foldl_append]
  rfl

theorem balance_concat (e : LibEpoll) (calls : List Call) (c : Call) :
    e.balance (calls ++ [c]) = tally (e.after calls) (e.balance calls) c := by
  rw [balance, List.foldl_append, ← foldl_call_fst e 0 calls]
  rfl

/-- **In every run the counter shows the balance.** -/
theorem counts_after (h : Counts e 0) (calls : List Call) :
    Counts (e.after calls) (e.balance calls) := by
  induction calls using List.reverseRecOn with
  | nil => exact h
  | append_singleton calls c ih =>
    rw [after_concat, balance_concat]
    exact ih.call c

/-- Without an addition the balance does not rise. -/
theorem tally_le (h : ¬ Adds e c) : tally e n c ≤ n ∨ c = .quit := by
  cases c with
  | add fd isListen ok =>
    refine Or.inl ?_
    unfold tally
    dsimp only
    rw [if_neg (fun htrue => h ⟨fd, isListen, ok, rfl, htrue⟩)]
  | del fd isClose =>
    refine Or.inl ?_
    unfold tally
    dsimp only
    split <;> omega
  | quit => exact Or.inr rfl
  | world fds => exact Or.inl le_rfl

/-- From a `quit()` on, without an addition, the balance is not positive. -/
theorem balance_nonpos (before between : List Call)
    (hno : ∀ b₁ c b₂, between = b₁ ++ c :: b₂ → ¬ Adds (e.after (before ++ .quit :: b₁)) c) :
    e.balance (before ++ .quit :: between) ≤ 0 := by
  induction between using List.reverseRecOn with
  | nil =>
    rw [balance_concat]
    exact le_rfl
  | append_singleton between c ih =>
    have hprev := ih (fun b₁ c' b₂ h => hno b₁ c' (b₂ ++ [c]) (by rw [h]; simp))
    have hlast := hno between c [] rfl
    rw [← List.cons_append, ← List.append_assoc, balance_concat]
    rcases tally_le (n := e.balance (before ++ .quit :: between)) hlast with h | rfl
    · exact h.trans hprev
    · exact le_rfl

/-- **While the counter is sound, the balance does not fall below zero**, by
induction on the calls from the last one. -/
theorem Sound.balance_nonneg (h : Counts e 0) {calls : List Call} (hsound : Sound e calls)
    (before : List Call) : ∀ rest, calls = before ++ rest → 0 ≤ e.balance before := by
  induction before using List.reverseRecOn with
  | nil => exact fun _ _ => le_rfl
  | append_singleton before c ih =>
    intro rest heq
    rw [List.append_assoc] at heq
    have hprev := ih _ heq
    have hcounts := (counts_after h before).nums
    rw [balance_concat]
    cases c with
    | add fd isListen ok =>
      unfold tally
      dsimp only
      split <;> omega
    | del fd isClose =>
      unfold tally
      dsimp only
      split
      · rename_i hdel
        -- a deletion found the counter positive, so the balance was
        have hpos := hsound.positive before _ rest heq ⟨fd, isClose, rfl, hdel⟩
        rw [UInt32.lt_iff_toNat_lt] at hpos
        have hne : e.balance before ≠ 0 := by
          intro hzero
          rw [hzero] at hcounts
          change 0 < (e.after before).mNums.toNat at hpos
          omega
        omega
      · exact hprev
    | quit => exact le_rfl
    | world fds => exact hprev

/-- **While the balance does not fall below zero, the counter is sound.** -/
theorem sound_of_balance (h : Counts e 0) {calls : List Call}
    (hbal : ∀ before rest, calls = before ++ rest → 0 ≤ e.balance before) : Sound e calls := by
  constructor
  · rintro before c rest heq ⟨fd, isClose, rfl, hdel⟩
    have hafter := hbal (before ++ [.del fd isClose]) rest (by rw [heq]; simp)
    rw [balance_concat] at hafter
    unfold tally at hafter
    dsimp only at hafter
    rw [if_pos hdel] at hafter
    have hcounts := counts_after h before
    have hnums := hcounts.nums
    have hle := hcounts.le
    rw [UInt32.lt_iff_toNat_lt]
    show 0 < (e.after before).mNums.toNat
    omega
  · intro before between rest heq hno
    have hzero : e.balance (before ++ .quit :: between) = 0 :=
      le_antisymm (balance_nonpos before between hno)
        (hbal _ rest (by rw [heq]; simp))
    have hnums := (counts_after h (before ++ .quit :: between)).nums
    rw [hzero] at hnums
    have hn : (e.after (before ++ .quit :: between)).mNums.toNat = 0 := by omega
    rw [loop, decide_eq_false_iff_not, UInt32.lt_iff_toNat_lt, hn]
    exact lt_irrefl 0

/-- **The counter is sound exactly in the runs whose balance never falls
below zero.** -/
theorem sound_iff (h : Counts e 0) (calls : List Call) :
    Sound e calls ↔ ∀ before rest, calls = before ++ rest → 0 ≤ e.balance before :=
  ⟨fun hsound before => hsound.balance_nonneg h before, sound_of_balance h⟩

/-- **The counter of an object is sound exactly in the runs in which, since
the last `quit()`, no more descriptors are deleted than added.** -/
theorem counter_iff {count : ℤ} (h : getObject count = some e) (calls : List Call) :
    Sound e calls ↔ ∀ before rest, calls = before ++ rest → 0 ≤ e.balance before := by
  refine sound_iff ?_ calls
  unfold getObject at h
  split at h
  · cases h
  · obtain rfl := Option.some.inj h
    exact ⟨rfl, le_rfl, Finset.empty_subset _⟩

/-- Two descriptors are opened and added, and one is deleted. -/
def ordinaryCalls : List Call :=
  [.world {3, 4}, .add 3 true true, .add 4 false true, .del 4 true]

theorem counter_iff_ordinary :
    ∃ e, getObject 512 = some e ∧ Sound e ordinaryCalls := by
  have he : getObject 512 = some ⟨512, 0, -1, none, ⟨∅, ∅, 0⟩⟩ := rfl
  refine ⟨_, he, (counter_iff he ordinaryCalls).mpr (fun before rest heq => ?_)⟩
  have hall : ∀ calls ∈ ordinaryCalls.inits,
      0 ≤ balance ⟨512, 0, -1, none, ⟨∅, ∅, 0⟩⟩ calls := by decide
  exact hall before ((List.mem_inits _ _).mpr ⟨rest, heq.symm⟩)

/-- The loop is ended, and then one of two descriptors is deleted. -/
def quitCalls : List Call :=
  [.world {3, 4}, .add 3 true true, .add 4 false true, .quit, .del 4 true]

/-- **A deletion after `quit()` takes the counter below zero**, and the loop
goes on. -/
theorem quit_undone :
    ∃ e, getObject 512 = some e ∧ (e.after quitCalls).mNums = 4294967295
      ∧ (e.after quitCalls).loop = true ∧ ¬ Sound e quitCalls := by
  refine ⟨_, rfl, by decide, by decide, fun h => ?_⟩
  have hpos := h.positive [.world {3, 4}, .add 3 true true, .add 4 false true, .quit]
    (.del 4 true) [] rfl ⟨4, true, rfl, by decide⟩
  exact absurd hpos (by decide)

end LibEpoll
