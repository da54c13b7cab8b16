import WolServer.Runs

/-!
# `Lib_Epoll`

The object of `epoll.cpp`, with the part of the kernel it works on: which
descriptors are open, and which of them the epoll instance watches.

The kernel is modelled as it behaves. `EPOLL_CTL_ADD` fails on a descriptor
that is not open or is watched already, and may fail otherwise;
`EPOLL_CTL_DEL` succeeds on a watched descriptor and fails on any other;
closing a descriptor ends its registration. `strayCloses` counts the calls
of `close` that found their descriptor not open – the second of two closes.
-/

/-- What the kernel knows of the server's sockets. -/
structure Kernel where
  /-- The open descriptors. -/
  opened : Finset ℕ
  /-- The descriptors the epoll instance watches. -/
  registered : Finset ℕ
  /-- How often `close` was called on a descriptor that was not open. -/
  strayCloses : ℕ

namespace Kernel

/-- A new descriptor, from `socket` or `accept`. -/
def «open» (k : Kernel) (fd : ℕ) : Kernel := { k with opened := insert fd k.opened }

/-- `close(fd)`. -/
def close (k : Kernel) (fd : ℕ) : Kernel where
  opened := k.opened.erase fd
  registered := k.registered.erase fd
  strayCloses := if fd ∈ k.opened then k.strayCloses else k.strayCloses + 1

end Kernel

/-- The fields of the object, and the kernel behind it. -/
structure LibEpoll where
  /-- `m_count`: the capacity of the event array. -/
  mCount : ℕ
  /-- `m_nums`: the number of descriptors added. -/
  mNums : UInt32
  /-- `m_listen`: the listening descriptor, or -1. -/
  mListen : ℤ
  /-- `m_ptr`: the port the caller's pointer points to. -/
  mPtr : Option UInt16
  /-- The kernel. -/
  kernel : Kernel

namespace LibEpoll

/-- `Lib_Epoll::getObject`, when the instance and the event array can be
created. -/
def getObject (count : ℤ) : Option LibEpoll :=
  if 0 ≥ count ∨ 1024 < count then none
  else some { mCount := count.toNat, mNums := 0, mListen := -1, mPtr := none,
              kernel := ⟨∅, ∅, 0⟩ }

def checkListen (e : LibEpoll) (fd : ℤ) : Bool := e.mListen = fd

def setPtr (e : LibEpoll) (ptr : Option UInt16) : LibEpoll := { e with mPtr := ptr }

def getPtr (e : LibEpoll) : Option UInt16 := e.mPtr

def size (e : LibEpoll) : UInt32 := e.mNums

def loop (e : LibEpoll) : Bool := 0 < e.mNums

def quit (e : LibEpoll) : LibEpoll := { e with mNums := 0 }

/-- `Lib_Epoll::ctl` to add: `ok` says whether `fcntl` and `epoll_ctl` find
no reason of their own to fail. -/
def ctlAdd (e : LibEpoll) (fd : ℤ) (ok : Bool) : Bool × LibEpoll :=
  if 0 > fd then (false, e)
  else if ok ∧ fd.toNat ∈ e.kernel.opened ∧ fd.toNat ∉ e.kernel.registered then
    (true, { e with
      mNums := e.mNums + 1
      kernel := { e.kernel with registered := insert fd.toNat e.kernel.registered } })
  else (false, e)

/-- `Lib_Epoll::ctl` to delete. -/
def ctlDel (e : LibEpoll) (fd : ℤ) : Bool × LibEpoll :=
  if 0 > fd then (false, e)
  else if fd.toNat ∈ e.kernel.registered then
    (true, { e with
      mNums := e.mNums - 1
      kernel := { e.kernel with registered := e.kernel.registered.erase fd.toNat } })
  else (false, e)

/-- `Lib_Epoll::add`. -/
def add (e : LibEpoll) (fd : ℤ) (isListen ok : Bool) : Bool × LibEpoll :=
  let ret := e.ctlAdd fd ok
  if ret.1 ∧ isListen then (ret.1, { ret.2 with mListen := fd }) else ret

/-- `Lib_Epoll::del`. -/
def del (e : LibEpoll) (fd : ℤ) (isClose : Bool) : Bool × LibEpoll :=
  let ret := e.ctlDel fd
  if ret.1 then
    let e := if ret.2.mListen = fd then { ret.2 with mListen := -1 } else ret.2
    (true, if isClose then { e with kernel := e.kernel.close fd.toNat } else e)
  else ret

/-! ## The object and the kernel agree -/

variable {e : LibEpoll} {listen fd : ℕ} {clients : Finset ℕ}

theorem not_negative (fd : ℕ) : ¬ (0 : ℤ) > fd := by omega

/-- An open descriptor that is not watched yet can be added. -/
theorem add_of_open (ho : fd ∈ e.kernel.opened) (hr : fd ∉ e.kernel.registered) :
    e.add fd false true = (true, { e with
      mNums := e.mNums + 1
      kernel := { e.kernel with registered := insert fd e.kernel.registered } }) := by
  have hctl : e.ctlAdd fd true = (true, { e with
      mNums := e.mNums + 1
      kernel := { e.kernel with registered := insert fd e.kernel.registered } }) := by
    rw [ctlAdd, if_neg (not_negative fd), if_pos ⟨rfl, ho, hr⟩, Int.toNat_natCast]
  rw [add, hctl]
  rfl

theorem add_of_failure : e.add fd false false = (false, e) := by
  have hctl : e.ctlAdd fd false = (false, e) := by
    rw [ctlAdd, if_neg (not_negative fd), if_neg (fun h => Bool.false_ne_true h.1)]
  rw [add, hctl]
  rfl

/-- A watched descriptor other than the listening one can be deleted. -/
theorem del_of_registered (hr : fd ∈ e.kernel.registered) (hl : e.mListen ≠ fd) :
    e.del fd true = (true, { e with
      mNums := e.mNums - 1
      kernel := Kernel.close
        { e.kernel with registered := e.kernel.registered.erase fd } fd }) := by
  have hctl : e.ctlDel fd = (true, { e with
      mNums := e.mNums - 1
      kernel := { e.kernel with registered := e.kernel.registered.erase fd } }) := by
    rw [ctlDel, if_neg (not_negative fd), if_pos (by rw [Int.toNat_natCast]; exact hr),
      Int.toNat_natCast]
  rw [del, hctl]
  dsimp only
  rw [if_pos rfl, if_pos rfl, if_neg hl, Int.toNat_natCast]

/-- **The object watches a listening descriptor and some clients**: they are
what is open and what is registered, the counter counts them, and every
`close` so far found its descriptor open. -/
structure Watches (e : LibEpoll) (listen : ℕ) (clients : Finset ℕ) : Prop where
  registered : e.kernel.registered = insert listen clients
  opened : e.kernel.opened = insert listen clients
  nums : e.mNums.toNat = (insert listen clients).card
  listens : e.mListen = listen
  separate : listen ∉ clients
  strays : e.kernel.strayCloses = 0

theorem Watches.checkListen_iff (h : e.Watches listen clients) :
    e.checkListen fd = true ↔ fd = listen := by
  rw [checkListen, h.listens, decide_eq_true_eq, Nat.cast_inj]
  exact eq_comm

theorem Watches.mem_clients (h : e.Watches listen clients) (hfd : fd ∈ e.kernel.registered)
    (hne : fd ≠ listen) : fd ∈ clients := by
  rw [h.registered] at hfd
  exact (Finset.mem_insert.mp hfd).resolve_left hne

/-- A counter that is not at its end does not wrap. -/
theorem toNat_succ {n : UInt32} (h : n.toNat + 1 < 2 ^ 32) : (n + 1).toNat = n.toNat + 1 := by
  rw [UInt32.toNat_add, UInt32.toNat_one, Nat.mod_eq_of_lt h]

/-- A new descriptor that can be registered becomes a client. -/
theorem Watches.add (h : e.Watches listen clients) (hfd : fd ∉ e.kernel.opened)
    (hcard : clients.card + 2 < 2 ^ 32) :
    ∃ e', ({ e with kernel := e.kernel.open fd } : LibEpoll).add fd false true = (true, e')
      ∧ e'.Watches listen (insert fd clients) ∧ e'.mPtr = e.mPtr ∧ e'.mCount = e.mCount := by
  have hnew : fd ∉ insert listen clients := h.opened ▸ hfd
  have hreg : fd ∉ e.kernel.registered := h.registered ▸ hnew
  refine ⟨_, add_of_open (Finset.mem_insert_self _ _) hreg, ⟨?_, ?_, ?_, h.listens, ?_, h.strays⟩,
    rfl, rfl⟩
  · show insert fd e.kernel.registered = _
    rw [h.registered, Finset.insert_comm]
  · show insert fd e.kernel.opened = _
    rw [h.opened, Finset.insert_comm]
  · have hlen : (insert listen clients).card = clients.card + 1 :=
      Finset.card_insert_of_notMem h.separate
    show (e.mNums + 1).toNat = _
    rw [Finset.insert_comm, Finset.card_insert_of_notMem hnew,
      toNat_succ (by rw [h.nums, hlen]; omega), h.nums]
  · intro hmem
    rcases Finset.mem_insert.mp hmem with rfl | hmem
    · exact hnew (Finset.mem_insert_self _ _)
    · exact h.separate hmem

/-- A new descriptor that cannot be registered is closed again. -/
theorem Watches.refuse (h : e.Watches listen clients) (hfd : fd ∉ e.kernel.opened) :
    ({ e with kernel := (e.kernel.open fd).close fd } : LibEpoll).Watches listen clients := by
  have hnew : fd ∉ insert listen clients := h.opened ▸ hfd
  refine ⟨?_, ?_, h.nums, h.listens, h.separate, ?_⟩
  · show e.kernel.registered.erase fd = _
    rw [h.registered, Finset.erase_eq_of_notMem hnew]
  · show (insert fd e.kernel.opened).erase fd = _
    rw [Finset.erase_insert hfd, h.opened]
  · show (if fd ∈ insert fd e.kernel.opened then _ else _) = 0
    rw [if_pos (Finset.mem_insert_self _ _)]
    exact h.strays

/-- A client that is deleted is closed, once. -/
theorem Watches.del (h : e.Watches listen clients) (hfd : fd ∈ clients) :
    ∃ e', e.del fd true = (true, e') ∧ e'.Watches listen (clients.erase fd)
      ∧ e'.mPtr = e.mPtr ∧ e'.mCount = e.mCount := by
  have hne : fd ≠ listen := fun h' => h.separate (h' ▸ hfd)
  have hin : fd ∈ insert listen clients := Finset.mem_insert_of_mem hfd
  have herase : (insert listen clients).erase fd = insert listen (clients.erase fd) :=
    Finset.erase_insert_of_ne hne.symm
  have hlisten : e.mListen ≠ fd := by
    rw [h.listens]
    exact fun h' => hne (Nat.cast_inj.mp h').symm
  refine ⟨_, del_of_registered (h.registered ▸ hin) hlisten, ⟨?_, ?_, ?_, h.listens, ?_, ?_⟩,
    rfl, rfl⟩
  · show (e.kernel.registered.erase fd).erase fd = _
    rw [Finset.erase_idem, h.registered, herase]
  · show e.kernel.opened.erase fd = _
    rw [h.opened, herase]
  · have hpos : 0 < (insert listen clients).card := Finset.card_pos.mpr ⟨fd, hin⟩
    have hle : (1 : UInt32) ≤ e.mNums := by
      rw [UInt32.le_iff_toNat_le, h.nums]
      exact hpos
    show (e.mNums - 1).toNat = _
    rw [UInt32.toNat_sub_of_le _ _ hle, h.nums, ← herase, Finset.card_erase_of_mem hin]
    rfl
  · exact fun hmem => h.separate (Finset.mem_of_mem_erase hmem)
  · show (if fd ∈ e.kernel.opened then _ else _) = 0
    rw [if_pos (h.opened ▸ hin)]
    exact h.strays

end LibEpoll
