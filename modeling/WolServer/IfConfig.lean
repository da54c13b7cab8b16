import WolServer.Server

/-!
# `Lib_IfConfig`

The part of `ifconfig.cpp` that asks the kernel about an interface, or tells
it: `interfaceIoctl`, which every such function ends in, and
`setInterfaceMask`, which looks at the mask first.

The kernel is a `IfWorld`: what `socket` returns, and what `ioctl` does with
a request. The functions return what the source returns and the list of the
system calls they made. An `in_addr_t` is its four bytes in memory, the first
of them the highest, as they travel on the network; `htonl` is the number
they spell.

The two halves of `setInterfaceMask` disagree on what success is called.
`interfaceIoctl` returns 0 for it, and the test before it leaves with
`return false` – which is 0. `IfConfig.setInterfaceMask_reports_iff` says what
follows: the function reports what it did exactly for the masks it accepts.
That these are the ones followed by zeros, `0` included, is a fact about bits
(`IfConfig.pred_or_self_iff`).
-/

/-- The requests `interfaceIoctl` knows. -/
inductive IfOp where
  | siocsifaddr
  | siocsifnetmask
  | siocsifhwaddr
  | siocgifaddr
  | siocgifnetmask
  | siocgifhwaddr
  | siocgifflags
  | siocgifindex
deriving DecidableEq

/-- `struct ifreq`, with the members of its union that are used. -/
structure IfReq where
  /-- `ifr_name`. -/
  name : Bytes
  /-- `sin_family`, if it is set to `AF_INET`. -/
  inet : Bool
  /-- `sa_data` of the address: two bytes of port, the four bytes of an IPv4
  address, and the rest. -/
  saData : List UInt8
  /-- `ifr_flags`. -/
  flags : Int16
  /-- `ifr_ifindex`. -/
  ifindex : Int32

/-- **The kernel.** -/
structure IfWorld where
  /-- What `socket` returns. -/
  socket : ℤ
  /-- What `ioctl` returns, and what it leaves in the request. -/
  ioctl : IfOp → IfReq → ℤ × IfReq

/-- A system call. -/
inductive IfCall where
  | socket
  | ioctl (ops : IfOp) (req : IfReq) (result : ℤ)
  | close (fd : ℤ)

namespace IfConfig

/-! ## Functions -/

/-- The request after `memset` and `strncpy`. -/
def emptyRequest (ifname : Bytes) : IfReq :=
  ⟨strncpy ifname 16, false, List.replicate 14 0, 0, 0⟩

/-- `ioctl`, with the call it makes. -/
def doIoctl (w : IfWorld) (ops : IfOp) (req : IfReq) : ℤ × IfReq × List IfCall :=
  let r := w.ioctl ops req
  (r.1, r.2, [.ioctl ops req r.1])

/-- The bytes of `data` that a successful request replaces, from the front. -/
def overwrite (data bytes : List UInt8) : List UInt8 := bytes ++ data.drop bytes.length

/-- The `switch` of `interfaceIoctl` with data: the result, the data
afterwards, and the call. -/
def ioctlData (w : IfWorld) (ops : IfOp) (req : IfReq) (data : List UInt8) :
    ℤ × List UInt8 × List IfCall :=
  match ops with
  | .siocsifaddr | .siocsifnetmask =>
    -- `sin_addr` stands behind the port
    let r := doIoctl w ops { req with
      inet := true
      saData := req.saData.take 2 ++ (data.take 4 ++ req.saData.drop 6) }
    (r.1, data, r.2.2)
  | .siocsifhwaddr =>
    let r := doIoctl w ops { req with saData := data.take 6 ++ req.saData.drop 6 }
    (r.1, data, r.2.2)
  | .siocgifaddr | .siocgifnetmask =>
    let r := doIoctl w ops req
    (r.1, if r.1 = 0 then overwrite data ((r.2.1.saData.drop 2).take 4) else data, r.2.2)
  | .siocgifhwaddr =>
    let r := doIoctl w ops req
    (r.1, if r.1 = 0 then overwrite data (r.2.1.saData.take 6) else data, r.2.2)
  | .siocgifflags =>
    let r := doIoctl w ops req
    -- an `unsigned int` in memory, the lowest byte first
    let flags := r.2.1.flags.toInt32.toUInt32
    (r.1, if r.1 = 0 then overwrite data
        [flags.toUInt8, (flags >>> 8).toUInt8, (flags >>> 16).toUInt8, (flags >>> 24).toUInt8]
      else data, r.2.2)
  | .siocgifindex => (-1, data, [])

/-- The `switch` of `interfaceIoctl` without data. -/
def ioctlNull (w : IfWorld) (ops : IfOp) (req : IfReq) : ℤ × List IfCall :=
  match ops with
  | .siocgifindex =>
    let r := doIoctl w ops req
    (if r.1 = 0 then r.2.1.ifindex.toInt else r.1, r.2.2)
  | _ => (-1, [])

/-- **`Lib_IfConfig::interfaceIoctl`**: the result, the data afterwards, and
the calls. -/
def interfaceIoctl (w : IfWorld) (ifname : Option Bytes) (data : Option (List UInt8))
    (ops : IfOp) : ℤ × Option (List UInt8) × List IfCall :=
  match ifname with
  | none => (-1, data, [])
  | some ifname =>
    if 0 > w.socket then (-1, data, [.socket])
    else
      match data with
      | some bytes =>
        let r := ioctlData w ops (emptyRequest ifname) bytes
        (r.1, some r.2.1, .socket :: (r.2.2 ++ [.close w.socket]))
      | none =>
        let r := ioctlNull w ops (emptyRequest ifname)
        (r.1, none, .socket :: (r.2 ++ [.close w.socket]))

/-- `htonl` of an address: the number its bytes spell. -/
def htonl (a : InAddr) : UInt32 :=
  a.b₁.toUInt32 <<< 24 ||| a.b₂.toUInt32 <<< 16 ||| a.b₃.toUInt32 <<< 8 ||| a.b₄.toUInt32

/-- `Lib_IfConfig::checkMaskValidity`. -/
def checkMaskValidity (mask : InAddr) : Bool :=
  let little := htonl mask
  0xFFFFFFFF == ((little - 1) ||| little)

/-- **`Lib_IfConfig::setInterfaceMask`**: its result – `return false` in a
function of type `int` returns 0 – and the calls. -/
def setInterfaceMask (w : IfWorld) (ifname : Option Bytes) (data : InAddr) : ℤ × List IfCall :=
  if checkMaskValidity data = true then
    let r := interfaceIoctl w ifname (some [data.b₁, data.b₂, data.b₃, data.b₄]) .siocsifnetmask
    (r.1, r.2.2)
  else (0, [])

/-! ## Ones, then zeros -/

/-- The number of `n` bits that has `k` ones, and zeros after them. -/
def leadingOnes (n k : ℕ) : ℕ := 2 ^ n - 2 ^ (n - k)

theorem leadingOnes_succ {n k : ℕ} (h : k ≤ n) : leadingOnes (n + 1) k = 2 * leadingOnes n k := by
  have hk : n + 1 - k = n - k + 1 := by omega
  rw [leadingOnes, leadingOnes, hk, pow_succ, pow_succ]
  omega

theorem leadingOnes_self (n : ℕ) : leadingOnes n n = 2 ^ n - 1 := by
  rw [leadingOnes, Nat.sub_self, pow_zero]

/-- **A number or its predecessor has every bit exactly when the number is
ones and then zeros**, by induction on the bits. -/
theorem pred_or_self_iff {n x : ℕ} (hx : 0 < x) (hlt : x < 2 ^ n) :
    (x - 1) ||| x = 2 ^ n - 1 ↔ ∃ k ≤ n, x = leadingOnes n k := by
  induction n generalizing x with
  | zero => omega
  | succ n ih =>
    have hpow : 2 ^ (n + 1) = 2 * 2 ^ n := by rw [pow_succ, Nat.mul_comm]
    have hpos : 0 < 2 ^ n := Nat.two_pow_pos n
    have hself := leadingOnes_self (n + 1)
    rcases Nat.even_or_odd' x with ⟨y, rfl | rfl⟩
    · -- an even number: the last bit is set in the predecessor
      have hy : 0 < y := by omega
      have hor : (2 * y - 1) ||| 2 * y = 2 * ((y - 1) ||| y) + 1 := by
        have hpred : 2 * y - 1 = Nat.bit true (y - 1) := by rw [Nat.bit_true_apply]; omega
        rw [hpred, ← Nat.bit_false_apply, Nat.lor_bit, Bool.or_false, Nat.bit_true_apply]
      have hstep : 2 * ((y - 1) ||| y) + 1 = 2 ^ (n + 1) - 1 ↔ (y - 1) ||| y = 2 ^ n - 1 := by
        omega
      rw [hor, hstep, ih hy (by omega)]
      constructor
      · rintro ⟨k, hk, hyk⟩
        exact ⟨k, Nat.le_succ_of_le hk, by rw [leadingOnes_succ hk, hyk]⟩
      · rintro ⟨k, hk, hyk⟩
        rcases Nat.lt_or_eq_of_le hk with hlt' | rfl
        · have hk' : k ≤ n := Nat.le_of_lt_succ hlt'
          rw [leadingOnes_succ hk'] at hyk
          exact ⟨k, hk', by omega⟩
        · omega
    · -- an odd number: the predecessor adds nothing
      have hor : (2 * y + 1 - 1) ||| (2 * y + 1) = 2 * y + 1 := by
        rw [Nat.add_sub_cancel, ← Nat.bit_true_apply, ← Nat.bit_false_apply, Nat.lor_bit,
          Bool.false_or, Nat.or_self]
      rw [hor]
      constructor
      · intro h
        exact ⟨n + 1, le_rfl, h.trans hself.symm⟩
      · rintro ⟨k, hk, hyk⟩
        rcases Nat.lt_or_eq_of_le hk with hlt' | rfl
        · rw [leadingOnes_succ (Nat.le_of_lt_succ hlt')] at hyk
          omega
        · exact hyk.trans hself

/-- **The masks that are accepted**: ones, and zeros after them, in the order
of the host. -/
theorem checkMaskValidity_iff (mask : InAddr) :
    checkMaskValidity mask = true ↔ ∃ k ≤ 32, (htonl mask).toNat = leadingOnes 32 k := by
  have hlt := (htonl mask).toNat_lt
  rw [checkMaskValidity, beq_iff_eq, ← UInt32.toNat_inj, UInt32.toNat_or]
  by_cases hzero : htonl mask = 0
  · rw [hzero]
    exact iff_of_true (by decide) ⟨0, by decide, by decide⟩
  · have hpos : 0 < (htonl mask).toNat := by
      rw [Nat.pos_iff_ne_zero]
      exact fun h => hzero (UInt32.toNat_inj.mp h)
    have hone : (1 : UInt32) ≤ htonl mask := UInt32.le_iff_toNat_le.mpr hpos
    rw [UInt32.toNat_sub_of_le _ _ hone, ← pred_or_self_iff hpos hlt]
    exact eq_comm

/-! ## What `setInterfaceMask` reports -/

/-- The `ioctl` that sets the mask, and its result. -/
def SetsMask (data : InAddr) (result : ℤ) (c : IfCall) : Prop :=
  ∃ req : IfReq, c = .ioctl .siocsifnetmask req result ∧ req.inet = true
    ∧ (req.saData.drop 2).take 4 = [data.b₁, data.b₂, data.b₃, data.b₄]

/-- The call is an `ioctl`. -/
def IfCall.IsIoctl (c : IfCall) : Prop := ∃ ops req result, c = .ioctl ops req result

/-- **The function reports what it did**: 0 exactly for a mask of ones and
zeros that was set, and no `ioctl` for any other mask. -/
def Reports (w : IfWorld) (ifname : Option Bytes) (data : InAddr) : Prop :=
  ((setInterfaceMask w ifname data).1 = 0
    ↔ (∃ k ≤ 32, (htonl data).toNat = leadingOnes 32 k)
      ∧ ∃ c ∈ (setInterfaceMask w ifname data).2, SetsMask data 0 c)
    ∧ ((¬ ∃ k ≤ 32, (htonl data).toNat = leadingOnes 32 k) →
      ∀ c ∈ (setInterfaceMask w ifname data).2, ¬ IfCall.IsIoctl c)

/-- What `interfaceIoctl` does to set a mask: it fails before the `ioctl`, or
makes it and returns its result. -/
theorem interfaceIoctl_mask (w : IfWorld) (ifname : Option Bytes) (data : InAddr) :
    let r := interfaceIoctl w ifname (some [data.b₁, data.b₂, data.b₃, data.b₄]) .siocsifnetmask
    (r.1 = -1 ∧ ∀ c ∈ r.2.2, ¬ IfCall.IsIoctl c)
      ∨ ∃ c, r.2.2 = [.socket, c, .close w.socket] ∧ SetsMask data r.1 c := by
  cases ifname with
  | none => exact Or.inl ⟨rfl, List.forall_mem_nil _⟩
  | some ifname =>
    unfold interfaceIoctl
    dsimp only
    split
    · exact Or.inl ⟨rfl, List.forall_mem_singleton.mpr (fun ⟨_, _, _, h⟩ => by cases h)⟩
    · exact Or.inr ⟨_, rfl, _, rfl, rfl, rfl⟩

/-- **`setInterfaceMask` reports what it did exactly for the masks it
accepts.** -/
theorem setInterfaceMask_reports_iff (w : IfWorld) (ifname : Option Bytes) (data : InAddr) :
    Reports w ifname data ↔ ∃ k ≤ 32, (htonl data).toNat = leadingOnes 32 k := by
  unfold Reports setInterfaceMask
  by_cases hvalid : checkMaskValidity data = true
  · have hform := (checkMaskValidity_iff data).mp hvalid
    rw [if_pos hvalid, iff_true_right hform]
    refine ⟨?_, fun h => absurd hform h⟩
    rw [and_iff_right hform]
    dsimp only
    rcases interfaceIoctl_mask w ifname data with ⟨hret, hno⟩ | ⟨c, hcalls, hsets⟩
    · refine iff_of_false (by rw [hret]; decide) (fun ⟨c, hc, hsets⟩ => hno c hc ?_)
      obtain ⟨req, rfl, -⟩ := hsets
      exact ⟨_, _, _, rfl⟩
    · rw [hcalls]
      constructor
      · intro hzero
        rw [hzero] at hsets
        exact ⟨c, by simp, hsets⟩
      · rintro ⟨c', hc', hsets'⟩
        obtain ⟨req, rfl, -⟩ := hsets
        obtain ⟨req', rfl, -⟩ := hsets'
        simp only [List.mem_cons, reduceCtorEq, List.not_mem_nil, or_false, false_or,
          IfCall.ioctl.injEq] at hc'
        exact hc'.2.2.symm
  · rw [if_neg hvalid]
    have hform := mt (checkMaskValidity_iff data).mpr hvalid
    exact iff_of_false (fun h => hform (h.1.mp rfl).1) hform

/-- **A mask that is refused is reported as set**, and nothing was done. -/
theorem refused_mask_reported :
    setInterfaceMask ⟨3, fun _ req => (0, req)⟩ (some (lit "eth0")) ⟨255, 0, 255, 0⟩ = (0, [])
      ∧ ¬ Reports ⟨3, fun _ req => (0, req)⟩ (some (lit "eth0")) ⟨255, 0, 255, 0⟩ := by
  have hret : setInterfaceMask ⟨3, fun _ req => (0, req)⟩ (some (lit "eth0")) ⟨255, 0, 255, 0⟩
      = (0, []) := if_neg (by decide)
  refine ⟨hret, fun h => ?_⟩
  obtain ⟨-, c, hc, -⟩ := h.1.mp (by rw [hret])
  rw [hret] at hc
  exact absurd hc List.not_mem_nil

end IfConfig
