import WolServer.CJSONText
import WolServer.Owning

/-!
# Printing to a buffer

`cJSON_PrintBuffered` prints a tree to one block. Before anything is written,
`ensure` makes room for it, and takes a bigger block when there is none; it
returns a null pointer when no such block is to be had, and has freed the one
there was. Nothing is written twice: a text ends in a terminator, `update` goes
up to it, and the next text begins there.

A block has bytes that were never written, and reading one of them is a fault,
as is an access outside of the block and an `int` that overflows.
-/

namespace CJSONBuffer

open Owning

/-! ## The bytes of a block -/

/-- The bytes of a block, of which some were never written. -/
abbrev Cells := List (Option UInt8)

namespace Cells

/-- Bytes are written, from one of them on. -/
def write (m : Cells) (ptr : ℕ) (s : Bytes) : Cells :=
  m.take ptr ++ (s.map some ++ m.drop (ptr + s.length))

/-- `strlen`, if there is a terminator and every byte in front of it was
written. -/
def strlen : Cells → Option ℕ
  | [] => none
  | none :: _ => none
  | some b :: m => if b = 0 then some 0 else (strlen m).map (· + 1)

variable {m : Cells} {u v : Bytes}

theorem length_write (m : Cells) {ptr : ℕ} {s : Bytes} (h : ptr + s.length ≤ m.length) :
    (m.write ptr s).length = m.length := by
  rw [write, List.length_append, List.length_append, List.length_take, List.length_map,
    List.length_drop]
  omega

/-- What is written follows what was there. -/
theorem prefix_write (h : u.map some <+: m) (s : Bytes) :
    (u ++ s).map some <+: m.write u.length s := by
  have htake : m.take u.length = u.map some := by
    rw [← List.length_map some]
    exact (List.prefix_iff_eq_take.mp h).symm
  rw [write, htake, List.map_append, ← List.append_assoc]
  exact List.prefix_append _ _

/-- **The length of a text** is where its terminator is. -/
theorem strlen_eq (hv : (0 : UInt8) ∉ v) (h : (v ++ [0]).map some <+: m) :
    strlen m = some v.length := by
  obtain ⟨r, rfl⟩ := h
  induction v with
  | nil => rfl
  | cons b v ih =>
    have hb : b ≠ 0 := fun e => hv (e ▸ List.mem_cons_self)
    show (if b = 0 then some 0 else (strlen ((v ++ [0]).map some ++ r)).map (· + 1)) = _
    rw [if_neg hb, ih (fun h => hv (List.mem_cons_of_mem b h))]
    rfl

theorem prefix_drop (h : (u ++ v).map some <+: m) : v.map some <+: m.drop u.length := by
  obtain ⟨r, rfl⟩ := h
  rw [List.map_append, List.append_assoc, List.drop_append_of_le_length (by simp),
    List.drop_of_length_le (by simp)]
  exact List.prefix_append _ _

end Cells

/-! ## The buffer -/

/-- `printbuffer`: the block and its bytes, or a null pointer. -/
structure PrintBuffer where
  /-- `buffer`. -/
  buffer : Option (ℕ × Cells)
  /-- `length`. -/
  length : ℕ
  /-- `offset`. -/
  offset : ℕ

/-- `pow2gt`. -/
def pow2gt (x : ℕ) : ℕ :=
  let x := x - 1
  let x := x ||| x >>> 1
  let x := x ||| x >>> 2
  let x := x ||| x >>> 4
  let x := x ||| x >>> 8
  let x := x ||| x >>> 16
  x + 1

/-- **A part of the printer**: it works on the buffer, and goes no further when
a pointer is null. -/
def Printing (α : Type) : Type := PrintBuffer → StateM Store (Option α × PrintBuffer)

instance : Monad Printing where
  pure a p := return (some a, p)
  bind x f p := do
    let r ← x p
    match r.1 with
    | none => return (none, r.2)
    | some a => f a r.2

/-- The branch of `ensure` that takes a bigger block. -/
def grow (b : ℕ × Cells) (needed : ℕ) (p : PrintBuffer) :
    StateM Store (Option ℕ × PrintBuffer) := do
  -- neither the sum nor the power of two is more than an `int` can hold
  require (needed ≤ 2 ^ 30)
  let newsize := pow2gt needed
  match ← malloc with
  | none => do
    free b.1
    return (none, { p with buffer := none, length := 0 })
  | some newbuffer => do
    touch b.1
    require (p.length ≤ b.2.length ∧ p.length ≤ newsize)
    free b.1
    return (some p.offset, { p with
      buffer := some (newbuffer,
        b.2.take p.length ++ List.replicate (newsize - p.length) none)
      length := newsize })

/-- **`ensure`**: a pointer to this many bytes. -/
def ensure (needed : ℕ) : Printing ℕ := fun p =>
  match p.buffer with
  | none => return (none, p)
  | some b =>
    if needed + p.offset ≤ p.length then return (some p.offset, p)
    else grow b (needed + p.offset) p

/-- Bytes are written through a pointer into the buffer. -/
def write (ptr : ℕ) (s : Bytes) : Printing Unit := fun p =>
  match p.buffer with
  | none => do
    require False
    return (some (), p)
  | some b => do
    touch b.1
    require (ptr + s.length ≤ b.2.length)
    return (some (), { p with buffer := some (b.1, b.2.write ptr s) })

/-- **`update`**: the offset of the terminator. -/
def update : Printing ℕ := fun p =>
  match p.buffer with
  | none => return (some 0, p)
  | some b => do
    touch b.1
    let len := Cells.strlen (b.2.drop p.offset)
    require len.isSome
    return (some (p.offset + len.getD 0), p)

/-- `p->offset`. -/
def offset : Printing ℕ := fun p => return (some p.offset, p)

/-- `p->offset=offset`. -/
def setOffset (offset : ℕ) : Printing Unit := fun p =>
  return (some (), { p with offset := offset })

/-- `p->offset+=len`. -/
def advance (len : ℕ) : Printing Unit := fun p =>
  return (some (), { p with offset := p.offset + len })

/-- What a part returns is not looked at, and a null pointer is no reason to go
no further. -/
def attempt (x : Printing ℕ) : Printing Unit := fun p => do
  let r ← x p
  return (some (), r.2)

/-- Room is made, and bytes are written there. -/
def put (needed : ℕ) (s : Bytes) : Printing ℕ := do
  let ptr ← ensure needed
  write ptr s
  return ptr

/-- Bytes are put, and the offset goes on behind the first of them. -/
def emit (needed : ℕ) (s : Bytes) (len : ℕ) : Printing Unit := do
  let _ ← put needed s
  advance len

/-! ## What a part does -/

/-- What is known of a buffer, whether a request was refused, and the blocks. -/
abbrev Assertion := PrintBuffer → Bool → Multiset ℕ → Prop

/-- There was no memory for the buffer, and nothing is left of it. -/
def Dead : Assertion := fun p e L => p.buffer = none ∧ e = true ∧ L = 0

/-- Either that, or something else. -/
def OrDead (P : Assertion) : Assertion := fun p e L => Dead p e L ∨ P p e L

/-- What is known when a part is through, or goes no further. -/
def Ends {α : Type} (Q : α → Assertion) (r : Option α × PrintBuffer) : Bool → Multiset ℕ → Prop :=
  match r.1 with
  | none => Dead r.2
  | some a => Q a r.2

/-- **What a part does.** It goes no further only when there is no memory for
the buffer. -/
def Does {α : Type} (P : Assertion) (x : Printing α) (Q : α → Assertion) : Prop :=
  ∀ p e A, P p e A → Owns A (x p) (fun r e' => Ends Q r (e || e'))

/-- **The text so far**: the offset is behind the first part of it. -/
def Spells (u v : Bytes) : Assertion := fun p e L =>
  e = false ∧ ∃ b m, p.buffer = some (b, m) ∧ L = {b} ∧ m.length = p.length
    ∧ p.offset = u.length ∧ (u ++ v).map some <+: m

namespace Does

variable {α β : Type} {P P' : Assertion} {x : Printing α} {Q Q' : α → Assertion}
  {R : β → Assertion} {u v : Bytes}

theorem bind {f : α → Printing β} (hx : Does P x Q) (hf : ∀ a, Does (Q a) (f a) R) :
    Does P (x >>= f) R := by
  intro p e A hp
  refine Owns.bind ((hx p e A hp).weaken (fun r e' L h => ?_))
  obtain ⟨a, p'⟩ := r
  cases a with
  | none => exact .pure (by rwa [Bool.or_false])
  | some a =>
    refine (hf a p' (e || e') L h).weaken (fun r e'' L h => ?_)
    rwa [← Bool.or_assoc]

theorem pure {a : α} (h : ∀ p e L, P p e L → Q a p e L) : Does P (pure a) Q :=
  fun p e A hp => Owns.pure (by rw [Bool.or_false]; exact h p e A hp)

theorem weaken (hx : Does P x Q) (hP : ∀ p e L, P' p e L → P p e L)
    (hQ : ∀ a p e L, Q a p e L → Q' a p e L) : Does P' x Q' := by
  intro p e A hp
  refine (hx p e A (hP p e A hp)).weaken (fun r e' L h => ?_)
  obtain ⟨a, p'⟩ := r
  cases a with
  | none => exact h
  | some a => exact hQ a p' _ L h

/-- After a part that is attempted, there may be no buffer. -/
theorem attempt {x : Printing ℕ} {Q : ℕ → Assertion} (hx : Does P x Q) :
    Does P (attempt x) (fun _ => OrDead (fun p e L => ∃ a, Q a p e L)) := by
  intro p e A hp
  refine Owns.bind ((hx p e A hp).weaken (fun r e' L h => .pure ?_))
  rw [Bool.or_false]
  obtain ⟨a, p'⟩ := r
  cases a with
  | none => exact Or.inl h
  | some a => exact Or.inr ⟨a, h⟩

end Does

/-! ## What the operations do -/

/-- The new size is enough. -/
theorem le_pow2gt (x : ℕ) : x ≤ pow2gt x := by
  have hor : ∀ y i : ℕ, y ≤ y ||| y >>> i := fun y i => Nat.left_le_or
  refine Nat.le_succ_of_pred_le ?_
  exact (hor _ 1).trans ((hor _ 2).trans ((hor _ 4).trans ((hor _ 8).trans (hor _ 16))))

variable {u v : Bytes}

/-- What is behind the offset need not be known. -/
theorem Spells.front {p : PrintBuffer} {e : Bool} {L : Multiset ℕ} (h : Spells u v p e L) :
    Spells u [] p e L := by
  obtain ⟨he, b, m, hb, hL, hm, ho, hpre⟩ := h
  refine ⟨he, b, m, hb, hL, hm, ho, ?_⟩
  rw [List.map_append] at hpre
  rw [List.append_nil]
  exact (List.prefix_append _ _).trans hpre

/-- Nor behind the offset of a buffer that there may be. -/
theorem OrDead.front {p : PrintBuffer} {e : Bool} {L : Multiset ℕ} (h : OrDead (Spells u v) p e L) :
    OrDead (Spells u []) p e L :=
  h.imp id Spells.front

theorem does_ensure {needed : ℕ} (h : needed + u.length ≤ 2 ^ 30) :
    Does (OrDead (Spells u [])) (ensure needed) (fun ptr p e L =>
      ptr = u.length ∧ u.length + needed ≤ p.length ∧ Spells u [] p e L) := by
  intro p e A hp
  unfold ensure
  rcases hp with ⟨hnone, rfl, rfl⟩ | ⟨rfl, b, m, hb, rfl, hm, ho, hpre⟩
  · rw [hnone]
    exact .pure ⟨hnone, rfl, rfl⟩
  · rw [hb, ho]
    refine .ite (R := fun _ r e' => Ends _ r (false || e')) (y := ()) (z := ())
      (fun hroom => .pure ⟨rfl, (add_comm _ _).trans_le hroom, rfl, b, m, hb, rfl, hm, ho,
        hpre⟩) (fun hroom => ?_)
    have hsize := le_pow2gt (needed + u.length)
    refine .bind (.require h (.bind (.malloc (fun c => ?_) ?_)))
    · refine .bind (.touch (add_comm {c} {b}) (.bind (.require ⟨hm.ge, by omega⟩
        (.bind (.free (add_comm {c} {b}) (.pure ⟨ho, ?_, rfl, c, _, rfl, rfl, ?_, ho, ?_⟩))))))
      · show u.length + needed ≤ pow2gt (needed + u.length)
        omega
      · rw [List.length_append, List.length_take, List.length_replicate, hm, Nat.min_self]
        exact Nat.add_sub_cancel' (by omega)
      · rw [← hm, List.take_length]
        exact hpre.trans (List.prefix_append _ _)
    · exact .bind (.free (add_zero _).symm (.pure ⟨rfl, rfl, rfl⟩))

/-- **Without a buffer** there is no pointer. -/
theorem dead_put {needed : ℕ} {s : Bytes} {Q : ℕ → Assertion} : Does Dead (put needed s) Q := by
  refine Does.bind (Q := fun _ _ _ _ => False) ?_ (fun _ _ _ _ h => h.elim)
  rintro p e A ⟨hnone, rfl, rfl⟩
  unfold ensure
  rw [hnone]
  exact .pure ⟨hnone, rfl, rfl⟩

theorem dead_emit {needed len : ℕ} {s : Bytes} {Q : Unit → Assertion} :
    Does Dead (emit needed s len) Q :=
  dead_put.bind (Q := fun _ _ _ _ => False) (fun _ _ _ _ h => h.elim)

theorem does_write {s : Bytes} :
    Does (fun p e L => u.length + s.length ≤ p.length ∧ Spells u [] p e L) (write u.length s)
      (fun _ => Spells u s) := by
  rintro p e A ⟨hroom, rfl, b, m, hb, rfl, hm, ho, hpre⟩
  unfold write
  rw [hb]
  refine .bind (.touch (add_zero _).symm (.bind (.require (hm ▸ hroom) (.pure ?_))))
  refine ⟨rfl, b, _, rfl, rfl, ?_, ho, Cells.prefix_write ?_ s⟩
  · exact (Cells.length_write m (hm ▸ hroom)).trans hm
  · rwa [List.append_nil] at hpre

/-- **Bytes are put behind the text so far**, if there is memory for them. -/
theorem does_put {n : ℕ} {s : Bytes} (hs : s.length ≤ n)
    (h : n + u.length ≤ 2 ^ 30) :
    Does (OrDead (Spells u [])) (put n s)
      (fun ptr p e L => ptr = u.length ∧ Spells u s p e L) := by
  refine (does_ensure h).bind (fun ptr => ?_)
  rintro p e A ⟨rfl, hroom, hp⟩
  refine does_write.bind (fun _ => .pure (fun p e L hp => ⟨rfl, hp⟩)) p e A ⟨?_, hp⟩
  omega

theorem does_offset : Does (Spells u v) offset
    (fun i p e L => i = u.length ∧ Spells u v p e L) := by
  rintro p e A ⟨rfl, b, m, hb, rfl, hm, ho, hpre⟩
  exact .pure ⟨ho, rfl, b, m, hb, rfl, hm, ho, hpre⟩

/-- The offset goes on behind what was put. -/
theorem does_advance {s : Bytes} {len : ℕ} (hlen : len = v.length) :
    Does (Spells u (v ++ s)) (advance len) (fun _ => Spells (u ++ v) s) := by
  rintro p e A ⟨rfl, b, m, hb, rfl, hm, ho, hpre⟩
  refine .pure ⟨rfl, b, m, hb, rfl, hm, ?_, ?_⟩
  · show p.offset + len = _
    rw [ho, hlen, List.length_append]
  · rwa [List.append_assoc]

/-- **The offset goes up to the terminator.** -/
theorem does_update (hv : (0 : UInt8) ∉ v) :
    Does (OrDead (Spells u (v ++ [0]))) (update >>= setOffset)
      (fun _ => OrDead (Spells (u ++ v) [0])) := by
  intro p e A hp
  refine Owns.bind ?_
  unfold update
  rcases hp with ⟨hnone, rfl, rfl⟩ | ⟨rfl, b, m, hb, rfl, hm, ho, hpre⟩
  · rw [hnone]
    exact .pure (.pure (Or.inl ⟨hnone, rfl, rfl⟩))
  · have hlen := Cells.strlen_eq hv (Cells.prefix_drop hpre)
    rw [hb, ho]
    dsimp only
    rw [hlen]
    refine .bind (.touch (add_zero _).symm (.bind (.require rfl (.pure (.pure (Or.inr ?_))))))
    refine ⟨rfl, b, m, hb, rfl, hm, ?_, ?_⟩
    · show u.length + v.length = _
      rw [List.length_append]
    · rwa [List.append_assoc]

/-- **Bytes are put, and the offset goes on** behind the first of them. -/
theorem does_emit {needed len : ℕ} {s : Bytes} (hs : (v ++ s).length ≤ needed)
    (h : needed + u.length ≤ 2 ^ 30) (hlen : len = v.length) :
    Does (OrDead (Spells u [])) (emit needed (v ++ s) len) (fun _ => Spells (u ++ v) s) :=
  (does_put hs h).bind (fun _ => (does_advance hlen).weaken (fun _ _ _ hp => hp.2)
    (fun _ _ _ _ hp => hp))

end CJSONBuffer
