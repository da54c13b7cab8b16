import Mathlib

/-!
# Numbers of few significant bits

What a binary floating-point format of precision `p` is to whole numbers. It
holds the numbers `s · 2 ^ e` with a significand `s` below `2 ^ p`, and rounds
any other to the nearest of these – to the one with the even significand where
two are nearest. Exponents are not bounded.

This module is a library and names no program. `Significand.round_eq_self_iff`
says which numbers are held, and `Significand.round_nearest` that rounding
moves the others no further than it has to.
-/

namespace Significand

variable {p n m : ℕ}

/-- **The number has at most `p` significant bits.** -/
def Fits (p n : ℕ) : Prop := ∃ s e, s < 2 ^ p ∧ n = s * 2 ^ e

/-- The weight of the last of the `p` bits that are kept of a number. -/
def ulp (p n : ℕ) : ℕ := 2 ^ (n.size - p)

/-- **A number, rounded to `p` significant bits**: to nearest, ties to even. -/
def round (p n : ℕ) : ℕ :=
  if 2 * (n % ulp p n) < ulp p n
      ∨ (2 * (n % ulp p n) = ulp p n ∧ n / ulp p n % 2 = 0) then n / ulp p n * ulp p n
  else (n / ulp p n + 1) * ulp p n

theorem ulp_pos (p n : ℕ) : 0 < ulp p n := Nat.two_pow_pos _

/-- The bits that are kept are `p` bits. -/
theorem div_ulp_lt (p n : ℕ) : n / ulp p n < 2 ^ p := by
  rw [Nat.div_lt_iff_lt_mul (ulp_pos p n), ulp, ← pow_add]
  exact (Nat.lt_size_self n).trans_le (Nat.pow_le_pow_right (by decide) (by omega))

/-- **A number fits exactly when the bits that are dropped are zeros.** -/
theorem fits_iff_dvd : Fits p n ↔ ulp p n ∣ n := by
  constructor
  · rintro ⟨s, e, hs, rfl⟩
    rcases Nat.eq_zero_or_pos s with rfl | hpos
    · rw [Nat.zero_mul]
      exact dvd_zero _
    · have hsize : (s * 2 ^ e).size = s.size + e := by
        rw [← Nat.shiftLeft_eq, Nat.size_shiftLeft hpos.ne']
      have hbits : s.size ≤ p := Nat.size_le.mpr hs
      exact (pow_dvd_pow 2 (by rw [hsize]; omega)).trans (dvd_mul_left _ s)
  · intro h
    exact ⟨n / ulp p n, n.size - p, div_ulp_lt p n, (Nat.div_mul_cancel h).symm⟩

instance (p n : ℕ) : Decidable (Fits p n) := decidable_of_iff _ fits_iff_dvd.symm

/-- A number of `p` bits fits. -/
theorem fits_of_lt (h : n < 2 ^ p) : Fits p n := ⟨n, 0, h, (Nat.mul_one n).symm⟩

/-- A rounded number fits. -/
theorem fits_round (hp : 0 < p) (n : ℕ) : Fits p (round p n) := by
  have hlt := div_ulp_lt p n
  unfold round
  split
  · exact ⟨n / ulp p n, n.size - p, hlt, rfl⟩
  · rcases Nat.lt_or_eq_of_le (Nat.succ_le_of_lt hlt) with hlt | heq
    · exact ⟨n / ulp p n + 1, n.size - p, hlt, rfl⟩
    · -- the significand overflows into the next power of two
      refine ⟨1, p + (n.size - p), Nat.one_lt_two_pow hp.ne', ?_⟩
      rw [Nat.one_mul, pow_add, ← heq]
      rfl

/-- **Exactly the numbers that fit are left as they are.** -/
theorem round_eq_self_iff (hp : 0 < p) : round p n = n ↔ Fits p n := by
  constructor
  · intro h
    rw [← h]
    exact fits_round hp n
  · intro h
    have hdvd := fits_iff_dvd.mp h
    have hrem : n % ulp p n = 0 := Nat.mod_eq_zero_of_dvd hdvd
    have hlow : 2 * (n % ulp p n) < ulp p n := by
      rw [hrem]
      exact ulp_pos p n
    rw [round, if_pos (Or.inl hlow), Nat.div_mul_cancel hdvd]

/-- The lower neighbour of a number has as many bits as the number. -/
theorem size_le_of_div_mul_le (hp : 0 < p) (h : n / ulp p n * ulp p n ≤ m) :
    n.size - p ≤ m.size - p := by
  rcases Nat.lt_or_ge p n.size with hlong | hshort
  · have htop : 2 ^ (n.size - 1) ≤ n := Nat.lt_size.mp (by omega)
    have hexp : n.size - 1 = n.size - 1 - (n.size - p) + (n.size - p) := by omega
    have hkept : 2 ^ (n.size - 1) ≤ n / ulp p n * ulp p n := by
      rw [hexp, pow_add]
      refine Nat.mul_le_mul_right _ ?_
      rw [Nat.le_div_iff_mul_le (ulp_pos p n), ulp, ← pow_add, ← hexp]
      exact htop
    have hsize : n.size - 1 < m.size := Nat.lt_size.mpr (hkept.trans h)
    omega
  · omega

/-- Between a number's two neighbours, no other number fits. -/
theorem le_or_le_of_fits (hp : 0 < p) (n : ℕ) (hm : Fits p m) :
    m ≤ n / ulp p n * ulp p n ∨ (n / ulp p n + 1) * ulp p n ≤ m := by
  rcases Nat.le_total m (n / ulp p n * ulp p n) with hlow | hhigh
  · exact Or.inl hlow
  have hdvd : ulp p n ∣ m :=
    (pow_dvd_pow 2 (size_le_of_div_mul_le hp hhigh)).trans (fits_iff_dvd.mp hm)
  obtain ⟨q, rfl⟩ := hdvd
  rw [Nat.mul_comm (ulp p n) q]
  rcases Nat.lt_or_ge (n / ulp p n) q with hlt | hge
  · exact Or.inr (Nat.mul_le_mul_right _ hlt)
  · exact Or.inl (Nat.mul_le_mul_right _ hge)

/-- **No number that fits is nearer than the rounded one.** -/
theorem round_nearest (hp : 0 < p) (n : ℕ) (hm : Fits p m) :
    |(n : ℤ) - round p n| ≤ |(n : ℤ) - m| := by
  have hsplit := Nat.div_add_mod' n (ulp p n)
  have hmod := Nat.mod_lt n (ulp_pos p n)
  have hsucc : (n / ulp p n + 1) * ulp p n = n / ulp p n * ulp p n + ulp p n := Nat.succ_mul _ _
  have hout := le_or_le_of_fits hp n hm
  unfold round
  generalize n / ulp p n * ulp p n = low at *
  rw [hsucc] at hout ⊢
  split_ifs with htie <;> rw [abs_le'] <;> constructor <;>
    cases abs_cases ((n : ℤ) - m) <;> push_cast <;> omega

end Significand
