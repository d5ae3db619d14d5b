/-
  LevelBundle — what rounding up to a granularity gives.

  Sizes, alignments and paddings are all rounded in words, where a result past
  `2 ^ 32` wraps.  Below that bound `roundUp v s` is the least multiple of `s`
  that is at least `v`; the three halves of this are `le_roundUp`,
  `roundUp_lt` and `dvd_roundUp`.
-/
import LevelBundle.Word
import Mathlib.Algebra.Order.Ring.Nat
import Mathlib.Tactic.Common

namespace LevelBundle

theorem toNat_toUInt32 {n : ℕ} (h : n < 2 ^ 32) : n.toUInt32.toNat = n := by
  rw [Nat.toUInt32_eq, UInt32.toNat_ofNat']; exact Nat.mod_eq_of_lt h

variable {v s : UInt32}

theorem toNat_divUp (hs : 0 < s.toNat) :
    (divUp v s).toNat =
      if v.toNat % s.toNat = 0 then v.toNat / s.toNat else v.toNat / s.toNat + 1 := by
  have hmod : v % s = 0 ↔ v.toNat % s.toNat = 0 := by
    rw [← UInt32.toNat_inj, UInt32.toNat_mod]; rfl
  unfold divUp
  simp only [hmod]
  split_ifs with h
  · rw [UInt32.toNat_div]
  · -- a quotient with a remainder is a step of at least two, so one more fits
    have hs2 : 2 ≤ s.toNat := by
      rcases Nat.lt_or_ge s.toNat 2 with h1 | h1
      · have : s.toNat = 1 := by omega
        rw [this, Nat.mod_one] at h; exact absurd rfl h
      · exact h1
    have hle : v.toNat / s.toNat ≤ v.toNat / 2 := Nat.div_le_div_left hs2 (by omega)
    have hv := v.toNat_lt
    rw [UInt32.toNat_add, UInt32.toNat_div, UInt32.toNat_one, Nat.mod_eq_of_lt]
    omega

/-- The value of a rounded size, as long as the next multiple fits a word. -/
theorem toNat_roundUp_of_lt (hs : 0 < s.toNat)
    (h : v.toNat % s.toNat ≠ 0 → v.toNat - v.toNat % s.toNat + s.toNat < 2 ^ 32) :
    (roundUp v s).toNat =
      if v.toNat % s.toNat = 0 then v.toNat else v.toNat - v.toNat % s.toNat + s.toNat := by
  have hd := Nat.div_add_mod' v.toNat s.toNat
  have hv := v.toNat_lt
  unfold roundUp
  rw [UInt32.toNat_mul, toNat_divUp hs]
  split_ifs with hz
  · rw [Nat.mod_eq_of_lt] <;> omega
  · have hlt := h hz
    rw [Nat.add_mul, Nat.one_mul, Nat.mod_eq_of_lt] <;> omega

theorem toNat_roundUp (hs : 0 < s.toNat) (h : v.toNat + s.toNat ≤ 2 ^ 32) :
    (roundUp v s).toNat =
      if v.toNat % s.toNat = 0 then v.toNat else v.toNat - v.toNat % s.toNat + s.toNat :=
  toNat_roundUp_of_lt hs fun hz => by
    have := Nat.mod_le v.toNat s.toNat
    omega

theorem le_roundUp (hs : 0 < s.toNat) (h : v.toNat + s.toNat ≤ 2 ^ 32) :
    v.toNat ≤ (roundUp v s).toNat := by
  have hlt := Nat.mod_lt v.toNat hs
  have hle := Nat.mod_le v.toNat s.toNat
  rw [toNat_roundUp hs h]; split_ifs <;> omega

theorem roundUp_lt (hs : 0 < s.toNat) (h : v.toNat + s.toNat ≤ 2 ^ 32) :
    (roundUp v s).toNat < v.toNat + s.toNat := by
  have hle := Nat.mod_le v.toNat s.toNat
  rw [toNat_roundUp hs h]; split_ifs <;> omega

theorem dvd_roundUp (hs : 0 < s.toNat) (h : v.toNat + s.toNat ≤ 2 ^ 32) :
    s.toNat ∣ (roundUp v s).toNat := by
  rw [toNat_roundUp hs h]
  split_ifs with hz
  · exact Nat.dvd_of_mod_eq_zero hz
  · exact Nat.dvd_add (Nat.dvd_sub_mod _) (Nat.dvd_refl _)

theorem roundUp_of_dvd (hs : 0 < s.toNat) (h : s.toNat ∣ v.toNat) : roundUp v s = v := by
  apply UInt32.toNat_inj.1
  unfold roundUp
  rw [UInt32.toNat_mul, toNat_divUp hs, if_pos (Nat.mod_eq_zero_of_dvd h),
    Nat.div_mul_cancel h, Nat.mod_eq_of_lt v.toNat_lt]

/-- Rounding up stays below every multiple above the value. -/
theorem roundUp_le {m : ℕ} (hs : 0 < s.toNat) (h : v.toNat + s.toNat ≤ 2 ^ 32)
    (hv : v.toNat ≤ m) (hm : s.toNat ∣ m) : (roundUp v s).toNat ≤ m := by
  have hlt := roundUp_lt hs h
  obtain ⟨a, ha⟩ := dvd_roundUp hs h
  obtain ⟨b, rfl⟩ := hm
  rw [ha] at hlt ⊢
  refine Nat.mul_le_mul_left _ (Nat.le_of_lt_succ ?_)
  by_contra hab
  have : s.toNat * (b + 1) ≤ s.toNat * a := Nat.mul_le_mul_left _ (by omega)
  rw [Nat.mul_succ] at this
  omega

end LevelBundle
