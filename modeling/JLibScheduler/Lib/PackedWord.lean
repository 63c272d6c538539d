import Mathlib.Data.Nat.Bitwise

/-!
# A counter and a flag in one machine word

A word of `w` bits holds a counter below `2 ^ k` and, in bit `k`, a flag (`pack`). The lemmas say
what the usual atomic operations do to the two: the addition and the subtraction of one change the
counter, and the operations with the mask `BitVec.twoPow w k` the flag.
-/

namespace PackedWord

/-- The word with counter `c` and flag `b`. -/
def pack (w k c : ℕ) (b : Bool) : BitVec w := BitVec.ofNat w (c + if b then 2 ^ k else 0)

variable {w k c : ℕ} {b : Bool}

theorem pack_add_one : pack w k c b + 1 = pack w k (c + 1) b := by
  rw [pack, pack, Nat.add_right_comm c 1, BitVec.ofNat_add _ 1]
  rfl

theorem pack_sub_one : pack w k (c + 1) b - 1 = pack w k c b := by
  rw [← pack_add_one, BitVec.add_sub_cancel]

/-- With the same counter, the word determines the flag. -/
theorem flag_eq_of_pack_eq {b' : Bool} (hk : k < w) (h : pack w k c b = pack w k c b') :
    b = b' := by
  have hpow : BitVec.ofNat w (2 ^ k) ≠ 0 := by
    intro h0
    have hlt : 2 ^ k < 2 ^ w := Nat.pow_lt_pow_right (by decide) hk
    have := congrArg BitVec.toNat h0
    rw [BitVec.toNat_ofNat, Nat.mod_eq_of_lt hlt] at this
    simp at this
  rw [pack, pack, BitVec.ofNat_add, BitVec.ofNat_add, BitVec.add_right_inj] at h
  cases b <;> cases b' <;> simp_all

section
variable (hk : k < w) (hc : c < 2 ^ k)
include hk hc

theorem toNat_pack : (pack w k c b).toNat = c + if b then 2 ^ k else 0 := by
  have hpow : 2 ^ (k + 1) ≤ 2 ^ w := Nat.pow_le_pow_right (by decide) hk
  rw [pack, BitVec.toNat_ofNat, Nat.mod_eq_of_lt]
  split <;> omega

theorem getLsbD_pack (i : ℕ) :
    (pack w k c b).getLsbD i = (c.testBit i || decide (i = k) && b) := by
  rw [← BitVec.testBit_toNat, toNat_pack hk hc]
  cases b with
  | false => simp
  | true =>
    simp only [if_true, Bool.and_true]
    rw [← Nat.or_two_pow_eq_add_of_lt hc, Nat.testBit_or, Nat.testBit_two_pow]
    simp only [eq_comm]

/-- The mask below the flag gives the counter. -/
theorem toNat_pack_and_mask : (pack w k c b &&& (BitVec.twoPow w k - 1)).toNat = c := by
  have hpow : 2 ^ k < 2 ^ w := Nat.pow_lt_pow_right (by decide) hk
  have hmask : (BitVec.twoPow w k - 1).toNat = 2 ^ k - 1 := by
    have hone : (1 : BitVec w).toNat = 1 := BitVec.toNat_one (by omega)
    have hle := Nat.one_le_two_pow (n := k)
    rw [BitVec.toNat_sub, BitVec.toNat_twoPow, hone, Nat.mod_eq_of_lt hpow,
      show 2 ^ w - 1 + 2 ^ k = 2 ^ w + (2 ^ k - 1) by omega, Nat.add_mod_left]
    exact Nat.mod_eq_of_lt (by omega)
  rw [BitVec.toNat_and, hmask, Nat.and_two_pow_sub_one_eq_mod, toNat_pack hk hc]
  cases b with
  | false => exact Nat.mod_eq_of_lt hc
  | true =>
    simp only [if_true, Nat.add_mod_right]
    exact Nat.mod_eq_of_lt hc

/-- The flag is set when its mask gives something. -/
theorem pack_and_flag_ne_zero : pack w k c b &&& BitVec.twoPow w k ≠ 0 ↔ b = true := by
  have hbit : (pack w k c b &&& BitVec.twoPow w k).getLsbD k = b := by
    rw [BitVec.getLsbD_and, getLsbD_pack hk hc, BitVec.getLsbD_twoPow]
    simp [hk, Nat.testBit_lt_two_pow hc]
  constructor
  · intro hne
    by_contra hb
    rw [Bool.not_eq_true] at hb
    refine hne (BitVec.eq_of_getLsbD_eq fun i hi => ?_)
    rw [BitVec.getLsbD_and, getLsbD_pack hk hc, BitVec.getLsbD_twoPow]
    by_cases hik : i = k
    · subst hik
      simp [hb, Nat.testBit_lt_two_pow hc]
    · simp [Ne.symm hik]
  · rintro rfl h
    rw [h] at hbit
    simp at hbit

/-- Setting the flag leaves the counter. -/
theorem pack_or_flag : pack w k c b ||| BitVec.twoPow w k = pack w k c true := by
  refine BitVec.eq_of_getLsbD_eq fun i hi => ?_
  rw [BitVec.getLsbD_or, getLsbD_pack hk hc, getLsbD_pack hk hc, BitVec.getLsbD_twoPow]
  by_cases hik : i = k
  · subst hik
    simp [hi]
  · simp [hik, Ne.symm hik]

/-- Clearing the flag leaves the counter. -/
theorem pack_and_not_flag : pack w k c b &&& ~~~BitVec.twoPow w k = pack w k c false := by
  refine BitVec.eq_of_getLsbD_eq fun i hi => ?_
  rw [BitVec.getLsbD_and, BitVec.getLsbD_not, getLsbD_pack hk hc, getLsbD_pack hk hc,
    BitVec.getLsbD_twoPow]
  by_cases hik : i = k
  · subst hik
    simp [hi, Nat.testBit_lt_two_pow hc]
  · simp [hik, Ne.symm hik, hi]

end

/-- Below the sign bit, the word is positive when the counter or the flag is. -/
theorem toInt_pack_pos (hk : k + 1 < w) (hc : c < 2 ^ k) :
    0 < (pack w k c b).toInt ↔ 0 < c ∨ b = true := by
  have hpow : 2 ^ (k + 2) ≤ 2 ^ w := Nat.pow_le_pow_right (by decide) hk
  rw [Nat.pow_add] at hpow
  have hlt : 2 * (pack w k c b).toNat < 2 ^ w := by
    rw [toNat_pack (by omega) hc]
    split <;> omega
  have hle := Nat.one_le_two_pow (n := k)
  rw [BitVec.toInt_eq_toNat_of_lt hlt, Int.natCast_pos, toNat_pack (by omega) hc]
  cases b with
  | false => simp
  | true => simp only [if_true, or_true, iff_true]; omega

end PackedWord
