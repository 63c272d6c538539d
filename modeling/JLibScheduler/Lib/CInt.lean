import Mathlib.Data.Int.ModEq

/-!
# The 32-bit `int`

A value of `int` is an integer from `-2 ^ 31` up to `2 ^ 31 - 1`. `ofNat` is the conversion of an
unsigned value, which wraps; it is injective on the values of `unsigned int` (`ofNat_inj`). `incr`
is `++`, which is undefined for the largest value, and `toSizeT` the conversion to `size_t` of a
value that is used as an index.
-/

namespace CInt

/-- The conversion of an unsigned value. -/
def ofNat (x : Nat) : Int :=
  if x % 2 ^ 32 < 2 ^ 31 then (x % 2 ^ 32 : Nat) else (x % 2 ^ 32 : Nat) - 2 ^ 32

/-- `++`; `none` when it overflows. -/
def incr (i : Int) : Option Int := if i = 2 ^ 31 - 1 then none else some (i + 1)

/-- The conversion to `size_t`. -/
def toSizeT (i : Int) : Nat := (i % 2 ^ 64).toNat

section
variable {x y : Nat}

theorem ofNat_of_lt (h : x < 2 ^ 31) : ofNat x = x := by
  have hmod : x % 2 ^ 32 = x := Nat.mod_eq_of_lt (by omega)
  rw [ofNat, hmod, if_pos h]

theorem ofNat_of_ge (h : 2 ^ 31 ≤ x) (hlt : x < 2 ^ 32) : ofNat x = x - 2 ^ 32 := by
  have hmod : x % 2 ^ 32 = x := Nat.mod_eq_of_lt hlt
  rw [ofNat, hmod, if_neg (by omega)]

/-- The conversion keeps the values of `unsigned int` apart. -/
theorem ofNat_inj (hx : x < 2 ^ 32) (hy : y < 2 ^ 32) : ofNat x = ofNat y ↔ x = y := by
  refine ⟨fun h => ?_, fun h => h ▸ rfl⟩
  rcases Nat.lt_or_ge x (2 ^ 31) with hx' | hx' <;> rcases Nat.lt_or_ge y (2 ^ 31) with hy' | hy'
  · rw [ofNat_of_lt hx', ofNat_of_lt hy'] at h
    omega
  · rw [ofNat_of_lt hx', ofNat_of_ge hy' hy] at h
    omega
  · rw [ofNat_of_ge hx' hx, ofNat_of_lt hy'] at h
    omega
  · rw [ofNat_of_ge hx' hx, ofNat_of_ge hy' hy] at h
    omega

theorem toSizeT_natCast (h : x < 2 ^ 64) : toSizeT x = x := by
  rw [toSizeT]
  omega

/-- A negative index is above every `int`. -/
theorem le_toSizeT {i : Int} (hneg : i < 0) (hge : -2 ^ 31 ≤ i) : 2 ^ 63 ≤ toSizeT i := by
  rw [toSizeT]
  omega

end

end CInt
