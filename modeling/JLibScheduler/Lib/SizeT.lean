import Mathlib.Data.Nat.Bitwise
import Mathlib.Data.Int.ModEq

/-!
# Arithmetic of `size_t`

A value of the 64-bit type `size_t` is a natural number below `2 ^ 64`; its operations wrap. The
lemmas give the cases in which they do not, and the ring buffer indices of a power-of-two mask:
two positions less than the capacity apart have different slots (`slot_ne`). `window` is what a
memory holds between two positions.
-/

namespace SizeT

/-- The largest value of the type. -/
def max : Nat := 2 ^ 64 - 1

/-- Addition of `size_t`. -/
def add (a b : Nat) : Nat := (a + b) % 2 ^ 64

/-- Subtraction of `size_t`. -/
def sub (a b : Nat) : Nat := (a + 2 ^ 64 - b) % 2 ^ 64

theorem add_of_lt {a b : Nat} (h : a + b < 2 ^ 64) : add a b = a + b := Nat.mod_eq_of_lt h

theorem sub_of_le {a b : Nat} (h : b ≤ a) (ha : a < 2 ^ 64) : sub a b = a - b := by
  rw [sub, show a + 2 ^ 64 - b = (a - b) + 2 ^ 64 by omega, Nat.add_mod_right]
  exact Nat.mod_eq_of_lt (by omega)

/-- The slot of position `i` in a ring buffer of a given capacity: the position masked with
`capacity - 1`. -/
def slot (capacity i : Nat) : Nat := i &&& sub capacity 1

theorem slot_two_pow {k : Nat} (hk : 2 ^ k < 2 ^ 64) (i : Nat) : slot (2 ^ k) i = i % 2 ^ k := by
  rw [slot, sub_of_le Nat.one_le_two_pow hk, Nat.and_two_pow_sub_one_eq_mod]

/-- Two positions less than the capacity apart have different slots. -/
theorem slot_ne {k i j : Nat} (hk : 2 ^ k < 2 ^ 64) (hij : i < j) (hlt : j < i + 2 ^ k) :
    slot (2 ^ k) i ≠ slot (2 ^ k) j := by
  rw [slot_two_pow hk, slot_two_pow hk]
  intro h
  have hdvd : 2 ^ k ∣ j - i := (Nat.modEq_iff_dvd' hij.le).1 h
  have := Nat.le_of_dvd (by omega) hdvd
  omega

/-- A capacity whose `capacity & (capacity - 1)` is zero is zero or a power of two. -/
theorem eq_zero_or_two_pow {c : Nat} (hc : c < 2 ^ 64) (h : c &&& sub c 1 = 0) :
    c = 0 ∨ ∃ k, c = 2 ^ k := by
  rcases Nat.eq_zero_or_pos c with h0 | hpos
  · exact .inl h0
  · rw [sub_of_le hpos hc] at h
    exact .inr ((Nat.and_sub_one_eq_zero_iff_isPowerOfTwo hpos.ne').1 h)

section
variable {β : Type*} {f g : Nat → β} {lo mid hi : Nat}

/-- The values of `f` at the positions from `lo` up to `hi`, `hi` excluded. -/
def window (f : Nat → β) (lo hi : Nat) : List β := (List.range' lo (hi - lo)).map f

theorem window_of_ge (h : hi ≤ lo) : window f lo hi = [] := by
  simp [window, Nat.sub_eq_zero_of_le h]

@[simp] theorem length_window : (window f lo hi).length = hi - lo := by simp [window]

/-- A window is its first value and the rest. -/
theorem window_cons (h : lo < hi) : window f lo hi = f lo :: window f (lo + 1) hi := by
  rw [window, show hi - lo = (hi - (lo + 1)) + 1 by omega, List.range'_succ]
  rfl

/-- A window splits at any position in it. -/
theorem window_append (h₁ : lo ≤ mid) (h₂ : mid ≤ hi) :
    window f lo hi = window f lo mid ++ window f mid hi := by
  rw [window, show hi - lo = (mid - lo) + (hi - mid) by omega, ← List.range'_append_1,
    List.map_append, show lo + (mid - lo) = mid by omega]
  rfl

/-- A window is its values before the last, and its last value. -/
theorem window_snoc (h : lo ≤ hi) : window f lo (hi + 1) = window f lo hi ++ [f hi] := by
  rw [window_append h (Nat.le_succ hi), window_cons (Nat.lt_succ_self hi),
    window_of_ge (Nat.le_refl _)]

theorem window_congr (h : ∀ i, lo ≤ i → i < hi → f i = g i) : window f lo hi = window g lo hi := by
  refine List.map_congr_left fun i hi' => ?_
  rw [List.mem_range'_1] at hi'
  exact h i hi'.1 (by omega)

/-- A window that holds the values of a list is that list. -/
theorem window_eq_of_getElem {l : List β} (h : ∀ j (hj : j < l.length), f (lo + j) = l[j]) :
    window f lo (lo + l.length) = l := by
  refine List.ext_getElem (by simp) fun j h₁ h₂ => ?_
  simp [window, h j h₂]

end

end SizeT
