import Mathlib.Logic.Function.Basic
import Mathlib.Tactic.Ring

/-!
# Memory of bytes

A memory gives a byte to every address. `read` and `write` access a number of some bytes in
little-endian order; `Cells` says that numbers of the same size lie one after the other from an
address on. The rules say what is read after a write at the same place or at another one
(`read_write_self`, `read_write_of_disjoint`), and that what is read depends only on the bytes
there.
-/

namespace Memory

/-- A memory. -/
abbrev Mem := ℕ → UInt8

/-- The number in the `n` bytes from `a` on. -/
def read (m : Mem) (a : ℕ) : ℕ → ℕ
  | 0 => 0
  | n + 1 => (m a).toNat + 256 * read m (a + 1) n

/-- Write the last `n` bytes of a number from `a` on. -/
def write (m : Mem) (a : ℕ) : ℕ → ℕ → Mem
  | 0, _ => m
  | n + 1, v => Function.update (write m (a + 1) n (v / 256)) a (UInt8.ofNat (v % 256))

/-- The numbers `vs`, of `n` bytes each, lie one after the other from `a` on. -/
def Cells (m : Mem) (a n : ℕ) : List ℕ → Prop
  | [] => True
  | v :: vs => read m a n = v ∧ Cells m (a + n) n vs

section
variable {m m' : Mem} {a b n k v x : ℕ} {vs ws : List ℕ}

/-- A write leaves the bytes before and after it alone. -/
theorem write_apply (h : x < a ∨ a + n ≤ x) : write m a n v x = m x := by
  induction n generalizing a v with
  | zero => rfl
  | succ n ih =>
    rw [write, Function.update_of_ne (by omega)]
    exact ih (by omega)

theorem read_congr (h : ∀ x, a ≤ x → x < a + n → m x = m' x) : read m a n = read m' a n := by
  induction n generalizing a with
  | zero => rfl
  | succ n ih =>
    rw [read, read, h a (Nat.le_refl a) (by omega), ih fun x hl hr => h x (by omega) (by omega)]

theorem read_write_of_disjoint (h : a + n ≤ b ∨ b + k ≤ a) :
    read (write m b k v) a n = read m a n :=
  read_congr fun _ _ _ => write_apply (by omega)

theorem read_write_self (h : v < 256 ^ n) : read (write m a n v) a n = v := by
  induction n generalizing a v with
  | zero =>
    rw [pow_zero] at h
    simp only [read]
    omega
  | succ n ih =>
    have hrest : read (Function.update (write m (a + 1) n (v / 256)) a (UInt8.ofNat (v % 256)))
        (a + 1) n = v / 256 := by
      refine (read_congr fun x hx _ => Function.update_of_ne (by omega) _ _).trans (ih ?_)
      rw [pow_succ] at h
      omega
    have hbyte : (UInt8.ofNat (v % 256)).toNat = v % 256 := by
      rw [UInt8.toNat_ofNat']
      omega
    rw [read, write, Function.update_self, hrest, hbyte]
    omega

/-- A number is read in two parts. -/
theorem read_add : read m a (n + k) = read m a n + 256 ^ n * read m (a + n) k := by
  induction n generalizing a with
  | zero => simp [read]
  | succ n ih =>
    rw [Nat.succ_add, read, read, ih, pow_succ, show a + 1 + n = a + (n + 1) by omega]
    ring

theorem read_lt : read m a n < 256 ^ n := by
  induction n generalizing a with
  | zero => exact Nat.one_pos
  | succ n ih =>
    have hrest := ih (a := a + 1)
    have hbyte := (m a).toNat_lt
    rw [read, pow_succ]
    omega

/-! ## Cells -/

@[simp] theorem cells_nil : Cells m a n [] := trivial

theorem cells_cons : Cells m a n (v :: vs) ↔ read m a n = v ∧ Cells m (a + n) n vs := Iff.rfl

theorem Cells.congr (h : Cells m a n vs)
    (heq : ∀ x, a ≤ x → x < a + n * vs.length → m x = m' x) : Cells m' a n vs := by
  induction vs generalizing a with
  | nil => trivial
  | cons v vs ih =>
    have hlen : n * (v :: vs).length = n * vs.length + n := by
      rw [List.length_cons]
      ring
    rw [hlen] at heq
    refine ⟨?_, ih h.2 fun x hl hr => heq x (by omega) (by omega)⟩
    rw [← h.1]
    exact (read_congr fun x hl hr => heq x hl (by omega)).symm

theorem cells_append :
    Cells m a n (vs ++ ws) ↔ Cells m a n vs ∧ Cells m (a + n * vs.length) n ws := by
  induction vs generalizing a with
  | nil => simp
  | cons v vs ih =>
    have hlen : a + n + n * vs.length = a + n * (v :: vs).length := by
      rw [List.length_cons]
      ring
    rw [List.cons_append, cells_cons, cells_cons, ih, hlen, and_assoc]

/-- Cells that hold zero are cells of twice the size that hold zero. -/
theorem Cells.double (h : Cells m a n (List.replicate (2 * k) 0)) :
    Cells m a (n + n) (List.replicate k 0) := by
  induction k generalizing a with
  | zero => trivial
  | succ k ih =>
    rw [show 2 * (k + 1) = 2 * k + 1 + 1 by omega, List.replicate_succ, List.replicate_succ] at h
    obtain ⟨hlow, hhigh, hrest⟩ := h
    rw [List.replicate_succ]
    refine ⟨?_, ih (by rwa [← Nat.add_assoc])⟩
    rw [read_add, hlow, hhigh, Nat.mul_zero]

end

end Memory
