import JLibScheduler.Lib.SizeT

/-!
# The sizes of a pool

`GetSafeTC` and the first part of `StartPool` of `src/TaskScheduler.cpp`: the number of workers and
the numbers of fibers, from the core count that the system reports and the pool size that the caller
asks for. The core count is an `unsigned int`, and so are the products that give the numbers of
fibers.
-/

namespace JLibScheduler.TaskScheduler

/-- `GetSafeTC`. -/
def getSafeTC (cores : Nat) : Nat :=
  if cores = 0 then 1 else if cores = 1 then 1 else cores - 1

/-- `num_workers`. -/
def numWorkers (cores poolSize : Nat) : Nat :=
  let poolSize := if poolSize = 0 then getSafeTC cores else poolSize
  let poolSize := if getSafeTC cores < poolSize then getSafeTC cores else poolSize
  poolSize % 2 ^ 32

/-- `coreCount`: `hardware_concurrency() - 1`, with 4 in place of zero. -/
def coreCount (cores : Nat) : Nat :=
  let coreCount := (cores + 2 ^ 32 - 1) % 2 ^ 32
  if coreCount = 0 then 4 else coreCount

def standardFiberCount (cores : Nat) : Nat := coreCount cores * 64 % 2 ^ 32

def heavyFiberCount (cores : Nat) : Nat := coreCount cores * 8 % 2 ^ 32

section
variable {cores : Nat}

theorem getSafeTC_pos (cores : Nat) : 1 ≤ getSafeTC cores := by
  rw [getSafeTC]
  split_ifs <;> omega

theorem getSafeTC_lt (hcores : cores < 2 ^ 32) : getSafeTC cores < 2 ^ 32 - 1 := by
  rw [getSafeTC]
  split_ifs <;> omega

/-- A pool has at least one worker and at most as many as are safe. -/
theorem numWorkers_bounds (hcores : cores < 2 ^ 32) (poolSize : Nat) :
    1 ≤ numWorkers cores poolSize ∧ numWorkers cores poolSize ≤ getSafeTC cores := by
  have hpos := getSafeTC_pos cores
  have hlt := getSafeTC_lt hcores
  simp only [numWorkers]
  rw [Nat.mod_eq_of_lt (by split_ifs <;> omega)]
  split_ifs <;> omega

end

end JLibScheduler.TaskScheduler
