import JLibScheduler.Lib.SizeT
import JLibScheduler.TaskMPSCQueue.Whole
import JLibScheduler.TaskScheduler.Push

/-!
# `PushBatch`

`PushBatch` of `src/TaskScheduler.cpp:463-499` as a whole call on the `next` fields of the tasks and
the low priority inboxes. It links the tasks of the array, in a loop whose bound is the `size_t`
`count - 1`, adds to the counter, chooses a worker and pushes the linked tasks to its inbox. Unlike
`PushLocal` it keeps the choice in an `int`, and takes an affinity for an index without a check.

A call that reads outside of the array, or names a worker that does not exist, has no result. This
is so exactly when the array is empty or the affinity is greater than the number of workers
(`pushBatch_submits_iff`).
-/

namespace JLibScheduler.TaskScheduler

open TaskMPSCQueue

/-- The part of the scheduler that `PushBatch` uses, for `n` workers: the `next` fields of all
tasks, and each inbox with its stub and its ends. `pendingTasks` is the `int` of the source while it
stays below `2 ^ 31`. -/
structure BatchPool (n : Nat) (τ : Type) where
  immediateCoresInUse : Fin n → Bool
  nextWorker : Fin n
  pendingTasks : Nat
  next : τ → Option τ
  stub : Fin n → τ
  loPriInboxes : Fin n → Ends τ

section
variable {n : Nat} [NeZero n] {τ : Type} [DecidableEq τ]

/-- The loop that links the tasks of the array, for a number of turns from index `i` on; `none` when
it reads outside of the array. -/
def linkBatch (tasks : List τ) : ℕ → ℕ → (τ → Option τ) → Option (τ → Option τ)
  | 0, _, next => some next
  | turns + 1, i, next => do
    let task ← tasks[i]?
    let following ← tasks[i + 1]?
    linkBatch tasks turns (i + 1) (Function.update next task (some following))

/-- `while (immediateCoresInUse[chosen]) chosen = PickNextWorker();`, for a number of turns. -/
def awaitFree (inUse : Fin n → Bool) : ℕ → Fin n → Fin n → Option (Fin n × Fin n)
  | 0, _, _ => none
  | fuel + 1, chosen, nextWorker =>
    if inUse chosen then
      let (chosen, nextWorker) := pickNextWorker inUse nextWorker
      awaitFree inUse fuel chosen nextWorker
    else some (chosen, nextWorker)

/-- The worker that `PushBatch` chooses; `none` when it takes an index that no worker has, or more
turns than are allowed. -/
def chooseForBatch (inUse : Fin n → Bool) (nextWorker : Fin n) (fuel : ℕ) (cpuaffinity : UInt8) :
    Option (Fin n × Fin n) :=
  if cpuaffinity = 0 then
    let (chosen, nextWorker) := pickNextWorker inUse nextWorker
    awaitFree inUse fuel chosen nextWorker
  else if h : cpuaffinity.toNat - 1 < n then
    awaitFree inUse fuel ⟨cpuaffinity.toNat - 1, h⟩ nextWorker
  else none

/-- `PushBatch` of the tasks of an array of `count` elements. -/
def BatchPool.pushBatch (pool : BatchPool n τ) (fuel : ℕ) (tasks : List τ) (cpuaffinity : UInt8) :
    Option (BatchPool n τ) := do
  let count := tasks.length
  let next ← linkBatch tasks (SizeT.sub count 1) 0 pool.next
  let (chosen, nextWorker) ←
    chooseForBatch pool.immediateCoresInUse pool.nextWorker fuel cpuaffinity
  let first ← tasks[0]?
  let last ← tasks[SizeT.sub count 1]?
  let (next, inbox) := TaskMPSCQueue.pushBatch next (pool.loPriInboxes chosen) first last
  some { pool with
    nextWorker
    pendingTasks := pool.pendingTasks + count
    next
    loPriInboxes := Function.update pool.loPriInboxes chosen inbox }

/-- Each inbox holds its tasks of `ls`, and no task is in two inboxes. -/
structure BatchPool.Holds (pool : BatchPool n τ) (ls : Fin n → List τ) : Prop where
  holds : ∀ w, TaskMPSCQueue.Holds (pool.stub w) pool.next (pool.loPriInboxes w) (ls w)
  separate : ∀ w w', w ≠ w' → (pool.stub w :: ls w).Disjoint (pool.stub w' :: ls w')

/-- The worker of the affinity, if there is one and it is free, and else the choice of the round
robin. -/
def BatchPool.place (pool : BatchPool n τ) (cpuaffinity : UInt8) : Fin n :=
  if h : cpuaffinity.toNat - 1 < n ∧ 0 < cpuaffinity.toNat then
    if pool.immediateCoresInUse ⟨cpuaffinity.toNat - 1, h.1⟩ then
      (pickNextWorker pool.immediateCoresInUse pool.nextWorker).1
    else ⟨cpuaffinity.toNat - 1, h.1⟩
  else (pickNextWorker pool.immediateCoresInUse pool.nextWorker).1

/-- The batch is counted and is in order in one inbox, that of a free worker; the other inboxes and
the flags are as they were, and pops of the worker give the tasks that were there and then the
batch. -/
structure BatchPool.Submits (pool : BatchPool n τ) (ls : Fin n → List τ) (tasks : List τ)
    (cpuaffinity : UInt8) (pool' : BatchPool n τ) : Prop where
  free : pool.immediateCoresInUse (pool.place cpuaffinity) = false
  flags : pool'.immediateCoresInUse = pool.immediateCoresInUse
  pending : pool'.pendingTasks = pool.pendingTasks + tasks.length
  stubs : pool'.stub = pool.stub
  holds : pool'.Holds (Function.update ls (pool.place cpuaffinity)
    (ls (pool.place cpuaffinity) ++ tasks))
  pops : pops (pool'.stub (pool.place cpuaffinity)) pool'.next
      (pool'.loPriInboxes (pool.place cpuaffinity))
      ((ls (pool.place cpuaffinity) ++ tasks).length + 1) =
    (ls (pool.place cpuaffinity) ++ tasks).map some ++ [none]

/-! ## The links -/

variable {inUse : Fin n → Bool} {next : τ → Option τ} {tasks l b : List τ}

omit [NeZero n] in
/-- The loop from the task behind `l` on links the tasks of `b` in order, and writes no other
task. -/
theorem linkBatch_spec (l : List τ) (next : τ → Option τ) (hb : b ≠ []) (hnodup : b.Nodup) :
    ∃ next', linkBatch (l ++ b) (b.length - 1) l.length next = some next' ∧
      Linked (Function.update next' (b.getLast hb) none) b ∧ ∀ x ∉ b, next' x = next x := by
  induction b generalizing l next with
  | nil => exact absurd rfl hb
  | cons x b ih =>
    cases b with
    | nil => exact ⟨next, rfl, Function.update_self .., fun x _ => rfl⟩
    | cons y b =>
      rw [List.nodup_cons] at hnodup
      obtain ⟨next', hlink, hlinked, hother⟩ := ih (l ++ [x])
        (Function.update next x (some y)) (List.cons_ne_nil y b) hnodup.2
      have hx : (l ++ x :: y :: b)[l.length]? = some x := by simp
      have hy : (l ++ x :: y :: b)[l.length + 1]? = some y := by
        rw [List.getElem?_append_right (by omega)]
        simp
      have hne : x ≠ (y :: b).getLast (List.cons_ne_nil y b) := fun heq =>
        hnodup.1 (heq ▸ List.getLast_mem _)
      refine ⟨next', ?_, ⟨?_, ?_⟩, fun z hz => ?_⟩
      · rw [List.append_assoc, List.singleton_append, List.length_append, List.length_singleton]
          at hlink
        simp only [List.length_cons, Nat.add_sub_cancel] at hlink ⊢
        rw [linkBatch, hx, hy]
        exact hlink
      · rw [List.getLast_cons (List.cons_ne_nil y b), Function.update_of_ne hne,
          hother x hnodup.1, Function.update_self]
      · rw [List.getLast_cons (List.cons_ne_nil y b)]
        exact hlinked
      · rw [List.mem_cons, not_or] at hz
        rw [hother z hz.2, Function.update_of_ne hz.1]

/-! ## The choice -/

omit [DecidableEq τ] in
/-- When some worker is free, the picked one is. -/
theorem pickNextWorker_free (hfree : ∃ w, inUse w = false) (next : Fin n) :
    inUse (pickNextWorker inUse next).1 = false := by
  rcases pickNextWorker_cases inUse next with ⟨i, hi, -, hpick⟩ | ⟨hall, -⟩
  · rw [hpick]
    exact hi
  · obtain ⟨w, hw⟩ := hfree
    rw [hall] at hw
    cases hw

omit [DecidableEq τ] in
/-- The loop never ends while all workers are in use. -/
theorem awaitFree_eq_none (hall : ∀ w, inUse w = true) (fuel : ℕ) (chosen next : Fin n) :
    awaitFree inUse fuel chosen next = none := by
  induction fuel generalizing chosen next with
  | zero => rfl
  | succ fuel ih =>
    rw [awaitFree, if_pos (hall chosen)]
    exact ih _ _

omit [DecidableEq τ] in
theorem awaitFree_of_free {chosen : Fin n} (hfree : inUse chosen = false) (fuel : ℕ)
    (next : Fin n) : awaitFree inUse (fuel + 1) chosen next = some (chosen, next) := by
  rw [awaitFree, if_neg (by simp [hfree])]

omit [DecidableEq τ] in
/-- From a worker in use the loop ends after one call of `PickNextWorker`. -/
theorem awaitFree_of_inUse {chosen : Fin n} (hused : inUse chosen = true)
    (hfree : ∃ w, inUse w = false) (fuel : ℕ) (next : Fin n) :
    awaitFree inUse (fuel + 2) chosen next = some (pickNextWorker inUse next) := by
  rw [awaitFree, if_pos hused]
  exact awaitFree_of_free (pickNextWorker_free hfree next) fuel _

theorem toNat_pos_of_ne_zero {a : UInt8} (h : a ≠ 0) : 0 < a.toNat := by
  refine Nat.pos_of_ne_zero fun hzero => h ?_
  rw [← UInt8.toNat_inj, hzero]
  rfl

omit [DecidableEq τ] in
/-- When some worker is free, the choice ends exactly for an affinity that is zero or names a
worker. -/
theorem chooseForBatch_spec (pool : BatchPool n τ) (cpuaffinity : UInt8)
    (hfree : ∃ w, pool.immediateCoresInUse w = false) (hle : cpuaffinity.toNat ≤ n) :
    ∃ next', chooseForBatch pool.immediateCoresInUse pool.nextWorker 2 cpuaffinity =
      some (pool.place cpuaffinity, next') := by
  have hpick := pickNextWorker_free hfree pool.nextWorker
  by_cases hzero : cpuaffinity = 0
  · subst hzero
    have hplace : pool.place 0 = (pickNextWorker pool.immediateCoresInUse pool.nextWorker).1 :=
      dif_neg fun h => absurd h.2 (by decide)
    rw [hplace]
    exact ⟨_, awaitFree_of_free hpick 1 _⟩
  · have hpos := toNat_pos_of_ne_zero hzero
    have hlt : cpuaffinity.toNat - 1 < n := by omega
    rw [chooseForBatch, if_neg hzero, dif_pos hlt, BatchPool.place, dif_pos ⟨hlt, hpos⟩]
    by_cases hused : pool.immediateCoresInUse ⟨cpuaffinity.toNat - 1, hlt⟩ = true
    · rw [if_pos hused]
      exact ⟨_, awaitFree_of_inUse hused hfree 0 _⟩
    · rw [if_neg hused]
      exact ⟨_, awaitFree_of_free (by simpa using hused) 1 _⟩

omit [DecidableEq τ] in
theorem chooseForBatch_eq_none {cpuaffinity : UInt8} {next : Fin n}
    (h : ¬ ((∃ w, inUse w = false) ∧ cpuaffinity.toNat ≤ n)) (fuel : ℕ) :
    chooseForBatch inUse next fuel cpuaffinity = none := by
  by_cases hall : ∀ w, inUse w = true
  · rw [chooseForBatch]
    split_ifs
    · exact awaitFree_eq_none hall _ _ _
    · exact awaitFree_eq_none hall _ _ _
    · rfl
  · push Not at hall
    obtain ⟨w, hw⟩ := hall
    have hlt : ¬ cpuaffinity.toNat ≤ n := fun hle => h ⟨⟨w, by simpa using hw⟩, hle⟩
    rw [chooseForBatch, if_neg ?_, dif_neg (by omega)]
    rintro rfl
    exact hlt (Nat.zero_le _)

omit [DecidableEq τ] in
/-- The worker of the place is free when some worker is. -/
theorem BatchPool.place_free (pool : BatchPool n τ) (cpuaffinity : UInt8)
    (hfree : ∃ w, pool.immediateCoresInUse w = false) :
    pool.immediateCoresInUse (pool.place cpuaffinity) = false := by
  have hpick := pickNextWorker_free hfree pool.nextWorker
  unfold BatchPool.place
  split_ifs with h hused
  · exact hpick
  · simpa using hused
  · exact hpick

/-! ## The call -/

/-- The loop of an empty array reads its first element. -/
theorem pushBatch_nil (pool : BatchPool n τ) (fuel : ℕ) (cpuaffinity : UInt8) :
    pool.pushBatch fuel [] cpuaffinity = none := by
  have hturns : SizeT.sub 0 1 = (2 ^ 64 - 2) + 1 := by decide
  rw [BatchPool.pushBatch, List.length_nil, hturns, linkBatch]
  rfl

/-- No call ends while all workers are in use, or with an affinity that no worker has. -/
theorem pushBatch_eq_none {pool : BatchPool n τ} {cpuaffinity : UInt8}
    (h : ¬ ((∃ w, pool.immediateCoresInUse w = false) ∧ cpuaffinity.toNat ≤ n)) {fuel : ℕ} :
    pool.pushBatch fuel tasks cpuaffinity = none := by
  rw [BatchPool.pushBatch, chooseForBatch_eq_none h]
  cases linkBatch tasks (SizeT.sub tasks.length 1) 0 pool.next with
  | none => rfl
  | some next => rfl

/-- A call with a batch and an affinity that names a worker or none submits the batch. -/
theorem pushBatch_spec (pool : BatchPool n τ) {ls : Fin n → List τ} (hpool : pool.Holds ls)
    (hfree : ∃ w, pool.immediateCoresInUse w = false) (hb : tasks ≠ []) (hnodup : tasks.Nodup)
    (hnew : ∀ x ∈ tasks, ∀ w, x ≠ pool.stub w ∧ x ∉ ls w) (hcount : tasks.length < 2 ^ 64)
    {cpuaffinity : UInt8} (hle : cpuaffinity.toNat ≤ n) :
    ∃ pool', pool.pushBatch 2 tasks cpuaffinity = some pool' ∧
      pool.Submits ls tasks cpuaffinity pool' := by
  obtain ⟨next', hchoose⟩ := chooseForBatch_spec pool cpuaffinity hfree hle
  obtain ⟨next, hlink, hlinked, hother⟩ :=
    linkBatch_spec [] pool.next hb hnodup
  rw [List.nil_append, List.length_nil] at hlink
  have hlength : 1 ≤ tasks.length := List.length_pos_of_ne_nil hb
  have hfirst : tasks[0]? = some (tasks.head hb) := by
    rw [← List.head?_eq_getElem?, List.head?_eq_some_head hb]
  have hlast : tasks[tasks.length - 1]? = some (tasks.getLast hb) := by
    rw [← List.getLast?_eq_getElem?, List.getLast?_eq_some_getLast hb]
  let w := pool.place cpuaffinity
  let pushed := TaskMPSCQueue.pushBatch next (pool.loPriInboxes w) (tasks.head hb)
    (tasks.getLast hb)
  let pool' : BatchPool n τ :=
    { pool with
      nextWorker := next'
      pendingTasks := pool.pendingTasks + tasks.length
      next := pushed.1
      loPriInboxes := Function.update pool.loPriInboxes w pushed.2 }
  -- the tasks of the other inboxes, and those of this one, are not written by the links
  have hkeep : ∀ x, TaskMPSCQueue.Holds (pool.stub x) next (pool.loPriInboxes x) (ls x) := by
    intro x
    refine (hpool.holds x).congr (hother _ fun hmem => ?_) fun y hy => hother y fun hmem => ?_
    · exact (hnew _ hmem x).1 rfl
    · exact (hnew y hmem x).2 hy
  have hnodup' : (ls w ++ tasks).Nodup := by
    refine List.nodup_append'.2 ⟨(hpool.holds w).nodup, hnodup, fun y hy hmem => ?_⟩
    exact (hnew y hmem w).2 hy
  have hstub : pool.stub w ∉ tasks := fun hmem => (hnew _ hmem w).1 rfl
  have hinbox : TaskMPSCQueue.Holds (pool.stub w) pushed.1 pushed.2 (ls w ++ tasks) :=
    (hkeep w).pushBatch hlinked (List.head?_eq_some_head hb) (List.getLast?_eq_some_getLast hb)
      hnodup' hstub
  -- the push writes the last task of the batch and the last node of the inbox
  have hwrite : ∀ x, x ≠ w → ∀ y ∈ pool.stub x :: ls x, pushed.1 y = next y := by
    intro x hx y hy
    have hhead : y ≠ (pool.loPriInboxes w).head := by
      rintro rfl
      have hmem := (hpool.holds w).head_mem
      exact hpool.separate x w hx hy (List.mem_cons.2 hmem)
    have htask : y ≠ tasks.getLast hb := by
      rintro rfl
      rcases List.mem_cons.1 hy with hy | hy
      · exact (hnew _ (List.getLast_mem hb) x).1 hy
      · exact (hnew _ (List.getLast_mem hb) x).2 hy
    simp only [pushed, TaskMPSCQueue.pushBatch]
    rw [Function.update_of_ne hhead, Function.update_of_ne htask]
  have hholds : pool'.Holds (Function.update ls w (ls w ++ tasks)) := by
    refine ⟨fun x => ?_, fun x x' hx => ?_⟩
    · by_cases hxw : x = w
      · subst hxw
        simp only [pool', Function.update_self]
        exact hinbox
      · simp only [pool', Function.update_of_ne hxw]
        exact (hkeep x).congr (hwrite x hxw _ (.head _)) fun y hy =>
          hwrite x hxw y (.tail _ hy)
    · have hsep := hpool.separate x x' hx
      by_cases hxw : x = w
      · subst hxw
        rw [Function.update_self, Function.update_of_ne (Ne.symm hx), ← List.cons_append]
        refine List.disjoint_append_left.2 ⟨hsep, fun y hy hmem => ?_⟩
        rcases List.mem_cons.1 hmem with rfl | hmem
        · exact (hnew _ hy x').1 rfl
        · exact (hnew y hy x').2 hmem
      · rw [Function.update_of_ne hxw]
        by_cases hxw' : x' = w
        · subst hxw'
          rw [Function.update_self, ← List.cons_append]
          refine List.disjoint_append_right.2 ⟨hsep, fun y hmem hy => ?_⟩
          rcases List.mem_cons.1 hmem with rfl | hmem
          · exact (hnew _ hy x).1 rfl
          · exact (hnew y hy x).2 hmem
        · rw [Function.update_of_ne hxw']
          exact hsep
  refine ⟨pool', ?_, pool.place_free cpuaffinity hfree, rfl, rfl, rfl, hholds, ?_⟩
  · rw [BatchPool.pushBatch, SizeT.sub_of_le hlength hcount, hlink, hchoose]
    simp only [Option.bind_eq_bind, Option.bind_some, hfirst, hlast]
    rfl
  · have hpops := (hholds.holds w).pops_eq
    rwa [Function.update_self] at hpops

/-- `PushBatch` of distinct tasks that are in no inbox, when some worker is free, submits the batch
exactly when there is one and the affinity is not greater than the number of workers. -/
theorem pushBatch_submits_iff (pool : BatchPool n τ) (ls : Fin n → List τ) (hpool : pool.Holds ls)
    (hfree : ∃ w, pool.immediateCoresInUse w = false) (tasks : List τ) (hnodup : tasks.Nodup)
    (hnew : ∀ x ∈ tasks, ∀ w, x ≠ pool.stub w ∧ x ∉ ls w) (hcount : tasks.length < 2 ^ 64)
    (cpuaffinity : UInt8) :
    (∃ fuel pool', pool.pushBatch fuel tasks cpuaffinity = some pool' ∧
      pool.Submits ls tasks cpuaffinity pool') ↔ tasks ≠ [] ∧ cpuaffinity.toNat ≤ n := by
  constructor
  · rintro ⟨fuel, pool', hpush, -⟩
    refine ⟨?_, ?_⟩
    · rintro rfl
      rw [pushBatch_nil] at hpush
      cases hpush
    · by_contra hlt
      rw [pushBatch_eq_none fun h => hlt h.2] at hpush
      cases hpush
  · rintro ⟨hb, hle⟩
    obtain ⟨pool', hpush, hsubmits⟩ := pushBatch_spec pool hpool hfree hb hnodup hnew hcount hle
    exact ⟨2, pool', hpush, hsubmits⟩

/-- Two workers with empty inboxes; task 0 and task 1 are the stubs. -/
def emptyInboxes (nextWorker : Fin 2) : BatchPool 2 Nat where
  immediateCoresInUse := fun _ => false
  nextWorker
  pendingTasks := 0
  next := fun _ => none
  stub := fun w => w.val
  loPriInboxes := fun w => ⟨w.val, w.val⟩

theorem holds_emptyInboxes : (emptyInboxes 0).Holds fun _ => [] where
  holds w := ⟨List.not_mem_nil, List.nodup_nil, [w.val], .inl rfl, rfl, rfl, rfl⟩
  separate w w' hne := by
    refine List.disjoint_singleton.2 fun hmem => hne (Fin.ext ?_)
    exact (List.mem_singleton.1 hmem).symm

theorem pushBatch_submits_iff_three : ∃ fuel pool',
    (emptyInboxes 0).pushBatch fuel [5, 6, 7] 2 = some pool' ∧
      (emptyInboxes 0).Submits (fun _ => []) [5, 6, 7] 2 pool' :=
  (pushBatch_submits_iff (emptyInboxes 0) (fun _ => []) holds_emptyInboxes ⟨0, rfl⟩ [5, 6, 7]
    (by decide) (by decide) (by decide) 2).2 ⟨by decide, by decide⟩

/-- An empty batch reads outside of the array. -/
theorem not_submits_nil : ¬ ∀ (n : Nat) (_ : NeZero n) (pool : BatchPool n Nat)
    (ls : Fin n → List Nat), pool.Holds ls → (∃ w, pool.immediateCoresInUse w = false) →
    ∀ tasks : List Nat, tasks.Nodup → (∀ x ∈ tasks, ∀ w, x ≠ pool.stub w ∧ x ∉ ls w) →
    ∀ cpuaffinity : UInt8, ∃ fuel pool', pool.pushBatch fuel tasks cpuaffinity = some pool' ∧
      pool.Submits ls tasks cpuaffinity pool' := by
  intro h
  obtain ⟨fuel, pool', hpush, -⟩ := h 2 inferInstance (emptyInboxes 0) (fun _ => [])
    holds_emptyInboxes ⟨0, rfl⟩ [] (by decide) (by decide) 0
  rw [pushBatch_nil] at hpush
  cases hpush

end

end JLibScheduler.TaskScheduler
