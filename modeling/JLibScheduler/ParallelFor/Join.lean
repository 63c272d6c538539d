import JLibScheduler.Lib.Sums
import JLibScheduler.ParallelFor.Basic

/-!
# The join of `ParallelForFJ`

The count of the group is the number of spawned tasks whose completion has not been counted, and a
task counts the tasks it spawns before it is completed itself. So once the caller has done its own
part of the tree, a count of zero means that the whole tree is done, and it stays zero. `Inv` says
this of every state, with the rules for groups with one caller (`WaitGroup.JoinOk`); the join
theorem is `parallelForFJ_join`.
-/

namespace JLibScheduler.ParallelFor

open WaitGroup (OneCallerOk)

/-- The task that a run of `rec` has created and not pushed. -/
def RecPc.child? : RecPc → Option ℕ
  | .count _ _ _ k | .push _ _ _ k => some k
  | _ => none

/-- The caller still counts tasks. -/
def CallerPc.opn : CallerPc → Bool
  | .entry | .small | .splitting _ => true
  | _ => false

/-- The caller has left. -/
def CallerPc.ret : CallerPc → Bool
  | .returned => true
  | _ => false

section
variable {δ ω : Type}

/-- The caller (`none`) or task `k` is in a run of `rec` at `p`. -/
def State.Runs (s : State δ ω) (x : Option ℕ) (p : RecPc) : Prop :=
  match x with
  | none => s.caller = .splitting p
  | some k => s.tasks[k]? = some (.running p)

/-- The run of `rec` of the caller or of task `k` moves on. -/
def State.setRec (s : State δ ω) (x : Option ℕ) (p : RecPc) : State δ ω :=
  match x with
  | none => { s with caller := .splitting p }
  | some k => s.setTask k (.running p)

/-- The task is not in a run of `rec`. -/
def TaskPc.still : TaskPc → Bool
  | .running _ => false
  | _ => true

/-- The task is not about to be counted or pushed, and is not at a task that it is about to count or
push itself. -/
def TaskPc.calm : TaskPc → Bool
  | .created _ _ | .counted _ _ => false
  | .running p => p.child?.isNone
  | _ => true

variable {s s' : State δ ω} {x y : Option ℕ} {p q r : RecPc} {k : ℕ}

theorem State.Runs.unique (h : s.Runs x p) (h' : s.Runs x q) : p = q := by
  cases x <;> simp only [State.Runs] at h h' <;> rw [h] at h' <;> simpa using h'

theorem runs_setRec (h : s.Runs x p) :
    (s.setRec x q).Runs y r ↔ y = x ∧ r = q ∨ y ≠ x ∧ s.Runs y r := by
  cases x <;> cases y <;>
    simp only [State.Runs, State.setRec, State.setTask] at h ⊢ <;> grind

theorem tasks_setRec (h : s.Runs x p) {u : TaskPc} (hu : u.still = true) :
    (s.setRec x q).tasks[k]? = some u ↔ s.tasks[k]? = some u := by
  cases x with
  | none => rfl
  | some j =>
    simp only [State.Runs, State.setRec, State.setTask] at h ⊢
    grind [TaskPc.still]

/-- A task that is in no run of `rec` changes. -/
theorem runs_setTask {u v : TaskPc} (h : s.tasks[k]? = some u) (hu : u.still = true)
    (hv : v.still = true) : (s.setTask k v).Runs y r ↔ s.Runs y r := by
  cases y with
  | none => rfl
  | some j =>
    simp only [State.Runs, State.setTask]
    grind [TaskPc.still]

/-- The tasks and the runs of `rec` agree. -/
structure TreeOk (s : State δ ω) : Prop where
  count : ∀ x a mid b k, s.Runs x (.count a mid b k) → s.tasks[k]? = some (.created mid b)
  push : ∀ x a mid b k, s.Runs x (.push a mid b k) → s.tasks[k]? = some (.counted mid b)
  created : ∀ k a b, s.tasks[k]? = some (.created a b) → ∃ x p, s.Runs x p ∧ p.child? = some k
  distinct : ∀ x y p q k, s.Runs x p → s.Runs y q → p.child? = some k → q.child? = some k → x = y

/-- The rule for a step of the run `x` of `rec` from `p` to `q`: what it says about the new task of
`x` is to be shown, and about the other tasks that nothing changed. -/
theorem TreeOk.move (h : TreeOk s) (hx : s.Runs x p) (hx' : s'.Runs x q)
    (hothers : ∀ y r, y ≠ x → (s'.Runs y r ↔ s.Runs y r))
    (htasks : ∀ j u, u.still = true → p.child? ≠ some j → q.child? ≠ some j →
      (s'.tasks[j]? = some u ↔ s.tasks[j]? = some u))
    (hcount : ∀ a mid b k, q = .count a mid b k → s'.tasks[k]? = some (.created mid b))
    (hpush : ∀ a mid b k, q = .push a mid b k → s'.tasks[k]? = some (.counted mid b))
    (hold : ∀ k, p.child? = some k → q.child? = none → ∀ a b, s'.tasks[k]? ≠ some (.created a b))
    (hnew : ∀ k, q.child? = some k → p.child? = some k ∨ s.tasks[k]? = none)
    (hkeep : ∀ k j, p.child? = some k → q.child? = some j → k = j) : TreeOk s' := by
  have hchild (y : Option ℕ) (r : RecPc) (k : ℕ) (hy : s.Runs y r) (hr : r.child? = some k) :
      ∃ u, s.tasks[k]? = some u ∧ u.still = true := by
    cases r with
    | count a mid b j =>
      cases hr
      exact ⟨_, h.count y a mid b _ hy, rfl⟩
    | push a mid b j =>
      cases hr
      exact ⟨_, h.push y a mid b _ hy, rfl⟩
    | _ => cases hr
  -- another run of `rec` has neither the old nor the new task of `x`
  have hapart (y : Option ℕ) (r : RecPc) (k : ℕ) (hne : y ≠ x) (hy : s.Runs y r)
      (hr : r.child? = some k) : p.child? ≠ some k ∧ q.child? ≠ some k := by
    have hp : p.child? ≠ some k := fun hp => hne (h.distinct y x r p k hy hx hr hp)
    refine ⟨hp, fun hq => ?_⟩
    obtain ⟨u, hu, -⟩ := hchild y r k hy hr
    rcases hnew k hq with hp' | hnone
    · exact hp hp'
    · rw [hnone] at hu
      cases hu
  constructor
  · intro y a mid b k hy
    by_cases hne : y = x
    · subst hne
      exact hcount a mid b k (hx'.unique hy)
    · rw [hothers y _ hne] at hy
      obtain ⟨hp, hq⟩ := hapart y _ k hne hy rfl
      rw [htasks k _ rfl hp hq]
      exact h.count y a mid b k hy
  · intro y a mid b k hy
    by_cases hne : y = x
    · subst hne
      exact hpush a mid b k (hx'.unique hy)
    · rw [hothers y _ hne] at hy
      obtain ⟨hp, hq⟩ := hapart y _ k hne hy rfl
      rw [htasks k _ rfl hp hq]
      exact h.push y a mid b k hy
  · intro k a b hk
    by_cases hq : q.child? = some k
    · exact ⟨x, q, hx', hq⟩
    · by_cases hp : p.child? = some k
      · cases hqc : q.child? with
        | none => exact absurd hk (hold k hp hqc a b)
        | some j => exact absurd (hqc.trans (congrArg some (hkeep k j hp hqc).symm)) hq
      · rw [htasks k _ rfl hp hq] at hk
        obtain ⟨y, r, hy, hr⟩ := h.created k a b hk
        have hne : y ≠ x := by
          rintro rfl
          rw [hy.unique hx] at hr
          exact hp hr
        exact ⟨y, r, (hothers y r hne).2 hy, hr⟩
  · intro y z r r' k hy hz hr hr'
    by_cases hyx : y = x <;> by_cases hzx : z = x
    · rw [hyx, hzx]
    · subst hyx
      rw [hothers z _ hzx] at hz
      rw [hy.unique hx'] at hr
      exact absurd hr (hapart z r' k hzx hz hr').2
    · subst hzx
      rw [hothers y _ hyx] at hy
      rw [hz.unique hx'] at hr'
      exact absurd hr' (hapart y r k hyx hy hr).2
    · rw [hothers y _ hyx] at hy
      rw [hothers z _ hzx] at hz
      exact h.distinct y z r r' k hy hz hr hr'

/-- It is about tasks that are not pushed, and about runs of `rec` that have one. -/
theorem TreeOk.congr (h : TreeOk s)
    (hruns : ∀ y r, r.child? ≠ none → (s'.Runs y r ↔ s.Runs y r))
    (hcreated : ∀ (j : ℕ) (a b : BitVec 32),
      s'.tasks[j]? = some (TaskPc.created a b) ↔ s.tasks[j]? = some (TaskPc.created a b))
    (hcounted : ∀ (j : ℕ) (a b : BitVec 32),
      s'.tasks[j]? = some (TaskPc.counted a b) ↔ s.tasks[j]? = some (TaskPc.counted a b)) :
    TreeOk s' := by
  constructor
  · intro y a mid b k hy
    rw [hcreated]
    exact h.count y a mid b k ((hruns y _ (by simp [RecPc.child?])).1 hy)
  · intro y a mid b k hy
    rw [hcounted]
    exact h.push y a mid b k ((hruns y _ (by simp [RecPc.child?])).1 hy)
  · intro k a b hk
    rw [hcreated] at hk
    obtain ⟨y, r, hy, hr⟩ := h.created k a b hk
    exact ⟨y, r, (hruns y r (by simp [hr])).2 hy, hr⟩
  · intro y z r r' k hy hz hr hr'
    rw [hruns y r (by simp [hr])] at hy
    rw [hruns z r' (by simp [hr'])] at hz
    exact h.distinct y z r r' k hy hz hr hr'

theorem State.Runs.setRec (h : s.Runs x p) (q : RecPc) : (s.setRec x q).Runs x q := by
  rw [runs_setRec h]
  exact .inl ⟨rfl, rfl⟩

/-- A run of `rec` moves on between tasks. -/
theorem TreeOk.setRec (h : TreeOk s) (hx : s.Runs x p) (hp : p.child? = none)
    (hq : q.child? = none) : TreeOk (s.setRec x q) := by
  refine h.move hx (hx.setRec q) (fun y r hne => ?_) (fun j u hu _ _ => tasks_setRec hx hu)
    ?_ ?_ ?_ ?_ ?_
  · rw [runs_setRec hx]
    simp [hne]
  · rintro a mid b k rfl
    cases hq
  · rintro a mid b k rfl
    cases hq
  · simp [hp]
  · simp [hq]
  · simp [hp]

/-- A run of `rec` creates a task. -/
theorem TreeOk.create (h : TreeOk s) (hx : s.Runs x p) (hp : p.child? = none)
    (a mid b : BitVec 32) : TreeOk ({ s with tasks := s.tasks ++ [TaskPc.created mid b] }.setRec x
      (.count a mid b s.tasks.length)) := by
  have hx₁ : ({ s with tasks := s.tasks ++ [TaskPc.created mid b] } : State δ ω).Runs x p := by
    cases x with
    | none => exact hx
    | some j =>
      simp only [State.Runs] at hx ⊢
      grind
  refine h.move hx (hx₁.setRec _) (fun y r hne => ?_) (fun j u hu _ hj => ?_) ?_ ?_ ?_ ?_ ?_
  · rw [runs_setRec hx₁]
    cases y with
    | none => simp [hne, State.Runs]
    | some j =>
      simp only [State.Runs]
      grind
  · rw [tasks_setRec hx₁ hu]
    have hj : s.tasks.length ≠ j := by simpa [RecPc.child?] using hj
    grind
  · rintro a' mid' b' k' ⟨⟩
    rw [tasks_setRec hx₁ rfl]
    simp
  · rintro a' mid' b' k' ⟨⟩
  · simp [hp]
  · rintro k' ⟨⟩
    exact .inr (by simp)
  · simp [hp]

/-- A run of `rec` counts its new task. -/
theorem TreeOk.counts (h : TreeOk s) {a mid b : BitVec 32} (hx : s.Runs x (.count a mid b k))
    (group : WaitGroup.State Unit δ ω ℕ) :
    TreeOk ({ s.setTask k (.counted mid b) with group }.setRec x (.push a mid b k)) := by
  have hk := h.count x a mid b k hx
  have hruns (y : Option ℕ) (r : RecPc) :
      State.Runs { s.setTask k (.counted mid b) with group } y r ↔ s.Runs y r :=
    runs_setTask (v := .counted mid b) hk rfl rfl
  have hx₁ := (hruns x _).2 hx
  have hlt : k < s.tasks.length := by
    rw [List.getElem?_eq_some_iff] at hk
    exact hk.1
  refine h.move hx (hx₁.setRec _) (fun y r hne => ?_) (fun j u hu hj _ => ?_) ?_ ?_ ?_ ?_ ?_
  · rw [runs_setRec hx₁, hruns]
    simp [hne]
  · rw [tasks_setRec hx₁ hu]
    have hj : k ≠ j := by simpa [RecPc.child?] using hj
    simp [State.setTask, List.getElem?_set_ne hj]
  · rintro a' mid' b' k' ⟨⟩
  · rintro a' mid' b' k' ⟨⟩
    rw [tasks_setRec hx₁ rfl]
    simp [State.setTask, hlt]
  · simp [RecPc.child?]
  · rintro k' ⟨⟩
    exact .inl rfl
  · rintro k' j ⟨⟩ ⟨⟩
    rfl

/-- A run of `rec` pushes its new task. -/
theorem TreeOk.pushes (h : TreeOk s) {a mid b : BitVec 32} (hx : s.Runs x (.push a mid b k)) :
    TreeOk ((s.setTask k (.queued mid b)).setRec x (.loop a mid)) := by
  have hk := h.push x a mid b k hx
  have hruns (y : Option ℕ) (r : RecPc) : (s.setTask k (.queued mid b)).Runs y r ↔ s.Runs y r :=
    runs_setTask hk rfl rfl
  have hx₁ := (hruns x _).2 hx
  have hlt : k < s.tasks.length := by
    rw [List.getElem?_eq_some_iff] at hk
    exact hk.1
  refine h.move hx (hx₁.setRec _) (fun y r hne => ?_) (fun j u hu hj _ => ?_) ?_ ?_ ?_ ?_ ?_
  · rw [runs_setRec hx₁, hruns]
    simp [hne]
  · rw [tasks_setRec hx₁ hu]
    have hj : k ≠ j := by simpa [RecPc.child?] using hj
    simp [State.setTask, List.getElem?_set_ne hj]
  · rintro a' mid' b' k' ⟨⟩
  · rintro a' mid' b' k' ⟨⟩
  · rintro k' ⟨⟩ - a' b'
    rw [Ne, tasks_setRec hx₁ rfl]
    simp [State.setTask, hlt]
  · rintro k' ⟨⟩
  · rintro k' j ⟨⟩ ⟨⟩

/-- What holds of every state of a call. -/
structure Inv (c : Call) (s : State δ ω) : Prop where
  group : OneCallerOk s.group s.caller.opn s.caller.ret
  counted : s.group.counted = s.tasks.countP TaskPc.isCounted
  live : s.tasks.countP TaskPc.live ≤ capacity
  tree : TreeOk s
  thread : c.fiber = false → s.group.fibers.events.stage () = .out
  small : s.caller = .entry ∨ s.caller = .small → s.tasks = []

theorem Inv.init {c : Call} {pool : List δ} (hpool : pool.Nodup) :
    Inv c (State.init pool : State δ ω) where
  group := OneCallerOk.init hpool
  counted := rfl
  live := Nat.zero_le _
  tree := by
    constructor
    · intro y a mid b k hy
      cases y <;> simp [State.init, State.Runs] at hy
    · intro y a mid b k hy
      cases y <;> simp [State.init, State.Runs] at hy
    · intro k a b hk
      simp [State.init] at hk
    · intro y z r r' k hy
      cases y <;> simp [State.init, State.Runs] at hy
  thread _ := rfl
  small _ := rfl

/-- The allocator keeps the count below the flag. -/
theorem Inv.counted_lt {c : Call} (h : Inv c s) : s.group.counted < 2 ^ 30 := by
  have hle : s.tasks.countP TaskPc.isCounted ≤ s.tasks.countP TaskPc.live := by
    refine List.countP_mono_left fun u _ hu => ?_
    cases u <;> first | rfl | cases hu
  have hcap : capacity < 2 ^ 30 := by decide
  have := h.counted
  have := h.live
  omega

/-- A run of `rec` counts and is live, wherever it stands. -/
theorem countP_setRec (hx : s.Runs x p) {f : TaskPc → Bool}
    (hf : f (.running p) = f (.running q)) :
    (s.setRec x q).tasks.countP f = s.tasks.countP f := by
  cases x with
  | none => rfl
  | some j =>
    have hset := Sums.countP_set (p := f) (b := .running q) hx
    simp only [State.setRec, State.setTask]
    rw [hf] at hset
    omega

/-- While a run of `rec` is going on, the caller or a counted task counts tasks. -/
theorem Inv.opn_or_counted {c : Call} (h : Inv c s) (hx : s.Runs x p) :
    s.caller.opn = true ∨ 0 < s.group.counted := by
  cases x with
  | none => exact .inl (by rw [show s.caller = _ from hx]; rfl)
  | some j =>
    rw [h.counted, List.countP_pos_iff]
    exact .inr ⟨_, List.mem_of_getElem? hx, rfl⟩

/-- The rule for a step of the run `x` of `rec`, in which only `s₁` differs from `s` otherwise. -/
theorem Inv.rec_of {c : Call} {s₁ : State δ ω} (h : Inv c s) (hx : s.Runs x p)
    (hx₁ : s₁.Runs x p) (hcaller : s₁.caller = s.caller)
    (hgroup : OneCallerOk s₁.group s.caller.opn s.caller.ret)
    (hfibers : s₁.group.fibers = s.group.fibers)
    (hcounted : s₁.group.counted = s₁.tasks.countP TaskPc.isCounted)
    (hlive : s₁.tasks.countP TaskPc.live ≤ capacity) (htree : TreeOk (s₁.setRec x q)) :
    Inv c (s₁.setRec x q) := by
  have hsmall : ¬ (s.caller = .entry ∨ s.caller = .small) := by
    intro hs
    have htasks := h.small hs
    cases x with
    | none =>
      rw [show s.caller = _ from hx] at hs
      simp at hs
    | some j =>
      have hj : s.tasks[j]? = _ := hx
      rw [htasks] at hj
      simp at hj
  have hgroup' : (s₁.setRec x q).group = s₁.group := by cases x <;> rfl
  refine ⟨?_, ?_, ?_, htree, ?_, ?_⟩
  · rw [hgroup']
    cases x with
    | none =>
      have hs : s.caller = .splitting p := hx
      rw [hs] at hgroup
      exact hgroup
    | some j =>
      rw [← hcaller] at hgroup
      exact hgroup
  · rw [hgroup', countP_setRec (q := q) (f := TaskPc.isCounted) hx₁ rfl, hcounted]
  · rw [countP_setRec (q := q) (f := TaskPc.live) hx₁ rfl]
    exact hlive
  · rw [hgroup', hfibers]
    exact h.thread
  · cases x with
    | none => simp [State.setRec]
    | some j =>
      intro hs
      exact absurd (hcaller ▸ hs) hsmall

/-- The caller moves on, with no run of `rec` that has a task. -/
theorem Inv.setCaller {c : Call} (h : Inv c s) {pc : CallerPc}
    (hgroup : OneCallerOk s.group pc.opn pc.ret)
    (hold : ∀ p, s.caller = .splitting p → p.child? = none)
    (hnew : ∀ p, pc = .splitting p → p.child? = none)
    (hsmall : pc = .entry ∨ pc = .small → s.tasks = []) : Inv c { s with caller := pc } := by
  refine ⟨hgroup, h.counted, h.live, h.tree.congr ?_ (fun _ _ _ => Iff.rfl) fun _ _ _ => Iff.rfl,
    h.thread, hsmall⟩
  intro y r hr
  cases y with
  | none =>
    simp only [State.Runs]
    exact ⟨fun hpc => absurd (hnew r hpc) hr, fun hs => absurd (hold r hs) hr⟩
  | some k => rfl

/-- The caller returns before it has spawned anything. -/
theorem Inv.leaveSmall {c : Call} (h : Inv c s) (hs : s.caller = .entry ∨ s.caller = .small) :
    Inv c { s with caller := .returned } := by
  have hgroup : OneCallerOk s.group true false := by
    have hgroup := h.group
    rcases hs with hs | hs <;> rw [hs] at hgroup <;> exact hgroup
  have hzero : s.group.counted = 0 := by
    rw [h.counted, h.small hs]
    rfl
  refine h.setCaller (hgroup.close.leave hzero hgroup.stage_out) ?_ (by simp) (by simp)
  intro p hp
  rw [hp] at hs
  simp at hs

/-- A task moves on that no run of `rec` is about to count or push, and that has no such task. -/
theorem Inv.setTask {c : Call} (h : Inv c s) {u v : TaskPc} (hk : s.tasks[k]? = some u)
    (hu : u.calm = true) (hv : v.calm = true) (hlive : v.live = true → u.live = true)
    {group : WaitGroup.State Unit δ ω ℕ}
    (hgroup : OneCallerOk group s.caller.opn s.caller.ret)
    (hcounted : group.counted + (if u.isCounted then 1 else 0) =
      s.group.counted + if v.isCounted then 1 else 0)
    (hstage : group.fibers.events.stage = s.group.fibers.events.stage) :
    Inv c { s.setTask k v with group } := by
  have hset (f : TaskPc → Bool) := Sums.countP_set (p := f) (b := v) hk
  have hlt : k < s.tasks.length := by
    rw [List.getElem?_eq_some_iff] at hk
    exact hk.1
  refine ⟨hgroup, ?_, ?_, h.tree.congr ?_ ?_ ?_, ?_, fun hs => ?_⟩
  · have := hset TaskPc.isCounted
    have := h.counted
    simp only [State.setTask]
    omega
  · have hle : (if v.live then 1 else 0) ≤ if u.live then 1 else 0 := by
      cases hv : v.live with
      | false => exact Nat.zero_le _
      | true => rw [hlive hv]
    have := hset TaskPc.live
    have := h.live
    simp only [State.setTask]
    omega
  · intro y r hr
    have hrun : (TaskPc.running r).calm = false := by
      simp only [TaskPc.calm]
      cases hc : r.child? with
      | none => exact absurd hc hr
      | some j => rfl
    cases y with
    | none => rfl
    | some j =>
      simp only [State.Runs, State.setTask]
      grind
  · intro j a b
    simp only [State.setTask]
    grind [TaskPc.calm]
  · intro j a b
    simp only [State.setTask]
    grind [TaskPc.calm]
  · rw [hstage]
    exact h.thread
  · have := h.small hs
    rw [this] at hk
    simp at hk

section
variable [DecidableEq δ] [DecidableEq ω] {c : Call}

/-- A step of a run of `rec`. -/
theorem Inv.recStep (h : Inv c s) (hx : s.Runs x p) {alloc : Bool}
    (hs : recStep c s alloc p = some (s', q)) : Inv c (s'.setRec x q) := by
  have hplain (hp : p.child? = none) (hq : q.child? = none) (heq : s' = s) :
      Inv c (s'.setRec x q) := by
    subst heq
    exact h.rec_of hx hx rfl h.group rfl h.counted h.live (h.tree.setRec hx hp hq)
  cases p with
  | loop a b =>
    simp only [ParallelFor.recStep, Option.some.injEq, Prod.mk.injEq] at hs
    obtain ⟨rfl, rfl⟩ := hs
    refine hplain rfl ?_ rfl
    split <;> rfl
  | createTask a b =>
    simp only [ParallelFor.recStep] at hs
    split at hs
    · split at hs
      case isTrue hlive =>
        cases hs
        refine h.rec_of hx ?_ rfl h.group rfl ?_ ?_ (h.tree.create hx rfl a _ b)
        · cases x with
          | none => exact hx
          | some j =>
            simp only [State.Runs] at hx ⊢
            grind
        · simp only [List.countP_append, h.counted]
          rfl
        · simp only [List.countP_append, List.countP_singleton, TaskPc.live, if_true]
          omega
      case isFalse => cases hs
    · cases hs
      exact hplain rfl rfl rfl
  | right a mid b =>
    cases hs
    exact hplain rfl rfl rfl
  | count a mid b k =>
    simp only [ParallelFor.recStep, Option.map_eq_some_iff, Prod.mk.injEq] at hs
    obtain ⟨group, hadd, rfl, rfl⟩ := hs
    have hk := h.tree.count x a mid b k hx
    have hset (f : TaskPc → Bool) := Sums.countP_set (p := f) (b := .counted mid b) hk
    have hgroup := h.group.step h.counted_lt (a := .add) (h.opn_or_counted hx) hadd
    simp only [WaitGroup.returns, Bool.or_false] at hgroup
    have hruns :=
      (runs_setTask (y := x) (r := .count a mid b k) (v := .counted mid b) hk rfl rfl).2 hx
    refine h.rec_of hx ?_ rfl hgroup ?_ ?_ ?_ (h.tree.counts hx group)
    · cases x <;> exact hruns
    · cases hadd; rfl
    · have hcounted := hset TaskPc.isCounted
      have hold := h.counted
      cases hadd
      simp only [State.setTask, TaskPc.isCounted] at hcounted ⊢
      simp at hcounted
      omega
    · have hlive := hset TaskPc.live
      have hold := h.live
      simp only [State.setTask, TaskPc.live] at hlive ⊢
      omega
  | push a mid b k =>
    cases hs
    have hk := h.tree.push x a mid b k hx
    have hset (f : TaskPc → Bool) := Sums.countP_set (p := f) (b := .queued mid b) hk
    have hruns :=
      (runs_setTask (y := x) (r := .push a mid b k) (v := .queued mid b) hk rfl rfl).2 hx
    refine h.rec_of hx hruns rfl h.group rfl ?_ ?_ (h.tree.pushes hx)
    · have hcounted := hset TaskPc.isCounted
      have hold := h.counted
      simp only [State.setTask, TaskPc.isCounted] at hcounted ⊢
      omega
    · have hlive := hset TaskPc.live
      have hold := h.live
      simp only [State.setTask, TaskPc.live] at hlive ⊢
      omega
  | leaf a b =>
    cases hs
    exact hplain rfl rfl rfl
  | done => cases hs

/-- A step of the group that is no step of the tasks. -/
theorem Inv.groupStep (h : Inv c s) {g : WaitGroup.State Unit δ ω ℕ} {a : WaitGroup.Act Unit δ ω ℕ}
    (hone : WaitGroup.OneCaller s.group s.caller.opn s.caller.ret a)
    (hret : WaitGroup.returns s.group a = false) (hcounted : g.counted = s.group.counted)
    (hthread : c.fiber = false → g.fibers.events.stage () = .out)
    (hs : WaitGroup.step s.group a = some g) : Inv c { s with group := g } := by
  have hgroup := h.group.step h.counted_lt hone hs
  rw [hret, Bool.or_false] at hgroup
  exact ⟨hgroup, hcounted.trans h.counted, h.live, h.tree.congr (fun _ _ _ => Iff.rfl)
    (fun _ _ _ => Iff.rfl) fun _ _ _ => Iff.rfl, hthread, h.small⟩

/-- The caller moves on in its own code. -/
theorem Inv.callerStep (h : Inv c s) {alloc : Bool} (hs : callerStep c s alloc = some s') :
    Inv c s' := by
  have hgroup := h.group
  revert hs
  fun_cases ParallelFor.callerStep c s alloc with
  | case1 hcaller n =>
    rintro ⟨⟩
    rw [hcaller] at hgroup
    split
    · exact h.leaveSmall (.inl hcaller)
    · split
      · exact h.setCaller hgroup (by simp [hcaller]) (by simp) fun _ => h.small (.inl hcaller)
      · refine h.setCaller hgroup (by simp [hcaller]) ?_ (by simp)
        rintro p ⟨⟩
        rfl
  | case2 hcaller =>
    rintro ⟨⟩
    exact h.leaveSmall (.inr hcaller)
  | case3 hcaller =>
    rintro ⟨⟩
    rw [hcaller] at hgroup
    refine h.setCaller hgroup.close ?_ (by simp) (by simp)
    intro p hp
    rw [hcaller] at hp
    cases hp
    rfl
  | case4 p hne hcaller =>
    intro hs
    obtain ⟨⟨s₁, q⟩, hrec, rfl⟩ := Option.map_eq_some_iff.1 hs
    exact h.recStep (x := none) hcaller hrec
  | case5 => simp
  | case6 => simp

/-- A step of the caller's fiber; when it returns from its wait, so does the call. -/
theorem Inv.fiberStep (h : Inv c s) (hfiber : c.fiber = true) {w : ω} {m : Fiber.Move Empty δ}
    (hmay : mayMove s.caller m = true) {g : WaitGroup.State Unit δ ω ℕ}
    (hg : WaitGroup.step s.group (.fiber w m) = some g) :
    Inv c { s with
      group := g
      caller := if WaitGroup.returns s.group (.fiber w m) then .returned else s.caller } := by
  have hone : WaitGroup.OneCaller s.group s.caller.opn s.caller.ret (.fiber w m) := by
    cases m with
    | waitOnEventDirect d =>
      have hwait : s.caller = .wait := by simpa [mayMove] using hmay
      rw [hwait]
      exact ⟨rfl, rfl⟩
    | waitOnEvent e => exact e.elim
    | _ => trivial
  obtain ⟨hcounted, -⟩ := WaitGroup.step_frame hg (by simp) (by simp)
  cases hret : WaitGroup.returns s.group (.fiber w m) with
  | false => exact h.groupStep hone hret hcounted (by simp [hfiber]) hg
  | true =>
    have hgroup := h.group.step h.counted_lt hone hg
    rw [hret, Bool.or_true] at hgroup
    have hclosed : s.caller.opn = false := by
      by_contra hopen
      rw [Bool.not_eq_false] at hopen
      have hout := h.group
      rw [hopen] at hout
      have hstage := hout.stage_out
      simp only [WaitGroup.returns] at hret
      split at hret
      case h_1 d hpc => simp [Fiber.State.events, hpc, Fiber.FiberPc.stage] at hstage
      case h_2 => cases hret
    rw [hclosed] at hgroup
    refine ⟨hgroup, hcounted.trans h.counted, h.live, h.tree.congr ?_ (fun _ _ _ => Iff.rfl)
      fun _ _ _ => Iff.rfl, by simp [hfiber], by simp⟩
    intro y r hr
    cases y with
    | none =>
      simp only [State.Runs]
      refine ⟨by simp, fun hcaller => ?_⟩
      rw [hcaller] at hclosed
      cases hclosed
    | some j => rfl

/-- Every step keeps the invariant. -/
theorem Inv.step (h : Inv c s) {a : Act δ ω} (hs : step c s a = some s') : Inv c s' := by
  cases a with
  | caller alloc =>
    simp only [ParallelFor.step, Option.ite_none_right_eq_some] at hs
    exact h.callerStep hs.2
  | poll =>
    simp only [ParallelFor.step, Option.ite_none_right_eq_some, Option.some.injEq] at hs
    obtain ⟨⟨hthread, hwait⟩, hs⟩ := hs
    split at hs
    case isTrue => subst hs; exact h
    case isFalse hspins =>
      subst hs
      have hgroup := h.group
      rw [hwait] at hgroup
      have hzero := hgroup.counted_eq_zero h.counted_lt (by simpa using hspins)
      refine ⟨hgroup.leave hzero (h.thread hthread), h.counted, h.live, h.tree.congr ?_
        (fun _ _ _ => Iff.rfl) fun _ _ _ => Iff.rfl, h.thread, by simp⟩
      intro y r hr
      cases y with
      | none => simp [State.Runs, hwait]
      | some k => rfl
  | push =>
    simp only [ParallelFor.step, Option.ite_none_right_eq_some, Option.map_eq_some_iff] at hs
    obtain ⟨hfiber, g, hg, rfl⟩ := hs
    obtain ⟨hcounted, -⟩ := WaitGroup.step_frame hg (by simp) (by simp)
    exact h.groupStep (a := .push ()) trivial rfl hcounted (by simp [hfiber]) hg
  | pick w =>
    simp only [ParallelFor.step, Option.ite_none_right_eq_some, Option.map_eq_some_iff] at hs
    obtain ⟨hfiber, g, hg, rfl⟩ := hs
    obtain ⟨hcounted, -⟩ := WaitGroup.step_frame hg (by simp) (by simp)
    exact h.groupStep (a := .pick w ()) trivial rfl hcounted (by simp [hfiber]) hg
  | worker w =>
    simp only [ParallelFor.step, Option.ite_none_right_eq_some, Option.map_eq_some_iff] at hs
    obtain ⟨hfiber, g, hg, rfl⟩ := hs
    obtain ⟨hcounted, -⟩ := WaitGroup.step_frame hg (by simp) (by simp)
    exact h.groupStep (a := .worker w) trivial rfl hcounted (by simp [hfiber]) hg
  | fiber w m =>
    simp only [ParallelFor.step, Option.ite_none_right_eq_some, Option.map_eq_some_iff] at hs
    obtain ⟨⟨hfiber, hmay⟩, g, hg, rfl⟩ := hs
    exact h.fiberStep hfiber hmay hg
  | run k =>
    simp only [ParallelFor.step] at hs
    split at hs
    case h_1 a b hk =>
      cases hs
      exact h.setTask hk rfl rfl (fun _ => rfl) h.group rfl rfl
    case h_2 => cases hs
  | task k alloc =>
    simp only [ParallelFor.step] at hs
    split at hs
    case h_1 p hk =>
      obtain ⟨⟨s₁, q⟩, hrec, rfl⟩ := Option.map_eq_some_iff.1 hs
      exact h.recStep (x := some k) hk hrec
    case h_2 => cases hs
  | complete k =>
    simp only [ParallelFor.step, Option.ite_none_right_eq_some, Option.map_eq_some_iff] at hs
    obtain ⟨hk, g, hg, rfl⟩ := hs
    have hgroup := h.group.step h.counted_lt (a := .complete k) trivial hg
    simp only [WaitGroup.returns, Bool.or_false] at hgroup
    simp only [WaitGroup.step, Option.ite_none_right_eq_some, Option.some.injEq] at hg
    obtain ⟨⟨-, hpos⟩, rfl⟩ := hg
    refine h.setTask hk rfl rfl (fun _ => rfl) hgroup ?_ rfl
    simp only [TaskPc.isCounted, if_true]
    simp
    omega
  | wakeAll k order =>
    simp only [ParallelFor.step, Option.map_eq_some_iff] at hs
    obtain ⟨g, hg, rfl⟩ := hs
    obtain ⟨hcounted, -⟩ := WaitGroup.step_frame hg (by simp) (by simp)
    refine h.groupStep (a := .wakeAll k order) trivial rfl hcounted (fun hthread => ?_) hg
    rw [h.group.stage_wakeAll hg]
    exact h.thread hthread
  | free k =>
    simp only [ParallelFor.step, Option.ite_none_right_eq_some, Option.some.injEq] at hs
    obtain ⟨⟨hk, -⟩, rfl⟩ := hs
    exact h.setTask hk rfl rfl (fun hl => by cases hl) h.group rfl rfl

/-- The join is safe, for every range, grain, pattern of allocation failures and order of the tasks,
with a fiber or another caller: the count is the number of spawned tasks whose completion is not
counted, and when the caller has returned from its wait, every task is completed, so no call of
`func` is going on, and no step of anybody accesses the group. -/
theorem parallelForFJ_join {pool : List δ} (hpool : pool.Nodup)
    (hs : Lts.Reachable (ParallelFor.step c) (State.init pool) s) :
    WaitGroup.count s.group.n = s.tasks.countP TaskPc.isCounted ∧
      (s.caller = .returned → (∀ u ∈ s.tasks, u = .completed ∨ u = .freed) ∧
        ∀ a s', ParallelFor.step c s a = some s' → touches s a = false) := by
  have h : Inv c s := Lts.Reachable.inv (fun h hstep => h.step hstep) (Inv.init hpool) hs
  have hlt := h.counted_lt
  obtain ⟨b, ph, loc, hg, hph, he, hl, hz, hjoin⟩ := h.group
  have hcount : WaitGroup.count s.group.n = s.tasks.countP TaskPc.isCounted := by
    rw [hg.word, WaitGroup.count_pack hlt, h.counted]
  refine ⟨hcount, fun hcaller => ?_⟩
  obtain ⟨hzero, -, hidle, hoff⟩ := hjoin.returned (by rw [hcaller]; rfl)
  have hnone : ∀ u ∈ s.tasks, u.isCounted = false := by
    have hcounted := h.counted
    rw [hzero] at hcounted
    intro u hu
    by_contra hne
    rw [Bool.not_eq_false] at hne
    have hpos : 0 < s.tasks.countP TaskPc.isCounted := List.countP_pos_iff.2 ⟨u, hu, hne⟩
    omega
  have hrun : ∀ y r, ¬ s.Runs y r := by
    intro y r hy
    cases y with
    | none =>
      rw [show s.caller = _ from hy] at hcaller
      cases hcaller
    | some k =>
      have := hnone _ (List.mem_of_getElem? (show s.tasks[k]? = _ from hy))
      cases this
  constructor
  · intro u hu
    cases u with
    | created a b =>
      obtain ⟨k, hk⟩ := List.mem_iff_getElem?.1 hu
      obtain ⟨y, r, hy, -⟩ := h.tree.created k a b hk
      exact absurd hy (hrun y r)
    | completed => exact .inl rfl
    | freed => exact .inr rfl
    | counted a b | queued a b | running p =>
      have := hnone _ hu
      cases this
  · intro a s' hstep
    cases a with
    | caller alloc => simp [touches, hcaller]
    | poll => simp [ParallelFor.step, hcaller] at hstep
    | fiber w m => simp [touches, hidle]
    | task k alloc =>
      simp only [ParallelFor.step] at hstep
      split at hstep
      case h_1 p hk => exact absurd hk (hrun (some k) p)
      case h_2 => cases hstep
    | complete k =>
      simp only [ParallelFor.step, Option.ite_none_right_eq_some] at hstep
      exact absurd hstep.1 (hrun (some k) .done)
    | wakeAll k order => exact hoff k
    | _ => rfl

end

end

/-- A call on two items by a fiber: it spawns one task and is parked; the task runs, and its thread
wakes the caller. -/
def twoItems : List (Act Unit Unit) :=
  [.push, .pick (), .worker ()] ++ List.replicate 8 (.caller true) ++
    .fiber () (.waitOnEventDirect ()) :: List.replicate 9 (.fiber () .next) ++
    [.worker (), .worker (), .run 0, .task 0 true, .task 0 true, .complete 0, .wakeAll 0 [],
      .wakeAll 0 [()]] ++ List.replicate 6 (.wakeAll 0 []) ++
    [.pick (), .worker (), .fiber () .next]

theorem parallelForFJ_join_twoItems : ∃ s : State Unit Unit,
    Lts.Reachable (step ⟨0, 2, 1, true⟩) (State.init [()]) s ∧ s.caller = .returned ∧
      s.tasks = [.completed] ∧ WaitGroup.count s.group.n = s.tasks.countP TaskPc.isCounted ∧
      ∀ a s', step ⟨0, 2, 1, true⟩ s a = some s' → touches s a = false := by
  have hs : Lts.Reachable (step ⟨0, 2, 1, true⟩) (State.init [()]) _ :=
    ⟨twoItems, (Option.some_get (by decide)).symm⟩
  have h := parallelForFJ_join (by simp) hs
  have hreturned := h.2 (by decide)
  exact ⟨_, hs, by decide, by decide, h.1, hreturned.2⟩

end JLibScheduler.ParallelFor
