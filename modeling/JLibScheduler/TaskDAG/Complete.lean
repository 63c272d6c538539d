import JLibScheduler.TaskDAG.Fires

/-!
# When a run of a graph is complete

A run whose pushes are all accepted ends when no task is queued and no call is in progress. Then
every node has fired and is retired exactly once if and only if every task of the graph is handed
to some queue: `Fire` pushes the task of a main node and of a local one, and `CreateNode` with a
priority makes a node that is neither, whose task is pushed nowhere. The nodes fire along the
topological order that `HasCycle` found.
-/

namespace JLibScheduler.TaskDAG

/-- The push of the step, if any, is accepted. -/
def Act.accepted {κ ι : Type} : Act κ ι → Bool
  | .step _ accepted => accepted
  | _ => true

/-- No task is queued and no call is in progress. -/
def Final {κ ι : Type} (s : State κ ι) : Prop :=
  s.shared.queue = [] ∧ ∀ c ∈ s.ctxs, c.stack = []

/-- A task is queued or run only when its node is handed to some queue, and dropped only when it is
not. -/
structure RouteInv {κ : Type} (g : Graph) (m : Shared κ) : Prop where
  queue : ∀ n ∈ m.queue, (g.node n).routed = true
  ran : ∀ n, .ran n ∈ m.log → (g.node n).routed = true
  dropped : ∀ n, .dropped n ∈ m.log → (g.node n).routed = false

section
variable {κ ι : Type} {g : Graph} {roots : List Nat} {m : Shared κ} {T : (Frame → Nat) → Nat}
  {participants : List κ} {s s' : State κ ι}

theorem Final.total_eq_zero (h : Final s) (μ : Frame → Nat) : total μ s.ctxs = 0 := by
  refine List.sum_eq_zero fun x hx => ?_
  obtain ⟨c, hc, rfl⟩ := List.mem_map.1 hx
  simp [Ctx.total, h.2 c hc]

/-! ## Nothing in progress -/

section
variable (hw : WellBuilt g) (hroots : g.submit = some roots) (h : Laws g roots m T)
  (hT : ∀ μ, T μ = 0)

include h hT in
/-- A node that `Fire` was called for has fired. -/
theorem Laws.fired_of_called {n : Nat} (hn : n ∈ g.nodes) (hc : 0 < TaskDAG.called g roots m n) :
    m.log.count (.fired n) = 1 := by
  have hcalled := h.called n hn
  rw [hT] at hcalled
  by_cases hre : .refired n ∈ m.log
  · rw [h.submitted n, h.refired n hre, if_pos rfl]
  · have h₁ := List.count_eq_zero.2 hre
    have h₂ := h.fired_le n
    omega

include hw hroots h hT in
/-- A node whose predecessors have visited it has been called. -/
theorem Laws.called_pos {n : Nat} (hn : n ∈ g.nodes)
    (hp : ∀ p ∈ g.preds n, m.log.count (.entered p) = 1) : 0 < TaskDAG.called g roots m n := by
  have hvisited : ∀ p ∈ g.nodes, m.log.count (.visited p n) = (g.node p).dependents.count n := by
    intro p hpn
    have hvis := h.visits p n
    rw [hT, Nat.add_zero] at hvis
    by_cases hd : n ∈ (g.node p).dependents
    · rw [hp p (by simpa [Graph.preds] using ⟨hpn, hd⟩), Nat.one_mul] at hvis
      exact hvis
    · rw [List.count_eq_zero.2 hd] at hvis ⊢
      exact hvis
  have hsum : visitCount n m.log = g.indegree n := by
    rw [h.visitCount_eq hw, Graph.indegree]
    exact congrArg List.sum (List.map_congr_left hvisited)
  unfold TaskDAG.called
  split_ifs with hor hleft
  · rw [count_roots hw hroots, hsum]
    split_ifs with hroot
    · omega
    · have : g.indegree n ≠ 0 := fun hzero => hroot ⟨hn, hzero⟩
      omega
  · exact Nat.one_pos
  · have hand : (g.node n).gateType = .AND := by
      cases hg : (g.node n).gateType with
      | AND => rfl
      | OR => exact absurd hg hor
    have := h.left n hand
    omega

end

/-- When nothing is in progress and nothing was dropped, every node has fired and is retired. -/
theorem Laws.complete (h : Laws g roots m T) (hw : WellBuilt g) (hroots : g.submit = some roots)
    (hT : ∀ μ, T μ = 0) (hqueue : m.queue = []) (hdrop : ∀ n ∈ g.nodes, .dropped n ∉ m.log) :
    ∀ n ∈ g.nodes, m.log.count (.fired n) = 1 ∧ m.log.count (.retired n) = 1 := by
  have hretired : ∀ n ∈ g.nodes, m.log.count (.retired n) = m.log.count (.fired n) := by
    intro n hn
    have htoken := h.token n
    rw [hT, hT, hT, hqueue, List.count_eq_zero.2 (hdrop n hn), List.count_nil] at htoken
    omega
  obtain ⟨order, horder, hall⟩ := exists_topological hw.listed (submit_eq_some.1 hroots).1
  have hfired : ∀ n ∈ order, n ∈ g.nodes → m.log.count (.fired n) = 1 := by
    clear hall
    induction order with
    | nil => simp
    | cons x order ih =>
      intro n hn hnodes
      have ih := ih horder.2
      rcases List.mem_cons.1 hn with rfl | hn
      · -- the predecessors come before `n` in the order
        refine h.fired_of_called hT hnodes (h.called_pos hw hroots hT hnodes fun p hp => ?_)
        have hpn : p ∈ g.nodes := (List.mem_filter.1 hp).1
        have hentered := h.entered p
        rw [hT, hretired p hpn, ih p (horder.1 p hp) hpn] at hentered
        exact hentered
      · exact ih n hn hnodes
  intro n hn
  have hone := hfired n (hall n hn) hn
  exact ⟨hone, (hretired n hn).trans hone⟩

/-- A node that is retired was handed to some queue, or is a gate. -/
theorem RouteInv.routed_of_retired (h : RouteInv g m) (hl : Laws g roots m T) (hw : WellBuilt g)
    {n : Nat} (hn : 0 < m.log.count (.retired n)) : (g.node n).routed = true := by
  cases hgate : (g.node n).isGate with
  | true => exact hw.gate n hgate
  | false =>
    have h₁ := hl.entered n
    have h₂ := hl.finished n hgate
    have h₃ := hl.returned n
    exact h.ran n (List.count_pos_iff.1 (by omega))

/-! ## Runs with accepted pushes -/

variable [DecidableEq κ]

theorem RouteInv.frame {k : κ} {f : Frame} (h : RouteInv g m) :
    RouteInv g (frameStep g k true m f).1 := by
  obtain ⟨h₁, h₂, h₃⟩ := h
  fun_cases frameStep g k true m f <;> constructor <;> grind

variable [DecidableEq ι]

theorem RouteInv.step {a : Act κ ι} (h : RouteInv g s.shared) (ha : a.accepted = true)
    (hs : step g participants s a = some s') : RouteInv g s'.shared := by
  rcases step_cases hs with ⟨j, accepted, c, f, rest, rfl, -, -, hshared, -⟩ |
    ⟨n, hn, hshared, -⟩ | ⟨-, -, hqueue, hlog, -⟩
  · obtain rfl : accepted = true := ha
    rw [hshared]
    exact h.frame
  · rw [hshared]
    refine ⟨fun x hx => h.queue x (List.mem_of_mem_erase hx), fun x hx => ?_, fun x hx => ?_⟩
    · rcases List.mem_cons.1 hx with heq | hx
      · cases heq; exact h.queue n hn
      · exact h.ran x hx
    · exact h.dropped x (by simpa using hx)
  · refine ⟨?_, ?_, ?_⟩
    · rw [hqueue]; exact h.queue
    · rw [hlog]; exact h.ran
    · rw [hlog]; exact h.dropped

/-- In every final state of a run whose pushes are all accepted, of a graph that `Submit` accepts:
every node has fired and is retired exactly once if and only if every node of `CreateNode` was made
without a priority. -/
theorem taskDAG_complete_iff {ops : List BuildOp} {k : κ} {as : List (Act κ ι)}
    (hbuild : build ops = some g) (hroots : g.submit = some roots)
    (hrun : Lts.run (TaskDAG.step g participants) (State.init g k roots) as = some s)
    (haccepted : ∀ a ∈ as, a.accepted = true) (hfinal : Final s) :
    (∀ n ∈ g.nodes, s.shared.log.count (.fired n) = 1 ∧ s.shared.log.count (.retired n) = 1) ↔
      ∀ op ∈ ops, op.routed = true := by
  have hw := wellBuilt_of_submit hbuild hroots
  have hinv := Inv.run hw hroots hrun
  have hroute : RouteInv g s.shared :=
    Lts.run_inv_of (I := fun s => RouteInv g s.shared) (G := fun _ a => a.accepted = true)
      (fun h ha hs => h.step ha hs)
      ⟨by simp [State.init], by simp [State.init], by simp [State.init]⟩ hrun
      fun p hp => haccepted p.2 (Lts.mem_of_mem_visits hp)
  rw [← routed_iff_of_build hbuild]
  constructor
  · intro h n hn
    exact hroute.routed_of_retired hinv.laws hw (by rw [(h n hn).2]; exact Nat.one_pos)
  · intro h
    refine hinv.laws.complete hw hroots hfinal.total_eq_zero hfinal.1 fun n hn hdrop => ?_
    have hfalse := hroute.dropped n hdrop
    rw [h n hn] at hfalse
    cases hfalse

end

/-- The run goes on: the second root finds the gate fired, and the main task runs. -/
def orFullRun : List (Act Nat Unit) :=
  orRun ++ [.start 1 2] ++ List.replicate 9 (.step 1 true) ++ [.start 0 4] ++
    List.replicate 7 (.step 0 true)

theorem taskDAG_complete_iff_orRun : ∃ s : State Nat Unit,
    Lts.run (TaskDAG.step orGraph [0, 1]) (State.init orGraph 0 [1, 2]) orFullRun = some s ∧
      ((∀ n ∈ orGraph.nodes,
        s.shared.log.count (.fired n) = 1 ∧ s.shared.log.count (.retired n) = 1) ↔
        ∀ op ∈ orOps, op.routed = true) := by
  refine ⟨(Lts.run (TaskDAG.step orGraph [0, 1]) (State.init orGraph 0 [1, 2]) orFullRun).get
    (by decide), (Option.some_get _).symm, ?_⟩
  have hbuild : build orOps = some orGraph := (Option.some_get _).symm
  exact taskDAG_complete_iff hbuild (by decide) (Option.some_get _).symm (by decide)
    ⟨by decide, by decide⟩

/-- One task, with a priority. -/
def priorityOps : List BuildOp := [.createNode 1 0 NONE]

def priorityGraph : Graph := (build priorityOps).get (by decide)

/-- A node with a priority fires, and its task is pushed nowhere: the run is over and the node is
never retired. -/
theorem taskDAG_incomplete : ¬ ∀ (ops : List BuildOp) (g : Graph) (roots : List Nat)
    (as : List (Act Nat Unit)) (s : State Nat Unit), build ops = some g → (pairs ops).Nodup →
      g.submit = some roots → Lts.run (TaskDAG.step g [0]) (State.init g 0 roots) as = some s →
      (∀ a ∈ as, a.accepted = true) → Final s →
      ∀ n ∈ g.nodes, s.shared.log.count (.fired n) = 1 ∧ s.shared.log.count (.retired n) = 1 := by
  intro h
  have hone := h priorityOps priorityGraph [1] (List.replicate 4 (.step 0 true))
    ((Lts.run (TaskDAG.step priorityGraph [0]) (State.init priorityGraph 0 [1])
      (List.replicate 4 (.step 0 true))).get (by decide))
    (Option.some_get _).symm (by decide) (by decide) (Option.some_get _).symm (by decide)
    ⟨by decide, by decide⟩ 1 (by decide)
  exact absurd hone (by decide)

end JLibScheduler.TaskDAG
