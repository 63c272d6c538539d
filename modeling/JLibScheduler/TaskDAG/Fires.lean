import JLibScheduler.TaskDAG.Edges
import JLibScheduler.TaskDAG.Laws

/-!
# Each node fires once, after its predecessors

In every run of a graph that `Submit` accepts, a node passes the exchange of `submitted` at most
once and its original function runs at most once; an AND node fires after `OnTaskFinished` was
entered for each of its predecessors, an OR node with predecessors after it was entered for one
(`LogOk`). The countdown of an AND node is over only when each predecessor has visited it, since
the visits of one predecessor are at most its entries in the list.
-/

namespace JLibScheduler.TaskDAG

/-- `OnTaskFinished` was entered for the node, for a task after its original function returned. -/
def Finished (g : Graph) (p : Nat) (log : List Event) : Prop :=
  .entered p ∈ log ∧ ((g.node p).isGate = false → .returned p ∈ log)

/-- The node may fire: for an AND node all of its predecessors have finished, for an OR node with
predecessors one of them. -/
def MayFire (g : Graph) (n : Nat) (log : List Event) : Prop :=
  ((g.node n).gateType = .AND → ∀ p ∈ g.preds n, Finished g p log) ∧
    ((g.node n).gateType = .OR → g.preds n ≠ [] → ∃ p ∈ g.preds n, Finished g p log)

/-- Each node that fired was allowed to by the log before. -/
def LogOk (g : Graph) (log : List Event) : Prop :=
  ∀ after n before, log = after ++ .fired n :: before → MayFire g n before

section
variable {κ ι : Type} [DecidableEq κ] [DecidableEq ι] {g : Graph} {roots : List Nat}
  {m : Shared κ} {T : (Frame → Nat) → Nat} {participants : List κ} {s s' : State κ ι}

/-- A log that grows by an event. -/
theorem LogOk.cons {log : List Event} {e : Event} (h : LogOk g log)
    (he : ∀ n, e = .fired n → MayFire g n log) : LogOk g (e :: log) := by
  intro after n before heq
  cases after with
  | nil =>
    obtain ⟨rfl, rfl⟩ := List.cons.inj heq
    exact he n rfl
  | cons x after => exact h after n before (List.cons.inj heq).2

omit [DecidableEq κ] in
theorem Laws.finished_of_entered (h : Laws g roots m T) {p : Nat} (hp : .entered p ∈ m.log) :
    Finished g p m.log := by
  refine ⟨hp, fun htask => List.count_pos_iff.1 ?_⟩
  rw [← h.finished p htask]
  exact List.count_pos_iff.2 hp

omit [DecidableEq κ] in
/-- A node that `Fire` is called for may fire. -/
theorem Laws.mayFire (h : Laws g roots m T) (hw : WellBuilt g) (hroots : g.submit = some roots)
    {n : Nat} (hn : 0 < T (firing n)) : MayFire g n m.log := by
  have hmem : n ∈ g.nodes := by
    by_contra hmem
    exact hn.ne' (h.outside n hmem).1
  have hcalled := h.called n hmem
  refine ⟨fun hand p hp => ?_, fun hor hpreds => ?_⟩
  · have hleft : m.left n ≤ 0 := by
      by_contra hleft
      rw [TaskDAG.called, if_neg (by rw [hand]; simp), if_neg hleft] at hcalled
      omega
    exact h.finished_of_entered (h.of_visited hw (h.visited_of_left hw hand hleft hp)).2
  · -- a node with predecessors is no root
    have hroot : roots.count n = 0 := by
      obtain ⟨p, hp⟩ := List.exists_mem_of_ne_nil _ hpreds
      obtain ⟨hpn, hdep⟩ : p ∈ g.nodes ∧ n ∈ (g.node p).dependents := by
        simpa [Graph.preds] using hp
      have hle : (g.node p).dependents.count n ≤ g.indegree n :=
        List.single_le_sum (fun _ _ => Nat.zero_le _) _ (List.mem_map_of_mem hpn)
      have hpos := List.count_pos_iff.2 hdep
      rw [count_roots hw hroots, if_neg (by omega)]
    rw [TaskDAG.called, if_pos hor, hroot] at hcalled
    have hvisits : 0 < visitCount n m.log := by omega
    rw [h.visitCount_eq hw] at hvisits
    by_contra hno
    refine hvisits.ne' (List.sum_eq_zero fun x hx => ?_)
    obtain ⟨p, -, rfl⟩ := List.mem_map.1 hx
    refine List.count_eq_zero.2 fun hv => hno ⟨p, (h.of_visited hw hv).1, ?_⟩
    exact h.finished_of_entered (h.of_visited hw hv).2

/-- What every step keeps. -/
structure Inv (g : Graph) (roots : List Nat) (s : State κ ι) : Prop where
  laws : Laws g roots s.shared fun μ => total μ s.ctxs
  log : LogOk g s.shared.log

/-- The log after one access of a call. -/
theorem LogOk.frame {k : κ} {accepted : Bool} {f : Frame} (h : LogOk g m.log)
    (hf : ∀ n, f = .fire n → MayFire g n m.log) :
    LogOk g (frameStep g k accepted m f).1.log := by
  fun_cases frameStep g k accepted m f with
  | case4 n => exact (h.cons fun x hx => by cases hx; exact hf n rfl).cons (by simp)
  | case5 n => exact h.cons fun x hx => by cases hx; exact hf n rfl
  | case8 n => exact (h.cons (e := .returned n) (by simp)).cons (by simp)
  | case3 | case7 | case11 | case12 | case15 => exact h.cons (by simp)
  | _ => exact h

omit [DecidableEq κ] [DecidableEq ι] in
theorem Inv.init (hw : WellBuilt g) (hroots : g.submit = some roots) (k : κ) :
    Inv g roots (State.init g k roots : State κ ι) :=
  ⟨Laws.init hw hroots (fun _ => rfl) (fun _ => rfl) rfl rfl fun μ => by
    simp [State.init, total, Ctx.total], by simp [LogOk, State.init]⟩

theorem Inv.step (hw : WellBuilt g) (hroots : g.submit = some roots) {a : Act κ ι}
    (h : Inv g roots s) (hs : step g participants s a = some s') : Inv g roots s' := by
  rcases step_cases hs with ⟨j, accepted, c, f, rest, -, hc, hf, hshared, hT⟩ |
    ⟨n, hn, hshared, hT⟩ | ⟨hleft, hsub, hqueue, hlog, hT⟩
  · refine ⟨?_, ?_⟩
    · rw [hshared]
      exact h.laws.frame hT hw
    · rw [hshared]
      refine h.log.frame fun n hfn => h.laws.mayFire hw hroots ?_
      have hle := le_total (μ := firing n) hc (f := f) (by rw [hf]; exact .head _)
      rw [hfn] at hle
      simp only [firing, if_true] at hle
      exact hle
  · refine ⟨?_, ?_⟩
    · rw [hshared]
      exact h.laws.start hn hT
    · rw [hshared]
      exact h.log.cons (by simp)
  · refine ⟨h.laws.congr hleft hsub hqueue hlog fun n p d => ⟨hT _ rfl, hT _ rfl, hT _ rfl,
      hT _ rfl, hT _ rfl⟩, ?_⟩
    rw [hlog]
    exact h.log

theorem Inv.run (hw : WellBuilt g) (hroots : g.submit = some roots) {k : κ}
    {as : List (Act κ ι)}
    (hrun : Lts.run (TaskDAG.step g participants) (State.init g k roots) as = some s) :
    Inv g roots s :=
  Lts.run_inv (Inv.step hw hroots) (Inv.init hw hroots k) hrun

/-- In every run of a graph that `Submit` accepts: a node passes the exchange of `submitted` at most
once, its original function runs at most once, and at the moment it fires all of its predecessors
have finished, or one of them for an OR node. -/
theorem taskDAG_fires {ops : List BuildOp} {k : κ} {as : List (Act κ ι)}
    (hbuild : build ops = some g) (hroots : g.submit = some roots)
    (hrun : Lts.run (TaskDAG.step g participants) (State.init g k roots) as = some s) :
    (∀ n, s.shared.log.count (.fired n) ≤ 1) ∧
      (∀ n, (g.node n).isGate = false → s.shared.log.count (.ran n) ≤ 1) ∧
      ∀ after n before, s.shared.log = after ++ .fired n :: before →
        ((g.node n).gateType = .AND → ∀ p ∈ g.preds n, Finished g p before) ∧
        ((g.node n).gateType = .OR → g.preds n ≠ [] → ∃ p ∈ g.preds n, Finished g p before) := by
  have hinv := Inv.run (wellBuilt_of_submit hbuild hroots) hroots hrun
  refine ⟨hinv.laws.fired_le, fun n hn => ?_, hinv.log⟩
  have h₁ := hinv.laws.ran n hn
  have h₂ := hinv.laws.fired_le n
  omega

end

/-- Two tasks, an OR gate after both of them, and a task for the main thread after the gate. -/
def orOps : List BuildOp :=
  [.createNode 1 NONE NONE, .createNode 2 NONE NONE, .createGate 3 .OR, .createMainNode 4 NONE,
    .addDependency 3 1, .addDependency 3 2, .addDependency 4 3]

def orGraph : Graph := (build orOps).get (by decide)

/-- The roots are fired, and the first of them runs and fires the gate and the main task. -/
def orRun : List (Act Nat Unit) :=
  List.replicate 7 (.step 0 true) ++ [.spawn 1, .start 1 1] ++ List.replicate 18 (.step 1 true)

theorem taskDAG_fires_orRun : ∃ s : State Nat Unit,
    Lts.run (TaskDAG.step orGraph [0, 1]) (State.init orGraph 0 [1, 2]) orRun = some s ∧
      s.shared.queue = [2, 4] ∧ s.shared.log.count (.fired 4) = 1 ∧
      (∀ n, s.shared.log.count (.fired n) ≤ 1) ∧
      (∀ n, (orGraph.node n).isGate = false → s.shared.log.count (.ran n) ≤ 1) ∧
      ∀ after n before, s.shared.log = after ++ .fired n :: before →
        ((orGraph.node n).gateType = .AND → ∀ p ∈ orGraph.preds n, Finished orGraph p before) ∧
        ((orGraph.node n).gateType = .OR → orGraph.preds n ≠ [] →
          ∃ p ∈ orGraph.preds n, Finished orGraph p before) := by
  refine ⟨(Lts.run (TaskDAG.step orGraph [0, 1]) (State.init orGraph 0 [1, 2]) orRun).get
    (by decide), (Option.some_get _).symm, by decide, by decide, ?_⟩
  have hbuild : build orOps = some orGraph := (Option.some_get _).symm
  exact taskDAG_fires hbuild (by decide) (Option.some_get _).symm

end JLibScheduler.TaskDAG
