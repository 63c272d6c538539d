import JLibScheduler.Lib.Update
import JLibScheduler.TaskDAG.Fires

/-!
# When no traversal uses a reclaimed node

`OnTaskFinished` retires its node when it has visited the dependents. An OR gate is fired, and so
retired, by its first predecessor; the others visit it later, when nothing keeps its memory: they
were in no guard when it was retired. A graph in which every OR gate has at most one predecessor is
safe without the epochs, since a node is then retired only after the last visit it gets.
-/

namespace JLibScheduler.TaskDAG

open Epochs

/-- The nodes whose memory the call reads or writes: a visit reads the dependent, and the list of
the node it visits from. -/
def Frame.touches : Frame → List Nat
  | .fire n | .push n | .wrapper n | .finish n | .guardStore n _ | .forEach n [] => [n]
  | .forEach n (d :: _) => [n, d]
  | _ => []

/-- The entries of the epoch manager are nodes that were retired. -/
structure EntriesOk {κ ι : Type} (s : State κ ι) : Prop where
  mgr : s.shared.mgr.All fun n => .retired n ∈ s.shared.log
  tick : ∀ t, ∀ e ∈ (s.tick t).held, .retired e.ptr ∈ s.shared.log

section
variable {κ ι : Type} {g : Graph} {roots : List Nat} {m : Shared κ} {T : (Frame → Nat) → Nat}
  {participants : List κ} {s s' : State κ ι}

/-- A node that is retired is of no call any more, when OR gates have one predecessor. -/
theorem Laws.no_use_of_retired (h : Laws g roots m T) (hw : WellBuilt g)
    (hroots : g.submit = some roots) {n : Nat} (hn : .retired n ∈ m.log)
    (hor : ∀ n ∈ g.nodes, (g.node n).gateType = .OR → (g.preds n).length ≤ 1) :
    T (pushing n) = 0 ∧ T (running n) = 0 ∧ T (finishing n) = 0 ∧ T (firing n) = 0 ∧
      ∀ p ∈ g.nodes, T (todo g p n) = 0 := by
  have htoken := h.token n
  have hfired := h.fired_le n
  have hpos := List.count_pos_iff.2 hn
  have hmem : n ∈ g.nodes := by
    by_contra hmem
    have := (h.outside n hmem).2
    omega
  have hcalled := h.called n hmem
  have hvisits := fun p hp => h.visitCount_add_todo_le hw (p := p) (d := n) hp
  have hself := hvisits n hmem
  have hone := hor n hmem
  rw [← indegree_eq hw.sorted] at hone
  -- the calls of `Fire` are over, and so are the visits
  have hover : T (firing n) = 0 ∧ g.indegree n ≤ visitCount n m.log := by
    unfold TaskDAG.called at hcalled
    split_ifs at hcalled with hgate hleft
    · have hone := hone hgate
      rw [count_roots hw hroots] at hcalled
      split_ifs at hcalled <;> omega
    · have hand : (g.node n).gateType = .AND := by
        cases hg : (g.node n).gateType with
        | AND => rfl
        | OR => exact absurd hg hgate
      have := h.left n hand
      omega
    · omega
  refine ⟨by omega, by omega, by omega, hover.1, fun p hp => ?_⟩
  have := hvisits p hp
  omega

/-- A call of a node counts in one of the sums. -/
theorem touches_pos {f : Frame} {n : Nat} (hn : n ∈ f.touches) :
    0 < pushing n f + running n f + finishing n f + firing n f ∨ ∃ p, 0 < todo g p n f := by
  cases f with
  | forEach x rest =>
    cases rest with
    | nil =>
      obtain rfl : n = x := by simpa [Frame.touches] using hn
      exact .inl (by simp [finishing])
    | cons d rest =>
      simp only [Frame.touches, List.mem_cons, List.not_mem_nil, or_false] at hn
      rcases hn with rfl | rfl
      · exact .inl (by simp [finishing])
      · exact .inr ⟨x, by simp [todo]⟩
  | fire x | push x | wrapper x | finish x | guardStore x e =>
    obtain rfl : n = x := by simpa [Frame.touches] using hn
    exact .inl (by simp [pushing, running, finishing, firing])
  | submit | readEpoch | enqueue | count | listLoad | listStore | listBody => cases hn

variable [DecidableEq κ]

/-- One access of a call retires at most its own node. -/
theorem all_frame (k : κ) (accepted : Bool) (f : Frame)
    (h : m.mgr.All fun n => .retired n ∈ m.log) :
    (frameStep g k accepted m f).1.mgr.All
        (fun n => .retired n ∈ (frameStep g k accepted m f).1.log) ∧
      ∀ n, .retired n ∈ m.log → .retired n ∈ (frameStep g k accepted m f).1.log := by
  obtain ⟨h₁, h₂, h₃⟩ := h
  fun_cases frameStep g k accepted m f <;>
    refine ⟨⟨?_, ?_, ?_⟩, ?_⟩ <;>
    grind [EpochManager.store, EpochManager.enqueue, EpochManager.countRetired]

variable [DecidableEq ι]

theorem EntriesOk.step {a : Act κ ι} (h : EntriesOk s) (hs : step g participants s a = some s') :
    EntriesOk s' := by
  cases a with
  | spawn k => cases hs; exact ⟨h.mgr, h.tick⟩
  | start j n =>
    obtain ⟨c, -, hs⟩ := Option.bind_eq_some_iff.1 hs
    split_ifs at hs
    cases hs
    exact ⟨⟨fun e he => .tail _ (h.mgr.incoming e he), fun e he => .tail _ (h.mgr.pending e he),
      fun n hn => .tail _ (h.mgr.freed n hn)⟩, fun t e he => .tail _ (h.tick t e he)⟩
  | list j =>
    obtain ⟨c, -, hs⟩ := Option.bind_eq_some_iff.1 hs
    split_ifs at hs
    cases hs
    exact ⟨h.mgr, h.tick⟩
  | step j accepted =>
    obtain ⟨c, -, hs⟩ := Option.bind_eq_some_iff.1 hs
    obtain ⟨k, stack⟩ := c
    cases stack with
    | nil => cases hs
    | cons f rest =>
      cases hs
      have hall := all_frame (g := g) k accepted f h.mgr
      exact ⟨hall.1, fun t e he => hall.2 _ (h.tick t e he)⟩
  | tick t i =>
    obtain ⟨⟨m, pc⟩, htick, rfl⟩ := Option.map_eq_some_iff.1 hs
    obtain ⟨hm, hpc⟩ := tickStep_all htick h.mgr (h.tick t)
    exact ⟨hm, Update.forall_of (P := fun _ (pc : TickPc κ Nat) =>
      ∀ e ∈ pc.held, .retired e.ptr ∈ s.shared.log) hpc fun t' _ => h.tick t'⟩

/-- In every run of a graph that `Submit` accepts and in which every OR gate has at most one
predecessor, no call uses a node that was passed to `NodeDeleter`. -/
theorem taskDAG_no_use_after_free {ops : List BuildOp} {k : κ} {as : List (Act κ ι)}
    (hbuild : build ops = some g) (hroots : g.submit = some roots)
    (hor : ∀ n ∈ g.nodes, (g.node n).gateType = .OR → (g.preds n).length ≤ 1)
    (hrun : Lts.run (TaskDAG.step g participants) (State.init g k roots) as = some s) :
    ∀ c ∈ s.ctxs, ∀ f ∈ c.stack, ∀ n ∈ f.touches, n ∉ s.shared.mgr.freed := by
  have hw := wellBuilt_of_submit hbuild hroots
  have hinv := Inv.run hw hroots hrun
  have hentries : EntriesOk s := Lts.run_inv EntriesOk.step
    ⟨⟨by simp [State.init, EpochManager.init], by simp [State.init, EpochManager.init],
      by simp [State.init, EpochManager.init]⟩, by simp [State.init, TickPc.held]⟩ hrun
  intro c hc f hf n hn hfreed
  obtain ⟨h₁, h₂, h₃, h₄, h₅⟩ :=
    hinv.laws.no_use_of_retired hw hroots (hentries.mgr.freed n hfreed) hor
  have hle := fun μ => le_total (μ := μ) hc hf
  rcases touches_pos (g := g) hn with hpos | ⟨p, hpos⟩
  · have := hle (pushing n)
    have := hle (running n)
    have := hle (finishing n)
    have := hle (firing n)
    omega
  · have htodo := hle (todo g p n)
    have hvisited := hinv.laws.visited_le p n
    have hdep : n ∈ (g.node p).dependents := List.count_pos_iff.1 (by omega)
    have := h₅ p (hw.mem p n hdep).1
    omega

end

/-- A task, an OR gate after it, and a task after the gate. -/
def oneOrOps : List BuildOp :=
  [.createNode 1 NONE NONE, .createGate 2 .OR, .createNode 3 NONE NONE, .addDependency 2 1,
    .addDependency 3 2]

def oneOrGraph : Graph := (build oneOrOps).get (by decide)

/-- The task and the gate are retired and freed while the last task is queued; it then runs. -/
def oneOrRun : List (Act Nat Unit) :=
  List.replicate 4 (.step 0 true) ++ [.spawn 1, .start 1 1] ++ List.replicate 18 (.step 1 true) ++
    List.replicate 11 (.tick () 0) ++ [.start 1 3] ++ List.replicate 3 (.step 1 true)

theorem taskDAG_no_use_after_free_oneOrRun : ∃ s : State Nat Unit,
    Lts.run (TaskDAG.step oneOrGraph [0, 1]) (State.init oneOrGraph 0 [1]) oneOrRun = some s ∧
      s.shared.mgr.freed = [1, 2] ∧
      ∀ c ∈ s.ctxs, ∀ f ∈ c.stack, ∀ n ∈ f.touches, n ∉ s.shared.mgr.freed := by
  refine ⟨(Lts.run (TaskDAG.step oneOrGraph [0, 1]) (State.init oneOrGraph 0 [1]) oneOrRun).get
    (by decide), (Option.some_get _).symm, by decide, ?_⟩
  have hbuild : build oneOrOps = some oneOrGraph := (Option.some_get _).symm
  exact taskDAG_no_use_after_free hbuild (by decide) (by decide) (Option.some_get _).symm

/-- The first root runs and fires the gate, which is retired; a tick frees it; then the second root
is about to visit it. -/
def useAfterFreeRun : List (Act Nat Unit) :=
  orRun ++ List.replicate 11 (.tick () 0) ++ [.start 1 2] ++ List.replicate 3 (.step 1 true)

/-- The second predecessor of an OR gate visits the gate after it was passed to `NodeDeleter`. -/
theorem taskDAG_use_after_free : ¬ ∀ (ops : List BuildOp) (g : Graph) (roots : List Nat)
    (as : List (Act Nat Unit)) (s : State Nat Unit), build ops = some g → (pairs ops).Nodup →
      g.submit = some roots → Lts.run (TaskDAG.step g [0, 1]) (State.init g 0 roots) as = some s →
      ∀ c ∈ s.ctxs, ∀ f ∈ c.stack.head?, ∀ n ∈ f.touches, n ∉ s.shared.mgr.freed := by
  intro h
  have hall := h orOps orGraph [1, 2] useAfterFreeRun
    ((Lts.run (TaskDAG.step orGraph [0, 1]) (State.init orGraph 0 [1, 2]) useAfterFreeRun).get
      (by decide))
    (Option.some_get _).symm (by decide) (by decide) (Option.some_get _).symm
  exact absurd hall (by decide)

end JLibScheduler.TaskDAG
