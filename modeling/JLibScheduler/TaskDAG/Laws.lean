import JLibScheduler.TaskDAG.Run

/-!
# Conservation laws of a run

The calls in progress, the queue and the log of a run satisfy linear equations that every step
keeps. A node that passed the exchange of `submitted` is in exactly one place: a call, the queue,
dropped, or retired (`token`). `OnTaskFinished` of `p` visits its dependents once each
(`visits`), the countdown of an AND node is its in-degree less the visits it got (`left`), and
`Fire` is called for an AND node once when the countdown is over, for an OR node once for each
visit (`called`).
-/

namespace JLibScheduler.TaskDAG

/-- The call is `OnTaskFinished` of the node, before its retirement. -/
def finishing (n : Nat) : Frame → Nat
  | .finish x | .guardStore x _ | .forEach x _ | .readEpoch x | .enqueue x _ =>
    if x = n then 1 else 0
  | _ => 0

/-- The call is the push of the node's task. -/
def pushing (n : Nat) : Frame → Nat
  | .push x => if x = n then 1 else 0
  | _ => 0

/-- The call runs the original function of the node. -/
def running (n : Nat) : Frame → Nat
  | .wrapper x => if x = n then 1 else 0
  | _ => 0

/-- How often the call will still visit the dependent `d` of `p`. -/
def todo (g : Graph) (p d : Nat) : Frame → Nat
  | .finish x | .guardStore x _ => if x = p then (g.node p).dependents.count d else 0
  | .forEach x rest => if x = p then rest.count d else 0
  | _ => 0

/-- How many calls of `Fire` for the node the call makes or is. -/
def firing (n : Nat) : Frame → Nat
  | .fire x => if x = n then 1 else 0
  | .submit roots => roots.count n
  | _ => 0

/-- How often the node was visited. -/
def visitCount (d : Nat) : List Event → Nat
  | [] => 0
  | .visited _ x :: log => visitCount d log + if x = d then 1 else 0
  | _ :: log => visitCount d log

/-- How often `Fire` was called for the node, or will be by a call in progress. -/
def called {κ : Type} (g : Graph) (roots : List Nat) (m : Shared κ) (n : Nat) : Nat :=
  if (g.node n).gateType = .OR then visitCount n m.log + roots.count n
  else if m.left n ≤ 0 then 1 else 0

/-- The conservation laws, where `T μ` is the sum of `μ` over the calls in progress. -/
structure Laws {κ : Type} (g : Graph) (roots : List Nat) (m : Shared κ) (T : (Frame → Nat) → Nat) :
    Prop where
  submitted : ∀ n, m.log.count (.fired n) = if m.submitted n then 1 else 0
  token : ∀ n, m.log.count (.fired n) = T (pushing n) + T (running n) + T (finishing n) +
    m.queue.count n + m.log.count (.dropped n) + m.log.count (.retired n)
  entered : ∀ n, m.log.count (.entered n) = T (finishing n) + m.log.count (.retired n)
  visits : ∀ p d, m.log.count (.visited p d) + T (todo g p d) =
    m.log.count (.entered p) * (g.node p).dependents.count d
  left : ∀ n, (g.node n).gateType = .AND →
    m.left n = (g.indegree n : Int) - visitCount n m.log
  called : ∀ n ∈ g.nodes, T (firing n) + m.log.count (.fired n) + m.log.count (.refired n) =
    called g roots m n
  outside : ∀ n, n ∉ g.nodes → T (firing n) = 0 ∧ m.log.count (.fired n) = 0
  refired : ∀ n, .refired n ∈ m.log → m.submitted n = true
  ran : ∀ n, (g.node n).isGate = false → m.log.count (.fired n) =
    T (pushing n) + m.queue.count n + m.log.count (.dropped n) + m.log.count (.ran n)
  returned : ∀ n, m.log.count (.ran n) = T (running n) + m.log.count (.returned n)
  finished : ∀ n, (g.node n).isGate = false →
    m.log.count (.entered n) = m.log.count (.returned n)

section
variable {κ : Type} [DecidableEq κ] {g : Graph} {roots : List Nat} {m m' : Shared κ}
  {T T' : (Frame → Nat) → Nat} {k : κ} {accepted : Bool} {f : Frame} {fs : List Frame}

/-! ## One access of a call

Each law is checked at each place of a call: `hT` gives the sums after the access. -/

section
variable (h : Laws g roots m T)
  (hT : ∀ μ, T' μ + μ f = T μ + ((frameStep g k accepted m f).2.map μ).sum)

include h in
theorem Laws.frame_submitted (n : Nat) :
    (frameStep g k accepted m f).1.log.count (.fired n) =
      if (frameStep g k accepted m f).1.submitted n then 1 else 0 := by
  have h₁ := h.submitted n
  fun_cases frameStep g k accepted m f <;> grind

include h hT in
theorem Laws.frame_token (n : Nat) : (frameStep g k accepted m f).1.log.count (.fired n) =
    T' (pushing n) + T' (running n) + T' (finishing n) +
      (frameStep g k accepted m f).1.queue.count n +
      (frameStep g k accepted m f).1.log.count (.dropped n) +
      (frameStep g k accepted m f).1.log.count (.retired n) := by
  have h₁ := h.token n
  have h₂ := hT (pushing n)
  have h₃ := hT (running n)
  have h₄ := hT (finishing n)
  revert h₂ h₃ h₄
  fun_cases frameStep g k accepted m f <;> grind [pushing, running, finishing]

include h hT in
theorem Laws.frame_entered (n : Nat) :
    (frameStep g k accepted m f).1.log.count (.entered n) =
      T' (finishing n) + (frameStep g k accepted m f).1.log.count (.retired n) := by
  have h₁ := h.entered n
  have h₂ := hT (finishing n)
  revert h₂
  fun_cases frameStep g k accepted m f <;> grind [finishing]

include h hT in
theorem Laws.frame_visits (p d : Nat) :
    (frameStep g k accepted m f).1.log.count (.visited p d) + T' (todo g p d) =
      (frameStep g k accepted m f).1.log.count (.entered p) * (g.node p).dependents.count d := by
  have h₁ := h.visits p d
  have h₂ := hT (todo g p d)
  revert h₂
  fun_cases frameStep g k accepted m f <;> grind [todo]

include h in
theorem Laws.frame_left (n : Nat) (hn : (g.node n).gateType = .AND) :
    (frameStep g k accepted m f).1.left n =
      (g.indegree n : Int) - visitCount n (frameStep g k accepted m f).1.log := by
  have h₁ := h.left n hn
  fun_cases frameStep g k accepted m f with
  | case12 p d rest hor left =>
    by_cases hd : n = d
    · subst hd
      simp [visitCount, left]
      omega
    · simp [visitCount, hd, Ne.symm hd, h₁]
  | _ => grind [visitCount]

include h hT in
theorem Laws.frame_called (n : Nat) (hn : n ∈ g.nodes) :
    T' (firing n) + (frameStep g k accepted m f).1.log.count (.fired n) +
        (frameStep g k accepted m f).1.log.count (.refired n) =
      TaskDAG.called g roots (frameStep g k accepted m f).1 n := by
  have h₁ := h.called n hn
  have h₂ := hT (firing n)
  revert h₂
  unfold TaskDAG.called at h₁ ⊢
  fun_cases frameStep g k accepted m f with
  | case12 p d rest hor left =>
    intro h₂
    by_cases hd : n = d
    · subst hd
      simp only [hor, if_false, Function.update_self, left] at h₁ ⊢
      split_ifs at h₁ h₂ ⊢ <;> simp [firing] at h₁ h₂ ⊢ <;> omega
    · have hfire : (if left = 0 then [Frame.fire d, .forEach p rest] else [.forEach p rest]).map
          (firing n) = if left = 0 then [0, 0] else [0] := by
        split_ifs <;> simp [firing, Ne.symm hd]
      rw [hfire] at h₂
      simp only [visitCount, hd, Ne.symm hd, Function.update_of_ne, ne_eq, not_false_eq_true,
        if_false, Nat.add_zero] at h₁ ⊢
      rw [← h₁]
      split_ifs at h₂ <;> simp [firing] at h₂ ⊢ <;> omega
  | _ => grind [firing, visitCount]

include h hT in
/-- A visit is of a node of the graph. -/
theorem Laws.frame_outside (hw : WellBuilt g) (n : Nat) (hn : n ∉ g.nodes) :
    T' (firing n) = 0 := by
  have h₁ := (h.outside n hn).1
  have hdep : ∀ p, (g.node p).dependents.count n = 0 := fun p =>
    List.count_eq_zero.2 fun hd => hn (hw.mem p n hd).2
  have htodo : ∀ p, T (todo g p n) = 0 := fun p => by
    have := h.visits p n
    rw [hdep, Nat.mul_zero] at this
    omega
  cases f with
  | forEach p rest =>
    have h₂ := hT (firing n)
    have h₃ := hT (todo g p n)
    have h₄ := htodo p
    cases rest with
    | nil => simpa [frameStep, firing, h₁] using h₂
    | cons d rest =>
      have hd : d ≠ n := by
        rintro rfl
        revert h₃
        simp only [frameStep, todo]
        split_ifs <;> simp [todo] <;> omega
      revert h₂
      simp only [frameStep]
      split_ifs <;> simp [firing, hd, h₁]
  | submit roots =>
    have h₂ := hT (firing n)
    cases roots with
    | nil => simpa [frameStep, firing, h₁] using h₂
    | cons r roots =>
      simp only [frameStep, firing, List.count_cons, List.map_cons, List.sum_cons, List.map_nil,
        List.sum_nil, beq_iff_eq, h₁] at h₂
      omega
  | fire x =>
    have h₂ := hT (firing n)
    revert h₂
    simp only [frameStep]
    split_ifs <;> simp [firing, h₁] <;> omega
  | push x =>
    have h₂ := hT (firing n)
    revert h₂
    simp only [frameStep]
    split_ifs <;> simp [firing, h₁]
  | _ => simpa [frameStep, firing, h₁] using hT (firing n)

include h hT in
theorem Laws.frame_outside_fired (n : Nat) (hn : n ∉ g.nodes) :
    (frameStep g k accepted m f).1.log.count (.fired n) = 0 := by
  have h₁ := h.outside n hn
  have h₂ := hT (firing n)
  revert h₂
  fun_cases frameStep g k accepted m f <;> grind [firing]

include h in
theorem Laws.frame_refired (n : Nat) (hn : .refired n ∈ (frameStep g k accepted m f).1.log) :
    (frameStep g k accepted m f).1.submitted n = true := by
  have h₁ := h.refired n
  revert hn
  fun_cases frameStep g k accepted m f <;> grind

include h hT in
theorem Laws.frame_ran (n : Nat) (hn : (g.node n).isGate = false) :
    (frameStep g k accepted m f).1.log.count (.fired n) =
      T' (pushing n) + (frameStep g k accepted m f).1.queue.count n +
        (frameStep g k accepted m f).1.log.count (.dropped n) +
        (frameStep g k accepted m f).1.log.count (.ran n) := by
  have h₁ := h.ran n hn
  have h₂ := hT (pushing n)
  revert h₂
  fun_cases frameStep g k accepted m f <;> grind [pushing]

include h hT in
theorem Laws.frame_returned (n : Nat) :
    (frameStep g k accepted m f).1.log.count (.ran n) =
      T' (running n) + (frameStep g k accepted m f).1.log.count (.returned n) := by
  have h₁ := h.returned n
  have h₂ := hT (running n)
  revert h₂
  fun_cases frameStep g k accepted m f <;> grind [running]

include h in
theorem Laws.frame_finished (n : Nat) (hn : (g.node n).isGate = false) :
    (frameStep g k accepted m f).1.log.count (.entered n) =
      (frameStep g k accepted m f).1.log.count (.returned n) := by
  have h₁ := h.finished n hn
  fun_cases frameStep g k accepted m f <;> grind

include h hT in
/-- One access of a call keeps the laws. -/
theorem Laws.frame (hw : WellBuilt g) : Laws g roots (frameStep g k accepted m f).1 T' :=
  ⟨h.frame_submitted, h.frame_token hT, h.frame_entered hT, h.frame_visits hT,
    h.frame_left, h.frame_called hT,
    fun n hn => ⟨h.frame_outside hT hw n hn, h.frame_outside_fired hT n hn⟩, h.frame_refired,
    h.frame_ran hT, h.frame_returned hT, h.frame_finished⟩

end

/-! ## Other steps -/

omit [DecidableEq κ] in
/-- A context takes the task of a node from the queue. -/
theorem Laws.start (h : Laws g roots m T) {n : Nat} (hn : n ∈ m.queue)
    (hT : ∀ μ, T' μ = T μ + μ (.wrapper n)) :
    Laws g roots { m with queue := m.queue.erase n, log := .ran n :: m.log } T' := by
  have hcount : ∀ x, (m.queue.erase n).count x + (if x = n then 1 else 0) = m.queue.count x := by
    intro x
    have hpos : 0 < m.queue.count n := List.count_pos_iff.2 hn
    by_cases hx : x = n
    · subst hx
      rw [List.count_erase_self, if_pos rfl]
      omega
    · rw [List.count_erase_of_ne hx, if_neg hx, Nat.add_zero]
  refine ⟨fun x => ?_, fun x => ?_, fun x => ?_, fun p d => ?_, fun x hx => ?_, fun x hx => ?_,
    fun x hx => ?_, fun x hx => ?_, fun x hx => ?_, fun x => ?_, fun x hx => ?_⟩
  · simpa [List.count_cons] using h.submitted x
  · have h₁ := h.token x
    have h₂ := hcount x
    rw [hT, hT, hT]
    simp only [List.count_cons, pushing, running, finishing]
    grind
  · simpa [hT, finishing, List.count_cons] using h.entered x
  · simpa [hT, todo, List.count_cons] using h.visits p d
  · simpa [visitCount] using h.left x hx
  · simpa [hT, firing, TaskDAG.called, visitCount, List.count_cons] using h.called x hx
  · simpa [hT, firing, List.count_cons] using h.outside x hx
  · exact h.refired x (by simpa using hx)
  · have h₁ := h.ran x hx
    have h₂ := hcount x
    rw [hT]
    simp only [List.count_cons, pushing]
    grind
  · have h₁ := h.returned x
    rw [hT]
    simp only [List.count_cons, running]
    grind
  · simpa [List.count_cons] using h.finished x hx

omit [DecidableEq κ] in
/-- A step that changes neither the log nor the countdowns, and whose new calls are of no node. -/
theorem Laws.congr (h : Laws g roots m T) (hleft : m'.left = m.left)
    (hsub : m'.submitted = m.submitted) (hqueue : m'.queue = m.queue) (hlog : m'.log = m.log)
    (hT : ∀ n p d, T' (pushing n) = T (pushing n) ∧ T' (running n) = T (running n) ∧
      T' (finishing n) = T (finishing n) ∧ T' (firing n) = T (firing n) ∧
      T' (todo g p d) = T (todo g p d)) : Laws g roots m' T' := by
  have hcalled : TaskDAG.called g roots m' = TaskDAG.called g roots m := by
    funext n
    simp only [TaskDAG.called, hlog, hleft]
  refine ⟨?_, fun n => ?_, fun n => ?_, fun p d => ?_, ?_, fun n => ?_, fun n => ?_, ?_,
    fun n => ?_, fun n => ?_, ?_⟩
  · rw [hlog, hsub]; exact h.submitted
  · rw [hlog, hqueue, (hT n 0 0).1, (hT n 0 0).2.1, (hT n 0 0).2.2.1]; exact h.token n
  · rw [hlog, (hT n 0 0).2.2.1]; exact h.entered n
  · rw [hlog, (hT 0 p d).2.2.2.2]; exact h.visits p d
  · rw [hlog, hleft]; exact h.left
  · rw [hcalled, hlog, (hT n 0 0).2.2.2.1]; exact h.called n
  · rw [hlog, (hT n 0 0).2.2.2.1]; exact h.outside n
  · rw [hlog, hsub]; exact h.refired
  · rw [hlog, hqueue, (hT n 0 0).1]; exact h.ran n
  · rw [hlog, (hT n 0 0).2.1]; exact h.returned n
  · rw [hlog]; exact h.finished

omit [DecidableEq κ] in
/-- The laws hold when the roots are about to be fired. -/
theorem Laws.init (hw : WellBuilt g) (hroots : g.submit = some roots)
    (hleft : ∀ n, m.left n = (g.node n).dependenciesLeft) (hsub : ∀ n, m.submitted n = false)
    (hqueue : m.queue = []) (hlog : m.log = []) (hT : ∀ μ, T μ = μ (.submit roots)) :
    Laws g roots m T := by
  have hcount := count_roots hw hroots
  refine ⟨fun n => ?_, fun n => ?_, fun n => ?_, fun p d => ?_, fun n _ => ?_, fun n hn => ?_,
    fun n hn => ?_, fun n hn => by simp [hlog] at hn, fun n _ => ?_, fun n => ?_, fun n _ => ?_⟩
  all_goals simp only [hlog, hqueue, hT, List.count_nil]
  · simp [hsub]
  · simp [pushing, running, finishing]
  · simp [finishing]
  · simp [todo]
  · simp [hleft, hw.left n, visitCount]
  · simp only [firing, TaskDAG.called, hlog, visitCount, hleft, hcount, hn, true_and, hw.left]
    split_ifs <;> omega
  · simp [firing, hcount, hn]
  · simp [pushing]
  · simp [running]

/-! ## What the laws say of a graph -/

omit [DecidableEq κ]

theorem Laws.fired_le (h : Laws g roots m T) (n : Nat) : m.log.count (.fired n) ≤ 1 := by
  rw [h.submitted n]
  split_ifs <;> omega

theorem Laws.entered_le (h : Laws g roots m T) (n : Nat) : m.log.count (.entered n) ≤ 1 := by
  have h₁ := h.fired_le n
  have h₂ := h.token n
  have h₃ := h.entered n
  omega

/-- A dependent is visited at most once for each of its entries. -/
theorem Laws.visited_le (h : Laws g roots m T) (p d : Nat) :
    m.log.count (.visited p d) + T (todo g p d) ≤ (g.node p).dependents.count d := by
  have h₁ := Nat.mul_le_mul_right ((g.node p).dependents.count d) (h.entered_le p)
  have h₂ := h.visits p d
  omega

/-- A visit is made by `OnTaskFinished` of a predecessor. -/
theorem Laws.of_visited (h : Laws g roots m T) (hw : WellBuilt g) {p d : Nat}
    (hv : .visited p d ∈ m.log) : p ∈ g.preds d ∧ .entered p ∈ m.log := by
  have hpos : 0 < m.log.count (.visited p d) := List.count_pos_iff.2 hv
  have hvis := h.visits p d
  have hmul : 0 < m.log.count (.entered p) * (g.node p).dependents.count d := by omega
  have hent : 0 < m.log.count (.entered p) := Nat.pos_of_mul_pos_right hmul
  have hd := List.count_pos_iff.1 (Nat.pos_of_mul_pos_left hmul)
  refine ⟨?_, List.count_pos_iff.1 hent⟩
  simpa [Graph.preds] using ⟨(hw.mem p d hd).1, hd⟩

/-- The visits of a node, by visitor. -/
theorem visitCount_eq {log : List Event} {nodes : List Nat} (hnodes : nodes.Nodup) (d : Nat)
    (hlog : ∀ p, .visited p d ∈ log → p ∈ nodes) :
    visitCount d log = (nodes.map fun p => log.count (.visited p d)).sum := by
  induction log with
  | nil => simp [visitCount]
  | cons e log ih =>
    have ih := ih fun p hp => hlog p (.tail _ hp)
    by_cases he : ∃ p, e = .visited p d
    · obtain ⟨p, rfl⟩ := he
      have hcount : (nodes.map fun q => (Event.visited p d :: log).count (.visited q d)) =
          nodes.map fun q => log.count (.visited q d) + if q = p then 1 else 0 := by
        refine List.map_congr_left fun q _ => ?_
        by_cases hq : q = p
        · simp [hq]
        · rw [List.count_cons_of_ne (by simp [Ne.symm hq]), if_neg hq, Nat.add_zero]
      rw [hcount, Sums.map_add_ite hnodes (hlog p (.head _)), ← ih]
      simp [visitCount]
    · have hcount : (nodes.map fun q => (e :: log).count (.visited q d)) =
          nodes.map fun q => log.count (.visited q d) := by
        refine List.map_congr_left fun q _ => List.count_cons_of_ne fun heq => he ⟨q, heq⟩
      rw [hcount, ← ih]
      cases e with
      | visited q x => simp [visitCount, show x ≠ d from fun hx => he ⟨q, by rw [hx]⟩]
      | _ => simp [visitCount]

theorem Laws.visitCount_eq (h : Laws g roots m T) (hw : WellBuilt g) (d : Nat) :
    visitCount d m.log = (g.nodes.map fun p => m.log.count (.visited p d)).sum :=
  TaskDAG.visitCount_eq hw.nodup d fun _ hp => (List.mem_filter.1 (h.of_visited hw hp).1).1

/-- The visits of a node and those still to be made by the calls of `p`. -/
theorem Laws.visitCount_add_todo_le (h : Laws g roots m T) (hw : WellBuilt g) {p d : Nat}
    (hp : p ∈ g.nodes) : visitCount d m.log + T (todo g p d) ≤ g.indegree d := by
  rw [h.visitCount_eq hw, ← Sums.map_add_ite hw.nodup hp, Graph.indegree]
  refine List.sum_le_sum fun q _ => ?_
  have hle := h.visited_le q d
  split_ifs with hq
  · subst hq; exact hle
  · omega

/-- When an AND node has counted down, each of its predecessors has visited it. -/
theorem Laws.visited_of_left (h : Laws g roots m T) (hw : WellBuilt g) {n p : Nat}
    (hn : (g.node n).gateType = .AND) (hleft : m.left n ≤ 0) (hp : p ∈ g.preds n) :
    .visited p n ∈ m.log := by
  obtain ⟨hmem, hdep⟩ : p ∈ g.nodes ∧ n ∈ (g.node p).dependents := by
    simpa [Graph.preds] using hp
  by_contra hv
  have hlt : (g.nodes.map fun q => m.log.count (.visited q n)).sum < g.indegree n := by
    refine List.sum_lt_sum _ _ (fun q _ => ?_) ⟨p, hmem, ?_⟩
    · have := h.visited_le q n
      omega
    · rw [List.count_eq_zero.2 hv]
      exact List.count_pos_iff.2 hdep
  have heq := h.left n hn
  rw [h.visitCount_eq hw] at heq
  omega

end

end JLibScheduler.TaskDAG
