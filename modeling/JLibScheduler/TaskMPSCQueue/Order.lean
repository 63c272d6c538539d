import Mathlib.Data.List.Chain
import JLibScheduler.Lib.Adjacent
import JLibScheduler.TaskMPSCQueue.Basic

/-!
# The queue returns the tasks in the order of the exchanges

The nodes between `tail_` and `head_` form a list `q` of distinct nodes in which the stub occurs at
most once. Its links need not all be there: for two neighbours `a`, `b` either `a`'s `next` is
`b`, or it is null and exactly one append has exchanged `head_` at `a` and is about to link it to
`b`. `MemInv` says this, and what is private to the appends that have not exchanged yet; the tasks
returned so far and the tasks of `q` are the tasks pushed, in order. `Inv` adds where the consumer
stands.
-/

namespace JLibScheduler.TaskMPSCQueue

open Adjacent

section
variable {ι τ : Type} {stub : τ} {s s' : State ι τ} {q q' : List τ} {w : Option ι} {b : Batch τ}
  {x : τ}

/-- The tasks of an append that has not exchanged `head_`. -/
def AppendPc.owned : AppendPc τ → List τ
  | .clear b | .exchange b => b.tasks
  | .idle | .link _ _ => []

/-- The tasks of an append before its exchange: distinct, linked in order, in no queue; the
consumer's is the stub. -/
structure OwnedOk (stub : τ) (s : State ι τ) (q : List τ) (w : Option ι) (b : Batch τ) : Prop where
  nodup : b.tasks.Nodup
  chain : ∀ a c, Adj b.tasks a c → s.next a = some c
  notMem : ∀ x ∈ b.tasks, x ∉ q
  live : ∀ x ∈ b.tasks, x ≠ stub → s.live x = true
  ofStub : stub ∈ b.tasks → w = none

/-- What holds at each place of an append. -/
def AppendOk (stub : τ) (s : State ι τ) (q : List τ) (w : Option ι) : AppendPc τ → Prop
  | .idle => True
  | .clear b => OwnedOk stub s q w b
  | .exchange b => OwnedOk stub s q w b ∧ s.next b.last = none
  | .link a b => Adj q a b ∧ s.next a = none

/-- The invariant of the linked list: `q` is the list of its nodes, from `tail_` to `head_`. -/
structure MemInv [DecidableEq τ] (stub : τ) (s : State ι τ) (q : List τ) : Prop where
  head : q.head? = some s.tail
  last : q.getLast? = some s.head
  nodup : q.Nodup
  null : s.next s.head = none
  links : ∀ a b, Adj q a b → s.next a = some b ∨
    (s.next a = none ∧ ∃ w, s.appending w = .link a b)
  append : ∀ w, AppendOk stub s q w (s.appending w)
  prev : ∀ w w' a b b', s.appending w = .link a b → s.appending w' = .link a b' → w = w'
  disjoint : ∀ w w', w ≠ w' → List.Disjoint (s.appending w).owned (s.appending w').owned
  order : s.returned ++ q.filter (· ≠ stub) = s.pushed
  live : ∀ x ∈ q, x ≠ stub → s.live x = true
  notReturned : stub ∉ s.returned

/-- What holds at each place of `pop`. -/
def ConsumerOk (stub : τ) (s : State ι τ) (q : List τ) : ConsumerPc τ → Prop
  | .idle | .loadNext => s.appending none = .idle
  | .skipStub t => s.appending none = .idle ∧ s.tail = t ∧ t ≠ stub
  | .loadHead t => s.appending none = .idle ∧ s.tail = t ∧ t ≠ stub ∧
      (s.quiet = true → s.next t = none)
  | .appendStub t => s.appending none ≠ .idle ∧ s.tail = t ∧ t ≠ stub ∧
      (stub ∈ (s.appending none).owned ∨ stub ∈ q)
  | .reloadNext t => s.appending none = .idle ∧ s.tail = t ∧ t ≠ stub ∧ stub ∈ q

/-- The invariant of the queue and its users. -/
structure Inv [DecidableEq τ] (stub : τ) (s : State ι τ) (q : List τ) : Prop where
  mem : MemInv stub s q
  consumer : ConsumerOk stub s q s.consumer
  busy : ∀ i, i ∈ s.busy ↔ s.appending (some i) ≠ .idle
  quiet : s.quiet = true → s.busy = ∅

/-! ## Frames -/

theorem Batch.last_mem (b : Batch τ) : b.last ∈ b.tasks := List.getLast_mem b.ne

theorem OwnedOk.frame (h : OwnedOk stub s q w b) (hnext : ∀ x ∈ b.tasks, s'.next x = s.next x)
    (hq : ∀ x ∈ b.tasks, x ∉ q') (hlive : ∀ x ∈ b.tasks, s.live x = true → s'.live x = true) :
    OwnedOk stub s' q' w b where
  nodup := h.nodup
  chain a c hac := (hnext a hac.mem_left).trans (h.chain a c hac)
  notMem := hq
  live x hx hne := hlive x hx (h.live x hx hne)
  ofStub := h.ofStub

/-- An append keeps what it owns, and its link, when the step touches neither. -/
theorem AppendOk.frame {pc : AppendPc τ} (h : AppendOk stub s q w pc)
    (hnext : ∀ x ∈ pc.owned, s'.next x = s.next x) (hq : ∀ x ∈ pc.owned, x ∉ q')
    (hlive : ∀ x ∈ pc.owned, s.live x = true → s'.live x = true)
    (hlink : ∀ a b, pc = .link a b → Adj q a b → s.next a = none →
      Adj q' a b ∧ s'.next a = none) : AppendOk stub s' q' w pc := by
  cases pc with
  | idle => trivial
  | clear b => exact OwnedOk.frame h hnext hq hlive
  | exchange b => exact ⟨h.1.frame hnext hq hlive, (hnext _ b.last_mem).trans h.2⟩
  | link a b => exact hlink a b rfl h.1 h.2

/-- The place of the consumer says nothing about the memory off the queue. -/
theorem ConsumerOk.frame {pc : ConsumerPc τ} (h : ConsumerOk stub s q pc)
    (happ : s'.appending none = s.appending none) (htail : s'.tail = s.tail)
    (hq : stub ∈ q → stub ∈ q')
    (hquiet : s'.quiet = true → s.quiet = true ∧ (s.next s.tail = none → s'.next s.tail = none)) :
    ConsumerOk stub s' q' pc := by
  cases pc with
  | idle | loadNext => exact happ.trans h
  | skipStub t => exact ⟨happ.trans h.1, htail.trans h.2.1, h.2.2⟩
  | loadHead t =>
    obtain ⟨h₁, rfl, h₃, h₄⟩ := h
    exact ⟨happ.trans h₁, htail, h₃, fun hq => (hquiet hq).2 (h₄ (hquiet hq).1)⟩
  | appendStub t =>
    obtain ⟨h₁, h₂, h₃, h₄⟩ := h
    exact ⟨by rwa [happ], htail.trans h₂, h₃, by rw [happ]; exact h₄.imp_right hq⟩
  | reloadNext t => exact ⟨happ.trans h.1, htail.trans h.2.1, h.2.2.1, hq h.2.2.2⟩

/-! ## Moving one append -/

section
variable [DecidableEq ι]

/-- The appends after one of them has moved to `pc`. -/
theorem forall_append_update {f : Option ι → AppendPc τ} {w₀ : Option ι} {pc : AppendPc τ}
    (hpc : AppendOk stub s' q' w₀ pc) (h : ∀ w, w ≠ w₀ → AppendOk stub s' q' w (f w))
    (w : Option ι) : AppendOk stub s' q' w (Function.update f w₀ pc w) := by
  by_cases hw : w = w₀
  · subst hw; rwa [Function.update_self]
  · rw [Function.update_of_ne hw]; exact h w hw

theorem disjoint_update {f : Option ι → AppendPc τ} {w₀ : Option ι} {pc : AppendPc τ}
    (h : ∀ w w', w ≠ w' → List.Disjoint (f w).owned (f w').owned)
    (hpc : ∀ w, w ≠ w₀ → List.Disjoint pc.owned (f w).owned) (w w' : Option ι) (hne : w ≠ w') :
    List.Disjoint (Function.update f w₀ pc w).owned (Function.update f w₀ pc w').owned := by
  by_cases hw : w = w₀
  · subst hw
    rw [Function.update_self, Function.update_of_ne hne.symm]
    exact hpc w' hne.symm
  · rw [Function.update_of_ne hw]
    by_cases hw' : w' = w₀
    · subst hw'
      rw [Function.update_self]
      exact (hpc w hw).symm
    · rw [Function.update_of_ne hw']
      exact h w w' hne

theorem prev_update {f : Option ι → AppendPc τ} {w₀ : Option ι} {pc : AppendPc τ}
    (h : ∀ w w' a b b', f w = .link a b → f w' = .link a b' → w = w')
    (hpc : ∀ a b, pc = .link a b → ∀ w b', w ≠ w₀ → f w ≠ .link a b') (w w' : Option ι)
    (a b b' : τ) (hw : Function.update f w₀ pc w = .link a b)
    (hw' : Function.update f w₀ pc w' = .link a b') : w = w' := by
  by_cases hw₀ : w = w₀
  · subst hw₀
    rw [Function.update_self] at hw
    by_contra hne
    rw [Function.update_of_ne (Ne.symm hne)] at hw'
    exact hpc a b hw w' b' (Ne.symm hne) hw'
  · rw [Function.update_of_ne hw₀] at hw
    by_cases hw₀' : w' = w₀
    · subst hw₀'
      rw [Function.update_self] at hw'
      exact absurd hw (hpc a b' hw' w b hw₀)
    · rw [Function.update_of_ne hw₀'] at hw'
      exact h w w' a b b' hw hw'

theorem update_some_none (f : Option ι → AppendPc τ) (i : ι) (pc : AppendPc τ) :
    Function.update f (some i) pc none = f none := by
  simp

theorem update_none_some (f : Option ι → AppendPc τ) (i : ι) (pc : AppendPc τ) :
    Function.update f none pc (some i) = f (some i) := by
  simp

end

/-! ## The tasks an append owns -/

variable [DecidableEq τ]

/-- What an append before its exchange owns. -/
theorem MemInv.ownedOk (h : MemInv stub s q) (hx : x ∈ (s.appending w).owned) :
    ∃ b, OwnedOk stub s q w b ∧ x ∈ b.tasks := by
  have happ := h.append w
  cases hw : s.appending w with
  | idle | link a b => rw [hw] at hx; cases hx
  | clear b => rw [hw] at hx happ; exact ⟨b, happ, hx⟩
  | exchange b => rw [hw] at hx happ; exact ⟨b, happ.1, hx⟩

theorem MemInv.owned_notMem (h : MemInv stub s q) (hx : x ∈ (s.appending w).owned) : x ∉ q := by
  obtain ⟨b, hb, hx⟩ := h.ownedOk hx
  exact hb.notMem x hx

theorem MemInv.owned_live (h : MemInv stub s q) (hx : x ∈ (s.appending w).owned) (hne : x ≠ stub) :
    s.live x = true := by
  obtain ⟨b, hb, hx⟩ := h.ownedOk hx
  exact hb.live x hx hne

theorem MemInv.tail_mem (h : MemInv stub s q) : s.tail ∈ q := List.mem_of_head? h.head

theorem MemInv.head_mem (h : MemInv stub s q) : s.head ∈ q := List.mem_of_getLast? h.last

/-- The step of a user that touches neither the list nor the appends. -/
theorem MemInv.congr (h : MemInv stub s q) (hnext : s'.next = s.next) (hhead : s'.head = s.head)
    (htail : s'.tail = s.tail) (happ : s'.appending = s.appending) (hpushed : s'.pushed = s.pushed)
    (hret : s'.returned = s.returned) (hlive : s'.live = s.live) : MemInv stub s' q where
  head := htail ▸ h.head
  last := hhead ▸ h.last
  nodup := h.nodup
  null := by rw [hnext, hhead]; exact h.null
  links := by rw [hnext, happ]; exact h.links
  append w := by
    rw [happ]
    refine (h.append w).frame (fun x _ => by rw [hnext]) (fun x hx => h.owned_notMem hx)
      (fun x _ hl => by rwa [hlive]) fun a b _ hab hn => ⟨hab, by rwa [hnext]⟩
  prev := by rw [happ]; exact h.prev
  disjoint := by rw [happ]; exact h.disjoint
  order := by rw [hret, hpushed]; exact h.order
  live := by rw [hlive]; exact h.live
  notReturned := by rw [hret]; exact h.notReturned

/-- A client writes the `next` of a task in no queue. -/
theorem MemInv.write (h : MemInv stub s q) {v : Option τ} (hx : x ≠ stub)
    (hlive : s.live x = false) : MemInv stub { s with next := Function.update s.next x v } q := by
  have hnext : ∀ y, (y ≠ stub → s.live y = true) → Function.update s.next x v y = s.next y := by
    intro y hy
    rw [Function.update_of_ne]
    rintro rfl
    exact absurd (hy hx) (by rw [hlive]; exact nofun)
  have hq : ∀ y ∈ q, Function.update s.next x v y = s.next y := fun y hy => hnext y (h.live y hy)
  exact { h with
    null := (hq _ h.head_mem).trans h.null
    links := fun a b hab => by
      dsimp only
      rw [hq a hab.mem_left]
      exact h.links a b hab
    append := fun w => (h.append w).frame (fun y hy => hnext y (h.owned_live hy))
      (fun y hy => h.owned_notMem hy) (fun _ _ => id) fun a b _ hab hn =>
        ⟨hab, (hq a hab.mem_left).trans hn⟩ }

/-! ## The list loses its first node -/

/-- The first node leaves the list. -/
theorem MemInv.dequeue (h : MemInv stub s q) {n : τ} {rest : List τ} (returned : List τ)
    (live : τ → Bool)    (hq : q = s.tail :: n :: rest) (hn : s.next s.tail = some n)
    (horder : returned ++ (n :: rest).filter (· ≠ stub) = s.pushed)
    (hlive : ∀ y, y ≠ s.tail → s.live y = true → live y = true) (hstub : stub ∉ returned) :
    MemInv stub { s with tail := n, returned, live } (n :: rest) := by
  have hnodup := h.nodup
  rw [hq, List.nodup_cons] at hnodup
  have htl : ∀ y ∈ n :: rest, y ∈ q := fun y hy => by rw [hq]; exact .tail _ hy
  have hneTail : ∀ y ∈ n :: rest, y ≠ s.tail := fun y hy hyt => hnodup.1 (hyt ▸ hy)
  exact
    { head := rfl
      last := by rw [← h.last, hq, List.getLast?_cons_cons]
      nodup := hnodup.2
      null := h.null
      links := fun a c hac => h.links a c (by rw [hq]; exact .inr hac)
      append := fun w => (h.append w).frame (fun _ _ => rfl)
        (fun x hx hx' => h.owned_notMem hx (htl x hx'))
        (fun x hx => hlive x fun hxt => h.owned_notMem hx (hxt ▸ h.tail_mem))
        fun a c _ hac hnone => by
          refine ⟨?_, hnone⟩
          rw [hq] at hac
          rcases hac with ⟨rfl, -⟩ | hac
          · rw [hn] at hnone; cases hnone
          · exact hac
      prev := h.prev
      disjoint := h.disjoint
      order := horder
      live := fun x hx hne => hlive x (hneTail x hx) (h.live x (htl x hx) hne)
      notReturned := hstub }

/-- A `next` that is there is the link to the second node. -/
theorem MemInv.next_tail (h : MemInv stub s q) {n : τ} (hn : s.next s.tail = some n) :
    ∃ rest, q = s.tail :: n :: rest := by
  have hne : s.head ≠ s.tail := by
    intro heq
    rw [← heq, h.null] at hn
    cases hn
  obtain ⟨c, m, hq⟩ := exists_adj_head h.head h.head_mem hne
  rcases h.links s.tail c (by rw [hq]; exact .inl ⟨rfl, rfl⟩) with hc | ⟨hc, -⟩
  · obtain rfl : c = n := Option.some.inj (hc.symm.trans hn)
    exact ⟨m, hq⟩
  · rw [hn] at hc; cases hc

/-- While `tail_` is a task, not every task has been returned. -/
theorem MemInv.returned_ne (h : MemInv stub s q) (ht : s.tail ≠ stub) : s.returned ≠ s.pushed := by
  intro heq
  have horder := h.order
  rw [heq, List.append_right_eq_self, List.filter_eq_nil_iff] at horder
  exact horder s.tail h.tail_mem (decide_eq_true ht)

/-! ## The places of `pop` -/

/-- While a producer is inside a push the current `pop` is not quiet. -/
theorem Inv.not_quiet (h : Inv stub s q) {i : ι} (hi : s.appending (some i) ≠ .idle) :
    s.quiet ≠ true := fun hq => by
  have hmem := (h.busy i).2 hi
  rw [h.quiet hq] at hmem
  exact absurd hmem (Finset.notMem_empty i)

/-- In a quiet `pop`, a null `next` at `tail_` says that `tail_` is the only node. -/
theorem Inv.eq_singleton (h : Inv stub s q) (hquiet : s.quiet = true)
    (hnone : s.appending none = .idle) (hn : s.next s.tail = none) : q = [s.tail] := by
  rcases hq : q with _ | ⟨t, m⟩
  · exact absurd h.mem.tail_mem (by simp [hq])
  · obtain rfl : t = s.tail := by simpa [hq] using h.mem.head
    cases m with
    | nil => rfl
    | cons c m =>
      rcases h.mem.links s.tail c (by rw [hq]; exact .inl ⟨rfl, rfl⟩) with hc | ⟨-, w, hw⟩
      · rw [hn] at hc; cases hc
      · cases w with
        | none => rw [hnone] at hw; cases hw
        | some i => exact absurd hquiet (h.not_quiet (by rw [hw]; exact nofun))

/-- `pop` returns the task at `tail_`. -/
theorem Inv.popTrue (h : Inv stub s q) {n : τ} (hnone : s.appending none = .idle)
    (ht : s.tail ≠ stub) (hn : s.next s.tail = some n) :
    ∃ q', Inv stub (s.popTrue s.tail n) q' := by
  obtain ⟨rest, hq⟩ := h.mem.next_tail hn
  have horder := h.mem.order
  rw [hq, List.filter_cons_of_pos (by simpa using ht)] at horder
  refine ⟨n :: rest, (h.mem.dequeue (s.returned ++ [s.tail])
    (Function.update s.live s.tail false) hq hn ?_ (fun y hy hl => ?_) ?_).congr
    rfl rfl rfl rfl rfl rfl rfl, hnone, h.busy, h.quiet⟩
  · rwa [List.append_assoc]
  · rwa [Function.update_of_ne hy]
  · simp [h.mem.notReturned, ht.symm]

/-- `pop` has read a null `next` at the task `tail_`. -/
theorem Inv.toLoadHead (h : Inv stub s q) (hnone : s.appending none = .idle) (ht : s.tail ≠ stub)
    (hn : s.next s.tail = none) : Inv stub { s with consumer := .loadHead s.tail } q :=
  ⟨h.mem.congr rfl rfl rfl rfl rfl rfl rfl, ⟨hnone, rfl, ht, fun _ => hn⟩, h.busy, h.quiet⟩

/-- `tail_` moves past the stub. -/
theorem Inv.skipStub (h : Inv stub s q) {n : τ} (hnone : s.appending none = .idle)
    (ht : s.tail = stub) (hn : s.next s.tail = some n) :
    ∃ q', Inv stub { s with tail := n, consumer := .skipStub n } q' := by
  obtain ⟨rest, hq⟩ := h.mem.next_tail hn
  have horder := h.mem.order
  have hnodup := h.mem.nodup
  rw [hq, ht, List.nodup_cons] at hnodup
  rw [hq, List.filter_cons_of_neg (by simpa using ht)] at horder
  refine ⟨n :: rest, (h.mem.dequeue _ _ hq hn horder (fun _ _ => id) h.mem.notReturned).congr
    rfl rfl rfl rfl rfl rfl rfl, ⟨hnone, rfl, ?_⟩, h.busy, h.quiet⟩
  rintro rfl
  exact hnodup.1 (.head _)

/-- `pop` returns `false`. -/
theorem Inv.popFalse (h : Inv stub s q) (hnone : s.appending none = .idle) :
    Inv stub s.popFalse q :=
  ⟨h.mem.congr rfl rfl rfl rfl rfl rfl rfl, hnone, h.busy, h.quiet⟩

/-! ## The steps of an append -/

variable [DecidableEq ι]

/-- A link of another append is still there after one of them has moved. -/
theorem MemInv.links_update (h : MemInv stub s q) {w₀ : Option ι} {pc : AppendPc τ}
    (happ : s'.appending = Function.update s.appending w₀ pc) {a b : τ} (hab : Adj q a b)
    (hnext : s'.next a = s.next a) (hw₀ : s.appending w₀ ≠ .link a b) :
    s'.next a = some b ∨ (s'.next a = none ∧ ∃ w, s'.appending w = .link a b) := by
  rw [hnext, happ]
  refine (h.links a b hab).imp_right fun ⟨hn, w, hw⟩ => ⟨hn, w, ?_⟩
  have hne : w ≠ w₀ := fun hww => hw₀ (by rw [← hww]; exact hw)
  rwa [Function.update_of_ne hne]

/-- A call of an append: the tasks are not in the queue and of no other append. -/
theorem MemInv.enter (h : MemInv stub s q) (live : τ → Bool) (hidle : s.appending w = .idle)
    (hown : OwnedOk stub { s with live } q w b) (hlive : ∀ x, s.live x = true → live x = true)
    (hdisj : ∀ w', w' ≠ w → List.Disjoint b.tasks (s.appending w').owned) :
    MemInv stub { s with
      appending := Function.update s.appending w (.clear b)
      live } q :=
  { h with
    links := fun a c hac => h.links_update rfl hac rfl (by rw [hidle]; exact nofun)
    append := forall_append_update ⟨hown.nodup, hown.chain, hown.notMem, hown.live, hown.ofStub⟩
      fun w' _ => (h.append w').frame (fun _ _ => rfl) (fun x hx => h.owned_notMem hx)
        (fun x _ => hlive x) fun a c _ hac hn => ⟨hac, hn⟩
    prev := prev_update h.prev nofun
    disjoint := disjoint_update h.disjoint hdisj
    live := fun x hx hne => hlive x (h.live x hx hne) }

/-- An append clears the `next` of its last task. -/
theorem MemInv.clear (h : MemInv stub s q) (hw : s.appending w = .clear b) :
    MemInv stub { s with
      next := Function.update s.next b.last none
      appending := Function.update s.appending w (.exchange b) } q := by
  have hown : OwnedOk stub s q w b := by have := h.append w; rwa [hw] at this
  have hq : ∀ y ∈ q, Function.update s.next b.last none y = s.next y := by
    intro y hy
    rw [Function.update_of_ne]
    rintro rfl
    exact hown.notMem _ b.last_mem hy
  have hother : ∀ w', w' ≠ w → ∀ y ∈ (s.appending w').owned,
      Function.update s.next b.last none y = s.next y := by
    intro w' hne y hy
    rw [Function.update_of_ne]
    rintro rfl
    exact h.disjoint w' w hne hy (by rw [hw]; exact b.last_mem)
  have hchain : ∀ a c, Adj b.tasks a c → Function.update s.next b.last none a = some c := by
    intro a c hac
    rw [Function.update_of_ne]
    · exact hown.chain a c hac
    · rintro rfl
      exact not_adj_getLast hown.nodup (List.getLast?_eq_some_getLast b.ne) hac
  exact { h with
    null := (hq _ h.head_mem).trans h.null
    links := fun a c hac => h.links_update rfl hac (hq a hac.mem_left) (by rw [hw]; exact nofun)
    append := forall_append_update
      ⟨⟨hown.nodup, hchain, hown.notMem, hown.live, hown.ofStub⟩, Function.update_self ..⟩
      fun w' hne => (h.append w').frame (hother w' hne) (fun x hx => h.owned_notMem hx)
        (fun _ _ => id) fun a c _ hac hn => ⟨hac, (hq a hac.mem_left).trans hn⟩
    prev := prev_update h.prev nofun
    disjoint := disjoint_update h.disjoint fun w' hne => by
      have := h.disjoint w w' hne.symm
      rwa [hw] at this }

/-- An append exchanges `head_`: its tasks are in the queue from here on. -/
theorem MemInv.exchange (h : MemInv stub s q) (hw : s.appending w = .exchange b) :
    MemInv stub { s with
      head := b.last
      appending := Function.update s.appending w (.link s.head b.first)
      pushed := s.pushed ++ b.tasks.filter (· ≠ stub) } (q ++ b.tasks) := by
  have happ := h.append w
  rw [hw] at happ
  obtain ⟨hown, hnull⟩ := happ
  have hfirst : b.tasks.head? = some b.first := List.head?_eq_some_head b.ne
  refine
    { head := by simp [h.head]
      last := by simp [List.getLast?_append, List.getLast?_eq_some_getLast b.ne, Batch.last]
      nodup := List.nodup_append'.2 ⟨h.nodup, hown.nodup, fun x hx hx' => hown.notMem x hx' hx⟩
      null := hnull
      links := fun a c hac => ?_
      append := forall_append_update ⟨adj_append.2 (.inr (.inl ⟨h.last, hfirst⟩)), h.null⟩
        fun w' hne => (h.append w').frame (fun _ _ => rfl) (fun x hx hx' => ?_) (fun _ _ => id)
          fun a c _ hac hn => ⟨adj_append.2 (.inl hac), hn⟩
      prev := prev_update h.prev fun a c hac w' c' _ hw' => ?_
      disjoint := disjoint_update h.disjoint fun w' _ => List.disjoint_nil_left _
      order := by
        dsimp only
        rw [List.filter_append, ← List.append_assoc, h.order]
      live := fun x hx hne => (List.mem_append.1 hx).elim (h.live x · hne) (hown.live x · hne)
      notReturned := h.notReturned }
  · rcases adj_append.1 hac with hac | ⟨ha, hc⟩ | hac
    · exact h.links_update rfl hac rfl (by rw [hw]; exact nofun)
    · obtain rfl : s.head = a := Option.some.inj (h.last.symm.trans ha)
      obtain rfl : b.first = c := Option.some.inj (hfirst.symm.trans hc)
      exact .inr ⟨h.null, w, Function.update_self ..⟩
    · exact .inl (hown.chain a c hac)
  · rcases List.mem_append.1 hx' with hx' | hx'
    · exact h.owned_notMem hx hx'
    · exact h.disjoint w' w hne hx (by rw [hw]; exact hx')
  · obtain ⟨rfl, -⟩ : s.head = a ∧ b.first = c := by simpa using hac
    have happ := h.append w'
    rw [hw'] at happ
    exact not_adj_getLast h.nodup h.last happ.1

/-- An append links its predecessor to its first task. -/
theorem MemInv.link (h : MemInv stub s q) {prev first : τ} (hw : s.appending w = .link prev first) :
    MemInv stub { s with
      next := Function.update s.next prev (some first)
      appending := Function.update s.appending w .idle } q := by
  have happ := h.append w
  rw [hw] at happ
  obtain ⟨hadj, -⟩ := happ
  have hother : ∀ w', w' ≠ w → ∀ y ∈ (s.appending w').owned,
      Function.update s.next prev (some first) y = s.next y := by
    intro w' _ y hy
    rw [Function.update_of_ne]
    rintro rfl
    exact h.owned_notMem hy hadj.mem_left
  refine { h with
    null := ?_
    links := fun a c hac => ?_
    append := forall_append_update trivial fun w' hne => (h.append w').frame (hother w' hne)
      (fun x hx => h.owned_notMem hx) (fun _ _ => id) fun a c hpc hac hn => ⟨hac, ?_⟩
    prev := prev_update h.prev nofun
    disjoint := disjoint_update h.disjoint fun w' _ => List.disjoint_nil_left _ }
  · dsimp only
    rw [Function.update_of_ne]
    · exact h.null
    · intro hp
      exact not_adj_getLast h.nodup h.last (hp ▸ hadj)
  · by_cases ha : a = prev
    · subst ha
      rw [hac.right_unique h.nodup hadj]
      exact .inl (Function.update_self ..)
    · refine h.links_update rfl hac (Function.update_of_ne ha ..) ?_
      rw [hw]
      intro heq
      exact ha (AppendPc.link.inj heq).1.symm
  · dsimp only
    rw [Function.update_of_ne]
    · exact hn
    · rintro rfl
      exact hne (h.prev w' w _ _ _ hpc hw)

/-! ## Producers -/

/-- The producers inside a push, after one of them has moved on in its push. -/
theorem Inv.busy_update (h : Inv stub s q) {i : ι} {pc : AppendPc τ}
    (hi : s.appending (some i) ≠ .idle) (hpc : pc ≠ .idle) (j : ι) :
    j ∈ s.busy ↔ Function.update s.appending (some i) pc (some j) ≠ .idle := by
  by_cases hj : j = i
  · subst hj
    rw [Function.update_self]
    exact iff_of_true ((h.busy j).2 hi) hpc
  · rw [Function.update_of_ne (by simpa using hj)]
    exact h.busy j

/-- A producer enters a push. -/
theorem Inv.enter (h : Inv stub s q) {i : ι} (hs : enter stub s i b = some s') : Inv stub s' q := by
  unfold TaskMPSCQueue.enter at hs
  split at hs
  case h_2 => cases hs
  case h_1 hidle =>
    split_ifs at hs with hb
    obtain ⟨hnodup, hfree, hchain⟩ := hb
    cases hs
    have hdead : ∀ x ∈ b.tasks, s.live x ≠ true := fun x hx => by simp [(hfree x hx).2]
    refine ⟨h.mem.enter (fun x => decide (x ∈ b.tasks) || s.live x) hidle ?_
      (fun x hx => by simp [hx]) (fun w' _ x hx hx' => ?_) |>.congr rfl rfl rfl rfl rfl rfl rfl,
      h.consumer.frame (update_some_none s.appending i (.clear b)) rfl id nofun, fun j => ?_, nofun⟩
    · exact ⟨hnodup, adj_of_isChain hchain,
        fun x hx hq => hdead x hx (h.mem.live x hq (hfree x hx).1),
        fun x hx _ => by simp [hx], fun hst => absurd rfl (hfree stub hst).1⟩
    · exact hdead x hx (h.mem.owned_live hx' (hfree x hx).1)
    · by_cases hj : j = i
      · subst hj; simp
      · simp [hj, h.busy j]

/-- A producer moves on in its push. -/
theorem Inv.producerStep (h : Inv stub s q) {i : ι} (hs : producerStep stub s i = some s') :
    ∃ q', Inv stub s' q' := by
  unfold TaskMPSCQueue.producerStep appendStep at hs
  cases hw : s.appending (some i) with
  | idle => simp [hw] at hs
  | clear b =>
    simp only [hw, Option.some.injEq] at hs
    have hi : s.appending (some i) ≠ .idle := by rw [hw]; exact nofun
    subst hs
    exact ⟨q, h.mem.clear hw, h.consumer.frame (update_some_none s.appending i (.exchange b))
      rfl id fun hq => absurd hq (h.not_quiet hi), h.busy_update hi nofun, h.quiet⟩
  | exchange b =>
    simp only [hw, Option.some.injEq] at hs
    have hi : s.appending (some i) ≠ .idle := by rw [hw]; exact nofun
    subst hs
    exact ⟨q ++ b.tasks, h.mem.exchange hw, h.consumer.frame (update_some_none s.appending i
      (.link s.head b.first)) rfl (List.mem_append_left _) fun hq => absurd hq (h.not_quiet hi),
      h.busy_update hi nofun, h.quiet⟩
  | link prev first =>
    simp only [hw, Option.map_some, Option.some.injEq] at hs
    have hi : s.appending (some i) ≠ .idle := by rw [hw]; exact nofun
    subst hs
    refine ⟨q, (h.mem.link hw).congr rfl rfl rfl rfl rfl rfl rfl,
      h.consumer.frame (update_some_none s.appending i .idle) rfl id
        fun hq => absurd hq (h.not_quiet hi),
      fun j => ?_, fun hq => absurd hq (h.not_quiet hi)⟩
    by_cases hj : j = i
    · subst hj; simp
    · simp [hj, h.busy j]

/-! ## The consumer -/

/-- The producers inside a push, after the consumer's append has moved. -/
theorem Inv.busy_none (h : Inv stub s q) (pc : AppendPc τ) (j : ι) :
    j ∈ s.busy ↔ Function.update s.appending none pc (some j) ≠ .idle := by
  rw [update_none_some]
  exact h.busy j

/-- The consumer moves on in its `append(stub_)`. -/
theorem Inv.appendStub (h : Inv stub s q) {t : τ} (hpc : s.consumer = .appendStub t)
    (hs : consumerStep stub s = some s') : ∃ q', Inv stub s' q' := by
  have hcons := h.consumer
  rw [hpc] at hcons
  obtain ⟨hne, htail, ht, hstub⟩ := hcons
  unfold consumerStep appendStep at hs
  rw [hpc] at hs
  cases hw : s.appending none with
  | idle => exact absurd hw hne
  | clear b =>
    simp only [hw, Option.some.injEq] at hs
    subst hs
    refine ⟨q, (h.mem.clear hw).congr rfl rfl rfl rfl rfl rfl rfl, ?_, h.busy_none (.exchange b),
      h.quiet⟩
    simp only [ConsumerOk, Function.update_self]
    rw [hw] at hstub
    exact ⟨nofun, htail, ht, hstub⟩
  | exchange b =>
    simp only [hw, Option.some.injEq] at hs
    subst hs
    refine ⟨q ++ b.tasks, (h.mem.exchange hw).congr rfl rfl rfl rfl rfl rfl rfl, ?_,
      h.busy_none (.link s.head b.first), h.quiet⟩
    simp only [ConsumerOk, Function.update_self]
    rw [hw] at hstub
    exact ⟨nofun, htail, ht, .inr (List.mem_append.2 hstub.symm)⟩
  | link prev first =>
    simp only [hw, Option.map_some, Option.some.injEq] at hs
    subst hs
    refine ⟨q, (h.mem.link hw).congr rfl rfl rfl rfl rfl rfl rfl, ?_, h.busy_none .idle, h.quiet⟩
    rw [hw] at hstub
    exact ⟨Function.update_self none _ s.appending, htail, ht,
      hstub.resolve_left (List.not_mem_nil)⟩

/-- `tail_` is also `head_`, so the stub is not in the queue, and the consumer may append it. -/
theorem Inv.loadHead (h : Inv stub s q) (hnone : s.appending none = .idle) (ht : s.tail ≠ stub)
    (hhead : s.tail = s.head) :
    Inv stub { s with
      consumer := .appendStub s.tail
      appending := Function.update s.appending none (.clear (.single stub)) } q := by
  have hstub : stub ∉ q := by
    intro hmem
    obtain ⟨c, m, hq⟩ := exists_adj_head h.mem.head hmem ht.symm
    exact not_adj_getLast h.mem.nodup h.mem.last (b := c)
      (by rw [hq, ← hhead]; exact .inl ⟨rfl, rfl⟩)
  have hown : OwnedOk stub { s with live := s.live } q none (.single stub) :=
    { nodup := List.nodup_singleton _
      chain := fun a c hac => absurd hac adj_singleton
      notMem := fun x hx => by rwa [List.mem_singleton.1 hx]
      live := fun x hx hne => absurd (List.mem_singleton.1 hx) hne
      ofStub := fun _ => rfl }
  refine ⟨(h.mem.enter _ hnone hown (fun _ => id) fun w' hw' x hx hx' => ?_).congr
    rfl rfl rfl rfl rfl rfl rfl, ?_, h.busy_none (.clear (.single stub)), h.quiet⟩
  · obtain rfl : x = stub := List.mem_singleton.1 hx
    obtain ⟨b, hb, hx'⟩ := h.mem.ownedOk hx'
    exact hw' (hb.ofStub hx')
  · simp only [ConsumerOk, Function.update_self]
    exact ⟨nofun, trivial, ht, .inl (List.mem_singleton.2 rfl)⟩

/-- The consumer moves on in `pop`. -/
theorem Inv.consumerStep (h : Inv stub s q) (hs : consumerStep stub s = some s') :
    ∃ q', Inv stub s' q' := by
  have hcons := h.consumer
  unfold TaskMPSCQueue.consumerStep at hs
  cases hpc : s.consumer with
  | idle => simp [hpc] at hs
  | loadNext =>
    rw [hpc] at hs hcons
    dsimp only at hs
    by_cases ht : s.tail = stub
    · rw [if_pos ht] at hs
      cases hn : s.next s.tail with
      | none => rw [hn] at hs; cases hs; exact ⟨q, h.popFalse hcons⟩
      | some n => rw [hn] at hs; cases hs; exact h.skipStub hcons ht hn
    · rw [if_neg ht] at hs
      cases hn : s.next s.tail with
      | none => rw [hn] at hs; cases hs; exact ⟨q, h.toLoadHead hcons ht hn⟩
      | some n => rw [hn] at hs; cases hs; exact h.popTrue hcons ht hn
  | skipStub t =>
    rw [hpc] at hs hcons
    obtain ⟨hnone, rfl, ht⟩ := hcons
    cases hn : s.next s.tail with
    | none => simp only [hn, Option.some.injEq] at hs; exact ⟨q, hs ▸ h.toLoadHead hnone ht hn⟩
    | some n => simp only [hn, Option.some.injEq] at hs; exact hs ▸ h.popTrue hnone ht hn
  | loadHead t =>
    rw [hpc] at hs hcons
    obtain ⟨hnone, rfl, ht, -⟩ := hcons
    dsimp only at hs
    by_cases hhead : s.tail = s.head
    · rw [if_neg (not_not.2 hhead)] at hs
      cases hs
      exact ⟨q, h.loadHead hnone ht hhead⟩
    · rw [if_pos hhead] at hs
      cases hs
      exact ⟨q, h.popFalse hnone⟩
  | appendStub t => exact h.appendStub hpc (by unfold TaskMPSCQueue.consumerStep; exact hs)
  | reloadNext t =>
    rw [hpc] at hs hcons
    obtain ⟨hnone, rfl, ht, -⟩ := hcons
    cases hn : s.next s.tail with
    | none => simp only [hn, Option.some.injEq] at hs; exact ⟨q, hs ▸ h.popFalse hnone⟩
    | some n => simp only [hn, Option.some.injEq] at hs; exact hs ▸ h.popTrue hnone ht hn

/-- In a quiet `pop`, the access that returns gives `false` exactly when every task pushed has
been returned. -/
theorem Inv.out_eq_none (h : Inv stub s q) (hs : TaskMPSCQueue.consumerStep stub s = some s')
    (hidle : s'.consumer = .idle) (hquiet : s.quiet = true) :
    s'.out = none ↔ s.returned = s.pushed := by
  have hcons := h.consumer
  have hfull : s.tail ≠ stub → (∃ n, s' = s.popTrue s.tail n) →
      (s'.out = none ↔ s.returned = s.pushed) := by
    rintro ht ⟨n, rfl⟩
    exact iff_of_false nofun (h.mem.returned_ne ht)
  unfold TaskMPSCQueue.consumerStep at hs
  cases hpc : s.consumer with
  | idle => simp [hpc] at hs
  | loadNext =>
    rw [hpc] at hs hcons
    dsimp only at hs
    by_cases ht : s.tail = stub
    · rw [if_pos ht] at hs
      cases hn : s.next s.tail with
      | none =>
        -- the list is the stub alone
        rw [hn] at hs
        cases hs
        have horder := h.mem.order
        rw [h.eq_singleton hquiet hcons hn, List.filter_cons_of_neg (by simpa using ht)] at horder
        exact iff_of_true rfl (by simpa using horder)
      | some n => rw [hn] at hs; cases hs; cases hidle
    · rw [if_neg ht] at hs
      cases hn : s.next s.tail with
      | none => rw [hn] at hs; cases hs; cases hidle
      | some n => rw [hn] at hs; exact hfull ht ⟨n, (Option.some.inj hs).symm⟩
  | skipStub t =>
    rw [hpc] at hs hcons
    obtain ⟨-, rfl, ht⟩ := hcons
    cases hn : s.next s.tail with
    | none => simp only [hn, Option.some.injEq] at hs; subst hs; cases hidle
    | some n => simp only [hn, Option.some.injEq] at hs; exact hfull ht ⟨n, hs.symm⟩
  | loadHead t =>
    rw [hpc] at hs hcons
    obtain ⟨hnone, rfl, ht, hnull⟩ := hcons
    dsimp only at hs
    have hq := h.eq_singleton hquiet hnone (hnull hquiet)
    have hhead : s.tail = s.head := by simpa [hq] using h.mem.last
    rw [if_neg (not_not.2 hhead)] at hs
    cases hs
    cases hidle
  | appendStub t =>
    rw [hpc] at hs hcons
    unfold appendStep at hs
    cases hw : s.appending none with
    | idle => exact absurd hw hcons.1
    | clear b | exchange b =>
      simp only [hw, Option.some.injEq] at hs
      subst hs
      exact absurd (hpc.symm.trans hidle) nofun
    | link a b => simp only [hw, Option.map_some, Option.some.injEq] at hs; subst hs; cases hidle
  | reloadNext t =>
    rw [hpc] at hs hcons
    obtain ⟨hnone, rfl, ht, hstub⟩ := hcons
    cases hn : s.next s.tail with
    | none =>
      -- the stub is in the list behind `tail_`
      rw [h.eq_singleton hquiet hnone hn] at hstub
      exact absurd (List.mem_singleton.1 hstub).symm ht
    | some n => simp only [hn, Option.some.injEq] at hs; exact hfull ht ⟨n, hs.symm⟩

/-! ## Runs -/

omit [DecidableEq ι] in
theorem Inv.init : Inv stub (State.init stub : State ι τ) [stub] where
  mem :=
    { head := rfl
      last := rfl
      nodup := List.nodup_singleton _
      null := rfl
      links := fun a b hab => absurd hab adj_singleton
      append := fun _ => trivial
      prev := nofun
      disjoint := fun _ _ _ => List.disjoint_nil_left _
      order := by simp [State.init]
      live := fun x hx hne => absurd (List.mem_singleton.1 hx) hne
      notReturned := List.not_mem_nil }
  consumer := rfl
  busy i := by simp [State.init]
  quiet := nofun

/-- Every step keeps the invariant. -/
theorem Inv.step {a : Act ι τ} (h : ∃ q, Inv stub s q) (hs : step stub s a = some s') :
    ∃ q, Inv stub s' q := by
  obtain ⟨q, h⟩ := h
  cases a with
  | write x v =>
    simp only [TaskMPSCQueue.step] at hs
    split_ifs at hs with hx
    cases hs
    refine ⟨q, h.mem.write hx.1 hx.2, h.consumer.frame rfl rfl id fun hq => ⟨hq, fun hn => ?_⟩,
      h.busy, h.quiet⟩
    dsimp only
    rw [Function.update_of_ne]
    · exact hn
    intro heq
    have hlive := h.mem.live s.tail h.mem.tail_mem (heq ▸ hx.1)
    rw [heq, hx.2] at hlive
    cases hlive
  | push i x => exact ⟨q, h.enter hs⟩
  | pushBatch i b => exact ⟨q, h.enter hs⟩
  | producer i => exact h.producerStep hs
  | pop =>
    simp only [TaskMPSCQueue.step] at hs
    split at hs
    case h_2 => cases hs
    case h_1 hidle =>
      have hcons := h.consumer
      rw [hidle] at hcons
      cases hs
      exact ⟨q, h.mem.congr rfl rfl rfl rfl rfl rfl rfl, hcons, h.busy, of_decide_eq_true⟩
  | consumer => exact h.consumerStep hs

theorem Inv.reachable (h : Lts.Reachable (TaskMPSCQueue.step stub) (State.init stub) s) :
    ∃ q, Inv stub s q :=
  h.inv Inv.step ⟨[stub], Inv.init⟩

/-- In every state any interleaving reaches, the tasks returned are a prefix of the tasks pushed in
the order of the exchanges, the stub is not among them, and a `pop` during which no push was in
progress returns `false` exactly when every task pushed has been returned. -/
theorem taskMPSCQueue_order (h : Lts.Reachable (TaskMPSCQueue.step stub) (State.init stub) s) :
    s.returned <+: s.pushed ∧ stub ∉ s.returned ∧
      ∀ s', TaskMPSCQueue.step stub s .consumer = some s' → s'.consumer = .idle →
        s.quiet = true → (s'.out = none ↔ s.returned = s.pushed) := by
  obtain ⟨q, hinv⟩ := Inv.reachable h
  exact ⟨⟨_, hinv.mem.order⟩, hinv.mem.notReturned, fun s' hs => hinv.out_eq_none hs⟩

end

/-- Two producers push, the first between its exchange and its link when the consumer pops: it
gets `false`, then the batch of the other in order. -/
def brokenChain : List (Act Bool Nat) :=
  [.push true 1, .producer true, .producer true, .write 2 (some 3),
    .pushBatch false ⟨[2, 3], nofun⟩,
    .producer false, .producer false, .producer false, .pop, .consumer, .producer true, .pop,
    .consumer, .consumer, .pop, .consumer, .pop, .consumer, .consumer, .consumer, .consumer,
    .consumer]

theorem taskMPSCQueue_order_brokenChain : ∃ s : State Bool Nat,
    Lts.run (TaskMPSCQueue.step 0) (State.init 0) brokenChain = some s ∧
      s.consumer = .reloadNext 3 ∧ s.quiet = true ∧ s.returned = [1, 2] ∧ s.pushed = [1, 2, 3] ∧
      (s.returned <+: s.pushed ∧ 0 ∉ s.returned ∧
        ∀ s', TaskMPSCQueue.step 0 s .consumer = some s' → s'.consumer = .idle →
          s.quiet = true → (s'.out = none ↔ s.returned = s.pushed)) := by
  refine ⟨(Lts.run (TaskMPSCQueue.step 0) (State.init 0) brokenChain).get (by decide),
    (Option.some_get _).symm, by decide, by decide, by decide, by decide, ?_⟩
  exact taskMPSCQueue_order ⟨brokenChain, (Option.some_get _).symm⟩

end JLibScheduler.TaskMPSCQueue
