import JLibScheduler.TaskAllocator.Basic
import JLibScheduler.Lib.Links

/-!
# The chains of a thread

`Own` are the slots of a thread: the chain of its cache, and the slots that are in transit between
the lists or in the hands of its operation. `Local.Ok` says what they are at each place of an
operation: the cache is a list that ends and has the length of its count, and what the operation
holds outside the lists is one chain from its first to its last slot. `Local.Ok.move` is the lemma
on one move: it writes only to slots in transit and moves slots between the shared list, the cache
and the transit, none of which it loses or doubles.
-/

namespace JLibScheduler.TaskAllocator

open Links

/-- The slots of a thread. -/
structure Own where
  cache : List ℕ
  transit : List ℕ

/-- The slots of a thread, in one list. -/
def Own.slots (o : Own) : List ℕ := o.cache ++ o.transit

/-- The slots of a thread at each place. -/
def Pc.Ok (next : ℕ → Option ℕ) (o : Own) : Pc → Prop
  | .idle | .alloc | .take => o.transit = [] ∧ o.cache.length ≤ 2 * BATCH
  | .lock => o.transit = [] ∧ o.cache = []
  | .attach batchHead batchTail moved =>
    o.cache = [] ∧ moved = o.transit.length ∧ moved ≤ BATCH ∧
      ∃ l a q, o.transit = l ++ [a] ∧ batchTail = some a ∧ Path next (some batchHead) o.transit q
  | .live slot | .free slot => o.transit = [slot] ∧ o.cache.length ≤ 2 * BATCH
  | .dead | .check => o.transit = [] ∧ o.cache.length ≤ 2 * BATCH + 1
  | .splice batchHead batchTail =>
    o.cache.length ≤ 2 * BATCH ∧
      ∃ l q, o.transit = l ++ [batchTail] ∧ Path next (some batchHead) o.transit q

/-- The chains of a thread are well formed. -/
structure Local.Ok (next : ℕ → Option ℕ) (x : Local) (o : Own) : Prop where
  chain : Path next x.cache.head o.cache none
  count : x.cache.count = o.cache.length
  pc : x.pc.Ok next o

section
variable {m m' : Shared} {x x' : Local} {o : Own} {sh : List ℕ} {next next' : ℕ → Option ℕ}

/-- The chains of a thread depend only on its own slots. -/
theorem Local.Ok.congr (h : x.Ok next o) (heq : ∀ a ∈ o.slots, next' a = next a) :
    x.Ok next' o := by
  have hcache : ∀ a ∈ o.cache, next' a = next a := fun a ha => heq a (List.mem_append_left _ ha)
  have htransit : ∀ a ∈ o.transit, next' a = next a :=
    fun a ha => heq a (List.mem_append_right _ ha)
  refine ⟨h.chain.congr hcache, h.count, ?_⟩
  have hpc := h.pc
  cases hx : x.pc with
  | attach batchHead batchTail moved =>
    rw [hx] at hpc
    obtain ⟨hnil, hmoved, hle, l, a, q, hl, ha, hpath⟩ := hpc
    exact ⟨hnil, hmoved, hle, l, a, q, hl, ha, hpath.congr htransit⟩
  | splice batchHead batchTail =>
    rw [hx] at hpc
    obtain ⟨hle, l, q, hl, hpath⟩ := hpc
    exact ⟨hle, l, q, hl, hpath.congr htransit⟩
  | _ => rw [hx] at hpc; exact hpc

/-! ## The walks -/

/-- What the loop of `refill` finds on a list that ends. -/
theorem walk_spec (n : ℕ) {curr : Option ℕ} (batchTail : Option ℕ) (moved : ℕ) {l : List ℕ}
    (h : Path next curr l none) :
    Path next curr (l.take n) (walk next n curr batchTail moved).1 ∧
      Path next (walk next n curr batchTail moved).1 (l.drop n) none ∧
      (walk next n curr batchTail moved).2.1 = (l.take n).getLast?.or batchTail ∧
      (walk next n curr batchTail moved).2.2 = moved + (l.take n).length := by
  induction n generalizing curr batchTail moved l with
  | zero => simpa [walk] using h
  | succ n ih =>
    cases l with
    | nil =>
      obtain rfl : curr = none := h
      simp [walk]
    | cons a l =>
      obtain ⟨rfl, h⟩ := h
      obtain ⟨hpath, hrest, htail, hmoved⟩ := ih (some a) (moved + 1) h
      refine ⟨⟨rfl, hpath⟩, hrest, ?_, ?_⟩
      · simp only [walk, htail, List.take_succ_cons, List.getLast?_cons]
        cases (l.take n).getLast? <;> rfl
      · simp only [walk, hmoved, List.take_succ_cons, List.length_cons]
        omega

/-- What the loop of `flush` finds after as many rounds as there are slots before the last. -/
theorem peelTail_spec {p q : Option ℕ} {l : List ℕ} {a : ℕ} (h : Path next p (l ++ [a]) q) :
    peelTail next l.length p = some a := by
  induction l generalizing p with
  | nil => exact h.1
  | cons b l ih =>
    obtain ⟨rfl, h⟩ := h
    exact ih h

/-! ## The moves -/

/-- A move of a thread keeps the slots. -/
def Keeps (m : Shared) (sh : List ℕ) (o : Own) (m' : Shared) (x' : Local) : Prop :=
  ∃ sh' o', Path m'.next m'.sharedHead sh' none ∧ x'.Ok m'.next o' ∧
    (sh' ++ o'.slots).Perm (sh ++ o.slots) ∧ ∀ a, a ∉ o.transit → m'.next a = m.next a

/-- A move that changes no list. -/
theorem Keeps.of_pc (hsh : Path m.next m.sharedHead sh none) (h : x.Ok m.next o)
    {pc : Pc} {ret : Option ℕ} (hpc : pc.Ok m.next o) :
    Keeps m sh o m { x with pc, ret } :=
  ⟨sh, o, hsh, ⟨h.chain, h.count, hpc⟩, .refl _, fun _ _ => rfl⟩

theorem Local.Ok.lock (h : x.Ok m.next o) (hpc : x.pc = .lock)
    (hsh : Path m.next m.sharedHead sh none) (hstep : x.move m = some (m', x')) :
    Keeps m sh o m' x' := by
  have hok := h.pc
  rw [hpc] at hok
  obtain ⟨htransit, hcache⟩ := hok
  simp only [Local.move, hpc, Shared.detach] at hstep
  cases hhead : m.sharedHead with
  | none =>
    simp only [hhead] at hstep
    cases hstep
    exact Keeps.of_pc hsh h ⟨htransit, by simp [hcache]⟩
  | some batchHead =>
    simp only [hhead] at hstep
    cases hstep
    rw [hhead] at hsh
    obtain ⟨hpath, hrest, htail, hmoved⟩ :=
      walk_spec BATCH none 0 hsh
    have hne : sh.take BATCH ≠ [] := by
      intro hnil
      rcases List.take_eq_nil_iff.1 hnil with hzero | hnil
      · cases hzero
      · subst hnil
        cases hsh
    refine ⟨sh.drop BATCH, { cache := [], transit := sh.take BATCH }, hrest,
      ⟨hcache ▸ h.chain, ?_, ?_⟩, ?_, fun _ _ => rfl⟩
    · rw [h.count, hcache]
    · refine ⟨rfl, by simpa using hmoved, ?_, _, _, _,
        (List.dropLast_append_getLast hne).symm, ?_, hpath⟩
      · rw [hmoved, Nat.zero_add]
        exact List.length_take_le _ _
      · rw [htail, List.getLast?_eq_some_getLast hne]
        rfl
    · rw [Own.slots, Own.slots, htransit, hcache, List.nil_append, List.append_nil, List.append_nil]
      exact List.perm_append_comm.trans (.of_eq (List.take_append_drop BATCH sh))

theorem Local.Ok.attach {batchHead moved : ℕ} {batchTail : Option ℕ} (h : x.Ok m.next o)
    (hpc : x.pc = .attach batchHead batchTail moved) (hsh : Path m.next m.sharedHead sh none)
    (hnodup : (sh ++ o.slots).Nodup) (hstep : x.move m = some (m', x')) :
    Keeps m sh o m' x' := by
  have hok := h.pc
  rw [hpc] at hok
  obtain ⟨hcache, hmoved, hle, l, a, q, hl, rfl, hpath⟩ := hok
  simp only [Local.move, hpc, Shared.attach] at hstep
  cases hstep
  have hhead : x.cache.head = none := by
    have := h.chain
    rwa [hcache] at this
  rw [Own.slots, hcache, List.nil_append, hl] at hnodup
  have hal : a ∉ l := by
    have := (List.nodup_append.1 hnodup).2.1
    exact fun hmem => (List.nodup_append.1 this).2.2 a hmem a (.head _) rfl
  have hash : a ∉ sh := fun hmem =>
    (List.nodup_append.1 hnodup).2.2 a hmem a (List.mem_append_right _ (.head _)) rfl
  rw [hl] at hpath
  refine ⟨sh, { cache := o.transit, transit := [] }, hsh.update hash, ⟨?_, ?_, ?_⟩, ?_, ?_⟩
  · have hnil : Path m.next x.cache.head [] none := hhead
    have := hpath.splice hnil hal (List.not_mem_nil)
    rwa [List.append_nil, ← hl] at this
  · have hcount := h.count
    rw [hcache, List.length_nil] at hcount
    have : moved < 2 ^ 64 := lt_of_le_of_lt hle (by decide)
    rw [hcount, SizeT.add_of_lt (by omega), Nat.zero_add, hmoved]
  · refine ⟨rfl, ?_⟩
    rw [← hmoved]
    exact hle.trans (by decide)
  · rw [Own.slots, Own.slots, hcache, List.append_nil, List.nil_append]
  · intro b hb
    rw [hl] at hb
    exact Function.update_of_ne (fun heq => hb (by simp [heq])) _ _

theorem Local.Ok.take (h : x.Ok m.next o) (hpc : x.pc = .take)
    (hsh : Path m.next m.sharedHead sh none) (hstep : x.move m = some (m', x')) :
    Keeps m sh o m' x' := by
  have hok := h.pc
  rw [hpc] at hok
  obtain ⟨htransit, hle⟩ := hok
  have hchain := h.chain
  simp only [Local.move, hpc] at hstep
  cases hhead : x.cache.head with
  | none =>
    simp only [hhead] at hstep
    cases hstep
    exact Keeps.of_pc hsh h ⟨htransit, hle⟩
  | some slot =>
    simp only [hhead, Shared.take] at hstep
    cases hstep
    cases hcache : o.cache with
    | nil =>
      rw [hhead, hcache] at hchain
      cases hchain
    | cons a l =>
      rw [hhead, hcache] at hchain
      obtain ⟨ha, hchain⟩ := hchain
      obtain rfl := Option.some.inj ha
      have hcount := h.count
      rw [hcache, List.length_cons] at hle hcount
      have hlt : l.length + 1 < 2 ^ 64 := lt_of_le_of_lt hle (by decide)
      refine ⟨sh, { cache := l, transit := [slot] }, hsh, ⟨hchain, ?_, rfl, ?_⟩, ?_,
        fun _ _ => rfl⟩
      · rw [hcount, SizeT.sub_of_le (by omega) (by omega), Nat.add_sub_cancel]
      · exact (Nat.le_succ _).trans hle
      · rw [Own.slots, Own.slots, htransit, hcache, List.append_nil]
        exact (List.perm_append_singleton slot l).append_left sh

theorem Local.Ok.free {slot : ℕ} (h : x.Ok m.next o) (hpc : x.pc = .free slot)
    (hsh : Path m.next m.sharedHead sh none) (hnodup : (sh ++ o.slots).Nodup)
    (hstep : x.move m = some (m', x')) : Keeps m sh o m' x' := by
  have hok := h.pc
  rw [hpc] at hok
  obtain ⟨htransit, hle⟩ := hok
  simp only [Local.move, hpc, Shared.put] at hstep
  cases hstep
  rw [Own.slots, htransit] at hnodup
  have hcache : slot ∉ o.cache := fun hmem =>
    (List.nodup_append.1 (List.nodup_append.1 hnodup).2.1).2.2 slot hmem slot (.head _) rfl
  have hshared : slot ∉ sh := fun hmem =>
    (List.nodup_append.1 hnodup).2.2 slot hmem slot (List.mem_append_right _ (.head _)) rfl
  have hlt : o.cache.length + 1 < 2 ^ 64 := lt_of_le_of_lt (Nat.succ_le_succ hle) (by decide)
  refine ⟨sh, { cache := slot :: o.cache, transit := [] }, hsh.update hshared,
    ⟨h.chain.push hcache, ?_, rfl, Nat.succ_le_succ hle⟩, ?_, ?_⟩
  · rw [h.count, SizeT.add_of_lt hlt, List.length_cons]
  · rw [Own.slots, Own.slots, htransit, List.append_nil]
    exact (List.perm_append_singleton slot o.cache).symm.append_left sh
  · intro b hb
    rw [htransit] at hb
    exact Function.update_of_ne (fun heq => hb (by simp [heq])) _ _

/-- What `flush` peels off a cache of more than `BATCH` slots. -/
theorem peel_spec {c : Cache} {l : List ℕ} (h : Path m.next c.head l none)
    (hcount : c.count = l.length) (hlt : BATCH < l.length) (hmax : l.length < 2 ^ 64) :
    ∃ batchHead l₁ batchTail l₂, l = l₁ ++ [batchTail] ++ l₂ ∧ l₂.length = BATCH ∧
      Path m.next (some batchHead) (l₁ ++ [batchTail]) (m.next batchTail) ∧
      Path m.next (m.next batchTail) l₂ none ∧
      m.peel c = some ((batchHead, batchTail), { head := m.next batchTail, count := BATCH }) := by
  have htoMove : SizeT.sub c.count BATCH = l.length - BATCH := by
    rw [hcount, SizeT.sub_of_le hlt.le hmax]
  have hne : l.take (l.length - BATCH) ≠ [] := by
    rw [ne_eq, List.take_eq_nil_iff]
    rintro (hzero | rfl)
    · omega
    · cases hlt
  have hlen : (l.take (l.length - BATCH)).dropLast.length = l.length - BATCH - 1 := by
    rw [List.length_dropLast, List.length_take, Nat.min_eq_left (Nat.sub_le _ _)]
  have hsplit := List.dropLast_append_getLast hne
  generalize (l.take (l.length - BATCH)).dropLast = l₁ at hsplit hlen
  generalize (l.take (l.length - BATCH)).getLast hne = batchTail at hsplit
  have hl : l = l₁ ++ [batchTail] ++ l.drop (l.length - BATCH) := by
    rw [hsplit, List.take_append_drop]
  have hpath := h
  rw [hl] at hpath
  obtain ⟨r, hfirst, hrest⟩ := path_append.1 hpath
  obtain ⟨-, -, hlast, rfl⟩ := path_append.1 hfirst
  have htail := peelTail_spec hfirst
  rw [hlen] at htail
  cases hhead : c.head with
  | none =>
    rw [h.head_eq_none.1 hhead] at hlt
    cases hlt
  | some batchHead =>
    rw [hhead] at hfirst
    refine ⟨batchHead, l₁, batchTail, _, hl, ?_, hfirst, hrest, ?_⟩
    · rw [List.length_drop]
      omega
    · rw [Shared.peel, htoMove, htail, hhead]

theorem Local.Ok.check (h : x.Ok m.next o) (hpc : x.pc = .check)
    (hsh : Path m.next m.sharedHead sh none) (hstep : x.move m = some (m', x')) :
    Keeps m sh o m' x' := by
  have hok := h.pc
  rw [hpc] at hok
  obtain ⟨htransit, hle⟩ := hok
  simp only [Local.move, hpc] at hstep
  split_ifs at hstep with hfull hfew
  · cases hstep
    exact absurd hfew (Nat.not_le.2 (lt_of_le_of_lt (by decide) hfull))
  · have hlt : BATCH < o.cache.length := by
      rw [h.count] at hfew
      exact Nat.lt_of_not_le hfew
    obtain ⟨batchHead, l₁, batchTail, l₂, hl, hlen, hfirst, hrest, hpeel⟩ :=
      peel_spec h.chain h.count hlt (lt_of_le_of_lt hle (by decide))
    rw [hpeel] at hstep
    cases hstep
    refine ⟨sh, { cache := l₂, transit := l₁ ++ [batchTail] }, hsh,
      ⟨hrest, hlen.symm, ?_, l₁, _, rfl, hfirst⟩, ?_, fun _ _ => rfl⟩
    · exact hlen.le.trans (by decide)
    · rw [Own.slots, Own.slots, htransit, hl, List.append_nil]
      exact List.perm_append_comm.append_left sh
  · cases hstep
    refine Keeps.of_pc hsh h ⟨htransit, ?_⟩
    rw [h.count] at hfull
    exact Nat.le_of_not_lt hfull

theorem Local.Ok.splice {batchHead batchTail : ℕ} (h : x.Ok m.next o)
    (hpc : x.pc = .splice batchHead batchTail) (hsh : Path m.next m.sharedHead sh none)
    (hnodup : (sh ++ o.slots).Nodup) (hstep : x.move m = some (m', x')) :
    Keeps m sh o m' x' := by
  have hok := h.pc
  rw [hpc] at hok
  obtain ⟨hle, l, q, hl, hpath⟩ := hok
  simp only [Local.move, hpc, Shared.splice] at hstep
  cases hstep
  have hdisj := List.nodup_append.1 hnodup
  have hmem : batchTail ∈ o.transit := by simp [hl]
  have hshared : batchTail ∉ sh := fun hsh' =>
    hdisj.2.2 batchTail hsh' batchTail (List.mem_append_right _ hmem) rfl
  have hown := List.nodup_append.1 hdisj.2.1
  have hcache : batchTail ∉ o.cache := fun hc => hown.2.2 batchTail hc batchTail hmem rfl
  have hlast : batchTail ∉ l := fun hl' => by
    have := hown.2.1
    rw [hl] at this
    exact (List.nodup_append.1 this).2.2 batchTail hl' batchTail (.head _) rfl
  rw [hl] at hpath
  refine ⟨o.transit ++ sh, { cache := o.cache, transit := [] }, ?_,
    ⟨h.chain.update hcache, h.count, rfl, hle⟩, ?_, ?_⟩
  · rw [hl]
    exact hpath.splice hsh hlast hshared
  · rw [Own.slots, Own.slots, List.append_nil, List.append_assoc, ← List.append_assoc sh]
    exact List.perm_append_comm
  · intro b hb
    exact Function.update_of_ne (fun heq => hb (by rwa [heq])) _ _

theorem Local.Ok.alloc (h : x.Ok m.next o) (hpc : x.pc = .alloc)
    (hsh : Path m.next m.sharedHead sh none) (hstep : x.move m = some (m', x')) :
    Keeps m sh o m' x' := by
  have hok := h.pc
  rw [hpc] at hok
  simp only [Local.move, hpc] at hstep
  split_ifs at hstep with hhead
  · cases hstep
    exact Keeps.of_pc hsh h ⟨hok.1, h.chain.head_eq_none.1 hhead⟩
  · cases hstep
    exact Keeps.of_pc hsh h hok

/-- Every move of a thread keeps the slots. -/
theorem Local.Ok.move (h : x.Ok m.next o) (hsh : Path m.next m.sharedHead sh none)
    (hnodup : (sh ++ o.slots).Nodup) (hstep : x.move m = some (m', x')) :
    Keeps m sh o m' x' := by
  cases hpc : x.pc with
  | idle | live | dead => simp only [Local.move, hpc, reduceCtorEq] at hstep
  | alloc => exact h.alloc hpc hsh hstep
  | lock => exact h.lock hpc hsh hstep
  | attach batchHead batchTail moved => exact h.attach hpc hsh hnodup hstep
  | take => exact h.take hpc hsh hstep
  | free slot => exact h.free hpc hsh hnodup hstep
  | check => exact h.check hpc hsh hstep
  | splice batchHead batchTail => exact h.splice hpc hsh hnodup hstep

/-- No operation follows a null pointer: it can always go on. -/
theorem Local.Ok.exists_move (h : x.Ok m.next o) (hidle : x.pc ≠ .idle)
    (hlive : ∀ slot, x.pc ≠ .live slot) (hdead : x.pc ≠ .dead) : ∃ r, x.move m = some r := by
  have hok := h.pc
  cases hpc : x.pc with
  | idle => exact absurd hpc hidle
  | live slot => exact absurd hpc (hlive slot)
  | dead => exact absurd hpc hdead
  | alloc =>
    rw [Local.move, hpc]
    exact ⟨_, rfl⟩
  | lock =>
    cases hhead : m.sharedHead with
    | none =>
      simp only [Local.move, hpc, Shared.detach, hhead]
      exact ⟨_, rfl⟩
    | some batchHead =>
      simp only [Local.move, hpc, Shared.detach, hhead]
      exact ⟨_, rfl⟩
  | attach batchHead batchTail moved =>
    rw [hpc] at hok
    obtain ⟨-, -, -, l, a, q, -, rfl, -⟩ := hok
    simp only [Local.move, hpc]
    exact ⟨_, rfl⟩
  | take =>
    cases hhead : x.cache.head with
    | none =>
      simp only [Local.move, hpc, hhead]
      exact ⟨_, rfl⟩
    | some slot =>
      simp only [Local.move, hpc, hhead]
      exact ⟨_, rfl⟩
  | free slot =>
    simp only [Local.move, hpc]
    exact ⟨_, rfl⟩
  | check =>
    rw [hpc] at hok
    by_cases hfew : x.cache.count ≤ BATCH
    · simp only [Local.move, hpc, hfew, if_true, ite_self]
      exact ⟨_, rfl⟩
    · have hlt : BATCH < o.cache.length := by
        rw [← h.count]
        exact Nat.lt_of_not_le hfew
      obtain ⟨batchHead, l₁, batchTail, l₂, -, -, -, -, hpeel⟩ :=
        peel_spec h.chain h.count hlt (lt_of_le_of_lt hok.2 (by decide))
      simp only [Local.move, hpc, hfew, if_false, hpeel]
      split_ifs
      · exact ⟨_, rfl⟩
      · exact ⟨_, rfl⟩
  | splice batchHead batchTail =>
    simp only [Local.move, hpc]
    exact ⟨_, rfl⟩

end

end JLibScheduler.TaskAllocator
