import Mathlib.Logic.Function.Basic
import Mathlib.Logic.Relation
import Mathlib.Data.List.Perm.Subperm

/-!
# Atomic objects and linearizability

A sequential specification (`SeqSpec`) says which results an operation may give on an abstract
value, and what value it leaves. The atomic object of a specification (`Obj`) lets any number of
threads call its operations: a call is announced, takes effect once at some moment during the call
(`Obj.Step.lin`), and then returns. The history of an object (`Obj.hist`) is what the callers see,
and its linearization (`Obj.lins`) the order in which the calls took effect. An implementation is
linearizable when each of its histories is a history of the atomic object; the usual proof is a
simulation that says at which step of the implementation each call takes effect.
-/

namespace AtomicObject

/-- A sequential specification: `apply op a r b` says that `op` may turn the value `a` into `b`
and give the result `r`. -/
structure SeqSpec (S Op Res : Type*) where
  init : S
  apply : Op → S → Res → S → Prop

/-- What the callers of an object see: a call by a thread, and its result. -/
inductive Event (T Op Res : Type*)
  | inv (t : T) (op : Op)
  | res (t : T) (r : Res)
  deriving DecidableEq

/-- Where a thread is: outside the object, in a call that has not taken effect, or in one that has
and is about to return. -/
inductive Status (Op Res : Type*)
  | idle
  | pending (op : Op)
  | done (r : Res)

/-- The state of an atomic object: the abstract value, where the threads are, the history and the
linearization so far (both newest first). -/
structure Obj (S T Op Res : Type*) where
  abs : S
  status : T → Status Op Res
  hist : List (Event T Op Res)
  lins : List (T × Op × Res)

section
variable {S T Op Res : Type*} [DecidableEq T] (spec : SeqSpec S Op Res)

/-- The object before any call. -/
def Obj.init : Obj S T Op Res :=
  { abs := spec.init, status := fun _ => .idle, hist := [], lins := [] }

/-- A step of the atomic object: a call, the moment a call takes effect, a return. -/
inductive Obj.Step : Obj S T Op Res → Obj S T Op Res → Prop
  | inv {o : Obj S T Op Res} {t : T} {op : Op} : o.status t = .idle →
      Step o { o with status := Function.update o.status t (.pending op)
                      hist := .inv t op :: o.hist }
  | lin {o : Obj S T Op Res} {t : T} {op : Op} {r : Res} {b : S} : o.status t = .pending op →
      spec.apply op o.abs r b →
      Step o { o with abs := b, status := Function.update o.status t (.done r)
                      lins := (t, op, r) :: o.lins }
  | res {o : Obj S T Op Res} {t : T} {r : Res} : o.status t = .done r →
      Step o { o with status := Function.update o.status t .idle, hist := .res t r :: o.hist }

/-- The states of the atomic object that its steps reach. -/
def Obj.Reach (o : Obj S T Op Res) : Prop :=
  Relation.ReflTransGen (Obj.Step spec) (Obj.init spec) o

/-- A legal sequential history (newest first): each call's result and value are those of the
specification at the value the earlier calls left. -/
inductive SeqRun : List (T × Op × Res) → S → Prop
  | nil : SeqRun [] spec.init
  | cons {l : List (T × Op × Res)} {a b : S} {t : T} {op : Op} {r : Res} : SeqRun l a →
      spec.apply op a r b → SeqRun ((t, op, r) :: l) b

/-- The results in a history, with the threads that got them. -/
def responses : List (Event T Op Res) → List (T × Res)
  | [] => []
  | .inv _ _ :: h => responses h
  | .res t r :: h => (t, r) :: responses h

variable {spec}

/-! ## Steps to a given object

The steps, for a simulation that gives the object after them. -/

section
variable {o o' : Obj S T Op Res} {t : T} {op : Op} {r : Res}

theorem Obj.steps_inv (h : o.status t = .idle) (ha : o'.abs = o.abs)
    (hs : o'.status = Function.update o.status t (.pending op)) (hh : o'.hist = .inv t op :: o.hist)
    (hl : o'.lins = o.lins) : Relation.ReflTransGen (Obj.Step spec) o o' := by
  refine .single ?_
  have h' : Obj.Step spec o { o with
      status := Function.update o.status t (.pending op), hist := .inv t op :: o.hist } := .inv h
  rwa [← ha, ← hs, ← hh, ← hl] at h'

theorem Obj.steps_lin (h : o.status t = .pending op) (ha : spec.apply op o.abs r o'.abs)
    (hs : o'.status = Function.update o.status t (.done r)) (hh : o'.hist = o.hist)
    (hl : o'.lins = (t, op, r) :: o.lins) : Relation.ReflTransGen (Obj.Step spec) o o' := by
  refine .single ?_
  have h' := Obj.Step.lin h ha
  rwa [← hs, ← hh, ← hl] at h'

theorem Obj.steps_res (h : o.status t = .done r) (ha : o'.abs = o.abs)
    (hs : o'.status = Function.update o.status t .idle) (hh : o'.hist = .res t r :: o.hist)
    (hl : o'.lins = o.lins) : Relation.ReflTransGen (Obj.Step spec) o o' := by
  refine .single ?_
  have h' : Obj.Step spec o { o with
      status := Function.update o.status t .idle, hist := .res t r :: o.hist } := .res h
  rwa [← ha, ← hs, ← hh, ← hl] at h'

/-- A call that takes effect and returns at once. -/
theorem Obj.steps_lin_res (h : o.status t = .pending op) (ha : spec.apply op o.abs r o'.abs)
    (hs : o'.status = Function.update o.status t .idle) (hh : o'.hist = .res t r :: o.hist)
    (hl : o'.lins = (t, op, r) :: o.lins) : Relation.ReflTransGen (Obj.Step spec) o o' := by
  let m : Obj S T Op Res :=
    { o with abs := o'.abs, status := Function.update o.status t (.done r), lins := o'.lins }
  have h₁ : Relation.ReflTransGen (Obj.Step spec) o m := Obj.steps_lin h ha rfl rfl hl
  have h₂ : Relation.ReflTransGen (Obj.Step spec) m o' :=
    Obj.steps_res (t := t) (r := r) (by simp [m]) rfl (by simp [m, hs]) (by simp [m, hh]) rfl
  exact h₁.trans h₂

end

/-! ## What a reachable object guarantees -/

/-- The linearization of a reachable object is a legal sequential history that ends in the
object's value. -/
theorem Obj.Reach.seqRun {o : Obj S T Op Res} (h : o.Reach spec) :
    SeqRun spec o.lins o.abs := by
  induction h with
  | refl => exact .nil
  | tail _ hstep ih =>
    cases hstep with
    | inv | res => exact ih
    | lin _ happ => exact .cons ih happ

/-- A result is in the linearization once for each return, and once more for the call that has
taken effect and not returned. -/
theorem Obj.Reach.count_lins [DecidableEq Res] {o : Obj S T Op Res} (h : o.Reach spec) (t : T)
    (r : Res) : ∃ d, (d = 0 ∨ (d = 1 ∧ o.status t = .done r)) ∧
      (o.lins.map fun l => (l.1, l.2.2)).count (t, r) = (responses o.hist).count (t, r) + d ∧
      (o.status t = .done r → d = 1) := by
  induction h with
  | refl => exact ⟨0, .inl rfl, rfl, nofun⟩
  | @tail o _ _ hstep ih =>
    obtain ⟨d, hd, hcount, hdone⟩ := ih
    cases hstep with
    | @inv t' _ hidle =>
      by_cases ht : t = t'
      · subst ht
        rw [hidle] at hd
        obtain rfl : d = 0 := hd.elim id fun h => nomatch h.2
        exact ⟨0, .inl rfl, hcount, by simp⟩
      · exact ⟨d, by simpa [ht] using hd, hcount, by simpa [ht] using hdone⟩
    | @lin t' _ r' _ hpend _ =>
      by_cases ht : t = t'
      · subst ht
        rw [hpend] at hd
        obtain rfl : d = 0 := hd.elim id fun h => nomatch h.2
        by_cases hr : r = r'
        · subst hr
          exact ⟨1, .inr ⟨rfl, by simp⟩, by simpa using hcount, fun _ => rfl⟩
        · refine ⟨0, .inl rfl, ?_, fun h => ?_⟩
          · rw [List.map_cons, List.count_cons_of_ne (by simp [Ne.symm hr])]
            exact hcount
          · simp only [Function.update_self, Status.done.injEq] at h
            exact absurd h.symm hr
      · refine ⟨d, by simpa [ht] using hd, ?_, by simpa [ht] using hdone⟩
        rw [List.map_cons, List.count_cons_of_ne (by simp [Ne.symm ht])]
        exact hcount
    | @res t' r' hdone' =>
      by_cases ht : t = t'
      · subst ht
        refine ⟨0, .inl rfl, ?_, by simp⟩
        by_cases hr : r = r'
        · subst hr
          obtain rfl : d = 1 := hdone hdone'
          simpa [responses] using hcount
        · obtain rfl : d = 0 := hd.elim id fun h => by
            rw [hdone'] at h
            exact absurd (Status.done.inj h.2).symm hr
          rw [responses, List.count_cons_of_ne (by simp [Ne.symm hr])]
          exact hcount
      · refine ⟨d, by simpa [ht] using hd, ?_, by simpa [ht] using hdone⟩
        rw [responses, List.count_cons_of_ne (by simp [Ne.symm ht])]
        exact hcount

/-- Every result that was returned is, once for each return, a result of the linearization. -/
theorem Obj.Reach.responses_subperm {o : Obj S T Op Res} (h : o.Reach spec) :
    (responses o.hist).Subperm (o.lins.map fun l => (l.1, l.2.2)) := by
  classical
  refine List.subperm_ext_iff.2 fun ⟨t, r⟩ _ => ?_
  obtain ⟨d, -, hcount, -⟩ := h.count_lins t r
  omega

end

end AtomicObject
