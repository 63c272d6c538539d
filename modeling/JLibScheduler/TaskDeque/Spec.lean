import JLibScheduler.TaskDeque.Basic
import Mathlib.Data.List.Flatten

/-!
# The bounded double-ended queue that the deque is for

The abstract deque is a list, its top-most element first and its bottom-most last, of at most
`capacity` elements. `Apply` says what each call may do to it in one moment; a `steal` may also
give up and take nothing. In any sequence of such calls the accepted items are the taken ones
together with those still in the list (`accepted_perm`).
-/

namespace JLibScheduler.TaskDeque

open AtomicObject

section
variable {ι α : Type}

/-- The items that a push call offers. -/
def Op.items : Op α → Option (List (Ptr α))
  | .pushBottom item => some [item]
  | .pushBottomBatch items => some items
  | .popBottom | .steal => none

/-- The calls on the abstract deque. -/
inductive Apply (capacity : Nat) : Op α → List (Ptr α) → Res α → List (Ptr α) → Prop
  | accept {op : Op α} {xs l : List (Ptr α)} : op.items = some xs →
      l.length + xs.length ≤ capacity → Apply capacity op l (.pushed true) (l ++ xs)
  | refuse {op : Op α} {xs l : List (Ptr α)} : op.items = some xs →
      capacity < l.length + xs.length → Apply capacity op l (.pushed false) l
  | popEmpty : Apply capacity .popBottom [] (.taken none) []
  | pop {l : List (Ptr α)} {x : Ptr α} : Apply capacity .popBottom (l ++ [x]) (.taken (some x)) l
  | stealNone {l : List (Ptr α)} : Apply capacity .steal l (.taken none) l
  | steal {l : List (Ptr α)} {x : Ptr α} : Apply capacity .steal (x :: l) (.taken (some x)) l

/-- The abstract deque, empty at first. -/
def spec (capacity : Nat) : SeqSpec (List (Ptr α)) (Op α) (Res α) :=
  { init := [], apply := Apply capacity }

/-- The items of the accepted pushes of a sequence of calls. -/
def accepted : List (Tid ι × Op α × Res α) → List (Ptr α)
  | [] => []
  | (_, op, .pushed true) :: l => op.items.getD [] ++ accepted l
  | _ :: l => accepted l

/-- The item a result hands to the caller. -/
def Res.item : Res α → List (Ptr α)
  | .taken (some x) => [x]
  | _ => []

/-- The items that the calls of a sequence took. -/
def taken (l : List (Tid ι × Op α × Res α)) : List (Ptr α) :=
  (l.map fun c => (c.1, c.2.2)).flatMap fun c => c.2.item

/-- The items that a history returned to the callers. -/
def returned (h : List (Event (Tid ι) (Op α) (Res α))) : List (Ptr α) :=
  (responses h).flatMap fun c => c.2.item

variable {capacity : Nat}

/-- Nothing is lost and nothing is taken twice: the accepted items are the taken ones and those in
the list. -/
theorem accepted_perm {l : List (Tid ι × Op α × Res α)} {a : List (Ptr α)}
    (h : SeqRun (spec capacity) l a) : (accepted l).Perm (taken l ++ a) := by
  induction h with
  | nil => exact .nil
  | @cons l a b t op r _ happ ih =>
    cases happ with
    | @accept _ xs _ hop _ =>
      simp only [accepted, taken, hop, Option.getD_some, List.map_cons, List.flatMap_cons,
        Res.item, List.nil_append] at ih ⊢
      calc xs ++ accepted l
          _ |>.Perm (xs ++ (taken l ++ a)) := ih.append_left xs
          _ |>.Perm ((taken l ++ a) ++ xs) := List.perm_append_comm
          _ = taken l ++ (a ++ xs) := List.append_assoc ..
    | refuse | popEmpty | stealNone =>
      simpa [accepted, taken, Res.item] using ih
    | @pop b x =>
      simp only [accepted, taken, List.map_cons, List.flatMap_cons, Res.item,
        List.singleton_append] at ih ⊢
      refine ih.trans ?_
      rw [← List.append_assoc]
      exact List.perm_append_singleton x _
    | @steal b x =>
      simp only [accepted, taken, List.map_cons, List.flatMap_cons, Res.item,
        List.singleton_append] at ih ⊢
      exact ih.trans List.perm_middle

/-- Every item that was returned was accepted, once for each time it was returned. -/
theorem returned_subperm [DecidableEq ι] {o : Obj (List (Ptr α)) (Tid ι) (Op α) (Res α)}
    (h : o.Reach (spec capacity)) : (returned o.hist).Subperm (accepted o.lins) := by
  have hsub : (returned o.hist).Subperm (taken o.lins) := by
    obtain ⟨l, hperm, hsl⟩ := h.responses_subperm
    exact ⟨l.flatMap fun c => c.2.item, hperm.flatMap_right _, hsl.flatMap _⟩
  exact hsub.trans
    ((List.sublist_append_left _ _).subperm.trans (accepted_perm h.seqRun).symm.subperm)

end

end JLibScheduler.TaskDeque
