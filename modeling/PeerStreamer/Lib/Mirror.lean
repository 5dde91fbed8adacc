import Mathlib.Data.List.Basic
import Mathlib.Tactic.Common

/-!
# Two copies of a value

Two ends hold a copy of a value.  An end that changes its copy sends the new value to the other
end, which takes it over when it arrives; in each direction the values arrive in order.  The copies
agree when both ends will hold the same once everything has arrived.  A write keeps this exactly
when no different value is coming from the other end.
-/

namespace Mirror

variable {α : Type*} {a b x : α} {q qa qb xs : List α}

/-- What an end holds once the values in the queue have arrived. -/
def settled (a : α) (q : List α) : α := q.getLastD a

@[simp] theorem settled_nil (a : α) : settled a [] = a := rfl

@[simp] theorem settled_cons (a x : α) (q : List α) : settled a (x :: q) = settled x q :=
  List.getLastD_cons ..

theorem settled_append (a : α) (q xs : List α) :
    settled a (q ++ xs) = settled (settled a q) xs := by
  induction q generalizing a with
  | nil => rfl
  | cons x q ih => rw [List.cons_append, settled_cons, settled_cons, ih]

theorem settled_of_getLast? (a : α) (h : q.getLast? = some x) : settled a q = x := by
  rw [settled, List.getLastD_eq_getLast?, h, Option.getD_some]

/-- Both ends will hold the same: `qa` is on its way to the end with `a`, `qb` to the other. -/
def Agree (a b : α) (qa qb : List α) : Prop := settled a qa = settled b qb

theorem Agree.symm (h : Agree a b qa qb) : Agree b a qb qa := Eq.symm h

theorem Agree.eq (h : Agree a b [] []) : a = b := h

/-- A value arrives. -/
theorem Agree.receive (h : Agree a b (x :: qa) qb) : Agree x b qa qb := by
  rw [Agree, settled_cons] at h
  exact h

/-- After a write the copies agree if and only if nothing else is on its way to the writer. -/
theorem agree_write_iff (hx : xs.getLast? = some x) :
    Agree (settled a xs) b qa (qb ++ xs) ↔ ∀ y, qa.getLast? = some y → x = y := by
  rw [Agree, settled_append, settled_of_getLast? a hx, settled_of_getLast? _ hx]
  cases hq : qa.getLast? with
  | none =>
    rw [List.getLast?_eq_none_iff.1 hq]
    simp
  | some y =>
    rw [settled_of_getLast? _ hq]
    simp [eq_comm]

theorem Agree.write (h : Agree a b qa qb)
    (hcross : ∀ x y, xs.getLast? = some x → qa.getLast? = some y → x = y) :
    Agree (settled a xs) b qa (qb ++ xs) := by
  cases hx : xs.getLast? with
  | none =>
    rw [List.getLast?_eq_none_iff.1 hx, List.append_nil]
    exact h
  | some x =>
    exact (agree_write_iff hx).2 fun y hy => hcross x y hx hy

end Mirror
