import Mathlib.Data.List.Basic

/-!
# Merges of two lists

`Merge xs ys zs` says that `zs` is made of the elements of `xs` and of `ys`, each of them once and
each list in its own order. A merge grows at its end when a piece of either list is added
(`Merge.append_left`, `Merge.append_right`).
-/

namespace TlpiLearn

variable {α : Type*}

/-- `zs` takes its elements from the front of `xs` and of `ys`. -/
inductive Merge : List α → List α → List α → Prop
  | nil : Merge [] [] []
  | left {x : α} {xs ys zs : List α} : Merge xs ys zs → Merge (x :: xs) ys (x :: zs)
  | right {y : α} {xs ys zs : List α} : Merge xs ys zs → Merge xs (y :: ys) (y :: zs)

namespace Merge

variable {xs ys zs : List α}

theorem append_left (h : Merge xs ys zs) (l : List α) : Merge (xs ++ l) ys (zs ++ l) := by
  induction h with
  | nil =>
    induction l with
    | nil => exact .nil
    | cons a l ih => exact .left ih
  | left _ ih => exact .left ih
  | right _ ih => exact .right ih

theorem append_right (h : Merge xs ys zs) (l : List α) : Merge xs (ys ++ l) (zs ++ l) := by
  induction h with
  | nil =>
    induction l with
    | nil => exact .nil
    | cons a l ih => exact .right ih
  | left _ ih => exact .left ih
  | right _ ih => exact .right ih

end Merge

end TlpiLearn
