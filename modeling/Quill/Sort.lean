/-!
# Sorting

Merge sort with an order that is asked for in a monad. The sort is stable: an element goes before
an earlier one only if the order says that it belongs before it.
-/

namespace Quill

variable {m : Type → Type} [Monad m] {α : Type}

/-- Merges two lists behind what was merged before, which is given last one first. At most `n` more
elements are compared. -/
def mergeOnto (before : α → α → m Bool) : Nat → List α → List α → List α → m (List α)
  | n + 1, done, a :: left, b :: right => do
    -- Taking from the left unless the right is before it keeps equal elements in order.
    if ← before b a then mergeOnto before n (b :: done) (a :: left) right
    else mergeOnto before n (a :: done) left (b :: right)
  | _, done, left, right => return done.reverse ++ left ++ right

def mergeSortWithin (before : α → α → m Bool) : Nat → List α → m (List α)
  | 0, l => return l
  | n + 1, l =>
    if l.length ≤ 1 then return l
    else do
      let (left, right) := l.splitAt (l.length / 2)
      let left ← mergeSortWithin before n left
      let right ← mergeSortWithin before n right
      mergeOnto before l.length [] left right

def mergeSort (before : α → α → m Bool) (l : List α) : m (List α) :=
  mergeSortWithin before l.length l

end Quill
