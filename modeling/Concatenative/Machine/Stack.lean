import Concatenative.Text.Escaped

/-!
# Stacks

A stack holds its items with the top first, so that pushing and popping touch only the head.
Its view `Stack.toList` runs from the bottom to the top, the order in which items were pushed;
each operation has a lemma saying what it does to that view.
-/

namespace Concatenative

/-- A stack; `top` lists the items from the top down. -/
structure Stack (α : Type) where
  top : List α := []
  deriving Inhabited

namespace Stack

variable {α : Type}

/-- The items from the bottom to the top. -/
def toList (s : Stack α) : List α :=
  s.top.reverse

/-- The stack holding `xs`, the last of them on top. -/
def ofList (xs : List α) : Stack α :=
  ⟨xs.reverse⟩

/-- The number of items. -/
def size (s : Stack α) : Nat :=
  s.top.length

/-- No item at all. -/
def isEmpty (s : Stack α) : Bool :=
  s.top.isEmpty

/-- The top item. -/
def peek? (s : Stack α) : Option α :=
  s.top.head?

/-- The item at `i`, counted from the bottom. -/
def get? (s : Stack α) (i : Nat) : Option α :=
  s.toList[i]?

/-- Puts an item on top. -/
def push (s : Stack α) (a : α) : Stack α :=
  ⟨a :: s.top⟩

/-- Puts items on top in order, the last of them ending on top. -/
def pushAll (s : Stack α) (xs : List α) : Stack α :=
  ⟨xs.reverse ++ s.top⟩

/-- The top item and the stack below it. -/
def pop? (s : Stack α) : Option (α × Stack α) :=
  match s.top with
  | a :: rest => some (a, ⟨rest⟩)
  | [] => none

/-- The top `n` items in push order and the stack below them, if there are that many. -/
def popN? (s : Stack α) (n : Nat) : Option (List α × Stack α) :=
  if n ≤ s.size then some ((s.top.take n).reverse, ⟨s.top.drop n⟩) else none

/-- Removes every item, returning them bottom first. -/
def drain (s : Stack α) : List α × Stack α :=
  (s.toList, {})

/-- A stack of strings as a debugging printout shows it: `["a", "b"]`, bottom first. -/
def debug (s : Stack String) : String :=
  "[" ++ ", ".intercalate (s.toList.map escapeLiteral) ++ "]"

@[simp] theorem toList_ofList (xs : List α) : (ofList xs).toList = xs := by
  simp [toList, ofList]

@[simp] theorem toList_push (s : Stack α) (a : α) : (s.push a).toList = s.toList ++ [a] := by
  simp [toList, push]

@[simp] theorem toList_pushAll (s : Stack α) (xs : List α) :
    (s.pushAll xs).toList = s.toList ++ xs := by
  simp [toList, pushAll]

@[simp] theorem pushAll_empty (xs : List α) : ({} : Stack α).pushAll xs = ofList xs := by
  simp [pushAll, ofList]

@[simp] theorem size_eq_length (s : Stack α) : s.size = s.toList.length := by
  simp [size, toList]

theorem pop?_eq_some {s t : Stack α} {a : α} (h : s.pop? = some (a, t)) :
    s.toList = t.toList ++ [a] := by
  unfold pop? at h
  split at h
  · cases h; simp_all [toList]
  · cases h

theorem popN?_eq_some {s t : Stack α} {xs : List α} {n : Nat} (h : s.popN? n = some (xs, t)) :
    s.toList = t.toList ++ xs ∧ xs.length = n := by
  unfold popN? at h
  split at h
  · cases h
    refine ⟨?_, ?_⟩
    · simp only [toList]
      rw [← List.reverse_append, List.take_append_drop]
    · simp only [size] at *
      simp; omega
  · cases h

/-- Taking one item off a stack gives back the last one pushed. -/
theorem popN?_push (s : Stack α) (a : α) : (s.push a).popN? 1 = some ([a], s) := by
  simp [popN?, push, size]

end Stack

end Concatenative
