import Std.Data.TreeMap

/-!
# Directories

A directory maps names to values and lists its entries in ascending order of their names, the
order in which programs see registers and operators listed; names compare character by
character, which is the order of their UTF-8 bytes. Inserting under a name that is present
replaces its value.

A directory is a balanced search tree, so a lookup or an update takes time logarithmic in its
size: registers pile up in a program that recurses, one for every evaluation that stores a
local. Proofs see a directory through `get?`, with `get?_empty`, `get?_insert` and `get?_erase`
saying what each operation does to it.
-/

namespace Concatenative

/-- A map from names to values, its entries in ascending name order. -/
structure Directory (α : Type) where
  tree : Std.TreeMap String α compare := {}

namespace Directory

variable {α : Type}

instance : Inhabited (Directory α) := ⟨{}⟩

/-- The entries, in ascending order of their names. -/
def entries (d : Directory α) : List (String × α) :=
  d.tree.toList

/-- The value under `name`. -/
def get? (d : Directory α) (name : String) : Option α :=
  d.tree[name]?

/-- `name` has a value. -/
def contains (d : Directory α) (name : String) : Bool :=
  d.tree.contains name

/-- The number of entries. -/
def size (d : Directory α) : Nat :=
  d.tree.size

/-- The names, in ascending order. -/
def names (d : Directory α) : List String :=
  d.tree.keys

/-- Sets the value under `name`. -/
def insert (d : Directory α) (name : String) (value : α) : Directory α :=
  ⟨d.tree.insert name value⟩

/-- Removes the entry of `name`, if any. -/
def erase (d : Directory α) (name : String) : Directory α :=
  ⟨d.tree.erase name⟩

@[simp] theorem get?_empty (name : String) : ({} : Directory α).get? name = none := by
  simp [get?]

@[simp] theorem get?_insert (d : Directory α) (k a : String) (v : α) :
    (d.insert k v).get? a = if k = a then some v else d.get? a := by
  simp only [get?, insert, Std.TreeMap.getElem?_insert, Std.compare_eq_iff_eq]

@[simp] theorem get?_erase (d : Directory α) (k a : String) :
    (d.erase k).get? a = if k = a then none else d.get? a := by
  simp only [get?, erase, Std.TreeMap.getElem?_erase, Std.compare_eq_iff_eq]

/-- A property of every value survives setting a value that has it. -/
theorem forall_get?_insert {p : α → Prop} {d : Directory α}
    (hd : ∀ name v, d.get? name = some v → p v) (k : String) {v : α} (hv : p v) :
    ∀ name w, (d.insert k v).get? name = some w → p w := by
  intro name w h
  rw [get?_insert] at h
  split at h
  · cases h
    exact hv
  · exact hd name w h

/-- A property of every value survives removing an entry. -/
theorem forall_get?_erase {p : α → Prop} {d : Directory α}
    (hd : ∀ name v, d.get? name = some v → p v) (k : String) :
    ∀ name w, (d.erase k).get? name = some w → p w := by
  intro name w h
  rw [get?_erase] at h
  split at h
  · cases h
  · exact hd name w h

theorem contains_eq_isSome_get? (d : Directory α) (name : String) :
    d.contains name = (d.get? name).isSome := by
  simp [contains, get?, Std.TreeMap.isSome_getElem?_eq_contains]

end Directory

end Concatenative
