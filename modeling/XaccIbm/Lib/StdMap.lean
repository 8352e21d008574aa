import Mathlib.Data.List.Basic

/-!
# StdMap — the C++ associative container

`std::map<K, V>` up to iteration order: a map is its lookup function, so
two maps with the same entries are equal. The three writes differ in what
they do to an entry that is already there: `insert` keeps it, `set`
overwrites it, and `subscript` (a read through `operator[]`) creates it
with a default when it is missing and otherwise leaves it alone.
-/

namespace XaccIbm

/-- A map from `κ` to `ν`, given by what it holds at each key. -/
structure StdMap (κ ν : Type) where
  find : κ → Option ν

namespace StdMap

variable {κ ν : Type}

@[ext] theorem ext {m m' : StdMap κ ν} (h : ∀ k, m.find k = m'.find k) :
    m = m' := by
  cases m
  cases m'
  congr
  exact funext h

/-- The map with no entry (a fresh map, and the result of `clear`). -/
def empty : StdMap κ ν := ⟨fun _ => none⟩

instance : EmptyCollection (StdMap κ ν) := ⟨empty⟩

/-- `count(k) != 0`, `find(k) != end()`. -/
def contains (m : StdMap κ ν) (k : κ) : Bool := (m.find k).isSome

/-- The entry at `k`, or `d` when there is none. -/
def getD (m : StdMap κ ν) (k : κ) (d : ν) : ν := (m.find k).getD d

/-- The same keys, with what a function makes of the entries. -/
def map {ν' : Type} (f : ν → ν') (m : StdMap κ ν) : StdMap κ ν' := ⟨fun k => (m.find k).map f⟩

@[simp] theorem find_map {ν' : Type} (f : ν → ν') (m : StdMap κ ν) (k : κ) :
    (m.map f).find k = (m.find k).map f := rfl

@[simp] theorem find_empty (k : κ) : (∅ : StdMap κ ν).find k = none := rfl

@[simp] theorem getD_empty (k : κ) (d : ν) :
    (∅ : StdMap κ ν).getD k d = d := rfl

variable [DecidableEq κ]

/-- `m[k] = v`. -/
def set (m : StdMap κ ν) (k : κ) (v : ν) : StdMap κ ν :=
  ⟨fun j => if j = k then some v else m.find j⟩

/-- `m.insert({k, v})`: an entry that is already there stays. -/
def insert (m : StdMap κ ν) (k : κ) (v : ν) : StdMap κ ν :=
  ⟨fun j => if j = k then some (m.getD k v) else m.find j⟩

/-- `m[k]` as a value: the entry read, and the map after the read. -/
def subscript (m : StdMap κ ν) (k : κ) (d : ν) : ν × StdMap κ ν :=
  (m.getD k d, m.insert k d)

@[simp] theorem find_set_self (m : StdMap κ ν) (k : κ) (v : ν) :
    (m.set k v).find k = some v := by
  simp [set]

theorem find_set_ne (m : StdMap κ ν) {j k : κ} (v : ν) (h : j ≠ k) :
    (m.set k v).find j = m.find j := by
  simp [set, h]

@[simp] theorem getD_set_self (m : StdMap κ ν) (k : κ) (v d : ν) :
    (m.set k v).getD k d = v := by
  simp [getD]

theorem getD_set_ne (m : StdMap κ ν) {j k : κ} (v d : ν) (h : j ≠ k) :
    (m.set k v).getD j d = m.getD j d := by
  rw [getD, find_set_ne m v h, getD]

theorem find_insert_self (m : StdMap κ ν) (k : κ) (v : ν) :
    (m.insert k v).find k = some (m.getD k v) := by
  simp [insert]

theorem find_insert_ne (m : StdMap κ ν) {j k : κ} (v : ν) (h : j ≠ k) :
    (m.insert k v).find j = m.find j := by
  simp [insert, h]

/-- Reading with the default that was inserted does not see the insert. -/
@[simp] theorem getD_insert (m : StdMap κ ν) (j k : κ) (d : ν) :
    (m.insert k d).getD j d = m.getD j d := by
  by_cases h : j = k
  · subst h
    rw [getD, find_insert_self]
    rfl
  · rw [getD, find_insert_ne m d h, getD]

@[simp] theorem subscript_fst (m : StdMap κ ν) (k : κ) (d : ν) :
    (m.subscript k d).1 = m.getD k d := rfl

@[simp] theorem subscript_snd (m : StdMap κ ν) (k : κ) (d : ν) :
    (m.subscript k d).2 = m.insert k d := rfl

end StdMap

end XaccIbm
