import DefiniteAssignment.Contract.Basic
import DefiniteAssignment.Table

/-! Contract maps, one per scope, in a tree: each map is asked together with
the maps of the scopes around it. A name bound further out is seen from inside
as declared there, whatever the outer scope knows about its value. -/
namespace DefiniteAssignment

/-- A map with the maps around it, nearest first. -/
structure ContractMap where
  own : Table Contract
  around : List (Table Contract)

namespace ContractMap

def get? (m : ContractMap) (x : String) : Option Contract := m.own.get? x

def boundAround (m : ContractMap) (x : String) : Bool := m.around.any (·.contains x)

def contains (m : ContractMap) (x : String) : Bool := m.own.contains x || m.boundAround x

def resolve (m : ContractMap) (x : String) : Option Contract :=
  match m.get? x with
  | some c => some c
  | none => if m.boundAround x then some .outer else none

def declaredAround (m : ContractMap) (x : String) : Bool :=
  m.around.any fun t => (t.get? x).any Contract.isDeclared

theorem resolve_eq_none_iff (m : ContractMap) (x : String) :
    m.resolve x = none ↔ m.contains x = false := by
  simp only [resolve, contains, Table.contains, get?]
  cases m.own.get? x with
  | some c => simp
  | none => simp

end ContractMap

def Table.contractText (t : Table Contract) : String :=
  "ContractMap(\x7b" ++
    ", ".intercalate (t.entries.map fun (x, c) => x ++ ": " ++ c.text) ++ "\x7d)"

/-- A growing tree of contract maps. A map is named by its place in order of
creation, and knows the places of the maps around it, nearest first. -/
structure ContractForest where
  maps : Array (Table Contract × List Nat) := #[({}, [])]

namespace ContractForest

def own (f : ContractForest) (i : Nat) : Table Contract := (f.maps[i]?.map Prod.fst).getD {}

def around (f : ContractForest) (i : Nat) : List Nat := (f.maps[i]?.map Prod.snd).getD []

def view (f : ContractForest) (i : Nat) : ContractMap := ⟨f.own i, (f.around i).map f.own⟩

def push (f : ContractForest) (i : Nat) : ContractForest :=
  ⟨f.maps.push ({}, i :: f.around i)⟩

def set (f : ContractForest) (i : Nat) (x : String) (c : Contract) : ContractForest :=
  ⟨f.maps.modify i fun (t, outer) => (t.insert x c, outer)⟩

def size (f : ContractForest) : Nat := f.maps.size

theorem own_push (f : ContractForest) (i m : Nat) : (f.push i).own m = f.own m := by
  simp only [own, push, Array.getElem?_push]
  split
  · rename_i hm
    rw [hm, Array.getElem?_eq_none (Nat.le_refl _)]
    rfl
  · rfl

theorem around_push (f : ContractForest) (i m : Nat) :
    (f.push i).around m = if m = f.size then i :: f.around i else f.around m := by
  by_cases hm : m = f.size
  · rw [if_pos hm, hm]
    simp only [around, push, size, Array.getElem?_push, if_true, Option.map_some, Option.getD_some]
  · rw [if_neg hm]
    simp only [size] at hm
    simp only [around, push, Array.getElem?_push, hm, if_false]

theorem own_set (f : ContractForest) {i : Nat} (hi : i < f.size) (x : String) (c : Contract)
    (m : Nat) : (f.set i x c).own m = if m = i then (f.own i).insert x c else f.own m := by
  simp only [own, set, Array.getElem?_modify]
  by_cases hm : m = i
  · subst hm
    have : m < f.maps.size := hi
    simp [this]
  · simp [hm, Ne.symm hm]

theorem around_set (f : ContractForest) (i : Nat) (x : String) (c : Contract) (m : Nat) :
    (f.set i x c).around m = f.around m := by
  simp only [around, set, Array.getElem?_modify]
  split
  · cases f.maps[m]? with
    | none => rfl
    | some e => rfl
  · rfl

end ContractForest

end DefiniteAssignment
