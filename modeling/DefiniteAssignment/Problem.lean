/-! Problems are findings about one symbol. The same code on the same symbol is
the same finding, however many ways lead to it, so a sink keeps each once, in
the order in which they were first found. -/
namespace DefiniteAssignment

inductive Code where
  | alreadyDeclared
  | usedBeforeDeclared
  | assignToFunction
  | unknownFunction
  | notDeclared
  | notAssigned
  /-- A code from elsewhere, which is its own explanation. -/
  | other (text : String)
deriving DecidableEq, Inhabited, Repr

namespace Code

def all : List Code :=
  [alreadyDeclared, usedBeforeDeclared, assignToFunction, unknownFunction, notDeclared,
    notAssigned]

def text : Code → String
  | alreadyDeclared => "E_ALREADY_DECLARED"
  | usedBeforeDeclared => "E_USED_BEFORE_DECLARED"
  | assignToFunction => "E_ASSIGN_TO_FUNCTION"
  | unknownFunction => "E_UNKNOWN_FUNCTION"
  | notDeclared => "E_VARIABLE_NOT_DECLARED"
  | notAssigned => "E_VARIABLE_NOT_ASSIGNED"
  | other text => text

def ofText (text : String) : Code := (all.find? fun c => c.text = text).getD (other text)

def message : Code → String
  | alreadyDeclared => "Symbol name already exists"
  | usedBeforeDeclared =>
    "Variable can not be declared since it was used earlier " ++
      "and expected to be captured from external context"
  | assignToFunction => "Can not assign value to function"
  | unknownFunction => "Unknown function called"
  | notDeclared => "No such variable declared"
  | notAssigned => "Variable is not assigned"
  | other text => text

def isAboutFunction : Code → Bool
  | unknownFunction | assignToFunction => true
  | alreadyDeclared | usedBeforeDeclared | notDeclared | notAssigned | other _ => false

end Code

structure Problem where
  code : Code
  symbol : String
deriving DecidableEq, Inhabited, Repr

namespace Problem

def message (p : Problem) : String := p.code.message

def line (p : Problem) : String := p.code.text ++ " '" ++ p.symbol ++ "': " ++ p.message

end Problem

structure Sink where
  toList : List Problem := []
deriving DecidableEq, Repr

namespace Sink

instance : Inhabited Sink := ⟨{}⟩

def contains (s : Sink) (p : Problem) : Bool := s.toList.contains p

def insert (s : Sink) (p : Problem) : Sink :=
  if s.contains p then s else ⟨s.toList ++ [p]⟩

def ofList (ps : List Problem) : Sink := ps.foldl insert {}

def size (s : Sink) : Nat := s.toList.length

theorem toList_insert (s : Sink) (p : Problem) :
    (s.insert p).toList = if p ∈ s.toList then s.toList else s.toList ++ [p] := by
  by_cases h : p ∈ s.toList <;> simp [insert, contains, h]

theorem mem_insert {s : Sink} {p q : Problem} :
    q ∈ (s.insert p).toList ↔ q ∈ s.toList ∨ q = p := by
  rw [toList_insert]
  split
  · rename_i h
    exact ⟨Or.inl, fun hq => hq.elim id fun e => e ▸ h⟩
  · simp

theorem nodup_insert {s : Sink} (p : Problem) (h : s.toList.Nodup) :
    (s.insert p).toList.Nodup := by
  rw [toList_insert]
  split
  · exact h
  · rename_i hp
    rw [List.nodup_append]
    refine ⟨h, by simp, ?_⟩
    intro q hq r hr
    rw [List.mem_singleton] at hr
    rintro rfl
    exact hp (hr ▸ hq)

end Sink

end DefiniteAssignment
