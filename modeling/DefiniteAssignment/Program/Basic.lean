/-! The checked language: declarations, assignments and reads of variables,
function declarations with a body of their own, and calls that may be guarded
by a condition. Two further statements stand outside the language; they can be
written and compared like the others, and the checker refuses them. -/
namespace DefiniteAssignment

inductive Stmt where
  | declare (name : String)
  | assign (name : String)
  | print (name : String)
  | function (name : String) (body : List Stmt)
  | call (name : String) (conditional : Bool)
  /-- A statement without content, outside the language. -/
  | bare
  /-- A whole program in the place of a statement, outside the language. -/
  | block (body : List Stmt)
deriving Inhabited

namespace Stmt

def kind : Stmt → String
  | declare _ => "VariableDeclaration"
  | assign _ => "AssignVariable"
  | print _ => "PrintVariable"
  | function _ _ => "FunctionDeclaration"
  | call _ _ => "Invocation"
  | bare => "Stmt"
  | block _ => "Program"

mutual

def decEq : (s t : Stmt) → Decidable (s = t)
  | declare x, declare y =>
    if h : x = y then isTrue (h ▸ rfl) else isFalse fun e => h (by injection e)
  | assign x, assign y =>
    if h : x = y then isTrue (h ▸ rfl) else isFalse fun e => h (by injection e)
  | print x, print y =>
    if h : x = y then isTrue (h ▸ rfl) else isFalse fun e => h (by injection e)
  | call x c, call y d =>
    if h : x = y ∧ c = d then isTrue (by rw [h.1, h.2])
    else isFalse fun e => h (by injection e with hx hc; exact ⟨hx, hc⟩)
  | function x b, function y d =>
    if h : x = y then
      match decEqList b d with
      | isTrue hb => isTrue (by rw [h, hb])
      | isFalse hb => isFalse fun e => hb (by injection e)
    else isFalse fun e => h (by injection e)
  | block b, block d =>
    match decEqList b d with
    | isTrue hb => isTrue (by rw [hb])
    | isFalse hb => isFalse fun e => hb (by injection e)
  | bare, bare => isTrue rfl
  | declare _, assign _ | declare _, print _ | declare _, function _ _ | declare _, call _ _
  | declare _, bare | declare _, block _ | assign _, declare _ | assign _, print _
  | assign _, function _ _ | assign _, call _ _ | assign _, bare | assign _, block _
  | print _, declare _ | print _, assign _ | print _, function _ _ | print _, call _ _
  | print _, bare | print _, block _ | function _ _, declare _ | function _ _, assign _
  | function _ _, print _ | function _ _, call _ _ | function _ _, bare | function _ _, block _
  | call _ _, declare _ | call _ _, assign _ | call _ _, print _ | call _ _, function _ _
  | call _ _, bare | call _ _, block _ | bare, declare _ | bare, assign _ | bare, print _
  | bare, function _ _ | bare, call _ _ | bare, block _ | block _, declare _ | block _, assign _
  | block _, print _ | block _, function _ _ | block _, call _ _ | block _, bare =>
    isFalse fun e => nomatch e

def decEqList : (b d : List Stmt) → Decidable (b = d)
  | [], [] => isTrue rfl
  | [], _ :: _ => isFalse fun e => nomatch e
  | _ :: _, [] => isFalse fun e => nomatch e
  | s :: b, t :: d =>
    match decEq s t with
    | isFalse h => isFalse fun e => h (by injection e)
    | isTrue h =>
      match decEqList b d with
      | isTrue hb => isTrue (by rw [h, hb])
      | isFalse hb => isFalse fun e => hb (by injection e)

end

instance : DecidableEq Stmt := decEq

end Stmt

structure Program where
  body : List Stmt := []
deriving DecidableEq, Inhabited

/-- What can be checked: a program, or a loose list of statements. A program
never equals a list, and only a program can be written out. -/
inductive Source where
  | program (p : Program)
  | loose (statements : List Stmt)
deriving DecidableEq

namespace Source

def statements : Source → List Stmt
  | program p => p.body
  | loose body => body

def program? : Source → Option Program
  | program p => some p
  | loose _ => none

end Source

end DefiniteAssignment
