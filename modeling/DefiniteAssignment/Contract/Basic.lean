/-! Contracts: what a scope asks of the world around it for one name. -/
namespace DefiniteAssignment

inductive Contract where
  /-- To be declared and assigned outside. -/
  | external
  /-- To be declared outside; nothing is asked about its value. -/
  | outer
  /-- To be declared outside; assigned by this scope. -/
  | outerAssigned
  /-- Declared by this scope, not known to be assigned. -/
  | inner
  /-- Declared and assigned by this scope. -/
  | innerAssigned
  /-- A mark that no rule knows; meeting one is a fault of whoever set it. -/
  | alien (text : String)
deriving DecidableEq, Inhabited, Repr

namespace Contract

def text : Contract → String
  | external => "external"
  | outer => "externally_declared"
  | outerAssigned => "externally_declared_locally_assigned"
  | inner => "locally_declared"
  | innerAssigned => "local"
  | alien text => text

def named : List (String × Contract) :=
  [("EXTERNAL", external), ("EXTERNALLY_DECLARED", outer),
    ("EXTERNALLY_DECLARED_LOCALLY_ASSIGNED", outerAssigned),
    ("LOCALLY_DECLARED", inner), ("LOCAL", innerAssigned)]

def ofText? (text : String) : Option Contract :=
  (named.map Prod.snd).find? fun c => c.text = text

/-- Any text is a mark; the texts of the five contracts are those contracts. -/
def ofText (text : String) : Contract := (ofText? text).getD (alien text)

def isObligation : Contract → Bool
  | external | outer | outerAssigned => true
  | inner | innerAssigned | alien _ => false

def isDeclared : Contract → Bool
  | inner | innerAssigned => true
  | external | outer | outerAssigned | alien _ => false

end Contract

end DefiniteAssignment
