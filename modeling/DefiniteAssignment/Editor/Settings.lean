import DefiniteAssignment.Decimal.Numeral
import DefiniteAssignment.Json.Basic

/-! Settings of an editing session, read from whatever data the client sends. -/
namespace DefiniteAssignment.Editor

structure Settings where
  analyzeOnChange : Bool := false
  debounce : Float := 0.5

inductive SettingError where
  | notNumeral (text : String)
  | notNumber (kind : String)
  | tooLarge

namespace SettingError

def message : SettingError → String
  | notNumeral text => "could not convert string to float: " ++ Text.quoted text
  | notNumber kind => "float() argument must be a string or a real number, not '" ++ kind ++ "'"
  | tooLarge => "int too large to convert to float"

end SettingError

def seconds : Json → Except SettingError Float
  | .bool b => .ok (if b then 1 else 0)
  | .int n =>
    let x := Decimal.toFloat n.natAbs 0
    if x.isInf then .error .tooLarge else .ok (if n < 0 then -x else x)
  | .real x => .ok x
  | .str s =>
    match Decimal.readFloat? s with
    | some x => .ok x
    | none => .error (.notNumeral s)
  | v => .error (.notNumber v.kind)

namespace Settings

def setAnalyzeOnChange (s : Settings) (options : List (String × Json)) : Settings :=
  match Json.find "analyzeOnChange" options with
  | some v => { s with analyzeOnChange := v.isTruthy }
  | none => s

/-- Takes over the known options. A delay that is no number is refused after the
other option has been taken over. -/
def apply (s : Settings) (options : List (String × Json)) : Settings × Option SettingError :=
  let s := s.setAnalyzeOnChange options
  match Json.find "debounceSeconds" options with
  | none => (s, none)
  | some v =>
    match seconds v with
    | .ok x => ({ s with debounce := x }, none)
    | .error e => (s, some e)

end Settings

end DefiniteAssignment.Editor
