import DefiniteAssignment.Program.Data
import DefiniteAssignment.Proofs.Language
import DefiniteAssignment.Proofs.Spelling

/-! Programs read back from their written form. The data of a program is taken
apart again into the program, unless some name in it is empty: an empty name can
be written, and is refused when it is read. -/
namespace DefiniteAssignment

namespace Stmt

mutual

def isNamed : Stmt → Bool
  | .declare x | .assign x | .print x | .call x _ => x ≠ ""
  | .function f body => f ≠ "" && allNamed body
  | .bare => true
  | .block body => allNamed body

def allNamed : List Stmt → Bool
  | [] => true
  | s :: rest => s.isNamed && allNamed rest

end

/-- What comes of loading the data of `x`: it is `x` again, or where a name in it is
empty it is refused as malformed. -/
def Loads {α : Type} (named : Bool) (x : α) (outcome : Except LoadError α) : Prop :=
  if named then outcome = .ok x else ∃ e, outcome = .error e ∧ e.isMalformed

namespace Loads

variable {α β γ : Type} {x : α} {y : β}

theorem bind {named named' : Bool} {outcome : Except LoadError α} {rest : Except LoadError β}
    (h : Loads named x outcome) (h' : Loads named' y rest) (f : α → β → γ) :
    Loads (named && named') (f x y) (do return f (← outcome) (← rest)) := by
  cases named with
  | false =>
    obtain ⟨e, rfl, he⟩ := h
    exact ⟨e, rfl, he⟩
  | true =>
    obtain rfl : outcome = .ok x := h
    cases named' with
    | false =>
      obtain ⟨e, rfl, he⟩ := h'
      exact ⟨e, rfl, he⟩
    | true =>
      obtain rfl : rest = .ok y := h'
      rfl

theorem map {named : Bool} {outcome : Except LoadError α} (h : Loads named x outcome)
    (f : α → β) : Loads named (f x) (f <$> outcome) := by
  cases named with
  | true =>
    obtain rfl : outcome = .ok x := h
    rfl
  | false =>
    obtain ⟨e, rfl, he⟩ := h
    exact ⟨e, rfl, he⟩

end Loads

def Kind.build (kind : Kind) (x : String) (members : List (String × Json)) :
    Except LoadError Stmt :=
  match kind with
  | .declare => .ok (Stmt.declare x)
  | .assign => .ok (Stmt.assign x)
  | .print => .ok (Stmt.print x)
  | .function => Stmt.function x <$> bodyMember members
  | .call => Stmt.call x <$> loadConditional members

theorem ofJson_written (kind : Kind) (x : String) (members : List (String × Json)) :
    ofJson (.obj (("type", .str kind.text) :: ("name", .str x) :: members)) =
      if x = "" then .error (.badName kind.text (.str x)) else kind.build x members := by
  have hkind : loadKind (("type", .str kind.text) :: ("name", .str x) :: members) = .ok kind := by
    cases kind <;> rfl
  have hname : loadName kind (("type", .str kind.text) :: ("name", .str x) :: members) =
      if x = "" then .error (.badName kind.text (.str x)) else .ok x := rfl
  have hbody : bodyMember (("type", .str kind.text) :: ("name", .str x) :: members) =
      bodyMember members := by
    simp [bodyMember]
  have hconditional : loadConditional (("type", .str kind.text) :: ("name", .str x) :: members) =
      loadConditional members := rfl
  simp only [ofJson, hkind, hname, hbody, hconditional, Bind.bind, Except.bind]
  by_cases hx : x = ""
  · simp [hx]
  · simp only [hx, if_false]
    cases kind <;> rfl

theorem loads_written (kind : Kind) {x : String} {members : List (String × Json)} {named : Bool}
    {s : Stmt} (h : Loads named s (kind.build x members)) : Loads (x ≠ "" && named) s
      (ofJson (.obj (("type", .str kind.text) :: ("name", .str x) :: members))) := by
  rw [ofJson_written]
  by_cases hx : x = ""
  · simp [Loads, hx, LoadError.isMalformed]
  · simpa [hx] using h

theorem loads_leaf (kind : Kind) {x : String} {members : List (String × Json)} {s : Stmt}
    (h : kind.build x members = .ok s) : Loads (x ≠ "") s
      (ofJson (.obj (("type", .str kind.text) :: ("name", .str x) :: members))) := by
  have hloads : Loads true s (kind.build x members) := h
  rw [← Bool.and_true (decide (x ≠ ""))]
  exact loads_written kind hloads

mutual

theorem exists_toJson : (s : Stmt) → s.inLanguage →
    ∃ v, s.toJson = .ok v ∧ v.isPlain ∧ Loads s.isNamed s (ofJson v)
  | .declare _, _ => ⟨_, rfl, rfl, loads_leaf .declare rfl⟩
  | .assign _, _ => ⟨_, rfl, rfl, loads_leaf .assign rfl⟩
  | .print _, _ => ⟨_, rfl, rfl, loads_leaf .print rfl⟩
  | .call _ _, _ => ⟨_, rfl, rfl, loads_leaf .call rfl⟩
  | .function f body, h => by
    obtain ⟨items, hitems, hplain, hloads⟩ := exists_listToJson body h
    refine ⟨.obj [("type", .str "FunctionDeclaration"), ("name", .str f), ("body", .arr items)],
      ?_, ?_, ?_⟩
    · rw [toJson, hitems]
      rfl
    · simpa [Json.isPlain, Json.membersPlain] using hplain
    · have hbody : Loads (allNamed body) (function f body)
          (Kind.build .function f [("body", .arr items)]) := hloads.map (function f)
      exact loads_written .function hbody
  | .bare, h | .block _, h => by simp [inLanguage] at h

theorem exists_listToJson : (body : List Stmt) → allInLanguage body →
    ∃ items, listToJson body = .ok items ∧ Json.itemsPlain items ∧
      Loads (allNamed body) body (listOfJson items)
  | [], _ => ⟨[], rfl, rfl, rfl⟩
  | s :: rest, h => by
    simp only [allInLanguage, Bool.and_eq_true] at h
    obtain ⟨v, hv, hplain, hloads⟩ := exists_toJson s h.1
    obtain ⟨items, hitems, hplains, hrest⟩ := exists_listToJson rest h.2
    refine ⟨v :: items, ?_, ?_, hloads.bind hrest List.cons⟩
    · rw [listToJson, hv, hitems]
      rfl
    · rw [Json.itemsPlain, hplain, hplains]
      rfl

end

end Stmt

theorem Json.parse_render_of_isPlain {l : Json.Layout} (hl : l.Blank) {v : Json} (hv : v.isPlain) :
    Json.parse (v.render l) = .ok v := by
  rw [Json.parse, Json.render, String.toList_ofList, Json.read_chars hl hv]

namespace Program

def IsNamed (p : Program) : Prop := Stmt.allNamed p.body

instance (p : Program) : Decidable p.IsNamed :=
  inferInstanceAs (Decidable (Stmt.allNamed p.body = true))

theorem exists_toJson {p : Program} (hin : p.InLanguage) :
    ∃ v, p.toJson = .ok v ∧ v.isPlain ∧ Stmt.Loads (Stmt.allNamed p.body) p (ofJson v) := by
  obtain ⟨items, hitems, hplain, hloads⟩ := Stmt.exists_listToJson p.body hin
  refine ⟨.obj [("type", .str "Program"), ("body", .arr items)], ?_, ?_, ?_⟩
  · rw [toJson, hitems]
    rfl
  · simpa [Json.isPlain, Json.membersPlain] using hplain
  · have hload : ofJson (.obj [("type", .str "Program"), ("body", .arr items)]) =
        Program.mk <$> Stmt.listOfJson items := rfl
    rw [hload]
    exact hloads.map Program.mk

/-- A program of the language can be written, with any blanks between its parts. It
is read back as the same program if and only if no name in it is empty, and is
otherwise refused as malformed. -/
theorem parse_render {p : Program} (hin : p.InLanguage) {l : Json.Layout} (hl : l.Blank) :
    ∃ text, p.render l = .ok text ∧ (parse text = .ok p ↔ p.IsNamed) ∧
      (¬ p.IsNamed → ∃ e, parse text = .error e ∧ e.isMalformed) := by
  obtain ⟨v, hv, hplain, hloads⟩ := exists_toJson hin
  refine ⟨v.render l, by rw [render, hv]; rfl, ?_⟩
  have hparse : parse (v.render l) = (ofJson v).mapError .load := by
    rw [parse, Json.parse_render_of_isPlain hl hplain]
    simp only [bind, Except.bind]
    cases ofJson v with
    | ok q => rfl
    | error e => rfl
  unfold IsNamed
  rw [hparse]
  cases hnamed : Stmt.allNamed p.body with
  | true =>
    rw [hnamed] at hloads
    have hload : ofJson v = .ok p := hloads
    simp [hload, Except.mapError]
  | false =>
    rw [hnamed] at hloads
    obtain ⟨e, hload, he⟩ := hloads
    simp [hload, Except.mapError, ReadError.isMalformed, he]

def exotic : Program :=
  ⟨[.declare "\"\\\x00\x7f", .function "é\u2028" [.function "😀" [.call "𐀀\r" true], .assign "a b"],
    .print "\n"]⟩

def nameless : Program :=
  ⟨[.function "F" [.function "G" [.declare "x", .call "" true]], .print "x"]⟩

theorem parse_render_exotic :
    exotic.InLanguage ∧ exotic.IsNamed ∧ Json.Layout.Blank (.lines "\t ") ∧
      (∃ text, exotic.render (.lines "\t ") = .ok text ∧ parse text = .ok exotic) ∧
      nameless.InLanguage ∧ ¬ nameless.IsNamed ∧ Json.Layout.Blank (.spaces (-3)) ∧
      ∃ text e, nameless.render (.spaces (-3)) = .ok text ∧ parse text = .error e ∧
        e.isMalformed := by
  have hin : exotic.InLanguage := rfl
  have hin' : nameless.InLanguage := rfl
  have hnamed : exotic.IsNamed := by decide
  have hnameless : ¬ nameless.IsNamed := by decide
  have hblank : Json.Layout.Blank (.lines "\t ") := .lines (by simp [Json.isSpace])
  have hblank' : Json.Layout.Blank (.spaces (-3)) := .spaces (-3)
  obtain ⟨text, hrender, hsame, _⟩ := parse_render hin hblank
  obtain ⟨text', hrender', _, hrefused⟩ := parse_render hin' hblank'
  obtain ⟨e, herror, he⟩ := hrefused hnameless
  exact ⟨hin, hnamed, hblank, ⟨text, hrender, hsame.2 hnamed⟩, hin', hnameless, hblank', text', e,
    hrender', herror, he⟩

end Program

end DefiniteAssignment
