import DefiniteAssignment.Program.Data

/-! The grammar of programs as data. A statement is described by an object with a kind
and a name, and with a condition or a body where the kind has one; a program by the list
of its statements, alone or as the body of an object. What is loaded from a value is what
the value describes, and a value that describes nothing is refused. -/
namespace DefiniteAssignment

theorem bind_eq_ok_iff {ε α β : Type} {x : Except ε α} {f : α → Except ε β} {b : β} :
    x >>= f = .ok b ↔ ∃ a, x = .ok a ∧ f a = .ok b := by
  cases x <;> simp [bind, Except.bind]

theorem map_eq_ok_iff {ε α β : Type} {x : Except ε α} {f : α → β} {b : β} :
    f <$> x = .ok b ↔ ∃ a, x = .ok a ∧ f a = b := by
  cases x <;> simp [Functor.map, Except.map]

namespace Stmt

/-- The members of a statement of this kind and name. Others may stand among them. -/
structure Headed (members : List (String × Json)) (kind x : String) : Prop where
  kind : Json.find "type" members = some (.str kind)
  name : Json.find "name" members = some (.str x)
  named : x ≠ ""

/-- Whether a call is conditional; it is not if nothing is said. -/
inductive DescribesCondition (members : List (String × Json)) : Bool → Prop
  | absent : Json.find "conditional" members = none → DescribesCondition members false
  | present {c : Bool} : Json.find "conditional" members = some (.bool c) →
      DescribesCondition members c

mutual

inductive Describes : Json → Stmt → Prop
  | declare {members : List (String × Json)} {x : String} :
      Headed members "VariableDeclaration" x → Describes (.obj members) (.declare x)
  | assign {members : List (String × Json)} {x : String} :
      Headed members "AssignVariable" x → Describes (.obj members) (.assign x)
  | print {members : List (String × Json)} {x : String} :
      Headed members "PrintVariable" x → Describes (.obj members) (.print x)
  | function {members : List (String × Json)} {f : String} {body : List Stmt} :
      Headed members "FunctionDeclaration" f → DescribesBody members body →
      Describes (.obj members) (.function f body)
  | call {members : List (String × Json)} {f : String} {c : Bool} :
      Headed members "Invocation" f → DescribesCondition members c →
      Describes (.obj members) (.call f c)

/-- The members of an object describe a body; it is empty if there is none. -/
inductive DescribesBody : List (String × Json) → List Stmt → Prop
  | absent {members : List (String × Json)} : Json.find "body" members = none →
      DescribesBody members []
  | present {members : List (String × Json)} {items : List Json} {body : List Stmt} :
      Json.find "body" members = some (.arr items) → DescribesAll items body →
      DescribesBody members body

inductive DescribesAll : List Json → List Stmt → Prop
  | nil : DescribesAll [] []
  | cons {v : Json} {s : Stmt} {items : List Json} {body : List Stmt} :
      Describes v s → DescribesAll items body → DescribesAll (v :: items) (s :: body)

end

section

variable {members : List (String × Json)} {kind : Kind} {x : String} {c : Bool}

theorem Kind.ofText?_eq_some_iff {text : String} :
    Kind.ofText? text = some kind ↔ text = kind.text := by
  constructor
  · intro h
    have hfound := List.find?_some h
    simpa [eq_comm] using hfound
  · rintro rfl
    cases kind <;> decide

theorem loadKind_eq_ok_iff :
    loadKind members = .ok kind ↔ Json.find "type" members = some (.str kind.text) := by
  unfold loadKind
  cases hfound : Json.find "type" members with
  | none => simp
  | some found =>
    cases found with
    | str text =>
      rw [Option.some_inj, Json.str.injEq, ← Kind.ofText?_eq_some_iff]
      dsimp only [Option.getD_some]
      cases Kind.ofText? text <;> simp
    | _ => simp

theorem loadName_eq_ok_iff :
    loadName kind members = .ok x ↔ Json.find "name" members = some (.str x) ∧ x ≠ "" := by
  unfold loadName
  cases hfound : Json.find "name" members with
  | none => simp
  | some found =>
    cases found with
    | str name =>
      by_cases hname : name = ""
      · simp only [Option.getD_some, hname, if_true]
        grind
      · simp only [Option.getD_some, hname, if_false]
        grind
    | _ => simp

theorem loadConditional_eq_ok_iff :
    loadConditional members = .ok c ↔ DescribesCondition members c := by
  unfold loadConditional
  constructor
  · intro h
    cases hfound : Json.find "conditional" members with
    | none =>
      rw [hfound] at h
      obtain rfl : false = c := Except.ok.inj h
      exact .absent hfound
    | some found =>
      rw [hfound] at h
      cases found with
      | bool b =>
        obtain rfl : b = c := Except.ok.inj h
        exact .present hfound
      | _ => cases h
  · rintro (hfound | hfound)
    · rw [hfound]
      rfl
    · rw [hfound]
      rfl

theorem headed_iff : Headed members kind.text x ↔
    loadKind members = .ok kind ∧ loadName kind members = .ok x := by
  rw [loadKind_eq_ok_iff, loadName_eq_ok_iff]
  exact ⟨fun h => ⟨h.kind, h.name, h.named⟩, fun h => ⟨h.1, h.2.1, h.2.2⟩⟩

end

mutual

theorem ofJson_eq_ok_iff {s : Stmt} : (v : Json) → (ofJson v = .ok s ↔ Describes v s)
  | .obj members => by
    have hbody := fun b => bodyMember_eq_ok_iff (b := b) members
    rw [ofJson]
    constructor
    · intro h
      obtain ⟨kind, hkind, h⟩ := bind_eq_ok_iff.1 h
      obtain ⟨x, hname, h⟩ := bind_eq_ok_iff.1 h
      have hheaded := headed_iff.2 ⟨hkind, hname⟩
      cases kind with
      | declare =>
        cases h
        exact .declare hheaded
      | assign =>
        cases h
        exact .assign hheaded
      | print =>
        cases h
        exact .print hheaded
      | function =>
        obtain ⟨b, hb, h⟩ := bind_eq_ok_iff.1 h
        cases h
        exact .function hheaded ((hbody b).1 hb)
      | call =>
        obtain ⟨c, hc, h⟩ := bind_eq_ok_iff.1 h
        cases h
        exact .call hheaded (loadConditional_eq_ok_iff.1 hc)
    · -- Each kind is read from the members that start a statement of this kind.
      have hread : ∀ (kind : Kind) {x : String}, Headed members kind.text x →
          ∀ f : Kind → String → Except LoadError Stmt,
            (do let k ← loadKind members; let y ← loadName k members; f k y) = f kind x := by
        intro kind x hheaded f
        obtain ⟨hkind, hname⟩ := headed_iff.1 hheaded
        rw [hkind]
        simp only [bind, Except.bind, hname]
      rintro (hheaded | hheaded | hheaded | ⟨hheaded, hb⟩ | ⟨hheaded, hc⟩)
      · exact hread .declare hheaded _
      · exact hread .assign hheaded _
      · exact hread .print hheaded _
      · refine (hread .function hheaded _).trans ?_
        rw [(hbody _).2 hb]
        rfl
      · refine (hread .call hheaded _).trans ?_
        rw [loadConditional_eq_ok_iff.2 hc]
        rfl
  | .null | .bool _ | .int _ | .real _ | .str _ | .arr _ => by
    simp only [ofJson, reduceCtorEq, false_iff]
    rintro ⟨⟩

theorem bodyMember_eq_ok_iff {b : List Stmt} :
    (members : List (String × Json)) → (bodyMember members = .ok b ↔ DescribesBody members b)
  | [] => by
    rw [bodyMember]
    constructor
    · rintro ⟨⟩
      exact .absent rfl
    · rintro (_ | ⟨hfound, _⟩)
      · rfl
      · cases hfound
  | (key, v) :: rest => by
    rw [bodyMember]
    by_cases hkey : key = "body"
    · rw [if_pos hkey, body_eq_ok_iff v]
      have hfound : Json.find "body" ((key, v) :: rest) = some v := if_pos hkey
      constructor
      · rintro ⟨items, rfl, hitems⟩
        exact .present hfound hitems
      · rintro (habsent | ⟨hpresent, hitems⟩)
        · simp [hfound] at habsent
        · obtain rfl : v = _ := Option.some.inj (hfound.symm.trans hpresent)
          exact ⟨_, rfl, hitems⟩
    · rw [if_neg hkey, bodyMember_eq_ok_iff rest]
      have hfound : Json.find "body" ((key, v) :: rest) = Json.find "body" rest := if_neg hkey
      constructor
      · rintro (habsent | ⟨hpresent, hitems⟩)
        · exact .absent (hfound.trans habsent)
        · exact .present (hfound.trans hpresent) hitems
      · rintro (habsent | ⟨hpresent, hitems⟩)
        · exact .absent (hfound.symm.trans habsent)
        · exact .present (hfound.symm.trans hpresent) hitems

theorem body_eq_ok_iff {b : List Stmt} :
    (v : Json) → (body v = .ok b ↔ ∃ items, v = .arr items ∧ DescribesAll items b)
  | .arr items => by
    rw [body, listOfJson_eq_ok_iff items]
    simp
  | .null | .bool _ | .int _ | .real _ | .str _ | .obj _ => by simp [body]

theorem listOfJson_eq_ok_iff {b : List Stmt} :
    (items : List Json) → (listOfJson items = .ok b ↔ DescribesAll items b)
  | [] => by
    rw [listOfJson]
    constructor
    · rintro ⟨⟩
      exact .nil
    · rintro ⟨⟩
      rfl
  | v :: rest => by
    rw [listOfJson]
    constructor
    · intro h
      obtain ⟨s, hs, h⟩ := bind_eq_ok_iff.1 h
      obtain ⟨l, hl, h⟩ := bind_eq_ok_iff.1 h
      cases h
      exact .cons ((ofJson_eq_ok_iff v).1 hs) ((listOfJson_eq_ok_iff rest).1 hl)
    · rintro (_ | ⟨hs, hl⟩)
      rw [(ofJson_eq_ok_iff v).2 hs, (listOfJson_eq_ok_iff rest).2 hl]
      rfl

end

end Stmt

inductive Program.Describes : Json → Program → Prop
  | list {items : List Json} {body : List Stmt} : Stmt.DescribesAll items body →
      Describes (.arr items) ⟨body⟩
  | object {members : List (String × Json)} {body : List Stmt} :
      Json.find "type" members = some (.str "Program") → Stmt.DescribesBody members body →
      Describes (.obj members) ⟨body⟩

/-- The loader accepts its grammar and nothing else: a program is loaded from a value if
and only if the value describes that program. -/
theorem Program.ofJson_eq_ok_iff_describes (v : Json) (p : Program) :
    Program.ofJson v = .ok p ↔ Program.Describes v p := by
  cases v with
  | arr items =>
    rw [Program.ofJson, map_eq_ok_iff]
    constructor
    · rintro ⟨body, hbody, rfl⟩
      exact .list ((Stmt.listOfJson_eq_ok_iff items).1 hbody)
    · rintro (hitems | _)
      exact ⟨_, (Stmt.listOfJson_eq_ok_iff items).2 hitems, rfl⟩
  | obj members =>
    rw [Program.ofJson]
    constructor
    · intro h
      split at h
      · rename_i hkind
        obtain ⟨body, hbody, rfl⟩ := map_eq_ok_iff.1 h
        refine .object ?_ ((Stmt.bodyMember_eq_ok_iff members).1 hbody)
        cases hfound : Json.find "type" members with
        | none => simp [hfound] at hkind
        | some found =>
          rw [hfound] at hkind
          exact congrArg some hkind
      · cases h
    · rintro (_ | ⟨hkind, hbody⟩)
      rw [hkind]
      exact map_eq_ok_iff.2 ⟨_, (Stmt.bodyMember_eq_ok_iff members).2 hbody, rfl⟩
  | null | bool _ | int _ | real _ | str _ =>
    simp only [Program.ofJson, reduceCtorEq, false_iff]
    rintro ⟨⟩

end DefiniteAssignment
