import DefiniteAssignment.Proofs.Grounds
import DefiniteAssignment.Proofs.RoundTrip
import DefiniteAssignment.Proofs.Search

/-! Where diagnostics are shown in the written form of a program. The names of a program
are written in the order of its statements, each before the names in its body. Every
reported symbol is such a name, and it is shown where it is written first. -/
namespace DefiniteAssignment

namespace Json

def listChars (l : Layout) (level : Nat) : List Json → List Char
  | [] => []
  | v :: rest => chars l level v ++ itemChars l level rest

theorem itemChars_eq (l : Layout) (level : Nat) {items : List Json} (h : items ≠ []) :
    itemChars l level items = l.separator level ++ listChars l level items := by
  cases items with
  | nil => exact absurd rfl h
  | cons v rest => rw [itemChars, listChars, List.append_assoc]

theorem chars_arr (l : Layout) (level : Nat) {items : List Json} (h : items ≠ []) :
    chars l level (.arr items) = '[' :: l.lineBreak (level + 1) ++
      (listChars l (level + 1) items ++ (l.lineBreak level ++ [']'])) := by
  cases items with
  | nil => exact absurd rfl h
  | cons v rest => simp only [chars, listChars, List.append_assoc, List.cons_append]

def opening (l : Layout) (level : Nat) (kind : String) : List Char :=
  '\x7b' :: l.lineBreak (level + 1) ++
    (Editor.key "type" ++ (stringChars kind ++ l.separator (level + 1)))

theorem chars_obj (l : Layout) (level : Nat) (kind k : String) (v : Json)
    (members : List (String × Json)) :
    chars l level (.obj (("type", .str kind) :: (k, v) :: members)) =
      opening l level kind ++ (Editor.key k ++ (chars l (level + 1) v ++
        (memberChars l (level + 1) members ++ (l.lineBreak level ++ ['\x7d'])))) := by
  simp only [chars, memberChars, opening, Editor.key, List.append_assoc, List.cons_append]

theorem stops_separator (l : Layout) (level : Nat) (back : List Char) :
    Editor.Stops (l.separator level ++ back) := by
  cases l <;> exact ⟨_, _, rfl, .inl rfl⟩

theorem stops_end (l : Layout) (level : Nat) (members : List (String × Json)) (back : List Char) :
    Editor.Stops (memberChars l (level + 1) members ++ (l.lineBreak level ++ ['\x7d']) ++ back) := by
  cases members with
  | nil =>
    cases l with
    | inline => exact ⟨_, _, rfl, .inr (.inl rfl)⟩
    | lines unit => exact ⟨_, _, rfl, .inr (.inr rfl)⟩
  | cons member rest =>
    simp only [memberChars, List.append_assoc]
    exact stops_separator l _ _

section

variable {l : Layout} (hl : l.Blank)
include hl

theorem quote_not_mem_lineBreak (level : Nat) : '"' ∉ l.lineBreak level := by
  have hlines : ∀ unit : String, (∀ c ∈ unit.toList, isSpace c) →
      '"' ∉ (Layout.lines unit).lineBreak level := by
    intro unit hunit hmem
    rcases List.mem_cons.1 hmem with hnewline | hmem
    · cases hnewline
    · obtain ⟨cs, hcs, hmem⟩ := List.mem_flatten.1 hmem
      rw [List.eq_of_mem_replicate hcs] at hmem
      exact absurd (hunit _ hmem) (by decide)
  cases hl with
  | inline => simp [Layout.lineBreak]
  | spaces n =>
    refine hlines _ fun c hc => ?_
    rw [String.toList_ofList] at hc
    rw [List.eq_of_mem_replicate hc]
    rfl
  | lines hunit => exact hlines _ hunit

theorem quote_not_mem_separator (level : Nat) : '"' ∉ l.separator level := by
  have hbreak := quote_not_mem_lineBreak hl level
  cases l with
  | inline => simp [Layout.separator]
  | lines unit => simp [Layout.separator, hbreak]

variable {quoted : List Char}

theorem clear_opening (level : Nat) (kind : String) (back : List Char) :
    Editor.Clear quoted (opening l level kind) back := by
  have hstops : Editor.Stops (l.separator (level + 1) ++ back) := stops_separator _ _ _
  refine .append (.plain ?_ _) ((Editor.Clear.key (.inl rfl) _ _).append
    ((Editor.Clear.value kind hstops).append (.plain (quote_not_mem_separator hl _) _)))
  simp [quote_not_mem_lineBreak hl]

theorem clear_end (level : Nat) (back : List Char) :
    Editor.Clear quoted (l.lineBreak level ++ ['\x7d']) back :=
  .plain (by simp [quote_not_mem_lineBreak hl]) back

theorem clear_arr (level : Nat) {items : List Json}
    (h : ∀ back, Editor.Clear quoted (listChars l (level + 1) items) back) (back : List Char) :
    Editor.Clear quoted (chars l level (.arr items)) back := by
  by_cases hne : items = []
  · subst hne
    exact .plain (by simp [chars]) back
  · rw [chars_arr l level hne]
    refine .append (.plain ?_ _) ((h _).append (.plain ?_ _))
    · simp [quote_not_mem_lineBreak hl]
    · simp [quote_not_mem_lineBreak hl]

theorem clear_written {x f : String} (hne : x ≠ f) (level : Nat) (kind : String)
    {members : List (String × Json)}
    (h : ∀ back, Editor.Clear (stringChars x) (memberChars l (level + 1) members) back)
    (back : List Char) : Editor.Clear (stringChars x)
      (chars l level (.obj (("type", .str kind) :: ("name", .str f) :: members))) back := by
  have hlist : chars l level (.obj (("type", .str kind) :: ("name", .str f) :: members)) =
      opening l level kind ++ ((Editor.key "name" ++ stringChars f) ++
        (memberChars l (level + 1) members ++ (l.lineBreak level ++ ['\x7d']))) := by
    rw [chars_obj, chars, List.append_assoc (Editor.key "name")]
  rw [hlist]
  refine (clear_opening hl level kind _).append ((Editor.Clear.entry hne ?_).append
    ((h _).append (clear_end hl level back)))
  exact stops_end l level members back

theorem clear_body (level : Nat) {items : List Json}
    (h : ∀ back, Editor.Clear quoted (listChars l (level + 1) items) back) (back : List Char) :
    Editor.Clear quoted (memberChars l level [("body", .arr items)]) back := by
  have hlist : memberChars l level [("body", .arr items)] =
      l.separator level ++ (Editor.key "body" ++ chars l level (.arr items)) := by
    simp [memberChars, Editor.key]
  rw [hlist]
  exact (Editor.Clear.plain (quote_not_mem_separator hl level) _).append
    ((Editor.Clear.key (.inr (.inl rfl)) _ _).append (clear_arr hl level h back))

theorem clear_conditional (level : Nat) (c : Bool) (back : List Char) :
    Editor.Clear quoted (memberChars l level [("conditional", .bool c)]) back := by
  have hlist : memberChars l level [("conditional", .bool c)] =
      l.separator level ++ (Editor.key "conditional" ++ chars l level (.bool c)) := by
    simp [memberChars, Editor.key]
  rw [hlist]
  refine (Editor.Clear.plain (quote_not_mem_separator hl level) _).append
    ((Editor.Clear.key (.inr (.inr rfl)) _ _).append (.plain ?_ _))
  cases c <;> simp [chars]

theorem clear_cons {v : Json} {items : List Json} (level : Nat)
    (hv : ∀ back, Editor.Clear quoted (chars l level v) back)
    (hitems : ∀ back, Editor.Clear quoted (listChars l level items) back) (back : List Char) :
    Editor.Clear quoted (listChars l level (v :: items)) back := by
  refine (hv _).append ?_
  by_cases hne : items = []
  · subst hne
    trivial
  · rw [itemChars_eq l level hne]
    exact (Editor.Clear.plain (quote_not_mem_separator hl level) _).append (hitems back)

/-! The same pieces with a name left open in them. -/

variable {x : String} {items : String → List Json}

theorem spot_arr (level : Nat) (hne : ∀ y, items y ≠ [])
    (h : Editor.Spot x fun y => listChars l (level + 1) (items y)) :
    Editor.Spot x fun y => chars l level (.arr (items y)) := by
  have hlist : (fun y => chars l level (.arr (items y))) = fun y =>
      '[' :: l.lineBreak (level + 1) ++
        (listChars l (level + 1) (items y) ++ (l.lineBreak level ++ [']'])) := by
    funext y
    exact chars_arr l level (hne y)
  rw [hlist]
  refine (h.append _).prepend fun back => .plain ?_ back
  simp [quote_not_mem_lineBreak hl]

theorem spot_cons {v : Json} (level : Nat) (hne : ∀ y, items y ≠ [])
    (hv : ∀ back, Editor.Clear (stringChars x) (chars l level v) back)
    (h : Editor.Spot x fun y => listChars l level (items y)) :
    Editor.Spot x fun y => listChars l level (v :: items y) := by
  have hlist : (fun y => listChars l level (v :: items y)) = fun y =>
      chars l level v ++ (l.separator level ++ listChars l level (items y)) := by
    funext y
    rw [listChars, itemChars_eq l level (hne y)]
  rw [hlist]
  exact (h.prepend fun back => .plain (quote_not_mem_separator hl level) back).prepend hv

theorem spot_written (x : String) (level : Nat) (kind : String) (members : List (String × Json)) :
    Editor.Spot x fun y =>
      chars l level (.obj (("type", .str kind) :: ("name", .str y) :: members)) := by
  have hlist : (fun y => chars l level
      (.obj (("type", .str kind) :: ("name", .str y) :: members))) = fun y =>
        opening l level kind ++ (Editor.key "name" ++ (stringChars y ++
          (memberChars l (level + 1) members ++ (l.lineBreak level ++ ['\x7d'])))) := by
    funext y
    rw [chars_obj, chars]
  rw [hlist]
  exact (Editor.Spot.entry x _).prepend (clear_opening hl level kind)

theorem spot_body {f : String} (hf : x ≠ f) (level : Nat) (kind : String)
    (hne : ∀ y, items y ≠ [])
    (h : ∀ level, Editor.Spot x fun y => listChars l level (items y)) :
    Editor.Spot x fun y => chars l level
      (.obj [("type", .str kind), ("name", .str f), ("body", .arr (items y))]) := by
  have hlist : (fun y => chars l level
      (.obj [("type", .str kind), ("name", .str f), ("body", .arr (items y))])) = fun y =>
        opening l level kind ++ (((Editor.key "name" ++ stringChars f) ++
          l.separator (level + 1)) ++ (Editor.key "body" ++
            (chars l (level + 1) (.arr (items y)) ++ (l.lineBreak level ++ ['\x7d'])))) := by
    funext y
    rw [chars_obj, chars]
    simp only [memberChars, Editor.key, List.append_assoc, List.nil_append]
  rw [hlist]
  have hbody := spot_arr hl (level + 1) hne (h _)
  refine (((hbody.append _).prepend (Editor.Clear.key (.inr (.inl rfl)) _)).prepend ?_).prepend
    (clear_opening hl level kind)
  intro back
  exact (Editor.Clear.entry hf (stops_separator l _ back)).append
    (.plain (quote_not_mem_separator hl _) back)

end

end Json

namespace Stmt

mutual

def names : Stmt → List String
  | declare x | assign x | print x | call x _ => [x]
  | function f body => f :: allNames body
  | bare => []
  | block body => allNames body

def allNames : List Stmt → List String
  | [] => []
  | s :: rest => names s ++ allNames rest

end

mutual

/-- The statement with `y` in place of the name at place `k`. -/
def withName (y : String) : Stmt → Nat → Stmt
  | declare _, 0 => declare y
  | assign _, 0 => assign y
  | print _, 0 => print y
  | call _ c, 0 => call y c
  | function _ body, 0 => function y body
  | function f body, k + 1 => function f (allWithName y body k)
  | block body, k => block (allWithName y body k)
  | declare x, _ + 1 => declare x
  | assign x, _ + 1 => assign x
  | print x, _ + 1 => print x
  | call x c, _ + 1 => call x c
  | bare, _ => bare

def allWithName (y : String) : List Stmt → Nat → List Stmt
  | [], _ => []
  | s :: rest, k =>
    if k < s.names.length then s.withName y k :: rest
    else s :: allWithName y rest (k - s.names.length)

end

theorem names_subset_allNames {s : Stmt} {body : List Stmt} (h : s ∈ body) :
    s.names ⊆ allNames body := by
  induction body with
  | nil => simp at h
  | cons t rest ih =>
    rw [allNames]
    rcases List.mem_cons.1 h with rfl | h
    · exact List.subset_append_left _ _
    · exact List.Subset.trans (ih h) (List.subset_append_right _ _)

section

variable {x : String}

theorem allWithName_of_mem (y : String) {s : Stmt} (h : x ∈ s.names) (rest : List Stmt) :
    allWithName y (s :: rest) ((allNames (s :: rest)).idxOf x) =
      s.withName y (s.names.idxOf x) :: rest := by
  rw [allNames, List.idxOf_append, if_pos h, allWithName, if_pos (List.idxOf_lt_length_iff.2 h)]

theorem allWithName_of_not_mem (y : String) {s : Stmt} (h : x ∉ s.names) (rest : List Stmt) :
    allWithName y (s :: rest) ((allNames (s :: rest)).idxOf x) =
      s :: allWithName y rest ((allNames rest).idxOf x) := by
  rw [allNames, List.idxOf_append, if_neg h, allWithName, if_neg (by omega), Nat.add_sub_cancel]

mutual

theorem withName_self : (s : Stmt) → x ∈ s.names → s.withName x (s.names.idxOf x) = s
  | .declare y, h | .assign y, h | .print y, h | .call y c, h => by
    rw [names, List.mem_singleton] at h
    rw [names, h, List.idxOf_cons_self, withName]
  | .function f body, h => by
    by_cases hf : f = x
    · rw [names, hf, List.idxOf_cons_self, withName]
    · have hbody : x ∈ allNames body := by simpa [names, Ne.symm hf] using h
      rw [names, List.idxOf_cons_ne _ hf, withName, allWithName_self body hbody]
  | .block body, h => by
    have hbody : x ∈ allNames body := h
    rw [names, withName, allWithName_self body hbody]

theorem allWithName_self : (body : List Stmt) → x ∈ allNames body →
    allWithName x body ((allNames body).idxOf x) = body
  | s :: rest, h => by
    by_cases hs : x ∈ s.names
    · rw [allWithName_of_mem x hs, withName_self s hs]
    · have hrest : x ∈ allNames rest := by simpa [allNames, hs] using h
      rw [allWithName_of_not_mem x hs, allWithName_self rest hrest]

end

variable {l : Json.Layout} (hl : l.Blank)
include hl

mutual

theorem clear_toJson : (s : Stmt) → s.inLanguage → x ∉ s.names →
    ∃ v, s.toJson = .ok v ∧
      ∀ level back, Editor.Clear (Json.stringChars x) (Json.chars l level v) back
  | .declare y, _, h | .assign y, _, h | .print y, _, h => by
    rw [names, List.mem_singleton] at h
    exact ⟨_, rfl, fun level => Json.clear_written hl h level _ fun _ => trivial⟩
  | .call y c, _, h => by
    rw [names, List.mem_singleton] at h
    exact ⟨_, rfl, fun level =>
      Json.clear_written hl h level _ (Json.clear_conditional hl (level + 1) c)⟩
  | .function f body, hin, h => by
    rw [names, List.mem_cons, not_or] at h
    obtain ⟨items, hitems, hclear⟩ := clear_listToJson body hin h.2
    refine ⟨_, by rw [toJson, hitems]; rfl, fun level => ?_⟩
    exact Json.clear_written hl h.1 level _ (Json.clear_body hl (level + 1) (hclear _))
  | .bare, hin, _ | .block _, hin, _ => by simp [inLanguage] at hin

theorem clear_listToJson : (body : List Stmt) → allInLanguage body → x ∉ allNames body →
    ∃ items, listToJson body = .ok items ∧
      ∀ level back, Editor.Clear (Json.stringChars x) (Json.listChars l level items) back
  | [], _, _ => ⟨[], rfl, fun _ _ => trivial⟩
  | s :: rest, hin, h => by
    simp only [allInLanguage, Bool.and_eq_true] at hin
    rw [allNames, List.mem_append, not_or] at h
    obtain ⟨v, hv, hclear⟩ := clear_toJson s hin.1 h.1
    obtain ⟨items, hitems, hclears⟩ := clear_listToJson rest hin.2 h.2
    refine ⟨v :: items, by rw [listToJson, hv, hitems]; rfl, fun level => ?_⟩
    exact Json.clear_cons hl level (hclear level) (hclears level)

end

theorem spot_own {s : Stmt} (hs : s.names.idxOf x = 0) (kind : String)
    (members : List (String × Json)) (h : ∀ y, (s.withName y 0).toJson =
      .ok (.obj (("type", .str kind) :: ("name", .str y) :: members))) :
    ∃ v : String → Json, (∀ y, (s.withName y (s.names.idxOf x)).toJson = .ok (v y)) ∧
      ∀ level, Editor.Spot x fun y => Json.chars l level (v y) := by
  rw [hs]
  exact ⟨_, h, fun level => Json.spot_written hl x level kind members⟩

mutual

theorem spot_toJson : (s : Stmt) → s.inLanguage → x ∈ s.names →
    ∃ v : String → Json, (∀ y, (s.withName y (s.names.idxOf x)).toJson = .ok (v y)) ∧
      ∀ level, Editor.Spot x fun y => Json.chars l level (v y)
  | .declare y, _, h | .assign y, _, h | .print y, _, h | .call y c, _, h => by
    rw [names, List.mem_singleton] at h
    refine spot_own hl ?_ _ _ fun _ => rfl
    rw [names, h, List.idxOf_cons_self]
  | .function f body, hin, h => by
    have hbody : allInLanguage body := hin
    by_cases hf : f = x
    · obtain ⟨items, hitems, _⟩ := exists_listToJson body hbody
      refine spot_own hl ?_ "FunctionDeclaration" [("body", .arr items)] fun y => ?_
      · rw [names, hf, List.idxOf_cons_self]
      · rw [withName, toJson, hitems]
        rfl
    · have hx : x ∈ allNames body := by simpa [names, Ne.symm hf] using h
      obtain ⟨items, hitems, hne, hspot⟩ := spot_listToJson body hbody hx
      refine ⟨_, fun y => ?_, fun level => Json.spot_body hl (Ne.symm hf) level
        "FunctionDeclaration" hne hspot⟩
      rw [names, List.idxOf_cons_ne _ hf, withName, toJson, hitems]
      rfl
  | .bare, hin, _ | .block _, hin, _ => by simp [inLanguage] at hin

theorem spot_listToJson : (body : List Stmt) → allInLanguage body → x ∈ allNames body →
    ∃ items : String → List Json,
      (∀ y, listToJson (allWithName y body ((allNames body).idxOf x)) = .ok (items y)) ∧
        (∀ y, items y ≠ []) ∧ ∀ level, Editor.Spot x fun y => Json.listChars l level (items y)
  | s :: rest, hin, h => by
    simp only [allInLanguage, Bool.and_eq_true] at hin
    by_cases hs : x ∈ s.names
    · obtain ⟨v, hv, hspot⟩ := spot_toJson s hin.1 hs
      obtain ⟨items, hitems, _⟩ := exists_listToJson rest hin.2
      refine ⟨fun y => v y :: items, fun y => ?_, by simp, fun level => (hspot level).append _⟩
      rw [allWithName_of_mem y hs, listToJson, hv, hitems]
      rfl
    · have hx : x ∈ allNames rest := by simpa [allNames, hs] using h
      obtain ⟨v, hv, hclear⟩ := clear_toJson hl s hin.1 hs
      obtain ⟨items, hitems, hne, hspot⟩ := spot_listToJson rest hin.2 hx
      refine ⟨fun y => v :: items y, fun y => ?_, by simp, fun level => ?_⟩
      · rw [allWithName_of_not_mem y hs, listToJson, hv, hitems]
        rfl
      · exact Json.spot_cons hl level hne (hclear level) (hspot level)

end

end

end Stmt

namespace Program

def names (p : Program) : List String := Stmt.allNames p.body

def withName (p : Program) (y : String) (k : Nat) : Program := ⟨Stmt.allWithName y p.body k⟩

theorem withName_self {p : Program} {x : String} (h : x ∈ p.names) :
    p.withName x (p.names.idxOf x) = p := by
  rw [withName, names, Stmt.allWithName_self p.body h]

theorem spot_render {l : Json.Layout} (hl : l.Blank) {p : Program} (hin : p.InLanguage) {x : String}
    (hx : x ∈ p.names) : ∃ text : String → List Char,
      (∀ y, (p.withName y (p.names.idxOf x)).render l = .ok (String.ofList (text y))) ∧
        Editor.Spot x text := by
  obtain ⟨items, hitems, hne, hspot⟩ := Stmt.spot_listToJson hl p.body hin hx
  refine ⟨fun y => Json.chars l 0 (.obj [("type", .str "Program"), ("body", .arr (items y))]),
    fun y => ?_, ?_⟩
  · have hjson : (p.withName y (p.names.idxOf x)).toJson =
        .ok (.obj [("type", .str "Program"), ("body", .arr (items y))]) := by
      rw [toJson, withName, names, hitems]
      rfl
    rw [render, hjson]
    rfl
  · have hlist : (fun y => Json.chars l 0
        (.obj [("type", .str "Program"), ("body", .arr (items y))])) = fun y =>
          Json.opening l 0 "Program" ++ (Editor.key "body" ++
            (Json.chars l 1 (.arr (items y)) ++ (l.lineBreak 0 ++ ['\x7d']))) := by
      funext y
      rw [Json.chars_obj]
      rfl
    rw [hlist]
    exact (((Json.spot_arr hl 1 hne (hspot 2)).append _).prepend
      (Editor.Clear.key (.inr (.inl rfl)) _)).prepend (Json.clear_opening hl 0 "Program")

theorem allNames_checked (p : Program) (i : Nat) :
    Stmt.allNames (p.checked.scope i).body ⊆ p.names := by
  have hinner : ∀ body f inner, Stmt.allNames body ⊆ p.names →
      .function f inner ∈ body → Stmt.allNames inner ⊆ p.names := by
    intro body f inner hbody hmem x hx
    refine hbody (Stmt.names_subset_allNames hmem ?_)
    rw [Stmt.names]
    exact List.mem_cons_of_mem f hx
  have hnil : Stmt.allNames [] ⊆ p.names := List.nil_subset _
  have hopening : ∀ j, Stmt.allNames (p.opening.analysis.scope j).body ⊆ p.names := by
    intro j
    refine (Analysis.Enters.enter _ (Analysis.root_lt_size {} p.body)).forall_body
      (P := fun body => Stmt.allNames body ⊆ p.names) hnil hinner (fun k => ?_) j
    rw [Analysis.scope_addRoot]
    split
    · exact List.Subset.refl _
    · rw [Analysis.scope_empty]
      exact hnil
  obtain ⟨n, _, hend⟩ := p.opening.exists_run_eq
  obtain ⟨problems, hchecked, _⟩ := checked_eq hend
  rw [hchecked]
  exact p.valid_opening.forall_body_after (P := fun body => Stmt.allNames body ⊆ p.names)
    hnil hinner hopening n i

theorem symbol_mem_names {p : Program} (hin : p.InLanguage) {problem : Problem}
    (h : problem ∈ p.checked.problems.toList) : problem.symbol ∈ p.names := by
  obtain ⟨n, hend, hok⟩ := hin.exists_end
  have hgrounds := p.grounds_after n
  have hnested := (p.valid_opening.after n).nested
  have hnamed : ∀ {i s x}, s ∈ (p.checked.scope i).body → x ∈ s.names → x ∈ p.names :=
    fun hs hx => p.allNames_checked _ (Stmt.names_subset_allNames hs hx)
  have hcomes : ∀ {i x}, p.checked.ComesTo i (.assign x) ∨ p.checked.ComesTo i (.print x) →
      x ∈ p.names := by
    rintro i x (⟨k, _, _, hs⟩ | ⟨k, _, _, hs⟩)
    · exact hnamed hs (by simp [Stmt.names])
    · exact hnamed hs (by simp [Stmt.names])
  have hjustified : p.checked.Justified problem → problem.symbol ∈ p.names := by
    intro hjustified
    cases hjustified with
    | unknownFunction _ hs _ => exact hnamed hs (by simp [Stmt.names])
    | assignToFunction _ hs _ => exact hnamed hs (by simp [Stmt.names])
    | alreadyDeclared _ _ _ hat _ =>
      obtain ⟨s, hs, hdeclares⟩ := hat
      refine hnamed (List.mem_of_getElem? hs) ?_
      cases s <;> simp_all [Stmt.declares, Stmt.names]
    | usedBeforeDeclared _ hs _ => exact hnamed hs (by simp [Stmt.names])
    | notAssigned _ hs _ => exact hnamed hs (by simp [Stmt.names])
    | notDeclared huse => exact hcomes huse
  rw [checked, check_eq_sweep hend hok] at h
  rcases Analysis.problems_sweep_cases _ _ h with hold | ⟨x, c, hx, hc, rfl⟩
  · exact hjustified (hgrounds.problems problem hold)
  · have hget := Table.get?_of_mem (hnested.nodup 0) hx
    exact hcomes ((hgrounds.contracts 0 x c hget).uses hc)

/-- Every reported symbol is shown where it is written. The text of a program, in any
layout, has for every reported symbol a statement with that name, and the diagnostic is
shown at the name of the first: whatever name is put there, its literal is what changes in
the text, and the literal of the symbol is what the range covers. -/
theorem symbolRange_of_mem_problems (p : Program) (hin : p.InLanguage) {l : Json.Layout}
    (hl : l = .inline ∨ ∃ n, l = .spaces n) {ps : List Problem} (hps : p.problems = .ok ps)
    {problem : Problem} (hmem : problem ∈ ps) :
    ∃ text before behind, p.render l = .ok text ∧ problem.symbol ∈ p.names ∧
      (∀ y, (p.withName y (p.names.idxOf problem.symbol)).render l =
        .ok (String.ofList (before ++ Json.stringChars y ++ behind))) ∧
      Editor.symbolRange problem.symbol text =
        .of (Editor.Position.behind {} before) (Json.stringChars problem.symbol) ∧
      Editor.symbolRange problem.symbol text ≠ {} ∧
      (Editor.symbolRange problem.symbol text).Covers text.toList
        (Json.stringChars problem.symbol) := by
  have hblank : l.Blank := by
    rcases hl with rfl | ⟨n, rfl⟩
    · exact .inline
    · exact .spaces n
  obtain ⟨n, hend, hok⟩ := hin.exists_end
  rw [problems_eq_ok hend hok] at hps
  obtain rfl := Except.ok.inj hps
  have hx := symbol_mem_names hin hmem
  obtain ⟨text, hrender, hspot⟩ := spot_render hblank hin hx
  obtain ⟨before, behind, htext, hrange⟩ := hspot.symbolRange_eq
  have hself := hrender problem.symbol
  rw [withName_self hx] at hself
  refine ⟨_, before, behind, hself, hx, fun y => by rw [hrender, htext], hrange, ?_, ?_⟩
  · rw [hrange]
    intro heq
    have hstop := congrArg (fun r => r.stop.character) heq
    simp [Editor.Range.of, Json.stringChars] at hstop
  · rw [hrange, String.toList_ofList, htext]
    exact Editor.Range.covers_of (Editor.newline_not_mem_stringChars _) behind

/-- A name that looks like the entry for `x` stands before the first entry for `x`. -/
def decoy : Program :=
  ⟨[.declare "\"name\": \"x\"", .function "name" [.print "x", .assign "x"], .call "name" true,
    .print "x"]⟩

theorem symbolRange_of_mem_problems_decoy :
    decoy.InLanguage ∧ decoy.problems = .ok [⟨.notDeclared, "x"⟩] ∧ decoy.names.idxOf "x" = 2 ∧
      ∃ text before behind, decoy.render (.spaces 3) = .ok text ∧
        (∀ y, (decoy.withName y 2).render (.spaces 3) =
          .ok (String.ofList (before ++ Json.stringChars y ++ behind))) ∧
        Editor.symbolRange "x" text = .of (Editor.Position.behind {} before) ['"', 'x', '"'] ∧
        (Editor.symbolRange "x" text).Covers text.toList ['"', 'x', '"'] := by
  have hin : decoy.InLanguage := rfl
  have hend : (decoy.opening.after 9).stack = [] := rfl
  have hok : (decoy.opening.after 9).failure = none := rfl
  have hps : decoy.problems = .ok [⟨.notDeclared, "x"⟩] := problems_eq_sweep hend hok
  obtain ⟨text, before, behind, htext, _, hplace, hrange, _, hcovers⟩ :=
    decoy.symbolRange_of_mem_problems hin (.inr ⟨3, rfl⟩) hps List.mem_cons_self
  exact ⟨hin, hps, by decide, text, before, behind, htext, hplace, hrange, hcovers⟩

end Program

end DefiniteAssignment
