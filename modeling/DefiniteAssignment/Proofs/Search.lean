import DefiniteAssignment.Editor.Diagnostic
import DefiniteAssignment.Proofs.Spelling
import Mathlib.Data.List.Chain
import Mathlib.Data.List.Induction

/-! The search for name entries. A text is searched line by line, and on a line from
every column; in one go it is searched from every position up to the end of its line. A
piece of text is clear of entries if none starts in it, whatever part of it the entry
would take, and so the search comes to what stands behind the piece. -/
namespace DefiniteAssignment.Editor

def Position.next (start : Position) (c : Char) : Position :=
  if c = '\n' then ⟨start.line + 1, 0⟩ else ⟨start.line, start.character + 1⟩

def Position.behind (start : Position) (cs : List Char) : Position := cs.foldl next start

theorem Position.behind_append (start : Position) (cs cs' : List Char) :
    start.behind (cs ++ cs') = (start.behind cs).behind cs' :=
  List.foldl_append

theorem Position.behind_of_line (start : Position) {cs : List Char} (h : '\n' ∉ cs) :
    start.behind cs = ⟨start.line, start.character + cs.length⟩ := by
  induction cs generalizing start with
  | nil => rfl
  | cons c cs ih =>
    rw [List.mem_cons, not_or] at h
    have hnext : start.next c = ⟨start.line, start.character + 1⟩ := if_neg (Ne.symm h.1)
    have hrest := ih (start.next c) h.2
    rw [hnext] at hrest
    rw [List.length_cons, Nat.add_comm cs.length 1, ← Nat.add_assoc, ← hrest, ← hnext]
    rfl

def Range.of (start : Position) (piece : List Char) : Range :=
  ⟨start, ⟨start.line, start.character + piece.length⟩⟩

/-- The range lies on one line of the text, and this is what stands there. -/
def Range.Covers (r : Range) (text piece : List Char) : Prop :=
  r.stop.line = r.start.line ∧ ∃ line, (Text.lines text)[r.start.line]? = some line ∧
    (line.drop r.start.character).take (r.stop.character - r.start.character) = piece

def lineOf (cs : List Char) : List Char := cs.takeWhile (· ≠ '\n')

def seek? (quoted : List Char) (start : Position) : List Char → Option Range
  | [] => none
  | c :: rest =>
    match entryOffset? quoted (lineOf (c :: rest)) with
    | some offset => some (.of ⟨start.line, start.character + offset⟩ quoted)
    | none => seek? quoted (start.next c) rest

/-- No entry for the quoted symbol starts in the text `front`, which `back` follows. -/
def Clear (quoted : List Char) : (front back : List Char) → Prop
  | [], _ => True
  | c :: front, back =>
    entryOffset? quoted (lineOf (c :: front ++ back)) = none ∧ Clear quoted front back

section

variable {quoted : List Char}

theorem lineOf_append {cs : List Char} (h : '\n' ∉ cs) (rest : List Char) :
    lineOf (cs ++ rest) = cs ++ lineOf rest := by
  refine List.takeWhile_append_of_pos fun c hc => ?_
  simpa using fun heq : c = '\n' => h (heq ▸ hc)

theorem lineOf_cons {c : Char} (h : c ≠ '\n') (rest : List Char) :
    lineOf (c :: rest) = c :: lineOf rest :=
  List.takeWhile_cons_of_pos (by simpa using h)

theorem exists_lines_eq (cs : List Char) : ∃ more, Text.lines cs = lineOf cs :: more := by
  induction cs with
  | nil => exact ⟨[], rfl⟩
  | cons c rest ih =>
    obtain ⟨more, hlines⟩ := ih
    simp only [Text.lines, hlines]
    by_cases hc : c = '\n'
    · exact ⟨lineOf rest :: more, by simp [hc, lineOf]⟩
    · exact ⟨more, by rw [if_neg hc, lineOf_cons hc]⟩

theorem lines_newline (rest : List Char) : Text.lines ('\n' :: rest) = [] :: Text.lines rest := by
  obtain ⟨more, hlines⟩ := exists_lines_eq rest
  simp [Text.lines, hlines]

theorem lines_cons {c : Char} (hc : c ≠ '\n') {rest line : List Char} {more : List (List Char)}
    (h : Text.lines rest = line :: more) : Text.lines (c :: rest) = (c :: line) :: more := by
  simp [Text.lines, h, hc]

theorem exists_drop_lines (before : List Char) : ∃ left : List Char,
    left.length = (Position.behind {} before).character ∧
      ∀ cs line more, Text.lines cs = line :: more →
        (Text.lines (before ++ cs)).drop (Position.behind {} before).line =
          (left ++ line) :: more := by
  induction before using List.reverseRecOn with
  | nil => exact ⟨[], rfl, fun cs line more h => h⟩
  | append_singleton before c ih =>
    obtain ⟨left, hlength, hdrop⟩ := ih
    have hbehind : Position.behind {} (before ++ [c]) = (Position.behind {} before).next c :=
      Position.behind_append _ before [c]
    rw [hbehind]
    by_cases hc : c = '\n'
    · subst hc
      refine ⟨[], rfl, fun cs line more h => ?_⟩
      have hlines := hdrop ('\n' :: cs) [] (line :: more) (by rw [lines_newline, h])
      rw [List.append_assoc, List.singleton_append]
      have hnext : (Position.behind {} before).next '\n' =
        ⟨(Position.behind {} before).line + 1, 0⟩ := rfl
      rw [hnext, ← List.drop_drop, hlines]
      rfl
    · have hnext : (Position.behind {} before).next c =
          ⟨(Position.behind {} before).line, (Position.behind {} before).character + 1⟩ := if_neg hc
      rw [hnext]
      refine ⟨left ++ [c], by simp [hlength], fun cs line more h => ?_⟩
      rw [List.append_assoc, List.singleton_append, hdrop (c :: cs) _ _ (lines_cons hc h)]
      simp

theorem Range.covers_of {before piece : List Char} (hpiece : '\n' ∉ piece) (back : List Char) :
    (Range.of (Position.behind {} before) piece).Covers (before ++ piece ++ back) piece := by
  obtain ⟨left, hlength, hdrop⟩ := exists_drop_lines before
  obtain ⟨more, hlines⟩ := exists_lines_eq (piece ++ back)
  rw [lineOf_append hpiece] at hlines
  have hline := hdrop _ _ _ hlines
  refine ⟨rfl, left ++ (piece ++ lineOf back), ?_, ?_⟩
  · have hhead := congrArg List.head? hline
    rw [List.head?_drop] at hhead
    rw [List.append_assoc]
    exact hhead
  · simp only [Range.of, ← hlength, Nat.add_sub_cancel_left, List.drop_left, List.take_left]

theorem entryOffset?_nil : entryOffset? quoted [] = none := rfl

theorem entryOffset?_of_ne {c : Char} (hc : c ≠ '"') (rest : List Char) :
    entryOffset? quoted (c :: rest) = none := by
  simp [entryOffset?, after?, Ne.symm hc]

theorem entryOffset?_of_head_ne {cs : List Char} (h : cs.head? ≠ some 'n') :
    entryOffset? quoted (lineOf ('"' :: cs)) = none := by
  rw [lineOf_cons (by decide)]
  cases cs with
  | nil => rfl
  | cons c cs =>
    by_cases hc : c = '\n'
    · simp [hc, lineOf, entryOffset?, after?]
    · have hn : 'n' ≠ c := by
        rintro rfl
        exact h rfl
      simp [lineOf_cons hc, entryOffset?, after?, hn]

/-- The search line by line, with the columns of the first line before `column` gone. -/
theorem seek?_eq (cs line : List Char) (more : List (List Char)) (number column : Nat)
    (h : Text.lines cs = line :: more) : seek? quoted ⟨number, column⟩ cs =
      match columnIn? quoted column line with
      | some found => some (.of ⟨number, found⟩ quoted)
      | none => findIn? quoted (number + 1) more := by
  induction cs generalizing line more number column with
  | nil =>
    obtain ⟨rfl, rfl⟩ : [] = line ∧ [] = more := by simpa [Text.lines] using h
    rfl
  | cons c rest ih =>
    obtain ⟨more', hlines⟩ := exists_lines_eq rest
    by_cases hc : c = '\n'
    · subst hc
      rw [lines_newline, hlines] at h
      obtain ⟨rfl, rfl⟩ := List.cons.inj h
      have hstart : lineOf ('\n' :: rest) = [] := by simp [lineOf]
      rw [seek?, hstart, entryOffset?_nil]
      exact ih (lineOf rest) more' (number + 1) 0 hlines
    · rw [lines_cons hc hlines] at h
      obtain ⟨rfl, rfl⟩ := List.cons.inj h
      rw [seek?, lineOf_cons hc, columnIn?]
      cases entryOffset? quoted (c :: lineOf rest) with
      | some offset => rfl
      | none =>
        have hnext : Position.next ⟨number, column⟩ c = ⟨number, column + 1⟩ := if_neg hc
        rw [hnext]
        exact ih (lineOf rest) more' number (column + 1) hlines

theorem findIn?_lines (cs : List Char) : findIn? quoted 0 (Text.lines cs) = seek? quoted {} cs := by
  obtain ⟨more, hlines⟩ := exists_lines_eq cs
  rw [hlines, findIn?]
  exact (seek?_eq cs _ more 0 0 hlines).symm

theorem seek?_append {front back : List Char} (h : Clear quoted front back) (start : Position) :
    seek? quoted start (front ++ back) = seek? quoted (start.behind front) back := by
  induction front generalizing start with
  | nil => rfl
  | cons c front ih =>
    obtain ⟨hnone, hfront⟩ := h
    rw [List.cons_append, seek?]
    rw [List.cons_append] at hnone
    rw [hnone]
    exact ih hfront (start.next c)

theorem Clear.append {front front' back : List Char} (h : Clear quoted front (front' ++ back))
    (h' : Clear quoted front' back) : Clear quoted (front ++ front') back := by
  induction front with
  | nil => exact h'
  | cons c front ih =>
    have hassoc : c :: front ++ front' ++ back = c :: front ++ (front' ++ back) := by simp
    exact ⟨(congrArg (fun cs => entryOffset? quoted (lineOf cs)) hassoc).trans h.1, ih h.2⟩

theorem Clear.plain {front : List Char} (h : '"' ∉ front) (back : List Char) :
    Clear quoted front back := by
  induction front with
  | nil => trivial
  | cons c front ih =>
    rw [List.mem_cons, not_or] at h
    refine ⟨?_, ih h.2⟩
    by_cases hc : c = '\n'
    · simp [hc, lineOf, entryOffset?_nil]
    · rw [List.cons_append, lineOf_cons hc]
      exact entryOffset?_of_ne (Ne.symm h.1) _

end

/-! ### Literals -/

def Escaped (c d : Char) : Prop := d = '"' → c = '\\'

theorem hexDigit_ne (n : Nat) : Text.hexDigit n ≠ '"' ∧ Text.hexDigit n ≠ '\n' := by
  have hdigit : ∀ k < 16, Nat.digitChar k ≠ '"' ∧ Nat.digitChar k ≠ '\n' := by decide
  exact hdigit (n % 16) (Nat.mod_lt n (by decide))

theorem unitEscape_eq (n : Nat) : Json.unitEscape n =
    ['\\', 'u', Text.hexDigit (n / 16 / 16 / 16), Text.hexDigit (n / 16 / 16),
      Text.hexDigit (n / 16), Text.hexDigit n] := by
  rw [Json.unitEscape, Json.hex_four]

structure Inside (cs : List Char) : Prop where
  escaped : cs.IsChain Escaped
  head : cs.head? ≠ some '"'
  line : '\n' ∉ cs

namespace Inside

theorem nil : Inside [] := ⟨.nil, by simp, by simp⟩

theorem append {cs cs' : List Char} (h : Inside cs) (h' : Inside cs') : Inside (cs ++ cs') where
  escaped := by
    refine List.isChain_append.2 ⟨h.escaped, h'.escaped, fun c _ d hd => ?_⟩
    rintro rfl
    exact absurd hd h'.head
  head := by
    cases cs with
    | nil => exact h'.head
    | cons c cs => exact h.head
  line := by simp [h.line, h'.line]

theorem unitEscape (n : Nat) : Inside (Json.unitEscape n) := by
  rw [unitEscape_eq]
  constructor
  · simp [Escaped, hexDigit_ne]
  · simp
  · simp [Ne.symm (hexDigit_ne _).2]

theorem escapeChar (c : Char) : Inside (Json.escapeChar c) := by
  rcases Json.escapeChar_cases c with ⟨d, _, hd, hescape⟩ | ⟨hquote, _, hle, hescape⟩ |
    ⟨_, hescape⟩ | ⟨_, hescape⟩
  · have hline : '\n' ≠ d := by
      rintro rfl
      cases hd
    rw [hescape]
    exact ⟨by simp [Escaped], by simp, by simp [hline]⟩
  · have hline : '\n' ≠ c := by
      rintro rfl
      exact absurd hle (by decide)
    rw [hescape]
    exact ⟨by simp, by simp [hquote], by simp [hline]⟩
  · rw [hescape]
    exact unitEscape _
  · rw [hescape]
    exact (unitEscape _).append (unitEscape _)

theorem flatMap_escapeChar (cs : List Char) : Inside (cs.flatMap Json.escapeChar) := by
  induction cs with
  | nil => exact nil
  | cons c cs ih =>
    rw [List.flatMap_cons]
    exact (escapeChar c).append ih

end Inside

def Stops (cs : List Char) : Prop := ∃ c rest, cs = c :: rest ∧ (c = ',' ∨ c = '\x7d' ∨ c = '\n')

theorem Stops.lineOf_cases {cs : List Char} (h : Stops cs) : lineOf cs = [] ∨
    ∃ c rest, lineOf cs = c :: rest ∧ (c = ',' ∨ c = '\x7d') := by
  obtain ⟨c, rest, rfl, rfl | rfl | rfl⟩ := h
  · exact .inr ⟨_, _, lineOf_cons (by decide) rest, .inl rfl⟩
  · exact .inr ⟨_, _, lineOf_cons (by decide) rest, .inr rfl⟩
  · exact .inl (by simp [lineOf])

theorem Stops.head_ne {cs : List Char} (h : Stops cs) : cs.head? ≠ some 'n' := by
  obtain ⟨c, rest, rfl, rfl | rfl | rfl⟩ := h <;> simp

/-- No entry starts at a quote of a literal that is a value: its key would have to end at
the end of the literal, where no colon follows, or at an escaped quote, which no letter
precedes. -/
theorem entryOffset?_value {quoted cs back : List Char} (hcs : ('"' :: cs).IsChain Escaped)
    (hline : '\n' ∉ cs) (hback : Stops back) :
    entryOffset? quoted (lineOf ('"' :: cs ++ '"' :: back)) = none := by
  have hlineOf : lineOf ('"' :: cs ++ '"' :: back) = '"' :: (cs ++ '"' :: lineOf back) := by
    rw [lineOf_append (by simp [hline]), lineOf_cons (by decide), List.cons_append]
  rw [hlineOf]
  rcases cs with _ | ⟨c1, _ | ⟨c2, _ | ⟨c3, _ | ⟨c4, _ | ⟨c5, cs⟩⟩⟩⟩⟩
  · simp [entryOffset?, after?]
  · simp [entryOffset?, after?]
  · simp [entryOffset?, after?]
  · simp [entryOffset?, after?]
  · have hcolon : after? [':'] ((lineOf back).dropWhile Text.isBlank) = none := by
      rcases hback.lineOf_cases with hnil | ⟨c, rest, hcons, rfl | rfl⟩
      · rw [hnil]
        rfl
      · rw [hcons, List.dropWhile_cons_of_neg (by decide)]
        rfl
      · rw [hcons, List.dropWhile_cons_of_neg (by decide)]
        rfl
    simp only [entryOffset?, after?, List.cons_append, List.nil_append, if_true]
    grind
  · have hescaped : Escaped c4 c5 := by
      simp only [List.isChain_cons_cons] at hcs
      exact hcs.2.2.2.2.1
    by_cases hquote : c5 = '"'
    · simp [entryOffset?, after?, hescaped hquote]
    · simp [entryOffset?, after?, Ne.symm hquote]

theorem Clear.value {quoted : List Char} (s : String) {back : List Char} (hback : Stops back) :
    Clear quoted (Json.stringChars s) back := by
  have hclear : ∀ cs : List Char, cs.IsChain Escaped → '\n' ∉ cs →
      Clear quoted (cs ++ ['"']) back := by
    intro cs hcs hline
    induction cs with
    | nil => exact ⟨entryOffset?_of_head_ne hback.head_ne, trivial⟩
    | cons c cs ih =>
      rw [List.mem_cons, not_or] at hline
      refine ⟨?_, ih hcs.tail hline.2⟩
      by_cases hc : c = '"'
      · subst hc
        have hvalue : entryOffset? quoted (lineOf ('"' :: cs ++ '"' :: back)) = none :=
          entryOffset?_value hcs hline.2 hback
        simpa using hvalue
      · rw [List.cons_append, lineOf_cons (Ne.symm hline.1)]
        exact entryOffset?_of_ne hc _
  have hinside := Inside.flatMap_escapeChar s.toList
  refine hclear ('"' :: s.toList.flatMap Json.escapeChar) ?_ (by simp [hinside.line])
  refine List.isChain_cons.2 ⟨?_, hinside.escaped⟩
  rintro d hd rfl
  exact absurd hd hinside.head

/-! ### Entries -/

theorem after?_eq_some_iff {lead cs rest : List Char} :
    after? lead cs = some rest ↔ cs = lead ++ rest := by
  induction lead generalizing cs with
  | nil => simp [after?]
  | cons a lead ih =>
    cases cs with
    | nil => simp [after?]
    | cons c cs =>
      by_cases h : a = c
      · simp [after?, h, ih]
      · simp [after?, h, Ne.symm h]

theorem stringChars_append_inj {x y : String} {rest rest' : List Char}
    (h : Json.stringChars x ++ rest = Json.stringChars y ++ rest') : x = y := by
  have hchars : x.toList.flatMap Json.escapeChar ++ '"' :: rest =
      y.toList.flatMap Json.escapeChar ++ '"' :: rest' := by
    simpa [Json.stringChars] using h
  have hscan := congrArg (Json.scanString 0 [] 0) hchars
  rw [Json.scanString_flatMap, Json.scanString_flatMap] at hscan
  have hpair := Except.ok.inj hscan
  exact String.toList_inj.1 (congrArg Prod.fst hpair)

theorem newline_not_mem_stringChars (x : String) : '\n' ∉ Json.stringChars x := by
  simp [Json.stringChars, (Inside.flatMap_escapeChar x.toList).line]

def key (k : String) : List Char := Json.stringChars k ++ [':', ' ']

theorem key_name : key "name" = ['"', 'n', 'a', 'm', 'e', '"', ':', ' '] := rfl

theorem entryOffset?_name (quoted : List Char) (y : String) (back : List Char) :
    entryOffset? quoted (lineOf (key "name" ++ (Json.stringChars y ++ back))) =
      (after? quoted (Json.stringChars y ++ lineOf back)).map fun _ => 8 := by
  have hline : lineOf (key "name" ++ (Json.stringChars y ++ back)) =
      key "name" ++ (Json.stringChars y ++ lineOf back) := by
    rw [lineOf_append (by decide), lineOf_append (newline_not_mem_stringChars y)]
  have hcolon : ((':' :: ' ' :: (Json.stringChars y ++ lineOf back)).dropWhile Text.isBlank) =
      ':' :: ' ' :: (Json.stringChars y ++ lineOf back) :=
    List.dropWhile_cons_of_neg (by decide)
  have hquote : ((' ' :: (Json.stringChars y ++ lineOf back)).dropWhile Text.isBlank) =
      Json.stringChars y ++ lineOf back := by
    rw [List.dropWhile_cons_of_pos (by decide)]
    exact List.dropWhile_cons_of_neg (by decide)
  rw [hline, key_name]
  simp only [List.cons_append, List.nil_append, entryOffset?, after?, if_true, Option.bind_eq_bind,
    Option.bind_some, hcolon, hquote]
  cases after? quoted (Json.stringChars y ++ lineOf back) with
  | none => rfl
  | some rest =>
    simp
    omega

section

variable {x : String}

theorem Clear.key {k : String} (hk : k = "type" ∨ k = "body" ∨ k = "conditional")
    (quoted back : List Char) : Clear quoted (key k) back := by
  have hletters : ∀ letters : List Char, '"' ∉ letters → letters.head? ≠ some 'n' →
      letters ≠ [] → Clear quoted ('"' :: letters ++ ['"', ':', ' ']) back := by
    intro letters hquote hhead hne
    obtain ⟨c, letters, rfl⟩ := List.exists_cons_of_ne_nil hne
    have hend : Clear quoted ['"', ':', ' '] back :=
      ⟨entryOffset?_of_head_ne (by simp), .plain (by simp) back⟩
    have hfirst : Clear quoted ['"'] (c :: letters ++ (['"', ':', ' '] ++ back)) :=
      ⟨entryOffset?_of_head_ne hhead, trivial⟩
    exact (hfirst.append (.plain hquote _)).append hend
  rcases hk with rfl | rfl | rfl
  · exact hletters ['t', 'y', 'p', 'e'] (by simp) (by simp) (by simp)
  · exact hletters ['b', 'o', 'd', 'y'] (by simp) (by simp) (by simp)
  · exact hletters ['c', 'o', 'n', 'd', 'i', 't', 'i', 'o', 'n', 'a', 'l'] (by simp) (by simp)
      (by simp)

theorem Clear.entry {y : String} (hne : x ≠ y) {back : List Char} (hback : Stops back) :
    Clear (Json.stringChars x) (Editor.key "name" ++ Json.stringChars y) back := by
  refine .append ?_ (.value y hback)
  have hnone : after? (Json.stringChars x) (Json.stringChars y ++ lineOf back) = none := by
    refine Option.eq_none_iff_forall_ne_some.2 fun rest hrest => hne ?_
    exact (stringChars_append_inj (after?_eq_some_iff.1 hrest)).symm
  have hfirst := entryOffset?_name (Json.stringChars x) y back
  rw [hnone] at hfirst
  have hend : Clear (Json.stringChars x) ['"', ':', ' '] (Json.stringChars y ++ back) :=
    ⟨entryOffset?_of_head_ne (by simp), .plain (by simp) _⟩
  have hletters : Clear (Json.stringChars x) ['n', 'a', 'm', 'e']
      (['"', ':', ' '] ++ (Json.stringChars y ++ back)) := .plain (by simp) _
  exact ⟨hfirst, hletters.append hend⟩

/-- A text in which one name is left open: put in, it has its entry in the same place, and
before the entry there is none for `x`. -/
def Spot (x : String) (text : String → List Char) : Prop := ∃ front back,
  (∀ y, text y = front ++ (Editor.key "name" ++ (Json.stringChars y ++ back))) ∧
    ∀ rest, Clear (Json.stringChars x) front
      (Editor.key "name" ++ (Json.stringChars x ++ (back ++ rest)))

namespace Spot

variable {text : String → List Char}

theorem entry (x : String) (back : List Char) :
    Spot x fun y => Editor.key "name" ++ (Json.stringChars y ++ back) :=
  ⟨[], back, fun _ => rfl, fun _ => trivial⟩

theorem append (h : Spot x text) (rest : List Char) : Spot x fun y => text y ++ rest := by
  obtain ⟨front, back, htext, hclear⟩ := h
  refine ⟨front, back ++ rest, fun y => by simp [htext], fun rest' => ?_⟩
  rw [List.append_assoc]
  exact hclear (rest ++ rest')

theorem prepend {front : List Char} (h : Spot x text)
    (hfront : ∀ back, Clear (Json.stringChars x) front back) : Spot x fun y => front ++ text y := by
  obtain ⟨front', back, htext, hclear⟩ := h
  exact ⟨front ++ front', back, fun y => by simp [htext],
    fun rest => (hfront _).append (hclear rest)⟩

/-- The search finds the entry, wherever it is, and shows the symbol in it. -/
theorem symbolRange_eq (h : Spot x text) : ∃ before back,
    (∀ y, text y = before ++ Json.stringChars y ++ back) ∧
      symbolRange x (String.ofList (text x)) =
        .of (Position.behind {} before) (Json.stringChars x) := by
  obtain ⟨front, back, htext, hclear⟩ := h
  refine ⟨front ++ Editor.key "name", back, fun y => by simp [htext], ?_⟩
  have hfound : entryOffset? (Json.stringChars x)
      (lineOf (Editor.key "name" ++ (Json.stringChars x ++ back))) = some 8 := by
    rw [entryOffset?_name, after?_eq_some_iff.2 rfl]
    rfl
  have hseek : ∀ start, seek? (Json.stringChars x) start
      (Editor.key "name" ++ (Json.stringChars x ++ back)) =
        some (.of ⟨start.line, start.character + 8⟩ (Json.stringChars x)) := by
    intro start
    rw [key_name] at hfound ⊢
    rw [List.cons_append, seek?]
    rw [List.cons_append] at hfound
    rw [hfound]
  have hclear' := hclear []
  rw [List.append_nil] at hclear'
  have hline : '\n' ∉ Editor.key "name" := by decide
  rw [symbolRange, String.toList_ofList, findIn?_lines, htext, seek?_append hclear', hseek,
    Option.getD_some, Position.behind_append, Position.behind_of_line _ hline]
  rfl

end Spot

end

end DefiniteAssignment.Editor
