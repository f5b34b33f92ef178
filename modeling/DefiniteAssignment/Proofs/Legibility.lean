import DefiniteAssignment.Program.Printer
import DefiniteAssignment.Proofs.Placement
import DefiniteAssignment.Proofs.Unwalked

/-! Pseudo-source tells programs apart. Names without blanks and marks can be cut
out of a line again, so the first line of a statement says what the statement is, but
for its body; and a closing brace stands on a line that no statement begins with, so
the lines of a body are told from those that follow it. -/
namespace DefiniteAssignment

namespace Text

theorem lines_of_not_mem {cs : List Char} (h : '\n' ∉ cs) : lines cs = [cs] := by
  induction cs with
  | nil => rfl
  | cons c rest ih =>
    rw [List.mem_cons, not_or] at h
    simp [lines, ih h.2, Ne.symm h.1]

theorem lines_append_newline {cs : List Char} (h : '\n' ∉ cs) (rest : List Char) :
    lines (cs ++ '\n' :: rest) = cs :: lines rest := by
  induction cs with
  | nil => exact Editor.lines_newline rest
  | cons c cs ih =>
    rw [List.mem_cons, not_or] at h
    simp [lines, ih h.2, Ne.symm h.1]

theorem lines_intercalate {ls : List (List Char)} (hne : ls ≠ []) (h : ∀ l ∈ ls, '\n' ∉ l) :
    lines (['\n'].intercalate ls) = ls := by
  induction ls with
  | nil => exact absurd rfl hne
  | cons l more ih =>
    have hl : '\n' ∉ l := h l List.mem_cons_self
    cases more with
    | nil => simpa using lines_of_not_mem hl
    | cons l' more =>
      have hmore := ih (List.cons_ne_nil _ _) fun l hl => h l (List.mem_cons_of_mem _ hl)
      rw [List.intercalate_cons_cons, List.append_assoc, List.singleton_append,
        lines_append_newline hl, hmore]

end Text

def marks : List Char := [';', '(', ')', '\x7b', '\x7d', '=']

def isOrdinary (c : Char) : Bool := !Text.isBlank c && !marks.contains c

/-- A name that can be told from the words and marks around it. -/
def Legible (x : String) : Prop := x ≠ "" ∧ ∀ c ∈ x.toList, isOrdinary c = true

theorem append_mark_inj {w w' rest rest' : List Char} {m m' : Char}
    (hw : ∀ c ∈ w, isOrdinary c = true) (hw' : ∀ c ∈ w', isOrdinary c = true)
    (hm : isOrdinary m = false) (hm' : isOrdinary m' = false)
    (h : w ++ m :: rest = w' ++ m' :: rest') : w = w' ∧ m = m' ∧ rest = rest' := by
  induction w generalizing w' with
  | nil =>
    cases w' with
    | nil => simpa using h
    | cons c' w' =>
      obtain ⟨rfl, _⟩ := List.cons.inj h
      simp [hw' m List.mem_cons_self] at hm
  | cons c w ih =>
    cases w' with
    | nil =>
      obtain ⟨rfl, _⟩ := List.cons.inj h
      simp [hw c List.mem_cons_self] at hm'
    | cons c' w' =>
      obtain ⟨rfl, htail⟩ := List.cons.inj h
      obtain ⟨rfl, hrest⟩ := ih (fun x hx => hw x (List.mem_cons_of_mem _ hx))
        (fun x hx => hw' x (List.mem_cons_of_mem _ hx)) htail
      exact ⟨rfl, hrest⟩

/-- A line cut at its first two marks. -/
structure Heading where
  first : List Char
  mark : Char
  second : List Char
  stop : Char
  rest : List Char
deriving Inhabited

namespace Heading

def chars (h : Heading) : List Char := h.first ++ h.mark :: (h.second ++ h.stop :: h.rest)

structure Punctuated (h : Heading) : Prop where
  first : ∀ c ∈ h.first, isOrdinary c = true
  mark : isOrdinary h.mark = false
  second : ∀ c ∈ h.second, isOrdinary c = true
  stop : isOrdinary h.stop = false

theorem Punctuated.eq_of_chars_eq {h h' : Heading} (hp : h.Punctuated) (hp' : h'.Punctuated)
    (heq : h.chars = h'.chars) : h = h' := by
  obtain ⟨hfirst, hmark, htail⟩ := append_mark_inj hp.first hp'.first hp.mark hp'.mark heq
  obtain ⟨hsecond, hstop, hrest⟩ := append_mark_inj hp.second hp'.second hp.stop hp'.stop htail
  cases h
  cases h'
  simp_all

end Heading

namespace Stmt

def heading : Stmt → Heading
  | declare x => ⟨"var".toList, ' ', x.toList, ';', []⟩
  | assign x => ⟨x.toList, ' ', [], '=', " smth;".toList⟩
  | print x => ⟨"print".toList, '(', x.toList, ')', [';']⟩
  | call f true => ⟨"if".toList, ' ', [], '(', "smth) ".toList ++ f.toList ++ "();".toList⟩
  | call f false => ⟨f.toList, '(', [], ')', [';']⟩
  | function f _ => ⟨"func".toList, ' ', f.toList, ' ', ['\x7b']⟩
  | bare | block _ => default

def ofHeading (h : Heading) : Stmt :=
  match h.stop with
  | ';' => declare (String.ofList h.second)
  | '=' => assign (String.ofList h.first)
  | '(' => call (String.ofList ((h.rest.drop "smth) ".length).takeWhile isOrdinary)) true
  | ')' =>
    if h.second = [] then call (String.ofList h.first) false else print (String.ofList h.second)
  | _ => function (String.ofList h.second) []

def innerLines (level : Int) : Stmt → List String
  | function _ body => bodyLines (level + 1) body ++ [margin level ++ "\x7d"]
  | declare _ | assign _ | print _ | call _ _ | bare | block _ => []

structure Readable (s : Stmt) : Prop where
  inLanguage : s.inLanguage = true
  names : ∀ x ∈ s.names, Legible x

def AllReadable (body : List Stmt) : Prop := ∀ s ∈ body, s.Readable

variable {s t : Stmt}

theorem Readable.inner {f : String} {body : List Stmt} (h : (function f body).Readable) :
    AllReadable body := by
  intro s hs
  refine ⟨allInLanguage_iff.1 h.inLanguage s hs, fun x hx => h.names x ?_⟩
  exact List.mem_cons_of_mem _ (names_subset_allNames hs hx)

theorem lines_eq (level : Int) (h : s.inLanguage = true) :
    s.lines level = (margin level ++ String.ofList s.heading.chars) :: s.innerLines level := by
  cases s with
  | bare | block _ => simp [inLanguage] at h
  | call f c => cases c <;> simp [lines, heading, innerLines, Heading.chars, ← String.toList_inj]
  | _ => simp [lines, heading, innerLines, Heading.chars, ← String.toList_inj]

theorem Readable.punctuated (h : s.Readable) : s.heading.Punctuated := by
  have hname : ∀ x ∈ s.names, ∀ c ∈ x.toList, isOrdinary c = true := fun x hx => (h.names x hx).2
  have hword : ∀ w : String, w.toList.all isOrdinary = true → ∀ c ∈ w.toList, isOrdinary c = true :=
    fun w => List.all_eq_true.1
  cases s with
  | declare x => exact ⟨hword "var" rfl, rfl, hname x List.mem_cons_self, rfl⟩
  | assign x => exact ⟨hname x List.mem_cons_self, rfl, hword "" rfl, rfl⟩
  | print x => exact ⟨hword "print" rfl, rfl, hname x List.mem_cons_self, rfl⟩
  | function f body => exact ⟨hword "func" rfl, rfl, hname f List.mem_cons_self, rfl⟩
  | call f c =>
    cases c with
    | true => exact ⟨hword "if" rfl, rfl, hword "" rfl, rfl⟩
    | false => exact ⟨hname f List.mem_cons_self, rfl, hword "" rfl, rfl⟩
  | bare | block _ => cases h.inLanguage

theorem Readable.ofHeading_heading (h : s.Readable) : ofHeading s.heading = s.head := by
  cases s with
  | declare x => exact congrArg declare String.ofList_toList
  | assign x => exact congrArg assign String.ofList_toList
  | print x =>
    have hx : x.toList ≠ [] := mt String.toList_eq_nil_iff.1 (h.names x List.mem_cons_self).1
    refine (if_neg hx).trans (congrArg print String.ofList_toList)
  | function f body => exact congrArg (function · []) String.ofList_toList
  | call f c =>
    cases c with
    | false => exact congrArg (call · false) String.ofList_toList
    | true =>
      have hf : (f.toList ++ "();".toList).takeWhile isOrdinary = f.toList := by
        rw [List.takeWhile_append_of_pos (h.names f List.mem_cons_self).2]
        exact List.append_nil _
      have hrest : ("smth) ".toList ++ f.toList ++ "();".toList).drop "smth) ".length =
          f.toList ++ "();".toList := by
        rw [List.append_assoc]
        exact List.drop_left
      refine congrArg (call · true) ?_
      rw [heading, hrest, hf, String.ofList_toList]
  | bare | block _ => cases h.inLanguage

theorem Readable.not_mem_chars {c : Char} (h : s.Readable) (hc : c = '\n' ∨ c = '\x7d') :
    c ∉ s.heading.chars := by
  have hname : ∀ x ∈ s.names, c ∉ x.toList := by
    intro x hx hmem
    have hordinary := (h.names x hx).2 c hmem
    rcases hc with rfl | rfl <;> cases hordinary
  cases s with
  | bare | block _ => cases h.inLanguage
  | call f d =>
    have hf := hname f List.mem_cons_self
    cases d <;> rcases hc with rfl | rfl <;> simp [heading, Heading.chars, hf]
  | declare x | assign x | print x | function x _ =>
    have hx := hname x List.mem_cons_self
    rcases hc with rfl | rfl <;> simp [heading, Heading.chars, hx]

/-- What follows the statements of a body: nothing, or a line that closes it. -/
def Ends (rest : List String) : Prop := ∀ line ∈ rest.head?, '\x7d' ∈ line.toList

section

variable {level : Int} {rest rest' : List String}

theorem Readable.not_ends (h : s.Readable) : ¬ Ends (s.lines level ++ rest) := by
  rw [lines_eq level h.inLanguage]
  intro hends
  have hmem := hends _ rfl
  rw [String.toList_append, List.mem_append, String.toList_ofList, margin, String.toList_ofList]
    at hmem
  rcases hmem with hmem | hmem
  · simp at hmem
  · exact h.not_mem_chars (.inr rfl) hmem

theorem head_eq_of_lines_append (hs : s.Readable) (ht : t.Readable)
    (h : s.lines level ++ rest = t.lines level ++ rest') :
    s.head = t.head ∧ s.innerLines level ++ rest = t.innerLines level ++ rest' := by
  rw [lines_eq level hs.inLanguage, lines_eq level ht.inLanguage] at h
  obtain ⟨hline, hinner⟩ := List.cons.inj h
  have hchars : s.heading.chars = t.heading.chars := by
    rw [← String.toList_inj, String.toList_append, String.toList_append, String.toList_ofList,
      String.toList_ofList] at hline
    exact List.append_cancel_left hline
  refine ⟨?_, hinner⟩
  rw [← hs.ofHeading_heading, ← ht.ofHeading_heading,
    hs.punctuated.eq_of_chars_eq ht.punctuated hchars]

theorem eq_of_head_eq (h : s.head = t.head) (hs : s.function? = none) : s = t := by
  cases s with
  | function f body => cases hs
  | _ =>
    cases t with
    | function g body' => cases h
    | _ => exact h

end

mutual

theorem eq_of_lines_append {level : Int} {rest rest' : List String} :
    (s t : Stmt) → s.Readable → t.Readable → s.lines level ++ rest = t.lines level ++ rest' →
      s = t ∧ rest = rest'
  | function f body, t, hs, ht, h => by
    obtain ⟨hhead, hinner⟩ := head_eq_of_lines_append hs ht h
    cases t with
    | function g body' =>
      obtain ⟨rfl, _⟩ := function.inj hhead
      -- Both bodies are closed by the same line, and no statement begins with it.
      have hends : ∀ rest, Ends ((margin level ++ "\x7d") :: rest) := by simp [Ends]
      rw [innerLines, innerLines, List.append_assoc, List.append_assoc] at hinner
      obtain ⟨rfl, htail⟩ := eq_of_bodyLines_append (hends rest) (hends rest') body body' hs.inner
        ht.inner hinner
      exact ⟨rfl, (List.cons.inj htail).2⟩
    | _ => cases hhead
  | declare x, t, hs, ht, h | assign x, t, hs, ht, h | print x, t, hs, ht, h
  | call x _, t, hs, ht, h => by
    obtain ⟨hhead, hinner⟩ := head_eq_of_lines_append hs ht h
    obtain rfl := eq_of_head_eq hhead rfl
    exact ⟨rfl, hinner⟩
  | bare, _, hs, _, _ | block _, _, hs, _, _ => by cases hs.inLanguage

theorem eq_of_bodyLines_append {level : Int} {rest rest' : List String} (hrest : Ends rest)
    (hrest' : Ends rest') :
    (body body' : List Stmt) → AllReadable body → AllReadable body' →
      bodyLines level body ++ rest = bodyLines level body' ++ rest' → body = body' ∧ rest = rest'
  | [], [], _, _, h => ⟨rfl, h⟩
  | [], t :: body', _, ht, h => by
    rw [bodyLines, bodyLines, List.append_assoc, List.nil_append] at h
    rw [h] at hrest
    exact absurd hrest (ht t List.mem_cons_self).not_ends
  | s :: body, [], hs, _, h => by
    rw [bodyLines, bodyLines, List.append_assoc, List.nil_append] at h
    rw [← h] at hrest'
    exact absurd hrest' (hs s List.mem_cons_self).not_ends
  | s :: body, t :: body', hs, ht, h => by
    rw [bodyLines, bodyLines, List.append_assoc, List.append_assoc] at h
    obtain ⟨rfl, htail⟩ :=
      eq_of_lines_append s t (hs s List.mem_cons_self) (ht t List.mem_cons_self) h
    obtain ⟨rfl, heq⟩ := eq_of_bodyLines_append hrest hrest' body body'
      (fun u hu => hs u (List.mem_cons_of_mem _ hu)) (fun u hu => ht u (List.mem_cons_of_mem _ hu))
      htail
    exact ⟨rfl, heq⟩

end

structure IsLine (line : String) : Prop where
  ne_nil : line.toList ≠ []
  newline_not_mem : '\n' ∉ line.toList

theorem Readable.isLine_heading (h : s.Readable) (level : Int) :
    IsLine (margin level ++ String.ofList s.heading.chars) := by
  refine ⟨by simp [Heading.chars], ?_⟩
  rw [String.toList_append, String.toList_ofList, List.mem_append, margin, String.toList_ofList]
  rintro (hmem | hmem)
  · simp at hmem
  · exact h.not_mem_chars (.inl rfl) hmem

theorem isLine_closing (level : Int) : IsLine (margin level ++ "\x7d") :=
  ⟨by simp, by simp [margin]⟩

mutual

theorem isLine_of_mem_lines {level : Int} :
    (s : Stmt) → s.Readable → ∀ line ∈ s.lines level, IsLine line
  | function f body, h => by
    intro line hline
    rw [lines_eq level h.inLanguage, innerLines, List.mem_cons, List.mem_append,
      List.mem_singleton] at hline
    rcases hline with rfl | hline | rfl
    · exact h.isLine_heading level
    · exact isLine_of_mem_bodyLines body h.inner line hline
    · exact isLine_closing level
  | declare x, h | assign x, h | print x, h | call x _, h | bare, h | block _, h => by
    intro line hline
    rw [lines_eq level h.inLanguage, innerLines, List.mem_singleton] at hline
    exact hline ▸ h.isLine_heading level

theorem isLine_of_mem_bodyLines {level : Int} :
    (body : List Stmt) → AllReadable body → ∀ line ∈ bodyLines level body, IsLine line
  | [], _ => by simp [bodyLines]
  | s :: body, h => by
    intro line hline
    rw [bodyLines, List.mem_append] at hline
    rcases hline with hline | hline
    · exact isLine_of_mem_lines s (h s List.mem_cons_self) line hline
    · exact isLine_of_mem_bodyLines body (fun u hu => h u (List.mem_cons_of_mem _ hu)) line hline

end

end Stmt

namespace Program

variable {p q : Program}

theorem lines_text (h : Stmt.AllReadable p.body) :
    (Text.lines p.text.toList).filter (· ≠ []) = (Stmt.bodyLines 0 p.body).map String.toList := by
  have hline : ∀ line ∈ Stmt.bodyLines 0 p.body, Stmt.IsLine line :=
    Stmt.isLine_of_mem_bodyLines p.body h
  have htext : p.text.toList = ['\n'].intercalate ((Stmt.bodyLines 0 p.body).map String.toList) :=
    String.toList_intercalate
  cases hlines : Stmt.bodyLines 0 p.body with
  | nil => simp [htext, hlines, Text.lines]
  | cons line more =>
    rw [htext, ← hlines, Text.lines_intercalate]
    · rw [List.filter_eq_self]
      simpa using fun l hl => String.toList_eq_nil_iff.not.1 (hline l hl).ne_nil
    · simp [hlines]
    · simpa using fun l hl => (hline l hl).newline_not_mem

theorem allReadable (hin : p.InLanguage) (hnames : ∀ x ∈ p.names, Legible x) :
    Stmt.AllReadable p.body := fun s hs =>
  ⟨Stmt.allInLanguage_iff.1 hin s hs, fun x hx => hnames x (Stmt.names_subset_allNames hs hx)⟩

/-- Pseudo-source is unambiguous: two programs of the language whose names are words
are written alike only if they are the same. -/
theorem text_eq_iff (hp : p.InLanguage) (hq : q.InLanguage) (hpnames : ∀ x ∈ p.names, Legible x)
    (hqnames : ∀ x ∈ q.names, Legible x) : p.text = q.text ↔ p = q := by
  refine ⟨fun htext => ?_, fun h => by rw [h]⟩
  have hpread := allReadable hp hpnames
  have hqread := allReadable hq hqnames
  have hlines : Stmt.bodyLines 0 p.body ++ [] = Stmt.bodyLines 0 q.body ++ [] := by
    rw [List.append_nil, List.append_nil]
    refine List.map_injective_iff.2 (fun _ _ => String.toList_inj.1) ?_
    rw [← lines_text hpread, ← lines_text hqread, htext]
  have hnil : Stmt.Ends [] := by simp [Stmt.Ends]
  obtain ⟨hbody, _⟩ := Stmt.eq_of_bodyLines_append hnil hnil p.body q.body hpread hqread hlines
  exact congrArg Program.mk hbody

def keywords : Program :=
  ⟨[.function "func" [.function "if" [], .call "print" true], .assign "var", .declare "smth"]⟩

def nestedKeywords : Program :=
  ⟨[.function "func" [.function "if" [.call "print" true]], .assign "var", .declare "smth"]⟩

theorem text_eq_iff_keywords :
    keywords.InLanguage ∧ nestedKeywords.InLanguage ∧ (∀ x ∈ keywords.names, Legible x) ∧
      (∀ x ∈ nestedKeywords.names, Legible x) ∧ keywords.text ≠ nestedKeywords.text := by
  have hlegible : ∀ x ∈ ["func", "if", "print", "var", "smth"], Legible x := by
    have hall : ["func", "if", "print", "var", "smth"].all
        (fun x => x ≠ "" && x.toList.all isOrdinary) = true := rfl
    intro x hx
    simpa [Legible] using List.all_eq_true.1 hall x hx
  have hin : keywords.InLanguage := rfl
  have hin' : nestedKeywords.InLanguage := rfl
  refine ⟨hin, hin', hlegible, hlegible, ?_⟩
  rw [ne_eq, text_eq_iff hin hin' hlegible hlegible]
  decide

end Program

end DefiniteAssignment
