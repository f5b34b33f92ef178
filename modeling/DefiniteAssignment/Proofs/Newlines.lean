import DefiniteAssignment.Proofs.Spelling
import DefiniteAssignment.Text.Lines
import Mathlib.Data.List.Find
import Mathlib.Data.List.TakeWhile

/-! Line breaks in a JSON text. No token goes across one, and between tokens they are
all the same; so a text whose line breaks are unified holds the same value, or none if
the text holds none. Only the places of faults may move. -/
namespace DefiniteAssignment

namespace Text

def isBreak (c : Char) : Bool := c = '\n' || c = '\r'

def LineEnds (tail : List Char) : Prop := ∀ c ∈ tail.head?, isBreak c = true

theorem lineEnds_cons {c : Char} {rest : List Char} : LineEnds (c :: rest) ↔ isBreak c = true := by
  simp [LineEnds]

/-- Two texts go on alike after a piece of a line that they share. -/
structure EndsAlike (tail tail' : List Char) : Prop where
  left : LineEnds tail
  right : LineEnds tail'
  nil_iff : tail = [] ↔ tail' = []

variable {l tail : List Char}

theorem unifyNewlines_cons {c : Char} (h : c ≠ '\r') (rest : List Char) :
    unifyNewlines (c :: rest) = c :: unifyNewlines rest := by
  rw [unifyNewlines.eq_def]
  split
  · contradiction
  · rename_i heq
    obtain ⟨rfl, _⟩ := List.cons.inj heq
    exact absurd rfl h
  · rename_i heq
    obtain ⟨rfl, rfl⟩ := List.cons.inj heq
    rw [if_neg h]

theorem unifyNewlines_return (rest : List Char) :
    (∃ more, rest = '\n' :: more ∧ unifyNewlines ('\r' :: rest) = '\n' :: unifyNewlines more) ∨
      unifyNewlines ('\r' :: rest) = '\n' :: unifyNewlines rest := by
  by_cases h : ∃ more, rest = '\n' :: more
  · obtain ⟨more, rfl⟩ := h
    exact .inl ⟨more, rfl, rfl⟩
  · refine .inr ?_
    rw [unifyNewlines.eq_def]
    split
    · contradiction
    · rename_i more heq
      exact absurd ⟨more, (List.cons.inj heq).2⟩ h
    · rename_i heq
      obtain ⟨rfl, rfl⟩ := List.cons.inj heq
      rw [if_pos rfl]

theorem unifyNewlines_append (h : '\r' ∉ l) (tail : List Char) :
    unifyNewlines (l ++ tail) = l ++ unifyNewlines tail := by
  induction l with
  | nil => rfl
  | cons c l ih =>
    rw [List.mem_cons, not_or] at h
    rw [List.cons_append, unifyNewlines_cons (Ne.symm h.1), ih h.2, List.cons_append]

theorem LineEnds.unifyNewlines (h : LineEnds tail) : EndsAlike tail (unifyNewlines tail) := by
  cases tail with
  | nil => exact ⟨h, h, Iff.rfl⟩
  | cons c rest =>
    obtain ⟨d, hd, more, heq⟩ :
        ∃ d, isBreak d = true ∧ ∃ more, Text.unifyNewlines (c :: rest) = d :: more := by
      by_cases hc : c = '\r'
      · subst hc
        obtain ⟨more, _, heq⟩ | heq := unifyNewlines_return rest
        · exact ⟨'\n', rfl, _, heq⟩
        · exact ⟨'\n', rfl, _, heq⟩
      · exact ⟨c, lineEnds_cons.1 h, _, unifyNewlines_cons hc rest⟩
    rw [heq]
    exact ⟨h, lineEnds_cons.2 hd, by simp⟩

theorem exists_piece (cs : List Char) : ∃ l tail, cs = l ++ tail ∧ '\r' ∉ l ∧ LineEnds tail := by
  refine ⟨cs.takeWhile (!isBreak ·), cs.dropWhile (!isBreak ·), ?_, ?_, ?_⟩
  · exact List.takeWhile_append_dropWhile.symm
  · intro hmem
    have := List.mem_takeWhile_imp hmem
    simp [isBreak] at this
  · intro c hc
    have := List.head?_dropWhile_not (fun c => !isBreak c) cs
    rw [Option.mem_def.1 hc] at this
    simpa using this

theorem takeWhile_append_lineEnds {p : Char → Bool} (hp : ∀ c, isBreak c = true → p c = false)
    (h : LineEnds tail) (l : List Char) : (l ++ tail).takeWhile p = l.takeWhile p := by
  induction l with
  | nil =>
    cases tail with
    | nil => rfl
    | cons c rest => simp [hp c (lineEnds_cons.1 h)]
  | cons c l ih => simp [List.takeWhile_cons, ih]

end Text

namespace Json

open Text (isBreak LineEnds EndsAlike)

variable {l tail tail' : List Char}

theorem break_cases {c : Char} (h : isBreak c = true) : c = '\n' ∨ c = '\r' := by
  simpa [isBreak] using h

/-- Two scans of a text of which at most `limit` characters may be taken: both give the
same, with the same count of characters, or both fail. -/
inductive Agree {α : Type} (limit : Nat) : Except Fault (α × Nat) → Except Fault (α × Nat) → Prop
  | ok (a : α) {n : Nat} (h : n ≤ limit) : Agree limit (.ok (a, n)) (.ok (a, n))
  | error (e e' : Fault) : Agree limit (.error e) (.error e')

theorem Agree.cases {α : Type} {limit : Nat} {r r' : Except Fault (α × Nat)}
    (h : Agree limit r r') :
    (∃ a n, n ≤ limit ∧ r = .ok (a, n) ∧ r' = .ok (a, n)) ∨
      ∃ e e', r = .error e ∧ r' = .error e' := by
  cases h with
  | ok a h => exact .inl ⟨a, _, h, rfl, rfl⟩
  | error e e' => exact .inr ⟨e, e', rfl, rfl⟩

/-! ### Strings -/

theorem hexValue?_of_isBreak {c : Char} (h : isBreak c = true) : hexValue? c = none := by
  rcases break_cases h with rfl | rfl <;> rfl

theorem unit?_eq_none (h : LineEnds tail) (hl : l.length < 4) : unit? (l ++ tail) = none := by
  have hx : ∀ c ∈ tail.head?, hexValue? c = none := fun c hc => hexValue?_of_isBreak (h c hc)
  unfold unit?
  split
  · rename_i a b c d e rest heq
    rcases l with _ | ⟨a, _ | ⟨b, _ | ⟨c, _ | ⟨d, m⟩⟩⟩⟩
    · simp [hx a (by simp_all)]
    · simp [hx b (by simp_all)]
    · simp [hx c (by simp_all)]
    · simp [hx d (by simp_all)]
    · simp at hl
      omega
  · rfl

theorem unit?_append (h : EndsAlike tail tail') (l : List Char) :
    unit? (l ++ tail) = unit? (l ++ tail') := by
  by_cases hl : l.length < 4
  · rw [unit?_eq_none h.left hl, unit?_eq_none h.right hl]
  · rcases l with _ | ⟨a, _ | ⟨b, _ | ⟨c, _ | ⟨d, m⟩⟩⟩⟩ <;> simp at hl
    -- One more character is asked for, whichever it is.
    cases m with
    | cons x m => rfl
    | nil =>
      cases tail with
      | nil => rw [h.nil_iff.1 rfl]
      | cons x rest =>
        cases tail' with
        | nil => cases h.nil_iff.2 rfl
        | cons y rest' => rfl

theorem escape_cases (h : LineEnds tail) (m : List Char) :
    (∃ m', m = '\\' :: 'u' :: m') ∨ ∀ rest, m ++ tail ≠ '\\' :: 'u' :: rest := by
  have hne : ∀ c, isBreak c = true → c ≠ '\\' ∧ c ≠ 'u' := by
    intro c hc
    rcases break_cases hc with rfl | rfl <;> decide
  refine or_iff_not_imp_right.2 fun hrest => ?_
  obtain ⟨rest, hrest⟩ := not_forall_not.1 hrest
  rcases m with _ | ⟨x, _ | ⟨y, m'⟩⟩
  · exact absurd rfl (hne '\\' (h _ (by simp_all))).1
  · exact absurd rfl (hne 'u' (h _ (by simp_all))).2
  · simp_all

theorem agree_scanUnits (h : EndsAlike tail tail') (position position' : Nat) (l : List Char) :
    Agree l.length (scanUnits position (l ++ tail)) (scanUnits position' (l ++ tail')) := by
  have hfour : ∀ {m : List Char} {n : Nat}, unit? (m ++ tail') = some n → 4 ≤ m.length := by
    intro m n hunit
    by_contra hlt
    rw [unit?_eq_none h.right (Nat.lt_of_not_le hlt)] at hunit
    cases hunit
  unfold scanUnits
  rw [unit?_append h]
  cases hunit : unit? (l ++ tail') with
  | none => exact .error _ _
  | some high =>
    have hl := hfour hunit
    simp only
    split
    · rw [List.drop_append_of_le_length hl, List.drop_append_of_le_length hl]
      rcases escape_cases h.left (l.drop 4) with ⟨m, hm⟩ | hleft
      · simp only [hm, List.cons_append, unit?_append h]
        have hlength : l.length = m.length + 6 := by
          have := congrArg List.length hm
          simp at this
          omega
        cases hlow : unit? (m ++ tail') with
        | none => exact .error _ _
        | some low =>
          have := hfour hlow
          simp only
          split
          · exact .ok _ (by omega)
          · exact .ok _ hl
      · rcases escape_cases h.right (l.drop 4) with ⟨m, hm⟩ | hright
        · exact absurd (by rw [hm]; rfl) (hleft (m ++ tail))
        · split
          · rename_i heq
            exact absurd heq (hleft _)
          · exact .ok _ hl
    · exact .ok _ hl

theorem scanEscape_eq_error (h : LineEnds tail) (start position : Nat) :
    ∃ e, scanEscape start position tail = .error e := by
  cases tail with
  | nil => exact ⟨_, rfl⟩
  | cons c rest =>
    have hc := break_cases (Text.lineEnds_cons.1 h)
    rcases hc with rfl | rfl <;> exact ⟨_, rfl⟩

theorem agree_scanEscape (h : EndsAlike tail tail') (start start' position position' : Nat)
    (l : List Char) :
    Agree l.length (scanEscape start position (l ++ tail))
      (scanEscape start' position' (l ++ tail')) := by
  cases l with
  | nil =>
    obtain ⟨e, he⟩ := scanEscape_eq_error h.left start position
    obtain ⟨e', he'⟩ := scanEscape_eq_error h.right start' position'
    rw [List.nil_append, List.nil_append, he, he']
    exact .error e e'
  | cons c l =>
    rw [List.cons_append, List.cons_append, scanEscape, scanEscape]
    split
    · obtain ⟨a, n, hn, hr, hr'⟩ | ⟨e, e', hr, hr'⟩ := (agree_scanUnits h position position' l).cases
      · rw [hr, hr']
        exact .ok a (Nat.succ_le_succ hn)
      · rw [hr, hr']
        exact .error e e'
    · cases simpleEscape? c with
      | none => exact .error _ _
      | some d => exact .ok d (Nat.succ_le_succ (Nat.zero_le _))

theorem agree_scanChar (h : EndsAlike tail tail') (start start' position position' : Nat) (c : Char)
    (l : List Char) :
    Agree l.length (scanChar start position c (l ++ tail))
      (scanChar start' position' c (l ++ tail')) := by
  unfold scanChar
  split
  · exact agree_scanEscape h start start' position position' l
  · split
    · exact .error _ _
    · exact .ok c (Nat.zero_le _)

theorem scanString_eq_error (h : LineEnds tail) (start : Nat) (done : List Char) (position : Nat) :
    ∃ e, scanString start done position tail = .error e := by
  cases tail with
  | nil => exact ⟨_, by rw [scanString]⟩
  | cons c rest =>
    rw [scanString]
    have hc := break_cases (Text.lineEnds_cons.1 h)
    rcases hc with rfl | rfl <;> exact ⟨_, rfl⟩

theorem scanString_cases (h : EndsAlike tail tail') (start start' : Nat) (done : List Char)
    (position position' : Nat) (l : List Char) :
    (∃ cs n, n ≤ l.length ∧ scanString start done position (l ++ tail) = .ok (cs, position + n) ∧
        scanString start' done position' (l ++ tail') = .ok (cs, position' + n)) ∨
      ∃ e e', scanString start done position (l ++ tail) = .error e ∧
        scanString start' done position' (l ++ tail') = .error e' := by
  induction hlength : l.length using Nat.strong_induction_on
    generalizing l done position position' with
  | _ k ih =>
  cases l with
  | nil =>
    obtain ⟨e, he⟩ := scanString_eq_error h.left start done position
    obtain ⟨e', he'⟩ := scanString_eq_error h.right start' done position'
    exact .inr ⟨e, e', he, he'⟩
  | cons c l =>
    rw [List.cons_append, List.cons_append, scanString, scanString]
    split
    · refine .inl ⟨done.reverse, 1, ?_, rfl, rfl⟩
      simp [← hlength]
    · obtain ⟨a, n, hn, hr, hr'⟩ | ⟨e, e', hr, hr'⟩ :=
        (agree_scanChar h start start' position position' c l).cases
      · rw [hr, hr']
        simp only [List.drop_append_of_le_length hn]
        have hlt : (l.drop n).length < k := by
          rw [← hlength, List.length_drop, List.length_cons]
          omega
        obtain ⟨cs, m, hm, hs, hs'⟩ | hfail :=
          ih _ hlt (a :: done) (position + 1 + n) (position' + 1 + n) (l.drop n) rfl
        · refine .inl ⟨cs, 1 + n + m, ?_, ?_, ?_⟩
          · rw [List.length_drop] at hm
            rw [← hlength, List.length_cons]
            omega
          · rw [hs, Nat.add_assoc, Nat.add_assoc, Nat.add_assoc]
          · rw [hs', Nat.add_assoc, Nat.add_assoc, Nat.add_assoc]
        · exact .inr hfail
      · rw [hr, hr']
        exact .inr ⟨e, e', rfl, rfl⟩

/-! ### Numbers and words -/

theorem isDigit_of_isBreak (c : Char) (h : isBreak c = true) : Decimal.isDigit c = false := by
  rcases break_cases h with rfl | rfl <;> rfl

/-- At the end of a line a scan finds what it finds at the end of the text, if it finds
the same at either break. -/
theorem eq_of_lineEnds {α : Type} {f : List Char → α} (hf : ∀ rest, f ('\n' :: rest) = f [])
    (hf' : ∀ rest, f ('\r' :: rest) = f []) (h : LineEnds tail) : f tail = f [] := by
  cases tail with
  | nil => rfl
  | cons c rest =>
    rcases break_cases (Text.lineEnds_cons.1 h) with rfl | rfl
    · exact hf rest
    · exact hf' rest

theorem takeWhile_isDigit_append (h : LineEnds tail) (l : List Char) :
    (l ++ tail).takeWhile Decimal.isDigit = l.takeWhile Decimal.isDigit :=
  Text.takeWhile_append_lineEnds isDigit_of_isBreak h l

theorem wholePart_append (h : LineEnds tail) (l : List Char) :
    wholePart (l ++ tail) = wholePart l := by
  cases l with
  | nil => exact eq_of_lineEnds (fun _ => rfl) (fun _ => rfl) h
  | cons c l =>
    have htake := takeWhile_isDigit_append h (c :: l)
    unfold wholePart
    split <;> simp_all

theorem length_wholePart_le (l : List Char) : (wholePart l).length ≤ l.length := by
  unfold wholePart
  split
  · simp
  · exact (List.takeWhile_prefix _).length_le

theorem fractionPart_append (h : LineEnds tail) (l : List Char) :
    fractionPart (l ++ tail) = fractionPart l := by
  cases l with
  | nil => exact eq_of_lineEnds (fun _ => rfl) (fun _ => rfl) h
  | cons c l =>
    by_cases hc : c = '.'
    · subst hc
      simp only [List.cons_append, fractionPart, takeWhile_isDigit_append h]
    · unfold fractionPart
      split <;> simp_all

theorem length_fractionPart_le (l : List Char) : (fractionPart l).length ≤ l.length := by
  unfold fractionPart
  split
  · split
    · exact Nat.zero_le _
    · exact Nat.succ_le_succ (List.takeWhile_prefix _).length_le
  · exact Nat.zero_le _

theorem exponentSign_append (h : LineEnds tail) (l : List Char) :
    exponentSign (l ++ tail) = exponentSign l := by
  cases l with
  | nil => exact eq_of_lineEnds (fun _ => rfl) (fun _ => rfl) h
  | cons c l =>
    unfold exponentSign
    split <;> simp_all

theorem length_exponentSign_le (l : List Char) : (exponentSign l).length ≤ l.length := by
  unfold exponentSign
  split <;> simp

theorem exponentPart_append (h : LineEnds tail) (l : List Char) :
    exponentPart (l ++ tail) = exponentPart l := by
  cases l with
  | nil => exact eq_of_lineEnds (fun _ => rfl) (fun _ => rfl) h
  | cons c l =>
    simp only [List.cons_append, exponentPart, exponentSign_append h,
      List.drop_append_of_le_length (length_exponentSign_le l), takeWhile_isDigit_append h]

theorem length_exponentPart_le (l : List Char) : (exponentPart l).length ≤ l.length := by
  unfold exponentPart
  split
  · exact Nat.zero_le _
  · rename_i c rest
    have hsign := length_exponentSign_le rest
    have hdigits :=
      (List.takeWhile_prefix (l := rest.drop (exponentSign rest).length) Decimal.isDigit).length_le
    rw [List.length_drop] at hdigits
    dsimp only
    split
    · split
      · exact Nat.zero_le _
      · rw [List.length_append, List.length_cons, List.length_cons]
        omega
    · exact Nat.zero_le _

def scanUnsigned (position sign : Nat) (l : List Char) : Except Fault (Json × Nat) :=
  let whole := wholePart l
  let rest := l.drop whole.length
  let fraction := fractionPart rest
  let exponent := exponentPart (rest.drop fraction.length)
  if whole.isEmpty then .error (.located .value position)
  else do
    let v ← numberValue (sign = 1) whole fraction exponent
    return (v, sign + whole.length + fraction.length + exponent.length)

theorem scanNumber_minus (position : Nat) (l : List Char) :
    scanNumber position ('-' :: l) = scanUnsigned position 1 l := rfl

theorem scanNumber_of_ne {c : Char} (h : c ≠ '-') (position : Nat) (l : List Char) :
    scanNumber position (c :: l) = scanUnsigned position 0 (c :: l) := by
  simp [scanNumber, scanUnsigned, h]

theorem agree_scanUnsigned (h : EndsAlike tail tail') (position position' sign : Nat) (l : List Char) :
    Agree (sign + l.length) (scanUnsigned position sign (l ++ tail))
      (scanUnsigned position' sign (l ++ tail')) := by
  have hwhole := length_wholePart_le l
  have hfraction := length_fractionPart_le (l.drop (wholePart l).length)
  have hexponent := length_exponentPart_le
    ((l.drop (wholePart l).length).drop (fractionPart (l.drop (wholePart l).length)).length)
  simp only [scanUnsigned, wholePart_append h.left, wholePart_append h.right,
    List.drop_append_of_le_length hwhole, fractionPart_append h.left, fractionPart_append h.right,
    List.drop_append_of_le_length hfraction, exponentPart_append h.left, exponentPart_append h.right]
  split
  · exact .error _ _
  · cases numberValue (sign = 1) (wholePart l) _ _ with
    | error e => exact .error e e
    | ok v =>
      refine .ok v ?_
      simp only [List.length_drop] at hfraction hexponent
      omega

theorem agree_scanNumber (h : EndsAlike tail tail') (position position' : Nat) (c : Char)
    (l : List Char) :
    Agree (l.length + 1) (scanNumber position (c :: l ++ tail))
      (scanNumber position' (c :: l ++ tail')) := by
  by_cases hc : c = '-'
  · subst hc
    rw [Nat.add_comm, List.cons_append, List.cons_append, scanNumber_minus, scanNumber_minus]
    exact agree_scanUnsigned h position position' 1 l
  · have hagree := agree_scanUnsigned h position position' 0 (c :: l)
    rw [Nat.zero_add] at hagree
    rw [List.cons_append, List.cons_append, scanNumber_of_ne hc, scanNumber_of_ne hc]
    exact hagree

theorem isPrefixOf_append {w : List Char} (h : LineEnds tail)
    (hw : ∀ c ∈ w, isBreak c = false) (l : List Char) :
    w.isPrefixOf (l ++ tail) = w.isPrefixOf l := by
  induction w generalizing l with
  | nil => simp
  | cons d w ih =>
    cases l with
    | nil =>
      cases tail with
      | nil => rfl
      | cons c rest =>
        have hne : (d == c) = false := by
          rw [beq_eq_false_iff_ne]
          rintro rfl
          rw [Text.lineEnds_cons, hw d List.mem_cons_self] at h
          cases h
        rw [List.nil_append, List.isPrefixOf_cons_cons, hne]
        rfl
    | cons c l =>
      have hrest := ih (fun c hc => hw c (List.mem_cons_of_mem _ hc)) l
      rw [List.cons_append, List.isPrefixOf_cons_cons, List.isPrefixOf_cons_cons, hrest]

theorem scanWord?_append (h : LineEnds tail) (l : List Char) :
    scanWord? (l ++ tail) = scanWord? l := by
  have hwords : ∀ entry ∈ words, ∀ c ∈ entry.1.toList, isBreak c = false := by
    simp [words, isBreak]
  unfold scanWord?
  rw [List.find?_congr fun entry hentry => isPrefixOf_append h (hwords entry hentry) l]

theorem le_length_of_scanWord? {v : Json} {n : Nat} (h : scanWord? l = some (v, n)) :
    n ≤ l.length := by
  obtain ⟨⟨w, u⟩, hfind, heq⟩ := Option.map_eq_some_iff.1 h
  obtain ⟨rfl, rfl⟩ := Prod.mk.inj heq
  have hfound := List.find?_some hfind
  have hprefix : w.toList <+: l := List.isPrefixOf_iff_prefix.1 hfound
  rw [← String.length_toList]
  exact hprefix.length_le

/-! ### Tokens -/

theorem agree_scanToken (h : EndsAlike tail tail') (position position' : Nat) (c : Char)
    (l : List Char) :
    Agree l.length (scanToken position c (l ++ tail)) (scanToken position' c (l ++ tail')) := by
  unfold scanToken
  cases mark? c with
  | some t => exact .ok t (Nat.zero_le _)
  | none =>
    dsimp only
    split
    · obtain ⟨cs, n, hn, hr, hr'⟩ | ⟨e, e', hr, hr'⟩ :=
        scanString_cases h position position' [] (position + 1) (position' + 1) l
      · have hcount : ∀ p : Nat, p + 1 + n - p - 1 = n := by omega
        rw [hr, hr']
        simp only [bind, Except.bind, pure, Except.pure, hcount]
        exact .ok _ hn
      · rw [hr, hr']
        exact .error e e'
    · rw [← List.cons_append, ← List.cons_append, scanWord?_append h.left, scanWord?_append h.right]
      cases hword : scanWord? (c :: l) with
      | some found =>
        obtain ⟨v, n⟩ := found
        have hn := le_length_of_scanWord? hword
        rw [List.length_cons] at hn
        exact .ok _ (by omega)
      | none =>
        obtain ⟨v, n, hn, hr, hr'⟩ | ⟨e, e', hr, hr'⟩ :=
          (agree_scanNumber h position position' c l).cases
        · rw [hr, hr']
          exact .ok _ (by omega)
        · rw [hr, hr']
          exact .error e e'

/-- Where tokens stop and why may differ, but not the tokens, nor whether they go to the
end of the text. -/
structure Tokens.Alike (ts ts' : Tokens) : Prop where
  list : ts.list.map Prod.snd = ts'.list.map Prod.snd
  fault : ts.fault = none ↔ ts'.fault = none

theorem tokens_of_isSpace {c : Char} (h : isSpace c = true) (position : Nat) (rest : List Char) :
    tokens position (c :: rest) = tokens (position + 1) rest := by
  rw [tokens, if_pos h]

theorem alike_tokens (position position' : Nat) (cs : List Char) :
    (tokens position cs).Alike (tokens position' (Text.unifyNewlines cs)) := by
  induction hlength : cs.length using Nat.strong_induction_on
    generalizing cs position position' with
  | _ k ih =>
  subst hlength
  cases cs with
  | nil =>
    rw [Text.unifyNewlines, tokens, tokens]
    exact ⟨rfl, Iff.rfl⟩
  | cons c rest =>
    have hnext : ∀ position position',
        (tokens position rest).Alike (tokens position' (Text.unifyNewlines rest)) :=
      fun position position' => ih rest.length (Nat.lt_succ_self _) position position' rest rfl
    by_cases hreturn : c = '\r'
    · subst hreturn
      obtain ⟨more, rfl, heq⟩ | heq := Text.unifyNewlines_return rest
      · rw [heq, tokens_of_isSpace rfl, tokens_of_isSpace rfl, tokens_of_isSpace rfl]
        exact ih more.length (by simp only [List.length_cons]; omega) _ _ more rfl
      · rw [heq, tokens_of_isSpace rfl, tokens_of_isSpace rfl]
        exact hnext _ _
    · by_cases hspace : isSpace c = true
      · rw [Text.unifyNewlines_cons hreturn, tokens_of_isSpace hspace, tokens_of_isSpace hspace]
        exact hnext _ _
      · obtain ⟨l, tail, rfl, hl, htail⟩ := Text.exists_piece rest
        rw [Text.unifyNewlines_cons hreturn, Text.unifyNewlines_append hl, tokens, tokens,
          if_neg hspace, if_neg hspace]
        obtain ⟨t, n, hn, hr, hr'⟩ | ⟨e, e', hr, hr'⟩ :=
          (agree_scanToken htail.unifyNewlines position position' c l).cases
        · -- The token is cut off the piece, and what is left of the text is unified alike.
          have hdrop : '\r' ∉ l.drop n := fun hmem => hl (List.mem_of_mem_drop hmem)
          have hshorter : (l.drop n ++ tail).length < (c :: (l ++ tail)).length := by
            simp only [List.length_append, List.length_drop, List.length_cons]
            omega
          have hrest := ih _ hshorter (position + 1 + n) (position' + 1 + n) (l.drop n ++ tail) rfl
          rw [Text.unifyNewlines_append hdrop] at hrest
          rw [hr, hr']
          simp only [List.drop_append_of_le_length hn]
          exact ⟨congrArg (t :: ·) hrest.list, hrest.fault⟩
        · rw [hr, hr']
          exact ⟨rfl, by simp⟩

/-! ### Values -/

namespace Reader

theorem foldlM_step_eq_ok_iff {r r' : Reader} {placed : List (Nat × Token)} :
    placed.foldlM step r = .ok r' ↔ r.feed (placed.map Prod.snd) = some r' := by
  refine ⟨fun h => ?_, foldlM_step⟩
  induction placed generalizing r with
  | nil =>
    obtain rfl : r = r' := by simpa [pure, Except.pure] using h
    rfl
  | cons token rest ih =>
    rw [List.foldlM_cons] at h
    cases hstep : r.step? token.2 with
    | none =>
      have hnext : r.step token = .error (.located r.reason token.1) := by rw [step, hstep]
      rw [hnext] at h
      cases h
    | some next =>
      have hnext : r.step token = .ok next := by rw [step, hstep]
      rw [hnext] at h
      rw [List.map_cons, feed_cons hstep]
      exact ih h

theorem finish_eq_ok_iff {r : Reader} {stop : Nat} {fault : Option Fault} {v : Json} :
    r.finish stop fault = .ok v ↔ r = .after [] v ∧ fault = none := by
  unfold finish
  split <;> simp_all

end Reader

theorem read_eq_ok_iff {cs : List Char} {v : Json} :
    read cs = .ok v ↔ cs.head? ≠ some (Char.ofNat 0xFEFF) ∧
      (Reader.value [] false).feed ((tokens 0 cs).list.map Prod.snd) = some (.after [] v) ∧
      (tokens 0 cs).fault = none := by
  unfold read
  split
  · simp_all
  · rename_i hmark
    dsimp only
    cases hfold : (tokens 0 cs).list.foldlM Reader.step (.value [] false) with
    | error fault =>
      refine ⟨fun h => (by cases h), fun ⟨_, hfeed, _⟩ => ?_⟩
      rw [Reader.foldlM_step hfeed] at hfold
      cases hfold
    | ok r =>
      rw [Reader.foldlM_step_eq_ok_iff] at hfold
      simp [hmark, hfold, Reader.finish_eq_ok_iff]

theorem head?_unifyNewlines_eq_iff {cs : List Char} {c : Char} (h : isBreak c = false) :
    (Text.unifyNewlines cs).head? = some c ↔ cs.head? = some c := by
  have hne : '\n' ≠ c ∧ '\r' ≠ c := by
    constructor <;> rintro rfl <;> cases h
  cases cs with
  | nil => rfl
  | cons d rest =>
    by_cases hd : d = '\r'
    · subst hd
      obtain ⟨more, _, heq⟩ | heq := Text.unifyNewlines_return rest <;> simp [heq, hne]
    · simp [Text.unifyNewlines_cons hd]

/-- The value of a text has nothing to do with how its lines end. -/
theorem read_unifyNewlines {cs : List Char} {v : Json} :
    read (Text.unifyNewlines cs) = .ok v ↔ read cs = .ok v := by
  obtain ⟨hlist, hfault⟩ := alike_tokens 0 0 cs
  rw [read_eq_ok_iff, read_eq_ok_iff, ne_eq, ne_eq, head?_unifyNewlines_eq_iff rfl, hlist, hfault]

end Json

end DefiniteAssignment
