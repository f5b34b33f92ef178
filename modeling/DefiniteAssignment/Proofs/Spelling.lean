import DefiniteAssignment.Json.Printer
import DefiniteAssignment.Json.Reader
import Mathlib.Data.List.Nodup

/-! Values read back from their written form. A text spells tokens if those are
read from it whatever follows; marks, strings and words spell one token each and
blanks spell none, so the written form of a value spells the tokens of the value
under every layout of blanks. -/
namespace DefiniteAssignment.Json

/-! ### Strings -/

theorem hexValue?_hexDigit (n : Nat) : hexValue? (Text.hexDigit n) = some (n % 16) := by
  have hdigit : ∀ k < 16, hexValue? (Nat.digitChar k) = some k := by decide
  exact hdigit (n % 16) (Nat.mod_lt n (by decide))

theorem hex_four (n : Nat) : Text.hex 4 n =
    [Text.hexDigit (n / 16 / 16 / 16), Text.hexDigit (n / 16 / 16), Text.hexDigit (n / 16),
      Text.hexDigit n] := rfl

theorem unit?_hex {n : Nat} (hn : n < 0x10000) {rest : List Char} (hrest : rest ≠ []) :
    unit? (Text.hex 4 n ++ rest) = some n := by
  obtain ⟨c, tail, rfl⟩ := List.exists_cons_of_ne_nil hrest
  simp only [hex_four, List.cons_append, List.nil_append, unit?, hexValue?_hexDigit,
    Option.pure_def, Option.bind_eq_bind, Option.bind_some, Option.some.injEq]
  omega

theorem scanUnits_of_bmp {n : Nat} (hn : n.isValidChar) (hlt : n < 0x10000) (position : Nat)
    {rest : List Char} (hrest : rest ≠ []) :
    scanUnits position (Text.hex 4 n ++ rest) = .ok (Char.ofNat n, 4) := by
  have hplain : isHighSurrogate n = false ∧ isLowSurrogate n = false := by
    simp only [isHighSurrogate, isLowSurrogate, Bool.and_eq_false_iff, decide_eq_false_iff_not]
    unfold Nat.isValidChar at hn
    omega
  simp [scanUnits, unit?_hex hlt hrest, hplain, ofUnit]

theorem scanUnits_pair {high low : Nat} (hhigh : isHighSurrogate high) (hlow : isLowSurrogate low)
    (position : Nat) {rest : List Char} (hrest : rest ≠ []) :
    scanUnits position (Text.hex 4 high ++ unitEscape low ++ rest) =
      .ok (joinSurrogates high low, 10) := by
  have hhigh' : high < 0x10000 := by
    simp only [isHighSurrogate, Bool.and_eq_true, decide_eq_true_eq] at hhigh
    omega
  have hlow' : low < 0x10000 := by
    simp only [isLowSurrogate, Bool.and_eq_true, decide_eq_true_eq] at hlow
    omega
  have hfirst : unit? (Text.hex 4 high ++ (unitEscape low ++ rest)) = some high :=
    unit?_hex hhigh' (by simp [unitEscape])
  have hdrop : (Text.hex 4 high ++ (unitEscape low ++ rest)).drop 4 =
      '\\' :: 'u' :: (Text.hex 4 low ++ rest) := rfl
  rw [List.append_assoc]
  simp only [scanUnits, hfirst, hhigh, if_true, hdrop, unit?_hex hlow' hrest, hlow]

theorem joinSurrogates_split {n : Nat} (hle : 0x10000 ≤ n) :
    joinSurrogates (0xD800 + (n - 0x10000) / 0x400) (0xDC00 + (n - 0x10000) % 0x400) =
      Char.ofNat n := by
  have hsum : 0x10000 + (0xD800 + (n - 0x10000) / 0x400 - 0xD800) * 0x400 +
      (0xDC00 + (n - 0x10000) % 0x400 - 0xDC00) = n := by
    omega
  exact congrArg Char.ofNat hsum

theorem scanString_units {units rest : List Char} {position : Nat} {c : Char}
    (h : scanUnits position (units ++ rest) = .ok (c, units.length)) (start : Nat)
    (done : List Char) : scanString start done position ('\\' :: 'u' :: (units ++ rest)) =
      scanString start (c :: done) (position + (units.length + 2)) rest := by
  have hchar : scanChar start position '\\' ('u' :: (units ++ rest)) =
      .ok (c, units.length + 1) := by
    simp [scanChar, scanEscape, h, bind, Except.bind, pure, Except.pure]
  rw [scanString, if_neg (by decide)]
  simp only [hchar, List.drop_succ_cons, List.drop_left]
  congr 1
  omega

theorem escapeChar_cases (c : Char) :
    (∃ d, d ≠ 'u' ∧ simpleEscape? d = some c ∧ escapeChar c = ['\\', d]) ∨
    (c ≠ '"' ∧ c ≠ '\\' ∧ 0x20 ≤ c.toNat ∧ escapeChar c = [c]) ∨
    (c.toNat < 0x10000 ∧ escapeChar c = unitEscape c.toNat) ∨
    (0x10000 ≤ c.toNat ∧ escapeChar c = unitEscape (0xD800 + (c.toNat - 0x10000) / 0x400) ++
      unitEscape (0xDC00 + (c.toNat - 0x10000) % 0x400)) := by
  have hself : Char.ofNat c.toNat = c := Char.ofNat_toNat c
  fun_cases escapeChar c with
  | case1 h | case2 _ h | case3 _ _ h | case4 _ _ _ h | case5 _ _ _ _ h =>
    exact .inl ⟨_, by decide, by rw [h]; rfl, rfl⟩
  | case6 n _ _ _ _ _ h | case7 n _ _ _ _ _ _ h =>
    have hn : c.toNat = _ := h
    exact .inl ⟨_, by decide, by rw [← hself, hn]; rfl, rfl⟩
  | case8 n hquote hbackslash _ _ _ _ _ hprintable =>
    simp only [Bool.and_eq_true, decide_eq_true_eq] at hprintable
    exact .inr (.inl ⟨hquote, hbackslash, hprintable.1, rfl⟩)
  | case9 n _ _ _ _ _ _ _ _ hlt => exact .inr (.inr (.inl ⟨hlt, rfl⟩))
  | case10 n _ _ _ _ _ _ _ _ hge => exact .inr (.inr (.inr ⟨Nat.le_of_not_lt hge, rfl⟩))

theorem scanString_escapeChar (start : Nat) (done : List Char) (position : Nat) (c : Char)
    {rest : List Char} (hrest : rest ≠ []) :
    scanString start done position (escapeChar c ++ rest) =
      scanString start (c :: done) (position + (escapeChar c).length) rest := by
  have hvalid : c.toNat.isValidChar := c.valid
  have hself : Char.ofNat c.toNat = c := Char.ofNat_toNat c
  rcases escapeChar_cases c with ⟨d, hu, hd, hescape⟩ | ⟨hquote, hbackslash, hle, hescape⟩ |
    ⟨hlt, hescape⟩ | ⟨hle, hescape⟩
  · rw [hescape]
    simp [scanString, scanChar, scanEscape, hd, hu, Nat.add_assoc]
  · rw [hescape]
    simp [scanString, hquote, scanChar, hbackslash, Nat.not_lt.2 hle]
  · have hunits := scanUnits_of_bmp hvalid hlt position hrest
    rw [hself] at hunits
    rw [hescape]
    exact scanString_units hunits start done
  · have hbound : c.toNat < 0x110000 := by
      unfold Nat.isValidChar at hvalid
      omega
    have hhigh : isHighSurrogate (0xD800 + (c.toNat - 0x10000) / 0x400) := by
      simp only [isHighSurrogate, Bool.and_eq_true, decide_eq_true_eq]
      omega
    have hlow : isLowSurrogate (0xDC00 + (c.toNat - 0x10000) % 0x400) := by
      simp only [isLowSurrogate, Bool.and_eq_true, decide_eq_true_eq]
      omega
    have hunits := scanUnits_pair hhigh hlow position hrest
    rw [joinSurrogates_split hle, hself] at hunits
    rw [hescape]
    exact scanString_units hunits start done

theorem scanString_flatMap (start : Nat) (cs done : List Char) (position : Nat)
    (rest : List Char) :
    scanString start done position (cs.flatMap escapeChar ++ '"' :: rest) =
      .ok (done.reverse ++ cs, position + (cs.flatMap escapeChar).length + 1) := by
  induction cs generalizing done position with
  | nil => simp [scanString]
  | cons c cs ih =>
    rw [List.flatMap_cons, List.append_assoc,
      scanString_escapeChar start done position c (by simp), ih]
    simp [Nat.add_assoc]

/-! ### Tokens -/

/-- A text spells tokens: they are read from it whatever follows, and reading goes
on behind it. -/
def Spells (cs : List Char) (ts : List Token) : Prop :=
  ∀ position rest, ∃ placed : List (Nat × Token), placed.map Prod.snd = ts ∧
    tokens position (cs ++ rest) =
      { tokens (position + cs.length) rest with
        list := placed ++ (tokens (position + cs.length) rest).list }

namespace Spells

variable {cs cs' : List Char} {ts ts' : List Token}

theorem nil : Spells [] [] := fun _ _ => ⟨[], rfl, rfl⟩

theorem append (h : Spells cs ts) (h' : Spells cs' ts') : Spells (cs ++ cs') (ts ++ ts') := by
  intro position rest
  obtain ⟨placed, hplaced, htokens⟩ := h position (cs' ++ rest)
  obtain ⟨placed', hplaced', htokens'⟩ := h' (position + cs.length) rest
  refine ⟨placed ++ placed', by rw [List.map_append, hplaced, hplaced'], ?_⟩
  rw [List.append_assoc, htokens, htokens', List.length_append, Nat.add_assoc]
  simp only [List.append_assoc]

theorem token {c : Char} {t : Token} (hspace : isSpace c = false)
    (h : ∀ position rest, scanToken position c (cs ++ rest) = .ok (t, cs.length)) :
    Spells (c :: cs) [t] := by
  intro position rest
  refine ⟨[(position, t)], rfl, ?_⟩
  rw [List.cons_append, tokens, if_neg (by simp [hspace]), h]
  simp only [List.drop_left, List.length_cons, List.singleton_append]
  rw [Nat.add_right_comm, Nat.add_assoc]

theorem blanks (h : ∀ c ∈ cs, isSpace c) : Spells cs [] := by
  induction cs with
  | nil => exact nil
  | cons c cs ih =>
    intro position rest
    obtain ⟨placed, hplaced, htokens⟩ :=
      ih (fun d hd => h d (List.mem_cons_of_mem _ hd)) (position + 1) rest
    refine ⟨placed, hplaced, ?_⟩
    rw [List.cons_append, tokens, if_pos (h c List.mem_cons_self), htokens, List.length_cons,
      Nat.add_right_comm, Nat.add_assoc]

theorem mark {c : Char} {t : Token} (hspace : isSpace c = false) (h : mark? c = some t) :
    Spells [c] [t] :=
  token hspace fun position rest => by simp [scanToken, h]

theorem cons {c : Char} {t : Token} (hspace : isSpace c = false) (hmark : mark? c = some t)
    (h : Spells cs ts) : Spells (c :: cs) (t :: ts) :=
  (mark hspace hmark).append h

theorem string (s : String) : Spells (stringChars s) [.str s] := by
  have hchars : stringChars s = '"' :: (s.toList.flatMap escapeChar ++ ['"']) := rfl
  rw [hchars]
  refine token (by decide) fun position rest => ?_
  have hscan := scanString_flatMap position s.toList [] (position + 1) rest
  have hlength : position + 1 + (s.toList.flatMap escapeChar).length + 1 - position - 1 =
      (s.toList.flatMap escapeChar ++ ['"']).length := by
    rw [List.length_append, List.length_singleton]
    omega
  have hmark : mark? '"' = none := by decide
  rw [List.append_assoc, List.singleton_append]
  simp only [scanToken, hmark, if_true, hscan, bind, Except.bind, pure, Except.pure,
    List.reverse_nil, List.nil_append, hlength, String.ofList_toList]

end Spells

mutual

def tokenList : Json → List Token
  | str s => [.str s]
  | arr [] => [.openArray, .closeArray]
  | arr (v :: rest) => [.openArray] ++ tokenList v ++ itemTokens rest ++ [.closeArray]
  | obj [] => [.openObject, .closeObject]
  | obj ((k, v) :: rest) =>
    [.openObject] ++ [.str k] ++ [.colon] ++ tokenList v ++ memberTokens rest ++ [.closeObject]
  | v => [.scalar v]

def itemTokens : List Json → List Token
  | [] => []
  | v :: rest => [.comma] ++ tokenList v ++ itemTokens rest

def memberTokens : List (String × Json) → List Token
  | [] => []
  | (k, v) :: rest => [.comma] ++ [.str k] ++ [.colon] ++ tokenList v ++ memberTokens rest

end

mutual

/-- A value without numbers, in which no object has two members of one name. -/
def isPlain : Json → Bool
  | null | bool _ | str _ => true
  | int _ | real _ => false
  | arr items => itemsPlain items
  | obj members => decide (members.map Prod.fst).Nodup && membersPlain members

def itemsPlain : List Json → Bool
  | [] => true
  | v :: rest => isPlain v && itemsPlain rest

def membersPlain : List (String × Json) → Bool
  | [] => true
  | (_, v) :: rest => isPlain v && membersPlain rest

end

namespace Layout

/-- The layouts that put nothing but blanks between the parts of a text: all on one
line, a number of spaces for each level (none, if it is negative), or blanks. -/
inductive Blank : Layout → Prop
  | inline : Blank .inline
  | spaces (n : Int) : Blank (.spaces n)
  | lines {unit : String} : (∀ c ∈ unit.toList, isSpace c) → Blank (.lines unit)

variable {l : Layout}

theorem Blank.lineBreak (h : l.Blank) (level : Nat) : Spells (l.lineBreak level) [] := by
  have hlines : ∀ unit : String, (∀ c ∈ unit.toList, isSpace c) →
      Spells ((Layout.lines unit).lineBreak level) [] := by
    intro unit hunit
    refine .blanks fun c hc => ?_
    rcases List.mem_cons.1 hc with rfl | hc
    · rfl
    · obtain ⟨cs, hcs, hmem⟩ := List.mem_flatten.1 hc
      rw [List.eq_of_mem_replicate hcs] at hmem
      exact hunit c hmem
  cases h with
  | inline => exact .nil
  | spaces n =>
    refine hlines _ fun c hc => ?_
    rw [String.toList_ofList] at hc
    rw [List.eq_of_mem_replicate hc]
    rfl
  | lines hunit => exact hlines _ hunit

theorem Blank.separator (h : l.Blank) (level : Nat) : Spells (l.separator level) [.comma] := by
  cases l with
  | inline => exact .cons rfl rfl (.blanks (List.forall_mem_singleton.2 rfl))
  | lines unit => exact .cons rfl rfl (h.lineBreak level)

end Layout

theorem Spells.member (k : String) {cs : List Char} {ts : List Token} (h : Spells cs ts) :
    Spells (stringChars k ++ [':', ' '] ++ cs) ([.str k] ++ [.colon] ++ ts) := by
  have hcolon : Spells [':', ' '] [.colon] :=
    .cons rfl rfl (.blanks (List.forall_mem_singleton.2 rfl))
  exact ((string k).append hcolon).append h

section

variable {l : Layout} (hl : l.Blank)
include hl

mutual

theorem spells_chars (level : Nat) : (v : Json) → v.isPlain → Spells (chars l level v) v.tokenList
  | null, _ => .token (by decide) fun _ _ => rfl
  | bool true, _ => .token (by decide) fun _ _ => rfl
  | bool false, _ => .token (by decide) fun _ _ => rfl
  | int _, h => by simp [isPlain] at h
  | real _, h => by simp [isPlain] at h
  | str s, _ => .string s
  | arr [], _ => .cons rfl rfl (.mark rfl rfl)
  | arr (v :: rest), h => by
    simp only [isPlain, itemsPlain, Bool.and_eq_true] at h
    have hopen : Spells ('[' :: l.lineBreak (level + 1)) [.openArray] :=
      .cons rfl rfl (hl.lineBreak (level + 1))
    have hclose : Spells (l.lineBreak level ++ [']']) [.closeArray] :=
      (hl.lineBreak level).append (.mark rfl rfl)
    have hitems := (hopen.append (spells_chars (level + 1) v h.1)).append
      (spells_itemChars (level + 1) rest h.2)
    simpa only [chars, tokenList, List.append_assoc] using hitems.append hclose
  | obj [], _ => .cons rfl rfl (.mark rfl rfl)
  | obj ((k, v) :: rest), h => by
    simp only [isPlain, membersPlain, Bool.and_eq_true] at h
    have hopen : Spells ('\x7b' :: l.lineBreak (level + 1)) [.openObject] :=
      .cons rfl rfl (hl.lineBreak (level + 1))
    have hclose : Spells (l.lineBreak level ++ ['\x7d']) [.closeObject] :=
      (hl.lineBreak level).append (.mark rfl rfl)
    have hmembers := (hopen.append (.member k (spells_chars (level + 1) v h.2.1))).append
      (spells_memberChars (level + 1) rest h.2.2)
    simpa only [chars, tokenList, List.append_assoc] using hmembers.append hclose

theorem spells_itemChars (level : Nat) : (items : List Json) → itemsPlain items →
    Spells (itemChars l level items) (itemTokens items)
  | [], _ => .nil
  | v :: rest, h => by
    simp only [itemsPlain, Bool.and_eq_true] at h
    exact ((hl.separator level).append (spells_chars level v h.1)).append
      (spells_itemChars level rest h.2)

theorem spells_memberChars (level : Nat) : (members : List (String × Json)) →
    membersPlain members → Spells (memberChars l level members) (memberTokens members)
  | [], _ => .nil
  | (k, v) :: rest, h => by
    simp only [membersPlain, Bool.and_eq_true] at h
    have hmember := (hl.separator level).append (.member k (spells_chars level v h.1))
    simpa only [memberChars, memberTokens, List.append_assoc] using
      hmember.append (spells_memberChars level rest h.2)

end

end

/-! ### Values -/

namespace Reader

def feed (r : Reader) (ts : List Token) : Option Reader := ts.foldlM step? r

theorem feed_cons {r r' : Reader} {t : Token} (h : r.step? t = some r') (ts : List Token) :
    r.feed (t :: ts) = r'.feed ts := by
  simp [feed, h]

theorem foldlM_step {r r' : Reader} {placed : List (Nat × Token)}
    (h : r.feed (placed.map Prod.snd) = some r') : placed.foldlM step r = .ok r' := by
  induction placed generalizing r with
  | nil =>
    obtain rfl : r = r' := by simpa [feed] using h
    rfl
  | cons token rest ih =>
    cases hstep : r.step? token.2 with
    | none => simp [feed, hstep] at h
    | some next =>
      rw [List.map_cons, feed_cons hstep] at h
      have hnext : r.step token = .ok next := by rw [step, hstep]
      rw [List.foldlM_cons, hnext]
      exact ih h

end Reader

theorem put_of_not_mem {key : String} (value : Json) {members : List (String × Json)}
    (h : key ∉ members.map Prod.fst) : put key value members = members ++ [(key, value)] := by
  induction members with
  | nil => rfl
  | cons member rest ih =>
    obtain ⟨k, v⟩ := member
    rw [List.map_cons, List.mem_cons, not_or] at h
    rw [put, if_neg (Ne.symm h.1), ih h.2]
    rfl

mutual

theorem feed_tokenList (outer : List Open) (mayClose : Bool) (ts : List Token) :
    (v : Json) → v.isPlain →
      (Reader.value outer mayClose).feed (v.tokenList ++ ts) = (Reader.after outer v).feed ts
  | null, _ | bool _, _ | str _, _ | arr [], _ | obj [], _ => rfl
  | int _, h => by simp [isPlain] at h
  | real _, h => by simp [isPlain] at h
  | arr (v :: rest), h => by
    simp only [isPlain, itemsPlain, Bool.and_eq_true] at h
    simp only [tokenList, List.append_assoc, List.cons_append, List.nil_append]
    rw [Reader.feed_cons rfl, feed_tokenList _ true _ v h.1, feed_itemTokens _ _ v ts rest h.2]
    rfl
  | obj ((k, v) :: rest), h => by
    simp only [isPlain, membersPlain, Bool.and_eq_true, decide_eq_true_eq] at h
    simp only [tokenList, List.append_assoc, List.cons_append, List.nil_append]
    rw [Reader.feed_cons rfl, Reader.feed_cons rfl, Reader.feed_cons rfl,
      feed_tokenList _ false _ v h.2.1, feed_memberTokens _ [] k v ts rest h.1 h.2.2]
    rfl

theorem feed_itemTokens (outer : List Open) (items : List Json) (v : Json) (ts : List Token) :
    (rest : List Json) → itemsPlain rest →
      (Reader.after (.array items :: outer) v).feed (itemTokens rest ++ .closeArray :: ts) =
        (Reader.after outer (.arr (items.reverse ++ v :: rest))).feed ts
  | [], _ => by
    rw [itemTokens, List.nil_append, Reader.feed_cons rfl, List.reverse_cons]
  | w :: rest, h => by
    simp only [itemsPlain, Bool.and_eq_true] at h
    simp only [itemTokens, List.append_assoc, List.cons_append, List.nil_append]
    rw [Reader.feed_cons rfl, feed_tokenList _ false _ w h.1, feed_itemTokens _ _ w ts rest h.2,
      List.reverse_cons, List.append_assoc]
    rfl

theorem feed_memberTokens (outer : List Open) (members : List (String × Json)) (k : String)
    (v : Json) (ts : List Token) : (rest : List (String × Json)) →
      ((members ++ (k, v) :: rest).map Prod.fst).Nodup → membersPlain rest →
      (Reader.after (.member members k :: outer) v).feed (memberTokens rest ++ .closeObject :: ts) =
        (Reader.after outer (.obj (members ++ (k, v) :: rest))).feed ts
  | [], hkeys, _ => by
    have hnew : k ∉ members.map Prod.fst := by
      rw [List.map_append, List.nodup_append] at hkeys
      exact fun hk => hkeys.2.2 k hk k (by simp) rfl
    rw [memberTokens, List.nil_append, Reader.feed_cons rfl, put_of_not_mem v hnew]
  | (k', w) :: rest, hkeys, h => by
    have hnew : k ∉ members.map Prod.fst := by
      rw [List.map_append, List.nodup_append] at hkeys
      exact fun hk => hkeys.2.2 k hk k (by simp) rfl
    have happend : members ++ (k, v) :: (k', w) :: rest =
        (members ++ [(k, v)]) ++ (k', w) :: rest := by simp
    simp only [membersPlain, Bool.and_eq_true] at h
    simp only [memberTokens, List.append_assoc, List.cons_append, List.nil_append]
    rw [Reader.feed_cons rfl, Reader.feed_cons rfl, Reader.feed_cons rfl,
      feed_tokenList _ false _ w h.1, put_of_not_mem v hnew,
      feed_memberTokens outer _ k' w ts rest (happend ▸ hkeys) h.2, ← happend]

end

theorem head?_chars_ne (l : Layout) (level : Nat) {v : Json} (hv : v.isPlain) :
    (chars l level v).head? ≠ some (Char.ofNat 0xFEFF) := by
  cases v with
  | int | real => simp [isPlain] at hv
  | bool b => cases b <;> simp [chars]
  | arr items => cases items <;> simp [chars]
  | obj members => cases members <;> simp [chars]
  | null => simp [chars]
  | str s => simp [chars, stringChars]

/-- A value without numbers is read back from its written form, whatever the
blanks between its parts. -/
theorem read_chars {l : Layout} (hl : l.Blank) {v : Json} (hv : v.isPlain) :
    read (chars l 0 v) = .ok v := by
  obtain ⟨placed, hplaced, htokens⟩ := spells_chars hl 0 v hv 0 []
  have hfeed : (Reader.value [] false).feed (placed.map Prod.snd) = some (.after [] v) := by
    rw [hplaced, ← List.append_nil v.tokenList, feed_tokenList [] false [] v hv]
    rfl
  rw [List.append_nil] at htokens
  rw [read, if_neg (head?_chars_ne l 0 hv), htokens]
  simp only [tokens, List.append_nil, Reader.foldlM_step hfeed]
  rfl

end DefiniteAssignment.Json
