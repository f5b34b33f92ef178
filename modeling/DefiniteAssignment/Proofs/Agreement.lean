import DefiniteAssignment.Command.Check
import DefiniteAssignment.Proofs.Caching
import DefiniteAssignment.Proofs.Newlines

/-! Two ways to check a text. A file is decoded and its line breaks are unified before
it is read; an editor sends the text as it is. Both find no problems in the same texts. -/
namespace DefiniteAssignment

namespace Text.Utf8

theorem lead?_one {n : Nat} (h : n < 0x80) : lead? n = some ⟨0, 0x80, 0xBF, n⟩ := if_pos h

theorem lead?_two {n : Nat} (hlow : 0xC2 ≤ n) (hhigh : n < 0xE0) :
    lead? n = some ⟨1, 0x80, 0xBF, n - 0xC0⟩ := by
  rw [lead?, if_neg (by omega), if_neg (by omega), if_pos hhigh]

theorem lead?_three {n m : Nat} (hlow : 0xE0 ≤ n) (hhigh : n < 0xF0) (hm : 0x80 ≤ m ∧ m ≤ 0xBF)
    (hfirst : n = 0xE0 → 0xA0 ≤ m) (hlast : n = 0xED → m ≤ 0x9F) :
    ∃ low high, lead? n = some ⟨2, low, high, n - 0xE0⟩ ∧ low ≤ m ∧ m ≤ high := by
  rw [lead?, if_neg (by omega), if_neg (by omega), if_neg (by omega)]
  split
  · rename_i hn
    exact ⟨0xA0, 0xBF, by rw [hn], hfirst hn, hm.2⟩
  · split
    · rename_i hn
      exact ⟨0x80, 0x9F, by rw [hn], hm.1, hlast hn⟩
    · exact ⟨0x80, 0xBF, rfl, hm⟩

theorem lead?_four {n m : Nat} (hlow : 0xF0 ≤ n) (hhigh : n ≤ 0xF4) (hm : 0x80 ≤ m ∧ m ≤ 0xBF)
    (hfirst : n = 0xF0 → 0x90 ≤ m) (hlast : n = 0xF4 → m ≤ 0x8F) :
    ∃ low high, lead? n = some ⟨3, low, high, n - 0xF0⟩ ∧ low ≤ m ∧ m ≤ high := by
  rw [lead?, if_neg (by omega), if_neg (by omega), if_neg (by omega), if_neg (by omega),
    if_neg (by omega), if_neg (by omega)]
  split
  · rename_i hn
    exact ⟨0x90, 0xBF, by rw [hn], hfirst hn, hm.2⟩
  · split
    · exact ⟨0x80, 0xBF, rfl, hm⟩
    · have hn : n = 0xF4 := by omega
      exact ⟨0x80, 0x8F, by rw [if_pos hn, hn], hm.1, hlast hn⟩

theorem finish_cons {owed low high bits taken n : Nat} {rest : List UInt8} (hn : n < 256)
    (h : low ≤ n ∧ n ≤ high) :
    finish (owed + 1) low high bits taken (UInt8.ofNat n :: rest) =
      finish owed 0x80 0xBF (bits * 64 + (n - 0x80)) (taken + 1) rest := by
  rw [finish, UInt8.toNat_ofNat_of_lt' hn, if_pos h]

theorem decodeFrom_cons {position n owed low high bits code : Nat} {bytes rest : List UInt8}
    (hn : n < 256) (hlead : lead? n = some ⟨owed, low, high, bits⟩) (hlength : bytes.length = owed)
    (hfinish : finish owed low high bits 1 (bytes ++ rest) = .ok code) :
    decodeFrom position (UInt8.ofNat n :: bytes ++ rest) =
      (decodeFrom (position + (UInt8.ofNat n :: bytes).length) rest).map (Char.ofNat code :: ·) := by
  have hposition : position + (UInt8.ofNat n :: bytes).length = position + 1 + owed := by
    rw [List.length_cons]
    omega
  have hdrop : (bytes ++ rest).drop owed = rest := hlength ▸ List.drop_left
  rw [List.cons_append, decodeFrom, UInt8.toNat_ofNat_of_lt' hn, hlead]
  simp only [hfinish, hdrop, hposition]
  cases decodeFrom (position + 1 + owed) rest <;> rfl

theorem decodeFrom_utf8EncodeChar (c : Char) (position : Nat) (rest : List UInt8) :
    decodeFrom position (String.utf8EncodeChar c ++ rest) =
      (decodeFrom (position + (String.utf8EncodeChar c).length) rest).map (c :: ·) := by
  have hvalid : c.val.toNat < 0xD800 ∨ 0xDFFF < c.val.toNat ∧ c.val.toNat < 0x110000 := c.valid
  have hc : Char.ofNat c.val.toNat = c := Char.ofNat_toNat c
  unfold String.utf8EncodeChar
  dsimp only
  generalize c.val.toNat = v at hvalid hc
  subst hc
  split
  · exact decodeFrom_cons (by omega) (lead?_one (by omega)) rfl rfl
  split
  · refine decodeFrom_cons (by omega) (lead?_two (by omega) (by omega)) rfl ?_
    rw [List.singleton_append, finish_cons (by omega) (by omega), finish]
    exact congrArg Except.ok (by omega)
  split
  · obtain ⟨low, high, hlead, hsecond⟩ :=
      lead?_three (n := v / 4096 % 16 + 224) (m := v / 64 % 64 + 128) (by omega) (by omega) (by omega)
        (by omega) (by omega)
    refine decodeFrom_cons (by omega) hlead rfl ?_
    rw [List.cons_append, List.singleton_append, finish_cons (by omega) hsecond,
      finish_cons (by omega) (by omega), finish]
    exact congrArg Except.ok (by omega)
  · obtain ⟨low, high, hlead, hsecond⟩ :=
      lead?_four (n := v / 262144 % 8 + 240) (m := v / 4096 % 64 + 128) (by omega) (by omega) (by omega)
        (by omega) (by omega)
    refine decodeFrom_cons (by omega) hlead rfl ?_
    rw [List.cons_append, List.cons_append, List.singleton_append, finish_cons (by omega) hsecond,
      finish_cons (by omega) (by omega), finish_cons (by omega) (by omega), finish]
    exact congrArg Except.ok (by omega)

theorem decode_toUTF8 (text : String) : decode text.toUTF8.data.toList = .ok text.toList := by
  have hbytes : text.toUTF8.data.toList = text.toList.flatMap String.utf8EncodeChar := by
    rw [String.toUTF8, ← String.utf8Encode_toList, List.utf8Encode, List.toList_data_toByteArray]
  have hdecode : ∀ (cs : List Char) (position : Nat),
      decodeFrom position (cs.flatMap String.utf8EncodeChar) = .ok cs := by
    intro cs
    induction cs with
    | nil =>
      intro position
      rw [List.flatMap_nil, decodeFrom]
    | cons c cs ih =>
      intro position
      rw [List.flatMap_cons, decodeFrom_utf8EncodeChar, ih]
      rfl
  rw [decode, hbytes, hdecode]

end Text.Utf8

namespace Program

theorem parse_eq_ok_iff {text : String} {p : Program} :
    parse text = .ok p ↔ ∃ v, Json.read text.toList = .ok v ∧ ofJson v = .ok p := by
  unfold parse Json.parse
  cases Json.read text.toList with
  | error fault => simp [bind, Except.bind]
  | ok v => cases hload : ofJson v <;> simp [bind, Except.bind, hload]

theorem parse_unifyNewlines {text : String} {p : Program} :
    parse (String.ofList (Text.unifyNewlines text.toList)) = .ok p ↔ parse text = .ok p := by
  simp only [parse_eq_ok_iff, String.toList_ofList, Json.read_unifyNewlines]

end Program

namespace Command

variable {lookup : Lookup} {path text : String}

theorem readProgram_eq_ok_iff {p : Program} (h : lookup path = .ok text.toUTF8.data.toList) :
    readProgram lookup path = .ok p ↔ Program.parse text = .ok p := by
  have htext : readText lookup path = .ok (String.ofList (Text.unifyNewlines text.toList)) := by
    rw [readText, h]
    simp only [Text.Utf8.decode_toUTF8]
  rw [← Program.parse_unifyNewlines, readProgram, htext]
  simp only [bind, Except.bind, parse]
  cases Program.parse (String.ofList (Text.unifyNewlines text.toList)) with
  | error e =>
    change Except.error (Error.read e) = Except.ok p ↔ _
    simp
  | ok q =>
    change Except.ok q = Except.ok p ↔ _
    simp

theorem result_after {α : Type} (out err : String) (c : Console α) :
    (c.after out err).result = c.result := rfl

theorem result_checkFile_eq_ok_zero_iff (h : lookup path = .ok text.toUTF8.data.toList) (o : Options)
    (t : Times) :
    (checkFile lookup o t path).result = .ok 0 ↔
      ∃ p, Program.parse text = .ok p ∧ p.problems = .ok [] := by
  have hhas : lookup.has path = .ok true := by rw [Lookup.has, h]
  simp only [← readProgram_eq_ok_iff h]
  unfold checkFile
  rw [hhas]
  cases readProgram lookup path with
  | error e =>
    dsimp only
    split <;> simp [Console.done, Console.fail]
  | ok p =>
    simp only [Except.ok.injEq, exists_eq_left', Program.problems]
    rcases ({} : Analysis).check p.body with ⟨a, _ | failure⟩
    · simp only [result_after, Console.done, Except.ok.injEq]
      split <;> simp_all
    · simp [result_after, Console.fail]

end Command

namespace Editor.Session

variable {τ κ : Type} [Digest κ]

theorem published_analyze_eq_nil_iff (s : Session τ κ) (uri text : String) :
    (s.analyze checker uri text).2.published = [⟨uri, []⟩] ↔
      ∃ p, Program.parse text = .ok p ∧ p.problems = .ok [] := by
  unfold analyze
  cases Program.parse text with
  | error e =>
    dsimp only
    split <;> simp [Reply.publish]
  | ok p =>
    simp only [Except.ok.injEq, exists_eq_left', ← checker_eq_ok_iff]
    cases checker p with
    | error message => simp [Reply.publish]
    | ok problems => simp [Reply.publish, diagnose]

/-- The check of a file succeeds exactly if an editor shows nothing about the text of
the file, where no result is known for the document; for unified line breaks change
neither whether a text holds a program nor which. -/
theorem checkFile_eq_zero_iff_validate_eq_nil [DecidableEq κ] {s : Session τ κ} {uri : String}
    {lookup : Lookup} {path text : String}
    (hfile : lookup path = .ok text.toUTF8.data.toList) (o : Command.Options) (t : Command.Times)
    (hcache : s.cache.get? uri = none) (force : Bool) :
    ((Command.checkFile lookup o t path).result = .ok 0 ↔
        (s.validate checker uri text force).2.published = [⟨uri, []⟩]) ∧
      ∀ p, Program.parse (String.ofList (Text.unifyNewlines text.toList)) = .ok p ↔
        Program.parse text = .ok p := by
  refine ⟨?_, fun p => Program.parse_unifyNewlines⟩
  have hknown : s.cached? uri text = none := by rw [cached?, hcache, Option.bind_none]
  rw [validate_of_not_cached hknown, published_analyze_eq_nil_iff,
    Command.result_checkFile_eq_ok_zero_iff hfile]

def threefold : String := "[\r\n\r\x7b\"type\":\r\"VariableDeclaration\",\n\"name\":\"x\"\x7d]\r"

def threefoldFile : Lookup := fun _ => .ok threefold.toUTF8.data.toList

theorem checkFile_eq_zero_iff_validate_eq_nil_threefold :
    threefoldFile "a.json" = .ok threefold.toUTF8.data.toList ∧
      (fresh Float).cache.get? "a" = none ∧
      ((fresh Float).validate checker "a" threefold false).2.published = [⟨"a", []⟩] ∧
      (Command.checkFile threefoldFile {} ⟨0, 0, 0, fun _ => 0⟩ "a.json").result = .ok 0 ∧
      Program.parse (String.ofList (Text.unifyNewlines threefold.toList)) =
        .ok ⟨[.declare "x"]⟩ := by
  have hfile : threefoldFile "a.json" = .ok threefold.toUTF8.data.toList := rfl
  have hcache : (fresh Float).cache.get? "a" = none := rfl
  have hparse : Program.parse threefold = .ok ⟨[.declare "x"]⟩ := by decide +kernel
  have hproblems : Program.problems ⟨[.declare "x"]⟩ = .ok [] :=
    Program.problems_eq_sweep (n := 2) rfl rfl
  have hshown : ((fresh Float).validate checker "a" threefold false).2.published = [⟨"a", []⟩] := by
    rw [validate_of_not_cached rfl, published_analyze_eq_nil_iff]
    exact ⟨_, hparse, hproblems⟩
  obtain ⟨hagree, hnewlines⟩ :=
    checkFile_eq_zero_iff_validate_eq_nil hfile {} ⟨0, 0, 0, fun _ => 0⟩ hcache false
  exact ⟨hfile, hcache, hshown, hagree.2 hshown, (hnewlines _).2 hparse⟩

end Editor.Session

end DefiniteAssignment
