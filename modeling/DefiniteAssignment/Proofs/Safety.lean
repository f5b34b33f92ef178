import DefiniteAssignment.Program.Data
import DefiniteAssignment.Proofs.Language
import DefiniteAssignment.Proofs.Relocation

/-! Checks that cannot fail. Data gives rise to statements of the language only,
and a program of the language is walked to its end whatever was checked before:
no statement or contract is unknown, and no place is looked up that is not
there. -/
namespace DefiniteAssignment

namespace Stmt

mutual

theorem inLanguage_of_ofJson {s : Stmt} : (v : Json) → ofJson v = .ok s → s.inLanguage = true
  | .obj members, h => by
    simp only [ofJson] at h
    cases hkind : loadKind members with
    | error e => simp [hkind, bind, Except.bind] at h
    | ok kind =>
      cases hname : loadName kind members with
      | error e => simp [hkind, hname, bind, Except.bind] at h
      | ok name =>
        simp only [hkind, hname, bind, Except.bind, pure, Except.pure] at h
        cases kind with
        | function =>
          cases hbody : bodyMember members with
          | error e => simp [hbody] at h
          | ok body =>
            obtain rfl : function name body = s := by simpa [hbody] using h
            exact allInLanguage_of_bodyMember members hbody
        | call =>
          cases hconditional : loadConditional members with
          | error e => simp [hconditional] at h
          | ok conditional =>
            obtain rfl : call name conditional = s := by simpa [hconditional] using h
            rfl
        | _ =>
          cases h
          rfl
  | .null, h | .bool _, h | .int _, h | .real _, h | .str _, h | .arr _, h => by
    simp [ofJson] at h

theorem allInLanguage_of_bodyMember {b : List Stmt} :
    (members : List (String × Json)) → bodyMember members = .ok b → allInLanguage b = true
  | [], h => by
    cases h
    rfl
  | (key, v) :: rest, h => by
    simp only [bodyMember] at h
    split at h
    · exact allInLanguage_of_body v h
    · exact allInLanguage_of_bodyMember rest h

theorem allInLanguage_of_body {b : List Stmt} :
    (v : Json) → body v = .ok b → allInLanguage b = true
  | .arr items, h => allInLanguage_of_listOfJson items h
  | .null, h | .bool _, h | .int _, h | .real _, h | .str _, h | .obj _, h => by
    simp [body] at h

theorem allInLanguage_of_listOfJson {b : List Stmt} :
    (items : List Json) → listOfJson items = .ok b → allInLanguage b = true
  | [], h => by
    cases h
    rfl
  | v :: rest, h => by
    simp only [listOfJson] at h
    cases hv : ofJson v with
    | error e => simp [hv, bind, Except.bind] at h
    | ok s =>
      cases hrest : listOfJson rest with
      | error e => simp [hv, hrest, bind, Except.bind] at h
      | ok l =>
        obtain rfl : s :: l = b := by
          simpa [hv, hrest, bind, Except.bind, pure, Except.pure] using h
        have hs := inLanguage_of_ofJson v hv
        have hl := allInLanguage_of_listOfJson rest hrest
        simp [allInLanguage, hs, hl]

end

end Stmt

namespace Program

theorem inLanguage_of_ofJson {v : Json} {p : Program} (h : ofJson v = .ok p) : p.InLanguage := by
  unfold ofJson at h
  split at h
  · rename_i items
    cases hitems : Stmt.listOfJson items with
    | error e => simp [hitems, Functor.map, Except.map] at h
    | ok body =>
      obtain rfl : Program.mk body = p := by simpa [hitems, Functor.map, Except.map] using h
      exact Stmt.allInLanguage_of_listOfJson items hitems
  · rename_i members
    split at h
    · cases hbody : Stmt.bodyMember members with
      | error e => simp [hbody, Functor.map, Except.map] at h
      | ok body =>
        obtain rfl : Program.mk body = p := by simpa [hbody, Functor.map, Except.map] using h
        exact Stmt.allInLanguage_of_bodyMember members hbody
    · simp at h
  · simp at h

theorem inLanguage_of_parse {text : String} {p : Program} (h : parse text = .ok p) :
    p.InLanguage := by
  unfold parse at h
  cases hv : Json.parse text with
  | error e => simp [hv, bind, Except.bind] at h
  | ok v =>
    simp only [hv, bind, Except.bind] at h
    split at h
    · rename_i q hq
      obtain rfl : q = p := by simpa using h
      exact inLanguage_of_ofJson hq
    · simp at h

end Program

namespace Machine

/-- A machine that no fault can stop in its next step. It has not failed; every
frame stands at a position of its body, or at the end of it; a call to be
completed meets known contracts only and leads to scopes of the arena only; and that a
body does not return is found by the completion of a call, which marks its scope and
takes its frame off the stack, nothing else. -/
structure Sound (m : Machine) : Prop where
  running : m.failure = none
  position : ∀ f ∈ m.stack, ∃ k ≤ (m.analysis.scope f.scope).body.length,
    f.rest = (m.analysis.scope f.scope).body.drop k
  known : ∀ i j c, m.completes? = some (i, j, c) →
    ∀ e ∈ (m.analysis.scope j).contracts.entries, ∀ mark, e.2 ≠ .alien mark
  inside : ∀ i j c, m.completes? = some (i, j, c) →
    ∀ k ∈ j :: (m.analysis.scope j).always, k < m.analysis.scopes.size
  caught : ∀ f below, m.stack = f :: below → (f.advance m.analysis).2.2 = .unreachable →
    ∃ j c, m.completes? = some (f.scope, j, c) ∧
      (m.analysis.completed f.scope j c).isRecursive f.scope = true ∧
      m.step = ⟨m.analysis.completed f.scope j c, below, none⟩

variable {m : Machine}

theorem completes?_cases {i j : Nat} {c : Bool} (h : m.completes? = some (i, j, c)) :
    ∃ f below, m.stack = f :: below ∧ f.scope = i ∧ f.completes? m.analysis = some (j, c) := by
  unfold completes? at h
  split at h
  · simp at h
  · rename_i f below hs
    obtain ⟨call, hcall, heq⟩ := Option.map_eq_some_iff.1 h
    obtain ⟨rfl, rfl⟩ : f.scope = i ∧ call = (j, c) := by simpa using heq
    exact ⟨f, below, hs, rfl, hcall⟩

theorem completes_of_unreachable {f : Frame} {a : Analysis}
    (h : (f.advance a).2.2 = .unreachable) : ∃ call, f.completes? a = some call := by
  obtain ⟨i, rest, pending⟩ := f
  cases pending with
  | some call => exact ⟨call, rfl⟩
  | none =>
    cases rest with
    | nil => cases h
    | cons s rest =>
      cases s with
      | call g c =>
        cases hlookup : a.lookup i g with
        | none => simp [Frame.advance, Analysis.dispatch, Analysis.resolveCall, hlookup] at h
        | some j =>
          cases hentered : (a.scope j).entered with
          | true => exact ⟨(j, c), by simp [Frame.completes?, hlookup, hentered]⟩
          | false =>
            simp [Frame.advance, Analysis.dispatch, Analysis.resolveCall, hlookup, hentered] at h
      | declare _ | assign _ | print _ | function _ _ | bare | block _ => cases h

theorem Valid.sound (hv : m.Valid) (hok : m.failure = none) : m.Sound where
  running := hok
  position f hf := by
    have hsuffix := (hv.fits f hf).rest
    exact ⟨_, Nat.sub_le _ _, List.suffix_iff_eq_drop.1 hsuffix⟩
  known i j c hc := hv.nested.entries_known j
  inside i j c hc k hk := by
    obtain ⟨f, below, hs, _, hcompletes⟩ := completes?_cases hc
    have hj := ((hv.fits f (by simp [hs])).completes hcompletes).1
    rcases List.mem_cons.1 hk with rfl | hk
    · exact Analysis.lt_size_of_entered hj
    · exact hv.nested.inside j k hk
  caught f below hs hsignal := by
    obtain ⟨⟨j, c⟩, hcompletes⟩ := completes_of_unreachable hsignal
    rw [advance_of_completes hv (hs ▸ List.mem_cons_self) hcompletes] at hsignal
    have hrecursive : (m.analysis.completed f.scope j c).isRecursive f.scope = true := by
      by_contra hreturns
      simp [hreturns] at hsignal
    refine ⟨j, c, by rw [completes?, hs]; simp [hcompletes], hrecursive, ?_⟩
    rw [step_of_completes hv hs hcompletes, if_pos hrecursive]

end Machine

namespace Analysis

def ChecksSafely (a : Analysis) (body : List Stmt) : Prop :=
  (∃ b, a.check body = (b, none)) ∧ ∀ n, ((a.opening body).after n).Sound

theorem checksSafely_of_allInLanguage {a : Analysis} (h : a.WellNested) {body : List Stmt}
    (hin : Stmt.allInLanguage body) : a.ChecksSafely body := by
  -- Earlier checks may have met statements outside the language: the moved check has not.
  have hfresh : ∀ n, ((({} : Analysis).opening body).after n).failure = none := fun n =>
    (Machine.inLanguage_after (WellNested.empty.opening body) (inLanguage_opening hin) rfl n).2
  have hok : ∀ n, ((a.opening body).after n).failure = none := by
    intro n
    have hfailure := (carries_followedBy h body n).failure
    rwa [hfresh, Option.map_id] at hfailure
  have hvalid := fun n => (h.opening body).after n
  refine ⟨?_, fun n => (hvalid n).sound (hok n)⟩
  obtain ⟨n, _, hend⟩ := (a.opening body).exists_run_eq
  rw [check_eq_of_stack_nil hend, hok n]
  exact ⟨_, Prod.ext rfl (sweep_eq_none _ _ ((hvalid n).nested.entries_known _))⟩

/-- No error branch is reached by a program of the language, in particular by one
that was read from a text, in an analysis that is fresh or was used before. -/
theorem check_succeeds {a : Analysis} (h : a.Reached) :
    (∀ body, Stmt.allInLanguage body → a.ChecksSafely body) ∧
      ∀ text p, Program.parse text = .ok p → a.ChecksSafely p.body :=
  ⟨fun _ hin => checksSafely_of_allInLanguage h.wellNested hin, fun _ _ hp =>
    checksSafely_of_allInLanguage h.wellNested (Program.inLanguage_of_parse hp)⟩

theorem check_succeeds_interrupted : interrupted.Reached ∧ Stmt.allInLanguage circular ∧
    Program.parse "[\x7b\"type\":\"PrintVariable\",\"name\":\"x\"\x7d]" = .ok ⟨[.print "x"]⟩ ∧
    interrupted.ChecksSafely circular ∧ interrupted.ChecksSafely [.print "x"] := by
  have hreached : interrupted.Reached := .check .empty _
  have hparse : Program.parse "[\x7b\"type\":\"PrintVariable\",\"name\":\"x\"\x7d]" =
      .ok ⟨[.print "x"]⟩ := by decide +kernel
  exact ⟨hreached, rfl, hparse, (check_succeeds hreached).1 circular rfl,
    (check_succeeds hreached).2 _ _ hparse⟩

end Analysis

end DefiniteAssignment
