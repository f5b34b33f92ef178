import DefiniteAssignment.Editor.Session
import DefiniteAssignment.Proofs.Report

/-! The results that a session keeps. A result stands beside the digest of the
text in which its problems were found, whatever happened to the document since; so
where digests tell texts apart, a validation that takes it shows what a new analysis of
the text would show. -/
namespace DefiniteAssignment.Editor

def findings (check : Checker) (text : String) : Option (List Problem) :=
  match Program.parse text with
  | .ok program => (check program).toOption
  | .error _ => none

theorem findings_of_parse {text : String} {p : Program} {problems : List Problem}
    (hparse : Program.parse text = .ok p) (hproblems : p.problems = .ok problems) :
    findings checker text = some problems := by
  simp [findings, hparse, checker_eq_ok_iff.2 hproblems, Except.toOption]

namespace Session

variable {τ κ : Type} {check : Checker} {s : Session τ κ} {uri text : String}
  {problems : List Problem}

theorem exists_start_eq (s : Session τ κ) (options : Json) :
    ∃ settings, (s.start options).1 = { s with settings } ∧ (s.start options).2.published = [] := by
  unfold start
  split
  · exact ⟨_, rfl, rfl⟩
  · exact ⟨s.settings, rfl, rfl⟩

theorem exists_configure_eq (s : Session τ κ) (options : Json) :
    ∃ settings, (s.configure options).1 = { s with settings } ∧
      (s.configure options).2.published = [] := by
  unfold configure
  split
  · split
    · exact ⟨_, rfl, rfl⟩
    · exact ⟨s.settings, rfl, rfl⟩
  · exact ⟨s.settings, rfl, rfl⟩

theorem exists_cancel_eq (s : Session τ κ) (uri : String) :
    ∃ p, s.cancel uri = { s with sleepers := s.sleepers.filter p } := by
  unfold cancel
  split
  · exact ⟨fun _ => true, by rw [List.filter_eq_self.2 fun _ _ => rfl]⟩
  · exact ⟨_, rfl⟩

theorem cache_cancel (s : Session τ κ) (uri : String) : (s.cancel uri).cache = s.cache := by
  obtain ⟨p, hp⟩ := exists_cancel_eq s uri
  rw [hp]

theorem documents_cancel (s : Session τ κ) (uri : String) :
    (s.cancel uri).documents = s.documents := by
  obtain ⟨p, hp⟩ := exists_cancel_eq s uri
  rw [hp]

section Analysis

variable [Digest κ]

theorem analyze_fst (s : Session τ κ) (uri text : String) :
    (s.analyze check uri text).1 =
      match findings check text with
      | some problems => { s with cache := s.cache.insert uri ⟨Digest.ofText text, problems⟩ }
      | none => s := by
  unfold analyze findings
  cases Program.parse text with
  | error e =>
    dsimp only
    split <;> rfl
  | ok program =>
    dsimp only
    cases check program <;> rfl

theorem analyze_snd (s t : Session τ κ) (uri text : String) :
    (s.analyze check uri text).2 = (t.analyze check uri text).2 := by
  unfold analyze
  cases Program.parse text with
  | error e =>
    dsimp only
    split <;> rfl
  | ok program =>
    dsimp only
    cases check program <;> rfl

theorem analyze_snd_of_findings (h : findings check text = some problems) (s : Session τ κ)
    (uri : String) :
    ∃ logs, (s.analyze check uri text).2 = Reply.publish uri (diagnose text problems) logs := by
  unfold findings at h
  unfold analyze
  cases hparse : Program.parse text with
  | error e => simp [hparse] at h
  | ok program =>
    simp only [hparse] at h
    cases hcheck : check program with
    | error message => simp [hcheck, Except.toOption] at h
    | ok found =>
      obtain rfl : found = problems := by simpa [hcheck, Except.toOption] using h
      simp only [hcheck]
      exact ⟨_, rfl⟩

/-- Each result holds the problems of some text, and the digest of this text. -/
def Faithful (check : Checker) (cache : Table (Result κ)) : Prop :=
  ∀ uri r, cache.get? uri = some r →
    ∃ text, r.digest = Digest.ofText text ∧ findings check text = some r.problems

theorem Faithful.insert (h : Faithful check s.cache)
    (hfindings : findings check text = some problems) :
    Faithful check (s.cache.insert uri ⟨Digest.ofText text, problems⟩) := by
  intro v r hr
  rw [Table.get?_insert] at hr
  split at hr
  · obtain rfl := Option.some.inj hr
    exact ⟨text, rfl, hfindings⟩
  · exact h v r hr

theorem Faithful.erase (h : Faithful check s.cache) : Faithful check (s.cache.erase uri) := by
  intro v r hr
  rw [Table.get?_erase] at hr
  split at hr
  · simp at hr
  · exact h v r hr

theorem Faithful.closeDocument (h : Faithful check s.cache) :
    Faithful check (s.closeDocument uri).1.cache :=
  erase ((cache_cancel s uri).symm ▸ h)

end Analysis

variable [DecidableEq κ] [Digest κ]

theorem validate_false_of_cached (check : Checker) (h : s.cached? uri text = some problems) :
    ∃ logs, s.validate check uri text false =
      (s, Reply.publish uri (diagnose text problems) logs) := by
  unfold validate
  simp only [h]
  exact ⟨_, rfl⟩

theorem validate_of_not_cached (h : s.cached? uri text = none) (force : Bool) :
    s.validate check uri text force = s.analyze check uri text := by
  cases force <;> simp [validate, h]

theorem exists_validate_eq_of_findings (s : Session τ κ) (uri : String)
    (h : s.cached? uri text = none) (hfindings : findings check text = some problems) :
    ∃ logs, s.validate check uri text false =
      ({ s with cache := s.cache.insert uri ⟨Digest.ofText text, problems⟩ },
        Reply.publish uri (diagnose text problems) logs) := by
  obtain ⟨logs, hlogs⟩ := analyze_snd_of_findings hfindings s uri
  refine ⟨logs, ?_⟩
  rw [validate_of_not_cached h]
  exact Prod.ext (by rw [analyze_fst, hfindings]) hlogs

namespace Faithful

theorem findings_of_cached [LawfulDigest κ] (h : Faithful check s.cache)
    (hcached : s.cached? uri text = some problems) :
    findings check text = some problems ∧
      s.cache.get? uri = some ⟨Digest.ofText text, problems⟩ := by
  obtain ⟨r, hr, hdigest⟩ := Option.bind_eq_some_iff.1 hcached
  split at hdigest
  · rename_i hsame
    -- The text of the result has the digest of this text, so it is this text.
    obtain ⟨found, hfound, hproblems⟩ := h uri r hr
    obtain rfl : found = text := LawfulDigest.injective (hfound.symm.trans hsame)
    obtain rfl := Option.some.inj hdigest
    exact ⟨hproblems, hsame ▸ hr⟩
  · simp at hdigest

theorem validate_false [LawfulDigest κ] (h : Faithful check s.cache) (uri text : String) :
    (s.validate check uri text false).1 = (s.analyze check uri text).1 ∧
      (s.validate check uri text false).2.published = (s.analyze check uri text).2.published ∧
      (s.validate check uri text false).2.error = (s.analyze check uri text).2.error := by
  cases hcached : s.cached? uri text with
  | none => simp [validate_of_not_cached hcached]
  | some problems =>
    obtain ⟨hfindings, hget⟩ := h.findings_of_cached hcached
    obtain ⟨logs, hvalidate⟩ := validate_false_of_cached check hcached
    obtain ⟨logs', hanalyze⟩ := analyze_snd_of_findings hfindings s uri
    rw [hvalidate, hanalyze, analyze_fst, hfindings]
    refine ⟨?_, rfl, rfl⟩
    simp only [Table.insert_eq_self hget]

theorem validate {force : Bool} (h : Faithful check s.cache) :
    Faithful check (s.validate check uri text force).1.cache := by
  have hanalyze : Faithful check (s.analyze check uri text).1.cache := by
    rw [analyze_fst]
    cases hfindings : findings check text with
    | none => exact h
    | some problems => exact h.insert hfindings
  unfold Session.validate
  split
  · exact h
  · exact hanalyze

theorem openDocument (h : Faithful check s.cache) :
    Faithful check (s.openDocument check uri text).1.cache :=
  validate h

variable [Disk]

theorem saveDocument (h : Faithful check s.cache) :
    Faithful check (s.saveDocument check uri).1.cache := by
  unfold Session.saveDocument
  split
  · exact h.validate
  · exact h

theorem wake (h : Faithful check s.cache) : Faithful check (s.wake check uri).1.cache := by
  have hsave : Faithful check (s.saveDocument check uri).1.cache := h.saveDocument
  unfold Session.wake
  dsimp only
  split <;> exact hsave

theorem resume {w : Sleeper τ} (h : Faithful check s.cache) :
    Faithful check (s.resume check w).1.cache :=
  wake h

theorem resumeAll {l : List (Sleeper τ)} (h : Faithful check s.cache) :
    Faithful check (s.resumeAll check l).1.cache := by
  induction l generalizing s with
  | nil => exact h
  | cons w rest ih => exact ih h.resume

theorem schedule [TimeScale τ] (h : Faithful check s.cache) :
    Faithful check (s.schedule check uri).1.cache := by
  unfold Session.schedule
  dsimp only
  split
  · exact wake h
  · exact h

theorem changeDocument [TimeScale τ] (h : Faithful check s.cache) :
    Faithful check (s.changeDocument check uri text).1.cache := by
  unfold Session.changeDocument
  dsimp only
  split
  · exact schedule ((cache_cancel _ _).symm ▸ h)
  · exact h

theorem advance [TimeScale τ] {delay : τ} (h : Faithful check s.cache) :
    Faithful check (s.advance check delay).1.cache :=
  resumeAll h

theorem handle [TimeScale τ] (h : Faithful check s.cache) (e : Event τ) :
    Faithful check (s.handle check e).1.cache := by
  cases e with
  | started options =>
    obtain ⟨settings, hsettings, _⟩ := exists_start_eq s options
    rw [Session.handle, hsettings]
    exact h
  | configure options =>
    obtain ⟨settings, hsettings, _⟩ := exists_configure_eq s options
    rw [Session.handle, hsettings]
    exact h
  | opened uri text => exact h.openDocument
  | changed uri text => exact h.changeDocument
  | saved uri => exact h.saveDocument
  | closed uri => exact h.closeDocument
  | validate uri text force => exact h.validate
  | advance delay => exact h.advance

end Faithful

section Reach

variable [Disk]

/-- The sessions that come about: any events in any order, and between them the
clock may go on and any task that is still waiting may go on. -/
inductive Reached [TimeScale τ] (check : Checker) : Session τ κ → Prop
  | fresh : Reached check (fresh τ κ)
  | event {s : Session τ κ} (h : Reached check s) (e : Event τ) :
      Reached check (s.handle check e).1
  | pass {s : Session τ κ} (h : Reached check s) (delay : τ) :
      Reached check { s with now := TimeScale.add s.now delay }
  | resume {s : Session τ κ} (h : Reached check s) {w : Sleeper τ} (hw : w ∈ s.sleepers) :
      Reached check (s.resume check w).1

theorem Reached.faithful [TimeScale τ] (h : Reached check s) : Faithful check s.cache := by
  induction h with
  | fresh => simp [Faithful, Session.fresh]
  | event h e ih => exact ih.handle e
  | pass h delay ih => exact ih
  | resume h hw ih => exact ih.resume

/-- Nobody can see whether a validation took a result that was known or made a new
one: the session is the same after it, and so are the publications and the error. -/
theorem validate_false_eq_true [LawfulDigest κ] [TimeScale τ] (h : Reached check s) (uri text : String) :
    (s.validate check uri text false).1 = (s.validate check uri text true).1 ∧
      (s.validate check uri text false).2.published =
        (s.validate check uri text true).2.published ∧
      (s.validate check uri text false).2.error = (s.validate check uri text true).2.error :=
  h.faithful.validate_false uri text

end Reach

def printing : String := "[\x7b\"type\":\"PrintVariable\",\"name\":\"x\"\x7d]"

theorem findings_printing : findings checker printing = some [⟨.notDeclared, "x"⟩] := by
  have hproblems : Program.problems ⟨[.print "x"]⟩ = .ok [⟨.notDeclared, "x"⟩] :=
    Program.problems_eq_sweep (n := 2) rfl rfl
  exact findings_of_parse (by decide +kernel) hproblems

theorem findings_empty : findings checker "[]" = some [] := by
  have hproblems : Program.problems ⟨[]⟩ = .ok [] := Program.problems_eq_sweep (n := 1) rfl rfl
  exact findings_of_parse (by decide +kernel) hproblems

def revisited : Session Float :=
  let opened := ((fresh Float).handle checker (.opened "a" printing)).1
  ((opened.handle checker (.changed "a" "[")).1.handle checker (.saved "a")).1

theorem validate_false_eq_true_revisited : Reached checker revisited ∧
    revisited.documents.get? "a" = some "[" ∧
    revisited.cached? "a" printing = some [⟨.notDeclared, "x"⟩] ∧
    (revisited.validate checker "a" printing false).1 =
      (revisited.validate checker "a" printing true).1 ∧
    (revisited.validate checker "a" printing false).2.published =
      (revisited.validate checker "a" printing true).2.published ∧
    (revisited.validate checker "a" printing false).2.error =
      (revisited.validate checker "a" printing true).2.error := by
  have hreached : Reached checker revisited := ((Reached.fresh.event _).event _).event _
  have hne : printing ≠ "[" := by decide
  have hfindings : findings checker "[" = none := by
    have hparse : (Program.parse "[").toOption = none := by decide +kernel
    unfold findings
    cases h : Program.parse "[" with
    | ok p => simp [h, Except.toOption] at hparse
    | error e => rfl
  have hrevisited : revisited =
      { documents := ⟨[("a", "[")]⟩
        cache := ⟨[("a", ⟨printing, [⟨.notDeclared, "x"⟩]⟩)]⟩
        now := 0 } := by
    simp [revisited, handle, openDocument, changeDocument, saveDocument, fresh, validate, cached?,
      analyze_fst, findings_printing, hfindings, document, Digest.ofText, hne,
      TimeScale.start, Table.insert, Table.put, Table.get?, Table.find]
  refine ⟨hreached, ?_, ?_, validate_false_eq_true hreached "a" printing⟩
  · rw [hrevisited]
    rfl
  · rw [hrevisited]
    rfl

end Session

end DefiniteAssignment.Editor
