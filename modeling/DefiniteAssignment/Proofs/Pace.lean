import DefiniteAssignment.Proofs.Repetition
import DefiniteAssignment.Proofs.Unwalked

/-! Checks that keep pace. A function is registered when the scope around it is
entered, so its declaration does nothing where it stands, and a use right behind
an equal one is idle. Programs that differ in such statements are checked side by
side: one machine waits while the other passes an idle statement, all other steps
they take together, and both come to the same result. -/
namespace DefiniteAssignment

namespace Stmt

def others (body : List Stmt) : List Stmt := body.filter fun s => s.function?.isNone

inductive Doubles : List Stmt → List Stmt → Prop
  | nil : Doubles [] []
  | cons (s : Stmt) {l l' : List Stmt} : Doubles l l' → Doubles (s :: l) (s :: l')
  | twice {s : Stmt} {l l' : List Stmt} : s.isUse → Doubles l l' → Doubles (s :: l) (s :: s :: l')

/-- A relation of bodies that declare the same functions, with bodies that are
related again, and whose other statements differ by repeated uses. -/
structure Arranges (B : List Stmt → List Stmt → Prop) : Prop where
  others : ∀ {body body'}, B body body' → Doubles (others body) (others body')
  functions : ∀ {body body'}, B body body' →
    List.Forall₂ (fun e e' => e'.1 = e.1 ∧ B e.2 e'.2) (body.filterMap function?)
      (body'.filterMap function?)

theorem Doubles.refl (l : List Stmt) : Doubles l l := by
  induction l with
  | nil => exact .nil
  | cons s l ih => exact .cons s ih

theorem others_cons {s : Stmt} (h : s.function? = none) (rest : List Stmt) :
    others (s :: rest) = s :: others rest := by
  simp [others, h]

theorem others_cases (rest : List Stmt) : (∃ f body tail, rest = .function f body :: tail) ∨
    (rest = [] ∧ others rest = []) ∨
      ∃ s tail, rest = s :: tail ∧ others rest = s :: others tail := by
  cases rest with
  | nil => exact .inr (.inl ⟨rfl, rfl⟩)
  | cons s tail =>
    cases s with
    | function f body => exact .inl ⟨f, body, tail, rfl⟩
    | _ => exact .inr (.inr ⟨_, tail, rfl, rfl⟩)

theorem Doubles.others_cases {rest rest' : List Stmt} (h : Doubles (others rest) (others rest')) :
    (∃ f body tail, rest = .function f body :: tail) ∨
      (∃ f body tail, rest' = .function f body :: tail) ∨ (rest = [] ∧ rest' = []) ∨
      ∃ s tail tail', rest = s :: tail ∧ rest' = s :: tail' ∧
        (Doubles (others tail) (others tail') ∨
          s.isUse ∧ ∃ l, others tail' = s :: l ∧ Doubles (others tail) l) := by
  rcases Stmt.others_cases rest with hfunction | ⟨hrest, hl⟩ | ⟨s, tail, hrest, hl⟩
  · exact .inl hfunction
  all_goals
    rcases Stmt.others_cases rest' with hfunction | ⟨hrest', hl'⟩ | ⟨s', tail', hrest', hl'⟩
    · exact .inr (.inl hfunction)
    all_goals rw [hl, hl'] at h
  · exact .inr (.inr (.inl ⟨hrest, hrest'⟩))
  · cases h
  · cases h
  · generalize htail : others tail' = l at h
    refine .inr (.inr (.inr ?_))
    cases h with
    | cons _ h => exact ⟨s, tail, tail', hrest, hrest', .inl (htail ▸ h)⟩
    | twice hs h => exact ⟨s, tail, tail', hrest, hrest', .inr ⟨hs, _, htail, h⟩⟩

end Stmt

namespace Analysis

open Restriction

variable {B : List Stmt → List Stmt → Prop} {a a' b b' : Analysis} {i : Nat}

/-- Analyses that differ in the text of the bodies only, and there by `B`. -/
structure Alike (B : List Stmt → List Stmt → Prop) (a a' : Analysis) : Prop where
  shown : textless.analysis a' = textless.analysis a
  bodies : ∀ i < a.scopes.size, B (a.scope i).body (a'.scope i).body

namespace Alike

theorem size (h : Alike B a a') : a'.scopes.size = a.scopes.size := by
  simpa using congrArg (·.scopes.size) h.shown

theorem count (h : Alike B a a') : a'.count = a.count :=
  (congrArg (·.count) h.shown : (textless.analysis a').count = (textless.analysis a).count)

theorem within (h : Alike B a a') (hw : Within i a b) (hw' : Within i a' b')
    (hshown : textless.analysis b' = textless.analysis b) : Alike B b b' := by
  refine ⟨hshown, fun j hj => ?_⟩
  rw [hw.body, hw'.body]
  exact h.bodies j (hw.size ▸ hj)

theorem report (h : Alike B a a') (code : Code) (x : String) :
    Alike B (a.report code x) (a'.report code x) := by
  refine ⟨?_, h.bodies⟩
  rw [analysis_report, analysis_report, h.shown]

theorem use (h : Alike B a a') (i : Nat) (u : Use) (x : String) :
    Alike B (a.use i u x) (a'.use i u x) := by
  refine h.within (Notes.use i a u x).within (Notes.use i a' u x).within ?_
  rw [analysis_use, analysis_use, h.shown]

theorem declareVariable (h : Alike B a a') (i : Nat) (x : String) :
    Alike B (a.declareVariable i x) (a'.declareVariable i x) := by
  refine h.within (Notes.declareVariable i a x).within (Notes.declareVariable i a' x).within ?_
  rw [analysis_declareVariable, analysis_declareVariable, h.shown]

theorem completed (h : Alike B a a') (hn : a.WellNested) (hn' : a'.WellNested) (i callee : Nat)
    (conditional : Bool) :
    Alike B (a.completed i callee conditional) (a'.completed i callee conditional) := by
  refine h.within (.completed a i callee conditional) (.completed a' i callee conditional) ?_
  rw [analysis_completed _ hn', h.shown, analysis_completed _ hn]

theorem registerOne (h : Alike B a a') (hi : i < a.scopes.size) (f : String)
    {body body' : List Stmt} (hbody : B body body') :
    Alike B (a.registerOne i f body) (a'.registerOne i f body') := by
  have hshown : textless.analysis (a'.registerOne i f body') =
      textless.analysis (a.registerOne i f body) := by
    rw [analysis_registerOne _ rfl, analysis_registerOne _ rfl, h.shown]
    rfl
  have htaken : a'.isTaken i f = a.isTaken i f := by
    rw [← textless.isTaken_analysis rfl a', h.shown, textless.isTaken_analysis rfl]
  refine ⟨hshown, fun j hj => ?_⟩
  unfold Analysis.registerOne at hj ⊢
  rw [htaken]
  split at hj
  · rename_i hf
    rw [if_pos hf, if_pos hf]
    exact h.bodies j hj
  · rename_i hf
    have hsize : ((a.addFunction i f body).setFunction i f a.scopes.size).scopes.size =
        a.scopes.size + 1 := by
      simp [setFunction, addFunction]
    replace hj : j < a.scopes.size + 1 := hsize ▸ hj
    rw [if_neg hf, if_neg hf]
    dsimp only
    rw [scope_registered hi, scope_registered (h.size ▸ hi), h.size]
    split
    · exact h.bodies i hi
    · split
      · exact hbody
      · exact h.bodies j (by omega)

theorem register (h : Alike B a a') (hi : i < a.scopes.size) {l l' : List (String × List Stmt)}
    (hl : List.Forall₂ (fun e e' => e'.1 = e.1 ∧ B e.2 e'.2) l l') :
    Alike B (a.register i l) (a'.register i l') := by
  induction hl generalizing a a' with
  | nil => exact h
  | @cons e e' l l' he _ ih =>
    obtain ⟨f, body⟩ := e
    obtain ⟨f', body'⟩ := e'
    obtain ⟨rfl, hbody⟩ := he
    have hone := Registers.registerOne hi (List.mem_singleton.2 rfl : (f', body) ∈ [(f', body)])
    exact ih (h.registerOne hi f' hbody) (Nat.lt_of_lt_of_le hi hone.size)

theorem marked (h : Alike B a a') (hi : i < a.scopes.size) :
    Alike B (a.marked i) (a'.marked i) := by
  refine ⟨by rw [analysis_marked, analysis_marked, h.shown], fun j hj => ?_⟩
  rw [size_marked] at hj
  rw [scope_marked a hi, scope_marked a' (h.size ▸ hi)]
  split
  · exact h.bodies i hi
  · exact h.bodies j hj

theorem enter (hB : Stmt.Arranges B) (h : Alike B a a') (hi : i < a.scopes.size) :
    Alike B (a.enter i) (a'.enter i) := by
  rw [enter_eq, enter_eq]
  exact (h.marked hi).register (by simpa using hi) (hB.functions (h.bodies i hi))

theorem dispatch (h : Alike B a a') (hn : a.WellNested) (hn' : a'.WellNested) (i : Nat) (s : Stmt) :
    Alike B (a.dispatch i s).1 (a'.dispatch i s).1 ∧ (a'.dispatch i s).2 = (a.dispatch i s).2 := by
  have hlookup := lookup_of_textless h.shown i
  have hname : (a'.scope i).name = (a.scope i).name := by rw [scope_eq_of_textless h.shown]
  cases s with
  | declare x => exact ⟨h.declareVariable i x, rfl⟩
  | assign x =>
    refine ⟨?_, rfl⟩
    have hfunction : a'.isFunction i x = a.isFunction i x := congrArg Option.isSome (hlookup x)
    simp only [Analysis.dispatch, hfunction]
    cases a.isFunction i x with
    | true => exact h.report _ x
    | false => exact h.use i _ x
  | print x => exact ⟨h.use i _ x, rfl⟩
  | function f body => exact ⟨h, rfl⟩
  | call g c =>
    simp only [Analysis.dispatch, resolveCall, hlookup]
    cases hg : a.lookup i g with
    | none => exact ⟨h.report _ g, rfl⟩
    | some j =>
      have hj := hn.lookup_lt hg
      have hcompleted := h.completed hn hn' i j c
      simp only [entered_of_textless h.shown]
      split
      · rw [hn.complete_eq hj, hn'.complete_eq (h.size ▸ hj),
          isRecursive_of_textless hcompleted.shown]
        exact ⟨hcompleted, rfl⟩
      · exact ⟨h, rfl⟩
  | bare => exact ⟨h, by rw [Analysis.dispatch, Analysis.dispatch, hname]⟩
  | block body => exact ⟨h, by rw [Analysis.dispatch, Analysis.dispatch, hname]⟩

end Alike

theorem dispatch_suspend {s : Stmt} {j : Nat} {c : Bool} (h : a.dispatch i s = (b, .suspend j c)) :
    b = a ∧ ∃ g, s = .call g c ∧ a.lookup i g = some j := by
  cases s with
  | call g conditional =>
    simp only [Analysis.dispatch, resolveCall] at h
    cases hg : a.lookup i g with
    | none => simp [hg] at h
    | some k =>
      simp only [hg] at h
      split at h
      · exact absurd (congrArg Prod.snd h) (complete_ne_suspend a i k conditional j c)
      · obtain ⟨rfl, rfl, rfl⟩ : a = b ∧ k = j ∧ conditional = c := by simpa using h
        exact ⟨rfl, g, rfl, hg⟩
  | _ => simp [Analysis.dispatch] at h

end Analysis

open Stmt (Doubles others)

/-- Frames of one scope, waiting for the same call if for any. What is left to
the second may repeat uses of what is left to the first, and may start with a
repetition of the call that both wait for. -/
inductive Frame.Paced (a : Analysis) : Frame → Frame → Prop
  | level {i : Nat} {rest rest' : List Stmt} {pending : Option (Nat × Bool)} :
      Doubles (others rest) (others rest') → Paced a ⟨i, rest, pending⟩ ⟨i, rest', pending⟩
  | repeating {i j : Nat} {g : String} {c : Bool} {rest rest' l : List Stmt} :
      (a.scope i).entered → a.lookup i g = some j → others rest' = .call g c :: l →
      Doubles (others rest) l → Paced a ⟨i, rest, some (j, c)⟩ ⟨i, rest', some (j, c)⟩

theorem Frame.Paced.mono {a b : Analysis} {f f' : Frame} (h : Paced a f f') (hn : a.WellNested)
    (he : Analysis.Extends a b) : Paced b f f' := by
  cases h with
  | level hd => exact .level hd
  | repeating hi hg hl hd =>
    exact .repeating (he.entered hi) ((hn.lookup_extends he hi _).trans hg) hl hd

namespace Machine

variable {B : List Stmt → List Stmt → Prop} {m m' : Machine}

inductive Stacks (a a' : Analysis) : List Frame → List Frame → Prop
  | paced {frames frames' : List Frame} :
      List.Forall₂ (Frame.Paced a) frames frames' → Stacks a a' frames frames'
  | idle {i : Nat} {s : Stmt} {rest rest' l : List Stmt} {below below' : List Frame} :
      a'.dispatch i s = (a', .proceed) → others rest' = s :: l → Doubles (others rest) l →
      List.Forall₂ (Frame.Paced a) below below' →
      Stacks a a' (⟨i, rest, none⟩ :: below) (⟨i, rest', none⟩ :: below')

structure Paced (B : List Stmt → List Stmt → Prop) (m m' : Machine) : Prop where
  valid : m.Valid
  valid' : m'.Valid
  alike : m.analysis.Alike B m'.analysis
  stack : Stacks m.analysis m'.analysis m.stack m'.stack
  failure : m'.failure = m.failure

/-- How two machines go on that are related by `R`: one of them takes a step, or
both do, and they are related again. -/
inductive GoOn (R : Machine → Machine → Prop) (m m' : Machine) : Prop
  | ended : m.stack = [] → m'.stack = [] → GoOn R m m'
  | first : m.stack ≠ [] → R m.step m' → GoOn R m m'
  | second : m'.stack ≠ [] → R m m'.step → GoOn R m m'
  | both : m.stack ≠ [] → m'.stack ≠ [] → R m.step m'.step → GoOn R m m'

theorem run_of_stack_ne_nil (h : m.stack ≠ []) : m.run = m.step.run := by
  rw [run, if_neg h]

theorem run_of_goOn {R : Machine → Machine → Prop} (hgo : ∀ m m', R m m' → GoOn R m m')
    {m m' : Machine} (h : R m m') : R m.run m'.run := by
  -- Each way to go on uses up work of one machine at least.
  induction hw : m.work + m'.work using Nat.strongRecOn generalizing m m' with
  | _ w ih =>
    subst hw
    cases hgo m m' h with
    | ended hend hend' =>
      rw [run, if_pos hend, run, if_pos hend']
      exact h
    | first hne hnext =>
      rw [run_of_stack_ne_nil hne]
      exact ih _ (Nat.add_lt_add_right (work_step_lt m hne) _) hnext rfl
    | second hne hnext =>
      rw [run_of_stack_ne_nil hne]
      exact ih _ (Nat.add_lt_add_left (work_step_lt m' hne) _) hnext rfl
    | both hne hne' hnext =>
      rw [run_of_stack_ne_nil hne, run_of_stack_ne_nil hne']
      exact ih _ (Nat.add_lt_add (work_step_lt m hne) (work_step_lt m' hne')) hnext rfl

theorem step_of_dispatch {i : Nat} {s : Stmt} {rest : List Stmt} {below : List Frame}
    (hs : m.stack = ⟨i, s :: rest, none⟩ :: below) {b : Analysis} {signal : Signal}
    (hd : m.analysis.dispatch i s = (b, signal)) :
    m.step = follow b ⟨i, rest, none⟩ below signal := by
  simp [step, hs, Frame.advance, hd]

section

variable {i : Nat} {rest rest' : List Stmt} {below below' : List Frame} (hv : m.Valid)
  (hv' : m'.Valid) (halike : m.analysis.Alike B m'.analysis)
include hv hv' halike

theorem Paced.skip_first {f : String} {body : List Stmt} {g : Frame}
    (hs : m.stack = ⟨i, .function f body :: rest, none⟩ :: below) (hs' : m'.stack = g :: below')
    (hstack : Stacks m.analysis m'.analysis (⟨i, rest, none⟩ :: below) m'.stack) :
    m.step.Paced B m' := by
  have hvalid := hv.step
  rw [step_of_proceed hs rfl] at hvalid ⊢
  exact ⟨hvalid, hv', halike, hstack, hv'.failure_eq_none hs'⟩

theorem Paced.skip_second {s : Stmt} {g : Frame} (hs : m.stack = g :: below)
    (hs' : m'.stack = ⟨i, s :: rest', none⟩ :: below')
    (hidle : m'.analysis.dispatch i s = (m'.analysis, .proceed))
    (hstack : Stacks m.analysis m'.analysis m.stack (⟨i, rest', none⟩ :: below')) :
    m.Paced B m'.step := by
  have hvalid := hv'.step
  rw [step_of_proceed hs' hidle] at hvalid ⊢
  exact ⟨hv, hvalid, halike, hstack, (hv.failure_eq_none hs).symm⟩

theorem Paced.dispatch (hB : Stmt.Arranges B) {s : Stmt}
    (hs : m.stack = ⟨i, s :: rest, none⟩ :: below)
    (hs' : m'.stack = ⟨i, s :: rest', none⟩ :: below')
    (hbelow : List.Forall₂ (Frame.Paced m.analysis) below below')
    (hrest : Doubles (others rest) (others rest') ∨
      s.isUse ∧ ∃ l, others rest' = s :: l ∧ Doubles (others rest) l) :
    m.step.Paced B m'.step := by
  have hentered := (hv.fits ⟨i, s :: rest, none⟩ (by simp [hs])).entered
  have hentered' := (hv'.fits ⟨i, s :: rest', none⟩ (by simp [hs'])).entered
  have hext := hv.extends_step
  replace hbelow : List.Forall₂ (Frame.Paced m.step.analysis) below below' :=
    hbelow.imp fun _ _ hf => hf.mono hv.nested hext
  obtain ⟨hsame, hsignal⟩ := halike.dispatch hv.nested hv'.nested i s
  cases hd : m.analysis.dispatch i s with
  | mk b signal =>
    cases hd' : m'.analysis.dispatch i s with
    | mk b' signal' =>
      rw [hd, hd'] at hsame hsignal
      obtain rfl : signal' = signal := hsignal
      have hvalid := hv.step
      have hvalid' := hv'.step
      rw [step_of_dispatch hs hd] at hvalid hbelow hext ⊢
      rw [step_of_dispatch hs' hd'] at hvalid' ⊢
      cases signal' with
      | proceed =>
        refine ⟨hvalid, hvalid', hsame, ?_, rfl⟩
        rcases hrest with hlevel | ⟨huse, l, hl, hdoubles⟩
        · exact .paced (.cons (.level hlevel) hbelow)
        · exact .idle (hv'.nested.dispatch_again hentered' huse hd') hl hdoubles hbelow
      | suspend j c =>
        obtain ⟨rfl, g, rfl, hg⟩ := Analysis.dispatch_suspend hd
        obtain ⟨rfl, _⟩ := Analysis.dispatch_suspend hd'
        have hj := hv.nested.lookup_lt hg
        refine ⟨hvalid, hvalid', halike.enter hB hj, .paced (.cons ?_ (.cons ?_ hbelow)), rfl⟩
        · exact .level (hB.others (halike.bodies j hj))
        · rcases hrest with hlevel | ⟨_, l, hl, hdoubles⟩
          · exact .level hlevel
          · exact .repeating (hext.entered hentered)
              ((hv.nested.lookup_extends hext hentered g).trans hg) hl hdoubles
      | finish | unreachable => exact ⟨hvalid, hvalid', hsame, .paced hbelow, rfl⟩
      | fail failure => exact ⟨hvalid, hvalid', hsame, .paced .nil, rfl⟩

theorem Paced.complete {j : Nat} {c : Bool} (hs : m.stack = ⟨i, rest, some (j, c)⟩ :: below)
    (hs' : m'.stack = ⟨i, rest', some (j, c)⟩ :: below')
    (hf : Frame.Paced m.analysis ⟨i, rest, some (j, c)⟩ ⟨i, rest', some (j, c)⟩)
    (hbelow : List.Forall₂ (Frame.Paced m.analysis) below below') : m.step.Paced B m'.step := by
  have hfits' := hv'.fits ⟨i, rest', some (j, c)⟩ (by simp [hs'])
  have hext := hv.extends_step
  replace hbelow : List.Forall₂ (Frame.Paced m.step.analysis) below below' :=
    hbelow.imp fun _ _ hf => hf.mono hv.nested hext
  have hsame := halike.completed hv.nested hv'.nested i j c
  have hrecursive := Restriction.isRecursive_of_textless hsame.shown i
  have hvalid := hv.step
  have hvalid' := hv'.step
  rw [step_of_completes hv hs rfl] at hvalid hbelow ⊢
  rw [step_of_completes hv' hs' rfl, hrecursive] at hvalid' ⊢
  refine ⟨hvalid, hvalid', hsame, ?_, rfl⟩
  dsimp only
  cases hreturns : (m.analysis.completed i j c).isRecursive i with
  | true => exact .paced hbelow
  | false =>
    cases hf with
    | level hlevel => exact .paced (.cons (.level hlevel) hbelow)
    | repeating _ hg hl hdoubles =>
      have hg' := (Restriction.lookup_of_textless halike.shown i _).trans hg
      have hj' := (hfits'.pending j c rfl).1
      exact .idle (hv'.nested.dispatch_completed hfits'.entered hg' hj' (hrecursive.trans hreturns))
        hl hdoubles hbelow

end

theorem Paced.goOn (hB : Stmt.Arranges B) (h : m.Paced B m') : GoOn (Paced B) m m' := by
  obtain ⟨hv, hv', halike, hstack, -⟩ := h
  generalize hs : m.stack = frames at hstack
  generalize hs' : m'.stack = frames' at hstack
  cases hstack with
  | @idle i s rest rest' l below below' hidle hl hdoubles hbelow =>
    -- The second machine passes what stands before the idle statement, and then that.
    have hne' : m'.stack ≠ [] := by simp [hs']
    rcases Stmt.others_cases rest' with ⟨f, body, tail, rfl⟩ | ⟨_, hnil⟩ | ⟨t, tail, rfl, ht⟩
    · refine .second hne' (.skip_second hv hv' halike hs hs' rfl ?_)
      rw [hs]
      exact .idle hidle hl hdoubles hbelow
    · simp [hnil] at hl
    · obtain ⟨rfl, rfl⟩ : t = s ∧ others tail = l := by simpa [ht] using hl
      refine .second hne' (.skip_second hv hv' halike hs hs' hidle ?_)
      rw [hs]
      exact .paced (.cons (.level hdoubles) hbelow)
  | paced hframes =>
    cases hframes with
    | nil => exact .ended hs hs'
    | @cons f f' below below' hf hbelow =>
      have hne : m.stack ≠ [] := by simp [hs]
      have hne' : m'.stack ≠ [] := by simp [hs']
      have hpaced := hf
      cases hf with
      | repeating _ _ _ _ => exact .both hne hne' (.complete hv hv' halike hs hs' hpaced hbelow)
      | @level i rest rest' pending hdoubles =>
        cases pending with
        | some call => exact .both hne hne' (.complete hv hv' halike hs hs' hpaced hbelow)
        | none =>
          rcases hdoubles.others_cases with ⟨f, body, tail, rfl⟩ | ⟨f, body, tail, rfl⟩ |
            ⟨rfl, rfl⟩ | ⟨s, tail, tail', rfl, rfl, hrest⟩
          · refine .first hne (.skip_first hv hv' halike hs hs' ?_)
            rw [hs']
            exact .paced (.cons (.level hdoubles) hbelow)
          · refine .second hne' (.skip_second hv hv' halike hs hs' rfl ?_)
            rw [hs]
            exact .paced (.cons (.level hdoubles) hbelow)
          · have hvalid := hv.step
            have hvalid' := hv'.step
            refine .both hne hne' ?_
            rw [step_of_finish hs] at hvalid ⊢
            rw [step_of_finish hs'] at hvalid' ⊢
            exact ⟨hvalid, hvalid', halike, .paced hbelow, rfl⟩
          · exact .both hne hne' (.dispatch hv hv' halike hB hs hs' hbelow hrest)

end Machine

namespace Program

open Restriction

variable {B : List Stmt → List Stmt → Prop} {p q : Program}

theorem paced_opening (hB : Stmt.Arranges B) (h : B p.body q.body) :
    p.opening.Paced B q.opening := by
  have hroot := Analysis.root_lt_size {} p.body
  have halike : Analysis.Alike B (({} : Analysis).addRoot p.body)
      (({} : Analysis).addRoot q.body) := by
    refine ⟨?_, fun i hi => ?_⟩
    · rw [analysis_addRoot, analysis_addRoot]
      rfl
    · obtain rfl : i = 0 := by simpa [Analysis.addRoot] using hi
      exact h
  refine ⟨p.valid_opening, q.valid_opening, halike.enter hB hroot, ?_, rfl⟩
  exact .paced (.cons (.level (hB.others h)) .nil)

theorem alike_checked (hB : Stmt.Arranges B) (h : B p.body q.body) :
    p.checked.Alike B q.checked ∧ q.problems = p.problems := by
  have hrun := Machine.run_of_goOn (fun _ _ => Machine.Paced.goOn hB) (paced_opening hB h)
  obtain ⟨n, hn, hend⟩ := p.opening.exists_run_eq
  obtain ⟨n', hn', hend'⟩ := q.opening.exists_run_eq
  rw [hn, hn'] at hrun
  cases hok : (p.opening.after n).failure with
  | some failure =>
    have hcheck := Analysis.check_eq_of_stack_nil hend
    have hcheck' := Analysis.check_eq_of_stack_nil hend'
    have hok' := hrun.failure.trans hok
    simp only [opening] at hok hok'
    rw [hok] at hcheck
    rw [hok'] at hcheck'
    simp only [checked, problems, hcheck, hcheck']
    exact ⟨hrun.alike, trivial⟩
  | none =>
    have hok' := hrun.failure.trans hok
    have hshown : textless.analysis q.checked = textless.analysis p.checked := by
      rw [analysis_checked _ hend' hok', hrun.alike.shown, analysis_checked _ hend hok]
    have hproblems : q.checked.problems = p.checked.problems := by
      rw [← problems_textless, hshown, problems_textless]
    refine ⟨⟨hshown, fun i hi => ?_⟩, ?_⟩
    · obtain ⟨_, hchecked, _⟩ := checked_eq hend
      rw [hchecked] at hi
      rw [scope_checked hend hok, scope_checked hend' hok']
      exact hrun.alike.bodies i hi
    · rw [problems_eq_ok hend' hok', hproblems, problems_eq_ok hend hok]

end Program

end DefiniteAssignment
