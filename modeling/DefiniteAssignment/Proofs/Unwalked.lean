import DefiniteAssignment.Proofs.Occurrence
import DefiniteAssignment.Proofs.Restriction

/-! Text that a check does not walk has no part in its result. The bodies of
functions that are never entered, and what stands behind the call at which a
scope is found not to return, can be anything: the check of a program in which
they are rewritten goes through the same moments. -/
namespace DefiniteAssignment

namespace Stmt

def head : Stmt → Stmt
  | function f _ => function f []
  | s => s

def functionNames (body : List Stmt) : List String := (body.filterMap function?).map Prod.fst

theorem eq_call_of_head {s : Stmt} {g : String} {c : Bool} (h : s.head = .call g c) :
    s = .call g c := by
  cases s with
  | function f body => simp [head] at h
  | _ => exact h

theorem functionNames_map_head (body : List Stmt) :
    functionNames (body.map head) = functionNames body := by
  unfold functionNames
  induction body with
  | nil => rfl
  | cons s rest ih => cases s <;> simpa [head, function?, List.filterMap_cons] using ih

theorem functionNames_congr {body body' : List Stmt} (h : body'.map head = body.map head) :
    functionNames body' = functionNames body := by
  rw [← functionNames_map_head body', h, functionNames_map_head]

end Stmt

theorem Analysis.dispatch_head (a : Analysis) (i : Nat) (s : Stmt) :
    a.dispatch i s.head = a.dispatch i s := by
  cases s <;> rfl

namespace Restriction

def textless : Restriction where
  shows _ := true
  cut := List.take 0
  cut_nil := rfl

variable {a a' b : Analysis} {i : Nat}

theorem textless_scope (s : Scope) : textless.scope s = { s with body := [] } := by
  simp [textless, scope, Table.restrict]

theorem problems_textless (a : Analysis) : (textless.analysis a).problems = a.problems := by
  simp [textless, analysis, Sink.restrict]

theorem scope_eq_of_textless (h : textless.analysis a' = textless.analysis a) (i : Nat) :
    a'.scope i = { a.scope i with body := (a'.scope i).body } := by
  have hscope := congrArg (·.scope i) h
  simp only [scope_analysis, textless_scope] at hscope
  exact congrArg (fun s : Scope => { s with body := (a'.scope i).body }) hscope

theorem lookup_of_textless (h : textless.analysis a' = textless.analysis a) (i : Nat) (f : String) :
    a'.lookup i f = a.lookup i f := by
  rw [← lookup_analysis textless, h, lookup_analysis]

theorem entered_of_textless (h : textless.analysis a' = textless.analysis a) (i : Nat) :
    (a'.scope i).entered = (a.scope i).entered := by
  rw [scope_eq_of_textless h]

theorem isRecursive_of_textless (h : textless.analysis a' = textless.analysis a) (i : Nat) :
    a'.isRecursive i = a.isRecursive i := by
  rw [← isRecursive_analysis textless, h, isRecursive_analysis]

theorem textless_registering (a : Analysis) (i k : Nat) : textless.analysis (a.registering i k) =
    ((textless.analysis a).marked i).register i
      (((Stmt.functionNames (a.scope i).body).take k).map fun f => (f, [])) := by
  unfold Analysis.registering Stmt.functionNames
  rw [analysis_register _ _ _ _ fun _ _ => rfl, analysis_marked, ← List.map_take, List.map_map]
  rfl

section

variable (h : textless.analysis a' = textless.analysis a)
  (hnames : Stmt.functionNames (a'.scope i).body = Stmt.functionNames (a.scope i).body)
include h hnames

theorem registering_congr (k : Nat) :
    textless.analysis (a'.registering i k) = textless.analysis (a.registering i k) := by
  rw [textless_registering, textless_registering, h, hnames]

theorem enter_congr : textless.analysis (a'.enter i) = textless.analysis (a.enter i) := by
  have hlength : ((a'.scope i).body.filterMap Stmt.function?).length =
      ((a.scope i).body.filterMap Stmt.function?).length := by
    simpa [Stmt.functionNames] using congrArg List.length hnames
  rw [← Analysis.registering_length, ← Analysis.registering_length, hlength]
  exact registering_congr h hnames _

theorem places_congr {k j : Nat} (hplaces : a.Places i k j) : a'.Places i k j := by
  have hsize : ∀ k, (a'.registering i k).scopes.size = (a.registering i k).scopes.size := by
    intro k
    have hk := congrArg (·.scopes.size) (registering_congr h hnames k)
    simpa using hk
  unfold Analysis.Places
  rw [hsize, hsize]
  exact hplaces

end

theorem exists_dispatch (h : textless.analysis a' = textless.analysis a) {s s' : Stmt}
    (hs : s'.head = s.head) (hd : a.dispatch i s = (b, .proceed))
    (hcall : ∀ g c, s = .call g c → a.lookup i g = none) :
    ∃ b', a'.dispatch i s' = (b', .proceed) ∧ textless.analysis b' = textless.analysis b := by
  have hcall' : ∀ g c, s = .call g c → a'.lookup i g = none := by
    intro g c heq
    rw [lookup_of_textless h]
    exact hcall g c heq
  have hproceeds : ∃ b', a'.dispatch i s = (b', .proceed) := by
    cases s with
    | declare x | assign x | print x | function f body => exact ⟨_, rfl⟩
    | call g c => exact ⟨_, by simp [Analysis.dispatch, Analysis.resolveCall, hcall' g c rfl]; rfl⟩
    | bare | block body => simp [Analysis.dispatch] at hd
  obtain ⟨b', hb'⟩ := hproceeds
  refine ⟨b', ?_, ?_⟩
  · rw [← Analysis.dispatch_head, hs, Analysis.dispatch_head, hb']
  · have hshown := textless.analysis_dispatch (fun _ _ => rfl) hb' hcall'
    rw [h, textless.analysis_dispatch (fun _ _ => rfl) hd hcall] at hshown
    exact (Prod.mk.inj hshown).1.symm

end Restriction

structure Analysis.Level (a a' : Analysis) (i : Nat) (rest rest' : List Stmt) : Prop where
  lt : i < a.scopes.size
  lt' : i < a'.scopes.size
  behind : ∃ d ≤ (a.scope i).body.length,
    rest = (a.scope i).body.drop d ∧ rest' = (a'.scope i).body.drop d

namespace Analysis.Level

variable {a a' b b' : Analysis} {i : Nat} {rest rest' : List Stmt}

theorem mono (h : a.Level a' i rest rest') (he : Extends a b) (he' : Extends a' b') :
    b.Level b' i rest rest' := by
  refine ⟨Nat.lt_of_lt_of_le h.lt he.size, Nat.lt_of_lt_of_le h.lt' he'.size, ?_⟩
  rw [(he.scope i h.lt).body, (he'.scope i h.lt').body]
  exact h.behind

theorem nil (h : a.Level a' i [] rest')
    (hlength : (a'.scope i).body.length = (a.scope i).body.length) : rest' = [] := by
  obtain ⟨d, _, hrest, rfl⟩ := h.behind
  apply List.drop_eq_nil_of_le
  rw [hlength]
  exact List.drop_eq_nil_iff.1 hrest.symm

theorem cons {s : Stmt} (h : a.Level a' i (s :: rest) rest')
    (hsame : ∀ d, (a.scope i).body.drop d = s :: rest →
      (a'.scope i).body[d]?.map Stmt.head = some s.head) :
    ∃ s' tail, rest' = s' :: tail ∧ s'.head = s.head ∧ a.Level a' i rest tail := by
  obtain ⟨d, _, hrest, rfl⟩ := h.behind
  obtain ⟨s', hs', hhead⟩ := Option.map_eq_some_iff.1 (hsame d hrest.symm)
  obtain ⟨hlt', hget⟩ := List.getElem?_eq_some_iff.1 hs'
  have hlt : d < (a.scope i).body.length := by
    refine Nat.lt_of_not_le fun hle => ?_
    simp [List.drop_eq_nil_of_le hle] at hrest
  refine ⟨s', (a'.scope i).body.drop (d + 1), ?_, hhead, h.lt, h.lt', d + 1, hlt, ?_, rfl⟩
  · rw [List.drop_eq_getElem_cons hlt', hget]
  · rw [List.drop_eq_getElem_cons hlt] at hrest
    exact (List.cons.inj hrest).2

end Analysis.Level

inductive Frame.Abreast (a a' : Analysis) : Frame → Frame → Prop
  | level {i : Nat} {rest rest' : List Stmt} {pending : Option (Nat × Bool)} :
      a.Level a' i rest rest' → Abreast a a' ⟨i, rest, pending⟩ ⟨i, rest', pending⟩

theorem Frame.Fits.left_le {f : Frame} {a : Analysis} (h : f.Fits a) :
    f.left ≤ (a.scope f.scope).body.length := by
  unfold left
  cases hp : f.pending with
  | none => exact h.rest.length_le
  | some call =>
    obtain ⟨_, g, _, hsuffix⟩ := h.pending call.1 call.2 hp
    exact hsuffix.length_le

namespace Frame.Abreast

variable {a a' b b' : Analysis} {f f' : Frame}

theorem scope_eq (h : Abreast a a' f f') : f'.scope = f.scope := by
  cases h
  rfl

theorem mono (h : Abreast a a' f f') (he : Analysis.Extends a b) (he' : Analysis.Extends a' b') :
    Abreast b b' f f' := by
  obtain ⟨hlevel⟩ := h
  exact .level (hlevel.mono he he')

theorem start {i : Nat} (hi : i < a.scopes.size) (hi' : i < a'.scopes.size) :
    Abreast a a' (.start a i) (.start a' i) :=
  .level ⟨hi, hi', 0, Nat.zero_le _, rfl, rfl⟩

end Frame.Abreast

namespace Machine

open Restriction

variable {m m' : Machine}

structure Abreast (m m' : Machine) : Prop where
  analysis : textless.analysis m'.analysis = textless.analysis m.analysis
  stack : List.Forall₂ (Frame.Abreast m.analysis m'.analysis) m.stack m'.stack
  failure : m'.failure = m.failure

/-- The bodies of two machines agree on what the next step of the first looks at:
the statement it dispatches, the end of the body it finishes, or the functions
of the scope it enters. -/
structure SeesAlike (m m' : Machine) : Prop where
  statement : ∀ i k, m.Dispatches i k →
    (m'.analysis.scope i).body[k]?.map Stmt.head = (m.analysis.scope i).body[k]?.map Stmt.head
  finish : ∀ i below, m.stack = ⟨i, [], none⟩ :: below →
    (m'.analysis.scope i).body.length = (m.analysis.scope i).body.length
  functions : ∀ j, m.enters? = some j →
    Stmt.functionNames (m'.analysis.scope j).body = Stmt.functionNames (m.analysis.scope j).body

theorem SeesAlike.head (h : m.SeesAlike m') {i : Nat} {s : Stmt} {rest : List Stmt}
    {below : List Frame} (hs : m.stack = ⟨i, s :: rest, none⟩ :: below) (d : Nat)
    (hd : (m.analysis.scope i).body.drop d = s :: rest) :
    (m'.analysis.scope i).body[d]?.map Stmt.head = some s.head := by
  have hget : (m.analysis.scope i).body[d]? = some s := by
    rw [← List.head?_drop, hd]
    rfl
  obtain ⟨hlt, _⟩ := List.getElem?_eq_some_iff.1 hget
  rw [h.statement i d ⟨hlt, by rw [hs, hd]; rfl⟩, hget]
  rfl

theorem SeesAlike.completes (h : m.SeesAlike m')
    (hanalysis : textless.analysis m'.analysis = textless.analysis m.analysis) {f f' : Frame}
    {below : List Frame} (hs : m.stack = f :: below)
    (hf : Frame.Abreast m.analysis m'.analysis f f')
    {j : Nat} {c : Bool} (hc : f.completes? m.analysis = some (j, c)) :
    f'.completes? m'.analysis = some (j, c) ∧
      Frame.Abreast m.analysis m'.analysis f.resumed f'.resumed := by
  obtain @⟨i, rest, rest', pending, hlevel⟩ := hf
  rcases Frame.completes_cases hc with hp | ⟨hp, g, tail, hrest, hj, hentered⟩
  · obtain rfl : pending = some (j, c) := hp
    exact ⟨rfl, .level hlevel⟩
  · obtain rfl : pending = none := hp
    obtain rfl : rest = .call g c :: tail := hrest
    obtain ⟨s', tail', rfl, hhead, htail⟩ := hlevel.cons (h.head hs)
    obtain rfl := Stmt.eq_call_of_head hhead
    refine ⟨?_, .level htail⟩
    simp [Frame.completes?, lookup_of_textless hanalysis, entered_of_textless hanalysis, hj,
      hentered]

/-- Machines that stand abreast, and whose bodies agree on what is looked at,
stand abreast at the next moment. -/
theorem Abreast.step (h : m.Abreast m') (hv : m.Valid) (hv' : m'.Valid) (hsees : m.SeesAlike m')
    (hok : m.step.failure = none) : m.step.Abreast m'.step := by
  have hstack := h.stack
  have hanalysis := h.analysis
  cases hs : m.stack with
  | nil =>
    rw [hs] at hstack
    rw [step_of_stack_nil hs, step_of_stack_nil (List.forall₂_nil_left_iff.1 hstack)]
    exact h
  | cons f below =>
    rw [hs] at hstack
    obtain ⟨f', below', hf, hbelow, hs'⟩ := List.forall₂_cons_left_iff.1 hstack
    have hnext := next_step hs hv
    have hext := hnext.extends hv.nested
    have hext' := hv'.extends_step
    have hbelow' : List.Forall₂ (Frame.Abreast m.step.analysis m'.step.analysis) below below' :=
      hbelow.imp fun _ _ hg => hg.mono hext hext'
    generalize m.step = next at hnext hext hbelow' hok ⊢
    cases hnext with
    | finish i =>
      obtain ⟨hlevel⟩ := hf
      obtain rfl := hlevel.nil (hsees.finish i below hs)
      rw [step_of_finish hs'] at hbelow' ⊢
      exact ⟨hanalysis, hbelow', rfl⟩
    | @note i s rest b dispatched unresolved =>
      obtain ⟨hlevel⟩ := hf
      obtain ⟨s', tail, rfl, hhead, htail⟩ := hlevel.cons (hsees.head hs)
      obtain ⟨b', hb', hsame⟩ := exists_dispatch hanalysis hhead dispatched unresolved
      rw [step_of_proceed hs' hb'] at hbelow' hext' ⊢
      exact ⟨hsame, .cons (.level (htail.mono hext hext')) hbelow', rfl⟩
    | @enter i g c rest j resolved new =>
      obtain ⟨hlevel⟩ := hf
      obtain ⟨s', tail, rfl, hhead, htail⟩ := hlevel.cons (hsees.head hs)
      obtain rfl := Stmt.eq_call_of_head hhead
      have resolved' := (lookup_of_textless hanalysis i g).trans resolved
      have new' := (entered_of_textless hanalysis j).trans new
      have hnames := hsees.functions j (enters?_of_new hs resolved new)
      have hstart := Frame.Abreast.start (hv.nested.lookup_lt resolved)
        (hv'.nested.lookup_lt resolved')
      rw [step_of_new hs' resolved' new'] at hbelow' hext' ⊢
      exact ⟨enter_congr hanalysis hnames,
        .cons (hstart.mono hext hext') (.cons (.level (htail.mono hext hext')) hbelow'), rfl⟩
    | @complete _ j c completes =>
      obtain ⟨completes', hresumed⟩ := hsees.completes hanalysis hs hf completes
      have hcompleted : textless.analysis (m'.analysis.completed f.scope j c) =
          textless.analysis (m.analysis.completed f.scope j c) := by
        rw [analysis_completed _ hv'.nested, hanalysis, analysis_completed _ hv.nested]
      have hrecursive := isRecursive_of_textless hcompleted f.scope
      rw [step_of_completes hv' hs' completes', hf.scope_eq, hrecursive] at hbelow' hext' ⊢
      refine ⟨hcompleted, ?_, rfl⟩
      dsimp only
      split
      · exact hbelow'
      · exact .cons (hresumed.mono hext hext') hbelow'
    | fail _ => simp at hok

theorem Abreast.enters (h : m.Abreast m') (hsees : m.SeesAlike m') {j : Nat}
    (hj : m.enters? = some j) : m'.enters? = some j := by
  obtain ⟨i, g, c, rest, below, hs, resolved, new⟩ := enters?_cases hj
  have hstack := h.stack
  rw [hs] at hstack
  obtain ⟨f', below', ⟨hlevel⟩, _, hs'⟩ := List.forall₂_cons_left_iff.1 hstack
  obtain ⟨s', tail, rfl, hhead, _⟩ := hlevel.cons (hsees.head hs)
  obtain rfl := Stmt.eq_call_of_head hhead
  exact enters?_of_new hs' ((lookup_of_textless h.analysis i g).trans resolved)
    ((entered_of_textless h.analysis j).trans new)

def FlagsAt (m : Machine) (i k : Nat) : Prop :=
  ∃ f below, m.stack = f :: below ∧ f.scope = i ∧
    (m.analysis.scope i).body.length = k + f.left ∧
    m.analysis.isRecursive i = false ∧ m.step.analysis.isRecursive i

theorem FlagsAt.le_of_mem {n l k : Nat} {f : Frame} (hv : m.Valid)
    (h : (m.after l).FlagsAt f.scope k) (hf : f ∈ (m.after n).stack) : n ≤ l := by
  obtain ⟨_, _, _, _, _, _, hflagged⟩ := h
  refine Nat.le_of_not_lt fun hlt => ?_
  rw [← after_succ] at hflagged
  have hrunning := ((hv.after n).fits f hf).running
  rw [(hv.extends_after hlt).isRecursive hflagged] at hrunning
  exact absurd hrunning (by simp)

theorem exists_flagsAt (hv : m.Valid) {n i : Nat} (hstart : m.analysis.isRecursive i = false)
    (h : (m.after n).analysis.isRecursive i) : ∃ l k, (m.after l).FlagsAt i k := by
  induction n with
  | zero => simp [hstart] at h
  | succ n ih =>
    by_cases hbefore : (m.after n).analysis.isRecursive i
    · exact ih hbefore
    · rw [after_succ] at h
      have hvn := hv.after n
      cases hs : (m.after n).stack with
      | nil =>
        rw [step_of_stack_nil hs] at h
        exact absurd h hbefore
      | cons f below =>
        have hscope : f.scope = i := by
          by_contra hne
          have hsame := congrArg (·.2.2) ((next_step hs hvn).findings hvn.nested (Ne.symm hne))
          exact hbefore (hsame.symm.trans h)
        have hleft := (hvn.fits f (by simp [hs])).left_le
        rw [hscope] at hleft
        exact ⟨n, _, f, below, hs, hscope, (Nat.sub_add_cancel hleft).symm,
          by simpa using hbefore, h⟩

theorem FlagsAt.le {n l i d k : Nat} (hv : m.Valid) (h : (m.after l).FlagsAt i k)
    (hd : (m.after n).Dispatches i d) : d ≤ k := by
  obtain ⟨hlt, hhead⟩ := hd
  have htop := List.mem_of_mem_head? hhead
  have hnl : n ≤ l := FlagsAt.le_of_mem hv h htop
  obtain ⟨f, below, hs, hscope, hlength, _, _⟩ := h
  have hbody := ((hv.extends_after hnl).scope i
    (Analysis.lt_size_of_entered ((hv.after n).fits _ htop).entered)).body
  rw [hbody] at hlength
  have hleft : f.left ≤ f.rest.length + 1 := by
    unfold Frame.left
    split <;> omega
  rcases Nat.eq_or_lt_of_le hnl with rfl | hlt'
  · rw [hs] at hhead
    obtain rfl : f = ⟨i, ((m.after n).analysis.scope i).body.drop d, none⟩ := by simpa using hhead
    simp only [Frame.left, List.length_drop, Option.isSome_none, Bool.false_eq_true,
      if_false] at hlength
    omega
  · obtain ⟨above, hstack⟩ := List.head?_eq_some_iff.1 hhead
    rw [List.drop_eq_getElem_cons hlt] at hstack
    have hsuffix := hv.suffix_of_dispatched hlt' hstack (g := f) (by simp [hs]) hscope
    have hle := hsuffix.length_le
    rw [List.length_drop] at hle
    omega

theorem FlagsAt.not_finish {n l i k : Nat} (hv : m.Valid) (h : (m.after l).FlagsAt i k)
    {below : List Frame} : (m.after n).stack ≠ ⟨i, [], none⟩ :: below := by
  intro hs
  have hvn := hv.after n
  have htop : ⟨i, [], none⟩ ∈ (m.after n).stack := by simp [hs]
  have hnl : n ≤ l := FlagsAt.le_of_mem hv h htop
  obtain ⟨f, above, hs', hscope, _, hrunning, hflagged⟩ := h
  have hstep := step_of_finish hs
  rcases Nat.eq_or_lt_of_le hnl with rfl | hlt
  · rw [hstep, hrunning] at hflagged
    exact absurd hflagged (by simp)
  · have hentered := (hv.extends_after (Nat.le_succ n)).entered (hvn.fits _ htop).entered
    have hout : i ∉ (m.after (n + 1)).stack.map Frame.scope := by
      have hdistinct := hvn.distinct
      rw [hs, List.map_cons, List.nodup_cons] at hdistinct
      rw [after_succ, hstep]
      exact hdistinct.1
    exact (hv.finished hlt hentered hout).1 (List.mem_map.2 ⟨f, by simp [hs'], hscope⟩)

end Machine

namespace Program

open Restriction

/-- The body `body'` is the body `body` of scope `i`, rewritten where the check of
`p` does not walk it. Of a scope that is flagged, these are the statements behind
the one at which it is, declarations apart; of a declaration, it is its body. -/
inductive SameWalked (p : Program) (i : Nat) (body body' : List Stmt) : Prop
  | returns : p.checked.isRecursive i = false → body'.map Stmt.head = body.map Stmt.head →
      SameWalked p i body body'
  | flagged {n k : Nat} : (p.opening.after n).FlagsAt i k →
      (body'.take (k + 1)).map Stmt.head = (body.take (k + 1)).map Stmt.head →
      Stmt.functionNames body' = Stmt.functionNames body → SameWalked p i body body'

/-- The program `q` is `p` with text rewritten that the check of `p` does not
walk: the scopes that it enters have the bodies they had in `p`, as far as it
walks them. -/
def Rewrites (p q : Program) : Prop :=
  ∀ path i, p.Arises path i → (p.checked.scope i).entered →
    ∃ body, q.bodyAt path = some body ∧ p.SameWalked i (p.checked.scope i).body body

variable {p q : Program} {n i k : Nat} {body body' : List Stmt} {a a' : Analysis}

theorem SameWalked.functionNames_eq (h : p.SameWalked i body body') :
    Stmt.functionNames body' = Stmt.functionNames body := by
  cases h with
  | returns _ hheads => exact Stmt.functionNames_congr hheads
  | flagged _ _ hnames => exact hnames

theorem SameWalked.statement_eq (h : p.SameWalked i body body')
    (hd : (p.opening.after n).Dispatches i k) :
    body'[k]?.map Stmt.head = body[k]?.map Stmt.head := by
  cases h with
  | returns _ hheads => rw [← List.getElem?_map, hheads, List.getElem?_map]
  | @flagged l k' hflags hheads _ =>
    have hle := hflags.le p.valid_opening hd
    have hk := congrArg (·[k]?) hheads
    simp only [List.getElem?_map, List.getElem?_take_of_lt (Nat.lt_succ_of_le hle)] at hk
    exact hk

theorem SameWalked.length_eq (h : p.SameWalked i body body') {below : List Frame}
    (hs : (p.opening.after n).stack = ⟨i, [], none⟩ :: below) : body'.length = body.length := by
  cases h with
  | returns _ hheads => simpa using congrArg List.length hheads
  | flagged hflags _ _ => exact absurd hs (hflags.not_finish p.valid_opening)

theorem Rewrites.refl (p : Program) : p.Rewrites p := by
  intro path i harises _
  refine ⟨_, harises.bodyAt_eq, ?_⟩
  cases hrecursive : p.checked.isRecursive i with
  | false => exact .returns hrecursive rfl
  | true =>
    obtain ⟨last, _, hend⟩ := p.opening.exists_run_eq
    obtain ⟨problems, hchecked, _⟩ := checked_eq hend
    rw [hchecked] at hrecursive
    have hstart : p.opening.analysis.isRecursive i = false := by
      have hfindings := congrArg (·.2.2) (Analysis.findings_opening {} p.body i)
      rw [Analysis.scope_empty] at hfindings
      exact hfindings
    obtain ⟨n, k, hflags⟩ := Machine.exists_flagsAt p.valid_opening hstart hrecursive
    exact .flagged hflags rfl rfl

structure SideBySide (p q : Program) (n : Nat) : Prop where
  abreast : (p.opening.after n).Abreast (q.opening.after n)
  arises : ∀ i < (p.opening.after n).analysis.scopes.size, ∃ path, p.Arises path i ∧ q.Arises path i

theorem arises_enter (hp : p.EntersAt n a i) (hq : q.EntersAt n a' i)
    (hanalysis : textless.analysis a' = textless.analysis a)
    (hnames : Stmt.functionNames (a'.scope i).body = Stmt.functionNames (a.scope i).body)
    (h : ∀ j < a.scopes.size, ∃ path, p.Arises path j ∧ q.Arises path j) :
    ∀ j < (a.enter i).scopes.size, ∃ path, p.Arises path j ∧ q.Arises path j := by
  intro j hj
  by_cases hold : j < a.scopes.size
  · exact h j hold
  · obtain ⟨k, hplaces⟩ := Analysis.exists_places (Nat.le_of_not_lt hold) hj
    obtain ⟨path, harises, harises'⟩ := h i hp.lt_size
    exact ⟨k :: path, .function harises hp hplaces,
      .function harises' hq (places_congr hanalysis hnames hplaces)⟩

theorem Rewrites.sameWalked (h : p.Rewrites q) {path : List Nat} (hp : p.Arises path i)
    (hq : q.Arises path i) (hentered : (p.checked.scope i).entered) :
    p.SameWalked i (p.checked.scope i).body (q.checked.scope i).body := by
  obtain ⟨body, hbody, hsame⟩ := h path i hp hentered
  rw [hq.bodyAt_eq, Option.some_inj] at hbody
  rw [hbody]
  exact hsame

theorem SideBySide.seesAlike (hside : p.SideBySide q n) (h : p.Rewrites q) :
    (p.opening.after n).SeesAlike (q.opening.after n) := by
  have hv := p.valid_opening.after n
  have hbodies : ∀ i < (p.opening.after n).analysis.scopes.size, (p.checked.scope i).entered →
      p.SameWalked i ((p.opening.after n).analysis.scope i).body
        ((q.opening.after n).analysis.scope i).body := by
    intro i hi hentered
    have hi' : i < (q.opening.after n).analysis.scopes.size := by
      have hsize := congrArg (·.scopes.size) hside.abreast.analysis
      simp only [size_analysis] at hsize
      exact hsize ▸ hi
    obtain ⟨path, hp, hq⟩ := hside.arises i hi
    rw [← ((p.extends_checked n).scope i hi).body, ← ((q.extends_checked n).scope i hi').body]
    exact h.sameWalked hp hq hentered
  have hstack : ∀ f ∈ (p.opening.after n).stack,
      p.SameWalked f.scope ((p.opening.after n).analysis.scope f.scope).body
        ((q.opening.after n).analysis.scope f.scope).body := by
    intro f hf
    have hentered := (hv.fits f hf).entered
    exact hbodies _ (Analysis.lt_size_of_entered hentered) ((p.extends_checked n).entered hentered)
  refine ⟨fun i k hd => ?_, fun i below hs => ?_, fun j hj => ?_⟩
  · exact (hstack _ (List.mem_of_mem_head? hd.2)).statement_eq hd
  · exact (hstack _ (by rw [hs]; exact List.mem_cons_self)).length_eq hs
  · have hat : p.EntersAt (n + 1) (p.opening.after n).analysis j := .call hj
    exact (hbodies j hat.lt_size ((p.extends_checked (n + 1)).entered hat.entered)).functionNames_eq

theorem SideBySide.zero (h : Stmt.functionNames q.body = Stmt.functionNames p.body) :
    p.SideBySide q 0 := by
  have hroot : p.EntersAt 0 (({} : Analysis).addRoot p.body) 0 := .root
  have hanalysis : textless.analysis (({} : Analysis).addRoot q.body) =
      textless.analysis (({} : Analysis).addRoot p.body) := by
    rw [analysis_addRoot, analysis_addRoot]
    rfl
  have hnames : Stmt.functionNames ((({} : Analysis).addRoot q.body).scope 0).body =
      Stmt.functionNames ((({} : Analysis).addRoot p.body).scope 0).body := by
    rw [Analysis.scope_addRoot, Analysis.scope_addRoot]
    exact h
  refine ⟨⟨enter_congr hanalysis hnames, ?_, rfl⟩, arises_enter .root .root hanalysis hnames ?_⟩
  · have hroot' : q.EntersAt 0 (({} : Analysis).addRoot q.body) 0 := .root
    have hstart := Frame.Abreast.start hroot.lt_size hroot'.lt_size
    exact .cons (hstart.mono ((Analysis.Enters.enter _ hroot.lt_size).extends hroot.new)
      ((Analysis.Enters.enter _ hroot'.lt_size).extends hroot'.new)) .nil
  · intro i hi
    obtain rfl : i = 0 := by simpa [Analysis.addRoot] using hi
    exact ⟨[], .root, .root⟩

theorem SideBySide.succ (hside : p.SideBySide q n)
    (hsees : (p.opening.after n).SeesAlike (q.opening.after n))
    (hok : (p.opening.after (n + 1)).failure = none) : p.SideBySide q (n + 1) := by
  have hv := p.valid_opening.after n
  rw [Machine.after_succ] at hok
  have hstep := hside.abreast.step hv (q.valid_opening.after n) hsees hok
  rw [← Machine.after_succ, ← Machine.after_succ] at hstep
  refine ⟨hstep, ?_⟩
  rw [Machine.after_succ]
  rcases hv.enters_or_within with ⟨j, hj⟩ | ⟨i, hwithin⟩
  · rw [Machine.analysis_of_enters hj]
    exact arises_enter (.call hj) (.call (hside.abreast.enters hsees hj)) hside.abreast.analysis
      (hsees.functions j hj) hside.arises
  · rw [hwithin.size]
    exact hside.arises

theorem Rewrites.functionNames_eq (h : p.Rewrites q) :
    Stmt.functionNames q.body = Stmt.functionNames p.body := by
  have hroot : p.EntersAt 0 (({} : Analysis).addRoot p.body) 0 := .root
  have hsame := h.sameWalked .root .root ((p.extends_checked 0).entered hroot.entered)
  have hp : p.body = (p.checked.scope 0).body := Option.some.inj Arises.root.bodyAt_eq
  have hq : q.body = (q.checked.scope 0).body := Option.some.inj Arises.root.bodyAt_eq
  rw [← hp, ← hq] at hsame
  exact hsame.functionNames_eq

theorem Rewrites.sideBySide (h : p.Rewrites q) {last : Nat}
    (hok : (p.opening.after last).failure = none) (hle : n ≤ last) : p.SideBySide q n := by
  induction n with
  | zero => exact .zero h.functionNames_eq
  | succ n ih =>
    have hside := ih (Nat.le_of_succ_le hle)
    exact hside.succ (hside.seesAlike h) (p.valid_opening.failure_of_le hle hok)

/-- Text that a check does not walk has no part in its result. Where the check of
`p` gives a list, the check of a program `q` that rewrites such text gives the
same list, counts the same scopes, makes its scopes for the same declarations,
and finds out the same about each of them. -/
theorem problems_of_rewrites {ps : List Problem} (hok : p.problems = .ok ps) (h : p.Rewrites q) :
    q.problems = .ok ps ∧ q.checked.count = p.checked.count ∧
      q.checked.scopes.size = p.checked.scopes.size ∧
      (∀ path i, p.Arises path i ↔ q.Arises path i) ∧
      ∀ i, q.checked.scope i = { p.checked.scope i with body := (q.checked.scope i).body } := by
  obtain ⟨n, hend, hnone⟩ := exists_end_of_problems_eq hok
  have hside := h.sideBySide hnone (Nat.le_refl n)
  have hend' : (q.opening.after n).stack = [] := by
    have hstack := hside.abreast.stack
    rw [hend] at hstack
    exact List.forall₂_nil_left_iff.1 hstack
  have hnone' := hside.abreast.failure.trans hnone
  have hchecked : textless.analysis q.checked = textless.analysis p.checked := by
    rw [analysis_checked _ hend' hnone', hside.abreast.analysis, analysis_checked _ hend hnone]
  have hsize : q.checked.scopes.size = p.checked.scopes.size := by
    simpa using congrArg (·.scopes.size) hchecked
  have hcount : (textless.analysis q.checked).count = (textless.analysis p.checked).count := by
    rw [hchecked]
  have hproblems : q.checked.problems = p.checked.problems := by
    rw [← problems_textless, hchecked, problems_textless]
  have harises : ∀ i < p.checked.scopes.size, ∃ path, p.Arises path i ∧ q.Arises path i := by
    intro i hi
    obtain ⟨problems, heq, _⟩ := checked_eq hend
    rw [heq] at hi
    exact hside.arises i hi
  refine ⟨?_, hcount, hsize, fun path i => ⟨fun hp => ?_, fun hq => ?_⟩,
    scope_eq_of_textless hchecked⟩
  · rw [problems_eq_ok hend' hnone', hproblems, ← problems_eq_ok hend hnone, hok]
  · obtain ⟨path', hp', hq'⟩ := harises i hp.lt_size
    rw [hp.unique_path hp']
    exact hq'
  · obtain ⟨path', hp', hq'⟩ := harises i (hsize ▸ hq.lt_size)
    rw [hq.unique_path hq']
    exact hp'

def circling : Program :=
  ⟨[.function "Idle" [.print "x"],
    .function "Loop" [.print "y", .call "Loop" false, .print "z", .function "Inner" [.assign "z"]],
    .function "Idle" [.assign "x"],
    .call "Loop" false, .print "w"]⟩

def circlingRewritten : Program :=
  ⟨[.function "Idle" [.bare],
    .function "Loop" [.print "y", .call "Loop" false, .function "Inner" [.block []], .declare "v"],
    .function "Idle" [],
    .call "Loop" false, .bare, .block [.bare]]⟩

theorem problems_of_rewrites_circling :
    circling.Rewrites circlingRewritten ∧
      circling.problems = .ok [⟨.alreadyDeclared, "Idle"⟩, ⟨.notDeclared, "y"⟩] ∧
      circlingRewritten.problems = .ok [⟨.alreadyDeclared, "Idle"⟩, ⟨.notDeclared, "y"⟩] ∧
      circlingRewritten.checked.count = 2 := by
  have hend : (circling.opening.after 10).stack = [] := rfl
  have hok : (circling.opening.after 10).failure = none := rfl
  have hproblems : circling.problems = .ok [⟨.alreadyDeclared, "Idle"⟩, ⟨.notDeclared, "y"⟩] :=
    problems_eq_sweep hend hok
  have hloop : circling.Arises [1] 2 := .function .root .root ⟨by decide, by decide⟩
  have hrewrites : circling.Rewrites circlingRewritten := by
    intro path i harises hentered
    rw [scope_checked hend hok] at hentered ⊢
    have hwhich : ∀ i < 4, ((circling.opening.after 10).analysis.scope i).entered →
        i = 0 ∨ i = 2 := by
      decide
    have hi := hwhich i (Analysis.lt_size_of_entered hentered) hentered
    rcases hi with rfl | rfl
    · rw [harises.unique_path .root]
      exact ⟨_, rfl, .flagged (n := 6) (k := 3) ⟨_, _, rfl, rfl, rfl, rfl, rfl⟩ rfl rfl⟩
    · rw [harises.unique_path hloop]
      exact ⟨_, rfl, .flagged (n := 5) (k := 1) ⟨_, _, rfl, rfl, rfl, rfl, rfl⟩ rfl rfl⟩
  obtain ⟨hsame, hcount, _⟩ := problems_of_rewrites hproblems hrewrites
  have hcircling : circling.checked.count = 2 := by
    rw [checked, check_eq_sweep hend hok]
    rfl
  exact ⟨hrewrites, hproblems, hsame, hcount.trans hcircling⟩

end Program

end DefiniteAssignment
