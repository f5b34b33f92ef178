import DefiniteAssignment.Proofs.Nesting
import Mathlib.Logic.Function.Iterate

/-! The moments of a walk. A step finishes a body, notes something about the
scope on top of the stack, enters a scope, completes a call or fails; the
invariants of a walk and its order are read off these five cases. -/
namespace DefiniteAssignment

namespace Frame

/-- The call that the next step of a frame completes: the called scope, which
has been entered, and whether the call is conditional. -/
def completes? (f : Frame) (a : Analysis) : Option (Nat × Bool) :=
  match f.pending, f.rest with
  | some call, _ => some call
  | none, .call g conditional :: _ =>
    match a.lookup f.scope g with
    | some j => if (a.scope j).entered then some (j, conditional) else none
    | none => none
  | none, _ => none

def resumed (f : Frame) : Frame :=
  match f.pending with
  | some _ => ⟨f.scope, f.rest, none⟩
  | none => ⟨f.scope, f.rest.tail, none⟩

@[simp] theorem scope_resumed (f : Frame) : f.resumed.scope = f.scope := by
  unfold resumed
  split <;> rfl

@[simp] theorem pending_resumed (f : Frame) : f.resumed.pending = none := by
  unfold resumed
  split <;> rfl

/-- A frame of a walk: its scope is entered and not known to be recursive, what
is left of the body ends the body, and a call it waits for stands before that. -/
structure Fits (f : Frame) (a : Analysis) : Prop where
  entered : (a.scope f.scope).entered
  running : a.isRecursive f.scope = false
  rest : f.rest <:+ (a.scope f.scope).body
  pending : ∀ j conditional, f.pending = some (j, conditional) → (a.scope j).entered ∧
    ∃ g, a.lookup f.scope g = some j ∧ .call g conditional :: f.rest <:+ (a.scope f.scope).body

end Frame

namespace Machine

def completes? (m : Machine) : Option (Nat × Nat × Bool) :=
  match m.stack with
  | [] => none
  | f :: _ => (f.completes? m.analysis).map (f.scope, ·)

/-- What a step of frame `f`, on top of `below`, can lead to. -/
inductive Next (a : Analysis) (below : List Frame) : Frame → Machine → Prop
  | finish (i : Nat) : Next a below ⟨i, [], none⟩ ⟨a, below, none⟩
  | note {i : Nat} {s : Stmt} {rest : List Stmt} {b : Analysis}
      (dispatched : a.dispatch i s = (b, .proceed))
      (unresolved : ∀ g c, s = .call g c → a.lookup i g = none) :
      Next a below ⟨i, s :: rest, none⟩ ⟨b, ⟨i, rest, none⟩ :: below, none⟩
  | enter {i : Nat} {g : String} {c : Bool} {rest : List Stmt} {j : Nat}
      (resolved : a.lookup i g = some j) (new : (a.scope j).entered = false) :
      Next a below ⟨i, .call g c :: rest, none⟩
        ⟨a.enter j, .start a j :: ⟨i, rest, some (j, c)⟩ :: below, none⟩
  | complete {f : Frame} {j : Nat} {c : Bool} (completes : f.completes? a = some (j, c)) :
      Next a below f ⟨a.completed f.scope j c,
        if (a.completed f.scope j c).isRecursive f.scope then below else f.resumed :: below, none⟩
  | fail {i : Nat} {s : Stmt} {rest : List Stmt} {failure : Failure}
      (outside : s = .bare ∨ ∃ body, s = .block body) :
      Next a below ⟨i, s :: rest, none⟩ ⟨a, [], some failure⟩

structure Valid (m : Machine) : Prop where
  nested : m.analysis.WellNested
  fits : ∀ f ∈ m.stack, f.Fits m.analysis
  distinct : (m.stack.map Frame.scope).Nodup
  halted : m.failure ≠ none → m.stack = []

end Machine

namespace Frame

variable {f : Frame} {a b : Analysis}

theorem completes_cases {j : Nat} {c : Bool} (h : f.completes? a = some (j, c)) :
    f.pending = some (j, c) ∨ f.pending = none ∧ ∃ g rest, f.rest = .call g c :: rest ∧
      a.lookup f.scope g = some j ∧ (a.scope j).entered := by
  obtain ⟨i, rest, pending⟩ := f
  cases pending with
  | some call => exact .inl h
  | none =>
    refine .inr ⟨rfl, ?_⟩
    cases rest with
    | nil => simp [completes?] at h
    | cons s rest =>
      cases s with
      | call g conditional =>
        simp only [completes?] at h
        split at h
        · rename_i k hk
          split at h
          · rename_i hentered
            obtain ⟨rfl, rfl⟩ : k = j ∧ conditional = c := by simpa using h
            exact ⟨g, rest, rfl, hk, hentered⟩
          · simp at h
        · simp at h
      | _ => simp [completes?] at h

theorem Fits.completes (h : f.Fits a) {j : Nat} {c : Bool} (hc : f.completes? a = some (j, c)) :
    (a.scope j).entered ∧ ∃ g, a.lookup f.scope g = some j ∧
      .call g c :: f.resumed.rest <:+ (a.scope f.scope).body := by
  rcases completes_cases hc with hp | ⟨hp, g, rest, hrest, hj, hentered⟩
  · have hresumed : f.resumed.rest = f.rest := by simp [resumed, hp]
    rw [hresumed]
    exact h.pending j c hp
  · have hresumed : f.resumed.rest = rest := by simp [resumed, hp, hrest]
    rw [hresumed]
    exact ⟨hentered, g, hj, hrest ▸ h.rest⟩

theorem fits_start (hn : a.WellNested) {j : Nat} (hj : j < a.scopes.size)
    (new : (a.scope j).entered = false) : (start a j).Fits (a.enter j) := by
  obtain ⟨t, ht⟩ := (Analysis.Enters.enter a hj).own
  obtain ⟨name, body, enclosing, hfresh⟩ := hn.fresh j new
  refine ⟨by rw [start, ht], ?_, ?_, by simp [start]⟩
  · rw [start, Analysis.isRecursive, ht, hfresh]
  · simp [start, ht]

theorem Fits.extends (h : f.Fits a) (hn : a.WellNested) (he : Analysis.Extends a b)
    (hr : b.isRecursive f.scope = false) : f.Fits b := by
  have hscope := he.scope f.scope (Analysis.lt_size_of_entered h.entered)
  refine ⟨he.entered h.entered, hr, by rw [hscope.body]; exact h.rest, ?_⟩
  intro j c hp
  obtain ⟨hj, g, hg, hbody⟩ := h.pending j c hp
  refine ⟨he.entered hj, g, ?_, by rw [hscope.body]; exact hbody⟩
  rw [hn.lookup_extends he h.entered]
  exact hg

theorem Fits.tail {i : Nat} {s : Stmt} {rest : List Stmt} (h : Fits ⟨i, s :: rest, none⟩ a) :
    Fits ⟨i, rest, none⟩ a :=
  ⟨h.entered, h.running, (List.suffix_cons s rest).trans h.rest, by simp⟩

theorem Fits.waiting {i j : Nat} {g : String} {c : Bool} {rest : List Stmt}
    (h : Fits ⟨i, .call g c :: rest, none⟩ a) (hg : a.lookup i g = some j)
    (hj : (a.scope j).entered) : Fits ⟨i, rest, some (j, c)⟩ a := by
  refine ⟨h.entered, h.running, h.tail.rest, ?_⟩
  rintro k d ⟨⟩
  exact ⟨hj, g, hg, h.rest⟩

theorem Fits.resumed (h : f.Fits a) : f.resumed.Fits a := by
  obtain ⟨i, rest, pending⟩ := f
  cases pending with
  | some call => exact ⟨h.entered, h.running, h.rest, by simp⟩
  | none => exact ⟨h.entered, h.running, (List.tail_suffix rest).trans h.rest, by simp⟩

end Frame

namespace Machine

variable {m : Machine}

theorem advance_of_completes (hv : m.Valid) {f : Frame} (hf : f ∈ m.stack) {j : Nat} {c : Bool}
    (hc : f.completes? m.analysis = some (j, c)) :
    f.advance m.analysis = (m.analysis.completed f.scope j c, f.resumed,
      if (m.analysis.completed f.scope j c).isRecursive f.scope then .unreachable
      else .proceed) := by
  have hj := ((hv.fits f hf).completes hc).1
  have hcomplete := hv.nested.complete_eq (Analysis.lt_size_of_entered hj) f.scope c
  obtain ⟨i, rest, pending⟩ := f
  rcases Frame.completes_cases hc with hp | ⟨hp, g, rest', hrest, hg, hentered⟩
  · obtain rfl : pending = some (j, c) := hp
    simp only [Frame.advance, hcomplete]
    rfl
  · obtain rfl : pending = none := hp
    obtain rfl : rest = .call g c :: rest' := hrest
    have hd : m.analysis.dispatch i (.call g c) = m.analysis.complete i j c := by
      simp [Analysis.dispatch, Analysis.resolveCall, hg, hentered]
    simp only [Frame.advance, hd, hcomplete]
    rfl

theorem step_of_completes (hv : m.Valid) {f : Frame} {below : List Frame}
    (hs : m.stack = f :: below) {j : Nat} {c : Bool} (hc : f.completes? m.analysis = some (j, c)) :
    m.step = ⟨m.analysis.completed f.scope j c,
      if (m.analysis.completed f.scope j c).isRecursive f.scope then below
      else f.resumed :: below, none⟩ := by
  have hadvance := advance_of_completes hv (hs ▸ List.mem_cons_self) hc
  rw [step, hs]
  simp only [hadvance]
  split
  · rfl
  · rfl

theorem step_of_new {i : Nat} {g : String} {c : Bool} {rest : List Stmt} {below : List Frame}
    (hs : m.stack = ⟨i, .call g c :: rest, none⟩ :: below) {j : Nat}
    (hj : m.analysis.lookup i g = some j) (new : (m.analysis.scope j).entered = false) :
    m.step = ⟨m.analysis.enter j,
      .start m.analysis j :: ⟨i, rest, some (j, c)⟩ :: below, none⟩ := by
  have hd : m.analysis.dispatch i (.call g c) = (m.analysis, .suspend j c) := by
    simp [Analysis.dispatch, Analysis.resolveCall, hj, new]
  simp [step, hs, Frame.advance, hd, follow]

theorem step_of_proceed {i : Nat} {s : Stmt} {rest : List Stmt} {below : List Frame}
    (hs : m.stack = ⟨i, s :: rest, none⟩ :: below) {b : Analysis}
    (hd : m.analysis.dispatch i s = (b, .proceed)) :
    m.step = ⟨b, ⟨i, rest, none⟩ :: below, none⟩ := by
  simp [step, hs, Frame.advance, hd, follow]

theorem step_of_fail {i : Nat} {s : Stmt} {rest : List Stmt} {below : List Frame}
    (hs : m.stack = ⟨i, s :: rest, none⟩ :: below) {b : Analysis} {failure : Failure}
    (hd : m.analysis.dispatch i s = (b, .fail failure)) : m.step = ⟨b, [], some failure⟩ := by
  simp [step, hs, Frame.advance, hd, follow]

theorem step_of_finish {i : Nat} {below : List Frame} (hs : m.stack = ⟨i, [], none⟩ :: below) :
    m.step = ⟨m.analysis, below, none⟩ := by
  simp [step, hs, Frame.advance, follow]

theorem Valid.failure_eq_none (hv : m.Valid) {f : Frame} {below : List Frame}
    (hs : m.stack = f :: below) : m.failure = none := by
  cases hfailure : m.failure with
  | none => rfl
  | some failure =>
    have hnil := hv.halted (by simp [hfailure])
    simp [hs] at hnil

theorem next_step {f : Frame} {below : List Frame} (hs : m.stack = f :: below) (hv : m.Valid) :
    Next m.analysis below f m.step := by
  cases hc : f.completes? m.analysis with
  | some call =>
    rw [step_of_completes hv hs hc]
    exact .complete hc
  | none =>
    obtain ⟨i, rest, pending⟩ := f
    cases pending with
    | some call => simp [Frame.completes?] at hc
    | none =>
      cases rest with
      | nil =>
        rw [step_of_finish hs]
        exact .finish i
      | cons s rest =>
        cases s with
        | declare _ | assign _ | print _ | function _ _ =>
          rw [step_of_proceed hs rfl]
          exact .note rfl (by simp)
        | bare =>
          rw [step_of_fail hs rfl]
          exact .fail (.inl rfl)
        | block body =>
          rw [step_of_fail hs rfl]
          exact .fail (.inr ⟨body, rfl⟩)
        | call g c =>
          cases hg : m.analysis.lookup i g with
          | none =>
            have hd : m.analysis.dispatch i (.call g c) =
                (m.analysis.report .unknownFunction g, .proceed) := by
              simp [Analysis.dispatch, Analysis.resolveCall, hg]
            rw [step_of_proceed hs hd]
            exact .note hd (by simp [hg])
          | some j =>
            have hj : (m.analysis.scope j).entered = false := by
              simpa [Frame.completes?, hg] using hc
            rw [step_of_new hs hg hj]
            exact .enter hg hj

theorem Next.extends {a : Analysis} {below : List Frame} {f : Frame} {m : Machine}
    (h : Next a below f m) (hn : a.WellNested) : Analysis.Extends a m.analysis := by
  cases h with
  | finish i => exact .refl a
  | note dispatched unresolved =>
    exact (Analysis.Notes.dispatch dispatched unresolved).within.extends
  | enter resolved new => exact (Analysis.Enters.enter a (hn.lookup_lt resolved)).extends new
  | complete completes => exact (Analysis.Within.completed a _ _ _).extends
  | fail _ => exact .refl a

theorem Next.findings {a : Analysis} {below : List Frame} {f : Frame} {m : Machine}
    (h : Next a below f m) (hn : a.WellNested) {i : Nat} (hi : i ≠ f.scope) :
    (m.analysis.scope i).findings = (a.scope i).findings := by
  cases h with
  | finish i => rfl
  | note dispatched unresolved =>
    rw [(Analysis.Notes.dispatch dispatched unresolved).other i hi]
  | enter resolved new => exact (Analysis.Enters.enter a (hn.lookup_lt resolved)).findings i
  | complete completes => rw [(Analysis.Within.completed a _ _ _).other i hi]
  | fail _ => rfl

theorem Next.fits_below {a : Analysis} {below : List Frame} {f : Frame} {m : Machine}
    (h : Next a below f m) (hv : Valid ⟨a, f :: below, none⟩) :
    ∀ g ∈ below, g.Fits m.analysis := by
  intro g hg
  -- Only the scope on top can be found to be recursive.
  have hne : g.scope ≠ f.scope := by
    intro he
    have hd := hv.distinct
    rw [List.map_cons, List.nodup_cons] at hd
    exact hd.1 (he ▸ List.mem_map_of_mem hg)
  have hfits := hv.fits g (List.mem_cons_of_mem _ hg)
  refine hfits.extends hv.nested (h.extends hv.nested) ?_
  have hsame := congrArg (fun s => s.2.2) (h.findings hv.nested hne)
  exact hsame.trans hfits.running

theorem Next.valid {a : Analysis} {below : List Frame} {f : Frame} {m : Machine}
    (h : Next a below f m) (hv : Valid ⟨a, f :: below, none⟩) : m.Valid := by
  have hn := hv.nested
  have hext := h.extends hn
  have hbelow := h.fits_below hv
  have hf := hv.fits f List.mem_cons_self
  have hdistinct := hv.distinct
  have hdistinct' : (below.map Frame.scope).Nodup := (List.nodup_cons.1 hdistinct).2
  cases h with
  | finish i => exact ⟨hn, hbelow, hdistinct', by simp⟩
  | @note i s rest b dispatched unresolved =>
    have hnotes := Analysis.Notes.dispatch dispatched unresolved
    have hknown := Analysis.known_dispatch (Analysis.lt_size_of_entered hf.entered) dispatched
      unresolved (hn.known i)
    refine ⟨hn.notes hnotes hf.entered hknown, ?_, hdistinct, by simp⟩
    intro g hg
    rcases List.mem_cons.1 hg with rfl | hg
    · exact (hf.extends hn hext ((hnotes.isRecursive i).trans hf.running)).tail
    · exact hbelow g hg
  | @enter i g c rest j resolved new =>
    have hj := hn.lookup_lt resolved
    have hne : i ≠ j := by
      rintro rfl
      simp [hf.entered] at new
    have henters := Analysis.Enters.enter a hj
    obtain ⟨t, ht⟩ := henters.own
    have hwaiting : Frame.Fits ⟨i, rest, some (j, c)⟩ (a.enter j) := by
      have hsame := henters.other i (Analysis.lt_size_of_entered hf.entered) hne
      have hfits := hf.extends hn hext (by rw [Analysis.isRecursive, hsame]; exact hf.running)
      exact hfits.waiting ((hn.lookup_extends hext hf.entered g).trans resolved) (by rw [ht])
    refine ⟨hn.enters hj henters, ?_, ?_, by simp⟩
    · intro f hmem
      rcases List.mem_cons.1 hmem with rfl | hmem
      · exact Frame.fits_start hn hj new
      · rcases List.mem_cons.1 hmem with rfl | hmem
        · exact hwaiting
        · exact hbelow f hmem
    · refine List.nodup_cons.2 ⟨?_, hdistinct⟩
      intro hmem
      obtain ⟨k, hk, hkj⟩ := List.mem_map.1 hmem
      replace hkj : k.scope = j := hkj
      have hentered : (a.scope j).entered := by
        rcases List.mem_cons.1 hk with rfl | hk
        · exact absurd hkj hne
        · exact hkj ▸ (hv.fits k (List.mem_cons_of_mem _ hk)).entered
      simp [hentered] at new
  | @complete _ j c completes =>
    have hj := (hf.completes completes).1
    have hcompleted := hn.completed hf.entered (Analysis.lt_size_of_entered hj) c
    split
    · exact ⟨hcompleted, hbelow, hdistinct', by simp⟩
    · rename_i hrunning
      refine ⟨hcompleted, ?_, by simpa using hdistinct, by simp⟩
      intro k hk
      rcases List.mem_cons.1 hk with rfl | hk
      · exact (hf.extends hn hext (by simpa using hrunning)).resumed
      · exact hbelow k hk
  | fail _ => exact ⟨hn, by simp, by simp, by simp⟩

theorem Valid.step (hv : m.Valid) : m.step.Valid := by
  cases hs : m.stack with
  | nil =>
    have hstep : m.step = m := by simp [Machine.step, hs]
    rw [hstep]
    exact hv
  | cons f below =>
    refine (next_step hs hv).valid ⟨hv.nested, ?_, ?_, by simp⟩
    · exact hs ▸ hv.fits
    · exact hs ▸ hv.distinct

def after (m : Machine) (n : Nat) : Machine := step^[n] m

@[simp] theorem after_zero (m : Machine) : m.after 0 = m := rfl

theorem after_succ (m : Machine) (n : Nat) : m.after (n + 1) = (m.after n).step :=
  Function.iterate_succ_apply' step n m

theorem step_of_stack_nil (h : m.stack = []) : m.step = m := by simp [step, h]

theorem after_of_le {n k : Nat} (hle : n ≤ k) (h : (m.after n).stack = []) :
    m.after k = m.after n := by
  induction hle with
  | refl => rfl
  | step _ ih => rw [after_succ, ih, step_of_stack_nil h]

theorem Valid.after (hv : m.Valid) (n : Nat) : (m.after n).Valid := by
  induction n with
  | zero => exact hv
  | succ n ih =>
    rw [after_succ]
    exact ih.step

theorem Valid.extends_step (hv : m.Valid) : Analysis.Extends m.analysis m.step.analysis := by
  cases hs : m.stack with
  | nil =>
    rw [step_of_stack_nil hs]
    exact .refl _
  | cons f below => exact (next_step hs hv).extends hv.nested

theorem Valid.extends_after (hv : m.Valid) {n k : Nat} (hle : n ≤ k) :
    Analysis.Extends (m.after n).analysis (m.after k).analysis := by
  induction hle with
  | refl => exact .refl _
  | step _ ih =>
    rw [after_succ]
    exact ih.trans (hv.after _).extends_step

theorem Valid.forall_body_step (hv : m.Valid) {P : List Stmt → Prop} (hnil : P [])
    (hinner : ∀ body f inner, P body → .function f inner ∈ body → P inner)
    (h : ∀ j, P (m.analysis.scope j).body) (j : Nat) : P (m.step.analysis.scope j).body := by
  cases hs : m.stack with
  | nil =>
    rw [step_of_stack_nil hs]
    exact h j
  | cons f below =>
    have hnext := next_step hs hv
    generalize m.step = m' at hnext
    cases hnext with
    | finish i => exact h j
    | note dispatched unresolved =>
      rw [(Analysis.Notes.dispatch dispatched unresolved).within.body]
      exact h j
    | enter resolved new =>
      exact (Analysis.Enters.enter _ (hv.nested.lookup_lt resolved)).forall_body hnil hinner h j
    | complete _ =>
      rw [(Analysis.Within.completed _ _ _ _).body]
      exact h j
    | fail _ => exact h j

theorem Valid.forall_body_after (hv : m.Valid) {P : List Stmt → Prop} (hnil : P [])
    (hinner : ∀ body f inner, P body → .function f inner ∈ body → P inner)
    (h : ∀ j, P (m.analysis.scope j).body) (n j : Nat) :
    P ((m.after n).analysis.scope j).body := by
  induction n generalizing j with
  | zero => exact h j
  | succ n ih =>
    rw [after_succ]
    exact (hv.after n).forall_body_step hnil hinner ih j

theorem exists_run_eq (m : Machine) : ∃ n, m.run = m.after n ∧ (m.after n).stack = [] := by
  fun_induction run m with
  | case1 m h => exact ⟨0, rfl, h⟩
  | case2 m h ih =>
    obtain ⟨n, hrun, hn⟩ := ih
    have hafter : m.after (n + 1) = m.step.after n := Function.iterate_succ_apply step n m
    exact ⟨n + 1, by rw [hrun, hafter], by rw [hafter, hn]⟩

theorem run_eq_after {n : Nat} (h : (m.after n).stack = []) : m.run = m.after n := by
  obtain ⟨k, hrun, hk⟩ := m.exists_run_eq
  rw [hrun]
  rcases Nat.le_total n k with hle | hle
  · exact after_of_le hle h
  · exact (after_of_le hle hk).symm

theorem Next.stack_append {a : Analysis} {f : Frame} {top below : List Frame} {m : Machine}
    (h : Next a (top ++ below) f m) (hok : m.failure = none) :
    (top = [] ∧ m.stack = below) ∨ ∃ top', top' ≠ [] ∧ m.stack = top' ++ below := by
  have hpop : (top = [] ∧ top ++ below = below) ∨ ∃ top', top' ≠ [] ∧ top ++ below = top' ++ below := by
    cases top with
    | nil => exact .inl ⟨rfl, rfl⟩
    | cons g top => exact .inr ⟨g :: top, by simp, rfl⟩
  cases h with
  | finish i => exact hpop
  | @note i s rest b _ _ => exact .inr ⟨⟨i, rest, none⟩ :: top, by simp, rfl⟩
  | @enter i g c rest j _ _ =>
    exact .inr ⟨.start a j :: ⟨i, rest, some (j, c)⟩ :: top, by simp, rfl⟩
  | complete _ =>
    dsimp only
    split
    · exact hpop
    · exact .inr ⟨f.resumed :: top, by simp, rfl⟩
  | fail _ => simp at hok

theorem Valid.failure_of_le (hv : m.Valid) {n k : Nat} (hle : n ≤ k)
    (h : (m.after k).failure = none) : (m.after n).failure = none := by
  by_cases hn : (m.after n).failure = none
  · exact hn
  · rw [after_of_le hle ((hv.after n).halted hn)] at h
    exact h

/-- What lies on top of a stack is gone before what lies below it: a walk that
ends well comes back to `below`, and until then works above it. -/
theorem Valid.exists_stack_eq (hv : m.Valid) {n k : Nat} (hle : n ≤ k) {top below : List Frame}
    (hstack : (m.after n).stack = top ++ below) (hend : (m.after k).stack = [])
    (hok : (m.after k).failure = none) :
    ∃ l, n ≤ l ∧ l ≤ k ∧ (m.after l).stack = below ∧
      ∀ j, n ≤ j → j < l → ∃ top', top' ≠ [] ∧ (m.after j).stack = top' ++ below := by
  obtain ⟨d, rfl⟩ := Nat.exists_eq_add_of_le hle
  induction d generalizing n top with
  | zero =>
    obtain ⟨rfl, rfl⟩ : top = [] ∧ below = [] := by simpa [hstack] using hend
    exact ⟨n, Nat.le_refl n, hle, hstack, fun j hj hj' => absurd hj' (Nat.not_lt.2 hj)⟩
  | succ d ih =>
    cases top with
    | nil => exact ⟨n, Nat.le_refl n, hle, hstack, fun j hj hj' => absurd hj' (Nat.not_lt.2 hj)⟩
    | cons f top =>
      have hnext := next_step hstack (hv.after n)
      rw [← after_succ] at hnext
      have hok' := hv.failure_of_le (n := n + 1) (by omega) hok
      -- Either the first step removes the last frame above, or it keeps some frame there.
      rcases hnext.stack_append hok' with ⟨rfl, hpop⟩ | ⟨top', hne, hstack'⟩
      · refine ⟨n + 1, by omega, by omega, hpop, fun j hj hj' => ?_⟩
        obtain rfl : j = n := by omega
        exact ⟨[f], by simp, hstack⟩
      · have hadd : n + (d + 1) = n + 1 + d := by omega
        rw [hadd] at hend hok ⊢
        obtain ⟨l, hl, hlk, hbelow, hbetween⟩ := ih hstack' (by omega) hend hok
        refine ⟨l, by omega, hlk, hbelow, fun j hj hj' => ?_⟩
        rcases Nat.eq_or_lt_of_le hj with rfl | hj
        · exact ⟨f :: top, by simp, hstack⟩
        · exact hbetween j hj hj'

theorem Valid.findings_step (hv : m.Valid) {i : Nat}
    (hi : ∀ f below, m.stack = f :: below → i ≠ f.scope) :
    (m.step.analysis.scope i).findings = (m.analysis.scope i).findings := by
  cases hs : m.stack with
  | nil => rw [step_of_stack_nil hs]
  | cons f below => exact (next_step hs hv).findings hv.nested (hi f below hs)

theorem Valid.findings_waiting (hv : m.Valid) {n l : Nat} (hle : n ≤ l) {below : List Frame}
    (hbetween : ∀ j, n ≤ j → j < l → ∃ top, top ≠ [] ∧ (m.after j).stack = top ++ below)
    {f : Frame} (hf : f ∈ below) :
    ((m.after l).analysis.scope f.scope).findings =
      ((m.after n).analysis.scope f.scope).findings := by
  induction hle with
  | refl => rfl
  | @step l hle ih =>
    rw [after_succ, (hv.after l).findings_step, ih fun j hj hj' => hbetween j hj (Nat.lt_succ_of_lt hj')]
    intro g rest hg heq
    obtain ⟨top, hne, hstack⟩ := hbetween l hle (Nat.lt_succ_self l)
    have hd := (hv.after l).distinct
    cases top with
    | nil => exact hne rfl
    | cons g' top =>
      obtain ⟨rfl, rfl⟩ : g = g' ∧ rest = top ++ below := by simpa [hg] using hstack
      rw [hg, List.map_cons, List.nodup_cons] at hd
      exact hd.1 (heq ▸ List.mem_map_of_mem (List.mem_append_right top hf))

theorem Next.exists_frame {a : Analysis} {below : List Frame} {f : Frame} {m : Machine}
    (h : Next a below f m) {g : Frame} (hg : g ∈ m.stack) :
    (∃ f' ∈ f :: below, f'.scope = g.scope ∧ g.rest <:+ f'.rest) ∨
      (a.scope g.scope).entered = false := by
  have hbelow : g ∈ below → ∃ f' ∈ f :: below, f'.scope = g.scope ∧ g.rest <:+ f'.rest :=
    fun hg => ⟨g, List.mem_cons_of_mem _ hg, rfl, List.suffix_rfl⟩
  cases h with
  | finish i => exact .inl (hbelow hg)
  | @note i s rest b _ _ =>
    rcases List.mem_cons.1 hg with rfl | hg
    · exact .inl ⟨_, List.mem_cons_self, rfl, List.suffix_cons s rest⟩
    · exact .inl (hbelow hg)
  | @enter i g' c rest j _ new =>
    rcases List.mem_cons.1 hg with rfl | hg
    · exact .inr new
    · rcases List.mem_cons.1 hg with rfl | hg
      · exact .inl ⟨_, List.mem_cons_self, rfl, List.suffix_cons _ rest⟩
      · exact .inl (hbelow hg)
  | complete _ =>
    dsimp only at hg
    split at hg
    · exact .inl (hbelow hg)
    · rcases List.mem_cons.1 hg with rfl | hg
      · refine .inl ⟨f, List.mem_cons_self, by simp, ?_⟩
        unfold Frame.resumed
        split
        · exact List.suffix_rfl
        · exact List.tail_suffix _
      · exact .inl (hbelow hg)
  | fail _ => simp at hg

theorem Next.entered {a : Analysis} {below : List Frame} {f : Frame} {m : Machine}
    (h : Next a below f m) (hn : a.WellNested) {j : Nat} (hj : (m.analysis.scope j).entered) :
    (a.scope j).entered ∨ ∃ i g c rest, f = ⟨i, .call g c :: rest, none⟩ ∧
      a.lookup i g = some j ∧ (a.scope j).entered = false := by
  cases h with
  | finish i => exact .inl hj
  | note dispatched unresolved =>
    rw [(Analysis.Notes.dispatch dispatched unresolved).within.entered] at hj
    exact .inl hj
  | @enter i g c rest k resolved new =>
    rw [(Analysis.Enters.enter a (hn.lookup_lt resolved)).entered_iff] at hj
    rcases hj with rfl | hj
    · exact .inr ⟨i, g, c, rest, rfl, resolved, new⟩
    · exact .inl hj
  | complete completes =>
    rw [(Analysis.Within.completed a _ _ _).entered] at hj
    exact .inl hj
  | fail _ => exact .inl hj

theorem Valid.finished (hv : m.Valid) {n k : Nat} (hle : n ≤ k) {i : Nat}
    (hentered : ((m.after n).analysis.scope i).entered)
    (hout : i ∉ (m.after n).stack.map Frame.scope) :
    i ∉ (m.after k).stack.map Frame.scope ∧
      ((m.after k).analysis.scope i).findings = ((m.after n).analysis.scope i).findings := by
  induction hle with
  | refl => exact ⟨hout, rfl⟩
  | @step k hle ih =>
    have hentered' := (hv.extends_after hle).entered hentered
    rw [after_succ]
    constructor
    · intro hmem
      obtain ⟨g, hg, rfl⟩ := List.mem_map.1 hmem
      cases hs : (m.after k).stack with
      | nil => simp [step_of_stack_nil hs, hs] at hg
      | cons f below =>
        rcases (next_step hs (hv.after k)).exists_frame hg with ⟨f', hf', hscope, _⟩ | hnew
        · exact ih.1 (hs ▸ List.mem_map.2 ⟨f', hf', hscope⟩)
        · simp [hentered'] at hnew
    · rw [(hv.after k).findings_step, ih.2]
      intro f below hs
      rintro rfl
      exact ih.1 (by simp [hs])

/-- Every call that leads somewhere is completed in the end. The caller has found
out nothing since it came to the call, and a scope entered by the call has left
the stack. -/
theorem Valid.exists_completes (hv : m.Valid) {n k : Nat} (hle : n ≤ k)
    (hend : (m.after k).stack = []) (hok : (m.after k).failure = none) {i : Nat} {g : String}
    {c : Bool} {rest : List Stmt} {below : List Frame}
    (hs : (m.after n).stack = ⟨i, .call g c :: rest, none⟩ :: below) {j : Nat}
    (hj : (m.after n).analysis.lookup i g = some j) :
    ∃ l f, n ≤ l ∧ l < k ∧ (m.after l).stack = f :: below ∧ f.scope = i ∧
      f.completes? (m.after l).analysis = some (j, c) ∧ f.resumed = ⟨i, rest, none⟩ ∧
      ((m.after l).analysis.scope i).findings = ((m.after n).analysis.scope i).findings ∧
      (((m.after n).analysis.scope j).entered = false → j ∉ (m.after l).stack.map Frame.scope) := by
  have hlast : ∀ l ≤ k, (m.after l).stack ≠ [] → l < k := by
    intro l hl hne
    refine Nat.lt_of_le_of_ne hl ?_
    rintro rfl
    exact hne hend
  cases hentered : ((m.after n).analysis.scope j).entered with
  | true =>
    refine ⟨n, _, Nat.le_refl n, hlast n hle (by simp [hs]), hs, rfl, ?_, rfl, rfl, by simp⟩
    simp [Frame.completes?, hj, hentered]
  | false =>
    have hvn := hv.after n
    have hstep : m.after (n + 1) = ⟨(m.after n).analysis.enter j,
        .start (m.after n).analysis j :: ⟨i, rest, some (j, c)⟩ :: below, none⟩ := by
      rw [after_succ, step_of_new hs hj hentered]
    have hlt := hlast n hle (by simp [hs])
    have htop : (m.after (n + 1)).stack =
        [.start (m.after n).analysis j] ++ ⟨i, rest, some (j, c)⟩ :: below := by
      rw [hstep]
      rfl
    obtain ⟨l, hl, hlk, hstack, hbetween⟩ := hv.exists_stack_eq hlt htop hend hok
    have hwaiting := hv.findings_waiting hl hbetween List.mem_cons_self
    have henter := (Analysis.Enters.enter (m.after n).analysis (hvn.nested.lookup_lt hj)).findings i
    have hdistinct := (hv.after (n + 1)).distinct
    rw [hstep, List.map_cons, List.nodup_cons] at hdistinct
    rw [hstep] at hwaiting
    refine ⟨l, _, by omega, hlast l hlk (by simp [hstack]), hstack, rfl, rfl, rfl,
      hwaiting.trans henter, fun _ => ?_⟩
    rw [hstack]
    exact hdistinct.1

end Machine

namespace Analysis

def opening (a : Analysis) (body : List Stmt) : Machine :=
  (a.addRoot body).start a.scopes.size

/-- Analyses that come about by checking one list of statements after another. -/
inductive Reached : Analysis → Prop
  | empty : Reached {}
  | check {a : Analysis} (h : Reached a) (body : List Stmt) : Reached (a.check body).1

section

variable (a : Analysis) (body : List Stmt)

theorem root_lt_size : a.scopes.size < (a.addRoot body).scopes.size := by simp [addRoot]

theorem entered_root : ((a.addRoot body).scope a.scopes.size).entered = false := by
  rw [scope_addRoot, if_pos rfl]

theorem extends_addRoot : Extends a (a.addRoot body) := by
  refine ⟨Nat.le_of_lt (root_lt_size a body), fun i hi => ?_, fun _ h => h⟩
  rw [scope_addRoot, if_neg (Nat.ne_of_lt hi)]
  exact .refl _

theorem extends_opening : Extends a (a.opening body).analysis :=
  (extends_addRoot a body).trans
    ((Enters.enter _ (root_lt_size a body)).extends (entered_root a body))

theorem findings_opening (i : Nat) :
    ((a.opening body).analysis.scope i).findings = (a.scope i).findings :=
  ((Enters.enter _ (root_lt_size a body)).findings i).trans (findings_addRoot a body i)

variable {a} in
theorem WellNested.opening (h : a.WellNested) : (a.opening body).Valid := by
  have hroot := h.addRoot body
  have hlt := root_lt_size a body
  constructor
  · exact hroot.enters hlt (.enter _ hlt)
  · intro f hf
    obtain rfl := List.mem_singleton.1 hf
    exact Frame.fits_start hroot hlt (entered_root a body)
  · simp [Analysis.opening, Analysis.start]
  · exact fun h => absurd rfl h

end

theorem check_eq (a : Analysis) (body : List Stmt) : a.check body =
    match (a.opening body).run.failure with
    | some failure => ((a.opening body).run.analysis, some failure)
    | none => (a.opening body).run.analysis.sweep
        ((a.opening body).run.analysis.scope a.scopes.size).contracts.entries := by
  simp only [check, checkFrom, bind, List.foldl_nil, walk, entered_root, Bool.false_eq_true,
    if_false]
  rw [opening]
  cases ((a.addRoot body).start a.scopes.size).run.failure with
  | some failure => rfl
  | none => rfl

theorem check_eq_of_stack_nil {a : Analysis} {body : List Stmt} {n : Nat}
    (hend : ((a.opening body).after n).stack = []) : a.check body =
      match ((a.opening body).after n).failure with
      | some failure => (((a.opening body).after n).analysis, some failure)
      | none => ((a.opening body).after n).analysis.sweep
          (((a.opening body).after n).analysis.scope a.scopes.size).contracts.entries := by
  rw [check_eq, Machine.run_eq_after hend]

theorem sweep_eq (l : List (String × Contract)) (a : Analysis) :
    ∃ problems, (a.sweep l).1 = { a with problems } := by
  induction l generalizing a with
  | nil => exact ⟨_, rfl⟩
  | cons e rest ih =>
    simp only [sweep]
    split
    · exact ih (a.report .notDeclared e.1)
    · split
      · exact ih a
      · exact ⟨_, rfl⟩

theorem scopes_check (a : Analysis) (body : List Stmt) :
    (a.check body).1.scopes = (a.opening body).run.analysis.scopes := by
  rw [check_eq]
  split
  · rfl
  · obtain ⟨problems, hsweep⟩ := sweep_eq
      ((a.opening body).run.analysis.scope a.scopes.size).contracts.entries
      (a.opening body).run.analysis
    rw [hsweep]

theorem Reached.wellNested {a : Analysis} (h : a.Reached) : a.WellNested := by
  induction h with
  | empty => exact .empty
  | @check a _ body ih =>
    obtain ⟨n, hrun, _⟩ := (a.opening body).exists_run_eq
    have hnested := ((ih.opening body).after n).nested
    rw [← hrun] at hnested
    exact hnested.congr (scopes_check a body)

end Analysis

end DefiniteAssignment
