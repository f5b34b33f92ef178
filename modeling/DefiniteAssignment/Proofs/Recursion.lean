import DefiniteAssignment.Proofs.Moment
import Mathlib.Logic.Relation

/-! Bodies that never return. A scope is marked only when its unconditional
calls lead into a cycle of such calls, whatever the order in which the walk
enters and leaves the scopes. The marks lag behind the calls: a call counts for
what its callee had completed by then, so the cycles noticed are those whose
calls are completed callee first. -/
namespace DefiniteAssignment

open Relation

namespace Analysis

def Calls (a : Analysis) (i j : Nat) : Prop :=
  ∃ f, .call f false ∈ (a.scope i).body ∧ a.lookup i f = some j

def ReachesCycle (a : Analysis) (i : Nat) : Prop :=
  ∃ j, ReflTransGen a.Calls i j ∧ TransGen a.Calls j j

def Passes (a : Analysis) (i j : Nat) : Prop := (a.scope i).entered ∧ a.Calls i j

/-- Calls from entered scopes lead from scope `i` into a cycle of such calls. -/
def Trapped (a : Analysis) (i : Nat) : Prop :=
  ∃ j, ReflTransGen a.Passes i j ∧ TransGen a.Passes j j

/-- The marks of an analysis are borne out by its calls, and a scope that is
marked to pass through itself is marked as recursive. -/
structure Witnessed (a : Analysis) : Prop where
  always : ∀ i, ∀ j ∈ (a.scope i).always, TransGen a.Passes i j
  recursive : ∀ i, a.isRecursive i → a.Trapped i
  self : ∀ i, i ∈ (a.scope i).always → a.isRecursive i

section

variable {a b : Analysis}

theorem passes_mono (hn : a.WellNested) (he : Extends a b) : a.Passes ≤ b.Passes := by
  rintro i j ⟨hi, f, hf, hj⟩
  refine ⟨he.entered hi, f, ?_, ?_⟩
  · rw [(he.scope i (lt_size_of_entered hi)).body]
    exact hf
  · rw [hn.lookup_extends he hi]
    exact hj

theorem trapped_mono (h : a.Passes ≤ b.Passes) {i : Nat} (hi : a.Trapped i) : b.Trapped i := by
  obtain ⟨j, hij, hjj⟩ := hi
  exact ⟨j, ReflTransGen.mono h _ _ hij, TransGen.mono h _ _ hjj⟩

theorem Trapped.head {i j : Nat} (hij : ReflTransGen a.Passes i j) (h : a.Trapped j) :
    a.Trapped i := by
  obtain ⟨k, hjk, hkk⟩ := h
  exact ⟨k, hij.trans hjk, hkk⟩

theorem Trapped.reachesCycle {i : Nat} (h : a.Trapped i) : a.ReachesCycle i := by
  have hcalls : a.Passes ≤ a.Calls := fun _ _ hpasses => hpasses.2
  obtain ⟨j, hij, hjj⟩ := h
  exact ⟨j, ReflTransGen.mono hcalls _ _ hij, TransGen.mono hcalls _ _ hjj⟩

end

namespace Witnessed

variable {a b : Analysis}

theorem of_marks_eq (h : a.Witnessed) (hp : a.Passes ≤ b.Passes)
    (halways : ∀ i, (b.scope i).always = (a.scope i).always)
    (hrecursive : ∀ i, b.isRecursive i = a.isRecursive i) : b.Witnessed := by
  constructor
  · intro i j hj
    rw [halways] at hj
    exact TransGen.mono hp _ _ (h.always i j hj)
  · intro i hi
    rw [hrecursive] at hi
    exact trapped_mono hp (h.recursive i hi)
  · intro i hi
    rw [halways] at hi
    rw [hrecursive]
    exact h.self i hi

theorem congr (h : a.Witnessed) (hs : b.scopes = a.scopes) : b.Witnessed := by
  have hscope : ∀ i, b.scope i = a.scope i := fun i => by simp only [scope, hs]
  have hp : a.Passes = b.Passes := by
    funext i j
    simp only [Passes, Calls, lookup, hscope]
  refine h.of_marks_eq (fun i j hij => hp ▸ hij) (fun i => by rw [hscope]) fun i => ?_
  rw [isRecursive, hscope]
  rfl

theorem trapped_callee (h : a.Witnessed) {i j : Nat} (hi : (a.scope i).entered)
    (hcall : a.Calls i j) (hrunning : a.isRecursive i = false)
    (hflag : (a.completed i j false).isRecursive i) : a.Trapped j := by
  have hlt := lt_size_of_entered hi
  have hij : a.Passes i j := ⟨hi, hcall⟩
  rw [isRecursive_completed hlt, mem_always_completed hlt] at hflag
  rcases hflag with hrec | rfl | (hself | rfl | hback) | ⟨k, hk, hrec⟩
  · simp [hrunning] at hrec
  · exact ⟨j, .refl, .single hij⟩
  · simp [h.self i hself] at hrunning
  · exact ⟨i, .refl, .single hij⟩
  · exact ⟨j, .refl, .tail (h.always j i hback) hij⟩
  · refine .head ?_ (h.recursive k hrec)
    rcases List.mem_cons.1 hk with rfl | hk
    · exact .refl
    · exact (h.always j k hk).to_reflTransGen

theorem completed (h : a.Witnessed) (hn : a.WellNested) {i j : Nat} (hi : (a.scope i).entered)
    (hcall : a.Calls i j) : (a.completed i j false).Witnessed := by
  have hw := Within.completed a i j false
  have hp := passes_mono hn hw.extends
  have hstep : (a.completed i j false).Passes i j := hp i j ⟨hi, hcall⟩
  have hlt := lt_size_of_entered hi
  have hold : ∀ k, ∀ l ∈ (a.scope k).always, TransGen (a.completed i j false).Passes k l :=
    fun k l hl => TransGen.mono hp _ _ (h.always k l hl)
  constructor
  · intro k l hl
    by_cases hk : k = i
    · subst hk
      rcases (mem_always_completed hlt j l).1 hl with hl | rfl | hl
      · exact hold k l hl
      · exact .single hstep
      · exact .head hstep (hold j l hl)
    · rw [hw.other k hk] at hl
      exact hold k l hl
  · intro k hk
    cases hrunning : a.isRecursive k with
    | true => exact trapped_mono hp (h.recursive k hrunning)
    | false =>
      by_cases hki : k = i
      · subst hki
        have htrapped := trapped_mono hp (h.trapped_callee hi hcall hrunning hk)
        exact .head (.single hstep) htrapped
      · rw [isRecursive, hw.other k hki] at hk
        exact absurd hk (Bool.eq_false_iff.1 hrunning)
  · intro k hk
    by_cases hki : k = i
    · subst hki
      exact (isRecursive_completed hlt j).2 (.inr (.inr (.inl hk)))
    · rw [hw.other k hki] at hk
      rw [isRecursive, hw.other k hki]
      exact h.self k hk

theorem empty : ({} : Analysis).Witnessed := by
  constructor
  · intro i j hj
    simp [scope_empty] at hj
  · intro i hi
    simp [isRecursive, scope_empty] at hi
  · intro i hi
    simp [scope_empty] at hi

end Witnessed

end Analysis

namespace Machine

variable {m : Machine}

open Analysis

theorem Next.marks {a : Analysis} {below : List Frame} {f : Frame} {m : Machine}
    (h : Next a below f m) (hn : a.WellNested) :
    (∃ j, f.completes? a = some (j, false) ∧ m.analysis = a.completed f.scope j false) ∨
      ∀ i, (m.analysis.scope i).always = (a.scope i).always ∧
        m.analysis.isRecursive i = a.isRecursive i := by
  cases h with
  | finish i => exact .inr fun i => ⟨rfl, rfl⟩
  | note dispatched unresolved =>
    have hnotes := Notes.dispatch dispatched unresolved
    exact .inr fun i => ⟨hnotes.always i, hnotes.isRecursive i⟩
  | enter resolved new =>
    have hfindings := (Enters.enter a (hn.lookup_lt resolved)).findings
    exact .inr fun i => ⟨congrArg (fun s => s.2.1) (hfindings i),
      congrArg (fun s => s.2.2) (hfindings i)⟩
  | @complete _ j c completes =>
    cases c with
    | false => exact .inl ⟨j, completes, rfl⟩
    | true =>
      exact .inr fun i => ⟨always_completed_true a f.scope j i, isRecursive_completed_true a f.scope j i⟩
  | fail _ => exact .inr fun i => ⟨rfl, rfl⟩

theorem witnessed_step (hv : m.Valid) (h : m.analysis.Witnessed) : m.step.analysis.Witnessed := by
  cases hs : m.stack with
  | nil =>
    rw [step_of_stack_nil hs]
    exact h
  | cons f below =>
    have hf := hv.fits f (by simp [hs])
    rcases (next_step hs hv).marks hv.nested with ⟨j, hc, heq⟩ | hsame
    · obtain ⟨_, g, hg, hbody⟩ := hf.completes hc
      rw [heq]
      exact h.completed hv.nested hf.entered ⟨g, hbody.mem List.mem_cons_self, hg⟩
    · exact h.of_marks_eq (passes_mono hv.nested hv.extends_step) (fun i => (hsame i).1)
        (fun i => (hsame i).2)

theorem witnessed_after (hv : m.Valid) (h : m.analysis.Witnessed) (n : Nat) :
    (m.after n).analysis.Witnessed := by
  induction n with
  | zero => exact h
  | succ n ih =>
    rw [after_succ]
    exact witnessed_step (hv.after n) ih

end Machine

namespace Analysis

theorem Witnessed.opening {a : Analysis} (h : a.Witnessed) (hn : a.WellNested) (body : List Stmt) :
    (a.opening body).analysis.Witnessed := by
  have hfindings := findings_opening a body
  exact h.of_marks_eq (passes_mono hn (extends_opening a body))
    (fun i => congrArg (fun s => s.2.1) (hfindings i))
    (fun i => congrArg (fun s => s.2.2) (hfindings i))

theorem Reached.witnessed {a : Analysis} (h : a.Reached) : a.Witnessed := by
  induction h with
  | empty => exact .empty
  | @check a ha body ih =>
    obtain ⟨n, hrun, _⟩ := (a.opening body).exists_run_eq
    have hw := Machine.witnessed_after (ha.wellNested.opening body) (ih.opening ha.wellNested body) n
    rw [← hrun] at hw
    exact hw.congr (scopes_check a body)

/-- Recursion is never found where there is none: what a scope is marked to pass
through is reached from it by unconditional calls, and from a scope marked as
recursive such calls lead into a cycle. -/
theorem marks_witnessed {a : Analysis} (h : a.Reached) (body : List Stmt) (n i : Nat) :
    (∀ j ∈ (((a.opening body).after n).analysis.scope i).always,
        TransGen ((a.opening body).after n).analysis.Calls i j) ∧
      (((a.opening body).after n).analysis.isRecursive i →
        ((a.opening body).after n).analysis.ReachesCycle i) := by
  have hw := Machine.witnessed_after (h.wellNested.opening body)
    (h.witnessed.opening h.wellNested body) n
  refine ⟨fun j hj => ?_, fun hi => (hw.recursive i hi).reachesCycle⟩
  exact TransGen.mono (fun _ _ hpasses => hpasses.2) _ _ (hw.always i j hj)

def pair : List Stmt :=
  [.call "Ping" false, .function "Ping" [.call "Pong" false], .function "Pong" [.call "Ping" false]]

theorem marks_witnessed_pair : ({} : Analysis).Reached ∧
    2 ∈ (((({} : Analysis).opening pair).after 5).analysis.scope 1).always ∧
    ((({} : Analysis).opening pair).after 5).analysis.isRecursive 1 ∧
    TransGen ((({} : Analysis).opening pair).after 5).analysis.Calls 1 2 ∧
    ((({} : Analysis).opening pair).after 5).analysis.ReachesCycle 1 :=
  ⟨.empty, by decide, by decide, (marks_witnessed .empty pair 5 1).1 2 (by decide),
    (marks_witnessed .empty pair 5 1).2 (by decide)⟩

end Analysis

namespace Machine

def Dispatches (m : Machine) (i k : Nat) : Prop :=
  k < (m.analysis.scope i).body.length ∧
    m.stack.head? = some ⟨i, (m.analysis.scope i).body.drop k, none⟩

def CallsAt (m : Machine) (n i j : Nat) : Prop := (m.after n).completes? = some (i, j, false)

/-- Before moment `n`, calls have been completed that lead from `i` to `l`, each
before the one that leads to it. -/
inductive Leads (m : Machine) : Nat → Nat → Nat → Prop
  | here (n i : Nat) : Leads m n i i
  | call {n k i j l : Nat} : k < n → m.CallsAt k i j → Leads m k j l → Leads m n i l

/-- Before moment `n`, scope `i` has completed a call that leads it back to
itself, or to a scope that was caught before that call. -/
inductive Caught (m : Machine) : Nat → Nat → Prop
  | back {n k i j : Nat} : k < n → m.CallsAt k i j → m.Leads k j i → Caught m n i
  | onto {n k i j l : Nat} : k < n → m.CallsAt k i j → m.Leads k j l → Caught m k l → Caught m n i

variable {m : Machine}

theorem callsAt_cases {n i j : Nat} (h : m.CallsAt n i j) :
    ∃ f below, (m.after n).stack = f :: below ∧ f.scope = i ∧
      f.completes? (m.after n).analysis = some (j, false) := by
  simp only [CallsAt, completes?] at h
  split at h
  · simp at h
  · rename_i f below hs
    obtain ⟨c, hc, heq⟩ := Option.map_eq_some_iff.1 h
    obtain ⟨rfl, rfl⟩ : f.scope = i ∧ c = (j, false) := by simpa using heq
    exact ⟨f, below, hs, rfl, hc⟩

theorem analysis_of_callsAt (hv : m.Valid) {n i j : Nat} (h : m.CallsAt n i j) :
    ((m.after n).analysis.scope i).entered ∧
      (m.after (n + 1)).analysis = (m.after n).analysis.completed i j false := by
  obtain ⟨f, below, hs, rfl, hc⟩ := callsAt_cases h
  have hvn := hv.after n
  refine ⟨(hvn.fits f (by simp [hs])).entered, ?_⟩
  rw [after_succ, step_of_completes hvn hs hc]

theorem Leads.mem_always (hv : m.Valid) {n i l : Nat} (h : m.Leads n i l) :
    l = i ∨ l ∈ ((m.after n).analysis.scope i).always := by
  induction h with
  | here => exact .inl rfl
  | @call n k i j l hk hcall _ ih =>
    obtain ⟨hi, heq⟩ := analysis_of_callsAt hv hcall
    refine .inr ((hv.extends_after hk).always ?_)
    rw [heq, Analysis.mem_always_completed (Analysis.lt_size_of_entered hi)]
    exact .inr ih

theorem Caught.isRecursive (hv : m.Valid) {n i : Nat} (h : m.Caught n i) :
    (m.after n).analysis.isRecursive i := by
  induction h with
  | @back n k i j hk hcall hleads =>
    obtain ⟨hi, heq⟩ := analysis_of_callsAt hv hcall
    have hlt := Analysis.lt_size_of_entered hi
    refine (hv.extends_after hk).isRecursive ?_
    rw [heq, Analysis.isRecursive_completed hlt]
    rcases hleads.mem_always hv with rfl | hmem
    · exact .inr (.inl rfl)
    · exact .inr (.inr (.inl ((Analysis.mem_always_completed hlt j i).2 (.inr (.inr hmem)))))
  | @onto n k i j l hk hcall hleads _ ih =>
    obtain ⟨hi, heq⟩ := analysis_of_callsAt hv hcall
    refine (hv.extends_after hk).isRecursive ?_
    rw [heq, Analysis.isRecursive_completed (Analysis.lt_size_of_entered hi)]
    exact .inr (.inr (.inr ⟨l, List.mem_cons.2 (hleads.mem_always hv), ih⟩))

end Machine

def Frame.left (f : Frame) : Nat := f.rest.length + if f.pending.isSome then 1 else 0

theorem Frame.left_of_completes {f : Frame} {a : Analysis} {call : Nat × Bool}
    (h : f.completes? a = some call) : f.left = f.resumed.left + 1 := by
  rcases completes_cases h with hp | ⟨hp, g, rest, hrest, _⟩
  · simp [left, resumed, hp]
  · simp [left, resumed, hp, hrest]

theorem getElem?_of_suffix {α : Type} {s : α} {rest l : List α} (h : s :: rest <:+ l) {j : Nat}
    (hj : j + (rest.length + 1) = l.length) : l[j]? = some s := by
  obtain ⟨before, rfl⟩ := h
  rw [List.length_append, List.length_cons, Nat.add_right_cancel_iff] at hj
  rw [hj, List.getElem?_append_right (Nat.le_refl _), Nat.sub_self, List.getElem?_cons_zero]

namespace Machine

variable {m : Machine}

def Accounts (m : Machine) (n : Nat) (f : Frame) : Prop :=
  ∀ j g callee, ((m.after n).analysis.scope f.scope).body[j]? = some (.call g false) →
    j + f.left < ((m.after n).analysis.scope f.scope).body.length →
    (m.after n).analysis.lookup f.scope g = some callee → ∃ k < n, m.CallsAt k f.scope callee

theorem Accounts.succ (hv : m.Valid) {n : Nat} {f f' : Frame} (h : m.Accounts n f)
    (hf : f.Fits (m.after n).analysis) (hscope : f'.scope = f.scope) (hleft : f.left ≤ f'.left + 1)
    (hlast : f.left = f'.left + 1 → ∀ j g callee,
      j + f.left = ((m.after n).analysis.scope f.scope).body.length →
      ((m.after n).analysis.scope f.scope).body[j]? = some (.call g false) →
      (m.after n).analysis.lookup f.scope g = some callee → m.CallsAt n f.scope callee) :
    m.Accounts (n + 1) f' := by
  have hext := hv.extends_after (Nat.le_succ n)
  have hbody := (hext.scope f.scope (Analysis.lt_size_of_entered hf.entered)).body
  intro j g callee hj hlt hg
  rw [hscope, hbody] at hj hlt
  rw [hscope, (hv.after n).nested.lookup_extends hext hf.entered] at hg
  rw [hscope]
  by_cases hold : j + f.left < ((m.after n).analysis.scope f.scope).body.length
  · obtain ⟨k, hk, hcall⟩ := h j g callee hj hold hg
    exact ⟨k, Nat.lt_succ_of_lt hk, hcall⟩
  · exact ⟨n, Nat.lt_succ_self n, hlast (by omega) j g callee (by omega) hj hg⟩

theorem accounts_start (hv : m.Valid) {n j : Nat}
    (hj : j < (m.after n).analysis.scopes.size) :
    m.Accounts (n + 1) (.start (m.after n).analysis j) := by
  have hbody := ((hv.extends_after (Nat.le_succ n)).scope j hj).body
  intro j' g callee _ hlt
  simp only [Frame.start, Frame.left, hbody, Option.isSome_none, Bool.false_eq_true, if_false] at hlt
  omega

theorem Accounts.resumed (hv : m.Valid) {n : Nat} {f : Frame} {below : List Frame}
    (h : m.Accounts n f) (hs : (m.after n).stack = f :: below) {callee : Nat} {c : Bool}
    (hc : f.completes? (m.after n).analysis = some (callee, c)) : m.Accounts (n + 1) f.resumed := by
  have hf := (hv.after n).fits f (by simp [hs])
  have hleft := Frame.left_of_completes hc
  have hrest : f.resumed.left = f.resumed.rest.length := by simp [Frame.left]
  obtain ⟨_, g', hg', hbody⟩ := hf.completes hc
  refine h.succ hv hf (by simp) (by omega) fun _ j g callee' hj hcall hg => ?_
  rw [getElem?_of_suffix hbody (by omega), Option.some_inj] at hcall
  obtain ⟨rfl, rfl⟩ : g' = g ∧ c = false := by simpa using hcall
  obtain rfl : callee = callee' := by simpa [hg'] using hg
  simp [CallsAt, completes?, hs, hc]

theorem accounts_succ (hv : m.Valid) {n : Nat} (h : ∀ f ∈ (m.after n).stack, m.Accounts n f) :
    ∀ f ∈ (m.after (n + 1)).stack, m.Accounts (n + 1) f := by
  have hvn := hv.after n
  cases hs : (m.after n).stack with
  | nil =>
    rw [after_succ, step_of_stack_nil hs, hs]
    simp
  | cons f below =>
    have hnext := next_step hs hvn
    rw [← after_succ] at hnext
    have hf := hvn.fits f (by simp [hs])
    have htop := h f (by simp [hs])
    have hbelow : ∀ f' ∈ below, m.Accounts (n + 1) f' := fun f' hf' =>
      (h f' (by simp [hs, hf'])).succ hv (hvn.fits f' (by simp [hs, hf'])) rfl (by omega) (by omega)
    generalize m.after (n + 1) = m' at hnext
    cases hnext with
    | finish i => exact hbelow
    | @note i s rest b dispatched unresolved =>
      refine List.forall_mem_cons.2 ⟨?_, hbelow⟩
      refine htop.succ hv hf rfl (by simp [Frame.left]) fun _ j g callee hj hcall hg => ?_
      -- The statement just dispatched is no call that leads anywhere.
      rw [getElem?_of_suffix hf.rest hj, Option.some_inj] at hcall
      simp [unresolved g false hcall] at hg
    | @enter i g c rest j resolved new =>
      have hwaiting : m.Accounts (n + 1) ⟨i, rest, some (j, c)⟩ :=
        htop.succ hv hf rfl (by simp [Frame.left]) (by simp [Frame.left])
      exact List.forall_mem_cons.2 ⟨accounts_start hv (hvn.nested.lookup_lt resolved),
        List.forall_mem_cons.2 ⟨hwaiting, hbelow⟩⟩
    | @complete _ callee c completes =>
      dsimp only
      split
      · exact hbelow
      · exact List.forall_mem_cons.2 ⟨htop.resumed hv hs completes, hbelow⟩
    | fail _ => simp

theorem accounts_after (hv : m.Valid)
    (hstart : ∀ f ∈ m.stack, f.left = (m.analysis.scope f.scope).body.length) (n : Nat) :
    ∀ f ∈ (m.after n).stack, m.Accounts n f := by
  induction n with
  | zero =>
    intro f hf j g callee _ hlt
    rw [after_zero, hstart f hf] at hlt
    omega
  | succ n ih => exact accounts_succ hv ih

end Machine

namespace Analysis

/-- Behind a call into a cycle nothing is walked, if the calls of the cycle were
completed callee first: of the unconditional calls in front of a statement that
is dispatched, none led back to its scope when it was completed, nor to a scope
that had been caught by then. -/
theorem not_caught_of_dispatches {a : Analysis} (h : a.Reached) (body : List Stmt) {n i k : Nat}
    (hd : ((a.opening body).after n).Dispatches i k) (j : Nat) (hj : j < k) (f : String)
    (callee : Nat)
    (hcall : (((a.opening body).after n).analysis.scope i).body[j]? = some (.call f false))
    (hf : ((a.opening body).after n).analysis.lookup i f = some callee) :
    ∃ l < n, (a.opening body).CallsAt l i callee ∧ ¬ (a.opening body).Leads l callee i ∧
      ∀ v, (a.opening body).Leads l callee v → ¬ (a.opening body).Caught l v := by
  have hv := h.wellNested.opening body
  obtain ⟨hk, hhead⟩ := hd
  have htop := List.mem_of_mem_head? hhead
  have hrunning := ((hv.after n).fits _ htop).running
  have hstart : ∀ f ∈ (a.opening body).stack,
      f.left = ((a.opening body).analysis.scope f.scope).body.length := by
    intro f hf
    obtain rfl := List.mem_singleton.1 hf
    have hlt := root_lt_size a body
    have hbody := ((Enters.enter _ hlt).extends (entered_root a body)).scope _ hlt
    simp [Frame.left, Frame.start, opening, Analysis.start, hbody.body]
  have hleft : j + Frame.left ⟨i, (((a.opening body).after n).analysis.scope i).body.drop k, none⟩ <
      (((a.opening body).after n).analysis.scope i).body.length := by
    simp [Frame.left]
    omega
  obtain ⟨l, hl, hat⟩ := Machine.accounts_after hv hstart n _ htop j f callee hcall hleft hf
  have hnot : ¬ (a.opening body).Caught n i := by
    intro hc
    simp [hc.isRecursive hv] at hrunning
  exact ⟨l, hl, hat, fun hleads => hnot (.back hl hat hleads),
    fun v hleads hcaught => hnot (.onto hl hat hleads hcaught)⟩

def ring : List Stmt :=
  [.call "A" false,
    .function "A" [.call "C" true, .call "B" false, .print "x"],
    .function "B" [.call "C" false],
    .function "C" [.call "B" true, .call "A" false]]

theorem not_caught_of_dispatches_ring :
    ((({} : Analysis).opening ring).after 10).Dispatches 1 2 ∧
      ∃ l < 10, (({} : Analysis).opening ring).CallsAt l 1 2 ∧
        ¬ (({} : Analysis).opening ring).Leads l 2 1 ∧
        ∀ v, (({} : Analysis).opening ring).Leads l 2 v →
          ¬ (({} : Analysis).opening ring).Caught l v :=
  ⟨⟨by decide, rfl⟩,
    @not_caught_of_dispatches {} .empty ring 10 1 2 ⟨by decide, rfl⟩ 1 (by decide) "B" 2
      (by decide) (by decide)⟩

/-- Calls completed in another order escape notice: the third statement of the
first function stands behind a call into the ring, and is dispatched. -/
theorem ring_dispatches_behind_cycle :
    ((({} : Analysis).opening ring).after 10).Dispatches 1 2 ∧
      (((({} : Analysis).opening ring).after 10).analysis.scope 1).body[1]? =
        some (.call "B" false) ∧
      ((({} : Analysis).opening ring).after 10).analysis.lookup 1 "B" = some 2 ∧
      ((({} : Analysis).opening ring).after 10).analysis.ReachesCycle 2 := by
  have hBC : ((({} : Analysis).opening ring).after 10).analysis.Calls 2 3 :=
    ⟨"C", by decide, by decide⟩
  have hCA : ((({} : Analysis).opening ring).after 10).analysis.Calls 3 1 :=
    ⟨"A", by decide, by decide⟩
  have hAB : ((({} : Analysis).opening ring).after 10).analysis.Calls 1 2 :=
    ⟨"B", by decide, by decide⟩
  exact ⟨⟨by decide, rfl⟩, by decide, by decide, 2, .refl, .head hBC (.head hCA (.single hAB))⟩

end Analysis

end DefiniteAssignment
