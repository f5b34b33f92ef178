import DefiniteAssignment.Proofs.Exposure
import DefiniteAssignment.Proofs.Verdict

/-! Runs that leave nothing to choose, and where values come from in them. Without conditional
calls a program has one run, and without cycles it comes to every statement of every body that
calls lead to. There a variable has a value if the activation that holds it has assigned
it, or if another has done so from afar. -/
namespace DefiniteAssignment

open Relation

mutual

def Stmt.unconditional : Stmt → Bool
  | .function _ body => Stmt.allUnconditional body
  | .call _ conditional => !conditional
  | .declare _ | .assign _ | .print _ | .bare | .block _ => true

def Stmt.allUnconditional : List Stmt → Bool
  | [] => true
  | s :: rest => s.unconditional && Stmt.allUnconditional rest

end

theorem Stmt.allUnconditional_iff {body : List Stmt} :
    allUnconditional body ↔ ∀ s ∈ body, s.unconditional := by
  induction body with
  | nil => simp [allUnconditional]
  | cons s rest ih => simp [allUnconditional, ih]

theorem Stmt.allUnconditional_inner (body : List Stmt) (f : String) (inner : List Stmt)
    (h : allUnconditional body = true) (hf : .function f inner ∈ body) :
    allUnconditional inner = true := by
  simpa [unconditional] using allUnconditional_iff.1 h _ hf

theorem Stmt.eq_false_of_call_mem {body : List Stmt} {g : String} {c : Bool}
    (h : allUnconditional body) (hg : .call g c ∈ body) : c = false := by
  simpa [unconditional] using allUnconditional_iff.1 h _ hg

namespace Execution

/-- Calls from here are nested less than so many deep. -/
def shallow : Nat → List (List Stmt) → Bool
  | 0, _ => false
  | n + 1, chain => (callees chain).all (shallow n)

section

variable {g : String} {chain chain' : List (List Stmt)}

theorem shallow_of_calls {n : Nat} (h : shallow (n + 1) chain) (hcalls : Calls chain chain') :
    shallow n chain' :=
  List.all_eq_true.1 h chain' (mem_callees_of_calls hcalls)

theorem not_calls_self_of_shallow {n : Nat} (h : shallow n chain) :
    ¬ TransGen Calls chain chain := by
  induction n generalizing chain with
  | zero => cases h
  | succ n ih =>
    intro hcycle
    obtain ⟨chain', hcalls, hback⟩ := TransGen.head'_iff.1 hcycle
    exact ih (shallow_of_calls h hcalls) (.tail' hback hcalls)

theorem forall_mem_resolve {P : List Stmt → Prop}
    (hinner : ∀ body f inner, P body → .function f inner ∈ body → P inner)
    (h : ∀ body ∈ chain, P body) (hr : resolve g chain = some chain') :
    ∀ body ∈ chain', P body := by
  induction chain with
  | nil => cases hr
  | cons body around ih =>
    rcases resolve_cons_cases hr with ⟨f, inner, hmem, rfl⟩ | hr
    · intro body' hbody
      rcases List.mem_cons.1 hbody with rfl | hbody
      · exact hinner body f body' (h body List.mem_cons_self) hmem
      · exact h body' hbody
    · exact ih (fun b hb => h b (List.mem_cons_of_mem _ hb)) hr

end

end Execution

namespace Program

open Execution

def Unconditional (p : Program) : Prop := Stmt.allUnconditional p.body

def Acyclic (p : Program) : Prop := ∀ chain, p.Reaches chain → ¬ TransGen Calls chain chain

def run (p : Program) (n : Nat) : List Activation := (step false)^[n] p.initial

variable {p : Program} {chain : List (List Stmt)}

theorem acyclic_of_shallow {n : Nat} (h : shallow n [p.body]) : p.Acyclic := by
  intro chain hchain
  have hshallow : ∃ k, shallow k chain := by
    induction hchain with
    | refl => exact ⟨n, h⟩
    | tail _ hcalls ih =>
      obtain ⟨k, hk⟩ := ih
      cases k with
      | zero => cases hk
      | succ k => exact ⟨k, shallow_of_calls hk hcalls⟩
  obtain ⟨k, hk⟩ := hshallow
  exact not_calls_self_of_shallow hk

theorem Acyclic.not_hangs (h : p.Acyclic) (hchain : p.Reaches chain) : ¬ Hangs chain := by
  rintro ⟨chain', hpath, hcycle⟩
  have halways : Always ≤ Calls := fun _ _ hcall => hcall.calls
  exact h chain' (hchain.trans (ReflTransGen.mono halways _ _ hpath))
    (TransGen.mono halways _ _ hcycle)

theorem Acyclic.passable (h : p.Acyclic) (hchain : p.Reaches chain) {done rest : List Stmt}
    (hbody : done ++ rest = chain.headD []) : Passable chain done := by
  intro g chain' hmem hr
  refine h.not_hangs (hchain.tail ⟨g, false, ?_, hr⟩)
  rw [← hbody]
  exact List.mem_append_left _ hmem

theorem Acyclic.visits (h : p.Acyclic) (hchain : p.Reaches chain) : p.Visits chain := by
  induction hchain with
  | refl => exact .root
  | @tail chain _ hchain hcall ih =>
    obtain ⟨g, c, hmem, hr⟩ := hcall
    obtain ⟨done, rest, hbody⟩ := List.append_of_mem hmem
    have hplace : done ++ [.call g c] <+: chain.headD [] := ⟨rest, by rw [hbody]; simp⟩
    exact .call ih hplace (h.passable hchain hbody.symm) hr

end Program

namespace Execution

/-- All that is left to do on a stack, and all that may be called from there, is free of
conditional calls. -/
def Settles (stack : List Activation) : Prop := ∀ act ∈ stack.map Activation.outline,
  Stmt.allUnconditional act.2.1 ∧ ∀ body ∈ act.1, Stmt.allUnconditional body

section

variable {bodies : List (List Stmt)} {rest : List Stmt} {vars : Table Bool}
  {below : List Activation}

theorem settles_cons : Settles (⟨bodies, rest, vars⟩ :: below) ↔
    (Stmt.allUnconditional rest ∧ ∀ body ∈ bodies, Stmt.allUnconditional body) ∧ Settles below := by
  simp [Settles, Activation.outline]

theorem Settles.step {stack : List Activation} (h : Settles stack) (taken : Bool) :
    step taken stack = step false stack ∧ Settles (step false stack) := by
  cases stack with
  | nil => exact ⟨rfl, h⟩
  | cons act below =>
    obtain ⟨bodies, rest, vars⟩ := act
    obtain ⟨⟨hrest, hbodies⟩, hbelow⟩ := settles_cons.1 h
    cases rest with
    | nil => exact ⟨rfl, hbelow⟩
    | cons s rest =>
      have htail : Stmt.allUnconditional rest := by
        rw [Stmt.allUnconditional, Bool.and_eq_true] at hrest
        exact hrest.2
      have hgoes : ∀ vars', Settles (⟨bodies, rest, vars'⟩ :: below) :=
        fun vars' => settles_cons.2 ⟨⟨htail, hbodies⟩, hbelow⟩
      cases s with
      | declare x => exact ⟨rfl, hgoes _⟩
      | assign x =>
        refine ⟨rfl, ?_⟩
        have hsame : Settles (assign x (⟨bodies, rest, vars⟩ :: below)) := by
          rw [Settles, map_outline_assign]
          exact hgoes vars
        exact hsame
      | call g c =>
        obtain rfl := Stmt.eq_false_of_call_mem hrest List.mem_cons_self
        refine ⟨rfl, ?_⟩
        cases hr : resolve g bodies with
        | none => simpa [Execution.step, hr] using hgoes vars
        | some chain =>
          have hchain := forall_mem_resolve (P := (Stmt.allUnconditional · = true))
            Stmt.allUnconditional_inner hbodies hr
          have hcalled : Stmt.allUnconditional (chain.headD []) := by
            cases chain with
            | nil => rfl
            | cons body around => exact hchain body List.mem_cons_self
          simpa [Execution.step, hr] using settles_cons.2 ⟨⟨hcalled, hchain⟩, hgoes vars⟩
      | print _ | function _ _ | bare | block _ => exact ⟨rfl, hgoes vars⟩

end

/-! ### Values -/

/-- The next step assigns `x` from an activation that has not declared it to one below that
has. -/
def assignsAfar (x : String) : List Activation → Bool
  | [] => false
  | act :: below =>
    act.rest.head? = some (.assign x) && !act.vars.contains x && (valued? x below).isSome

def holder? (x : String) : List Activation → Option Nat
  | [] => none
  | act :: below => if act.vars.contains x then some below.length else holder? x below

def declaresAt (x : String) (height : Nat) : List Activation → Bool
  | [] => false
  | act :: below => act.rest.head? = some (.declare x) && below.length == height

/-- The nearest activation that has declared `x` has not assigned it itself since. -/
def LiesOpen (x : String) : List Activation → Prop
  | [] => False
  | act :: below =>
    if act.vars.contains x then
      ∃ done, done ++ act.rest = act.bodies.headD [] ∧ Stmt.LeavesOpen x done
    else LiesOpen x below

def ReadsOpen (x : String) : List Activation → Prop
  | [] => False
  | act :: below => act.rest.head? = some (.print x) ∧ LiesOpen x (act :: below)

/-- If `x` has a value in an activation, then the activation has assigned it itself, or it was
given one, as `given` says of the number of activations below. -/
def Owned (x : String) (given : Nat → Prop) : List Activation → Prop
  | [] => True
  | act :: below => (∃ done, done ++ act.rest = act.bodies.headD [] ∧
      (act.vars.get? x = some true → ¬ Stmt.LeavesOpen x done ∨ given below.length)) ∧
    Owned x given below

section

variable {x : String} {given given' : Nat → Prop} {bodies : List (List Stmt)} {s : Stmt}
  {rest : List Stmt} {vars vars' : Table Bool} {below stack : List Activation}

@[simp] theorem length_assign (y : String) (stack : List Activation) :
    (assign y stack).length = stack.length := by
  have hlength := congrArg List.length (map_outline_assign y stack)
  rwa [List.length_map, List.length_map] at hlength

theorem holder?_isSome (x : String) (stack : List Activation) :
    (holder? x stack).isSome = (valued? x stack).isSome := by
  induction stack with
  | nil => rfl
  | cons act below ih =>
    rw [holder?, valued?, Table.contains]
    cases act.vars.get? x with
    | none => simpa using ih
    | some v => simp

theorem Owned.mono (h : Owned x given stack) (hgiven : ∀ n < stack.length, given n → given' n) :
    Owned x given' stack := by
  induction stack with
  | nil => trivial
  | cons act below ih =>
    obtain ⟨⟨done, hdone, hvalue⟩, hbelow⟩ := h
    refine ⟨⟨done, hdone, fun hx => (hvalue hx).imp id (hgiven _ (by simp))⟩, ih hbelow ?_⟩
    exact fun n hn => hgiven n (Nat.lt_succ_of_lt hn)

theorem Owned.concat (h : Owned x given (⟨bodies, s :: rest, vars⟩ :: below))
    (hbelow : Owned x given' below)
    (hs : vars'.get? x = some true → s ≠ .declare x ∧
      (s = .assign x ∨ vars.get? x = some true ∧ (given below.length → given' below.length))) :
    Owned x given' (⟨bodies, rest, vars'⟩ :: below) := by
  obtain ⟨⟨done, hdone, hown⟩, _⟩ := h
  refine ⟨⟨done ++ [s], by simpa using hdone, fun hvalue => ?_⟩, hbelow⟩
  obtain ⟨hdeclare, hassign⟩ := hs hvalue
  rw [Stmt.leavesOpen_concat, not_or, not_and, not_not]
  rcases hassign with hassign | ⟨hbefore, hkept⟩
  · exact .inl ⟨hdeclare, fun _ => hassign⟩
  · exact (hown hbefore).imp (fun hclosed => ⟨hdeclare, fun hopen => absurd hopen hclosed⟩) hkept

theorem Owned.assign (h : Owned x given stack) (y : String)
    (hgiven : ∀ n, y = x → holder? x stack = some n → given n) : Owned x given (assign y stack) := by
  induction stack with
  | nil => trivial
  | cons act below ih =>
    rw [holder?] at hgiven
    rw [Execution.assign]
    split
    · rename_i hy
      obtain ⟨⟨done, hdone, hown⟩, hbelow⟩ := h
      refine ⟨⟨done, hdone, fun hvalue => ?_⟩, hbelow⟩
      by_cases hyx : y = x
      · subst hyx
        exact .inr (hgiven below.length rfl (if_pos hy))
      · exact hown (by simpa [Table.get?_insert_of_ne _ (Ne.symm hyx)] using hvalue)
    · rename_i hy
      refine ⟨by simpa using h.1, ih h.2 fun n hyx hn => hgiven n hyx ?_⟩
      rw [if_neg (hyx ▸ hy), hn]

/-- A step keeps what was given, unless the holder declares the variable again, and gives a
value only from afar. -/
theorem Owned.step (h : Owned x given stack)
    (hkept : ∀ n < (step false stack).length, given n → declaresAt x n stack = false → given' n)
    (hgiven : ∀ n, assignsAfar x stack → holder? x stack = some n → given' n) :
    Owned x given' (step false stack) := by
  cases stack with
  | nil => trivial
  | cons act below =>
    obtain ⟨bodies, rest, vars⟩ := act
    have hbelow : below.length ≤ (Execution.step false (⟨bodies, rest, vars⟩ :: below)).length →
        Owned x given' below := by
      intro hle
      refine h.2.mono fun n hn hold => hkept n (Nat.lt_of_lt_of_le hn hle) hold ?_
      simp [declaresAt, Nat.ne_of_gt hn]
    cases rest with
    | nil => exact hbelow (Nat.le_refl _)
    | cons s rest =>
      have hgoes : s ≠ .declare x →
          below.length < (Execution.step false (⟨bodies, s :: rest, vars⟩ :: below)).length →
          Owned x given' (⟨bodies, rest, vars⟩ :: below) := by
        intro hs hlt
        refine h.concat (hbelow (Nat.le_of_lt hlt)) fun hvalue => ⟨hs, .inr ⟨hvalue, fun hold => ?_⟩⟩
        exact hkept _ hlt hold (by simp [declaresAt, hs])
      cases s with
      | declare y =>
        refine h.concat (hbelow (Nat.le_succ _)) fun hvalue => ?_
        rw [Table.get?_insert] at hvalue
        split at hvalue
        · cases hvalue
        · rename_i hne
          refine ⟨by simp [Ne.symm hne], .inr ⟨hvalue, fun hold => ?_⟩⟩
          exact hkept _ (Nat.lt_succ_self _) hold (by simp [declaresAt, Ne.symm hne])
      | assign y =>
        have hstep : Execution.step false (⟨bodies, .assign y :: rest, vars⟩ :: below) =
            Execution.assign y (⟨bodies, rest, vars⟩ :: below) := rfl
        rw [hstep] at hgoes hbelow ⊢
        by_cases hown : y = x ∧ vars.contains x
        · obtain ⟨rfl, hx⟩ := hown
          rw [assign_of_contains (by exact hx)]
          exact h.concat (hbelow (by simp)) fun _ => ⟨by simp, .inl rfl⟩
        · refine Owned.assign (hgoes (by simp) (by simp)) y ?_
          rintro n rfl hn
          have hx : vars.contains y = false := by simpa using hown
          rw [holder?, if_neg (by simp [hx])] at hn
          have hsome : (valued? y below).isSome := by
            rw [← holder?_isSome, hn]
            rfl
          refine hgiven n (by simp [assignsAfar, hx, hsome]) ?_
          rw [holder?, if_neg (by simp [hx]), hn]
      | call g c =>
        rcases step_call_cases false bodies g c rest vars below with heq | ⟨chain, _, heq⟩
        · rw [heq] at hgoes ⊢
          exact hgoes (by simp) (by simp)
        · rw [heq] at hgoes ⊢
          exact ⟨⟨[], rfl, by simp⟩, hgoes (by simp) (by simp)⟩
      | print _ | function _ _ | bare | block _ => exact hgoes (by simp) (Nat.lt_succ_self _)

theorem LiesOpen.valued? (h : LiesOpen x stack) (howned : Owned x given stack) :
    valued? x stack = some false ∨ ∃ n, holder? x stack = some n ∧ given n := by
  induction stack with
  | nil => exact h.elim
  | cons act below ih =>
    obtain ⟨⟨done, hdone, hvalue⟩, hbelow⟩ := howned
    unfold LiesOpen at h
    rw [Execution.valued?, holder?]
    split at h
    · rename_i hx
      obtain ⟨done', hdone', hopen⟩ := h
      obtain rfl : done = done' := List.append_cancel_right (hdone.trans hdone'.symm)
      obtain ⟨value, hget⟩ := Option.isSome_iff_exists.1 hx
      rw [hget, if_pos hx]
      cases value with
      | false => exact .inl rfl
      | true =>
        exact .inr ⟨below.length, rfl, (hvalue hget).resolve_left fun hclosed => hclosed hopen⟩
    · rename_i hx
      have hnone : act.vars.get? x = none := by simpa [Table.contains] using hx
      rw [hnone, if_neg hx]
      exact ih h hbelow

theorem ReadsOpen.printsUnassigned (h : ReadsOpen x stack) (howned : Owned x given stack) :
    printsUnassigned x stack ∨ ∃ n, holder? x stack = some n ∧ given n := by
  cases stack with
  | nil => exact h.elim
  | cons act below =>
    obtain ⟨hprint, hopen⟩ := h
    refine (hopen.valued? howned).imp (fun hvalued => ?_) id
    simp [Execution.printsUnassigned, hprint, hvalued]

theorem LiesOpen.concat {bodies : List (List Stmt)} {s : Stmt} {rest : List Stmt}
    {vars : Table Bool} (h : LiesOpen x (⟨bodies, s :: rest, vars⟩ :: below))
    (hs : s ≠ .assign x) : LiesOpen x (⟨bodies, rest, vars⟩ :: below) := by
  unfold LiesOpen at h ⊢
  split at h
  · rename_i hx
    obtain ⟨done, hdone, hopen⟩ := h
    rw [if_pos hx]
    exact ⟨done ++ [s], by simpa using hdone, Stmt.leavesOpen_concat.2 (.inr ⟨hopen, hs⟩)⟩
  · rename_i hx
    rw [if_neg hx]
    exact h

theorem liesOpen_of_map_outline_eq {stack' : List Activation} (h : LiesOpen x stack)
    (hsame : stack'.map Activation.outline = stack.map Activation.outline) : LiesOpen x stack' := by
  induction stack generalizing stack' with
  | nil => exact h.elim
  | cons act below ih =>
    obtain ⟨bodies, rest, vars⟩ := act
    obtain ⟨vars', below', rfl, hbelow, hvars⟩ := exists_of_map_outline_eq hsame
    unfold LiesOpen at h ⊢
    simp only [hvars]
    split at h
    · rename_i hx
      rw [if_pos hx]
      exact h
    · rename_i hx
      rw [if_neg hx]
      exact ih h hbelow


end

end Execution

namespace Program

open Execution

/-- At moment `n` of the run, the activation above so many others has been given its `x` from
afar since it last declared it. -/
inductive GivenAfar (p : Program) (x : String) : Nat → Nat → Prop
  | now {n height : Nat} : assignsAfar x (p.run n) → holder? x (p.run n) = some height →
      GivenAfar p x (n + 1) height
  | later {n height : Nat} : GivenAfar p x n height → height < (p.run (n + 1)).length →
      declaresAt x height (p.run n) = false → GivenAfar p x (n + 1) height

variable {p : Program} {x : String}

theorem run_succ (p : Program) (n : Nat) : p.run (n + 1) = step false (p.run n) :=
  Function.iterate_succ_apply' _ n _

theorem Unconditional.settles_run (h : p.Unconditional) (n : Nat) : Settles (p.run n) := by
  induction n with
  | zero => simpa [run, initial, Settles, Activation.outline, Unconditional] using h
  | succ n ih =>
    rw [run_succ]
    exact (ih.step false).2

theorem run_of_le {n last : Nat} (h : p.run last = []) (hle : last ≤ n) : p.run n = [] := by
  induction hle with
  | refl => exact h
  | step _ ih => rw [run_succ, ih, step]

theorem Unconditional.execute_eq_run (h : p.Unconditional) (choices : List Bool) :
    p.execute choices = p.run choices.length := by
  induction choices using List.reverseRecOn with
  | nil => rfl
  | append_singleton choices taken ih =>
    rw [execute, List.foldl_concat, ← execute, ih, List.length_append, List.length_singleton,
      run_succ]
    exact ((h.settles_run choices.length).step taken).1

theorem Unconditional.exists_run_eq (h : p.Unconditional) {stack : List Activation}
    (hcomes : Comes p.initial stack) : ∃ n, p.run n = stack := by
  obtain ⟨choices, rfl⟩ := hcomes
  exact ⟨choices.length, (h.execute_eq_run choices).symm⟩

theorem Acyclic.exists_run_eq_nil (h : p.Acyclic) (hcalls : p.Unconditional) :
    ∃ last, p.run last = [] := by
  have houtermost : p.Reaches [p.body] := .refl
  obtain ⟨below, hcomes, hbelow, _⟩ := houtermost.returns (h.not_hangs houtermost) "" []
  rw [List.map_eq_nil_iff.1 hbelow] at hcomes
  exact hcalls.exists_run_eq hcomes

theorem GivenAfar.exists_assignsAfar {n height : Nat} (h : p.GivenAfar x n height) :
    ∃ k, assignsAfar x (p.run k) := by
  induction h with
  | now hafar _ => exact ⟨_, hafar⟩
  | later _ _ _ ih => exact ih

theorem owned_run (p : Program) (x : String) (n : Nat) : Owned x (p.GivenAfar x n) (p.run n) := by
  induction n with
  | zero => exact ⟨⟨[], rfl, by simp⟩, trivial⟩
  | succ n ih =>
    rw [run_succ]
    refine ih.step (fun height hlt hold hdeclares => ?_) fun height hafar hholder => .now hafar hholder
    rw [← run_succ] at hlt
    exact .later hold hlt hdeclares

end Program

end DefiniteAssignment
