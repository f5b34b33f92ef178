import DefiniteAssignment.Proofs.Execution
import DefiniteAssignment.Proofs.Nesting
import Mathlib.Data.Fintype.Card
import Mathlib.Data.Set.Finite.Lattice

/-! Ways through a text. A run may pass by every conditional call, and then a body whose
calls lead into no cycle is executed to its end. So a run comes to each of its statements,
and whether a variable has got a value by then can be read off the text. -/
namespace DefiniteAssignment

open Relation

/-- The part of an activation that a called body cannot change: all but the values. -/
def Activation.outline (act : Activation) : List (List Stmt) × List Stmt × List String :=
  (act.bodies, act.rest, act.vars.keys)

namespace Execution

/-! ### Bodies and the calls between them

A body goes with the bodies around it, its own first. -/

def Calls (chain chain' : List (List Stmt)) : Prop :=
  ∃ g c, .call g c ∈ chain.headD [] ∧ resolve g chain = some chain'

def Always (chain chain' : List (List Stmt)) : Prop :=
  ∃ g, .call g false ∈ chain.headD [] ∧ resolve g chain = some chain'

/-- Calls that are not conditional lead from here into a cycle of such calls, so whoever
is called here never returns. -/
def Hangs (chain : List (List Stmt)) : Prop :=
  ∃ chain', ReflTransGen Always chain chain' ∧ TransGen Always chain' chain'

def callees (chain : List (List Stmt)) : List (List (List Stmt)) :=
  (chain.headD []).filterMap fun
    | .call g _ => resolve g chain
    | .declare _ | .assign _ | .print _ | .function _ _ | .bare | .block _ => none

def Holds (chain chain' : List (List Stmt)) : Prop :=
  ∃ f inner, .function f inner ∈ chain.headD [] ∧ chain' = inner :: chain

variable {g : String} {chain chain' : List (List Stmt)}

theorem mem_callees_of_calls (h : Calls chain chain') : chain' ∈ callees chain := by
  obtain ⟨g, c, hmem, hr⟩ := h
  exact List.mem_filterMap.2 ⟨_, hmem, hr⟩

theorem Always.calls (h : Always chain chain') : Calls chain chain' := by
  obtain ⟨g, hmem, hr⟩ := h
  exact ⟨g, false, hmem, hr⟩

theorem Hangs.of_always (h : Hangs chain') (halways : Always chain chain') : Hangs chain := by
  obtain ⟨last, hpath, hcycle⟩ := h
  exact ⟨last, .head halways hpath, hcycle⟩

theorem resolve_cons_cases {body : List Stmt} (h : resolve g (body :: chain) = some chain') :
    Holds (body :: chain) chain' ∨ resolve g chain = some chain' := by
  unfold resolve at h
  split at h
  · rename_i inner hinner
    have hmem := Table.mem_entries_of_get? (t := ⟨body.filterMap Stmt.function?⟩) hinner
    exact .inl ⟨g, inner, Stmt.mem_filterMap_function?.1 hmem, (Option.some.inj h).symm⟩
  · exact .inr h

theorem holds_resolve {root : List Stmt} (h : ReflTransGen Holds [root] chain)
    (hr : resolve g chain = some chain') : ReflTransGen Holds [root] chain' := by
  induction h with
  | refl =>
    rcases resolve_cons_cases hr with hholds | hr
    · exact .single hholds
    · cases hr
  | @tail chain _ hchain hholds ih =>
    obtain ⟨f, inner, hmem, rfl⟩ := hholds
    rcases resolve_cons_cases hr with hholds | hr
    · exact .tail (.tail hchain ⟨f, inner, hmem, rfl⟩) hholds
    · exact ih hr

theorem finite_holds (body : List Stmt) (around : List (List Stmt)) :
    {chain | ReflTransGen Holds (body :: around) chain}.Finite := by
  induction hsize : sizeOf body using Nat.strongRecOn generalizing body around with
  | _ size ih =>
    have hinner : ∀ e ∈ body.filterMap Stmt.function?,
        {chain | ReflTransGen Holds (e.2 :: body :: around) chain}.Finite := by
      rintro ⟨f, inner⟩ he
      have hlt := List.sizeOf_lt_of_mem (Stmt.mem_filterMap_function?.1 he)
      rw [Stmt.function.sizeOf_spec] at hlt
      exact ih (sizeOf inner) (by omega) inner (body :: around) rfl
    refine ((Set.Finite.biUnion (List.finite_toSet _) hinner).insert (body :: around)).subset ?_
    intro chain hchain
    rcases hchain.cases_head with heq | ⟨_, ⟨f, inner, hmem, rfl⟩, hrest⟩
    · exact .inl heq.symm
    · exact .inr (Set.mem_biUnion (Stmt.mem_filterMap_function?.2 hmem) hrest)

end Execution

namespace Program

open Execution

def Reaches (p : Program) (chain : List (List Stmt)) : Prop := ReflTransGen Calls [p.body] chain

variable {p : Program} {chain : List (List Stmt)}

theorem finite_reaches (p : Program) : {chain | p.Reaches chain}.Finite := by
  refine (finite_holds p.body []).subset fun chain hchain => ?_
  induction hchain with
  | refl => exact .refl
  | tail _ hcalls ih =>
    obtain ⟨g, c, _, hr⟩ := hcalls
    exact holds_resolve ih hr

/-- The bodies that calls lead to and that return. -/
abbrev Returning (p : Program) : Type := {chain // p.Reaches chain ∧ ¬ Hangs chain}

def Returning.AlwaysCalledBy (c d : p.Returning) : Prop := TransGen Always d.1 c.1

theorem Returning.wellFounded_alwaysCalledBy (p : Program) :
    WellFounded (AlwaysCalledBy (p := p)) := by
  have hfinite : Finite p.Returning :=
    (p.finite_reaches.subset fun _ hc => hc.1).to_subtype
  have htrans : IsTrans p.Returning AlwaysCalledBy := ⟨fun _ _ _ hcd hde => TransGen.trans hde hcd⟩
  have hirrefl : Std.Irrefl (AlwaysCalledBy (p := p)) :=
    ⟨fun c hcycle => c.2.2 ⟨c.1, .refl, hcycle⟩⟩
  exact Finite.wellFounded_of_trans_of_irrefl _

/-- Induction along the calls that are not conditional, from the called to the calling body,
over the bodies that return. -/
theorem Reaches.induction {P : List (List Stmt) → Prop}
    (halways : ∀ chain, p.Reaches chain → (∀ chain', Always chain chain' → P chain') → P chain)
    (hchain : p.Reaches chain) (h : ¬ Hangs chain) : P chain := by
  refine (Returning.wellFounded_alwaysCalledBy p).induction (C := fun c => P c.1)
    ⟨chain, hchain, h⟩ ?_
  rintro ⟨chain, hchain, hreturns⟩ ih
  exact halways chain hchain fun chain' hcall =>
    ih ⟨chain', hchain.tail hcall.calls, fun hhangs => hreturns (hhangs.of_always hcall)⟩
      (.single hcall)

end Program

namespace Execution

/-! ### Values -/

def values (x : String) (stack : List Activation) : List (Option Bool) :=
  stack.map fun act => act.vars.get? x

@[simp] theorem values_cons (x : String) (act : Activation) (below : List Activation) :
    values x (act :: below) = act.vars.get? x :: values x below := rfl

def give : List (Option Bool) → List (Option Bool)
  | [] => []
  | none :: below => none :: give below
  | some _ :: below => some true :: below

/-- Whoever returns from a body has assigned the `x` of the caller: the body does so, itself
or by a call, before it declares an `x` of its own. -/
inductive Assures (x : String) : List (List Stmt) → Prop
  | assign {chain : List (List Stmt)} {done rest : List Stmt} :
      done ++ .assign x :: rest = chain.headD [] → .declare x ∉ done → Assures x chain
  | call {chain chain' : List (List Stmt)} {g : String} {done rest : List Stmt} :
      done ++ .call g false :: rest = chain.headD [] → .declare x ∉ done →
      resolve g chain = some chain' → Assures x chain' → Assures x chain

inductive Supplies (x : String) (chain : List (List Stmt)) : Stmt → Prop
  | assign : Supplies x chain (.assign x)
  | call {chain' : List (List Stmt)} {g : String} :
      resolve g chain = some chain' → Assures x chain' → Supplies x chain (.call g false)

/-- One of these statements of a body supplies `x`, and none declares it after that. -/
def Supplied (x : String) (chain : List (List Stmt)) (done : List Stmt) : Prop :=
  ∃ before s between, done = before ++ s :: between ∧ Supplies x chain s ∧ .declare x ∉ between

/-- One of these statements of a body supplies `x`, and none declares it before that. -/
def SuppliesCaller (x : String) (chain : List (List Stmt)) (done : List Stmt) : Prop :=
  ∃ before s between, done = before ++ s :: between ∧ .declare x ∉ before ∧ Supplies x chain s

section

variable {x : String} {chain : List (List Stmt)} {done rest : List Stmt} {s : Stmt}

theorem supplied_concat : Supplied x chain (done ++ [s]) ↔
    Supplies x chain s ∨ s ≠ .declare x ∧ Supplied x chain done := by
  constructor
  · rintro ⟨before, t, between, heq, ht, hbetween⟩
    rcases List.eq_nil_or_concat' between with rfl | ⟨between, last, rfl⟩
    · obtain ⟨_, hlast⟩ := List.append_inj' heq rfl
      exact .inl (List.singleton_inj.1 hlast ▸ ht)
    · rw [← List.cons_append, ← List.append_assoc] at heq
      obtain ⟨rfl, hlast⟩ := List.append_inj' heq rfl
      obtain rfl : s = last := List.singleton_inj.1 hlast
      simp only [List.mem_append, List.mem_singleton, not_or] at hbetween
      exact .inr ⟨Ne.symm hbetween.2, before, t, between, rfl, ht, hbetween.1⟩
  · rintro (hs | ⟨hs, before, t, between, rfl, ht, hbetween⟩)
    · exact ⟨done, s, [], rfl, hs, by simp⟩
    · exact ⟨before, t, between ++ [s], by simp, ht, by simp [hbetween, Ne.symm hs]⟩

theorem SuppliesCaller.concat (h : SuppliesCaller x chain done) (s : Stmt) :
    SuppliesCaller x chain (done ++ [s]) := by
  obtain ⟨before, t, between, rfl, hbefore, ht⟩ := h
  exact ⟨before, t, between ++ [s], by simp, hbefore, ht⟩

theorem SuppliesCaller.supplied (h : SuppliesCaller x chain done) (hdone : .declare x ∉ done) :
    Supplied x chain done := by
  obtain ⟨before, t, between, rfl, _, ht⟩ := h
  simp only [List.mem_append, List.mem_cons, not_or] at hdone
  exact ⟨before, t, between, rfl, ht, hdone.2.2⟩

theorem suppliesCaller_iff : SuppliesCaller x chain (chain.headD []) ↔ Assures x chain := by
  constructor
  · rintro ⟨before, t, between, heq, hbefore, ht⟩
    cases ht with
    | assign => exact .assign heq.symm hbefore
    | call hr hassures => exact .call heq.symm hbefore hr hassures
  · rintro (⟨heq, hbefore⟩ | ⟨heq, hbefore, hr, hassures⟩)
    · exact ⟨_, _, _, heq.symm, hbefore, .assign⟩
    · exact ⟨_, _, _, heq.symm, hbefore, .call hr hassures⟩

theorem give_give (v : List (Option Bool)) : give (give v) = give v := by
  induction v with
  | nil => rfl
  | cons own below ih => cases own <;> simp [give, ih]

theorem values_assign_self (x : String) (stack : List Activation) :
    values x (assign x stack) = give (values x stack) := by
  induction stack with
  | nil => rfl
  | cons act below ih =>
    cases hx : act.vars.get? x with
    | none =>
      rw [assign_of_get?_eq_none hx]
      simpa [give, hx] using ih
    | some v =>
      rw [assign_of_contains (by simp [Table.contains, hx])]
      simp [give, hx]

theorem values_assign_of_ne {y : String} (hne : x ≠ y) (stack : List Activation) :
    values x (assign y stack) = values x stack := by
  induction stack with
  | nil => rfl
  | cons act below ih =>
    rw [assign]
    split
    · simp [Table.get?_insert_of_ne _ hne]
    · simpa using ih

end

/-! ### Runs -/

def Comes (stack stack' : List Activation) : Prop :=
  ∃ choices : List Bool, choices.foldl (fun stack taken => step taken stack) stack = stack'

namespace Comes

variable {a b c : List Activation}

theorem refl (a : List Activation) : Comes a a := ⟨[], rfl⟩

theorem trans (h : Comes a b) (h' : Comes b c) : Comes a c := by
  obtain ⟨choices, rfl⟩ := h
  obtain ⟨choices', rfl⟩ := h'
  exact ⟨choices ++ choices', List.foldl_append⟩

theorem step (taken : Bool) (h : Execution.step taken a = b) : Comes a b := ⟨[taken], h⟩

end Comes

@[simp] theorem map_outline_assign (x : String) (stack : List Activation) :
    (assign x stack).map Activation.outline = stack.map Activation.outline := by
  induction stack with
  | nil => rfl
  | cons act below ih =>
    rw [assign]
    split
    · rename_i hx
      have hkeys := Table.keys_insert act.vars x true
      rw [if_pos ((Table.contains_iff_mem_keys _ _).1 hx)] at hkeys
      simp [Activation.outline, hkeys]
    · rw [List.map_cons, ih, List.map_cons]

theorem exists_of_map_outline_eq {chain : List (List Stmt)} {rest : List Stmt} {vars : Table Bool}
    {below stack : List Activation}
    (h : stack.map Activation.outline = (⟨chain, rest, vars⟩ :: below).map Activation.outline) :
    ∃ vars' below', stack = ⟨chain, rest, vars'⟩ :: below' ∧
      below'.map Activation.outline = below.map Activation.outline ∧
      ∀ y, vars'.contains y ↔ vars.contains y := by
  rw [List.map_cons] at h
  obtain ⟨⟨bodies, rest', vars'⟩, below', rfl, hact, hbelow⟩ := List.map_eq_cons_iff.1 h
  simp only [Activation.outline, Prod.mk.injEq] at hact
  obtain ⟨rfl, rfl, hkeys⟩ := hact
  refine ⟨vars', below', rfl, hbelow, fun y => ?_⟩
  rw [Table.contains_iff_mem_keys, Table.contains_iff_mem_keys, hkeys]

theorem step_call {chain chain' : List (List Stmt)} {g : String} (c : Bool)
    (hr : resolve g chain = some chain') (rest : List Stmt) (vars : Table Bool)
    (below : List Activation) : step true (⟨chain, .call g c :: rest, vars⟩ :: below) =
      ⟨chain', chain'.headD [], {}⟩ :: ⟨chain, rest, vars⟩ :: below := by
  simp [step, hr]

theorem step_call_cases (taken : Bool) (chain : List (List Stmt)) (g : String) (c : Bool)
    (rest : List Stmt) (vars : Table Bool) (below : List Activation) :
    step taken (⟨chain, .call g c :: rest, vars⟩ :: below) = ⟨chain, rest, vars⟩ :: below ∨
      ∃ chain', resolve g chain = some chain' ∧
        step taken (⟨chain, .call g c :: rest, vars⟩ :: below) =
          ⟨chain', chain'.headD [], {}⟩ :: ⟨chain, rest, vars⟩ :: below := by
  simp only [step]
  split
  · exact .inl rfl
  · cases hr : resolve g chain with
    | none => exact .inl rfl
    | some chain' => exact .inr ⟨chain', rfl, rfl⟩

/-- Called, the body is executed to its end by some run. What lies below is as it was but for
values, and a value of `x` has come only if the body always assigns one. -/
def Returns (x : String) (chain : List (List Stmt)) : Prop := ∀ below, ∃ below',
  Comes (⟨chain, chain.headD [], {}⟩ :: below) below' ∧
    below'.map Activation.outline = below.map Activation.outline ∧
    (values x below' = values x below ∨ Assures x chain ∧ values x below' = give (values x below))

inductive Turns (x : String) (chain : List (List Stmt)) (s : Stmt) :
    List (Option Bool) → List (Option Bool) → Prop
  | declare {own : Option Bool} {below : List (Option Bool)} : s = .declare x →
      Turns x chain s (own :: below) (some false :: below)
  | keep {v : List (Option Bool)} : s ≠ .declare x → Turns x chain s v v
  | supply {v : List (Option Bool)} : Supplies x chain s → Turns x chain s v (give v)

/-- What the statements of a body that are done have made of `x`, here and below. -/
structure Leaves (x : String) (chain : List (List Stmt)) (done : List Stmt) (vars : Table Bool)
    (below below' : List Activation) : Prop where
  outline : below'.map Activation.outline = below.map Activation.outline
  declared : ∀ y, vars.contains y ↔ .declare y ∈ done
  unsupplied : .declare x ∈ done → ¬ Supplied x chain done → vars.get? x = some false
  below : values x below' = values x below ∨
    SuppliesCaller x chain done ∧ values x below' = give (values x below)

section

variable {x : String} {chain : List (List Stmt)} {done rest : List Stmt} {s : Stmt}
  {vars : Table Bool} {below below' : List Activation}

theorem passes (hreturns : ∀ g chain', s = .call g false → resolve g chain = some chain' →
      Returns x chain') (rest : List Stmt) (vars : Table Bool) (below : List Activation) :
    ∃ vars' below', Comes (⟨chain, s :: rest, vars⟩ :: below) (⟨chain, rest, vars'⟩ :: below') ∧
      below'.map Activation.outline = below.map Activation.outline ∧
      (∀ y, vars'.contains y ↔ vars.contains y ∨ s = .declare y) ∧
      Turns x chain s (vars.get? x :: values x below) (vars'.get? x :: values x below') := by
  cases s with
  | declare z =>
    refine ⟨vars.insert z false, below, .step false rfl, rfl, fun y => ?_, ?_⟩
    · by_cases hy : y = z
      · simp [Table.contains, hy]
      · simp [Table.contains_insert_of_ne _ hy, Ne.symm hy]
    · by_cases hx : x = z
      · rw [← hx, Table.get?_insert_self]
        exact .declare rfl
      · rw [Table.get?_insert_of_ne _ hx]
        exact .keep (by simp [Ne.symm hx])
  | assign z =>
    have hstep : step false (⟨chain, .assign z :: rest, vars⟩ :: below) =
        assign z (⟨chain, rest, vars⟩ :: below) := rfl
    obtain ⟨vars', below', heq, hbelow, hvars⟩ :=
      exists_of_map_outline_eq (map_outline_assign z (⟨chain, rest, vars⟩ :: below))
    refine ⟨vars', below', .step false (hstep.trans heq), hbelow, fun y => by simp [hvars y], ?_⟩
    have hturned : vars'.get? x :: values x below' =
        values x (assign z (⟨chain, rest, vars⟩ :: below)) := by
      rw [heq]
      rfl
    rw [hturned]
    by_cases hx : x = z
    · subst hx
      rw [values_assign_self]
      exact .supply .assign
    · rw [values_assign_of_ne hx]
      exact .keep (by simp)
  | call g c =>
    cases c with
    | true => exact ⟨vars, below, .step false rfl, rfl, by simp, .keep (by simp)⟩
    | false =>
      cases hr : resolve g chain with
      | none => exact ⟨vars, below, .step false (by simp [step, hr]), rfl, by simp, .keep (by simp)⟩
      | some chain' =>
        obtain ⟨stack, hcomes, hstack, hvalues⟩ :=
          hreturns g chain' rfl hr (⟨chain, rest, vars⟩ :: below)
        obtain ⟨vars', below', rfl, hbelow, hvars⟩ := exists_of_map_outline_eq hstack
        refine ⟨vars', below', (Comes.step true (step_call false hr rest vars below)).trans hcomes,
          hbelow, fun y => by simp [hvars y], ?_⟩
        simp only [values_cons] at hvalues
        rcases hvalues with hkept | ⟨hassures, hgiven⟩
        · rw [hkept]
          exact .keep (by simp)
        · rw [hgiven]
          exact .supply (.call hr hassures)
  | print _ | function _ _ | bare | block _ =>
    exact ⟨vars, below, .step false rfl, rfl, by simp, .keep (by simp)⟩

theorem Leaves.concat {vars' : Table Bool} {below'' : List Activation}
    (h : Leaves x chain done vars below below')
    (houtline : below''.map Activation.outline = below'.map Activation.outline)
    (hvars : ∀ y, vars'.contains y ↔ vars.contains y ∨ s = .declare y)
    (hturns : Turns x chain s (vars.get? x :: values x below') (vars'.get? x :: values x below'')) :
    Leaves x chain (done ++ [s]) vars' below below'' := by
  have hdeclared : ∀ y, vars'.contains y ↔ .declare y ∈ done ++ [s] := fun y => by
    rw [hvars, h.declared, List.mem_append, List.mem_singleton, eq_comm (a := s)]
  have hkept : ∀ {v}, v = values x below' → v = values x below ∨
      SuppliesCaller x chain (done ++ [s]) ∧ v = give (values x below) := by
    rintro v rfl
    exact h.below.imp id fun hgiven => ⟨hgiven.1.concat s, hgiven.2⟩
  refine ⟨houtline.trans h.outline, hdeclared, fun hdone hsupplied => ?_, ?_⟩
  · rw [supplied_concat, not_or] at hsupplied
    generalize hv : vars.get? x :: values x below' = v,
      hv' : vars'.get? x :: values x below'' = v' at hturns
    cases hturns with
    | declare _ => exact (List.cons.inj hv').1
    | keep hne =>
      rw [List.mem_append, List.mem_singleton] at hdone
      have hbefore := hdone.resolve_right (Ne.symm hne)
      rw [(List.cons.inj (hv'.trans hv.symm)).1]
      exact h.unsupplied hbefore fun hbefore => hsupplied.2 ⟨hne, hbefore⟩
    | supply hs => exact absurd hs hsupplied.1
  · generalize hv : vars.get? x :: values x below' = v,
      hv' : vars'.get? x :: values x below'' = v' at hturns
    cases hturns with
    | declare _ => exact hkept ((List.cons.inj hv').2.trans (List.cons.inj hv).2.symm)
    | keep _ => exact hkept (List.cons.inj (hv'.trans hv.symm)).2
    | supply hs =>
      cases hx : vars.get? x with
      | some own =>
        rw [← hv, hx, give] at hv'
        exact hkept (List.cons.inj hv').2
      | none =>
        -- The body has no `x` of its own yet, so what it supplies goes to its caller.
        have hfree : .declare x ∉ done := by
          rw [← h.declared, Table.contains, hx]
          simp
        rw [← hv, hx, give] at hv'
        refine .inr ⟨⟨done, s, [], rfl, hfree, hs⟩, (List.cons.inj hv').2.trans ?_⟩
        rcases h.below with hsame | ⟨_, hgiven⟩
        · rw [hsame]
        · rw [hgiven, give_give]

/-- A body is executed up to any of its statements before which its calls return. -/
theorem arrives (hbody : done ++ rest = chain.headD [])
    (hreturns : ∀ g chain', .call g false ∈ done → resolve g chain = some chain' →
      Returns x chain') (below : List Activation) : ∃ vars below',
      Comes (⟨chain, chain.headD [], {}⟩ :: below) (⟨chain, rest, vars⟩ :: below') ∧
        Leaves x chain done vars below below' := by
  induction done using List.reverseRecOn generalizing rest with
  | nil =>
    obtain rfl : rest = chain.headD [] := hbody
    exact ⟨{}, below, .refl _, rfl, by simp [Table.contains], by simp, .inl rfl⟩
  | append_singleton done s ih =>
    rw [List.append_assoc, List.singleton_append] at hbody
    obtain ⟨vars, below', hcomes, hleaves⟩ :=
      ih hbody fun g chain' hmem => hreturns g chain' (List.mem_append_left _ hmem)
    have hs : ∀ g chain', s = .call g false → resolve g chain = some chain' → Returns x chain' := by
      rintro g chain' rfl
      exact hreturns g chain' (by simp)
    obtain ⟨vars', below'', hpass, houtline, hvars, hturns⟩ := passes hs rest vars below'
    exact ⟨vars', below'', hcomes.trans hpass, hleaves.concat houtline hvars hturns⟩

theorem returns_of_always (hreturns : ∀ chain', Always chain chain' → Returns x chain') :
    Returns x chain := by
  intro below
  obtain ⟨vars, below', hcomes, hleaves⟩ := arrives (List.append_nil (chain.headD []))
    (fun g chain' hmem hr => hreturns chain' ⟨g, hmem, hr⟩) below
  refine ⟨below', hcomes.trans (.step false rfl), hleaves.outline, ?_⟩
  rw [← suppliesCaller_iff]
  exact hleaves.below

end

end Execution

namespace Program

open Execution

theorem Reaches.returns {p : Program} {chain : List (List Stmt)} (hchain : p.Reaches chain)
    (h : ¬ Hangs chain) (x : String) : Returns x chain :=
  Reaches.induction (fun _ _ hreturns => returns_of_always hreturns) hchain h

end Program

end DefiniteAssignment
