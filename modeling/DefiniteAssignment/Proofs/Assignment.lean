import DefiniteAssignment.Proofs.Recursion
import DefiniteAssignment.Proofs.Silence
import DefiniteAssignment.Proofs.Tracking

/-! Runs of accepted programs. The walk of an accepted program comes to every place that runs
may come to, and reports each exposed variable that it knows to be one. So a run reads a
variable without a value only where the walk is mistaken about it: it takes the variable for
assigned, or the called body for one that needs no value. -/
namespace DefiniteAssignment

open Relation Execution

namespace Analysis

variable {a b : Analysis} {i j : Nat}

theorem Performs.isDeclared {s : Stmt} (h : a.Performs i s b) (hi : i < a.scopes.size) {x : String}
    (hx : ((a.scope i).contracts.get? x).any Contract.isDeclared) :
    ((b.scope i).contracts.get? x).any Contract.isDeclared := by
  cases h with
  | declare y =>
    rw [get?_declareVariable a hi]
    split
    · rfl
    · exact hx
  | refuse _ | function _ _ | stray _ _ => exact hx
  | @assign y _ => rw [(advances_use a hi .assigned y x).any_isDeclared, hx]
  | print y => rw [(advances_use a hi .read y x).any_isDeclared, hx]

end Analysis

namespace Program

def contractAt (p : Program) (n i : Nat) (x : String) : Option Contract :=
  ((p.opening.after n).analysis.scope i).contracts.get? x

section

variable {p : Program} {x : String} {i j n last : Nat} {s : Stmt} {done rest : List Stmt}
  {lower : List Frame} {g : String} {c : Bool}

namespace Accepted

variable (h : p.Accepted last)
include h

theorem exists_completes (hs : (p.opening.after n).stack = ⟨i, .call g c :: rest, none⟩ :: lower) :
    ∃ j k f, p.checked.lookup i g = some j ∧ (p.checked.scope j).entered ∧
      (p.opening.after k).stack = f :: lower ∧ f.scope = i ∧
      f.completes? (p.opening.after k).analysis = some (j, c) ∧ f.resumed = ⟨i, rest, none⟩ ∧
      ∀ x, p.contractAt k i x = p.contractAt n i x := by
  have hv := p.valid_opening
  have hfits := (hv.after n).fits _ (by rw [hs]; exact List.mem_cons_self)
  have hlookup := (hv.after n).nested.lookup_extends (p.extends_checked n) hfits.entered g
  cases hj : (p.opening.after n).analysis.lookup i g with
  | none =>
    -- A call that leads nowhere is reported.
    have hd : (p.opening.after n).analysis.dispatch i (.call g c) =
        ((p.opening.after n).analysis.report .unknownFunction g, .proceed) := by
      simp [Analysis.dispatch, Analysis.resolveCall, hj]
    have hsilent := h.silent_after (n + 1)
    rw [Machine.after_succ, Machine.step_of_proceed hs hd] at hsilent
    exact absurd hsilent (Analysis.not_silent_report _ _ g)
  | some j =>
    have hlast := Nat.le_of_lt (h.lt_last (by rw [hs]; simp))
    obtain ⟨k, f, _, _, hk, hscope, hc, hresumed, hfindings, _⟩ :=
      hv.exists_completes hlast h.ended h.well hs hj
    have hentered := (((hv.after k).fits f (by rw [hk]; exact List.mem_cons_self)).completes hc).1
    exact ⟨j, k, f, hlookup.trans hj, (p.extends_checked k).entered hentered, hk, hscope, hc,
      hresumed, fun x => congrArg (Table.get? · x) (congrArg Prod.fst hfindings)⟩

end Accepted

end

end Program

end DefiniteAssignment
