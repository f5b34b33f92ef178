import DefiniteAssignment.Proofs.Progress
import DefiniteAssignment.Proofs.Report
import DefiniteAssignment.Proofs.Visibility
import Mathlib.Logic.Relation

/-! The grounds of problems. A contract that a scope asks others to meet goes back
to a use of the name, here or where calls lead from here, and a contract that the
scope meets itself to a declaration. So whatever a check reports is borne out by
statements of the bodies it walks. -/
namespace DefiniteAssignment

open Relation

def Stmt.declares (x : String) : Stmt → Bool
  | declare y | function y _ => y = x
  | assign _ | print _ | call _ _ | bare | block _ => false

theorem Stmt.exists_getElem?_of_filterMap {body inner : List Stmt} {f : String}
    {before behind : List (String × List Stmt)}
    (h : body.filterMap function? = before ++ (f, inner) :: behind) :
    ∃ k : Nat, body[k]? = some (.function f inner) ∧ ∀ inner', (f, inner') ∈ before →
      ∃ l < k, body[l]? = some (.function f inner') := by
  obtain ⟨front, back, rfl, rfl, hback⟩ := List.filterMap_eq_append_iff.1 h
  have hmem : Stmt.function f inner ∈ back := by
    rw [← mem_filterMap_function?, hback]
    exact List.mem_cons_self
  obtain ⟨k, hk⟩ := List.mem_iff_getElem?.1 hmem
  refine ⟨front.length + k, ?_, fun inner' hinner => ?_⟩
  · rw [List.getElem?_append_right (Nat.le_add_right _ _), Nat.add_sub_cancel_left]
    exact hk
  · obtain ⟨l, hl⟩ := List.mem_iff_getElem?.1 (mem_filterMap_function?.1 hinner)
    have hlt : l < front.length := (List.getElem?_eq_some_iff.1 hl).1
    exact ⟨l, by omega, by rw [List.getElem?_append_left hlt, hl]⟩

namespace Analysis

def Leads (a : Analysis) (i j : Nat) : Prop :=
  (a.scope i).entered ∧ ∃ g c, .call g c ∈ (a.scope i).body ∧ a.lookup i g = some j

/-- The statement stands in the body of scope `i` or of an entered scope to which
calls lead from there. -/
def ComesTo (a : Analysis) (i : Nat) (s : Stmt) : Prop :=
  ∃ k, ReflTransGen a.Leads i k ∧ (a.scope k).entered ∧ s ∈ (a.scope k).body

def DeclaresAt (a : Analysis) (i k : Nat) (x : String) : Prop :=
  ∃ s, (a.scope i).body[k]? = some s ∧ s.declares x

/-- What has to stand in the bodies of entered scopes for a problem to be reported. -/
inductive Justified (a : Analysis) : Problem → Prop
  | unknownFunction {i : Nat} {x : String} {c : Bool} : (a.scope i).entered →
      .call x c ∈ (a.scope i).body → a.lookup i x = none → Justified a ⟨.unknownFunction, x⟩
  | assignToFunction {i : Nat} {x : String} : (a.scope i).entered →
      .assign x ∈ (a.scope i).body → a.isFunction i x → Justified a ⟨.assignToFunction, x⟩
  | alreadyDeclared {i j k l : Nat} {x : String} : (a.scope i).entered →
      j ∈ i :: (a.scope i).enclosing → (j, l) ≠ (i, k) → a.DeclaresAt i k x →
      a.DeclaresAt j l x → Justified a ⟨.alreadyDeclared, x⟩
  | usedBeforeDeclared {i : Nat} {x : String} : (a.scope i).entered →
      .declare x ∈ (a.scope i).body → a.ComesTo i (.assign x) ∨ a.ComesTo i (.print x) →
      Justified a ⟨.usedBeforeDeclared, x⟩
  | notAssigned {i : Nat} {x : String} : (a.scope i).entered → .declare x ∈ (a.scope i).body →
      a.ComesTo i (.print x) → Justified a ⟨.notAssigned, x⟩
  | notDeclared {x : String} : a.ComesTo 0 (.assign x) ∨ a.ComesTo 0 (.print x) →
      Justified a ⟨.notDeclared, x⟩

variable {a b : Analysis} {i j : Nat} {x : String} {problem : Problem}

theorem ComesTo.here {s : Stmt} (hi : (a.scope i).entered) (hs : s ∈ (a.scope i).body) :
    a.ComesTo i s :=
  ⟨i, .refl, hi, hs⟩

theorem ComesTo.head {s : Stmt} (hij : a.Leads i j) (h : a.ComesTo j s) : a.ComesTo i s := by
  obtain ⟨k, hjk, hk, hs⟩ := h
  exact ⟨k, .head hij hjk, hk, hs⟩

def Tabled (a : Analysis) : Prop :=
  ∀ i f j, (a.scope i).functions.get? f = some j → ∃ inner, .function f inner ∈ (a.scope i).body

theorem Tabled.within (h : a.Tabled) (hw : Within i a b) : b.Tabled := by
  intro k f j hf
  rw [hw.functions] at hf
  rw [hw.body]
  exact h k f j hf

theorem Tabled.enter (h : a.Tabled) (hi : i < a.scopes.size) : (a.enter i).Tabled := by
  have he := Enters.enter a hi
  intro k f j hf
  rcases he.scope_cases k with rfl | ⟨_, hsame⟩ | ⟨_, name, body, enclosing, hborn⟩
  · obtain ⟨t, ht⟩ := he.own
    have hbody : ((a.enter k).scope k).body = (a.scope k).body := by rw [ht]
    rw [hbody]
    rcases he.found f j hf with hold | ⟨hle, hlt, hname⟩
    · exact h k f j hold
    · obtain ⟨g, inner, hmem, hborn⟩ := he.born j hle hlt
      rw [hborn] at hname
      obtain rfl : g = f := hname
      exact ⟨inner, Stmt.mem_filterMap_function?.1 hmem⟩
  · rw [hsame] at hf ⊢
    exact h k f j hf
  · simp [hborn] at hf

theorem blank_addRoot (body : List Stmt) (i : Nat) :
    ((({} : Analysis).addRoot body).scope i).functions = {} ∧
      ((({} : Analysis).addRoot body).scope i).contracts = {} := by
  rw [scope_addRoot]
  split
  · exact ⟨rfl, rfl⟩
  · rw [scope_empty]
    exact ⟨rfl, rfl⟩

theorem tabled_addRoot (body : List Stmt) : (({} : Analysis).addRoot body).Tabled := by
  intro i f j hf
  rw [(blank_addRoot body i).1] at hf
  simp at hf

theorem Tabled.kept : KeptByWalks Tabled where
  note _ _ _ _ _ _ dispatched unresolved h := h.within (Notes.dispatch dispatched unresolved).within
  enter _ _ _ hi _ h := h.enter hi
  complete a i j c _ _ _ h := h.within (Within.completed a i j c)

theorem isTaken_cases (h : a.isTaken i x) :
    (∃ k ∈ i :: (a.scope i).enclosing, ∃ j, (a.scope k).functions.get? x = some j) ∨
      ∃ k ∈ (a.scope i).enclosing, ((a.scope k).contracts.get? x).any Contract.isDeclared := by
  rw [isTaken, Bool.or_eq_true] at h
  refine h.imp (fun hfunction => ?_) fun haround => ?_
  · obtain ⟨j, hj⟩ := Option.isSome_iff_exists.1 hfunction
    obtain ⟨k, hk, hf⟩ := List.exists_of_findSome?_eq_some hj
    exact ⟨k, hk, j, hf⟩
  · simp only [contracts, ContractMap.declaredAround, List.any_map, List.any_eq_true,
      Function.comp_apply] at haround
    exact haround

/-- A name with a contract that the scope meets itself is declared in its body. -/
def DeclaresOwn (a : Analysis) : Prop :=
  ∀ k x, ((a.scope k).contracts.get? x).any Contract.isDeclared → .declare x ∈ (a.scope k).body

theorem Extends.declaresAt (he : Extends a b) (hi : i < a.scopes.size) {s : Stmt}
    (hs : s ∈ (a.scope i).body) (hx : s.declares x) : ∃ k, b.DeclaresAt i k x := by
  obtain ⟨k, hk⟩ := List.mem_iff_getElem?.1 hs
  rw [← (he.scope i hi).body] at hk
  exact ⟨k, s, hk, hx⟩

theorem Justified.of_isTaken (hn : a.WellNested) (htabled : a.Tabled) (hown : a.DeclaresOwn)
    (he : Extends a b) (hi : i < a.scopes.size) (hentered : (b.scope i).entered) {k : Nat}
    (hat : b.DeclaresAt i k x)
    (hself : ∀ j, (a.scope i).functions.get? x = some j → ∃ l, l ≠ k ∧ b.DeclaresAt i l x)
    (h : a.isTaken i x) : b.Justified ⟨.alreadyDeclared, x⟩ := by
  have haround : ∀ k' ∈ (a.scope i).enclosing, ∀ s ∈ (a.scope k').body, s.declares x →
      b.Justified ⟨.alreadyDeclared, x⟩ := by
    intro k' hk' s hs hx
    obtain ⟨hlt, hentered'⟩ := hn.mem_enclosing hk'
    obtain ⟨l, hl⟩ := he.declaresAt (lt_size_of_entered hentered') hs hx
    refine .alreadyDeclared hentered (List.mem_cons_of_mem i ?_) (fun heq => ?_) hat hl
    · rw [(he.scope i hi).enclosing]
      exact hk'
    · exact Nat.ne_of_lt hlt (congrArg Prod.fst heq)
  rcases isTaken_cases h with ⟨k', hk', j, hj⟩ | ⟨k', hk', hdeclared⟩
  · rcases List.mem_cons.1 hk' with rfl | hk'
    · obtain ⟨l, hne, hl⟩ := hself j hj
      exact .alreadyDeclared hentered List.mem_cons_self
        (fun heq => hne (congrArg Prod.snd heq)) hat hl
    · obtain ⟨inner, hinner⟩ := htabled k' x j hj
      exact haround k' hk' _ hinner (by simp [Stmt.declares])
  · exact haround k' hk' _ (hown k' x hdeclared) (by simp [Stmt.declares])

theorem isTaken_marked (a : Analysis) (i : Nat) (f : String) :
    (a.marked i).isTaken i f = a.isTaken i f := by
  simp only [isTaken, isFunction, lookup, contracts, ContractMap.declaredAround, enclosing_marked,
    functions_marked, contracts_marked]

theorem Justified.enter (hn : a.WellNested) (htabled : a.Tabled) (hown : a.DeclaresOwn)
    (hi : i < a.scopes.size) (new : (a.scope i).entered = false) (he : Extends (a.enter i) b)
    (h : problem ∈ (a.enter i).problems.toList) :
    problem ∈ a.problems.toList ∨ b.Justified problem := by
  have henters := Enters.enter a hi
  have hext := (henters.extends new).trans he
  have hentered : (b.scope i).entered := he.entered ((henters.entered_iff i).2 (.inl rfl))
  rw [enter_eq] at h
  refine (problems_register_cases _ (a.marked i) (by simpa using hi) h).imp id ?_
  rintro ⟨before, f, inner, behind, hl, rfl, hf⟩
  obtain ⟨k, hk, hbefore⟩ := Stmt.exists_getElem?_of_filterMap hl
  rw [← (hext.scope i hi).body] at hk hbefore
  have hat : b.DeclaresAt i k f := ⟨_, hk, by simp [Stmt.declares]⟩
  rcases hf with htaken | ⟨inner', hinner⟩
  · rw [isTaken_marked] at htaken
    refine .of_isTaken hn htabled hown hext hi hentered hat (fun j hj => ?_) htaken
    obtain ⟨name, body, enclosing, hfresh⟩ := hn.fresh i new
    simp [hfresh] at hj
  · obtain ⟨l, hlt, hl⟩ := hbefore inner' hinner
    exact .alreadyDeclared hentered List.mem_cons_self
      (fun heq => Nat.ne_of_lt hlt (congrArg Prod.snd heq)) hat ⟨_, hl, by simp [Stmt.declares]⟩

def Warrants (a : Analysis) (i : Nat) (x : String) : Use → Prop
  | .read => a.ComesTo i (.print x)
  | .declared | .assigned => a.ComesTo i (.assign x) ∨ a.ComesTo i (.print x)

end Analysis

theorem View.after_cases {v : View} {u : Use} {c : Contract} (h : v.after u = some c) :
    (u = .declared ∧ c = .outer) ∨ (u = .assigned ∧ c = .outerAssigned) ∨
      (c = .innerAssigned ∧ v.own = some .inner) ∨ (u = .read ∧ c = .external) := by
  unfold after at h
  split at h
  · simp at h
  · split at h <;> split at h <;> simp_all

theorem Machine.exists_dispatches {m : Machine} (hv : m.Valid) {i : Nat} {s : Stmt}
    {rest : List Stmt} {below : List Frame} (hs : m.stack = ⟨i, s :: rest, none⟩ :: below) :
    ∃ k, m.Dispatches i k ∧ (m.analysis.scope i).body[k]? = some s := by
  obtain ⟨front, hfront⟩ := (hv.fits ⟨i, s :: rest, none⟩ (by simp [hs])).rest
  have hbody : (m.analysis.scope i).body = front ++ s :: rest := hfront.symm
  refine ⟨front.length, ⟨?_, ?_⟩, ?_⟩
  · simp [hbody]
  · rw [hs, hbody, List.drop_left]
    rfl
  · simp [hbody]

namespace Program

variable {p : Program} {n i j : Nat} {x : String} {d : Contract}

/-- What bears out a contract of scope `i` at moment `n` of the check: uses of the
name that the scope comes to, or a declaration that it has dispatched. -/
def Founds (p : Program) (n i : Nat) (x : String) : Contract → Prop
  | .external => p.checked.ComesTo i (.print x)
  | .outer | .outerAssigned => p.checked.ComesTo i (.assign x) ∨ p.checked.ComesTo i (.print x)
  | .inner | .innerAssigned => ∃ l < n, ∃ k, (p.opening.after l).Dispatches i k ∧
      (p.checked.scope i).body[k]? = some (.declare x)
  | .alien _ => False

namespace Founds

theorem succ (h : p.Founds n i x d) : p.Founds (n + 1) i x d := by
  cases d with
  | inner | innerAssigned =>
    obtain ⟨l, hl, hk⟩ := h
    exact ⟨l, Nat.lt_succ_of_lt hl, hk⟩
  | _ => exact h

theorem uses (h : p.Founds n i x d) (hd : d.isObligation) :
    p.checked.ComesTo i (.assign x) ∨ p.checked.ComesTo i (.print x) := by
  cases d with
  | external => exact .inr h
  | outer | outerAssigned => exact h
  | _ => cases hd

theorem declared (h : p.Founds n i x d) (hd : d.isObligation = false) :
    ∃ l < n, ∃ k, (p.opening.after l).Dispatches i k ∧
      (p.checked.scope i).body[k]? = some (.declare x) := by
  cases d with
  | inner | innerAssigned => exact h
  | alien t => exact h.elim
  | _ => cases hd

theorem warrants (h : p.Founds n j x d) (hij : p.checked.Leads i j) {conditional : Bool} {u : Use}
    (hu : d.demand conditional = .use u) : p.checked.Warrants i x u := by
  have huses : d.isObligation → p.checked.ComesTo i (.assign x) ∨ p.checked.ComesTo i (.print x) :=
    fun hd => (h.uses hd).imp (.head hij) (.head hij)
  cases d with
  | external =>
    cases hu
    exact .head hij h
  | outer => cases conditional <;> cases hu <;> exact huses rfl
  | outerAssigned =>
    cases hu
    exact huses rfl
  | _ => cases hu

end Founds

theorem founds_after {v : View} {u : Use} (hown : ∀ d, v.own = some d → p.Founds n i x d)
    (hu : p.checked.Warrants i x u) (h : (v.after u).or v.own = some d) : p.Founds n i x d := by
  cases hafter : v.after u with
  | none =>
    rw [hafter, Option.none_or] at h
    exact hown d h
  | some c =>
    obtain rfl : c = d := by simpa [hafter] using h
    rcases View.after_cases hafter with ⟨rfl, rfl⟩ | ⟨rfl, rfl⟩ | ⟨rfl, hinner⟩ | ⟨rfl, rfl⟩
    · exact hu
    · exact hu
    · exact hown .inner hinner
    · exact hu

structure Grounds (p : Program) (n : Nat) (a : Analysis) : Prop where
  contracts : ∀ i x d, (a.scope i).contracts.get? x = some d → p.Founds n i x d
  problems : ∀ problem ∈ a.problems.toList, p.checked.Justified problem

namespace Grounds

variable {a b : Analysis} (h : p.Grounds n a)
include h

theorem succ : p.Grounds (n + 1) a :=
  ⟨fun i x d hd => (h.contracts i x d hd).succ, h.problems⟩

theorem within (hw : Analysis.Within i a b)
    (hown : ∀ x d, (b.scope i).contracts.get? x = some d → p.Founds n i x d)
    (hproblems : ∀ problem ∈ b.problems.toList, p.checked.Justified problem) : p.Grounds n b := by
  refine ⟨fun j x d hd => ?_, hproblems⟩
  by_cases hj : j = i
  · rw [hj] at hd ⊢
    exact hown x d hd
  · rw [hw.other j hj] at hd
    exact h.contracts j x d hd

theorem report {code : Code} (hx : p.checked.Justified ⟨code, x⟩) :
    p.Grounds n (a.report code x) := by
  refine ⟨h.contracts, fun problem hproblem => ?_⟩
  rcases Sink.mem_insert.1 hproblem with hold | rfl
  · exact h.problems problem hold
  · exact hx

theorem mem_body_of_inner {d : Contract} (hd : (a.scope i).contracts.get? x = some d)
    (hobligation : d.isObligation = false) : .declare x ∈ (p.checked.scope i).body := by
  obtain ⟨_, _, k, _, hk⟩ := (h.contracts i x d hd).declared hobligation
  exact List.mem_of_getElem? hk

theorem use (hi : i < a.scopes.size) (hentered : (p.checked.scope i).entered) {u : Use}
    (hu : p.checked.Warrants i x u) : p.Grounds n (a.use i u x) := by
  refine h.within (Analysis.Notes.use i a u x).within (fun y d hy => ?_) fun problem hproblem => ?_
  · rw [Analysis.get?_use a hi] at hy
    split at hy
    · rename_i heq
      subst heq
      exact founds_after (h.contracts i y) hu hy
    · exact h.contracts i y d hy
  · rcases Analysis.mem_problems_use_iff.1 hproblem with hold | ⟨rfl, hread⟩
    · exact h.problems problem hold
    · obtain ⟨_, rfl, hinner⟩ := Analysis.readsUnassigned_iff.1 hread
      exact .notAssigned hentered (h.mem_body_of_inner hinner rfl) hu

theorem completed (hn : a.WellNested) (hi : i < a.scopes.size)
    (hentered : (p.checked.scope i).entered) (hij : p.checked.Leads i j) (conditional : Bool) :
    p.Grounds n (a.completed i j conditional) := by
  refine h.within (.completed a i j conditional) (fun y d hy => ?_) fun problem hproblem => ?_
  · rw [Analysis.contracts_completed, hn.get?_propagated hi] at hy
    unfold View.met at hy
    split at hy
    · rename_i u hu
      obtain ⟨c, hc, hdemand⟩ := Option.map_eq_some_iff.1 hu
      exact founds_after (h.contracts i y) ((h.contracts j y c hc).warrants hij hdemand) hy
    all_goals exact h.contracts i y d hy
  · rw [Analysis.problems_completed] at hproblem
    rcases (Analysis.mem_problems_propagate_iff _ _ _ a hi (hn.nodup j)
      (hn.entries_known j)).1 hproblem with hold | ⟨x, rfl, hexternal, hread⟩
    · exact h.problems problem hold
    · obtain ⟨_, _, hinner⟩ := Analysis.readsUnassigned_iff.1 hread
      exact .notAssigned hentered (h.mem_body_of_inner hinner rfl)
        (.head hij (h.contracts j x .external hexternal))

theorem declaresOwn (hn : a.WellNested) (he : Analysis.Extends a p.checked) : a.DeclaresOwn := by
  intro i x hx
  cases hd : (a.scope i).contracts.get? x with
  | none => simp [hd] at hx
  | some d =>
    rw [hd] at hx
    have hcontains : (a.scope i).contracts.contains x := by simp [Table.contains, hd]
    have hlt := Analysis.lt_size_of_entered (hn.entered_of_contains hcontains)
    rw [← (he.scope i hlt).body]
    refine h.mem_body_of_inner hd ?_
    cases d <;> first | rfl | cases hx

theorem enter (hn : a.WellNested) (htabled : a.Tabled) (hi : i < a.scopes.size)
    (new : (a.scope i).entered = false) (he : Analysis.Extends (a.enter i) p.checked) :
    p.Grounds n (a.enter i) := by
  have henters := Analysis.Enters.enter a hi
  have hown := h.declaresOwn hn ((henters.extends new).trans he)
  refine ⟨fun j x d hd => ?_, fun problem hproblem => ?_⟩
  · have hsame : ((a.enter i).scope j).contracts = (a.scope j).contracts :=
      congrArg Prod.fst (henters.findings j)
    rw [hsame] at hd
    exact h.contracts j x d hd
  · rcases Analysis.Justified.enter hn htabled hown hi new he hproblem with hold | hnew
    · exact h.problems problem hold
    · exact hnew

end Grounds

theorem tabled_after (p : Program) (n : Nat) : (p.opening.after n).analysis.Tabled := by
  have hroot := (Analysis.tabled_addRoot p.body).enter (Analysis.root_lt_size {} p.body)
  exact Analysis.Tabled.kept.after p.valid_opening hroot n

section

variable {rest : List Stmt} {below : List Frame}
  (h : p.Grounds n (p.opening.after n).analysis)
include h

theorem Grounds.declareVariable
    (hs : (p.opening.after n).stack = ⟨i, .declare x :: rest, none⟩ :: below) :
    p.Grounds (n + 1) ((p.opening.after n).analysis.declareVariable i x) := by
  have hv := p.valid_opening.after n
  have he := p.extends_checked n
  have hi := (hv.fits ⟨i, .declare x :: rest, none⟩ (by simp [hs])).entered
  have hlt := Analysis.lt_size_of_entered hi
  have hentered := he.entered hi
  obtain ⟨k, hdispatches, hk⟩ := Machine.exists_dispatches hv hs
  rw [← (he.scope i hlt).body] at hk
  have hat : p.checked.DeclaresAt i k x := ⟨_, hk, by simp [Stmt.declares]⟩
  refine h.succ.within (Analysis.Notes.declareVariable i _ x).within (fun y d hy => ?_)
    fun problem hproblem => ?_
  · rw [Analysis.get?_declareVariable _ hlt] at hy
    split at hy
    · rename_i heq
      obtain rfl : .inner = d := by simpa using hy
      rw [heq.1]
      exact ⟨n, Nat.lt_succ_self n, k, hdispatches, hk⟩
    · exact (h.contracts i y d hy).succ
  · rcases Analysis.problems_declareVariable_cases hproblem with hold | ⟨rfl, d, hd, hobligation⟩ |
      ⟨rfl, htaken | ⟨d, hd, hobligation⟩⟩
    · exact h.problems problem hold
    · exact .usedBeforeDeclared hentered (List.mem_of_getElem? hk)
        ((h.contracts i x d hd).uses hobligation)
    · refine .of_isTaken hv.nested (p.tabled_after n) (h.declaresOwn hv.nested he) he hlt hentered
        hat (fun j hj => ?_) htaken
      -- A function of this name stands at another place of the body.
      obtain ⟨inner, hinner⟩ := p.tabled_after n i x j hj
      rw [← (he.scope i hlt).body] at hinner
      obtain ⟨l, hl⟩ := List.mem_iff_getElem?.1 hinner
      refine ⟨l, ?_, _, hl, by simp [Stmt.declares]⟩
      rintro rfl
      simp [hk] at hl
    · -- The declaration dispatched before is not the one dispatched now.
      obtain ⟨l, hbefore, k', hdispatches', hk'⟩ := (h.contracts i x d hd).declared hobligation
      refine .alreadyDeclared hentered List.mem_cons_self (fun heq => ?_) hat
        ⟨_, hk', by simp [Stmt.declares]⟩
      obtain rfl : k' = k := congrArg Prod.snd heq
      exact Nat.ne_of_lt hbefore (Machine.dispatches_once p.valid_opening hdispatches' hdispatches)

theorem Grounds.dispatch {s : Stmt}
    (hs : (p.opening.after n).stack = ⟨i, s :: rest, none⟩ :: below) {b : Analysis}
    (hd : (p.opening.after n).analysis.dispatch i s = (b, .proceed))
    (hcall : ∀ g c, s = .call g c → (p.opening.after n).analysis.lookup i g = none) :
    p.Grounds (n + 1) b := by
  have hv := p.valid_opening.after n
  have he := p.extends_checked n
  have hfits := hv.fits ⟨i, s :: rest, none⟩ (by simp [hs])
  have hlt := Analysis.lt_size_of_entered hfits.entered
  have hentered := he.entered hfits.entered
  have hlookup := hv.nested.lookup_extends he hfits.entered
  have hmem : s ∈ (p.checked.scope i).body := by
    rw [(he.scope i hlt).body]
    exact hfits.rest.mem List.mem_cons_self
  cases s with
  | declare x =>
    obtain rfl := (Prod.mk.inj hd).1
    exact h.declareVariable hs
  | assign x =>
    obtain rfl := (Prod.mk.inj hd).1
    split
    · rename_i hfunction
      refine h.succ.report (.assignToFunction hentered hmem ?_)
      rw [Analysis.isFunction, hlookup]
      exact hfunction
    · exact h.succ.use hlt hentered (.inl (.here hentered hmem))
  | print x =>
    obtain rfl := (Prod.mk.inj hd).1
    exact h.succ.use hlt hentered (.here hentered hmem)
  | function f body =>
    obtain rfl := (Prod.mk.inj hd).1
    exact h.succ
  | call g c =>
    have hnone := hcall g c rfl
    simp only [Analysis.dispatch, Analysis.resolveCall, hnone] at hd
    obtain rfl := (Prod.mk.inj hd).1
    exact h.succ.report (.unknownFunction hentered hmem ((hlookup g).trans hnone))
  | bare => simp [Analysis.dispatch] at hd
  | block body => simp [Analysis.dispatch] at hd

theorem Grounds.step : p.Grounds (n + 1) (p.opening.after (n + 1)).analysis := by
  have hv := p.valid_opening.after n
  have he := p.extends_checked n
  have hnext_extends := p.extends_checked (n + 1)
  rw [Machine.after_succ] at hnext_extends ⊢
  cases hs : (p.opening.after n).stack with
  | nil =>
    rw [Machine.step_of_stack_nil hs]
    exact h.succ
  | cons f below =>
    have hnext := Machine.next_step hs hv
    have hfits := hv.fits f (by simp [hs])
    generalize (p.opening.after n).step = m at hnext hnext_extends
    cases hnext with
    | finish i => exact h.succ
    | note dispatched unresolved => exact h.dispatch hs dispatched unresolved
    | enter resolved new =>
      have hj := hv.nested.lookup_lt resolved
      exact h.succ.enter hv.nested (p.tabled_after n) hj new hnext_extends
    | @complete _ j c completes =>
      obtain ⟨_, g, hg, hcall⟩ := hfits.completes completes
      have hlt := Analysis.lt_size_of_entered hfits.entered
      have hentered := he.entered hfits.entered
      have hleads : p.checked.Leads f.scope j := by
        refine ⟨hentered, g, c, ?_, (hv.nested.lookup_extends he hfits.entered g).trans hg⟩
        rw [(he.scope f.scope hlt).body]
        exact hcall.mem List.mem_cons_self
      exact h.succ.completed hv.nested hlt hentered hleads c
    | fail _ => exact h.succ

end

theorem grounds_zero (p : Program) : p.Grounds 0 p.opening.analysis := by
  have hroot : p.Grounds 0 (({} : Analysis).addRoot p.body) := by
    refine ⟨fun i x d hd => ?_, fun problem hproblem => ?_⟩
    · rw [(Analysis.blank_addRoot p.body i).2] at hd
      simp at hd
    · simp [Analysis.addRoot] at hproblem
  exact hroot.enter (Analysis.WellNested.empty.addRoot p.body) (Analysis.tabled_addRoot p.body)
    (Analysis.root_lt_size {} p.body) (Analysis.entered_root {} p.body) (p.extends_checked 0)

theorem grounds_after (p : Program) (n : Nat) : p.Grounds n (p.opening.after n).analysis := by
  induction n with
  | zero => exact p.grounds_zero
  | succ n ih => exact ih.step

/-- Nothing is reported without grounds: of every problem in the list that the
check of a program of the language gives, the statements that bear it out stand
in bodies that the check has walked. -/
theorem justified_of_mem_problems (hin : p.InLanguage) :
    ∃ ps, p.problems = .ok ps ∧ ∀ problem ∈ ps, p.checked.Justified problem := by
  obtain ⟨n, hend, hok⟩ := hin.exists_end
  have hgrounds := p.grounds_after n
  have hnested := (p.valid_opening.after n).nested
  refine ⟨_, problems_eq_sweep hend hok, fun problem hproblem => ?_⟩
  rcases Analysis.problems_sweep_cases _ _ hproblem with hold | ⟨x, c, hx, hc, rfl⟩
  · exact hgrounds.problems problem hold
  · have hget := Table.get?_of_mem (hnested.nodup 0) hx
    exact .notDeclared ((hgrounds.contracts 0 x c hget).uses hc)

def faulty : Program :=
  ⟨[.function "F" [.print "y", .call "H" true, .assign "w"],
    .function "H" [.print "z"],
    .declare "z", .call "F" false, .declare "y", .declare "z", .assign "F", .call "G" false]⟩

theorem justified_of_mem_problems_faulty :
    faulty.InLanguage ∧ ∃ ps, faulty.problems = .ok ps ∧
      ps = [⟨.notAssigned, "z"⟩, ⟨.usedBeforeDeclared, "y"⟩, ⟨.alreadyDeclared, "z"⟩,
        ⟨.assignToFunction, "F"⟩, ⟨.unknownFunction, "G"⟩, ⟨.notDeclared, "w"⟩] ∧
      ∀ problem ∈ ps, faulty.checked.Justified problem := by
  have hin : faulty.InLanguage := rfl
  have hend : (faulty.opening.after 17).stack = [] := rfl
  have hok : (faulty.opening.after 17).failure = none := rfl
  obtain ⟨ps, hps, hjustified⟩ := justified_of_mem_problems hin
  refine ⟨hin, ps, hps, ?_, hjustified⟩
  rw [problems_eq_sweep hend hok] at hps
  exact (Except.ok.inj hps).symm

end Program

end DefiniteAssignment
