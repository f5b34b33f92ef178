import DefiniteAssignment.Proofs.Language

/-! Analyses seen in another way. A translation says at which places scopes are seen, by
which names, and what is seen of the text; names may be hidden. A map of analyses that
follows a translation in the few primitive updates and lookups follows it in every
operation that is made of them, up to the steps of a machine. -/
namespace DefiniteAssignment

namespace Stmt

def symbol? : Stmt → Option String
  | declare x | assign x | print x | call x _ => some x
  | function _ _ | bare | block _ => none

mutual

def rename (f : String → String) : Stmt → Stmt
  | .declare x => .declare (f x)
  | .assign x => .assign (f x)
  | .print x => .print (f x)
  | .function g body => .function (f g) (renameAll f body)
  | .call g conditional => .call (f g) conditional
  | .bare => .bare
  | .block body => .block (renameAll f body)

def renameAll (f : String → String) : List Stmt → List Stmt
  | [] => []
  | s :: rest => s.rename f :: renameAll f rest

end

theorem filterMap_renameAll (f : String → String) (body : List Stmt) :
    (renameAll f body).filterMap function? =
      (body.filterMap function?).map fun e => (f e.1, renameAll f e.2) := by
  induction body with
  | nil => rfl
  | cons s rest ih => cases s <;> simpa [renameAll, rename, List.filterMap_cons, function?] using ih

mutual

theorem rename_id : (s : Stmt) → s.rename id = s
  | .declare _ | .assign _ | .print _ | .call _ _ | .bare => rfl
  | .function f body => congrArg (Stmt.function f) (renameAll_id body)
  | .block body => congrArg Stmt.block (renameAll_id body)

theorem renameAll_id : (body : List Stmt) → renameAll id body = body
  | [] => rfl
  | s :: rest => congrArg₂ List.cons (rename_id s) (renameAll_id rest)

end

end Stmt

namespace Analysis

variable {a : Analysis} {i : Nat} {s : Stmt} (h : s = .bare ∨ ∃ body, s = .block body)
include h

theorem dispatch_of_outside :
    a.dispatch i s = (a, .fail (.unknownStatement s (a.scope i).name)) := by
  rcases h with rfl | ⟨body, rfl⟩
  · rfl
  · rfl

theorem dispatch_rename_of_outside (f : String → String) : a.dispatch i (s.rename f) =
    (a, .fail (.unknownStatement (s.rename f) (a.scope i).name)) := by
  rcases h with rfl | ⟨body, rfl⟩
  · rfl
  · rfl

end Analysis

namespace Table

variable {α β : Type}

def shown (symbol : String → Option String) (g : α → β) :
    List (String × α) → List (String × β) :=
  List.filterMap fun e => (symbol e.1).map fun y => (y, g e.2)

def translate (symbol : String → Option String) (g : α → β) (t : Table α) : Table β :=
  ⟨shown symbol g t.entries⟩

variable {symbol : String → Option String} {x y : String} (g : α → β)

theorem shown_cons (hx : symbol x = some y) (v : α) (l : List (String × α)) :
    shown symbol g ((x, v) :: l) = (y, g v) :: shown symbol g l := by
  simp [shown, hx]

theorem shown_cons_of_hidden (hx : symbol x = none) (v : α) (l : List (String × α)) :
    shown symbol g ((x, v) :: l) = shown symbol g l := by
  simp [shown, hx]

section

variable (hinj : ∀ {x x' y}, symbol x = some y → symbol x' = some y → x = x')
  (hx : symbol x = some y)
include hinj hx

theorem get?_translate (t : Table α) : (t.translate symbol g).get? y = (t.get? x).map g := by
  obtain ⟨l⟩ := t
  unfold get? translate
  dsimp only
  induction l with
  | nil => rfl
  | cons e rest ih =>
    obtain ⟨z, v⟩ := e
    by_cases hz : z = x
    · subst hz
      simp [shown_cons g hx, find]
    · cases hshown : symbol z with
      | none => rw [shown_cons_of_hidden g hshown, ih, find, if_neg hz]
      | some w =>
        have hw : w ≠ y := fun h => hz (hinj (h ▸ hshown) hx)
        rw [shown_cons g hshown, find, if_neg hw, ih, find, if_neg hz]

theorem translate_insert (t : Table α) (v : α) :
    (t.insert x v).translate symbol g = (t.translate symbol g).insert y (g v) := by
  obtain ⟨l⟩ := t
  simp only [translate, insert, mk.injEq]
  induction l with
  | nil => simp [put, shown, hx]
  | cons e rest ih =>
    obtain ⟨z, w⟩ := e
    by_cases hz : z = x
    · subst hz
      simp [put, shown_cons g hx]
    · cases hshown : symbol z with
      | none => rw [put, if_neg hz, shown_cons_of_hidden g hshown, shown_cons_of_hidden g hshown, ih]
      | some z' =>
        have hne : z' ≠ y := fun h => hz (hinj (h ▸ hshown) hx)
        rw [put, if_neg hz, shown_cons g hshown, shown_cons g hshown, put, if_neg hne, ih]

end

theorem translate_insert_of_hidden (hx : symbol x = none) (t : Table α) (v : α) :
    (t.insert x v).translate symbol g = t.translate symbol g := by
  obtain ⟨l⟩ := t
  simp only [translate, insert, mk.injEq]
  induction l with
  | nil => simp [put, shown, hx]
  | cons e rest ih =>
    obtain ⟨z, w⟩ := e
    by_cases hz : z = x
    · subst hz
      simp [put, shown_cons_of_hidden g hx]
    · cases hshown : symbol z with
      | none => rw [put, if_neg hz, shown_cons_of_hidden g hshown, shown_cons_of_hidden g hshown, ih]
      | some z' => rw [put, if_neg hz, shown_cons g hshown, shown_cons g hshown, ih]

end Table

structure Translation where
  place : Nat → Nat
  place_inj : Function.Injective place
  /-- Names in contracts and problems. -/
  symbol : String → Option String
  symbol_inj : ∀ {x x' y}, symbol x = some y → symbol x' = some y → x = x'
  /-- Names of functions. -/
  callable : String → Option String
  callable_inj : ∀ {x x' y}, callable x = some y → callable x' = some y → x = x'
  callable_of_symbol : ∀ {x y}, symbol x = some y → callable x = some y
  text : List Stmt → List Stmt
  text_nil : text [] = []
  /-- The name of a scope inside others. An outermost scope keeps its name. -/
  title : String → String
  title_of_symbol : ∀ {x y}, symbol x = some y → title x = y

namespace Translation

theorem keep_inj {x x' y : String} (h : some x = some y) (h' : some x' = some y) : x = x' :=
  Option.some.inj (h.trans h'.symm)

def scope (T : Translation) (s : Scope) : Scope where
  name := if s.enclosing = [] then s.name else T.title s.name
  body := T.text s.body
  enclosing := s.enclosing.map T.place
  contracts := s.contracts.translate T.symbol id
  functions := s.functions.translate T.callable T.place
  entered := s.entered
  recursive := s.recursive
  always := s.always.map T.place

variable (T : Translation)

theorem scope_default : T.scope default = default := by
  simp [scope, default, instInhabitedScope.default, T.text_nil, Table.translate, Table.shown]

theorem place_eq_iff {i j : Nat} : T.place i = T.place j ↔ i = j :=
  ⟨fun h => T.place_inj h, congrArg T.place⟩

theorem mem_map_place {i : Nat} {l : List Nat} : T.place i ∈ l.map T.place ↔ i ∈ l := by
  simp [T.place_eq_iff]

theorem union_map_place (l new : List Nat) :
    (union l new).map T.place = union (l.map T.place) (new.map T.place) := by
  simp [union, List.filter_map, Function.comp_def, T.place_eq_iff]

theorem scope_passThrough (s : Scope) (callee : Nat) (reach : List Nat) :
    T.scope (s.passThrough callee reach) =
      (T.scope s).passThrough (T.place callee) (reach.map T.place) := by
  simp only [Scope.passThrough, scope, T.union_map_place, List.map_cons, List.map_nil]
  rfl

/-- What a map of analyses must do to follow a translation: it keeps the arena in place,
shows each scope as the translation does, and follows the primitive updates. -/
structure Respects (F : Analysis → Analysis) : Prop where
  size : ∀ a, (F a).scopes.size = T.place a.scopes.size
  scope : ∀ a i, (F a).scope (T.place i) = T.scope (a.scope i)
  update : ∀ a i {f g : Scope → Scope}, (∀ s, T.scope (f s) = g (T.scope s)) →
    F (a.update i f) = (F a).update (T.place i) g
  push : ∀ a s, F { a with scopes := a.scopes.push s } =
    { F a with scopes := (F a).scopes.push (T.scope s) }
  count : ∀ a, F { a with count := a.count + 1 } = { F a with count := (F a).count + 1 }
  report : ∀ {x y}, T.symbol x = some y → ∀ a code, F (a.report code x) = (F a).report code y
  hide : ∀ {x}, T.symbol x = none → ∀ a code, F (a.report code x) = F a

namespace Respects

variable {T} {F : Analysis → Analysis} (h : T.Respects F) {x y : String}
include h

/-! ### Lookups -/

theorem isRecursive (a : Analysis) (i : Nat) : (F a).isRecursive (T.place i) = a.isRecursive i := by
  rw [Analysis.isRecursive, h.scope]
  rfl

theorem lookup (hx : T.callable x = some y) (a : Analysis) (i : Nat) :
    (F a).lookup (T.place i) y = (a.lookup i x).map T.place := by
  have hchain : T.place i :: ((F a).scope (T.place i)).enclosing =
      (i :: (a.scope i).enclosing).map T.place := by
    rw [h.scope]
    rfl
  have hfunctions : ∀ j, ((F a).scope (T.place j)).functions.get? y =
      ((a.scope j).functions.get? x).map T.place := fun j => by
    rw [h.scope]
    exact Table.get?_translate T.place T.callable_inj hx _
  unfold Analysis.lookup
  rw [hchain, List.findSome?_map, List.map_findSome?]
  simp [Function.comp_def, hfunctions]

theorem isFunction (hx : T.callable x = some y) (a : Analysis) (i : Nat) :
    (F a).isFunction (T.place i) y = a.isFunction i x := by
  simp [Analysis.isFunction, h.lookup hx]

section

variable (hx : T.symbol x = some y)
include hx

theorem get?_contracts (a : Analysis) (i : Nat) :
    ((F a).scope (T.place i)).contracts.get? y = (a.scope i).contracts.get? x := by
  rw [h.scope]
  exact (Table.get?_translate id T.symbol_inj hx _).trans Option.map_id'

theorem declaredAround (a : Analysis) (i : Nat) :
    ((F a).contracts (T.place i)).declaredAround y = (a.contracts i).declaredAround x := by
  have henclosing : ((F a).scope (T.place i)).enclosing = (a.scope i).enclosing.map T.place := by
    rw [h.scope]
    rfl
  simp only [Analysis.contracts, ContractMap.declaredAround, henclosing, List.any_map,
    Function.comp_def, h.get?_contracts hx]

theorem view (a : Analysis) (i : Nat) : (F a).view (T.place i) y = a.view i x := by
  have henclosing : ((F a).scope (T.place i)).enclosing = (a.scope i).enclosing.map T.place := by
    rw [h.scope]
    rfl
  simp only [Analysis.view, Analysis.contracts, ContractMap.get?, ContractMap.boundAround,
    h.isFunction (T.callable_of_symbol hx), henclosing, List.any_map, Function.comp_def,
    Table.contains, h.get?_contracts hx]

theorem isTaken (a : Analysis) (i : Nat) : (F a).isTaken (T.place i) y = a.isTaken i x := by
  simp only [Analysis.isTaken, h.isFunction (T.callable_of_symbol hx), h.declaredAround hx]

end

/-! ### Updates -/

theorem flag (a : Analysis) (i : Nat) : F (a.flag i) = (F a).flag (T.place i) :=
  h.update a i fun _ => rfl

theorem marked (a : Analysis) (i : Nat) : F (a.marked i) = (F a).marked (T.place i) := by
  have hupdate := h.update a i (f := fun s => { s with entered := true })
    (g := fun s => { s with entered := true }) fun _ => rfl
  have hcount := h.count (a.update i fun s => { s with entered := true })
  rw [hupdate] at hcount
  exact hcount

theorem addRoot (a : Analysis) (body : List Stmt) :
    F (a.addRoot body) = (F a).addRoot (T.text body) := by
  rw [Analysis.addRoot, h.push]
  rfl

section

variable (hx : T.symbol x = some y)
include hx

theorem setContract (a : Analysis) (i : Nat) (c : Contract) :
    F (a.setContract i x c) = (F a).setContract (T.place i) y c := by
  refine h.update a i fun s => ?_
  simp only [Translation.scope, Table.translate_insert id T.symbol_inj hx]
  rfl

theorem setFunction (a : Analysis) (i j : Nat) :
    F (a.setFunction i x j) = (F a).setFunction (T.place i) y (T.place j) := by
  refine h.update a i fun s => ?_
  simp only [Translation.scope,
    Table.translate_insert T.place T.callable_inj (T.callable_of_symbol hx)]

theorem addFunction (a : Analysis) (i : Nat) (body : List Stmt) :
    F (a.addFunction i x body) = (F a).addFunction (T.place i) y (T.text body) := by
  have hscope : T.scope { name := x, body, enclosing := i :: (a.scope i).enclosing } =
      { name := y
        body := T.text body
        enclosing := T.place i :: ((F a).scope (T.place i)).enclosing } := by
    rw [h.scope]
    simp [Translation.scope, T.title_of_symbol hx, Table.translate, Table.shown]
  rw [Analysis.addFunction, h.push, hscope]
  rfl

theorem use (a : Analysis) (i : Nat) (u : Use) :
    F (a.use i u x) = (F a).use (T.place i) u y := by
  simp only [Analysis.use, h.view hx]
  split <;> split <;> simp only [h.setContract hx, h.report hx]

theorem declareVariable (a : Analysis) (i : Nat) :
    F (a.declareVariable i x) = (F a).declareVariable (T.place i) y := by
  simp only [Analysis.declareVariable, h.view hx, h.declaredAround hx]
  split
  · exact h.report hx a _
  · split
    · simp only [h.setContract hx, h.report hx]
    · split <;> simp only [h.setContract hx, h.report hx]

theorem registerOne (a : Analysis) (i : Nat) (body : List Stmt) :
    F (a.registerOne i x body) = (F a).registerOne (T.place i) y (T.text body) := by
  simp only [Analysis.registerOne, h.isTaken hx, h.size]
  split
  · exact h.report hx a _
  · rw [h.setFunction hx, h.addFunction hx]

end

/-! ### Names that are hidden -/

section

variable (hx : T.symbol x = none)
include hx

theorem setContract_of_hidden (a : Analysis) (i : Nat) (c : Contract) :
    F (a.setContract i x c) = F a := by
  have hupdate : F (a.setContract i x c) = (F a).update (T.place i) id := by
    refine h.update a i fun s => ?_
    simp only [Translation.scope, Table.translate_insert_of_hidden id hx]
    rfl
  rw [hupdate, Analysis.update_eq_self rfl]

theorem use_of_hidden (a : Analysis) (i : Nat) (u : Use) : F (a.use i u x) = F a := by
  simp only [Analysis.use]
  split <;> split <;> simp only [h.setContract_of_hidden hx, h.hide hx]

theorem declareVariable_of_hidden (a : Analysis) (i : Nat) : F (a.declareVariable i x) = F a := by
  simp only [Analysis.declareVariable]
  split
  · exact h.hide hx a _
  · split
    · simp only [h.setContract_of_hidden hx, h.hide hx]
    · split <;> simp only [h.setContract_of_hidden hx, h.hide hx]

end

/-! ### Calls -/

/-- The entries of the called scope that are hidden have no part in a call, as long as
they are of the five kinds, and its name never has. -/
theorem propagate (i : Nat) (callee callee' : String) (conditional : Bool)
    (l : List (String × Contract)) (a : Analysis) (hl : ∀ e ∈ l, ∀ t, e.2 ≠ .alien t) :
    F (a.propagate i callee conditional l).1 =
      ((F a).propagate (T.place i) callee' conditional (Table.shown T.symbol id l)).1 := by
  induction l generalizing a with
  | nil => rfl
  | cons e rest ih =>
    obtain ⟨x, c⟩ := e
    have hrest : ∀ e ∈ rest, ∀ t, e.2 ≠ .alien t := fun e he => hl e (List.mem_cons_of_mem _ he)
    cases hx : T.symbol x with
    | some y =>
      rw [Table.shown_cons id hx]
      simp only [Analysis.propagate, id]
      split
      · exact ih a hrest
      · rw [ih _ hrest, h.use hx]
      · rfl
    | none =>
      rw [Table.shown_cons_of_hidden id hx, Analysis.propagate]
      split
      · exact ih a hrest
      · rw [ih _ hrest, h.use_of_hidden hx]
      · rename_i mark hdemand
        have hknown := hl (x, c) List.mem_cons_self
        cases c <;> simp_all [Contract.demand]

theorem recordCall (a : Analysis) (i callee : Nat) :
    F (a.recordCall i callee).1 = ((F a).recordCall (T.place i) (T.place callee)).1 := by
  have hpass : F (a.update i (·.passThrough callee (a.scope callee).always)) =
      (F a).update (T.place i) (·.passThrough (T.place callee)
        ((F a).scope (T.place callee)).always) := by
    rw [h.scope]
    exact h.update a i fun s => T.scope_passThrough s callee _
  simp only [Analysis.recordCall, ← hpass]
  generalize a.update i (·.passThrough callee (a.scope callee).always) = b
  -- The two questions that decide about the caller have the same answers.
  have hback : (T.place callee = T.place i ∨ T.place i ∈ ((F b).scope (T.place i)).always) ↔
      (callee = i ∨ i ∈ (b.scope i).always) := by
    rw [h.scope]
    exact or_congr T.place_eq_iff T.mem_map_place
  have hany : (T.place callee :: ((F a).scope (T.place callee)).always).any (F b).isRecursive =
      (callee :: (a.scope callee).always).any b.isRecursive := by
    rw [h.scope]
    simp [Translation.scope, Function.comp_def, h.isRecursive]
  simp only [hback, hany]
  split
  · exact h.flag b i
  · split
    · exact h.flag b i
    · split <;> split <;> rfl

theorem completed {a : Analysis} (hn : a.WellNested) (i callee : Nat) (conditional : Bool) :
    F (a.completed i callee conditional) =
      (F a).completed (T.place i) (T.place callee) conditional := by
  have hpropagated : F (a.propagated i callee conditional) =
      (F a).propagated (T.place i) (T.place callee) conditional := by
    unfold Analysis.propagated
    rw [h.scope]
    exact h.propagate i _ _ conditional _ a (hn.entries_known callee)
  unfold Analysis.completed
  split
  · exact hpropagated
  · rw [h.recordCall, hpropagated]

/-! ### Statements and scopes -/

theorem dispatch {f : String → String} {a b : Analysis} {i : Nat} {s : Stmt}
    (hs : ∀ x ∈ s.symbol?, T.symbol x = some (f x)) (hd : a.dispatch i s = (b, .proceed))
    (hcall : ∀ g c, s = .call g c → a.lookup i g = none) :
    (F a).dispatch (T.place i) (s.rename f) = (F b, .proceed) := by
  have hb : b = (a.dispatch i s).1 := by rw [hd]
  subst hb
  cases s with
  | declare x => simp only [Stmt.rename, Analysis.dispatch, h.declareVariable (hs x rfl)]
  | assign x =>
    have hx := hs x rfl
    simp only [Stmt.rename, Analysis.dispatch, h.isFunction (T.callable_of_symbol hx)]
    split
    · rw [h.report hx]
    · rw [h.use hx]
  | print x => simp only [Stmt.rename, Analysis.dispatch, h.use (hs x rfl)]
  | function g body => rfl
  | call g c =>
    have hg := hs g rfl
    simp [Stmt.rename, Analysis.dispatch, Analysis.resolveCall, h.lookup (T.callable_of_symbol hg),
      hcall g c rfl, h.report hg]
  | bare => simp [Analysis.dispatch] at hd
  | block body => simp [Analysis.dispatch] at hd

theorem register {f : String → String} (i : Nat) (l : List (String × List Stmt)) (a : Analysis)
    (hl : ∀ e ∈ l, T.symbol e.1 = some (f e.1)) :
    F (a.register i l) = (F a).register (T.place i) (l.map fun e => (f e.1, T.text e.2)) := by
  induction l generalizing a with
  | nil => rfl
  | cons e rest ih =>
    have hrest := ih (a.registerOne i e.1 e.2) fun e he => hl e (List.mem_cons_of_mem _ he)
    rw [h.registerOne (hl e List.mem_cons_self)] at hrest
    exact hrest

theorem enter {f : String → String} (a : Analysis) (i : Nat)
    (hl : ∀ e ∈ (a.scope i).body.filterMap Stmt.function?, T.symbol e.1 = some (f e.1))
    (htext : (T.text (a.scope i).body).filterMap Stmt.function? =
      ((a.scope i).body.filterMap Stmt.function?).map fun e => (f e.1, T.text e.2)) :
    F (a.enter i) = (F a).enter (T.place i) := by
  rw [Analysis.enter_eq, h.register i _ _ hl, h.marked, Analysis.enter_eq, h.scope, ← htext]
  rfl

theorem sweep (l : List (String × Contract)) (a : Analysis) (hl : ∀ e ∈ l, ∀ t, e.2 ≠ .alien t) :
    F (a.sweep l).1 = ((F a).sweep (Table.shown T.symbol id l)).1 := by
  induction l generalizing a with
  | nil => rfl
  | cons e rest ih =>
    obtain ⟨x, c⟩ := e
    have hrest : ∀ e ∈ rest, ∀ t, e.2 ≠ .alien t := fun e he => hl e (List.mem_cons_of_mem _ he)
    cases hx : T.symbol x with
    | some y =>
      rw [Table.shown_cons id hx]
      simp only [Analysis.sweep, id]
      split
      · rw [ih _ hrest, h.report hx]
      · split
        · exact ih a hrest
        · rfl
    | none =>
      rw [Table.shown_cons_of_hidden id hx, Analysis.sweep]
      split
      · rw [ih _ hrest, h.hide hx]
      · split
        · exact ih a hrest
        · have hknown := hl (x, c) List.mem_cons_self
          cases c <;> simp_all [Contract.isObligation, Contract.isDeclared]

end Respects

/-! ### Machines -/

structure Renames (f : String → String) : Prop where
  symbol : ∀ x, T.symbol x = some (f x)
  text : ∀ body, T.text body = Stmt.renameAll f body

def frame (T : Translation) (g : Frame) : Frame where
  scope := T.place g.scope
  rest := T.text g.rest
  pending := g.pending.map fun call => (T.place call.1, call.2)

/-- The machine `m'` is `m` as it is seen through a map of analyses; of a failure
is seen what `told` tells. -/
structure Carries {ρ : Type} (F : Analysis → Analysis) (told : Failure → ρ) (m m' : Machine) :
    Prop where
  analysis : m'.analysis = F m.analysis
  stack : m'.stack = m.stack.map T.frame
  failure : m'.failure.map told = m.failure.map told

section

variable {T} {F : Analysis → Analysis} {f : String → String} (h : T.Respects F) (hf : T.Renames f)
include hf

theorem Renames.callable (x : String) : T.callable x = some (f x) :=
  T.callable_of_symbol (hf.symbol x)

theorem Renames.frame_cons (i : Nat) (s : Stmt) (rest : List Stmt) :
    T.frame ⟨i, s :: rest, none⟩ = ⟨T.place i, s.rename f :: T.text rest, none⟩ := by
  simp [frame, hf.text, Stmt.renameAll]

theorem Renames.resumed_frame (g : Frame) : (T.frame g).resumed = T.frame g.resumed := by
  obtain ⟨i, rest, pending⟩ := g
  cases pending with
  | some call => rfl
  | none =>
    cases rest with
    | nil => simp [frame, Frame.resumed, T.text_nil]
    | cons s rest => rw [hf.frame_cons]; rfl

include h

theorem Respects.enter_of_renames (a : Analysis) (i : Nat) :
    F (a.enter i) = (F a).enter (T.place i) := by
  refine h.enter a i (fun e _ => hf.symbol e.1) ?_
  simp only [hf.text]
  exact Stmt.filterMap_renameAll f _

theorem Respects.completes_frame (a : Analysis) (g : Frame) :
    (T.frame g).completes? (F a) = (g.completes? a).map fun call => (T.place call.1, call.2) := by
  obtain ⟨i, rest, pending⟩ := g
  cases pending with
  | some call => rfl
  | none =>
    cases rest with
    | nil => simp [frame, Frame.completes?, T.text_nil]
    | cons s rest =>
      rw [hf.frame_cons]
      cases s with
      | call g c =>
        have hentered : ∀ j, ((F a).scope (T.place j)).entered = (a.scope j).entered := fun j => by
          rw [h.scope]
          rfl
        simp only [Stmt.rename, Frame.completes?, h.lookup (hf.callable g)]
        cases a.lookup i g with
        | none => rfl
        | some j =>
          simp only [Option.map_some, hentered]
          split <;> rfl
      | _ => rfl

end

theorem Respects.start_frame {F : Analysis → Analysis} (h : T.Respects F) (a : Analysis) (i : Nat) :
    Frame.start (F a) (T.place i) = T.frame (Frame.start a i) := by
  simp only [Frame.start, frame, h.scope]
  rfl

section

variable {T} {ρ : Type} {F : Analysis → Analysis} {f : String → String} {told : Failure → ρ}
  (h : T.Respects F) (hf : T.Renames f)
  (htold : ∀ s scope, told (.unknownStatement (s.rename f) (T.scope scope).name) =
    told (.unknownStatement s scope.name))
include h hf htold

theorem Carries.step {m m' : Machine} (hc : T.Carries F told m m') (hv : m.Valid) (hv' : m'.Valid) :
    T.Carries F told m.step m'.step := by
  have hstack := hc.stack
  cases hs : m.stack with
  | nil =>
    rw [hs] at hstack
    rw [Machine.step_of_stack_nil hs, Machine.step_of_stack_nil hstack]
    exact hc
  | cons g below =>
    rw [hs, List.map_cons] at hstack
    have hnext := Machine.next_step hs hv
    generalize hstep : m.step = next at hnext
    cases hnext with
    | finish i =>
      have hframe : T.frame ⟨i, [], none⟩ = ⟨T.place i, [], none⟩ := by simp [frame, T.text_nil]
      rw [hframe] at hstack
      rw [Machine.step_of_finish hstack]
      exact ⟨hc.analysis, rfl, rfl⟩
    | @note i s rest b dispatched unresolved =>
      have hdispatch := h.dispatch (fun x _ => hf.symbol x) dispatched unresolved
      rw [← hc.analysis] at hdispatch
      rw [hf.frame_cons] at hstack
      rw [Machine.step_of_proceed hstack hdispatch]
      exact ⟨rfl, rfl, rfl⟩
    | @enter i g c rest j resolved new =>
      have hresolved : m'.analysis.lookup (T.place i) (f g) = some (T.place j) := by
        rw [hc.analysis, h.lookup (hf.callable g), resolved]
        rfl
      have hnew : (m'.analysis.scope (T.place j)).entered = false := by
        rw [hc.analysis, h.scope]
        exact new
      rw [hf.frame_cons] at hstack
      rw [Machine.step_of_new hstack hresolved hnew, hc.analysis]
      refine ⟨(h.enter_of_renames hf _ j).symm, ?_, rfl⟩
      rw [h.start_frame]
      rfl
    | @complete _ j c completes =>
      have hcompletes : (T.frame g).completes? m'.analysis = some (T.place j, c) := by
        rw [hc.analysis, h.completes_frame hf, completes]
        rfl
      have hcompleted : (F m.analysis).completed (T.frame g).scope (T.place j) c =
          F (m.analysis.completed g.scope j c) := (h.completed hv.nested g.scope j c).symm
      have hrecursive : (F (m.analysis.completed g.scope j c)).isRecursive (T.frame g).scope =
          (m.analysis.completed g.scope j c).isRecursive g.scope := h.isRecursive _ g.scope
      rw [Machine.step_of_completes hv' hstack hcompletes, hc.analysis, hf.resumed_frame,
        hcompleted, hrecursive]
      refine ⟨rfl, ?_, rfl⟩
      dsimp only
      split
      · rfl
      · rfl
    | @fail i s rest failure outside =>
      rw [Machine.step_of_fail hs (Analysis.dispatch_of_outside outside)] at hstep
      rw [hf.frame_cons] at hstack
      rw [← hstep, Machine.step_of_fail hstack (Analysis.dispatch_rename_of_outside outside f),
        hc.analysis, h.scope]
      exact ⟨rfl, rfl, congrArg some (htold s _)⟩

theorem Carries.after {m m' : Machine} (hc : T.Carries F told m m') (hv : m.Valid)
    (hv' : m'.Valid) (n : Nat) : T.Carries F told (m.after n) (m'.after n) := by
  induction n with
  | zero => exact hc
  | succ n ih =>
    rw [Machine.after_succ, Machine.after_succ]
    exact ih.step h hf htold (hv.after n) (hv'.after n)

variable (told)

theorem Respects.carries_after {a : Analysis} (hn : a.WellNested) (hn' : (F a).WellNested)
    (body : List Stmt) (n : Nat) :
    T.Carries F told ((a.opening body).after n) (((F a).opening (T.text body)).after n) := by
  have hopening : T.Carries F told (a.opening body) ((F a).opening (T.text body)) := by
    unfold Analysis.opening Analysis.start
    rw [h.size, ← h.addRoot]
    refine ⟨(h.enter_of_renames hf _ _).symm, ?_, rfl⟩
    rw [h.start_frame]
    rfl
  exact hopening.after h hf htold (hn.opening body) (hn'.opening _) n

/-- What is seen of a check is the check of what is seen. -/
theorem Respects.check {a : Analysis} (hn : a.WellNested) (hn' : (F a).WellNested)
    (body : List Stmt) : ((F a).check (T.text body)).1 = F (a.check body).1 ∧
      ((F a).check (T.text body)).2.map told = (a.check body).2.map told := by
  obtain ⟨n, _, hend⟩ := (a.opening body).exists_run_eq
  have hc := h.carries_after told hf htold hn hn' body n
  have hend' : (((F a).opening (T.text body)).after n).stack = [] := by
    rw [hc.stack, hend]
    rfl
  have hknown := ((hn.opening body).after n).nested.entries_known a.scopes.size
  have hknown' := ((hn'.opening (T.text body)).after n).nested.entries_known (F a).scopes.size
  rw [Analysis.check_eq_of_stack_nil hend, Analysis.check_eq_of_stack_nil hend']
  cases hok : ((a.opening body).after n).failure with
  | some failure =>
    have hfailure := hc.failure
    rw [hok] at hfailure
    obtain ⟨failure', hok', htells⟩ := Option.map_eq_some_iff.1 hfailure
    rw [hok']
    exact ⟨hc.analysis, congrArg some htells⟩
  | none =>
    have hfailure := hc.failure
    rw [hok, Option.map_none, Option.map_eq_none_iff] at hfailure
    rw [hfailure]
    dsimp only
    rw [Analysis.sweep_eq_none _ _ hknown, Analysis.sweep_eq_none _ _ hknown', hc.analysis, h.size,
      h.scope, h.sweep _ _ hknown]
    exact ⟨rfl, rfl⟩

end

end Translation

end DefiniteAssignment
