import DefiniteAssignment.Program.Benchmark
import DefiniteAssignment.Proofs.Descent
import DefiniteAssignment.Proofs.Language

/-! Generated programs have no problems, whatever their size. The state of the walk is
known at every reader: those before it have been read, those after it are registered
and wait. -/
namespace DefiniteAssignment

namespace Analysis

/-- The arena holds these scopes, and nothing has been reported. -/
structure Shows (n entered : Nat) (scopes : Nat → Scope) (a : Analysis) : Prop where
  size : a.scopes.size = n
  problems : a.problems = {}
  count : a.count = entered
  scope : ∀ i < n, a.scope i = scopes i

namespace Shows

variable {n entered : Nat} {scopes : Nat → Scope} {a : Analysis}

theorem update (h : Shows n entered scopes a) {i : Nat} (hi : i < n) (f : Scope → Scope) :
    Shows n entered (Function.update scopes i (f (scopes i))) (a.update i f) where
  size := by rw [size_update, h.size]
  problems := h.problems
  count := h.count
  scope j hj := by
    rw [scope_update, h.size, Function.update_apply]
    by_cases hji : j = i
    · rw [if_pos ⟨hji, hi⟩, if_pos hji, h.scope i hi]
    · rw [if_neg fun hj' => hji hj'.1, if_neg hji, h.scope j hj]

theorem marked (h : Shows n entered scopes a) {i : Nat} (hi : i < n) :
    Shows n (entered + 1) (Function.update scopes i { scopes i with entered := true })
      (a.marked i) :=
  { h.update hi fun s => { s with entered := true } with count := congrArg (· + 1) h.count }

theorem setContract (h : Shows n entered scopes a) {i : Nat} (hi : i < n) (x : String)
    (c : Contract) :
    Shows n entered
      (Function.update scopes i { scopes i with contracts := (scopes i).contracts.insert x c })
      (a.setContract i x c) :=
  h.update hi fun s => { s with contracts := s.contracts.insert x c }

end Shows

theorem view_of_enclosing_nil {a : Analysis} {i : Nat} (h : (a.scope i).enclosing = []) (x : String) :
    a.view i x =
      ⟨((a.scope i).functions.get? x).isSome, (a.scope i).contracts.get? x, false⟩ := by
  simp [view, isFunction, lookup, contracts, h, ContractMap.get?, ContractMap.boundAround]

end Analysis

namespace Machine

variable {a b : Analysis} {i j : Nat} {rest : List Stmt} {below : List Frame}

theorem run_of_step {m m' : Machine} (h : m.step = m') : m.run = m'.run := by
  rw [← h, run_step]

theorem run_of_proceed {s : Stmt} (h : a.dispatch i s = (b, .proceed)) :
    run ⟨a, ⟨i, s :: rest, none⟩ :: below, none⟩ = run ⟨b, ⟨i, rest, none⟩ :: below, none⟩ :=
  run_of_step (step_of_proceed rfl h)

theorem run_of_return {c : Bool} (h : a.complete i j c = (b, .proceed)) :
    run ⟨a, ⟨i, rest, some (j, c)⟩ :: below, none⟩ = run ⟨b, ⟨i, rest, none⟩ :: below, none⟩ := by
  apply run_of_step
  simp only [step, Frame.advance, h, follow]

theorem run_of_finish :
    run ⟨a, ⟨i, [], none⟩ :: below, none⟩ = run ⟨a, below, none⟩ :=
  run_of_step (step_of_finish rfl)

end Machine

namespace Program

def readerName (i : Nat) : String := s!"Bar{i}"

theorem readerName_inj {i j : Nat} : readerName i = readerName j ↔ i = j := by
  refine ⟨fun h => ?_, fun h => h ▸ rfl⟩
  have hdigits : Nat.toDigits 10 i = Nat.toDigits 10 j := by
    simpa [readerName, ← String.toList_inj] using h
  have hvalue := congrArg (fun digits => Nat.ofDigitChars 10 digits 0) hdigits
  rwa [Nat.ofDigitChars_toDigits (by decide) (by decide),
    Nat.ofDigitChars_toDigits (by decide) (by decide)] at hvalue

theorem readerName_ne_foo (i : Nat) : "foo" ≠ readerName i := by
  intro h
  have hchars : "foo".toList = "Bar".toList ++ (Nat.repr i).toList := by
    rw [h, readerName, String.toList_append]
    rfl
  exact absurd hchars (by simp)

def places : Nat → Table Nat
  | 0 => {}
  | n + 1 => (places n).insert (readerName n) (n + 1)

theorem get?_places_of_lt {i n : Nat} (h : i < n) : (places n).get? (readerName i) = some (i + 1) := by
  induction n with
  | zero => exact absurd h (Nat.not_lt_zero i)
  | succ n ih =>
    rw [places, Table.get?_insert]
    by_cases hi : i = n
    · rw [if_pos (congrArg readerName hi), hi]
    · rw [if_neg (mt readerName_inj.1 hi), ih (by omega)]

theorem get?_places_of_ne {x : String} {n : Nat} (h : ∀ i < n, x ≠ readerName i) :
    (places n).get? x = none := by
  induction n with
  | zero => rfl
  | succ n ih =>
    rw [places, Table.get?_insert, if_neg (h n (Nat.lt_succ_self n))]
    exact ih fun i hi => h i (Nat.lt_succ_of_lt hi)

/-! ### The arena at each moment -/

def outermost (n registered called : Nat) (contracts : Table Contract) : Scope where
  name := Scope.rootName
  body := (benchmark n).body
  contracts := contracts
  functions := places registered
  entered := true
  always := List.range' 1 called

def waiting (i : Nat) : Scope where
  name := readerName i
  body := [.print "foo"]
  enclosing := [0]

def called (i : Nat) : Scope :=
  { waiting i with contracts := ⟨[("foo", .external)]⟩, entered := true }

def arena (root : Scope) (k : Nat) : Nat → Scope
  | 0 => root
  | i + 1 => if i < k then called i else waiting i

theorem update_arena_zero (root root' : Scope) (k : Nat) :
    Function.update (arena root k) 0 root' = arena root' k := by
  funext i
  cases i with
  | zero => rfl
  | succ i => rfl

theorem update_arena_succ (root : Scope) (k : Nat) :
    Function.update (arena root k) (k + 1) (called k) = arena root (k + 1) := by
  funext i
  cases i with
  | zero => rfl
  | succ i =>
    rw [Function.update_apply]
    simp only [arena, Nat.add_right_cancel_iff]
    by_cases hik : i = k
    · rw [if_pos hik, if_pos (by omega), hik]
    · rw [if_neg hik]
      by_cases hlt : i < k
      · rw [if_pos hlt, if_pos (by omega)]
      · rw [if_neg hlt, if_neg (by omega)]

/-! ### Registration -/

variable {a : Analysis} {n m k : Nat} {contracts : Table Contract}

theorem shows_registerOne (h : a.Shows (m + 1) 1 (arena (outermost n m 0 {}) 0)) :
    (a.registerOne 0 (readerName m) [.print "foo"]).Shows (m + 2) 1
      (arena (outermost n (m + 1) 0 {}) 0) := by
  have hroot : a.scope 0 = outermost n m 0 {} := h.scope 0 (Nat.succ_pos m)
  have hfree : a.isTaken 0 (readerName m) = false := by
    have hnone : (places m).get? (readerName m) = none :=
      get?_places_of_ne fun i hi hname => by
        rw [readerName_inj] at hname
        omega
    simp [Analysis.isTaken, Analysis.isFunction, Analysis.lookup, Analysis.contracts, hroot,
      outermost, hnone, ContractMap.declaredAround]
  rw [Analysis.registerOne, hfree]
  constructor
  · simp [Analysis.setFunction, Analysis.addFunction, h.size]
  · exact h.problems
  · exact h.count
  · intro j hj
    dsimp only [Bool.false_eq_true, if_false]
    rw [if_neg Bool.false_ne_true, Analysis.scope_registered (by rw [h.size]; omega), h.size, hroot]
    cases j with
    | zero => rfl
    | succ j =>
      rw [if_neg (Nat.succ_ne_zero j)]
      by_cases hjm : j = m
      · rw [if_pos (by omega), hjm]
        rfl
      · rw [if_neg (by omega), h.scope _ (by omega)]
        rfl

theorem shows_register (h : a.Shows 1 1 (arena (outermost n 0 0 {}) 0)) (m : Nat) :
    (a.register 0 ((List.range m).map fun i => (readerName i, [.print "foo"]))).Shows (m + 1) 1
      (arena (outermost n m 0 {}) 0) := by
  induction m with
  | zero => exact h
  | succ m ih =>
    have hlast := shows_registerOne ih
    simp only [Analysis.register, List.range_succ, List.map_append, List.foldl_append] at hlast ⊢
    exact hlast

theorem functions_benchmark (n : Nat) : (benchmark n).body.filterMap Stmt.function? =
    (List.range n).map fun i => (readerName i, [.print "foo"]) := by
  have hreaders : ∀ l : List Nat, (l.flatMap reader).filterMap Stmt.function? =
      l.map fun i => (readerName i, [.print "foo"]) := by
    intro l
    induction l with
    | nil => rfl
    | cons i l ih =>
      rw [List.flatMap_cons, List.filterMap_append, ih]
      rfl
  exact hreaders (List.range n)

theorem shows_opening (n : Nat) : ((benchmark n).opening.analysis).Shows (n + 1) 1
    (arena (outermost n n 0 {}) 0) := by
  have hroot : (({} : Analysis).addRoot (benchmark n).body).Shows 1 0
      (arena { outermost n 0 0 {} with entered := false } 0) := by
    refine ⟨rfl, rfl, rfl, fun i hi => ?_⟩
    obtain rfl : i = 0 := by omega
    rfl
  have hmarked := hroot.marked Nat.zero_lt_one
  rw [update_arena_zero] at hmarked
  have hregister := shows_register hmarked n
  rw [← functions_benchmark] at hregister
  exact hregister

/-! ### The walk -/

theorem get?_foo_places (n : Nat) : (places n).get? "foo" = none :=
  get?_places_of_ne fun i _ => readerName_ne_foo i

theorem view_foo (h : a.scope 0 = outermost n m k contracts) :
    a.view 0 "foo" = ⟨false, contracts.get? "foo", false⟩ := by
  have hnil : (a.scope 0).enclosing = [] := by rw [h, outermost]
  rw [Analysis.view_of_enclosing_nil hnil, h]
  simp only [outermost, get?_foo_places, Option.isSome_none]

theorem shows_declareVariable (h : a.Shows (n + 1) 1 (arena (outermost n n 0 {}) 0)) :
    (a.declareVariable 0 "foo").Shows (n + 1) 1
      (arena (outermost n n 0 ⟨[("foo", .inner)]⟩) 0) := by
  have hroot : a.scope 0 = outermost n n 0 {} := h.scope 0 (Nat.succ_pos n)
  have hset := h.setContract (Nat.succ_pos n) "foo" .inner
  rw [update_arena_zero] at hset
  have haround : (a.contracts 0).declaredAround "foo" = false := by
    simp [Analysis.contracts, ContractMap.declaredAround, hroot, outermost]
  rw [Analysis.declareVariable, view_foo hroot]
  simp only [haround, Table.get?_empty, Bool.false_eq_true, if_false]
  exact hset

theorem dispatch_assign (h : a.scope 0 = outermost n m k contracts) :
    a.dispatch 0 (.assign "foo") = (a.use 0 .assigned "foo", .proceed) := by
  have hvariable : a.isFunction 0 "foo" = false := congrArg View.isFunction (view_foo h)
  simp only [Analysis.dispatch, hvariable, Bool.false_eq_true, if_false]

theorem shows_assign (h : a.Shows (n + 1) 1 (arena (outermost n n 0 ⟨[("foo", .inner)]⟩) 0)) :
    (a.use 0 .assigned "foo").Shows (n + 1) 1
      (arena (outermost n n 0 ⟨[("foo", .innerAssigned)]⟩) 0) := by
  have hset := h.setContract (Nat.succ_pos n) "foo" .innerAssigned
  rw [update_arena_zero] at hset
  rw [Analysis.use, view_foo (h.scope 0 (Nat.succ_pos n))]
  exact hset

theorem shows_read {root : Scope} (hroot : root.functions.get? "foo" = none)
    (hbound : root.contracts.contains "foo") {entered : Nat} (hk : k < n)
    (h : a.Shows (n + 1) entered
      (Function.update (arena root k) (k + 1) { waiting k with entered := true })) :
    (a.use (k + 1) .read "foo").Shows (n + 1) entered (arena root (k + 1)) := by
  have hset := h.setContract (Nat.succ_lt_succ hk) "foo" .external
  rw [Function.update_self, Function.update_idem] at hset
  have hown : a.scope (k + 1) = { waiting k with entered := true } := by
    rw [h.scope _ (Nat.succ_lt_succ hk), Function.update_self]
  have houter : a.scope 0 = root := h.scope 0 (Nat.succ_pos n)
  have hview : a.view (k + 1) "foo" = ⟨false, none, true⟩ := by
    simp [Analysis.view, Analysis.isFunction, Analysis.lookup, Analysis.contracts, hown, waiting, houter,
      hroot, hbound, ContractMap.get?, ContractMap.boundAround]
  rw [Analysis.use, hview, ← update_arena_succ]
  exact hset

def settled : Table Contract := ⟨[("foo", .innerAssigned)]⟩

theorem passThrough_outermost (n m k : Nat) (contracts : Table Contract) :
    (outermost n m k contracts).passThrough (k + 1) [] = outermost n m (k + 1) contracts := by
  have hnot : (List.range' 1 k).contains (k + 1) = false := by
    simp only [List.contains_eq_mem, List.mem_range'_1, decide_eq_false_iff_not]
    omega
  simp only [Scope.passThrough, outermost, union, List.filter_cons, hnot, Bool.not_false, if_true,
    List.filter_nil, List.append_nil, List.range'_1_concat, Nat.add_comm 1 k]

theorem recordCall_reader {entered : Nat} (hk : k < n)
    (h : a.Shows (n + 1) entered (arena (outermost n n k settled) (k + 1))) :
    ∃ b, a.recordCall 0 (k + 1) = (b, none) ∧
      b.Shows (n + 1) entered (arena (outermost n n (k + 1) settled) (k + 1)) := by
  have hlt : k + 1 < n + 1 := Nat.succ_lt_succ hk
  have hcalled : ∀ root, arena root (k + 1) (k + 1) = called k := fun root => if_pos (Nat.lt_succ_self k)
  have hreach : (a.scope (k + 1)).always = [] := by
    rw [h.scope _ hlt, hcalled]
    rfl
  have hpass := h.update (Nat.succ_pos n) (·.passThrough (k + 1) [])
  rw [arena, passThrough_outermost, update_arena_zero] at hpass
  refine ⟨_, ?_, hpass⟩
  have hzero : 0 ∉ ((a.update 0 (·.passThrough (k + 1) [])).scope 0).always := by
    rw [hpass.scope 0 (Nat.succ_pos n)]
    simp [arena, outermost]
  have hreturns : (a.update 0 (·.passThrough (k + 1) [])).isRecursive (k + 1) = false := by
    rw [Analysis.isRecursive, hpass.scope _ hlt, hcalled]
    rfl
  dsimp only [Analysis.recordCall]
  rw [hreach, if_neg (by simp [hzero]), if_neg (by simp [hreturns]), if_pos (by simp [h.size, hk])]

theorem complete_reader {entered : Nat} (hk : k < n)
    (h : a.Shows (n + 1) entered (arena (outermost n n k settled) (k + 1))) :
    ∃ b, a.complete 0 (k + 1) false = (b, .proceed) ∧
      b.Shows (n + 1) entered (arena (outermost n n (k + 1) settled) (k + 1)) := by
  obtain ⟨b, hrecord, hb⟩ := recordCall_reader hk h
  refine ⟨b, ?_, hb⟩
  have hcallee : a.scope (k + 1) = called k := by
    rw [h.scope _ (Nat.succ_lt_succ hk), arena, if_pos (Nat.lt_succ_self k)]
  have hread : a.use 0 .read "foo" = a := by
    rw [Analysis.use, view_foo (h.scope 0 (Nat.succ_pos n))]
    rfl
  have hreturns : b.isRecursive 0 = false := by
    rw [Analysis.isRecursive, hb.scope 0 (Nat.succ_pos n)]
    rfl
  have hpropagate : a.propagate 0 (readerName k) false [("foo", .external)] = (a, none) := by
    simp only [Analysis.propagate, Contract.demand, hread]
  have hinvoke : a.invoke 0 (k + 1) false = (b, none) := by
    simp only [Analysis.invoke, hcallee, called, waiting, hpropagate, hrecord, Bool.false_eq_true,
      if_false]
  rw [Analysis.complete, hinvoke]
  simp only [hreturns, Bool.false_eq_true, if_false]

theorem enter_reader (h : a.scope (k + 1) = waiting k) : a.enter (k + 1) = a.marked (k + 1) := by
  rw [Analysis.enter_eq, h]
  rfl

/-- The walk over one reader: its declaration, its call, its body and the return. -/
theorem run_reader (hk : k < n) (h : a.Shows (n + 1) (k + 1) (arena (outermost n n k settled) k))
    (rest : List Stmt) :
    ∃ b : Analysis, b.Shows (n + 1) (k + 2) (arena (outermost n n (k + 1) settled) (k + 1)) ∧
      Machine.run ⟨a, [⟨0, reader k ++ rest, none⟩], none⟩ = Machine.run ⟨b, [⟨0, rest, none⟩], none⟩ := by
  have hlt : k + 1 < n + 1 := Nat.succ_lt_succ hk
  have hwaiting : a.scope (k + 1) = waiting k := by
    rw [h.scope _ hlt, arena, if_neg (Nat.lt_irrefl k)]
  have hlookup : a.lookup 0 (readerName k) = some (k + 1) := by
    simp [Analysis.lookup, h.scope 0 (Nat.succ_pos n), arena, outermost, get?_places_of_lt hk]
  -- A reader declares no functions, so to enter it is only to mark it.
  have hmarked := h.marked hlt
  rw [← h.scope _ hlt, hwaiting] at hmarked
  have hread := shows_read (get?_foo_places n) rfl hk hmarked
  obtain ⟨b, hcomplete, hb⟩ := complete_reader hk hread
  refine ⟨b, hb, ?_⟩
  have hnew : (a.scope (k + 1)).entered = false := by
    rw [hwaiting]
    rfl
  have hstart : Frame.start a (k + 1) = ⟨k + 1, [.print "foo"], none⟩ := by
    rw [Frame.start, hwaiting]
    rfl
  have hcall : Machine.run ⟨a, [⟨0, .call (readerName k) false :: rest, none⟩], none⟩ =
      Machine.run ⟨a.marked (k + 1),
        [⟨k + 1, [.print "foo"], none⟩, ⟨0, rest, some (k + 1, false)⟩], none⟩ := by
    rw [← hstart, ← enter_reader hwaiting]
    exact Machine.run_of_step (Machine.step_of_new rfl hlookup hnew)
  calc Machine.run ⟨a, [⟨0, reader k ++ rest, none⟩], none⟩
    _ = Machine.run ⟨a, [⟨0, .call (readerName k) false :: rest, none⟩], none⟩ :=
      Machine.run_of_proceed (Prod.ext rfl rfl)
    _ = _ := hcall
    _ = Machine.run ⟨(a.marked (k + 1)).use (k + 1) .read "foo",
        [⟨k + 1, [], none⟩, ⟨0, rest, some (k + 1, false)⟩], none⟩ :=
      Machine.run_of_proceed (Prod.ext rfl rfl)
    _ = Machine.run ⟨(a.marked (k + 1)).use (k + 1) .read "foo",
        [⟨0, rest, some (k + 1, false)⟩], none⟩ := Machine.run_of_finish
    _ = Machine.run ⟨b, [⟨0, rest, none⟩], none⟩ := Machine.run_of_return hcomplete

theorem run_readers (d : Nat) (hd : k + d = n)
    (h : a.Shows (n + 1) (k + 1) (arena (outermost n n k settled) k)) :
    ∃ b : Analysis, b.Shows (n + 1) (n + 1) (arena (outermost n n n settled) n) ∧
      Machine.run ⟨a, [⟨0, (List.range' k d).flatMap reader, none⟩], none⟩ = ⟨b, [], none⟩ := by
  induction d generalizing k a with
  | zero =>
    obtain rfl : k = n := hd
    refine ⟨a, h, ?_⟩
    exact Machine.run_of_finish.trans (Machine.run_of_stack_nil rfl)
  | succ d ih =>
    rw [List.range'_succ, List.flatMap_cons]
    obtain ⟨b, hb, hrun⟩ := run_reader (by omega) h ((List.range' (k + 1) d).flatMap reader)
    rw [hrun]
    exact ih (by omega) hb

theorem run_body (h : a.Shows (n + 1) 1 (arena (outermost n n 0 {}) 0)) :
    ∃ b : Analysis, b.Shows (n + 1) (n + 1) (arena (outermost n n n settled) n) ∧
      Machine.run ⟨a, [⟨0, (benchmark n).body, none⟩], none⟩ = ⟨b, [], none⟩ := by
  have hdeclare := shows_declareVariable h
  have hassign := shows_assign hdeclare
  obtain ⟨b, hb, hrun⟩ := run_readers n (Nat.zero_add n) hassign
  refine ⟨b, hb, ?_⟩
  calc Machine.run ⟨a, [⟨0, (benchmark n).body, none⟩], none⟩
    _ = Machine.run ⟨a.declareVariable 0 "foo",
        [⟨0, .assign "foo" :: (List.range n).flatMap reader, none⟩], none⟩ :=
      Machine.run_of_proceed (Prod.ext rfl rfl)
    _ = Machine.run ⟨(a.declareVariable 0 "foo").use 0 .assigned "foo",
        [⟨0, (List.range n).flatMap reader, none⟩], none⟩ :=
      Machine.run_of_proceed (dispatch_assign (hdeclare.scope 0 (Nat.succ_pos n)))
    _ = ⟨b, [], none⟩ := by rw [List.range_eq_range', hrun]

/-- A generated program has no problems. Every scope is entered and returns, the
outermost one passes through all readers, and each reader takes the variable from
outside. -/
theorem check_benchmark (n : Nat) :
    ∃ a, ({} : Analysis).check (benchmark n).body = (a, none) ∧ a.problems.toList = [] ∧
      a.scopes.size = n + 1 ∧ a.count = n + 1 ∧
      (∀ i < n + 1, (a.scope i).entered = true ∧ (a.scope i).recursive = false) ∧
      (a.scope 0).always = List.range' 1 n ∧
      (a.scope 0).contracts.get? "foo" = some .innerAssigned ∧
      ∀ i, 1 ≤ i → i ≤ n → (a.scope i).contracts.get? "foo" = some .external := by
  obtain ⟨a, ha, hrun⟩ := run_body (shows_opening n)
  have hroot : a.scope 0 = outermost n n n settled := ha.scope 0 (Nat.succ_pos n)
  have hreader : ∀ i < n, a.scope (i + 1) = called i := fun i hi => by
    rw [ha.scope _ (Nat.succ_lt_succ hi), arena, if_pos hi]
  have hcheck : ({} : Analysis).check (benchmark n).body = (a, none) := by
    have hopening : (({} : Analysis).opening (benchmark n).body).run = ⟨a, [], none⟩ := hrun
    have hsize : ({} : Analysis).scopes.size = 0 := rfl
    rw [Analysis.check_eq, hopening]
    simp only [hsize, hroot]
    rfl
  refine ⟨a, hcheck, ?_, ha.size, ha.count, ?_, ?_, ?_, ?_⟩
  · rw [ha.problems]
  · intro i hi
    cases i with
    | zero =>
      rw [hroot]
      exact ⟨rfl, rfl⟩
    | succ i =>
      rw [hreader i (by omega)]
      exact ⟨rfl, rfl⟩
  · rw [hroot]
    rfl
  · rw [hroot]
    rfl
  · intro i hpos hi
    obtain ⟨i, rfl⟩ := Nat.exists_eq_succ_of_ne_zero (Nat.ne_of_gt hpos)
    rw [hreader i hi]
    rfl

end Program

end DefiniteAssignment
