import DefiniteAssignment.Proofs.Language
import DefiniteAssignment.Proofs.Progress

/-! Where the scopes of an arena come from. A function declaration is named by
its place among the declarations of the body around it, and so on outwards;
entering a scope places at most one scope for each declaration in its body. -/
namespace DefiniteAssignment

namespace Analysis

def registering (a : Analysis) (i k : Nat) : Analysis :=
  (a.marked i).register i (((a.scope i).body.filterMap Stmt.function?).take k)

def Places (a : Analysis) (i k j : Nat) : Prop :=
  (a.registering i k).scopes.size ≤ j ∧ j < (a.registering i (k + 1)).scopes.size

section

variable {a : Analysis} {i : Nat}

theorem register_append (i : Nat) (l l' : List (String × List Stmt)) (a : Analysis) :
    a.register i (l ++ l') = (a.register i l).register i l' :=
  List.foldl_append

theorem registering_succ (a : Analysis) (i k : Nat) :
    a.registering i (k + 1) =
      match ((a.scope i).body.filterMap Stmt.function?)[k]? with
      | some (f, body) => (a.registering i k).registerOne i f body
      | none => a.registering i k := by
  unfold registering
  rw [List.take_add_one, register_append]
  cases ((a.scope i).body.filterMap Stmt.function?)[k]? with
  | none => rfl
  | some e => rfl

theorem size_registerOne (a : Analysis) (i : Nat) (f : String) (body : List Stmt) :
    (a.registerOne i f body).scopes.size =
      if a.isTaken i f then a.scopes.size else a.scopes.size + 1 := by
  unfold registerOne
  split
  · rfl
  · simp [setFunction, addFunction]

theorem size_registering_succ (a : Analysis) (i k : Nat) :
    (a.registering i k).scopes.size ≤ (a.registering i (k + 1)).scopes.size ∧
      (a.registering i (k + 1)).scopes.size ≤ (a.registering i k).scopes.size + 1 := by
  rw [registering_succ]
  split
  · rw [size_registerOne]
    split
    · omega
    · omega
  · omega

theorem size_registering_mono (a : Analysis) (i : Nat) {k l : Nat} (h : k ≤ l) :
    (a.registering i k).scopes.size ≤ (a.registering i l).scopes.size := by
  induction h with
  | refl => exact Nat.le_refl _
  | step _ ih => exact Nat.le_trans ih (size_registering_succ a i _).1

theorem registering_length (a : Analysis) (i : Nat) :
    a.registering i ((a.scope i).body.filterMap Stmt.function?).length = a.enter i := by
  rw [registering, List.take_length, enter_eq]

theorem size_registering_zero (a : Analysis) (i : Nat) :
    (a.registering i 0).scopes.size = a.scopes.size :=
  size_marked a i

theorem Places.unique {k j j' : Nat} (h : a.Places i k j) (h' : a.Places i k j') : j = j' := by
  have hsize := (size_registering_succ a i k).2
  unfold Places at h h'
  omega

theorem Places.unique_declaration {k k' j : Nat} (h : a.Places i k j) (h' : a.Places i k' j) :
    k = k' := by
  unfold Places at h h'
  rcases Nat.lt_trichotomy k k' with hlt | heq | hlt
  · have : (a.registering i (k + 1)).scopes.size ≤ (a.registering i k').scopes.size :=
      size_registering_mono a i hlt
    omega
  · exact heq
  · have : (a.registering i (k' + 1)).scopes.size ≤ (a.registering i k).scopes.size :=
      size_registering_mono a i hlt
    omega

theorem size_registering_le (a : Analysis) (i k : Nat) :
    (a.registering i k).scopes.size ≤ (a.enter i).scopes.size := by
  rcases Nat.le_total k ((a.scope i).body.filterMap Stmt.function?).length with hle | hle
  · rw [← registering_length]
    exact size_registering_mono a i hle
  · rw [registering, List.take_of_length_le hle, enter_eq]

theorem Places.lt {k j : Nat} (h : a.Places i k j) : j < (a.enter i).scopes.size :=
  Nat.lt_of_lt_of_le h.2 (size_registering_le a i (k + 1))

theorem Places.le {k j : Nat} (h : a.Places i k j) : a.scopes.size ≤ j := by
  have hmono := size_registering_mono a i (Nat.zero_le k)
  rw [size_registering_zero] at hmono
  exact Nat.le_trans hmono h.1

theorem exists_places {j : Nat} (hle : a.scopes.size ≤ j) (hlt : j < (a.enter i).scopes.size) :
    ∃ k, a.Places i k j := by
  have hreach : ∀ l, j < (a.registering i l).scopes.size → ∃ k, a.Places i k j := by
    intro l
    induction l with
    | zero =>
      intro hl
      rw [size_registering_zero] at hl
      omega
    | succ l ih =>
      intro hl
      by_cases hbefore : j < (a.registering i l).scopes.size
      · exact ih hbefore
      · exact ⟨l, Nat.le_of_not_lt hbefore, hl⟩
  apply hreach ((a.scope i).body.filterMap Stmt.function?).length
  rw [registering_length]
  exact hlt

theorem registers_registering (hi : i < a.scopes.size) (k : Nat) :
    Registers i ((a.scope i).body.filterMap Stmt.function?) (a.marked i) (a.registering i k) :=
  Registers.register _ _ (by simpa using hi) fun _ he => List.mem_of_mem_take he

theorem Places.scope_eq (hi : i < a.scopes.size) {k j : Nat} (h : a.Places i k j) :
    ∃ f body, ((a.scope i).body.filterMap Stmt.function?)[k]? = some (f, body) ∧
      (a.enter i).scope j = { name := f, body, enclosing := i :: (a.scope i).enclosing } := by
  have hregisters := registers_registering hi k
  have hsize := size_registering_succ a i k
  have hsucc := registering_succ a i k
  obtain ⟨hle, hlt⟩ := h
  obtain rfl : j = (a.registering i k).scopes.size := by omega
  cases hk : ((a.scope i).body.filterMap Stmt.function?)[k]? with
  | none =>
    rw [hk] at hsucc
    rw [hsucc] at hlt
    exact absurd hlt (Nat.lt_irrefl _)
  | some e =>
    obtain ⟨f, body⟩ := e
    rw [hk] at hsucc
    dsimp only at hsucc
    have hi' : i < (a.registering i k).scopes.size :=
      Nat.lt_of_lt_of_le (by simpa using hi) hregisters.size
    have hone : (a.registering i (k + 1)).scope (a.registering i k).scopes.size =
        { name := f, body, enclosing := i :: (a.scope i).enclosing } := by
      have hfree : (a.registering i k).isTaken i f = false := by
        rw [hsucc, size_registerOne] at hlt
        split at hlt
        · exact absurd hlt (Nat.lt_irrefl _)
        · rename_i hfree
          simpa using hfree
      obtain ⟨t, ht⟩ := hregisters.own
      rw [hsucc, registerOne, if_neg (by simp [hfree])]
      dsimp only
      rw [scope_registered hi' f body, if_neg (Nat.ne_of_gt hi'), if_pos rfl, ht,
        scope_marked a hi, if_pos rfl]
    refine ⟨f, body, rfl, ?_⟩
    -- What is registered after the declaration leaves its scope alone.
    have hrest : a.enter i = (a.registering i (k + 1)).register i
        (((a.scope i).body.filterMap Stmt.function?).drop (k + 1)) := by
      rw [enter_eq, registering, ← register_append, List.take_append_drop]
    have hafter : Registers i (((a.scope i).body.filterMap Stmt.function?).drop (k + 1))
        (a.registering i (k + 1)) ((a.registering i (k + 1)).register i
          (((a.scope i).body.filterMap Stmt.function?).drop (k + 1))) :=
      .register _ _ (by omega) fun _ he => he
    rw [hrest, hafter.other _ hlt (Nat.ne_of_gt hi'), hone]

end

end Analysis

namespace Program

/-- The body of the declaration at `path`, which lists the places of the
declaration and of those around it, the innermost first. -/
def bodyAt (p : Program) : List Nat → Option (List Stmt)
  | [] => some p.body
  | k :: path => (p.bodyAt path).bind fun body => (body.filterMap Stmt.function?)[k]?.map Prod.snd

inductive EntersAt (p : Program) : Nat → Analysis → Nat → Prop
  | root : EntersAt p 0 (({} : Analysis).addRoot p.body) 0
  | call {n i : Nat} : (p.opening.after n).enters? = some i →
      EntersAt p (n + 1) (p.opening.after n).analysis i

/-- The check of the program makes scope `i` for the declaration at `path`. -/
inductive Arises (p : Program) : List Nat → Nat → Prop
  | root : Arises p [] 0
  | function {path : List Nat} {n i k j : Nat} {a : Analysis} : Arises p path i →
      p.EntersAt n a i → a.Places i k j → Arises p (k :: path) j

variable {p : Program} {n k i j : Nat} {a b : Analysis} {path : List Nat}

theorem EntersAt.analysis_eq (h : p.EntersAt n a i) :
    (p.opening.after n).analysis = a.enter i := by
  cases h with
  | root => rfl
  | call h => rw [Machine.after_succ, Machine.analysis_of_enters h]

theorem EntersAt.new (h : p.EntersAt n a i) : (a.scope i).entered = false := by
  cases h with
  | root => exact Analysis.entered_root {} p.body
  | call h =>
    obtain ⟨_, _, _, _, _, _, _, new⟩ := Machine.enters?_cases h
    exact new

theorem EntersAt.lt_size (h : p.EntersAt n a i) : i < a.scopes.size := by
  cases h with
  | root => exact Analysis.root_lt_size {} p.body
  | call h =>
    obtain ⟨_, _, _, _, _, _, hj, _⟩ := Machine.enters?_cases h
    exact (p.valid_opening.after _).nested.lookup_lt hj

theorem EntersAt.entered (h : p.EntersAt n a i) :
    ((p.opening.after n).analysis.scope i).entered := by
  obtain ⟨t, ht⟩ := (Analysis.Enters.enter a h.lt_size).own
  rw [h.analysis_eq, ht]

theorem EntersAt.le (h : p.EntersAt n a i) (h' : p.EntersAt k b i) : k ≤ n := by
  cases h' with
  | root => exact Nat.zero_le n
  | @call k _ h' =>
    -- A scope entered by moment `k` is not entered again.
    refine Nat.lt_of_not_le fun hle => ?_
    have hentered := (p.valid_opening.extends_after hle).entered h.entered
    simp [(EntersAt.call h').new] at hentered

theorem EntersAt.unique (h : p.EntersAt n a i) (h' : p.EntersAt k b i) : n = k ∧ a = b := by
  obtain rfl : n = k := Nat.le_antisymm (h'.le h) (h.le h')
  refine ⟨rfl, ?_⟩
  cases h with
  | root =>
    cases h'
    rfl
  | call _ =>
    cases h'
    rfl

theorem Arises.unique (h : p.Arises path i) (h' : p.Arises path j) : i = j := by
  induction h generalizing j with
  | root =>
    cases h'
    rfl
  | function _ hat hplaces ih =>
    cases h' with
    | function harises hat' hplaces' =>
      obtain rfl := ih harises
      obtain ⟨_, rfl⟩ := hat.unique hat'
      exact hplaces.unique hplaces'

theorem Arises.parent_eq (hat : p.EntersAt n a i) (hplaces : a.Places i k j) :
    (p.checked.scope j).parent? = some i := by
  obtain ⟨f, body, _, hscope⟩ := hplaces.scope_eq hat.lt_size
  have hj : j < (p.opening.after n).analysis.scopes.size := by
    rw [hat.analysis_eq]
    exact hplaces.lt
  rw [Scope.parent?, ((p.extends_checked n).scope j hj).enclosing, hat.analysis_eq, hscope]
  rfl

theorem Arises.unique_path {path' : List Nat} (h : p.Arises path i) (h' : p.Arises path' i) :
    path = path' := by
  induction h generalizing path' with
  | root =>
    cases h' with
    | root => rfl
    | function _ hat hplaces =>
      have := hat.lt_size
      have := hplaces.le
      omega
  | function _ hat hplaces ih =>
    cases h' with
    | root =>
      have := hat.lt_size
      have := hplaces.le
      omega
    | function harises hat' hplaces' =>
      -- Both declarations stand in the scope around the one they are made for.
      have hparent := (Arises.parent_eq hat hplaces).symm.trans (Arises.parent_eq hat' hplaces')
      rw [Option.some_inj] at hparent
      subst hparent
      obtain ⟨_, rfl⟩ := hat.unique hat'
      rw [ih harises, hplaces.unique_declaration hplaces']

def Accounted (p : Program) (a : Analysis) : Prop :=
  ∀ i < a.scopes.size, ∃ path, p.Arises path i ∧ p.bodyAt path = some (a.scope i).body

theorem Accounted.enter (h : p.Accounted a) (hat : p.EntersAt n a i) :
    p.Accounted (a.enter i) := by
  have henters := Analysis.Enters.enter a hat.lt_size
  intro j hj
  by_cases hold : j < a.scopes.size
  · rw [((henters.extends hat.new).scope j hold).body]
    exact h j hold
  · obtain ⟨k, hplaces⟩ := Analysis.exists_places (Nat.le_of_not_lt hold) hj
    obtain ⟨f, body, hk, hscope⟩ := hplaces.scope_eq hat.lt_size
    obtain ⟨path, harises, hbody⟩ := h i hat.lt_size
    refine ⟨k :: path, .function harises hat hplaces, ?_⟩
    rw [bodyAt, hbody, Option.bind_some, hk, hscope]
    rfl

theorem accounted_after (p : Program) (n : Nat) : p.Accounted (p.opening.after n).analysis := by
  induction n with
  | zero =>
    refine Accounted.enter (fun i hi => ?_) .root
    obtain rfl : i = 0 := by simpa [Analysis.addRoot] using hi
    exact ⟨[], .root, by rw [Analysis.scope_addRoot]; rfl⟩
  | succ n ih =>
    rw [Machine.after_succ]
    rcases (p.valid_opening.after n).enters_or_within with ⟨j, hj⟩ | ⟨i, hwithin⟩
    · rw [Machine.analysis_of_enters hj]
      exact ih.enter (.call hj)
    · intro j hj
      rw [hwithin.body]
      exact ih j (hwithin.size ▸ hj)

theorem Arises.lt_size (h : p.Arises path i) : i < p.checked.scopes.size := by
  cases h with
  | root =>
    have hroot : p.EntersAt 0 (({} : Analysis).addRoot p.body) 0 := .root
    exact Analysis.lt_size_of_entered ((p.extends_checked 0).entered hroot.entered)
  | @function _ n i k _ a _ hat hplaces =>
    have hsize := (p.extends_checked n).size
    rw [hat.analysis_eq] at hsize
    exact Nat.lt_of_lt_of_le hplaces.lt hsize

theorem accounted_checked (p : Program) : p.Accounted p.checked := by
  obtain ⟨last, _, hend⟩ := p.opening.exists_run_eq
  obtain ⟨problems, hchecked, _⟩ := checked_eq hend
  rw [hchecked]
  exact p.accounted_after last

theorem Arises.bodyAt_eq (h : p.Arises path i) :
    p.bodyAt path = some (p.checked.scope i).body := by
  obtain ⟨path', harises, hbody⟩ := p.accounted_checked i h.lt_size
  rw [h.unique_path harises]
  exact hbody

theorem counted_checked (p : Program) :
    p.checked.Counted (1 + Stmt.bodyFunctionCount p.body) := by
  obtain ⟨last, _, hend⟩ := p.opening.exists_run_eq
  obtain ⟨problems, hchecked, _⟩ := checked_eq hend
  have hcounted := Machine.counted_after p.valid_opening (Analysis.counted_opening p.body) last
  rw [hchecked]
  exact ⟨hcounted.entered, hcounted.ahead⟩

theorem count_checked_le (p : Program) : p.checked.count ≤ 1 + Stmt.bodyFunctionCount p.body := by
  have hcounted := p.counted_checked
  have hcard : p.checked.enteredScopes.card ≤ p.checked.scopes.size :=
    calc p.checked.enteredScopes.card
      _ ≤ (Finset.range p.checked.scopes.size).card := Finset.card_filter_le _ _
      _ = p.checked.scopes.size := Finset.card_range _
  have hahead := hcounted.ahead
  rw [hcounted.entered]
  omega

/-- A walk ends, and looks at everything at most once. The scopes of the arena
are made for declarations of the program, one scope for each declaration at
most; a scope is entered at one moment and a statement of its body dispatched at
one moment at most; and the scopes entered are counted, and no more than the
program and its declarations. -/
theorem walks_once (p : Program) :
    (∃ n ≤ p.opening.work, (p.opening.after n).stack = []) ∧
    (∀ i < p.checked.scopes.size, ∃! path, p.Arises path i) ∧
    (∀ path i, p.Arises path i → p.bodyAt path = some (p.checked.scope i).body) ∧
    (∀ path i j, p.Arises path i → p.Arises path j → i = j) ∧
    (∀ i n k a b, p.EntersAt n a i → p.EntersAt k b i → n = k) ∧
    (∀ i pos n k, (p.opening.after n).Dispatches i pos →
      (p.opening.after k).Dispatches i pos → n = k) ∧
    p.checked.count = p.checked.enteredScopes.card ∧
    p.checked.count ≤ 1 + Stmt.bodyFunctionCount p.body := by
  refine ⟨p.opening.exists_stack_nil, fun i hi => ?_, fun _ _ h => h.bodyAt_eq,
    fun _ _ _ h h' => h.unique h', fun _ _ _ _ _ h h' => (h.unique h').1,
    fun _ _ _ _ h h' => Machine.dispatches_once p.valid_opening h h',
    p.counted_checked.entered, p.count_checked_le⟩
  obtain ⟨path, harises, _⟩ := p.accounted_checked i hi
  exact ⟨path, harises, fun path' h' => h'.unique_path harises⟩

end Program

end DefiniteAssignment
