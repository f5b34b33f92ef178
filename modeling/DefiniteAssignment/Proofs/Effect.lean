import DefiniteAssignment.Analysis.Check

/-! What a statement does to the arena: it changes what the scope it stands in
knows, and adds problems. Everything else stays as it is. -/
namespace DefiniteAssignment

namespace Scope

def outline (s : Scope) : Scope := { s with contracts := {}, always := [], recursive := false }

def findings (s : Scope) : Table Contract × List Nat × Bool := (s.contracts, s.always, s.recursive)

/-- Scopes only grow. The functions of a scope are fixed once it is entered. -/
structure Extends (s t : Scope) : Prop where
  body : t.body = s.body
  enclosing : t.enclosing = s.enclosing
  entered : s.entered → t.entered
  functions : s.entered → t.functions = s.functions
  bound : ∀ x, (s.contracts.get? x).isSome → (t.contracts.get? x).isSome
  always : s.always ⊆ t.always
  recursive : s.recursive → t.recursive

namespace Extends

theorem refl (s : Scope) : s.Extends s :=
  ⟨rfl, rfl, id, fun _ => rfl, fun _ => id, fun _ => id, id⟩

theorem trans {s t u : Scope} (h : s.Extends t) (h' : t.Extends u) : s.Extends u where
  body := h'.body.trans h.body
  enclosing := h'.enclosing.trans h.enclosing
  entered hs := h'.entered (h.entered hs)
  functions hs := (h'.functions (h.entered hs)).trans (h.functions hs)
  bound x hx := h'.bound x (h.bound x hx)
  always := List.Subset.trans h.always h'.always
  recursive hs := h'.recursive (h.recursive hs)

end Extends

end Scope

inductive Contract.Advances : Option Contract → Option Contract → Prop
  | refl (c : Option Contract) : Advances c c
  | open_ {d : Contract} : d.isObligation → Advances none (some d)
  | outer_read : Advances (some .outer) (some .external)
  | outer_assigned : Advances (some .outer) (some .outerAssigned)
  | external_assigned : Advances (some .external) (some .outerAssigned)
  | inner_assigned : Advances (some .inner) (some .innerAssigned)

namespace Contract.Advances

theorem isSome {c d : Option Contract} (h : Advances c d) (hc : c.isSome) : d.isSome := by
  cases h <;> first | exact hc | rfl

theorem any_isDeclared {c d : Option Contract} (h : Advances c d) :
    d.any isDeclared = c.any isDeclared := by
  cases h with
  | @open_ d hd => cases d <;> first | rfl | cases hd
  | _ => rfl

theorem not_alien {c d : Option Contract} (h : Advances c d) (hc : ∀ t, c ≠ some (.alien t))
    (t : String) : d ≠ some (.alien t) := by
  cases h with
  | refl => exact hc t
  | open_ hd =>
    rintro ⟨⟩
    cases hd
  | _ => simp

end Contract.Advances

theorem View.advances_after (v : View) (u : Use) :
    Contract.Advances v.own ((v.after u).or v.own) := by
  obtain ⟨isFunction, own, boundAround⟩ := v
  cases isFunction with
  | true => simpa [after] using .refl own
  | false =>
    cases u with
    | declared =>
      cases own with
      | some c => simpa [after, resolve] using .refl (some c)
      | none =>
        cases boundAround with
        | true => simpa [after, resolve] using .refl none
        | false => simpa [after, resolve] using .open_ rfl
    | assigned =>
      cases own with
      | none => exact .open_ rfl
      | some c =>
        cases c with
        | external => exact .external_assigned
        | outer => exact .outer_assigned
        | inner => exact .inner_assigned
        | _ => exact .refl _
    | read =>
      cases own with
      | none => cases boundAround <;> exact .open_ rfl
      | some c =>
        cases c with
        | outer => exact .outer_read
        | _ => exact .refl _

/-- What becomes of the contract of a name when a call is completed whose called
scope leaves the name with contract `c`. -/
def View.met (v : View) (conditional : Bool) (c : Option Contract) : Option Contract :=
  match c.map (Contract.demand conditional) with
  | some (.use u) => (v.after u).or v.own
  | some .nothing | some (.unknown _) | none => v.own

theorem View.advances_met (v : View) (conditional : Bool) (c : Option Contract) :
    Contract.Advances v.own (v.met conditional c) := by
  unfold met
  split
  · exact v.advances_after _
  all_goals exact .refl _

namespace Analysis

theorem scope_update (a : Analysis) (i j : Nat) (f : Scope → Scope) :
    (a.update i f).scope j = if j = i ∧ i < a.scopes.size then f (a.scope i) else a.scope j := by
  by_cases hj : j = i
  · subst hj
    by_cases hi : j < a.scopes.size
    · simp [hi, scope_update_self a f hi]
    · simp [scope, update, hi]
  · simp [hj, scope_update_of_ne a f hj]

theorem map_modify {shown f g : Scope → Scope} (h : ∀ s, shown (f s) = g (shown s))
    (scopes : Array Scope) (i : Nat) :
    (scopes.modify i f).map shown = (scopes.map shown).modify i g := by
  apply Array.ext_getElem?
  intro j
  rw [Array.getElem?_map, Array.getElem?_modify, Array.getElem?_modify, Array.getElem?_map]
  split
  · cases scopes[j]? with
    | none => rfl
    | some s => exact congrArg some (h s)
  · rfl

theorem update_eq_self {a : Analysis} {i : Nat} {f : Scope → Scope}
    (h : f (a.scope i) = a.scope i) : a.update i f = a := by
  obtain ⟨scopes, problems, count⟩ := a
  simp only [update, mk.injEq, and_true]
  apply Array.ext_getElem?
  intro j
  rw [Array.getElem?_modify]
  split
  · rename_i hj
    subst hj
    simp only [scope] at h
    cases hs : scopes[i]? with
    | none => rfl
    | some s =>
      rw [hs] at h
      exact congrArg some h
  · rfl

@[simp] theorem scope_report (a : Analysis) (code : Code) (x : String) (j : Nat) :
    (a.report code x).scope j = a.scope j := rfl

theorem lt_size_of_entered {a : Analysis} {i : Nat} (h : (a.scope i).entered) :
    i < a.scopes.size := by
  refine Nat.lt_of_not_le fun hi => ?_
  simp [scope, Array.getElem?_eq_none hi, default, instInhabitedScope.default] at h

theorem problems_report_subset (a : Analysis) (code : Code) (x : String) :
    a.problems.toList ⊆ (a.report code x).problems.toList :=
  fun _ h => Sink.mem_insert.2 (.inl h)

theorem mem_problems_report (a : Analysis) (code : Code) (x : String) :
    ⟨code, x⟩ ∈ (a.report code x).problems.toList :=
  Sink.mem_insert.2 (.inr rfl)

/-- What a scope may write down while it is walked: contracts of its own, from
which no name disappears, and problems. -/
structure Notes (i : Nat) (a b : Analysis) : Prop where
  size : b.scopes.size = a.scopes.size
  other : ∀ j, j ≠ i → b.scope j = a.scope j
  own : ∃ t, b.scope i = { a.scope i with contracts := t }
  bound : ∀ x, ((a.scope i).contracts.get? x).isSome → ((b.scope i).contracts.get? x).isSome
  nodup : (a.scope i).contracts.keys.Nodup → (b.scope i).contracts.keys.Nodup
  problems : a.problems.toList ⊆ b.problems.toList

structure Records (i : Nat) (a b : Analysis) : Prop where
  size : b.scopes.size = a.scopes.size
  other : ∀ j, j ≠ i → b.scope j = a.scope j
  own : ∃ always recursive, b.scope i = { a.scope i with always, recursive }
  always : (a.scope i).always ⊆ (b.scope i).always
  recursive : (a.scope i).recursive → (b.scope i).recursive
  problems : b.problems = a.problems

/-- What a statement of scope `i` may change. -/
structure Within (i : Nat) (a b : Analysis) : Prop where
  size : b.scopes.size = a.scopes.size
  other : ∀ j, j ≠ i → b.scope j = a.scope j
  own : (b.scope i).outline = (a.scope i).outline
  extends_ : (a.scope i).Extends (b.scope i)
  nodup : (a.scope i).contracts.keys.Nodup → (b.scope i).contracts.keys.Nodup
  problems : a.problems.toList ⊆ b.problems.toList

namespace Notes

variable {i : Nat} {a b c : Analysis}

theorem refl (i : Nat) (a : Analysis) : Notes i a a :=
  ⟨rfl, fun _ _ => rfl, ⟨_, rfl⟩, fun _ h => h, id, fun _ h => h⟩

theorem trans (h : Notes i a b) (h' : Notes i b c) : Notes i a c where
  size := h'.size.trans h.size
  other j hj := (h'.other j hj).trans (h.other j hj)
  own := by
    obtain ⟨t, ht⟩ := h.own
    obtain ⟨t', ht'⟩ := h'.own
    exact ⟨t', by rw [ht', ht]⟩
  bound x hx := h'.bound x (h.bound x hx)
  nodup hn := h'.nodup (h.nodup hn)
  problems := List.Subset.trans h.problems h'.problems

theorem report (i : Nat) (a : Analysis) (code : Code) (x : String) :
    Notes i a (a.report code x) :=
  { refl i a with problems := problems_report_subset a code x }

theorem setContract (i : Nat) (a : Analysis) (x : String) (c : Contract) :
    Notes i a (a.setContract i x c) := by
  have hsize : (a.setContract i x c).scopes.size = a.scopes.size := size_update a i _
  have hother : ∀ j, j ≠ i → (a.setContract i x c).scope j = a.scope j :=
    fun j hj => scope_update_of_ne a _ hj
  by_cases hi : i < a.scopes.size
  · have hown : (a.setContract i x c).scope i =
        { a.scope i with contracts := (a.scope i).contracts.insert x c } :=
      scope_update_self a _ hi
    refine ⟨hsize, hother, ⟨_, hown⟩, ?_, ?_, fun _ h => h⟩
    · intro y hy
      rw [hown]
      simp only [Table.get?_insert]
      split
      · rfl
      · exact hy
    · intro hn
      rw [hown]
      exact Table.nodup_keys_insert hn x c
  · have hown : (a.setContract i x c).scope i = a.scope i := by
      rw [Analysis.setContract, scope_update, if_neg (fun h => hi h.2)]
    refine ⟨hsize, hother, ⟨_, hown⟩, ?_, ?_, fun _ h => h⟩
    · intro y hy
      rw [hown]
      exact hy
    · intro hn
      rw [hown]
      exact hn

theorem always (h : Notes i a b) (j : Nat) : (b.scope j).always = (a.scope j).always := by
  by_cases hj : j = i
  · obtain ⟨t, ht⟩ := h.own
    rw [hj, ht]
  · rw [h.other j hj]

theorem isRecursive (h : Notes i a b) (j : Nat) : b.isRecursive j = a.isRecursive j := by
  by_cases hj : j = i
  · obtain ⟨t, ht⟩ := h.own
    rw [hj, Analysis.isRecursive, ht]
    rfl
  · rw [Analysis.isRecursive, h.other j hj]
    rfl

theorem within (h : Notes i a b) : Within i a b := by
  obtain ⟨t, ht⟩ := h.own
  refine ⟨h.size, h.other, by rw [ht]; rfl, ?_, h.nodup, h.problems⟩
  have hbound := h.bound
  rw [ht] at hbound ⊢
  exact ⟨rfl, rfl, id, fun _ => rfl, hbound, fun _ => id, id⟩

end Notes

namespace Records

variable {i : Nat} {a b c : Analysis}

theorem trans (h : Records i a b) (h' : Records i b c) : Records i a c where
  size := h'.size.trans h.size
  other j hj := (h'.other j hj).trans (h.other j hj)
  own := by
    obtain ⟨l, r, hb⟩ := h.own
    obtain ⟨l', r', hc⟩ := h'.own
    exact ⟨l', r', by rw [hc, hb]⟩
  always := List.Subset.trans h.always h'.always
  recursive hr := h'.recursive (h.recursive hr)
  problems := h'.problems.trans h.problems

theorem update (i : Nat) (a : Analysis) (f : Scope → Scope)
    (own : ∀ s, ∃ always recursive, f s = { s with always, recursive })
    (always : ∀ s, s.always ⊆ (f s).always) (recursive : ∀ s, s.recursive → (f s).recursive) :
    Records i a (a.update i f) := by
  have hother : ∀ j, j ≠ i → (a.update i f).scope j = a.scope j :=
    fun j hj => scope_update_of_ne a f hj
  by_cases hi : i < a.scopes.size
  · have hown := scope_update_self a f hi
    refine ⟨size_update a i f, hother, ?_, ?_, ?_, rfl⟩
    · rw [hown]
      exact own _
    · rw [hown]
      exact always _
    · rw [hown]
      exact recursive _
  · have hown : (a.update i f).scope i = a.scope i := by
      rw [scope_update, if_neg (fun h => hi h.2)]
    refine ⟨size_update a i f, hother, ⟨_, _, hown⟩, ?_, ?_, rfl⟩
    · rw [hown]
      exact fun _ h => h
    · rw [hown]
      exact id

theorem contracts (h : Records i a b) (j : Nat) :
    (b.scope j).contracts = (a.scope j).contracts := by
  by_cases hj : j = i
  · obtain ⟨l, r, hb⟩ := h.own
    rw [hj, hb]
  · rw [h.other j hj]

theorem within (h : Records i a b) : Within i a b := by
  have hcontracts := h.contracts i
  have halways := h.always
  have hrecursive := h.recursive
  obtain ⟨l, r, hb⟩ := h.own
  refine ⟨h.size, h.other, by rw [hb]; rfl, ?_, by rw [hcontracts]; exact id, ?_⟩
  · rw [hb] at halways hrecursive ⊢
    exact ⟨rfl, rfl, id, fun _ => rfl, fun _ => id, halways, hrecursive⟩
  · rw [h.problems]
    exact fun _ hq => hq

end Records

namespace Within

variable {i : Nat} {a b c : Analysis}

theorem trans (h : Within i a b) (h' : Within i b c) : Within i a c where
  size := h'.size.trans h.size
  other j hj := (h'.other j hj).trans (h.other j hj)
  own := h'.own.trans h.own
  extends_ := h.extends_.trans h'.extends_
  nodup hn := h'.nodup (h.nodup hn)
  problems := List.Subset.trans h.problems h'.problems

theorem outline (h : Within i a b) (j : Nat) : (b.scope j).outline = (a.scope j).outline := by
  by_cases hj : j = i
  · rw [hj, h.own]
  · rw [h.other j hj]

theorem body (h : Within i a b) (j : Nat) : (b.scope j).body = (a.scope j).body :=
  (congrArg Scope.body (h.outline j) :)

theorem name (h : Within i a b) (j : Nat) : (b.scope j).name = (a.scope j).name :=
  (congrArg Scope.name (h.outline j) :)

theorem enclosing (h : Within i a b) (j : Nat) : (b.scope j).enclosing = (a.scope j).enclosing :=
  (congrArg Scope.enclosing (h.outline j) :)

theorem functions (h : Within i a b) (j : Nat) : (b.scope j).functions = (a.scope j).functions :=
  (congrArg Scope.functions (h.outline j) :)

theorem entered (h : Within i a b) (j : Nat) : (b.scope j).entered = (a.scope j).entered :=
  (congrArg Scope.entered (h.outline j) :)

theorem lookup (h : Within i a b) (j : Nat) (f : String) : b.lookup j f = a.lookup j f := by
  simp only [Analysis.lookup, h.enclosing, h.functions]

end Within

theorem Notes.use (i : Nat) (a : Analysis) (u : Use) (x : String) : Notes i a (a.use i u x) := by
  have hreport : Notes i a
      (if (a.view i x).readsUnassigned u then a.report .notAssigned x else a) := by
    split
    · exact .report i a _ x
    · exact .refl i a
  simp only [Analysis.use]
  split
  · exact hreport.trans (.setContract i _ x _)
  · exact hreport

theorem Notes.declareVariable (i : Nat) (a : Analysis) (x : String) :
    Notes i a (a.declareVariable i x) := by
  simp only [Analysis.declareVariable]
  split
  · exact .report i a _ x
  · refine .trans ?_ (.setContract i _ x .inner)
    split
    · exact .report i a _ x
    · split
      · exact .report i a _ x
      · exact .refl i a

theorem Notes.propagate (i : Nat) (callee : String) (conditional : Bool)
    (l : List (String × Contract)) (a : Analysis) :
    Notes i a (a.propagate i callee conditional l).1 := by
  induction l generalizing a with
  | nil => exact .refl i a
  | cons e rest ih =>
    simp only [Analysis.propagate]
    split
    · exact ih a
    · exact (Notes.use i a _ _).trans (ih _)
    · exact .refl i a

theorem get?_use (a : Analysis) {i : Nat} (hi : i < a.scopes.size) (u : Use) (x y : String) :
    ((a.use i u x).scope i).contracts.get? y =
      if y = x then ((a.view i x).after u).or ((a.scope i).contracts.get? x)
      else (a.scope i).contracts.get? y := by
  have hreport : (if (a.view i x).readsUnassigned u then a.report .notAssigned x else a).scope i =
      a.scope i := by
    split <;> rfl
  have hsize : (if (a.view i x).readsUnassigned u then a.report .notAssigned x else a).scopes.size =
      a.scopes.size := by
    split <;> rfl
  simp only [use]
  split
  · rename_i c hc
    rw [setContract, scope_update_self _ _ (hsize ▸ hi), hreport, Table.get?_insert, hc]
    rfl
  · rename_i hc
    rw [hreport, hc]
    split
    · rename_i hy
      rw [hy, Option.none_or]
    · rfl

theorem advances_use (a : Analysis) {i : Nat} (hi : i < a.scopes.size) (u : Use) (x y : String) :
    Contract.Advances ((a.scope i).contracts.get? y) (((a.use i u x).scope i).contracts.get? y) := by
  rw [get?_use a hi]
  split
  · rename_i hy
    rw [hy]
    exact View.advances_after (a.view i x) u
  · exact .refl _

theorem view_congr {a b : Analysis} {x : String}
    (henclosing : ∀ k, (b.scope k).enclosing = (a.scope k).enclosing)
    (hfunctions : ∀ k, (b.scope k).functions = (a.scope k).functions)
    (hget : ∀ k, (b.scope k).contracts.get? x = (a.scope k).contracts.get? x) (i : Nat) :
    b.view i x = a.view i x := by
  have hcontains : ∀ k, (b.scope k).contracts.contains x = (a.scope k).contracts.contains x :=
    fun k => congrArg Option.isSome (hget k)
  simp only [view, isFunction, lookup, contracts, ContractMap.get?, ContractMap.boundAround,
    List.any_map, Function.comp_def, henclosing, hfunctions, hget, hcontains]

theorem view_use_of_ne (a : Analysis) {i : Nat} (hi : i < a.scopes.size) (u : Use) {x y : String}
    (hne : x ≠ y) : (a.use i u y).view i x = a.view i x := by
  have hwithin := (Notes.use i a u y).within
  apply view_congr hwithin.enclosing hwithin.functions
  intro k
  by_cases hk : k = i
  · rw [hk, get?_use a hi, if_neg hne]
  · rw [hwithin.other k hk]

/-- A call meets every contract of the called scope under the view that the
caller has of that name before the call. -/
theorem get?_propagate {i : Nat} (callee : String) (conditional : Bool)
    (l : List (String × Contract)) (a : Analysis) (hi : i < a.scopes.size)
    (hn : (l.map Prod.fst).Nodup) (hl : ∀ e ∈ l, ∀ t, e.2 ≠ .alien t) (x : String) :
    ((a.propagate i callee conditional l).1.scope i).contracts.get? x =
      (a.view i x).met conditional (Table.find x l) := by
  induction l generalizing a with
  | nil => rfl
  | cons e rest ih =>
    obtain ⟨y, c⟩ := e
    rw [List.map_cons, List.nodup_cons] at hn
    have hrest : ∀ e ∈ rest, ∀ t, e.2 ≠ .alien t := fun e he => hl e (List.mem_cons_of_mem _ he)
    -- Names are listed once, so no later entry meets `y` again.
    have hlast : y = x → Table.find x rest = none := by
      rintro rfl
      rw [← Option.not_isSome_iff_eq_none, Table.find_isSome_iff]
      exact hn.1
    simp only [propagate, Table.find]
    split
    · rename_i hc
      rw [ih a hi hn.2 hrest]
      split
      · rename_i hy
        rw [hlast hy]
        simp [View.met, hc]
      · rfl
    · rename_i u hc
      rw [ih _ ((Notes.use i a u y).size ▸ hi) hn.2 hrest]
      split
      · rename_i hy
        subst hy
        have hget := get?_use a hi u y y
        rw [if_pos rfl] at hget
        rw [hlast rfl]
        simp only [View.met, Option.map_some, hc]
        exact hget
      · rename_i hy
        rw [view_use_of_ne a hi u (Ne.symm hy)]
    · rename_i mark hc
      have hknown := hl (y, c) List.mem_cons_self
      cases c <;> simp_all [Contract.demand]

theorem readsUnassigned_iff {a : Analysis} {i : Nat} {u : Use} {x : String} :
    (a.view i x).readsUnassigned u ↔
      a.isFunction i x = false ∧ u = .read ∧ (a.scope i).contracts.get? x = some .inner := by
  simp only [View.readsUnassigned, Bool.and_eq_true, Bool.not_eq_true', decide_eq_true_eq,
    and_assoc]
  rfl

theorem mem_problems_use_iff {a : Analysis} {i : Nat} {u : Use} {x : String} {problem : Problem} :
    problem ∈ (a.use i u x).problems.toList ↔ problem ∈ a.problems.toList ∨
      problem = ⟨.notAssigned, x⟩ ∧ (a.view i x).readsUnassigned u := by
  have hreport : (a.use i u x).problems =
      (if (a.view i x).readsUnassigned u then a.report .notAssigned x else a).problems := by
    simp only [use]
    split <;> rfl
  rw [hreport]
  by_cases hread : (a.view i x).readsUnassigned u
  · simp only [hread, if_true, report, Sink.mem_insert, and_true]
  · simp only [hread, Bool.false_eq_true, if_false, and_false, or_false]

/-- A call reports the reads of variables that the caller has declared and not
assigned, under the view that it has of them before the call. -/
theorem mem_problems_propagate_iff {i : Nat} (callee : String) (conditional : Bool)
    (l : List (String × Contract)) (a : Analysis) (hi : i < a.scopes.size)
    (hn : (l.map Prod.fst).Nodup) (hl : ∀ e ∈ l, ∀ t, e.2 ≠ .alien t) {problem : Problem} :
    problem ∈ (a.propagate i callee conditional l).1.problems.toList ↔
      problem ∈ a.problems.toList ∨ ∃ x, problem = ⟨.notAssigned, x⟩ ∧
        Table.find x l = some .external ∧ (a.view i x).readsUnassigned .read := by
  induction l generalizing a with
  | nil => simp [propagate, Table.find]
  | cons e rest ih =>
    obtain ⟨y, c⟩ := e
    rw [List.map_cons, List.nodup_cons] at hn
    have hrest : ∀ e ∈ rest, ∀ t, e.2 ≠ .alien t := fun e he => hl e (List.mem_cons_of_mem _ he)
    have hlater : ∀ x, Table.find x rest = some .external → y ≠ x := by
      rintro x hx rfl
      exact hn.1 ((Table.find_isSome_iff y rest).1 (by simp [hx]))
    have hfind : ∀ x, Table.find x ((y, c) :: rest) = some .external ↔
        y = x ∧ c = .external ∨ Table.find x rest = some .external := by
      intro x
      have := hlater x
      by_cases hy : y = x
      · simp_all [Table.find]
      · simp [Table.find, hy]
    simp only [propagate, hfind]
    split
    · rename_i hc
      have hne : c ≠ .external := by
        rintro rfl
        cases hc
      rw [ih a hi hn.2 hrest]
      simp only [hne, and_false, false_or]
    · rename_i u hc
      have hread : (a.view i y).readsUnassigned u ↔
          c = .external ∧ (a.view i y).readsUnassigned .read := by
        rw [← @Contract.demand_eq_read_iff conditional c, hc]
        simp only [readsUnassigned_iff, Demand.use.injEq]
        grind
      rw [ih _ ((Notes.use i a u y).size ▸ hi) hn.2 hrest, mem_problems_use_iff, hread, or_assoc]
      apply or_congr_right
      constructor
      · rintro (⟨hp, rfl, hy⟩ | ⟨x, hp, hx, hy⟩)
        · exact ⟨y, hp, .inl ⟨rfl, rfl⟩, hy⟩
        · rw [view_use_of_ne a hi u (hlater x hx).symm] at hy
          exact ⟨x, hp, .inr hx, hy⟩
      · rintro ⟨x, hp, ⟨rfl, rfl⟩ | hx, hy⟩
        · exact .inl ⟨hp, rfl, hy⟩
        · rw [← view_use_of_ne a hi u (hlater x hx).symm] at hy
          exact .inr ⟨x, hp, hx, hy⟩
    · rename_i mark hc
      have hknown := hl (y, c) List.mem_cons_self
      cases c <;> simp_all [Contract.demand]

theorem propagate_eq_none (i : Nat) (callee : String) (conditional : Bool)
    (l : List (String × Contract)) (a : Analysis) (hl : ∀ e ∈ l, ∀ t, e.2 ≠ .alien t) :
    (a.propagate i callee conditional l).2 = none := by
  induction l generalizing a with
  | nil => rfl
  | cons e rest ih =>
    have hrest : ∀ e ∈ rest, ∀ t, e.2 ≠ .alien t := fun e he => hl e (List.mem_cons_of_mem _ he)
    simp only [propagate]
    split
    · exact ih a hrest
    · exact ih _ hrest
    · rename_i mark hmark
      have := hl e List.mem_cons_self
      cases hc : e.2 <;> simp_all [Contract.demand]

theorem Records.passThrough (i : Nat) (a : Analysis) (callee : Nat) (reach : List Nat) :
    Records i a (a.update i (·.passThrough callee reach)) :=
  .update i a _ (fun _ => ⟨_, _, rfl⟩)
    (fun _ _ hk => mem_union.2 (.inl (mem_union.2 (.inl hk)))) (fun _ => id)

theorem Records.flag (i : Nat) (a : Analysis) : Records i a (a.flag i) :=
  .update i a _ (fun _ => ⟨_, _, rfl⟩) (fun _ _ hk => hk) (fun _ _ => rfl)

theorem isRecursive_flag {a : Analysis} {i : Nat} (hi : i < a.scopes.size) :
    (a.flag i).isRecursive i = true := by
  rw [isRecursive, Analysis.flag, scope_update_self a _ hi]

theorem Records.recordCall (i : Nat) (a : Analysis) (callee : Nat) :
    Records i a (a.recordCall i callee).1 := by
  have hpass := Records.passThrough i a callee (a.scope callee).always
  simp only [Analysis.recordCall]
  split
  · exact hpass.trans (.flag i _)
  · split
    · exact hpass.trans (.flag i _)
    · split <;> exact hpass

theorem mem_always_recordCall {a : Analysis} {i : Nat} (hi : i < a.scopes.size) (callee k : Nat) :
    k ∈ ((a.recordCall i callee).1.scope i).always ↔
      k ∈ (a.scope i).always ∨ k = callee ∨ k ∈ (a.scope callee).always := by
  have hpass : ((a.update i (·.passThrough callee (a.scope callee).always)).scope i).always =
      union (union (a.scope i).always [callee]) (a.scope callee).always := by
    rw [scope_update_self a _ hi]
    rfl
  have hflag : ∀ b : Analysis, ((b.flag i).scope i).always = (b.scope i).always := by
    intro b
    rw [Analysis.flag, scope_update]
    split
    · rename_i h
      rw [h.1]
    · rfl
  simp only [recordCall]
  split
  · rw [hflag, hpass, mem_union, mem_union, List.mem_singleton, or_assoc]
  · split
    · rw [hflag, hpass, mem_union, mem_union, List.mem_singleton, or_assoc]
    · split <;> rw [hpass, mem_union, mem_union, List.mem_singleton, or_assoc]

theorem isRecursive_recordCall {a : Analysis} {i : Nat} (hi : i < a.scopes.size) (callee : Nat) :
    (a.recordCall i callee).1.isRecursive i ↔
      a.isRecursive i ∨ callee = i ∨ i ∈ ((a.recordCall i callee).1.scope i).always ∨
        ∃ k ∈ callee :: (a.scope callee).always, a.isRecursive k := by
  have hsame : ∀ k, (a.update i (·.passThrough callee (a.scope callee).always)).isRecursive k =
      a.isRecursive k := by
    intro k
    simp only [isRecursive, scope_update]
    split
    · rename_i hk
      rw [hk.1]
      rfl
    · rfl
  rw [mem_always_recordCall hi]
  simp only [recordCall]
  split
  · rename_i h
    rw [isRecursive_flag (by simpa using hi)]
    rw [scope_update_self a _ hi] at h
    simp only [Scope.passThrough, mem_union, List.mem_singleton] at h
    simp only [true_iff]
    grind
  · rename_i h
    rw [scope_update_self a _ hi] at h
    simp only [Scope.passThrough, mem_union, List.mem_singleton] at h
    split
    · rename_i hany
      rw [isRecursive_flag (by simpa using hi)]
      rw [List.any_eq_true] at hany
      obtain ⟨k, hk, hrec⟩ := hany
      simp only [true_iff]
      exact .inr (.inr (.inr ⟨k, hk, (hsame k) ▸ hrec⟩))
    · rename_i hany
      rw [List.any_eq_true] at hany
      have hnone : ¬ ∃ k ∈ callee :: (a.scope callee).always, a.isRecursive k := by
        rintro ⟨k, hk, hrec⟩
        exact hany ⟨k, hk, (hsame k).trans hrec⟩
      split <;> simp only [hsame] <;> grind

def propagated (a : Analysis) (caller callee : Nat) (conditional : Bool) : Analysis :=
  (a.propagate caller (a.scope callee).name conditional (a.scope callee).contracts.entries).1

def completed (a : Analysis) (caller callee : Nat) (conditional : Bool) : Analysis :=
  if conditional then a.propagated caller callee conditional
  else ((a.propagated caller callee conditional).recordCall caller callee).1

theorem Notes.propagated (a : Analysis) (i callee : Nat) (conditional : Bool) :
    Notes i a (a.propagated i callee conditional) :=
  .propagate i _ conditional _ a

theorem Within.completed (a : Analysis) (i callee : Nat) (conditional : Bool) :
    Within i a (a.completed i callee conditional) := by
  have hnotes := (Notes.propagated a i callee conditional).within
  unfold Analysis.completed
  split
  · exact hnotes
  · exact hnotes.trans (Records.recordCall i _ callee).within

theorem contracts_completed (a : Analysis) (i callee : Nat) (conditional : Bool) (j : Nat) :
    ((a.completed i callee conditional).scope j).contracts =
      ((a.propagated i callee conditional).scope j).contracts := by
  unfold completed
  split
  · rfl
  · exact (Records.recordCall i _ callee).contracts j

theorem problems_completed (a : Analysis) (i callee : Nat) (conditional : Bool) :
    (a.completed i callee conditional).problems = (a.propagated i callee conditional).problems := by
  unfold completed
  split
  · rfl
  · exact (Records.recordCall i _ callee).problems

theorem always_completed_true (a : Analysis) (i callee j : Nat) :
    ((a.completed i callee true).scope j).always = (a.scope j).always :=
  (Notes.propagated a i callee true).always j

theorem isRecursive_completed_true (a : Analysis) (i callee j : Nat) :
    (a.completed i callee true).isRecursive j = a.isRecursive j :=
  (Notes.propagated a i callee true).isRecursive j

theorem mem_always_completed {a : Analysis} {i : Nat} (hi : i < a.scopes.size) (callee k : Nat) :
    k ∈ ((a.completed i callee false).scope i).always ↔
      k ∈ (a.scope i).always ∨ k = callee ∨ k ∈ (a.scope callee).always := by
  have hnotes := Notes.propagated a i callee false
  have hmem := mem_always_recordCall (hnotes.size ▸ hi) callee k
  rw [hnotes.always, hnotes.always] at hmem
  exact hmem

/-- A scope is found not to return exactly when a call leads it back to itself or
to a scope already found not to return. -/
theorem isRecursive_completed {a : Analysis} {i : Nat} (hi : i < a.scopes.size) (callee : Nat) :
    (a.completed i callee false).isRecursive i ↔
      a.isRecursive i ∨ callee = i ∨ i ∈ ((a.completed i callee false).scope i).always ∨
        ∃ k ∈ callee :: (a.scope callee).always, a.isRecursive k := by
  have hnotes := Notes.propagated a i callee false
  have hrec := isRecursive_recordCall (hnotes.size ▸ hi) callee
  simp only [hnotes.isRecursive, hnotes.always] at hrec
  exact hrec

theorem recordCall_eq_none {a : Analysis} {i callee : Nat}
    (h : ∀ k ∈ callee :: (a.scope callee).always, k < a.scopes.size) :
    (a.recordCall i callee).2 = none := by
  simp only [recordCall, size_update]
  split
  · rfl
  · split
    · rfl
    · rw [if_pos (List.all_eq_true.2 fun k hk => decide_eq_true (h k hk))]

theorem invoke_eq {a : Analysis} {i callee : Nat} {conditional : Bool}
    (hknown : ∀ e ∈ (a.scope callee).contracts.entries, ∀ t, e.2 ≠ .alien t)
    (hlt : ∀ k ∈ callee :: (a.scope callee).always, k < a.scopes.size) :
    a.invoke i callee conditional = (a.completed i callee conditional, none) := by
  have hnotes := Notes.propagated a i callee conditional
  have hnone := propagate_eq_none i (a.scope callee).name conditional _ a hknown
  have hpair : a.propagate i (a.scope callee).name conditional (a.scope callee).contracts.entries =
      (a.propagated i callee conditional, none) := Prod.ext rfl hnone
  have hrecord : ((a.propagated i callee conditional).recordCall i callee).2 = none := by
    apply recordCall_eq_none
    rw [hnotes.always, hnotes.size]
    exact hlt
  simp only [invoke, hpair, completed]
  split
  · rfl
  · exact Prod.ext rfl hrecord

theorem complete_eq {a : Analysis} {i callee : Nat} {conditional : Bool}
    (hknown : ∀ e ∈ (a.scope callee).contracts.entries, ∀ t, e.2 ≠ .alien t)
    (hlt : ∀ k ∈ callee :: (a.scope callee).always, k < a.scopes.size) :
    a.complete i callee conditional =
      (a.completed i callee conditional,
        if (a.completed i callee conditional).isRecursive i then .unreachable else .proceed) := by
  rw [complete, invoke_eq hknown hlt]

theorem get?_declareVariable (a : Analysis) {i : Nat} (hi : i < a.scopes.size) (x y : String) :
    ((a.declareVariable i x).scope i).contracts.get? y =
      if y = x ∧ a.isFunction i x = false then some .inner else (a.scope i).contracts.get? y := by
  unfold declareVariable
  by_cases hf : a.isFunction i x
  · simp [view, hf]
  · simp only [view, hf, Bool.false_eq_true, if_false, and_true]
    have hset : ∀ b : Analysis, b.scope i = a.scope i → b.scopes.size = a.scopes.size →
        ((b.setContract i x .inner).scope i).contracts.get? y =
          if y = x then some .inner else (a.scope i).contracts.get? y := by
      intro b hb hsize
      rw [setContract, scope_update_self b _ (hsize ▸ hi), hb]
      exact Table.get?_insert _ x y _
    split
    · exact hset _ rfl rfl
    · split
      · exact hset _ rfl rfl
      · exact hset _ rfl rfl

/-- A statement that completes no call declares a name, uses one, reports one or
does nothing. -/
theorem dispatch_cases {a b : Analysis} {i : Nat} {s : Stmt} (h : a.dispatch i s = (b, .proceed))
    (hcall : ∀ g c, s = .call g c → a.lookup i g = none) :
    (∃ x, b = a.declareVariable i x) ∨ (∃ u x, b = a.use i u x) ∨
      (∃ code x, b = a.report code x) ∨ b = a := by
  have hb : (a.dispatch i s).1 = b := congrArg Prod.fst h
  cases s with
  | declare x => exact .inl ⟨x, hb.symm⟩
  | assign x =>
    simp only [dispatch] at hb
    split at hb
    · exact .inr (.inr (.inl ⟨_, x, hb.symm⟩))
    · exact .inr (.inl ⟨_, x, hb.symm⟩)
  | print x => exact .inr (.inl ⟨_, x, hb.symm⟩)
  | function f body => exact .inr (.inr (.inr hb.symm))
  | call g c =>
    simp only [dispatch, resolveCall, hcall g c rfl] at hb
    exact .inr (.inr (.inl ⟨_, g, hb.symm⟩))
  | bare => simp [dispatch] at h
  | block body => simp [dispatch] at h

theorem Notes.dispatch {a b : Analysis} {i : Nat} {s : Stmt} (h : a.dispatch i s = (b, .proceed))
    (hcall : ∀ g c, s = .call g c → a.lookup i g = none) : Notes i a b := by
  obtain ⟨x, rfl⟩ | ⟨u, x, rfl⟩ | ⟨code, x, rfl⟩ | rfl := dispatch_cases h hcall
  · exact .declareVariable i a x
  · exact .use i a u x
  · exact .report i a code x
  · exact .refl i b

theorem known_dispatch {a b : Analysis} {i : Nat} {s : Stmt} (hi : i < a.scopes.size)
    (h : a.dispatch i s = (b, .proceed)) (hcall : ∀ g c, s = .call g c → a.lookup i g = none)
    (hknown : ∀ x t, (a.scope i).contracts.get? x ≠ some (.alien t)) (x t : String) :
    (b.scope i).contracts.get? x ≠ some (.alien t) := by
  obtain ⟨y, rfl⟩ | ⟨u, y, rfl⟩ | ⟨code, y, rfl⟩ | rfl := dispatch_cases h hcall
  · rw [get?_declareVariable a hi]
    split
    · simp
    · exact hknown x t
  · exact (advances_use a hi u y x).not_alien (hknown x) t
  · exact hknown x t
  · exact hknown x t

end Analysis

end DefiniteAssignment
