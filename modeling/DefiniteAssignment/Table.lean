/-! Tables by name. An entry keeps the place at which its name was first
written, and a later write replaces the value there; so `entries` lists every
name once, in order of its first write, with its last value. -/
namespace DefiniteAssignment

structure Table (α : Type) where
  entries : List (String × α) := []
deriving DecidableEq, Repr

namespace Table

variable {α : Type}

instance : Inhabited (Table α) := ⟨{}⟩

def find (x : String) : List (String × α) → Option α
  | [] => none
  | (y, v) :: rest => if y = x then some v else find x rest

def put (x : String) (v : α) : List (String × α) → List (String × α)
  | [] => [(x, v)]
  | (y, w) :: rest => if y = x then (x, v) :: rest else (y, w) :: put x v rest

def get? (t : Table α) (x : String) : Option α := find x t.entries

def insert (t : Table α) (x : String) (v : α) : Table α := ⟨put x v t.entries⟩

def contains (t : Table α) (x : String) : Bool := (t.get? x).isSome

def size (t : Table α) : Nat := t.entries.length

def keys (t : Table α) : List String := t.entries.map Prod.fst

def erase (t : Table α) (x : String) : Table α :=
  ⟨t.entries.filter fun entry => entry.1 ≠ x⟩

theorem find_put_self (x : String) (v : α) (l : List (String × α)) :
    find x (put x v l) = some v := by
  induction l with
  | nil => simp [put, find]
  | cons e rest ih =>
    obtain ⟨y, w⟩ := e
    by_cases h : y = x <;> simp [put, find, h, ih]

theorem find_put_of_ne {x y : String} (h : y ≠ x) (v : α) (l : List (String × α)) :
    find y (put x v l) = find y l := by
  induction l with
  | nil => simp [put, find, Ne.symm h]
  | cons e rest ih =>
    obtain ⟨z, w⟩ := e
    by_cases hz : z = x
    · simp [put, find, hz, Ne.symm h]
    · by_cases hy : z = y
      · subst hy
        simp [put, find, h]
      · simp [put, find, hz, hy, ih]

@[simp] theorem get?_insert_self (t : Table α) (x : String) (v : α) :
    (t.insert x v).get? x = some v :=
  find_put_self x v t.entries

theorem get?_insert_of_ne (t : Table α) {x y : String} (h : y ≠ x) (v : α) :
    (t.insert x v).get? y = t.get? y :=
  find_put_of_ne h v t.entries

theorem get?_erase (t : Table α) (x y : String) :
    (t.erase x).get? y = if y = x then none else t.get? y := by
  obtain ⟨l⟩ := t
  simp only [get?, erase]
  induction l with
  | nil => simp [find]
  | cons e rest ih =>
    obtain ⟨z, w⟩ := e
    by_cases hz : z = x
    · subst hz
      by_cases hy : y = z
      · subst hy
        simpa using ih
      · simpa [hy, find, Ne.symm hy] using ih
    · by_cases hy : z = y
      · subst hy
        simp [find, hz]
      · simpa [find, hz, hy] using ih

theorem insert_eq_self {t : Table α} {x : String} {v : α} (h : t.get? x = some v) :
    t.insert x v = t := by
  obtain ⟨l⟩ := t
  simp only [get?] at h
  simp only [insert, mk.injEq]
  induction l with
  | nil => simp [find] at h
  | cons e rest ih =>
    obtain ⟨y, w⟩ := e
    by_cases hy : y = x
    · simp_all [find, put]
    · simp only [find, hy, if_false] at h
      simp [put, hy, ih h]

theorem find_isSome_iff (x : String) (l : List (String × α)) :
    (find x l).isSome ↔ x ∈ l.map Prod.fst := by
  induction l with
  | nil => simp [find]
  | cons e rest ih =>
    obtain ⟨y, v⟩ := e
    by_cases h : y = x
    · simp [find, h]
    · simp [find, h, ih, Ne.symm h]

theorem contains_iff_mem_keys (t : Table α) (x : String) : t.contains x ↔ x ∈ t.keys :=
  find_isSome_iff x t.entries

theorem keys_insert (t : Table α) (x : String) (v : α) :
    (t.insert x v).keys = if x ∈ t.keys then t.keys else t.keys ++ [x] := by
  obtain ⟨l⟩ := t
  simp only [keys, insert]
  induction l with
  | nil => simp [put]
  | cons e rest ih =>
    obtain ⟨y, w⟩ := e
    by_cases h : y = x
    · simp [put, h]
    · by_cases hx : x ∈ rest.map Prod.fst <;> simp_all [put, Ne.symm h]

theorem get?_insert (t : Table α) (x y : String) (v : α) :
    (t.insert x v).get? y = if y = x then some v else t.get? y := by
  split
  · rename_i h
    rw [h, get?_insert_self]
  · rename_i h
    exact get?_insert_of_ne t h v

@[simp] theorem get?_empty (x : String) : ({} : Table α).get? x = none := rfl

theorem nodup_keys_insert {t : Table α} (h : t.keys.Nodup) (x : String) (v : α) :
    (t.insert x v).keys.Nodup := by
  rw [keys_insert]
  split
  · exact h
  · rename_i hx
    rw [List.nodup_append]
    refine ⟨h, by simp, ?_⟩
    intro y hy z hz
    rw [List.mem_singleton] at hz
    rintro rfl
    exact hx (hz ▸ hy)

theorem mem_entries_of_get? {t : Table α} {x : String} {v : α} (h : t.get? x = some v) :
    (x, v) ∈ t.entries := by
  obtain ⟨l⟩ := t
  simp only [get?] at h
  induction l with
  | nil => simp [find] at h
  | cons e rest ih =>
    obtain ⟨y, w⟩ := e
    simp only [find] at h
    split at h
    · rename_i hy
      simp_all
    · exact List.mem_cons_of_mem _ (ih h)

theorem get?_of_mem {t : Table α} (hn : t.keys.Nodup) {x : String} {v : α}
    (h : (x, v) ∈ t.entries) : t.get? x = some v := by
  obtain ⟨l⟩ := t
  simp only [keys] at hn
  simp only [get?]
  induction l with
  | nil => simp at h
  | cons e rest ih =>
    obtain ⟨y, w⟩ := e
    rw [List.map_cons, List.nodup_cons] at hn
    rcases List.mem_cons.1 h with he | he
    · obtain ⟨rfl, rfl⟩ := Prod.mk.inj he
      simp [find]
    · have hne : y ≠ x := by
        rintro rfl
        exact hn.1 (List.mem_map.2 ⟨_, he, rfl⟩)
      simp [find, hne, ih hn.2 he]

theorem get?_eq_some_iff {t : Table α} (hn : t.keys.Nodup) {x : String} {v : α} :
    t.get? x = some v ↔ (x, v) ∈ t.entries :=
  ⟨mem_entries_of_get?, get?_of_mem hn⟩

theorem get?_eq_of_perm {t u : Table α} (hn : t.keys.Nodup) (h : u.entries.Perm t.entries)
    (x : String) : u.get? x = t.get? x := by
  have hkeys : u.keys.Perm t.keys := h.map Prod.fst
  apply Option.ext
  intro v
  rw [get?_eq_some_iff (hkeys.nodup_iff.2 hn), get?_eq_some_iff hn]
  exact h.mem_iff

theorem insert_comm {x y : String} (h : x ≠ y) {t : Table α} (hx : t.contains x) (v w : α) :
    (t.insert x v).insert y w = (t.insert y w).insert x v := by
  obtain ⟨l⟩ := t
  simp only [contains, get?] at hx
  simp only [insert, mk.injEq]
  induction l with
  | nil => simp [find] at hx
  | cons e rest ih =>
    obtain ⟨z, u⟩ := e
    by_cases hzx : z = x
    · have hzy : z ≠ y := hzx ▸ h
      simp [put, hzx, hzx ▸ hzy]
    · by_cases hzy : z = y
      · simp [put, hzy, Ne.symm h]
      · simp only [find, hzx, if_false] at hx
        simp [put, hzx, hzy, ih hx]

theorem contains_insert_of_ne (t : Table α) {x y : String} (h : y ≠ x) (v : α) :
    (t.insert x v).contains y = t.contains y := by
  rw [contains, get?_insert_of_ne t h, contains]

end Table

end DefiniteAssignment
