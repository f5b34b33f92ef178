import DefiniteAssignment.Proofs.Caching

/-! Tasks that wait. Whatever happens, a document has at most one of them, and the
number kept for the document is the number of this task; so to stop a task, or to let
it go on, touches no other document. -/
namespace DefiniteAssignment.Editor.Session

variable {τ κ : Type} {check : Checker} {s : Session τ κ} {uri text : String} {task : Nat}
  {v w : Sleeper τ} {l : List (Sleeper τ)}

/-- The tasks that wait, the numbers kept for the documents, and the next number. -/
structure Booked (sleepers : List (Sleeper τ)) (tasks : Table Nat) (next : Nat) : Prop where
  kept : ∀ uri task, tasks.get? uri = some task → task < next
  own : ∀ uri uri' task, tasks.get? uri = some task → tasks.get? uri' = some task → uri = uri'
  stored : ∀ w ∈ sleepers, tasks.get? w.uri = some w.task
  single : sleepers.Pairwise fun v w => v.uri ≠ w.uri

namespace Booked

variable {sleepers : List (Sleeper τ)} {tasks : Table Nat} {next : Nat}

theorem filter (h : Booked sleepers tasks next) (p : Sleeper τ → Bool) :
    Booked (sleepers.filter p) tasks next where
  kept := h.kept
  own := h.own
  stored w hw := h.stored w (List.mem_filter.1 hw).1
  single := h.single.filter p

theorem erase (h : Booked sleepers tasks next) (hnone : ∀ w ∈ sleepers, w.uri ≠ uri) :
    Booked sleepers (tasks.erase uri) next := by
  have hget : ∀ u task, (tasks.erase uri).get? u = some task → tasks.get? u = some task := by
    intro u task hu
    rw [Table.get?_erase] at hu
    split at hu
    · simp at hu
    · exact hu
  refine ⟨fun u task hu => h.kept u task (hget u task hu), ?_, ?_, h.single⟩
  · intro u u' task hu hu'
    exact h.own u u' task (hget u task hu) (hget u' task hu')
  · intro w hw
    rw [Table.get?_erase, if_neg (hnone w hw)]
    exact h.stored w hw

theorem insert (h : Booked sleepers tasks next) (hnone : ∀ w ∈ sleepers, w.uri ≠ uri) :
    Booked sleepers (tasks.insert uri next) (next + 1) where
  kept u task hu := by
    rw [Table.get?_insert] at hu
    split at hu
    · cases hu
      exact Nat.lt_succ_self _
    · exact Nat.lt_succ_of_lt (h.kept u task hu)
  own u u' task hu hu' := by
    rw [Table.get?_insert] at hu hu'
    -- The next number is above all that are kept, so no other document has it.
    split at hu <;> split at hu'
    · simp_all
    · cases hu
      exact absurd (h.kept u' _ hu') (Nat.lt_irrefl _)
    · cases hu'
      exact absurd (h.kept u _ hu) (Nat.lt_irrefl _)
    · exact h.own u u' task hu hu'
  stored w hw := by
    rw [Table.get?_insert, if_neg (hnone w hw)]
    exact h.stored w hw
  single := h.single

theorem concat (h : Booked sleepers tasks next) (hnone : ∀ v ∈ sleepers, v.uri ≠ w.uri)
    (hw : tasks.get? w.uri = some w.task) : Booked (sleepers ++ [w]) tasks next where
  kept := h.kept
  own := h.own
  stored v hv := by
    rcases List.mem_append.1 hv with hv | hv
    · exact h.stored v hv
    · rw [List.mem_singleton.1 hv, hw]
  single := by
    rw [List.pairwise_append]
    refine ⟨h.single, List.pairwise_singleton _ _, ?_⟩
    intro v hv w' hw'
    rw [List.mem_singleton.1 hw']
    exact hnone v hv

theorem mem_filter_task (h : Booked sleepers tasks next) (htask : tasks.get? uri = some task) :
    w ∈ (sleepers.filter fun v => v.task ≠ task) ↔ w ∈ sleepers ∧ w.uri ≠ uri := by
  simp only [List.mem_filter, decide_eq_true_eq]
  refine and_congr_right fun hw => not_congr ?_
  have hstored := h.stored w hw
  constructor
  · rintro rfl
    exact h.own _ _ _ hstored htask
  · rintro rfl
    exact Option.some.inj (hstored.symm.trans htask)

end Booked

abbrev Orderly (s : Session τ κ) : Prop := Booked s.sleepers s.tasks s.nextTask

theorem mem_sleepers_cancel (h : s.Orderly) :
    w ∈ (s.cancel uri).sleepers ↔ w ∈ s.sleepers ∧ w.uri ≠ uri := by
  unfold cancel
  split
  · rename_i hnone
    refine ⟨fun hw => ⟨hw, ?_⟩, And.left⟩
    rintro rfl
    simpa [hnone] using h.stored w hw
  · rename_i task htask
    exact h.mem_filter_task htask

theorem Orderly.cancel (h : s.Orderly) : (s.cancel uri).Orderly := by
  obtain ⟨p, hp⟩ := exists_cancel_eq s uri
  rw [hp]
  exact h.filter p

theorem Orderly.closeDocument (h : s.Orderly) : (s.closeDocument uri).1.Orderly :=
  Booked.erase h.cancel fun _ hw => ((mem_sleepers_cancel h).1 hw).2

/-- Tasks of different documents, all of which wait. -/
structure Awaited (sleepers l : List (Sleeper τ)) : Prop where
  sleeping : ∀ w ∈ l, w ∈ sleepers
  apart : l.Pairwise fun v w => v.uri ≠ w.uri

theorem due_perm_cases [TimeScale τ] (s : Session τ κ) (now : τ) :
    (s.due now).Perm (s.sleepers.filter fun w => TimeScale.le w.due now) ∨
      (s.due now).Perm s.sleepers := by
  have hready := List.mergeSort_perm (s.sleepers.filter fun w => TimeScale.le w.due now)
    fun v w => TimeScale.le v.due w.due
  unfold due
  simp only [List.partition_eq_filter_filter]
  split
  · exact .inl (by rwa [List.append_nil])
  · exact .inr ((hready.append_right _).trans (List.filter_append_perm _ _))

theorem Orderly.awaited_due [TimeScale τ] (h : s.Orderly) (now : τ) :
    Awaited s.sleepers (s.due now) := by
  obtain hperm | hperm := s.due_perm_cases now
  · exact ⟨fun w hw => (List.mem_filter.1 (hperm.mem_iff.1 hw)).1,
      (hperm.pairwise_iff Ne.symm).2 (h.single.filter _)⟩
  · exact ⟨fun w hw => hperm.mem_iff.1 hw, (hperm.pairwise_iff Ne.symm).2 h.single⟩

variable [DecidableEq κ] [Digest κ]

theorem exists_validate_eq (check : Checker) (s : Session τ κ) (uri text : String) (force : Bool) :
    ∃ cache, (s.validate check uri text force).1 = { s with cache } := by
  have hanalyze : ∃ cache, (s.analyze check uri text).1 = { s with cache } := by
    rw [analyze_fst]
    split
    · exact ⟨_, rfl⟩
    · exact ⟨s.cache, rfl⟩
  unfold validate
  split
  · exact ⟨s.cache, rfl⟩
  · exact hanalyze

section Tasks

variable [Disk]

theorem exists_saveDocument_eq (check : Checker) (s : Session τ κ) (uri : String) :
    ∃ cache, (s.saveDocument check uri).1 = { s with cache } := by
  unfold saveDocument
  split
  · exact exists_validate_eq check s uri _ false
  · exact ⟨s.cache, rfl⟩

theorem exists_wake_eq (check : Checker) (s : Session τ κ) (uri : String) :
    ∃ cache tasks, (s.wake check uri).1 = { s with cache, tasks } ∧
      (tasks = s.tasks ∨ tasks = s.tasks.erase uri) := by
  obtain ⟨cache, hcache⟩ := exists_saveDocument_eq check s uri
  unfold wake
  dsimp only
  rw [hcache]
  split
  · exact ⟨cache, _, rfl, .inr rfl⟩
  · exact ⟨cache, _, rfl, .inl rfl⟩

theorem sleepers_wake (s : Session τ κ) (uri : String) :
    (s.wake check uri).1.sleepers = s.sleepers := by
  obtain ⟨cache, tasks, heq, _⟩ := exists_wake_eq check s uri
  rw [heq]

theorem mem_sleepers_resume (h : s.Orderly) (hw : w ∈ s.sleepers) :
    v ∈ (s.resume check w).1.sleepers ↔ v ∈ s.sleepers ∧ v.uri ≠ w.uri := by
  rw [resume, sleepers_wake]
  exact h.mem_filter_task (h.stored w hw)

theorem Awaited.resume (hs : s.Orderly) (h : Awaited s.sleepers (w :: l)) :
    Awaited (s.resume check w).1.sleepers l := by
  obtain ⟨hne, hapart⟩ := List.pairwise_cons.1 h.apart
  refine ⟨fun v hv => ?_, hapart⟩
  exact (mem_sleepers_resume hs (h.sleeping w List.mem_cons_self)).2
    ⟨h.sleeping v (List.mem_cons_of_mem _ hv), (hne v hv).symm⟩

end Tasks

namespace Orderly

theorem validate {force : Bool} (h : s.Orderly) : (s.validate check uri text force).1.Orderly := by
  obtain ⟨cache, hcache⟩ := exists_validate_eq check s uri text force
  rw [hcache]
  exact h

theorem openDocument (h : s.Orderly) : (s.openDocument check uri text).1.Orderly :=
  validate h

variable [Disk]

theorem saveDocument (h : s.Orderly) : (s.saveDocument check uri).1.Orderly := by
  obtain ⟨cache, hcache⟩ := exists_saveDocument_eq check s uri
  rw [hcache]
  exact h

theorem wake (h : s.Orderly) (hnone : ∀ w ∈ s.sleepers, w.uri ≠ uri) :
    (s.wake check uri).1.Orderly := by
  obtain ⟨cache, tasks, heq, rfl | rfl⟩ := exists_wake_eq check s uri
  · rw [heq]
    exact h
  · rw [heq]
    exact h.erase hnone

theorem resume (h : s.Orderly) (hw : w ∈ s.sleepers) : (s.resume check w).1.Orderly :=
  wake (h.filter _) fun _ hv => ((h.mem_filter_task (h.stored w hw)).1 hv).2

theorem resumeAll (h : s.Orderly) (hl : Awaited s.sleepers l) :
    (s.resumeAll check l).1.Orderly := by
  induction l generalizing s with
  | nil => exact h
  | cons w rest ih => exact ih (h.resume (hl.sleeping w List.mem_cons_self)) (hl.resume h)

variable [TimeScale τ]

theorem schedule (h : s.Orderly) (hnone : ∀ w ∈ s.sleepers, w.uri ≠ uri) :
    (s.schedule check uri).1.Orderly := by
  have hinsert := h.insert hnone
  unfold Session.schedule
  dsimp only
  split
  · exact wake hinsert hnone
  · exact hinsert.concat hnone (Table.get?_insert_self _ _ _)

theorem changeDocument (h : s.Orderly) : (s.changeDocument check uri text).1.Orderly := by
  have hput : Orderly { s with documents := s.documents.insert uri text } := h
  unfold Session.changeDocument
  dsimp only
  split
  · exact schedule hput.cancel fun _ hw => ((mem_sleepers_cancel hput).1 hw).2
  · exact h

theorem advance {delay : τ} (h : s.Orderly) : (s.advance check delay).1.Orderly :=
  resumeAll h (h.awaited_due _)

theorem handle (h : s.Orderly) (e : Event τ) : (s.handle check e).1.Orderly := by
  cases e with
  | started options =>
    obtain ⟨settings, hsettings, _⟩ := exists_start_eq s options
    rw [Session.handle, hsettings]
    exact h
  | configure options =>
    obtain ⟨settings, hsettings, _⟩ := exists_configure_eq s options
    rw [Session.handle, hsettings]
    exact h
  | opened uri text => exact h.openDocument
  | changed uri text => exact h.changeDocument
  | saved uri => exact h.saveDocument
  | closed uri => exact h.closeDocument
  | validate uri text force => exact h.validate
  | advance delay => exact h.advance

end Orderly

theorem Reached.orderly [Disk] [TimeScale τ] (h : Reached check s) : s.Orderly := by
  induction h with
  | fresh =>
    have hnone : ∀ uri task, ({} : Table Nat).get? uri ≠ some task := by simp
    exact ⟨fun u task hu => absurd hu (hnone u task), fun u _ task hu => absurd hu (hnone u task),
      by simp [Session.fresh], List.Pairwise.nil⟩
  | event h e ih => exact ih.handle e
  | pass h delay ih => exact ih
  | resume h hw ih => exact ih.resume hw

end DefiniteAssignment.Editor.Session
