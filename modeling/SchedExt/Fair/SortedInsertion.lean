import SchedExt.Fair.PriorityService

/-!
# Sorted insertion is stable

The search loop of `SortedInsert` as turns of its guard, with the declared loop
invariant.  What holds where the guard fails at the index of the exit holds of
the whole rest of a sorted queue, so the arriving task stands after every task
that is not larger and before every larger one.
-/

namespace SchedExt.Fair.ConcreteScheduler

variable {queue : List Task} {t : Task} {idx exit : Nat}

/-- Turns of the search loop from a value of `idx` to its value on exit. -/
inductive SearchLoop (queue : List Task) (t : Task) : Nat → Nat → Prop where
  | stop (idx : Nat)
      (done : ∀ inside : idx < queue.length, ¬ queue[idx].vruntime ≤ t.vruntime) :
      SearchLoop queue t idx idx
  | turn (idx exit : Nat) (inside : idx < queue.length)
      (passes : queue[idx].vruntime ≤ t.vruntime)
      (rest : SearchLoop queue t (idx + 1) exit) :
      SearchLoop queue t idx exit

/-- The `invariant` clauses of the search loop. -/
structure SearchInvariant (queue : List Task) (t : Task) (idx : Nat) : Prop where
  bound : idx ≤ queue.length
  passed : ∀ i (inside : i < queue.length), i < idx → queue[i].vruntime ≤ t.vruntime

/-- The invariant holds on entry. -/
theorem searchInvariant_zero (queue : List Task) (t : Task) : SearchInvariant queue t 0 where
  bound := Nat.zero_le queue.length
  passed := fun _ _ before => absurd before (Nat.not_lt_zero _)

/-- The variant of the loop falls, so the loop ends at the computed index. -/
theorem searchLoop_insertionIndex (queue : List Task) (t : Task) (idx : Nat) :
    SearchLoop queue t idx (insertionIndex queue t idx) := by
  induction idx using insertionIndex.induct queue t with
  | case1 idx inside passes ih =>
      rw [insertionIndex, dif_pos inside, if_pos passes]
      exact .turn idx _ inside passes ih
  | case2 idx inside larger =>
      rw [insertionIndex, dif_pos inside, if_neg larger]
      exact .stop idx fun _ => larger
  | case3 idx outside =>
      rw [insertionIndex, dif_neg outside]
      exact .stop idx fun inside => absurd inside outside

/-- One turn keeps the invariant. -/
theorem SearchInvariant.turn (holds : SearchInvariant queue t idx)
    (inside : idx < queue.length) (passes : queue[idx].vruntime ≤ t.vruntime) :
    SearchInvariant queue t (idx + 1) where
  bound := inside
  passed := by
    intro i _ before
    rcases Nat.lt_succ_iff_lt_or_eq.mp before with earlier | rfl
    · exact holds.passed i _ earlier
    · exact passes

/-- On exit the invariant holds and the guard does not. -/
theorem SearchLoop.exit_spec (loop : SearchLoop queue t idx exit)
    (holds : SearchInvariant queue t idx) :
    SearchInvariant queue t exit ∧
      ∀ inside : exit < queue.length, ¬ queue[exit].vruntime ≤ t.vruntime := by
  induction loop with
  | stop idx done => exact ⟨holds, done⟩
  | turn idx exit inside passes rest ih => exact ih (holds.turn inside passes)

/-- In a sorted queue the failed guard reaches the whole rest of the queue. -/
theorem SearchLoop.passed_iff (loop : SearchLoop queue t 0 exit)
    (sorted : SortedInsertRequires queue) (i : Nat) (inside : i < queue.length) :
    queue[i].vruntime ≤ t.vruntime ↔ i < exit := by
  obtain ⟨holds, larger⟩ := loop.exit_spec (searchInvariant_zero queue t)
  constructor
  · intro notLarger
    by_contra beyond
    have reached : exit ≤ i := Nat.not_lt.mp beyond
    have stopped := larger (reached.trans_lt inside)
    rcases Nat.lt_or_eq_of_le reached with after | rfl
    · exact stopped ((sorted exit i after inside).trans notLarger)
    · exact stopped notLarger
  · intro before
    exact holds.passed i inside before

/--
What a stable sorted insertion at `idx` is.  Besides the `ensures` clauses of
`SortedInsert` it says where every task of the result stands.
-/
structure StableInsertion (queue : List Task) (t : Task) (idx : Nat) (result : List Task) :
    Prop where
  bound : idx ≤ queue.length
  concatenation : result = queue.take idx ++ [t] ++ queue.drop idx
  sorted : ∀ i j (_ : i < j) (inside : j < result.length), result[i].vruntime ≤ result[j].vruntime
  contents : (result : Multiset Task) = (queue : Multiset Task) + {t}
  length : result.length = queue.length + 1
  arrival : result[idx]? = some t
  kept : result.eraseIdx idx = queue
  notLarger : ∀ i (inside : i < queue.length), queue[i].vruntime ≤ t.vruntime →
    i < idx ∧ result[i]? = some queue[i]
  larger : ∀ i (inside : i < queue.length), t.vruntime < queue[i].vruntime →
    idx < i + 1 ∧ result[i + 1]? = some queue[i]

/-- The result is the queue with the task put in at the index. -/
theorem sortedInsert_eq_insertIdx (bound : insertionIndex queue t 0 ≤ queue.length) :
    sortedInsert queue t = queue.insertIdx (insertionIndex queue t 0) t := by
  obtain ⟨front, back, whole, size, placed⟩ := List.exists_of_modifyTailIdx (List.cons t) bound
  unfold sortedInsert List.insertIdx
  dsimp only
  rw [placed, ← size, whole, List.take_left, List.drop_left, List.append_assoc]
  rfl

/-- Placement into a sorted queue leaves it sorted. -/
theorem insertIdx_sorted (sorted : SortedInsertRequires queue)
    (passed : ∀ i (inside : i < queue.length), queue[i].vruntime ≤ t.vruntime ↔ i < idx) :
    SortedInsertRequires (queue.take idx ++ [t] ++ queue.drop idx) := by
  rw [sortedInsertRequires_iff_pairwise] at sorted ⊢
  have below : ∀ earlier ∈ queue.take idx, earlier.vruntime ≤ t.vruntime := by
    intro earlier member
    obtain ⟨i, inside, rfl⟩ := List.getElem_of_mem member
    rw [List.length_take] at inside
    rw [List.getElem_take]
    exact (passed i _).mpr (by omega)
  have above : ∀ later ∈ queue.drop idx, t.vruntime ≤ later.vruntime := by
    intro later member
    obtain ⟨i, inside, rfl⟩ := List.getElem_of_mem member
    rw [List.length_drop] at inside
    rw [List.getElem_drop]
    have stays : ¬ idx + i < idx := by omega
    exact (Nat.not_le.mp (mt (passed (idx + i) (by omega)).mp stays)).le
  have across : ∀ earlier ∈ queue.take idx, ∀ later ∈ queue.drop idx,
      earlier.vruntime ≤ later.vruntime := by
    intro earlier before later after
    exact (below earlier before).trans (above later after)
  rw [List.append_assoc, List.pairwise_append]
  refine ⟨sorted.sublist (List.take_sublist idx queue), ?_, ?_⟩
  · exact List.pairwise_cons.mpr ⟨above, sorted.sublist (List.drop_sublist idx queue)⟩
  · intro earlier before later after
    rcases List.mem_cons.mp after with rfl | behind
    · exact below earlier before
    · exact across earlier before later behind

/-- From a sorted queue the loop ends, and the insertion at its index is stable. -/
theorem sortedInsert_stable (queue : List Task) (t : Task)
    (sorted : SortedInsertRequires queue) :
    ∃ idx, SearchLoop queue t 0 idx ∧ StableInsertion queue t idx (sortedInsert queue t) := by
  have loop := searchLoop_insertionIndex queue t 0
  have passed := loop.passed_iff sorted
  have bound := (loop.exit_spec (searchInvariant_zero queue t)).1.bound
  have inserted := sortedInsert_eq_insertIdx bound
  refine ⟨_, loop, ?_⟩
  constructor
  case bound => exact bound
  case concatenation => rfl
  case sorted => exact fun i j before inside =>
      insertIdx_sorted sorted passed i j before inside
  case contents =>
      rw [inserted, Multiset.coe_eq_coe.mpr (List.perm_insertIdx t queue bound),
        ← Multiset.cons_coe, ← Multiset.singleton_add, add_comm]
  case length => rw [inserted, List.length_insertIdx_of_le_length bound]
  case arrival => rw [inserted, List.getElem?_insertIdx_self, if_pos bound]
  case kept => rw [inserted, List.eraseIdx_insertIdx_self]
  case notLarger =>
      intro i inside notLarger
      have before := (passed i inside).mp notLarger
      rw [inserted, List.getElem?_insertIdx_of_lt before]
      exact ⟨before, List.getElem?_eq_getElem inside⟩
  case larger =>
      intro i inside larger
      have stays : ¬ i < insertionIndex queue t 0 :=
        mt (passed i inside).mpr (Nat.not_le.mpr larger)
      have behind : insertionIndex queue t 0 < i + 1 := by omega
      rw [inserted, List.getElem?_insertIdx_of_gt behind]
      exact ⟨behind, List.getElem?_eq_getElem inside⟩

/-- A tie: the later arrival goes behind the task of equal virtual runtime. -/
theorem sortedInsert_tie :
    ∃ idx, SearchLoop [newTask 1 5, newTask 2 7] (newTask 3 5) 0 idx ∧
      StableInsertion [newTask 1 5, newTask 2 7] (newTask 3 5) idx
        (sortedInsert [newTask 1 5, newTask 2 7] (newTask 3 5)) := by
  apply sortedInsert_stable
  rw [sortedInsertRequires_iff_pairwise]
  decide

end SchedExt.Fair.ConcreteScheduler
