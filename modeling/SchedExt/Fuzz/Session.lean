import Mathlib.Algebra.BigOperators.Group.List.Basic
import Mathlib.Algebra.Ring.Nat
import SchedExt.Fuzz.Generator
import SchedExt.Fuzz.Oracle

/-!
# Sessions of the fuzzer

A session draws an event, applies it and checks the state, for as long as its
time lasts.  Its results are those of a replay of the corpus, and the exit
status is the verdict of the specification on every state that was reached.
-/

namespace SchedExt.Fuzz

open Domain Foundations

/-- The variables of `run_fuzz`, and the files of its corpus by their number. -/
structure Session where
  state : FuzzState
  iterations : Nat
  crashes : Nat
  invariantViolations : Nat
  interesting : List (FuzzEvent × List String)
  corpus : List FuzzEvent
  saved : Dict Nat (List FuzzEvent)

/-- `corpus[-count:]` -/
def lastOf (count : Nat) (corpus : List FuzzEvent) : List FuzzEvent :=
  corpus.drop (corpus.length - count)

/-- The state in which a session begins. -/
def FuzzConfig.initial (config : FuzzConfig) : FuzzState :=
  emptyState (Finset.range (min 4 config.maxCpus))

/-- A session before its first event; earlier ones may have left files. -/
def Session.begun (config : FuzzConfig) (left : Dict Nat (List FuzzEvent)) : Session where
  state := config.initial
  iterations := 0
  crashes := 0
  invariantViolations := 0
  interesting := []
  corpus := []
  saved := left

/-- An iteration of `run_fuzz` on its event. -/
def Session.observe (session : Session) (event : FuzzEvent) : Session :=
  let corpus := session.corpus ++ [event]
  let state := applyEvent session.state event
  let violations := checkInvariants state
  if violations = [] then
    { session with
      state := state
      corpus := corpus
      iterations := session.iterations + 1 }
  else
    { session with
      state := state
      corpus := corpus
      invariantViolations := session.invariantViolations + violations.length
      interesting := session.interesting ++ [(event, violations)]
      saved := session.saved.set session.iterations (lastOf 20 corpus)
      iterations := session.iterations + 1 }

/-- An iteration draws its event. -/
inductive Iteration (config : FuzzConfig) : Session → FuzzEvent → Session → Prop where
  | drawn {session : Session} {event : FuzzEvent} {draws rest : List Nat}
      (generated : generateEvent config session.state.activePids session.state.activeCpus draws =
        some (event, rest)) :
      Iteration config session event (session.observe event)

structure FuzzResult where
  iterations : Nat
  crashes : Nat
  invariantViolations : Nat
  interestingInputs : List (FuzzEvent × List String)

def Session.result (session : Session) : FuzzResult where
  iterations := session.iterations
  crashes := session.crashes
  invariantViolations := session.invariantViolations
  interestingInputs := session.interesting.take 10

/-- The exit status of `main`. -/
def FuzzResult.exitStatus (result : FuzzResult) : Nat :=
  if result.invariantViolations > 0 ∨ result.crashes > 0 then 1 else 0

/-! ## The tasks and processors of a session -/

/-- A task as some event has left it. -/
structure Drawn (config : FuzzConfig) (clock : Nat) (entry : Nat × FuzzTask) : Prop where
  runnable : entry.2.state = .runnable
  pid : 1 ≤ entry.1 ∧ entry.1 ≤ config.maxTasks * 10
  weight : config.minWeight ≤ entry.2.weight ∧ entry.2.weight ≤ config.maxWeight
  waiting : entry.2.enqueueTime ≤ clock

/-- The active identifiers are the keys, and some processor of the machine is active. -/
structure Kept (config : FuzzConfig) (state : FuzzState) : Prop where
  pids : ∀ pid, pid ∈ state.activePids ↔ pid ∈ state.tasks.keys
  tasks : ∀ entry ∈ state.tasks.entries, Drawn config state.clock entry
  active : state.activeCpus.Nonempty
  existing : ∀ cpu ∈ state.activeCpus, cpu < config.maxCpus

variable {config : FuzzConfig} {state : FuzzState} {event : FuzzEvent}

theorem Kept.advance (kept : Kept config state) (time : Nat) :
    Kept config { state with clock := state.clock + time } where
  pids := kept.pids
  tasks := fun entry member =>
    { kept.tasks entry member with
      waiting := (kept.tasks entry member).waiting.trans (Nat.le_add_right _ _) }
  active := kept.active
  existing := kept.existing

theorem Kept.dispatched (kept : Kept config state) : Kept config state.dispatched := by
  unfold FuzzState.dispatched
  split
  · exact kept
  · rename_i pid task chosen
    have member := mem_entries_of_mem_runnable (List.argmin_mem chosen)
    have known := kept.tasks _ member
    refine ⟨fun other => ?_, Dict.forall_set kept.tasks ?_, kept.active, kept.existing⟩
    · rw [Dict.mem_keys_set, kept.pids]
      have key : pid ∈ state.tasks.keys := List.mem_map_of_mem member
      exact ⟨.inr, fun either => either.elim (fun same => same ▸ key) id⟩
    · exact ⟨known.runnable, known.pid, known.weight, Nat.le_refl _⟩

theorem Kept.applyEvent (kept : Kept config state)
    (fitting : Fitting config state.activePids state.activeCpus event ∨ event = .tick 0) :
    Kept config (applyEvent state event) := by
  have advanced := kept.advance 1000000
  cases event with
  | enqueue pid vruntime weight flags =>
      obtain ⟨pidIn, -, weightIn⟩ := fitting.resolve_right FuzzEvent.noConfusion
      refine ⟨fun other => ?_, Dict.forall_set advanced.tasks ?_, kept.active, kept.existing⟩
      · exact Finset.mem_insert.trans ((or_congr_right (kept.pids other)).trans
          Dict.mem_keys_set.symm)
      · exact ⟨rfl, pidIn, weightIn, Nat.le_refl _⟩
  | dispatch cpu => exact advanced.dispatched
  | tick cpu => exact advanced
  | taskDead pid =>
      unfold Fuzz.applyEvent
      dsimp only
      split
      · refine ⟨fun other => ?_, fun entry member => ?_, kept.active, kept.existing⟩
        · exact Finset.mem_erase.trans ((and_congr_right fun _ => kept.pids other).trans
            Dict.mem_keys_erase.symm)
        · exact advanced.tasks entry (List.mem_of_mem_filter member)
      · exact advanced
  | cpuOffline cpu =>
      obtain ⟨present, several⟩ := fitting.resolve_right FuzzEvent.noConfusion
      refine ⟨kept.pids, advanced.tasks, ?_, fun other member => ?_⟩
      · refine Finset.card_pos.mp ?_
        change 0 < (state.activeCpus.erase cpu).card
        rw [Finset.card_erase_of_mem present]
        exact Nat.sub_pos_of_lt several
      · exact kept.existing other (Finset.mem_of_mem_erase member)
  | cpuOnline cpu =>
      obtain ⟨within, -⟩ := fitting.resolve_right FuzzEvent.noConfusion
      refine ⟨kept.pids, advanced.tasks, Finset.insert_nonempty _ _, fun other member => ?_⟩
      rcases Finset.mem_insert.mp member with rfl | active
      · exact within
      · exact kept.existing other active

theorem kept_initial (someCpu : 0 < config.maxCpus) : Kept config config.initial where
  pids := fun pid => iff_of_false (Finset.notMem_empty pid) List.not_mem_nil
  tasks := fun _ member => nomatch member
  active := ⟨0, Finset.mem_range.mpr (Nat.lt_min.mpr ⟨by decide, someCpu⟩)⟩
  existing := fun _ member =>
    (Finset.mem_range.mp member).trans_le (Nat.min_le_right _ _)

/-! ## What an iteration changes -/

section Observe

variable (session : Session) (event : FuzzEvent)

theorem Session.state_observe :
    (session.observe event).state = applyEvent session.state event := by
  unfold Session.observe
  dsimp only
  split <;> rfl

theorem Session.corpus_observe : (session.observe event).corpus = session.corpus ++ [event] := by
  unfold Session.observe
  dsimp only
  split <;> rfl

theorem Session.iterations_observe :
    (session.observe event).iterations = session.iterations + 1 := by
  unfold Session.observe
  dsimp only
  split <;> rfl

theorem Session.crashes_observe : (session.observe event).crashes = session.crashes := by
  unfold Session.observe
  dsimp only
  split <;> rfl

theorem Session.invariantViolations_observe :
    (session.observe event).invariantViolations =
      session.invariantViolations + (checkInvariants (applyEvent session.state event)).length := by
  unfold Session.observe
  dsimp only
  split
  · rename_i silent
    rw [silent]
    rfl
  · rfl

theorem Session.interesting_observe :
    (session.observe event).interesting = session.interesting ++
      if checkInvariants (applyEvent session.state event) = [] then []
      else [(event, checkInvariants (applyEvent session.state event))] := by
  unfold Session.observe
  dsimp only
  split
  · exact (List.append_nil _).symm
  · rfl

theorem Session.saved_observe (number : Nat) :
    (session.observe event).saved.get? number =
      if number = session.iterations ∧ checkInvariants (applyEvent session.state event) ≠ [] then
        some (lastOf 20 (session.corpus ++ [event]))
      else session.saved.get? number := by
  unfold Session.observe
  dsimp only
  split
  · rename_i silent
    exact (if_neg fun reported => reported.2 silent).symm
  · rename_i reported
    by_cases same : number = session.iterations
    · rw [if_pos ⟨same, reported⟩, same, Dict.get?_set_self]
    · rw [if_neg fun both => same both.1, Dict.get?_set_of_ne _ same]

end Observe

variable {left : Dict Nat (List FuzzEvent)} {session : Session}
variable {history : List (Transition Session FuzzEvent)}

theorem kept_of_run (someCpu : 0 < config.maxCpus)
    (run : Run (Iteration config) (.begun config left) history session) :
    Kept config session.state := by
  induction run with
  | refl => exact kept_initial someCpu
  | tail earlier last kept =>
      cases last with
      | drawn generated =>
          rw [Session.state_observe]
          exact kept.applyEvent ((generateEvent_fitting generated).imp_right And.left)

/-- Two tasks of one weight, whose virtual runtimes are 20 ms apart. -/
def apartEnqueues : List FuzzEvent :=
  [.enqueue 1 0 1024 ⟨true, false⟩, .enqueue 2 20000000 1024 ⟨true, false⟩]

def apartSession : Session := apartEnqueues.foldl Session.observe (.begun {} Dict.empty)

theorem run_apartEnqueues : Run (Iteration {}) (.begun {} Dict.empty)
    (trace Session.observe (.begun {} Dict.empty) apartEnqueues) apartSession := by
  have first : ∀ pids cpus, generateEvent {} pids cpus [0, 1, 0, 1024, 0, 1] =
      some (.enqueue 1 0 1024 ⟨true, false⟩, []) := fun _ _ => rfl
  have second : ∀ pids cpus, generateEvent {} pids cpus [0, 2, 20000000, 1024, 0, 1] =
      some (.enqueue 2 20000000 1024 ⟨true, false⟩, []) := fun _ _ => rfl
  exact .tail (.tail .refl (.drawn (first _ _))) (.drawn (second _ _))

/-- In a session the generator draws the events that fit, and no others. -/
theorem generateEvent_iff_of_run (someCpu : 0 < config.maxCpus)
    (standard : config.events = eventNames)
    (run : Run (Iteration config) (.begun config left) history session) :
    Kept config session.state ∧
      ∀ event, (∃ draws rest, generateEvent config session.state.activePids
          session.state.activeCpus draws = some (event, rest)) ↔
        Fitting config session.state.activePids session.state.activeCpus event := by
  have kept := kept_of_run someCpu run
  refine ⟨kept, fun event => ⟨?_, fun fitting => ?_⟩⟩
  · rintro ⟨draws, rest, generated⟩
    rcases generateEvent_fitting generated with fitting | ⟨rfl, none | none | ⟨name, known, new⟩⟩
    · exact fitting
    · exact absurd none kept.active.ne_empty
    · -- With every processor active, the tick of processor 0 is one of an active processor.
      by_contra inactive
      have offline : 0 ∈ offlineCpus config session.state.activeCpus :=
        mem_offlineCpus.mpr ⟨someCpu, inactive⟩
      rw [none] at offline
      exact nomatch offline
    · exact absurd (standard ▸ known) new
  · obtain ⟨draws, generated⟩ := exists_draws_of_fitting (fun name member => standard ▸ member)
      fitting
    exact ⟨draws, [], generated⟩

/-- After the two, task 2 can die and task 3 cannot. -/
theorem apartSession_draws :
    (∃ draws rest, generateEvent {} apartSession.state.activePids apartSession.state.activeCpus
      draws = some (.taskDead 2, rest)) ∧
    ¬ ∃ draws rest, generateEvent {} apartSession.state.activePids apartSession.state.activeCpus
      draws = some (.taskDead 3, rest) := by
  have fits := (generateEvent_iff_of_run (by decide) rfl run_apartEnqueues).2
  have pids : apartSession.state.activePids = {2, 1} := by decide
  rw [fits, fits, Fitting, Fitting, pids]
  exact ⟨by decide, by decide⟩

/-! ## Replaying the corpus -/

/-- The state after the events of a corpus. -/
def replay (config : FuzzConfig) (corpus : List FuzzEvent) : FuzzState :=
  corpus.foldl applyEvent config.initial

/-- What the checker reports after the event of a number. -/
def violationsAfter (config : FuzzConfig) (corpus : List FuzzEvent) (number : Nat) : List String :=
  checkInvariants (replay config (corpus.take (number + 1)))

/-- The entry of an event among the interesting ones. -/
def interestingAt (config : FuzzConfig) (corpus : List FuzzEvent) (number : Nat) :
    Option (FuzzEvent × List String) :=
  if violationsAfter config corpus number = [] then none
  else corpus[number]?.map fun event => (event, violationsAfter config corpus number)

/-- The results of a session, as a replay of its corpus gives them. -/
structure Replayed (config : FuzzConfig) (left : Dict Nat (List FuzzEvent)) (session : Session) :
    Prop where
  state : session.state = replay config session.corpus
  iterations : session.iterations = session.corpus.length
  crashes : session.crashes = 0
  violations : session.invariantViolations =
    ((List.range session.corpus.length).map fun number =>
      (violationsAfter config session.corpus number).length).sum
  interesting : session.interesting =
    (List.range session.corpus.length).filterMap (interestingAt config session.corpus)
  saved : ∀ number, session.saved.get? number =
    if number < session.corpus.length ∧ violationsAfter config session.corpus number ≠ [] then
      some (lastOf 20 (session.corpus.take (number + 1)))
    else left.get? number

theorem violationsAfter_append {corpus : List FuzzEvent} {number : Nat}
    (inside : number < corpus.length) (event : FuzzEvent) :
    violationsAfter config (corpus ++ [event]) number = violationsAfter config corpus number := by
  rw [violationsAfter, List.take_append_of_le_length inside]
  rfl

theorem violationsAfter_concat (corpus : List FuzzEvent) (event : FuzzEvent) :
    violationsAfter config (corpus ++ [event]) corpus.length =
      checkInvariants (applyEvent (replay config corpus) event) := by
  rw [violationsAfter, List.take_of_length_le (by simp), replay, List.foldl_concat]
  rfl

theorem interestingAt_append {corpus : List FuzzEvent} {number : Nat}
    (inside : number < corpus.length) (event : FuzzEvent) :
    interestingAt config (corpus ++ [event]) number = interestingAt config corpus number := by
  rw [interestingAt, violationsAfter_append inside, List.getElem?_append_left inside]
  rfl

theorem Replayed.observe (replayed : Replayed config left session) (event : FuzzEvent) :
    Replayed config left (session.observe event) := by
  obtain ⟨state, iterations, crashes, violations, interesting, saved⟩ := replayed
  have last := @violationsAfter_concat config session.corpus event
  rw [← state] at last
  have longer : (session.corpus ++ [event]).length = session.corpus.length + 1 :=
    List.length_append
  constructor
  · rw [Session.state_observe, Session.corpus_observe, replay, List.foldl_concat, state]
    rfl
  · rw [Session.iterations_observe, Session.corpus_observe, longer, iterations]
  · rw [Session.crashes_observe, crashes]
  · rw [Session.invariantViolations_observe, Session.corpus_observe, longer, List.range_succ,
      List.map_append, List.sum_append, List.map_singleton, List.sum_singleton, last, violations]
    congr 2
    refine List.map_congr_left fun number member => ?_
    rw [violationsAfter_append (List.mem_range.mp member)]
  · rw [Session.interesting_observe, Session.corpus_observe, longer, List.range_succ,
      List.filterMap_append, interesting]
    congr 1
    · refine List.filterMap_congr fun number member => ?_
      rw [interestingAt_append (List.mem_range.mp member)]
    · rw [List.filterMap_cons, List.filterMap_nil, interestingAt, last,
        List.getElem?_concat_length]
      split
      · rfl
      · rfl
  · intro number
    rw [Session.saved_observe, Session.corpus_observe, saved number, iterations, longer]
    rcases Nat.lt_trichotomy number session.corpus.length with earlier | rfl | later
    · rw [if_neg fun both => earlier.ne both.1, violationsAfter_append earlier,
        List.take_append_of_le_length earlier]
      refine if_congr (and_congr_left fun _ => ?_) rfl rfl
      exact iff_of_true earlier (Nat.lt_succ_of_lt earlier)
    · have fresh : ¬ (session.corpus.length < session.corpus.length ∧
          violationsAfter config session.corpus session.corpus.length ≠ []) :=
        fun both => Nat.lt_irrefl _ both.1
      rw [last, List.take_of_length_le longer.le, if_neg fresh]
      refine if_congr (and_congr_left fun _ => ?_) rfl rfl
      exact iff_of_true rfl (Nat.lt_succ_self _)
    · rw [if_neg fun both => later.ne' both.1, if_neg fun both => Nat.lt_asymm later both.1,
        if_neg fun both => Nat.not_lt_of_le later both.1]

/-- The corpus replays every result of a session. -/
theorem replayed_of_run (run : Run (Iteration config) (.begun config left) history session) :
    session.corpus = history.map Transition.event ∧ Replayed config left session := by
  induction run with
  | refl =>
      refine ⟨rfl, rfl, rfl, rfl, rfl, rfl, fun number => ?_⟩
      exact (if_neg fun both => Nat.not_lt_zero _ both.1).symm
  | @tail history session next event earlier last ih =>
      cases last with
      | drawn generated =>
          obtain ⟨corpus, replayed⟩ := ih
          rw [Session.corpus_observe, corpus, List.map_append]
          exact ⟨rfl, replayed.observe event⟩

/-- The second enqueue is reported, and its file holds both. -/
theorem apartSession_replayed :
    apartSession.corpus = apartEnqueues ∧ apartSession.saved.get? 1 = some apartEnqueues := by
  obtain ⟨corpus, replayed⟩ := replayed_of_run run_apartEnqueues
  have whole : apartSession.corpus = apartEnqueues := corpus
  have reported : violationsAfter {} apartEnqueues 1 ≠ [] := by decide
  refine ⟨whole, ?_⟩
  rw [replayed.saved, whole, if_pos ⟨by decide, reported⟩]
  rfl

/-! ## The exit status -/

/-- No runnable task has waited longer than the starvation bound. -/
def NoLongWait (s : Fair.SchedState) : Prop :=
  ∀ t ∈ s.allTasks, t.state = .runnable → (s.clock : Int) - t.enqueueTime ≤ Fair.starvationBound

theorem noLongWait_iff {s : Fair.SchedState} (sound : TasksSound state)
    (corresponds : Corresponds state s) :
    NoLongWait s ↔ ∀ entry ∈ state.runnable, entry.2.wait state.clock ≤ 500000000 := by
  obtain ⟨affinity, records⟩ := corresponds.records
  constructor
  · intro served entry member
    have entryIn := mem_entries_of_mem_runnable member
    have wait := served _ ((records _).mpr (List.mem_map_of_mem entryIn)) (sound _ entryIn).runnable
    rw [corresponds.clock] at wait
    exact wait
  · intro served t member _
    obtain ⟨entry, entryIn, rfl⟩ := List.mem_map.mp ((records t).mp member)
    rw [corresponds.clock]
    exact served entry (sound.mem_runnable entryIn)

/-- The checker is silent on a state when its specification states are fair and served. -/
theorem silent_iff (sound : TasksSound state) :
    checkInvariants state = [] ↔
      ∀ s, Corresponds state s → Fair.Fairness s ∧ NoLongWait s := by
  rw [checkInvariants_eq_nil_iff]
  constructor
  · rintro ⟨within, served⟩ s corresponds
    exact ⟨(fairness_iff sound corresponds).mpr within,
      (noLongWait_iff sound corresponds).mpr served⟩
  · intro each
    obtain ⟨s, corresponds, -, -⟩ := exists_corresponds sound
    obtain ⟨fair, served⟩ := each s corresponds
    exact ⟨(fairness_iff sound corresponds).mp fair, (noLongWait_iff sound corresponds).mp served⟩

theorem Kept.tasksSound (positive : 1 ≤ config.minWeight) (bounded : config.maxWeight ≤ 1024)
    (kept : Kept config state) : TasksSound state := by
  intro entry member
  have known := kept.tasks entry member
  exact ⟨known.runnable, positive.trans known.weight.1, known.weight.2.trans bounded⟩

theorem invariantViolations_eq_zero_iff
    (run : Run (Iteration config) (.begun config left) history session) :
    session.invariantViolations = 0 ↔
      ∀ taken ∈ history, checkInvariants taken.target.state = [] := by
  induction run with
  | refl => exact iff_of_true rfl fun _ member => nomatch member
  | @tail history session next event earlier last ih =>
      cases last with
      | drawn generated =>
          rw [Session.invariantViolations_observe, Nat.add_eq_zero_iff, ih,
            List.length_eq_zero_iff, List.forall_mem_append, List.forall_mem_singleton,
            Session.state_observe]

/-- A session succeeds when the specification accepts every state that it reached. -/
theorem exitStatus_eq_zero_iff (someCpu : 0 < config.maxCpus) (positive : 1 ≤ config.minWeight)
    (bounded : config.maxWeight ≤ 1024)
    (run : Run (Iteration config) (.begun config left) history session) :
    session.result.exitStatus = 0 ↔
      ∀ taken ∈ history, ∀ s, Corresponds taken.target.state s →
        Fair.Fairness s ∧ NoLongWait s := by
  have crashes : session.crashes = 0 := (replayed_of_run run).2.crashes
  have status : session.result.exitStatus = 0 ↔ session.invariantViolations = 0 := by
    unfold FuzzResult.exitStatus Session.result
    dsimp only
    rw [crashes]
    simp [Nat.pos_iff_ne_zero]
  rw [status, invariantViolations_eq_zero_iff run]
  refine forall₂_congr fun taken member => silent_iff ?_
  obtain ⟨before, after, rfl⟩ := List.append_of_mem member
  obtain ⟨earlier, last, -⟩ := run.split
  exact (kept_of_run someCpu (earlier.tail last)).tasksSound positive bounded

/-- The session of the two enqueues fails, since it reaches an unfair state. -/
theorem apartSession_unfair :
    ¬ ∀ taken ∈ trace Session.observe (.begun {} Dict.empty) apartEnqueues, ∀ s,
        Corresponds taken.target.state s → Fair.Fairness s ∧ NoLongWait s := by
  rw [← exitStatus_eq_zero_iff (by decide) (by decide) (by decide) run_apartEnqueues]
  decide

end SchedExt.Fuzz
