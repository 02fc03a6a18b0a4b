import Mathlib.Tactic.Linarith
import KoheronSdk.Server.Listeners

/-!
# The worker limit

`is_max_threads` compares `number_of_threads` with the configured limit, but a session
thread is only counted once it runs.  Between the test and the increment the listener may
accept other connections and test again.

So the number that is compared lags behind.  It is exactly the number of the threads that are
counted, that is, of those that stand between the increment and the decrement (`Counts`), which is
an invariant of all steps.  The threads that have been spawned and have not finished are these and
the ones that are spawned and not yet counted.  A spawn adds one to them and nothing else does; so
the limit is kept exactly when every spawn finds both kinds together below the limit.  The test in
the code looks at the first kind only.

The condition is on the state before a step, and a spawn that misses it goes beyond the limit in
the state after it: the condition is exact.  It is fulfilled when each thread is counted before
the next connection is accepted.

* `Counts`, `counts_step`: `number_of_threads` is the number of the threads that have
  incremented it and not yet decremented it.
* `throughout_unfinished_le_iff`: the limit is kept exactly when, each time a thread is
  spawned, the threads that are counted and those that are not yet counted are together
  below the limit.
-/

namespace KoheronSdk

open Transition ServerState

/-! ## Counting after an update -/

theorem countP_update {ι α : Type*} [DecidableEq ι] {l : List ι} (hnodup : l.Nodup) {i : ι}
    (hi : i ∈ l) (g : ι → α) (a : α) (p : α → Bool) :
    l.countP (fun j => p (Function.update g i a j)) + (if p (g i) then 1 else 0)
      = l.countP (fun j => p (g j)) + (if p a then 1 else 0) := by
  induction l with
  | nil => cases hi
  | cons j l ih =>
    obtain ⟨hj, hnodup'⟩ := List.nodup_cons.mp hnodup
    rw [List.countP_cons, List.countP_cons]
    by_cases hij : i = j
    · subst hij
      have hrest : l.countP (fun k => p (Function.update g i a k)) = l.countP fun k => p (g k) := by
        refine List.countP_congr fun k hk => ?_
        have hne : k ≠ i := by
          rintro rfl
          exact hj hk
        rw [Function.update_of_ne hne]
      rw [hrest, Function.update_self]
      omega
    · have hmem : i ∈ l := (List.mem_cons.mp hi).resolve_left hij
      have ih' := ih hnodup' hmem
      rw [Function.update_of_ne fun h => hij h.symm]
      omega

/-! ## Session threads -/

/-- The thread has incremented `number_of_threads` and not decremented it. -/
def ThreadAt.isCounted : ThreadAt → Bool
  | .spawned | .finished => false
  | _ => true

namespace ServerState

/-- The number of the session threads of channel `c` that satisfy `p`. -/
def countThreads (s : ServerState) (c : SockType) (p : ThreadAt → Bool) : ℕ :=
  (List.range s.numThreads).countP fun t =>
    decide ((s.threads t).channel = c) && p (s.threads t).pos

/-- The session threads that have been spawned and have not finished. -/
def unfinished (s : ServerState) (c : SockType) : ℕ := s.countThreads c (· ≠ .finished)

/-- The session threads that have been spawned and are not yet counted. -/
def uncounted (s : ServerState) (c : SockType) : ℕ := s.countThreads c (· = .spawned)

/-- A step of thread `t` changes the count by what the thread was and what it is. -/
theorem countThreads_update {s : ServerState} {t : ℕ} (ht : t < s.numThreads) (pos : ThreadAt)
    (c : SockType) (p : ThreadAt → Bool) :
    (s.setThread t pos).countThreads c p
        + (if (s.threads t).channel = c ∧ p (s.threads t).pos = true then 1 else 0)
      = s.countThreads c p + (if (s.threads t).channel = c ∧ p pos = true then 1 else 0) := by
  have h := countP_update List.nodup_range (List.mem_range.mpr ht) s.threads
    { s.threads t with pos := pos } fun th => decide (th.channel = c) && p th.pos
  simp only [Bool.and_eq_true, decide_eq_true_eq] at h
  exact h

theorem countThreads_spawn (s : ServerState) (c' : SockType) (commFd : ℕ) (c : SockType)
    (p : ThreadAt → Bool) :
    (s.spawn c' commFd).countThreads c p
      = s.countThreads c p + (if c' = c ∧ p .spawned = true then 1 else 0) := by
  have hold : (List.range s.numThreads).countP (fun t =>
      decide (((s.spawn c' commFd).threads t).channel = c) && p ((s.spawn c' commFd).threads t).pos)
      = s.countThreads c p := by
    refine List.countP_congr fun t ht => ?_
    rw [s.threads_spawn_of_ne c' (List.mem_range.mp ht).ne]
  rw [countThreads]
  change (List.range (s.numThreads + 1)).countP _ = _
  rw [List.range_succ, List.countP_append, hold, List.countP_singleton, threads_spawn_self]
  simp only [Bool.and_eq_true, decide_eq_true_eq]

/-- Unfinished threads are counted or not. -/
theorem unfinished_eq (s : ServerState) (c : SockType) :
    s.unfinished c = s.countThreads c ThreadAt.isCounted + s.uncounted c := by
  rw [unfinished, uncounted, countThreads, countThreads, countThreads]
  induction List.range s.numThreads with
  | nil => rfl
  | cons t l ih =>
    rw [List.countP_cons, List.countP_cons, List.countP_cons, ih]
    cases (s.threads t).pos <;> by_cases hc : (s.threads t).channel = c <;>
      simp [hc, ThreadAt.isCounted] <;> omega

end ServerState

/-! ## The number of threads -/

variable {workerConnections : SockType → ℕ}

/-- `number_of_threads` is the number of the threads that are counted. -/
def Counts (s : ServerState) : Prop :=
  ∀ c, (s.listeners c).numberOfThreads = s.countThreads c ThreadAt.isCounted

theorem counts_start : Counts (start workerConnections) := fun _ => rfl

/-- A thread that goes on without touching `number_of_threads`. -/
theorem countThreads_setThread_of_eq {s : ServerState} {t : ℕ} (ht : t < s.numThreads)
    {pos : ThreadAt} {p : ThreadAt → Bool} (hp : p pos = p (s.threads t).pos) (c : SockType) :
    (s.setThread t pos).countThreads c p = s.countThreads c p := by
  have h := countThreads_update ht pos c p
  rw [hp] at h
  omega

theorem numberOfThreads_setListener (s : ServerState) (c : SockType) (pos : ListenerAt)
    (c' : SockType) : ((s.setListener c pos).listeners c').numberOfThreads
      = (s.listeners c').numberOfThreads := by
  by_cases h : c' = c
  · rw [h, listeners_setListener_self]
  · rw [s.listeners_setListener_of_ne c h]

theorem numberOfThreads_addThreads (s : ServerState) (c : SockType) (n : ℤ) (c' : SockType) :
    ((s.addThreads c n).listeners c').numberOfThreads
      = (s.listeners c').numberOfThreads + (if c = c' then n else 0) := by
  by_cases h : c' = c
  · rw [h, listeners_addThreads_self, if_pos rfl]
  · rw [s.listeners_addThreads_of_ne c h, if_neg fun h' => h h'.symm, Int.add_zero]

/-- Every step keeps the count right. -/
theorem counts_step {s s' : ServerState} {l : Label} (hs : Counts s)
    (h : step workerConnections s l = some s') : Counts s' := by
  -- a listener does not touch the counter or the threads
  have hlistener : ∀ {u : ServerState} {c pos}, u.threads = s.threads →
      u.numThreads = s.numThreads → u.listeners = s.listeners → Counts (u.setListener c pos) := by
    intro u c pos hthreads hnum hlist c'
    rw [numberOfThreads_setListener, hlist, hs c']
    change _ = ((u.countThreads c' ThreadAt.isCounted : ℕ) : ℤ)
    rw [countThreads, countThreads, hthreads, hnum]
  cases step_cases h with
  | poll | failed | refused | accepted | exited | checked | noFd | atMax | admitted =>
    exact hlistener rfl rfl rfl
  | @spawn c commFd pos =>
    intro c'
    rw [numberOfThreads_setListener]
    change (s.listeners c').numberOfThreads
      = (((s.spawn c commFd).countThreads c' ThreadAt.isCounted : ℕ) : ℤ)
    rw [countThreads_spawn, hs c']
    simp [ThreadAt.isCounted]
  | @counted t lt pos =>
    intro c
    have hcount := countThreads_update lt .counted c ThreadAt.isCounted
    change ((s.addThreads (s.threads t).channel 1).listeners c).numberOfThreads
      = ((s.setThread t .counted).countThreads c ThreadAt.isCounted : ℤ)
    rw [numberOfThreads_addThreads, hs c]
    simp only [pos, ThreadAt.isCounted, and_true, Bool.false_eq_true, and_false, if_false] at hcount
    split_ifs at hcount ⊢ <;> omega
  | @finished t lt pos =>
    intro c
    have hcount := countThreads_update lt .finished c ThreadAt.isCounted
    change ((s.addThreads (s.threads t).channel (-1)).listeners c).numberOfThreads
      = ((s.setThread t .finished).countThreads c ThreadAt.isCounted : ℤ)
    rw [numberOfThreads_addThreads, hs c]
    simp only [pos, ThreadAt.isCounted, and_true, Bool.false_eq_true, and_false, if_false] at hcount
    split_ifs at hcount ⊢ <;> omega
  | created lt pos | entered lt pos | returned lt pos | deleted lt pos =>
    intro c
    refine (hs c).trans ?_
    congr 1
    exact (countThreads_setThread_of_eq lt (by rw [pos]; rfl) c).symm
  | thrown | interrupt | deleteNext | deletedAll | close | join => exact hs

/-! ## The limit -/

/-- Spawning a thread adds one unfinished thread to its channel. -/
theorem unfinished_spawn {s s' : ServerState} {c' : SockType}
    (h : step workerConnections s (.spawn c') = some s') (c : SockType) :
    s'.unfinished c = s.unfinished c + (if c' = c then 1 else 0) := by
  cases step_cases h with
  | spawn pos =>
    change (s.spawn c' _).unfinished c = _
    rw [unfinished, countThreads_spawn]
    simp [unfinished]

/-- No other step adds one. -/
theorem unfinished_step {s s' : ServerState} {l : Label}
    (h : step workerConnections s l = some s') (hl : ∀ c, l ≠ .spawn c) (c : SockType) :
    s'.unfinished c ≤ s.unfinished c := by
  -- a thread that has not finished goes on
  have hthread : ∀ {t : ℕ} {pos pos' : ThreadAt}, t < s.numThreads → (s.threads t).pos = pos' →
      pos' ≠ .finished → (s.setThread t pos).unfinished c ≤ s.unfinished c := by
    rintro t pos _ ht rfl hpos
    have hcount := countThreads_update ht pos c (· ≠ .finished)
    have hp : decide ((s.threads t).pos ≠ .finished) = true := decide_eq_true hpos
    rw [unfinished, unfinished]
    by_cases hc : (s.threads t).channel = c
    · rw [if_pos ⟨hc, hp⟩] at hcount
      split_ifs at hcount <;> omega
    · rw [if_neg fun h => hc h.1, if_neg fun h => hc h.1] at hcount
      exact hcount.le
  cases step_cases h with
  | spawn pos => exact absurd rfl (hl _)
  | counted lt pos | created lt pos | entered lt pos | returned lt pos | deleted lt pos
  | finished lt pos =>
    exact hthread lt pos ThreadAt.noConfusion
  | _ => exact le_rfl

/-- When a thread is spawned, the threads that are counted and those that are not yet
counted are together below the limit. -/
def SpawnsBelow (workerConnections : SockType → ℕ) (s : ServerState) : Label → Prop
  | .spawn c => (s.listeners c).numberOfThreads + s.uncounted c < workerConnections c
  | _ => True

theorem spawnsBelow_spawn_iff {s : ServerState} (hs : Counts s) (c : SockType) :
    SpawnsBelow workerConnections s (.spawn c) ↔ s.unfinished c < workerConnections c := by
  rw [SpawnsBelow, hs c, unfinished_eq]
  omega

/-- **The worker limit.**  In every run, the session threads of a channel that have not
finished stay within its limit exactly when every spawn finds them below it. -/
theorem throughout_unfinished_le_iff {ls : List Label} {s' : ServerState}
    (hrun : run (step workerConnections) (start workerConnections) ls = some s') :
    Throughout (step workerConnections) (fun s => ∀ c, s.unfinished c ≤ workerConnections c)
        (start workerConnections) ls ↔
      Along (step workerConnections) (SpawnsBelow workerConnections)
        (start workerConnections) ls := by
  refine throughout_iff_along (I := Counts) (fun _ _ _ => counts_step) ?_ ?_ counts_start
    (fun c => Nat.zero_le _) hrun
  · intro s l s' hs hle hC hstep c
    by_cases hl : ∃ c', l = .spawn c'
    · obtain ⟨c', rfl⟩ := hl
      have hlt := (spawnsBelow_spawn_iff hs c').mp hC
      rw [unfinished_spawn hstep]
      by_cases hc : c' = c
      · subst hc
        rw [if_pos rfl]
        exact hlt
      · rw [if_neg hc]
        exact hle c
    · exact (unfinished_step hstep (fun c' h => hl ⟨c', h⟩) c).trans (hle c)
  · intro s l s' hs hle hC hstep hle'
    cases l with
    | spawn c =>
      have hge : workerConnections c ≤ s.unfinished c :=
        not_lt.mp fun hlt => hC ((spawnsBelow_spawn_iff hs c).mpr hlt)
      have hcount := unfinished_spawn hstep c
      rw [if_pos rfl] at hcount
      have hle := hle' c
      omega
    | _ => exact hC trivial

/-- One connection on channel `c`, from the head of the loop to the start of its session
thread. -/
def connection (c : SockType) : List Label :=
  [.poll c, .connect c .accepted, .exitTest c, .maxTest c, .spawn c]

/-- One worker is allowed for TCP. -/
def oneWorker : SockType → ℕ
  | .tcp => 1
  | _ => 0

theorem throughout_unfinished_le_connection :
    Throughout (step oneWorker) (fun s => ∀ c, s.unfinished c ≤ oneWorker c) (start oneWorker)
        (connection .tcp) ↔
      Along (step oneWorker) (SpawnsBelow oneWorker) (start oneWorker) (connection .tcp) :=
  throughout_unfinished_le_iff (Option.some_get (x := run (step oneWorker) (start oneWorker)
    (connection .tcp)) (by decide)).symm

/-- The second connection is tested before the thread of the first one is counted. -/
theorem two_unfinished_of_oneWorker :
    ∃ s, run (step oneWorker) (start oneWorker) (connection .tcp ++ connection .tcp) = some s ∧
      oneWorker .tcp < s.unfinished .tcp := by
  refine ⟨_, rfl, ?_⟩
  decide

end KoheronSdk
