import KoheronSdk.Server.Listeners

/-!
# The lifetime of a session

A session thread runs the session object that it has made, and deletes it by its id when
`run()` has returned.  The main thread deletes sessions as well, and an id that has been
deleted is given to a later session.

Two things go wrong in the order of the code.  `Server::run` calls `delete_all` while session
threads are in `run()`: the object is destroyed under the thread, since the thread has a reference
to it and no share in it.  And when a session has been deleted by `delete_all` its id is free at
once, though its thread has still to delete it; if a new session gets the id in between, the thread
deletes that one.

A run without these two kinds of steps is in order (`LeavesLive`), and what the steps keep then
is `Owned`: under the id of a thread the pool has the object of this thread, or nothing, once
`run()` has returned.  The ids are those of the session manager, whose invariant says that
no live session has the id of a new one; so a thread can only lose its session by a deletion.

* `Owned`: what the pool has under the id of each session thread.
* `throughout_runsOwn`: while a thread is in `run()` its session is in the pool, and it
  deletes no other session, in every run in which `delete_all` only meets sessions whose
  `run()` has returned and no id is given out again while its thread has still to delete it.
-/

namespace KoheronSdk

open Transition ServerState

variable {workerConnections : SockType → ℕ}

/-- While a thread is in `run()`, the pool has the session object that it has made, and it
is this object that runs. -/
def RunsOwn (s : ServerState) : Prop :=
  ∀ t < s.numThreads, ∀ sid session, (s.threads t).pos = .running sid session →
    session = s.ownSession t ∧ s.manager.getSession sid = some (s.ownSession t)

/-- The `delete_session` that ends a thread removes nothing but the session of the thread. -/
def DeletesOwn (s : ServerState) : Label → Prop
  | .thread t => t < s.numThreads → ∀ sid, (s.threads t).pos = .returned sid →
      ∀ session, s.manager.getSession sid = some session → session = s.ownSession t
  | _ => True

/-- The thread is between `create_session` and the end of `run()`, with this id. -/
def ThreadAt.Uses (pos : ThreadAt) (sid : SessionID) : Prop :=
  pos = .created sid ∨ ∃ session, pos = .running sid session

/-- A deletion by `delete_all` meets no session whose `run()` has not returned, and the id of
a new session is not one that a thread has still to delete. -/
def LeavesLive (s : ServerState) : Label → Prop
  | .shutdown =>
    match s.main with
    | .deleting (id :: _) => ∀ t < s.numThreads, ¬ (s.threads t).pos.Uses id
    | _ => True
  | .thread t => (s.threads t).pos = .counted →
      ∀ t' < s.numThreads, (s.threads t').pos ≠ .returned s.manager.newId.1
  | _ => True

/-- What the pool has under the id of a thread: its own session, or nothing any more once
`run()` has returned. -/
structure Owned (s : ServerState) : Prop where
  manager : s.manager.WellFormed
  uses : ∀ t < s.numThreads, ∀ sid, (s.threads t).pos.Uses sid →
    s.manager.getSession sid = some (s.ownSession t)
  running : ∀ t < s.numThreads, ∀ sid session, (s.threads t).pos = .running sid session →
    session = s.ownSession t
  returned : ∀ t < s.numThreads, ∀ sid, (s.threads t).pos = .returned sid →
    ∀ session, s.manager.getSession sid = some session → session = s.ownSession t

theorem owned_start : Owned (start workerConnections) where
  manager := SessionManager.wellFormed_empty
  uses := fun t ht => absurd ht (Nat.not_lt_zero t)
  running := fun t ht => absurd ht (Nat.not_lt_zero t)
  returned := fun t ht => absurd ht (Nat.not_lt_zero t)

/-- Nothing that `Owned` is about has changed. -/
theorem Owned.congr {s s' : ServerState} (hs : Owned s) (hmanager : s'.manager = s.manager)
    (hthreads : s'.threads = s.threads) (hnum : s'.numThreads = s.numThreads) : Owned s' := by
  have hown : s'.ownSession = s.ownSession := by
    funext t
    rw [ownSession, ownSession, hthreads]
  refine ⟨?_, ?_, ?_, ?_⟩
  · rw [hmanager]
    exact hs.manager
  · rw [hnum, hthreads, hmanager, hown]
    exact hs.uses
  · rw [hnum, hthreads, hown]
    exact hs.running
  · rw [hnum, hthreads, hmanager, hown]
    exact hs.returned

theorem ownSession_setThread (s : ServerState) (t : ℕ) (pos : ThreadAt) (t' : ℕ) :
    (s.setThread t pos).ownSession t' = s.ownSession t' := by
  by_cases h : t' = t
  · rw [ownSession, h, threads_setThread_self]
    rfl
  · rw [ownSession, s.threads_setThread_of_ne t h]
    rfl

/-- A thread goes on.  What is to be shown is only about this thread. -/
theorem Owned.setThread {s : ServerState} (hs : Owned s) {t : ℕ} {pos : ThreadAt}
    (huses : ∀ sid, pos.Uses sid → s.manager.getSession sid = some (s.ownSession t))
    (hrunning : ∀ sid session, pos = .running sid session → session = s.ownSession t)
    (hreturned : ∀ sid, pos = .returned sid →
      ∀ session, s.manager.getSession sid = some session → session = s.ownSession t) :
    Owned (s.setThread t pos) := by
  have hpos : ∀ t', ((s.setThread t pos).threads t').pos
      = if t' = t then pos else (s.threads t').pos := by
    intro t'
    by_cases h : t' = t
    · rw [h, threads_setThread_self, if_pos rfl]
    · rw [s.threads_setThread_of_ne t h, if_neg h]
  refine ⟨hs.manager, ?_, ?_, ?_⟩
  · intro t' ht' sid h
    rw [hpos] at h
    rw [ownSession_setThread]
    by_cases heq : t' = t
    · rw [if_pos heq] at h
      rw [heq]
      exact huses sid h
    · rw [if_neg heq] at h
      exact hs.uses t' ht' sid h
  · intro t' ht' sid session h
    rw [hpos] at h
    rw [ownSession_setThread]
    by_cases heq : t' = t
    · rw [if_pos heq] at h
      rw [heq]
      exact hrunning sid session h
    · rw [if_neg heq] at h
      exact hs.running t' ht' sid session h
  · intro t' ht' sid h session hget
    rw [hpos] at h
    rw [ownSession_setThread]
    by_cases heq : t' = t
    · rw [if_pos heq] at h
      rw [heq]
      exact hreturned sid h session hget
    · rw [if_neg heq] at h
      exact hs.returned t' ht' sid h session hget

/-- A thread goes on to where it has no id. -/
theorem Owned.setThread_idle {s : ServerState} (hs : Owned s) {t : ℕ} {pos : ThreadAt}
    (hpos : pos = .counted ∨ pos = .deleted ∨ pos = .finished) : Owned (s.setThread t pos) := by
  refine hs.setThread ?_ ?_ ?_
  · rintro sid (rfl | ⟨session, rfl⟩)
    · rcases hpos with h | h | h <;> cases h
    · rcases hpos with h | h | h <;> cases h
  · rintro sid session rfl
    rcases hpos with h | h | h <;> cases h
  · rintro sid rfl
    rcases hpos with h | h | h <;> cases h

/-- A session is deleted that no thread uses. -/
theorem Owned.deleteSession {s : ServerState} (hs : Owned s) {id : SessionID}
    (hid : ∀ t < s.numThreads, ¬ (s.threads t).pos.Uses id) : Owned (s.deleteSession id) := by
  have hget : ∀ sid, (s.deleteSession id).manager.getSession sid
      = if sid = id then none else s.manager.getSession sid :=
    fun sid => SessionManager.getSession_deleteSession hs.manager id sid
  refine ⟨SessionManager.wellFormed_deleteSession hs.manager id, ?_, hs.running, ?_⟩
  · intro t ht sid h
    have hne : sid ≠ id := by
      rintro rfl
      exact hid t ht h
    rw [hget, if_neg hne]
    exact hs.uses t ht sid h
  · intro t ht sid h session hsession
    rw [hget] at hsession
    obtain ⟨-, hsession⟩ := Option.ite_none_left_eq_some.mp hsession
    exact hs.returned t ht sid h session hsession

/-- A thread that has returned from `run()` deletes a session that no other thread uses:
what the pool has under the id is its own session. -/
theorem Owned.not_uses {s : ServerState} (hs : Owned s) {t : ℕ} (ht : t < s.numThreads)
    {sid : SessionID} (hpos : (s.threads t).pos = .returned sid) :
    ∀ t' < s.numThreads, ¬ (s.threads t').pos.Uses sid := by
  intro t' ht' huses
  have hown := hs.returned t ht sid hpos _ (hs.uses t' ht' sid huses)
  have hcreator : t' = t := congrArg SessionObject.creator hown
  rw [hcreator, hpos] at huses
  rcases huses with h | ⟨session, h⟩
  · cases h
  · cases h

/-- A session is created under an id that no thread uses or has still to delete. -/
theorem Owned.createSession {s : ServerState} (hs : Owned s) {t : ℕ}
    (hnew : ∀ t' < s.numThreads, (s.threads t').pos ≠ .returned s.manager.newId.1) :
    Owned { s with manager := (s.manager.createSession (s.ownSession t)).2 } := by
  have hget : ∀ sid, sid ≠ s.manager.newId.1 →
      (s.manager.createSession (s.ownSession t)).2.getSession sid = s.manager.getSession sid := by
    intro sid hne
    rw [SessionManager.getSession_createSession hs.manager]
    exact if_neg hne
  refine ⟨SessionManager.wellFormed_createSession hs.manager _, ?_, hs.running, ?_⟩
  · intro t' ht' sid h
    have hlive := hs.uses t' ht' sid h
    have hne : sid ≠ s.manager.newId.1 := by
      rintro rfl
      have hnone := SessionManager.lookup_eq_none_iff.mpr hs.manager.newId_fresh
      exact Option.some_ne_none _ (hlive.symm.trans hnone)
    exact (hget sid hne).trans hlive
  · intro t' ht' sid h session hsession
    have hne : sid ≠ s.manager.newId.1 := by
      rintro rfl
      exact hnew t' ht' h
    exact hs.returned t' ht' sid h session ((hget sid hne).symm.trans hsession)

/-- A thread is spawned. -/
theorem Owned.spawn {s : ServerState} (hs : Owned s) (c : SockType) (commFd : ℕ) :
    Owned (s.spawn c commFd) := by
  -- the new thread has no session, and the other ones are as they were
  have hold : ∀ t < (s.spawn c commFd).numThreads,
      ((s.spawn c commFd).threads t).pos = .spawned ∨
        (t < s.numThreads ∧ (s.spawn c commFd).threads t = s.threads t) := by
    intro t ht
    rcases Nat.lt_succ_iff_lt_or_eq.mp ht with hlt | rfl
    · exact Or.inr ⟨hlt, s.threads_spawn_of_ne c hlt.ne commFd⟩
    · exact Or.inl (congrArg SessionThread.pos (s.threads_spawn_self c commFd))
  have hown : ∀ t, (s.spawn c commFd).threads t = s.threads t →
      (s.spawn c commFd).ownSession t = s.ownSession t := by
    intro t h
    rw [ownSession, h]
    rfl
  refine ⟨hs.manager, ?_, ?_, ?_⟩
  · intro t ht sid h
    rcases hold t ht with hnew | ⟨hlt, hth⟩
    · rw [hnew] at h
      rcases h with h | ⟨session, h⟩
      · cases h
      · cases h
    · rw [hth] at h
      rw [hown t hth]
      exact hs.uses t hlt sid h
  · intro t ht sid session h
    rcases hold t ht with hnew | ⟨hlt, hth⟩
    · rw [hnew] at h
      cases h
    · rw [hth] at h
      rw [hown t hth]
      exact hs.running t hlt sid session h
  · intro t ht sid h session hget
    rcases hold t ht with hnew | ⟨hlt, hth⟩
    · rw [hnew] at h
      cases h
    · rw [hth] at h
      rw [hown t hth]
      exact hs.returned t hlt sid h session hget

/-- Every step that leaves the live sessions alone keeps the invariant. -/
theorem owned_step {s s' : ServerState} {l : Label} (hs : Owned s) (hl : LeavesLive s l)
    (h : step workerConnections s l = some s') : Owned s' := by
  cases step_cases h with
  | poll | failed | refused | accepted | exited | checked | noFd | atMax | admitted | thrown
  | interrupt | deletedAll | close | join => exact hs.congr rfl rfl rfl
  | @spawn c commFd pos => exact (hs.spawn c commFd).congr rfl rfl rfl
  | @counted t lt pos =>
    have hcounted : Owned (s.addThreads (s.threads t).channel 1) := hs.congr rfl rfl rfl
    exact hcounted.setThread_idle (Or.inl rfl)
  | @created t lt pos =>
    have hcreated := hs.createSession (t := t) (hl pos)
    have hget : (s.manager.createSession (s.ownSession t)).2.getSession
        (s.manager.createSession (s.ownSession t)).1 = some (s.ownSession t) := by
      rw [SessionManager.getSession_createSession hs.manager, if_pos rfl]
    refine hcreated.setThread ?_ ?_ ?_
    · rintro sid (h | ⟨session, h⟩)
      · obtain rfl := ThreadAt.created.inj h
        exact hget
      · cases h
    · rintro sid session h
      cases h
    · rintro sid h
      cases h
  | @entered t sid session lt pos get =>
    have hown := hs.uses t lt sid (Or.inl pos)
    refine hs.setThread ?_ ?_ ?_
    · rintro sid' (h | ⟨session', h⟩)
      · cases h
      · obtain ⟨rfl, -⟩ := ThreadAt.running.inj h
        exact hown
    · rintro sid' session' h
      obtain ⟨rfl, rfl⟩ := ThreadAt.running.inj h
      exact Option.some.inj (get.symm.trans hown)
    · rintro sid' h
      cases h
  | @returned t sid session lt pos =>
    have hown := hs.uses t lt sid (Or.inr ⟨session, pos⟩)
    refine hs.setThread ?_ ?_ ?_
    · rintro sid' (h | ⟨session', h⟩)
      · cases h
      · cases h
    · rintro sid' session' h
      cases h
    · rintro sid' h session' hget
      obtain rfl := ThreadAt.returned.inj h
      exact Option.some.inj (hget.symm.trans hown)
  | @deleted t sid lt pos =>
    exact (hs.deleteSession (hs.not_uses lt pos)).setThread_idle (Or.inr (Or.inl rfl))
  | @finished t lt pos =>
    have huncounted : Owned (s.addThreads (s.threads t).channel (-1)) := hs.congr rfl rfl rfl
    exact huncounted.setThread_idle (Or.inr (Or.inr rfl))
  | @deleteNext id ids pos =>
    rw [LeavesLive, pos] at hl
    exact (hs.deleteSession hl).congr rfl rfl rfl

theorem Owned.runsOwn {s : ServerState} (hs : Owned s) : RunsOwn s :=
  fun t ht sid session hpos =>
    ⟨hs.running t ht sid session hpos, hs.uses t ht sid (Or.inr ⟨session, hpos⟩)⟩

theorem Owned.deletesOwn {s : ServerState} (hs : Owned s) (l : Label) : DeletesOwn s l := by
  cases l with
  | thread t => exact hs.returned t
  | _ => trivial

/-- **The lifetime of a session.**  In a run that leaves the live sessions alone, a session
is in the pool as long as its thread is in `run()`, and the thread deletes no other one. -/
theorem throughout_runsOwn {ls : List Label}
    (h : Along (step workerConnections) LeavesLive (start workerConnections) ls) :
    Throughout (step workerConnections) RunsOwn (start workerConnections) ls ∧
      Along (step workerConnections) DeletesOwn (start workerConnections) ls := by
  have hstep : ∀ s l s', Owned s → LeavesLive s l → step workerConnections s l = some s' →
      Owned s' := fun _ _ _ => owned_step
  exact ⟨(throughout_of_along hstep owned_start h).mono fun _ => Owned.runsOwn,
    along_of_along hstep (fun _ l hs _ => hs.deletesOwn l) owned_start h⟩

/-- A session thread from its start to the middle of `run()`, or from there to its end. -/
def threeSteps (t : ℕ) : List Label := [.thread t, .thread t, .thread t]

/-- A TCP connection from the head of the listener's loop to the start of its session
thread. -/
def tcpConnection : List Label :=
  [.poll .tcp, .connect .tcp .accepted, .exitTest .tcp, .maxTest .tcp, .spawn .tcp]

/-- Two workers are allowed for TCP. -/
def twoWorkers : SockType → ℕ
  | .tcp => 2
  | _ => 0

instance (pos : ThreadAt) (sid : SessionID) : Decidable (pos.Uses sid) :=
  match pos with
  | .created sid' => decidable_of_iff (sid' = sid) (by simp [ThreadAt.Uses])
  | .running sid' session => decidable_of_iff (sid' = sid) (by simp [ThreadAt.Uses])
  | .spawned | .counted | .returned _ | .deleted | .finished =>
    isFalse (by simp [ThreadAt.Uses])

instance (s : ServerState) (l : Label) : Decidable (LeavesLive s l) :=
  match l with
  | .shutdown =>
    match h : s.main with
    | .deleting (id :: _) =>
      decidable_of_iff (∀ t < s.numThreads, ¬ (s.threads t).pos.Uses id) (by rw [LeavesLive, h])
    | .deleting [] | .running | .closing | .joining | .done =>
      isTrue (by rw [LeavesLive, h]; trivial)
  | .thread t => inferInstanceAs (Decidable ((s.threads t).pos = .counted →
      ∀ t' < s.numThreads, (s.threads t').pos ≠ .returned s.manager.newId.1))
  | .poll _ | .connect _ _ | .exitTest _ | .maxTest _ | .spawn _ | .interrupt => isTrue trivial

/-- One session comes and goes, the next one gets its id, and the server is shut down when
both are gone. -/
theorem throughout_runsOwn_twoSessions :
    Throughout (step twoWorkers) RunsOwn (start twoWorkers)
        (tcpConnection ++ threeSteps 0 ++ threeSteps 0 ++ tcpConnection ++ threeSteps 1
          ++ threeSteps 1 ++ [.interrupt, .shutdown, .shutdown]) ∧
      Along (step twoWorkers) DeletesOwn (start twoWorkers)
        (tcpConnection ++ threeSteps 0 ++ threeSteps 0 ++ tcpConnection ++ threeSteps 1
          ++ threeSteps 1 ++ [.interrupt, .shutdown, .shutdown]) :=
  throughout_runsOwn (by decide)

/-- The main thread deletes the session of a thread that is in `run()`, a second session
gets its id, and the first thread deletes the second session. -/
theorem not_runsOwn_of_deleteAll :
    ∃ s, run (step twoWorkers) (start twoWorkers)
        (tcpConnection ++ threeSteps 0 ++ [.interrupt, .shutdown] ++ tcpConnection ++ threeSteps 1
          ++ [.thread 0, .thread 0]) = some s ∧
      (s.threads 1).pos = .running 0 ⟨.tcp, 1, 1⟩ ∧ s.manager.getSession 0 = none ∧
      ¬ RunsOwn s := by
  refine ⟨_, rfl, by decide, by decide, fun h => ?_⟩
  have hlive := (h 1 (by decide) 0 ⟨.tcp, 1, 1⟩ (by decide)).2
  revert hlive
  decide

end KoheronSdk
