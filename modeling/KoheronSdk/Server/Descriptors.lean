import KoheronSdk.Server.Listeners

/-!
# Accepted descriptors

A descriptor that `accept()` returned is first held by the listener, then by the session
thread that is started for it, and then by the session in the pool, until `delete_session`
closes it.

Who holds a descriptor is read off the state of `Server/Listeners`: off the place where a listener
stands, off that of a session thread between its start and `create_session`, and off the pool.
`ownedFds` is the list of all of them, a descriptor once for each holder, so that being held twice
can be said, and conservation is a count: each accepted descriptor is in this list or in that
of the closed ones, once in all.

A step does one of few things to these lists (`count_step`): one descriptor comes, one is passed on,
one is closed, or one is dropped.  The listener drops one at two places, when it finds `exit_comm`
raised and when the maximum of threads is reached: it goes on without `close()`.
Nothing gives it back, so the condition that no step does this is exact.

* `Conserved`: every accepted descriptor is held by exactly one of them, or has been closed
  exactly once.
* `throughout_conserved_iff`: this holds throughout a run exactly when no listener drops a
  descriptor, neither because `exit_comm` has been raised nor because the maximum of threads
  is reached.
-/

namespace KoheronSdk

open Transition

/-! ## Counting after an update -/

theorem count_flatMap_update {ι α β : Type*} [DecidableEq ι] [DecidableEq β] {l : List ι}
    (hnodup : l.Nodup) {i : ι} (hi : i ∈ l) (g : ι → α) (a : α) (f : α → List β) (b : β) :
    (l.flatMap fun j => f (Function.update g i a j)).count b + (f (g i)).count b
      = (l.flatMap fun j => f (g j)).count b + (f a).count b := by
  induction l with
  | nil => cases hi
  | cons j l ih =>
    obtain ⟨hj, hnodup'⟩ := List.nodup_cons.mp hnodup
    rw [List.flatMap_cons, List.flatMap_cons, List.count_append, List.count_append]
    by_cases hij : i = j
    · subst hij
      have hrest : (l.flatMap fun k => f (Function.update g i a k))
          = l.flatMap fun k => f (g k) := by
        refine List.flatMap_congr fun k hk => ?_
        have hne : k ≠ i := by
          rintro rfl
          exact hj hk
        rw [Function.update_of_ne hne]
      rw [hrest, Function.update_self]
      omega
    · have hmem : i ∈ l := (List.mem_cons.mp hi).resolve_left hij
      have ih' := ih hnodup' hmem
      rw [Function.update_of_ne fun h => hij h.symm]
      omega

/-! ## Who holds a descriptor -/

/-- The descriptor that a listener has accepted and not yet passed on. -/
def ListenerAt.fds : ListenerAt → List ℕ
  | .opened commFd | .checked commFd => commFd.toList
  | .admitted commFd => [commFd]
  | _ => []

/-- The descriptor of a session that is starting. -/
def SessionThread.fds (t : SessionThread) : List ℕ :=
  match t.pos with
  | .spawned | .counted => [t.commFd]
  | _ => []

namespace ServerState

/-- The descriptors that the listeners hold. -/
def listenerFds (s : ServerState) : List ℕ :=
  [SockType.tcp, .websock, .unix].flatMap fun c => (s.listeners c).commThread.fds

/-- The descriptors of the sessions that are starting. -/
def startingFds (s : ServerState) : List ℕ :=
  (List.range s.numThreads).flatMap fun t => (s.threads t).fds

/-- The descriptors of the sessions in the pool. -/
def liveFds (s : ServerState) : List ℕ := s.manager.sessionPool.map fun p => p.2.commFd

/-- The descriptors that somebody holds, once for each holder. -/
def ownedFds (s : ServerState) : List ℕ := s.listenerFds ++ s.startingFds ++ s.liveFds

theorem count_ownedFds (s : ServerState) (fd : ℕ) :
    s.ownedFds.count fd
      = s.listenerFds.count fd + s.startingFds.count fd + s.liveFds.count fd := by
  rw [ownedFds, List.count_append, List.count_append]

theorem count_listenerFds_setListener (s : ServerState) (c : SockType) (pos : ListenerAt)
    (fd : ℕ) :
    (s.setListener c pos).listenerFds.count fd + (s.listeners c).commThread.fds.count fd
      = s.listenerFds.count fd + pos.fds.count fd := by
  have hmem : c ∈ [SockType.tcp, .websock, .unix] := by cases c <;> decide
  exact count_flatMap_update (by decide) hmem s.listeners
    { s.listeners c with commThread := pos } (fun ch => ch.commThread.fds) fd

theorem listenerFds_addThreads (s : ServerState) (c : SockType) (n : ℤ) :
    (s.addThreads c n).listenerFds = s.listenerFds := by
  refine List.flatMap_congr fun c' _ => ?_
  by_cases h : c' = c
  · rw [h, listeners_addThreads_self]
  · rw [s.listeners_addThreads_of_ne c h]

theorem count_startingFds_setThread {s : ServerState} {t : ℕ} (ht : t < s.numThreads)
    (pos : ThreadAt) (fd : ℕ) :
    (s.setThread t pos).startingFds.count fd + (s.threads t).fds.count fd
      = s.startingFds.count fd + ({ s.threads t with pos := pos } : SessionThread).fds.count fd :=
  count_flatMap_update List.nodup_range (List.mem_range.mpr ht) s.threads
    { s.threads t with pos := pos } SessionThread.fds fd

theorem startingFds_spawn (s : ServerState) (c : SockType) (commFd : ℕ) :
    (s.spawn c commFd).startingFds = s.startingFds ++ [commFd] := by
  have hold : (List.range s.numThreads).flatMap (fun t => ((s.spawn c commFd).threads t).fds)
      = s.startingFds := by
    refine List.flatMap_congr fun t ht => ?_
    rw [s.threads_spawn_of_ne c (List.mem_range.mp ht).ne]
  rw [startingFds]
  change (List.range (s.numThreads + 1)).flatMap _ = _
  rw [List.range_succ, List.flatMap_append, hold, List.flatMap_singleton, threads_spawn_self]
  rfl

/-- A session comes into the pool. -/
theorem count_liveFds_createSession {s : ServerState} (hs : s.manager.WellFormed) (t : ℕ)
    (fd : ℕ) :
    ({ s with manager := (s.manager.createSession (s.ownSession t)).2 } : ServerState).liveFds.count
        fd = s.liveFds.count fd + [(s.threads t).commFd].count fd := by
  have hpool : (s.manager.createSession (s.ownSession t)).2.sessionPool
      = s.manager.sessionPool.orderedInsert (fun p q => p.1 ≤ q.1)
        (s.manager.newId.1, s.ownSession t) :=
    if_neg hs.newId_fresh
  have hperm := (List.perm_orderedInsert (fun p q : SessionID × SessionObject => p.1 ≤ q.1)
    (s.manager.newId.1, s.ownSession t) s.manager.sessionPool).map fun p => p.2.commFd
  rw [liveFds, hpool, hperm.count_eq, List.map_cons, ← List.singleton_append, List.count_append,
    Nat.add_comm]
  rfl

/-- A session goes from the pool, and its descriptor is closed. -/
theorem count_deleteSession {s : ServerState} (hs : s.manager.WellFormed) (id : SessionID)
    (fd : ℕ) :
    (s.deleteSession id).liveFds.count fd + (s.deleteSession id).closed.count fd
      = s.liveFds.count fd + s.closed.count fd := by
  have hclosed : (s.deleteSession id).closed
      = s.closed ++ ((s.manager.getSession id).map SessionObject.commFd).toList := by
    rw [deleteSession, SessionManager.closed_deleteSession]
  by_cases hmem : id ∈ s.manager.getSessionIds
  · obtain ⟨⟨key, session⟩, hentry, hkey⟩ := List.mem_map.mp hmem
    obtain rfl : key = id := hkey
    have hget : s.manager.getSession key = some session :=
      (SessionManager.lookup_eq_some_iff hs.nodup_ids).mpr hentry
    have hpool : (s.deleteSession key).liveFds
        = (s.manager.sessionPool.filter fun p => p.1 ≠ key).map fun p => p.2.commFd := by
      rw [liveFds, deleteSession, SessionManager.deleteSession, if_neg (not_not.mpr hmem)]
    have hperm := (SessionManager.perm_cons_filter hs.nodup_ids hentry).map fun p => p.2.commFd
    have hcount : s.liveFds.count fd
        = [session.commFd].count fd + (s.deleteSession key).liveFds.count fd := by
      rw [← List.count_append, List.singleton_append, hpool, liveFds, hperm.count_eq, List.map_cons]
    rw [hcount, hclosed, hget, Option.map_some, Option.toList_some, List.count_append]
    omega
  · have hnone : s.manager.getSession id = none := SessionManager.lookup_eq_none_iff.mpr hmem
    have hlive : (s.deleteSession id).liveFds = s.liveFds := by
      rw [liveFds, deleteSession, SessionManager.deleteSession, if_pos hmem, liveFds]
    rw [hlive, hclosed, hnone, Option.map_none, Option.toList_none, List.append_nil]

end ServerState

open ServerState

/-! ## Conservation -/

variable {workerConnections : SockType → ℕ}

/-- Every descriptor that was accepted is held once or has been closed once. -/
def Conserved (s : ServerState) : Prop :=
  ∀ fd, s.ownedFds.count fd + s.closed.count fd = if fd < s.numAccepted then 1 else 0

/-- The descriptor that a step drops: the listener holds it when it finds `exit_comm` raised
or the maximum of threads reached. -/
def droppedFds (workerConnections : SockType → ℕ) (s : ServerState) : Label → List ℕ
  | .exitTest c => if s.exitComm then (s.listeners c).commThread.fds else []
  | .maxTest c =>
    if workerConnections c ≤ (s.listeners c).numberOfThreads then (s.listeners c).commThread.fds
    else []
  | _ => []

/-- The descriptor that `accept()` returns in a step. -/
def acceptedFds (s : ServerState) : Label → List ℕ
  | .connect _ .refused | .connect _ .accepted => [s.numAccepted]
  | _ => []

theorem wellFormed_step {s s' : ServerState} {l : Label} (hs : s.manager.WellFormed)
    (h : step workerConnections s l = some s') : s'.manager.WellFormed := by
  cases step_cases h with
  | created => exact SessionManager.wellFormed_createSession hs _
  | deleted | deleteNext => exact SessionManager.wellFormed_deleteSession hs _
  | _ => exact hs

/-- A listener goes on with what it holds. -/
theorem count_setListener {s u : ServerState} {c : SockType} {pos : ListenerAt}
    (hlisteners : u.listeners = s.listeners) (hthreads : u.threads = s.threads)
    (hnum : u.numThreads = s.numThreads) (hmanager : u.manager = s.manager) (fd : ℕ) :
    (u.setListener c pos).ownedFds.count fd + (s.listeners c).commThread.fds.count fd
      = s.ownedFds.count fd + pos.fds.count fd := by
  have hlistener := count_listenerFds_setListener u c pos fd
  have hold : u.listenerFds = s.listenerFds := by rw [listenerFds, hlisteners, listenerFds]
  have hstarting : (u.setListener c pos).startingFds = s.startingFds := by
    change (List.range u.numThreads).flatMap (fun t => (u.threads t).fds) = _
    rw [hnum, hthreads, startingFds]
  have hlive : (u.setListener c pos).liveFds = s.liveFds := by
    change u.manager.sessionPool.map (fun p => p.2.commFd) = _
    rw [hmanager, liveFds]
  rw [hlisteners, hold] at hlistener
  rw [count_ownedFds, count_ownedFds, hstarting, hlive]
  omega

/-- A thread goes on without a descriptor coming or going. -/
theorem count_setThread {s : ServerState} {t : ℕ} (ht : t < s.numThreads) {pos : ThreadAt}
    (hpos : ({ s.threads t with pos := pos } : SessionThread).fds = (s.threads t).fds) (fd : ℕ) :
    (s.setThread t pos).ownedFds.count fd = s.ownedFds.count fd := by
  have hstarting := count_startingFds_setThread ht pos fd
  rw [hpos] at hstarting
  rw [count_ownedFds, count_ownedFds]
  change s.listenerFds.count fd + _ + s.liveFds.count fd = _
  omega

/-- **What a step does to the descriptors**: one may be accepted, one may be dropped, and
the others go from one holder to the next or are closed. -/
theorem count_step {s s' : ServerState} {l : Label} (hs : s.manager.WellFormed)
    (h : step workerConnections s l = some s') (fd : ℕ) :
    s'.ownedFds.count fd + s'.closed.count fd + (droppedFds workerConnections s l).count fd
      = s.ownedFds.count fd + s.closed.count fd + (acceptedFds s l).count fd := by
  -- a listener goes on, and `fds` is what it held
  have hlistener : ∀ (u : ServerState) {c : SockType} {pos : ListenerAt} (pos' : ListenerAt),
      (s.listeners c).commThread = pos → u.listeners = s.listeners → u.threads = s.threads →
      u.numThreads = s.numThreads → u.manager = s.manager →
      (u.setListener c pos').ownedFds.count fd + pos.fds.count fd
        = s.ownedFds.count fd + pos'.fds.count fd := by
    rintro u c _ pos' rfl h1 h2 h3 h4
    exact count_setListener h1 h2 h3 h4 fd
  -- a step that leaves all the descriptors where they are
  have hsame : ∀ {u : ServerState}, u.ownedFds.count fd = s.ownedFds.count fd →
      u.closed = s.closed → droppedFds workerConnections s l = [] → acceptedFds s l = [] →
      u.ownedFds.count fd + u.closed.count fd + (droppedFds workerConnections s l).count fd
        = s.ownedFds.count fd + s.closed.count fd + (acceptedFds s l).count fd := by
    intro u h1 h2 h3 h4
    rw [h1, h2, h3, h4]
  cases step_cases h with
  | poll pos =>
    have hcount := hlistener s (if s.exitComm then .stopped else .opening) pos rfl rfl rfl rfl
    refine hsame ?_ rfl rfl rfl
    cases hexit : s.exitComm <;> rw [hexit] at hcount <;> exact hcount
  | failed pos => exact hsame (hlistener s (.opened none) pos rfl rfl rfl rfl) rfl rfl rfl
  | @refused c pos type =>
    have hcount := hlistener s.refuse (.opened none) pos rfl rfl rfl rfl
    change (s.refuse.setListener c (.opened none)).ownedFds.count fd = _ at hcount
    change _ + (s.closed ++ [s.numAccepted]).count fd = _ + _ + [s.numAccepted].count fd
    rw [hcount, List.count_append]
    exact (Nat.add_assoc ..).symm
  | @accepted c pos =>
    have hcount := hlistener s.accept (.opened (some s.numAccepted)) pos rfl rfl rfl rfl
    change _ + ([] : List ℕ).count fd = _ + [s.numAccepted].count fd at hcount
    change _ + s.closed.count fd + ([] : List ℕ).count fd = _ + [s.numAccepted].count fd
    omega
  | @exited c commFd pos exit =>
    have hcount := hlistener s .stopped pos rfl rfl rfl rfl
    have hdropped : droppedFds workerConnections s (.exitTest c)
        = (ListenerAt.opened commFd).fds := by
      rw [droppedFds, exit, if_pos rfl, pos]
    rw [hdropped]
    change _ + s.closed.count fd + _ = _ + ([] : List ℕ).count fd
    change _ = _ + ([] : List ℕ).count fd at hcount
    omega
  | @checked c commFd pos exit =>
    have hcount := hlistener s (.checked commFd) pos rfl rfl rfl rfl
    refine hsame (Nat.add_right_cancel hcount) rfl ?_ rfl
    rw [droppedFds, exit]
    rfl
  | @noFd c pos =>
    refine hsame (hlistener s .polling pos rfl rfl rfl rfl) rfl ?_ rfl
    rw [droppedFds, pos]
    exact ite_self _
  | @atMax c commFd pos max =>
    have hcount := hlistener s .polling pos rfl rfl rfl rfl
    have hdropped : droppedFds workerConnections s (.maxTest c) = [commFd] := by
      rw [droppedFds, if_pos max, pos]
      rfl
    rw [hdropped]
    change _ + s.closed.count fd + _ = _ + ([] : List ℕ).count fd
    change _ + [commFd].count fd = _ + ([] : List ℕ).count fd at hcount
    omega
  | @admitted c commFd pos max =>
    have hcount := hlistener s (.admitted commFd) pos rfl rfl rfl rfl
    refine hsame (Nat.add_right_cancel hcount) rfl ?_ rfl
    rw [droppedFds, if_neg (not_le.mpr max)]
  | @spawn c commFd pos =>
    have hlist := count_listenerFds_setListener (s.spawn c commFd) c .polling fd
    have hheld : ((s.spawn c commFd).listeners c).commThread.fds = [commFd] := by
      change (s.listeners c).commThread.fds = _
      rw [pos]
      rfl
    have hstarting : ((s.spawn c commFd).setListener c .polling).startingFds
        = s.startingFds ++ [commFd] := s.startingFds_spawn c commFd
    refine hsame ?_ rfl rfl rfl
    rw [hheld] at hlist
    rw [count_ownedFds, count_ownedFds, hstarting, List.count_append]
    change _ + _ + s.liveFds.count fd = _
    change _ = s.listenerFds.count fd + ([] : List ℕ).count fd at hlist
    rw [List.count_nil] at hlist
    omega
  | @counted t lt pos =>
    have hfds : ({ s.threads t with pos := .counted } : SessionThread).fds = (s.threads t).fds := by
      rw [SessionThread.fds, SessionThread.fds, pos]
    have hcount := count_setThread (s := s.addThreads (s.threads t).channel 1) lt hfds fd
    refine hsame (hcount.trans ?_) rfl rfl rfl
    rw [count_ownedFds, count_ownedFds, listenerFds_addThreads]
    rfl
  | @created t lt pos =>
    have hstarting := count_startingFds_setThread lt
      (.created (s.manager.createSession (s.ownSession t)).1) fd
    have hlive := count_liveFds_createSession hs t fd
    have hheld : (s.threads t).fds = [(s.threads t).commFd] := by rw [SessionThread.fds, pos]
    refine hsame ?_ rfl rfl rfl
    rw [hheld] at hstarting
    rw [count_ownedFds, count_ownedFds]
    change _ = s.startingFds.count fd + ([] : List ℕ).count fd at hstarting
    change s.listenerFds.count fd
      + (s.setThread t (.created (s.manager.createSession (s.ownSession t)).1)).startingFds.count fd
      + ({ s with manager := (s.manager.createSession (s.ownSession t)).2 } :
          ServerState).liveFds.count fd = _
    rw [List.count_nil] at hstarting
    omega
  | thrown => exact hsame rfl rfl rfl rfl
  | @entered t sid session lt pos get =>
    have hfds : ({ s.threads t with pos := .running sid session } : SessionThread).fds
        = (s.threads t).fds := by
      rw [SessionThread.fds, SessionThread.fds, pos]
    exact hsame (count_setThread lt hfds fd) rfl rfl rfl
  | @returned t sid session lt pos =>
    have hfds : ({ s.threads t with pos := .returned sid } : SessionThread).fds
        = (s.threads t).fds := by
      rw [SessionThread.fds, SessionThread.fds, pos]
    exact hsame (count_setThread lt hfds fd) rfl rfl rfl
  | @deleted t sid lt pos =>
    have hfds : ({ s.threads t with pos := .deleted } : SessionThread).fds = (s.threads t).fds := by
      rw [SessionThread.fds, SessionThread.fds, pos]
    have hcount := count_setThread (s := s.deleteSession sid) lt hfds fd
    have hdelete := count_deleteSession hs sid fd
    rw [hcount, count_ownedFds, count_ownedFds]
    change s.listenerFds.count fd + s.startingFds.count fd + (s.deleteSession sid).liveFds.count fd
      + (s.deleteSession sid).closed.count fd + ([] : List ℕ).count fd
        = _ + ([] : List ℕ).count fd
    omega
  | @finished t lt pos =>
    have hfds : ({ s.threads t with pos := .finished } : SessionThread).fds
        = (s.threads t).fds := by
      rw [SessionThread.fds, SessionThread.fds, pos]
    have hcount := count_setThread (s := s.addThreads (s.threads t).channel (-1)) lt hfds fd
    refine hsame (hcount.trans ?_) rfl rfl rfl
    rw [count_ownedFds, count_ownedFds, listenerFds_addThreads]
    rfl
  | interrupt | deletedAll | close | join => exact hsame rfl rfl rfl rfl
  | @deleteNext id ids pos =>
    have hdelete := count_deleteSession hs id fd
    change (s.deleteSession id).ownedFds.count fd + (s.deleteSession id).closed.count fd
      + ([] : List ℕ).count fd = _ + ([] : List ℕ).count fd
    rw [count_ownedFds, count_ownedFds]
    change s.listenerFds.count fd + s.startingFds.count fd + (s.deleteSession id).liveFds.count fd
      + _ + _ = _
    omega

theorem numAccepted_step {s s' : ServerState} {l : Label}
    (h : step workerConnections s l = some s') (fd : ℕ) :
    (if fd < s'.numAccepted then 1 else 0)
      = (if fd < s.numAccepted then 1 else 0) + (acceptedFds s l).count fd := by
  cases step_cases h with
  | refused | accepted =>
    change (if fd < s.numAccepted + 1 then 1 else 0) = _ + [s.numAccepted].count fd
    rw [List.count_singleton]
    by_cases heq : s.numAccepted = fd
    · simp [heq]
    · have hiff : fd < s.numAccepted + 1 ↔ fd < s.numAccepted := by omega
      simp only [hiff, beq_eq_false_iff_ne.mpr heq, Bool.false_eq_true, if_false, Nat.add_zero]
  | _ => rfl

theorem conserved_start : Conserved (start workerConnections) := by
  intro fd
  have hpos : ∀ c, ((start workerConnections).listeners c).commThread.fds = [] := by
    intro c
    change (if 0 < workerConnections c then ListenerAt.polling else .stopped).fds = []
    split <;> rfl
  have howned : (start workerConnections).ownedFds = [] := by
    simp only [ownedFds, listenerFds, List.flatMap_cons, List.flatMap_nil, hpos]
    rfl
  rw [howned]
  rfl

/-- **Accepted sockets are conserved** throughout a run exactly when no step of it drops a
descriptor. -/
theorem throughout_conserved_iff {ls : List Label} {s' : ServerState}
    (hrun : run (step workerConnections) (start workerConnections) ls = some s') :
    Throughout (step workerConnections) Conserved (start workerConnections) ls ↔
      Along (step workerConnections) (fun s l => droppedFds workerConnections s l = [])
        (start workerConnections) ls := by
  refine throughout_iff_along (I := fun s : ServerState => s.manager.WellFormed)
    (fun _ _ _ => wellFormed_step) ?_ ?_ SessionManager.wellFormed_empty conserved_start hrun
  · intro s l s' hs hP hC hstep fd
    have hcount := count_step hs hstep fd
    have hnum := numAccepted_step hstep fd
    have hfd := hP fd
    rw [hC, List.count_nil] at hcount
    omega
  · intro s l s' hs hP hC hstep hP'
    obtain ⟨fd, hmem⟩ := List.exists_mem_of_ne_nil _ hC
    have hdropped : 0 < (droppedFds workerConnections s l).count fd := List.count_pos_iff.mpr hmem
    have hcount := count_step hs hstep fd
    have hnum := numAccepted_step hstep fd
    have hfd := hP fd
    have hfd' := hP' fd
    omega

/-- One worker is allowed for Unix sockets. -/
def oneUnixWorker : SockType → ℕ
  | .unix => 1
  | _ => 0

/-- A connection comes, is served and ends. -/
def servedConnection : List Label :=
  [.poll .unix, .connect .unix .accepted, .exitTest .unix, .maxTest .unix, .spawn .unix,
    .thread 0, .thread 0, .thread 0, .thread 0, .thread 0, .thread 0]

theorem throughout_conserved_servedConnection :
    Throughout (step oneUnixWorker) Conserved (start oneUnixWorker) servedConnection ↔
      Along (step oneUnixWorker) (fun s l => droppedFds oneUnixWorker s l = [])
        (start oneUnixWorker) servedConnection :=
  throughout_conserved_iff (Option.some_get (x := run (step oneUnixWorker) (start oneUnixWorker)
    servedConnection) (by decide)).symm

/-- A second connection comes while the only worker is busy: nobody holds its descriptor any
more, and it has not been closed. -/
theorem not_conserved_of_maxThreads :
    ∃ s, run (step oneUnixWorker) (start oneUnixWorker)
        [.poll .unix, .connect .unix .accepted, .exitTest .unix, .maxTest .unix, .spawn .unix,
          .thread 0, .poll .unix, .connect .unix .accepted, .exitTest .unix, .maxTest .unix]
        = some s ∧
      1 < s.numAccepted ∧ 1 ∉ s.ownedFds ∧ 1 ∉ s.closed ∧ ¬ Conserved s := by
  refine ⟨_, rfl, by decide, by decide, by decide, fun h => ?_⟩
  have hfd := h 1
  revert hfd
  decide

end KoheronSdk
