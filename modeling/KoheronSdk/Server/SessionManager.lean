import Mathlib.Data.List.Perm.Basic
import Mathlib.Data.List.Nodup
import Mathlib.Data.List.Sort
import KoheronSdk.Lib.Transition
import KoheronSdk.Server.Action

/-!
# The session manager

`session_pool`, `reusable_ids` and `number_of_sessions` of `SessionManager`, with
`create_session`, `delete_session` and `delete_all`.  Creating and deleting are atomic;
`delete_all` takes the ids that are in the pool and then deletes one after the other, and
anything may happen in between.

An id comes from the back of `reusable_ids`, or is the number of sessions when there is none.  That
number is a new id only because the ids that are known, live or reusable, are `0, ..., k - 1`
without a gap; this is the invariant.  It makes the id of a new session one that no live session
has, and so `insert`, which would leave an old entry alone, never meets one.

`delete_session` may be called with an id that is not in the pool, twice for one session or by
`delete_all` for a session that has been deleted in the meantime.  It then changes nothing: it looks
first, and an id goes to `reusable_ids` only when it was in the pool.

`std::map` is a list in ascending order of the keys.  What is used of it is `insert`, `erase` and
`find`, with one lemma each for the keys.

* `SessionManager.WellFormed`: the ids in the pool and the reusable ids together are
  `0, ..., k - 1`, each of them once.
* `wellFormed_createSession`, `wellFormed_deleteSession`: both operations keep this.
* `throughout_poolInvariant`: so it holds throughout every run, with any number of callers of
  `delete_all` in between, and no session gets the id of a live one.
-/

namespace KoheronSdk

open Transition

/-- `SessionManager`; `σ` is what a session is for the manager.  `session_pool` is a
`std::map`, a list in ascending order of the keys, and the back of `reusable_ids` is the
end of the list. -/
structure SessionManager (σ : Type) where
  sessionPool : List (SessionID × σ)
  reusableIds : List SessionID
  numberOfSessions : ℕ

namespace SessionManager

variable {σ : Type}

/-- `SessionManager::SessionManager` -/
def empty : SessionManager σ := ⟨[], [], 0⟩

/-- `get_session_ids` -/
def getSessionIds (m : SessionManager σ) : List SessionID := m.sessionPool.map Prod.fst

/-- `get_session`, where `at` throws when there is no such session. -/
def getSession (m : SessionManager σ) (id : SessionID) : Option σ := m.sessionPool.lookup id

/-- `std::map::insert`: an entry with this key is left as it is. -/
def insertSession (pool : List (SessionID × σ)) (id : SessionID) (session : σ) :
    List (SessionID × σ) :=
  if id ∈ pool.map Prod.fst then pool
  else pool.orderedInsert (fun p q => p.1 ≤ q.1) (id, session)

/-- The id that the next session gets, and the ids that are reusable then. -/
def newId (m : SessionManager σ) : SessionID × List SessionID :=
  match m.reusableIds.getLast? with
  | none => (m.numberOfSessions, [])
  | some id => (id, m.reusableIds.dropLast)

/-- `create_session`, for the session object it makes. -/
def createSession (m : SessionManager σ) (session : σ) : SessionID × SessionManager σ :=
  (m.newId.1,
    { sessionPool := insertSession m.sessionPool m.newId.1 session
      reusableIds := m.newId.2
      numberOfSessions := m.numberOfSessions + 1 })

/-- `delete_session`, with the session whose socket is shut down and closed, if any. -/
def deleteSession (m : SessionManager σ) (id : SessionID) : SessionManager σ × Option σ :=
  if id ∉ m.getSessionIds then (m, none)
  else
    ({ sessionPool := m.sessionPool.filter fun p => p.1 ≠ id
       reusableIds := m.reusableIds ++ [id]
       numberOfSessions := m.numberOfSessions - 1 },
      m.getSession id)

/-! ## The pool as a map -/

theorem map_fst_insertSession {pool : List (SessionID × σ)} {id : SessionID} {session : σ}
    (h : id ∉ pool.map Prod.fst) :
    ((insertSession pool id session).map Prod.fst).Perm (id :: pool.map Prod.fst) := by
  rw [insertSession, if_neg h]
  exact (List.perm_orderedInsert _ (id, session) pool).map Prod.fst

theorem map_fst_filter_ne (pool : List (SessionID × σ)) (id : SessionID) :
    (pool.filter fun p => p.1 ≠ id).map Prod.fst = (pool.map Prod.fst).filter (· ≠ id) := by
  rw [List.filter_map]
  rfl

theorem lookup_eq_none_iff {pool : List (SessionID × σ)} {id : SessionID} :
    pool.lookup id = none ↔ id ∉ pool.map Prod.fst := by
  induction pool with
  | nil => simp
  | cons p pool ih =>
    obtain ⟨key, session⟩ := p
    by_cases h : id = key
    · simp [h]
    · simp [List.lookup_cons, h, ih, beq_false_of_ne h]

/-- With every key once, `at` finds the entries of the map. -/
theorem lookup_eq_some_iff {pool : List (SessionID × σ)} (hnodup : (pool.map Prod.fst).Nodup)
    {id : SessionID} {session : σ} : pool.lookup id = some session ↔ (id, session) ∈ pool := by
  induction pool with
  | nil => simp
  | cons p pool ih =>
    obtain ⟨key, s⟩ := p
    obtain ⟨hkey, hrest⟩ := List.nodup_cons.mp hnodup
    by_cases h : id = key
    · subst h
      have hnot : (id, session) ∉ pool := by
        intro hmem
        have hfst : id ∈ pool.map Prod.fst := List.mem_map_of_mem hmem
        exact hkey hfst
      simp [hnot, eq_comm]
    · simp [List.lookup_cons, h, ih hrest, beq_false_of_ne h]

/-! ## The invariant -/

/-- The ids in the pool and the reusable ids together are `0, ..., k - 1`, each of them
once, and `number_of_sessions` is the number of sessions. -/
structure WellFormed (m : SessionManager σ) : Prop where
  ids : (m.getSessionIds ++ m.reusableIds).Perm
    (List.range (m.sessionPool.length + m.reusableIds.length))
  number : m.numberOfSessions = m.sessionPool.length

theorem wellFormed_empty : (empty : SessionManager σ).WellFormed := ⟨List.Perm.refl [], rfl⟩

namespace WellFormed

variable {m : SessionManager σ}

theorem nodup (h : m.WellFormed) : (m.getSessionIds ++ m.reusableIds).Nodup :=
  h.ids.nodup_iff.mpr List.nodup_range

theorem nodup_ids (h : m.WellFormed) : m.getSessionIds.Nodup :=
  (List.nodup_append.mp h.nodup).1

theorem nodup_reusableIds (h : m.WellFormed) : m.reusableIds.Nodup :=
  (List.nodup_append.mp h.nodup).2.1

theorem disjoint (h : m.WellFormed) : List.Disjoint m.getSessionIds m.reusableIds :=
  List.disjoint_of_nodup_append h.nodup

/-- The ids that are known are `0, ..., k - 1`. -/
theorem mem_iff (h : m.WellFormed) (id : SessionID) :
    id ∈ m.getSessionIds ∨ id ∈ m.reusableIds ↔
      id < m.sessionPool.length + m.reusableIds.length := by
  rw [← List.mem_append, h.ids.mem_iff, List.mem_range]

/-- The id of a new session is taken from the reusable ids, or it is the next one. -/
theorem newId_cases (h : m.WellFormed) :
    (m.reusableIds = [] ∧ m.newId = (m.sessionPool.length, [])) ∨
      m.reusableIds = m.newId.2 ++ [m.newId.1] := by
  rcases List.eq_nil_or_concat m.reusableIds with hnil | ⟨ids, id, hconcat⟩
  · refine Or.inl ⟨hnil, ?_⟩
    rw [newId, hnil, List.getLast?_nil, h.number]
  · refine Or.inr ?_
    rw [newId, hconcat, List.concat_eq_append, List.getLast?_concat, List.dropLast_concat]

/-- **No live session has the id of a new session.** -/
theorem newId_fresh (h : m.WellFormed) : m.newId.1 ∉ m.getSessionIds := by
  intro hmem
  rcases h.newId_cases with ⟨hnil, hnew⟩ | hlast
  · have hlt := (h.mem_iff m.newId.1).mp (Or.inl hmem)
    rw [hnil, hnew, List.length_nil] at hlt
    exact absurd hlt (Nat.lt_irrefl _)
  · refine h.disjoint hmem ?_
    rw [hlast]
    exact List.mem_append_right _ (List.mem_singleton_self _)

end WellFormed

/-! ## Creating and deleting -/

/-- `create_session` keeps the invariant. -/
theorem wellFormed_createSession {m : SessionManager σ} (h : m.WellFormed) (session : σ) :
    (m.createSession session).2.WellFormed := by
  have hkeys : ((m.createSession session).2.getSessionIds).Perm (m.newId.1 :: m.getSessionIds) :=
    map_fst_insertSession h.newId_fresh
  have hlen : (m.createSession session).2.sessionPool.length = m.sessionPool.length + 1 := by
    have hperm := hkeys.length_eq
    simpa [getSessionIds] using hperm
  refine ⟨?_, ?_⟩
  · rw [hlen]
    refine (hkeys.append_right _).trans ?_
    rcases h.newId_cases with ⟨hnil, hnew⟩ | hlast
    · have hids := h.ids
      rw [hnil, List.append_nil, List.length_nil, Nat.add_zero] at hids
      have hreusable : (m.createSession session).2.reusableIds = [] := by rw [createSession, hnew]
      rw [hreusable, hnew, List.append_nil, List.length_nil, Nat.add_zero, List.range_succ]
      exact (hids.cons _).trans (List.perm_append_singleton _ _).symm
    · have hids := h.ids
      have hcount : m.sessionPool.length + m.reusableIds.length
          = m.sessionPool.length + 1 + m.newId.2.length := by
        rw [hlast, List.length_append, List.length_singleton]
        omega
      rw [hcount, hlast] at hids
      refine List.Perm.trans ?_ hids
      change (m.newId.1 :: (m.getSessionIds ++ m.newId.2)).Perm _
      rw [← List.append_assoc]
      exact (List.perm_append_singleton _ _).symm
  · rw [hlen, ← h.number]
    rfl

theorem perm_cons_filter_ne {ids : List SessionID} (hnodup : ids.Nodup) {id : SessionID}
    (hmem : id ∈ ids) : (id :: ids.filter (· ≠ id)).Perm ids := by
  have herase : ids.filter (· ≠ id) = ids.erase id := by
    rw [hnodup.erase_eq_filter]
    exact List.filter_congr fun x _ => by by_cases h : x = id <;> simp [h]
  rw [herase]
  exact (List.perm_cons_erase hmem).symm

/-- `delete_session` keeps the invariant. -/
theorem wellFormed_deleteSession {m : SessionManager σ} (h : m.WellFormed) (id : SessionID) :
    (m.deleteSession id).1.WellFormed := by
  by_cases hmem : id ∈ m.getSessionIds
  · rw [deleteSession, if_neg (not_not.mpr hmem)]
    have hperm : (id :: (m.sessionPool.filter fun p => p.1 ≠ id).map Prod.fst).Perm
        m.getSessionIds := by
      rw [map_fst_filter_ne]
      exact perm_cons_filter_ne h.nodup_ids hmem
    have hlen : (m.sessionPool.filter fun p => p.1 ≠ id).length + 1 = m.sessionPool.length := by
      have hcount := hperm.length_eq
      simpa [getSessionIds] using hcount
    refine ⟨?_, ?_⟩
    · have hcount : (m.sessionPool.filter fun p => p.1 ≠ id).length
          + (m.reusableIds ++ [id]).length = m.sessionPool.length + m.reusableIds.length := by
        rw [List.length_append, List.length_singleton]
        omega
      simp only [hcount]
      refine List.Perm.trans ?_ h.ids
      refine List.Perm.trans ?_ (hperm.append_right m.reusableIds)
      rw [getSessionIds, ← List.append_assoc]
      exact List.perm_append_singleton _ _
    · change m.numberOfSessions - 1 = (m.sessionPool.filter fun p => p.1 ≠ id).length
      rw [h.number]
      omega
  · rw [deleteSession, if_pos hmem]
    exact h

/-- A new session is in the pool under its id, and every other one is where it was. -/
theorem getSession_createSession {m : SessionManager σ} (h : m.WellFormed) (session : σ)
    (id : SessionID) :
    (m.createSession session).2.getSession id
      = if id = (m.createSession session).1 then some session else m.getSession id := by
  have hnodup : (m.createSession session).2.getSessionIds.Nodup :=
    (wellFormed_createSession h session).nodup_ids
  have hpool : (m.createSession session).2.sessionPool
      = m.sessionPool.orderedInsert (fun p q => p.1 ≤ q.1) (m.newId.1, session) :=
    if_neg h.newId_fresh
  have hentry : ∀ s, (m.createSession session).2.getSession id = some s ↔
      (id, s) = (m.newId.1, session) ∨ (id, s) ∈ m.sessionPool := by
    intro s
    rw [getSession, lookup_eq_some_iff hnodup, hpool, List.mem_orderedInsert]
  change _ = if id = m.newId.1 then _ else _
  by_cases hid : id = m.newId.1
  · rw [if_pos hid, hentry, hid]
    exact Or.inl rfl
  · rw [if_neg hid]
    refine Option.ext fun s => ?_
    rw [hentry, getSession, lookup_eq_some_iff h.nodup_ids]
    exact ⟨fun hs => hs.resolve_left fun heq => hid (congrArg Prod.fst heq), Or.inr⟩

/-- `delete_session` removes the session of its id and no other. -/
theorem getSession_deleteSession {m : SessionManager σ} (h : m.WellFormed) (id' id : SessionID) :
    (m.deleteSession id').1.getSession id = if id = id' then none else m.getSession id := by
  by_cases hmem : id' ∈ m.getSessionIds
  · have hnodup : ((m.sessionPool.filter fun p => p.1 ≠ id').map Prod.fst).Nodup := by
      rw [map_fst_filter_ne]
      exact h.nodup_ids.filter _
    have hentry : ∀ s, (m.deleteSession id').1.getSession id = some s ↔
        (id, s) ∈ m.sessionPool ∧ id ≠ id' := by
      intro s
      rw [deleteSession, if_neg (not_not.mpr hmem), getSession, lookup_eq_some_iff hnodup,
        List.mem_filter, decide_eq_true_iff]
    by_cases hid : id = id'
    · rw [if_pos hid]
      exact Option.eq_none_iff_forall_ne_some.mpr fun s hs => ((hentry s).mp hs).2 hid
    · rw [if_neg hid]
      refine Option.ext fun s => ?_
      rw [hentry, getSession, lookup_eq_some_iff h.nodup_ids]
      exact ⟨fun hs => hs.1, fun hs => ⟨hs, hid⟩⟩
  · rw [deleteSession, if_pos hmem]
    by_cases hid : id = id'
    · rw [if_pos hid, hid]
      exact lookup_eq_none_iff.mpr hmem
    · rw [if_neg hid]

/-- A session and the rest of the pool. -/
theorem perm_cons_filter {pool : List (SessionID × σ)} (hnodup : (pool.map Prod.fst).Nodup)
    {id : SessionID} {session : σ} (hmem : (id, session) ∈ pool) :
    pool.Perm ((id, session) :: pool.filter fun p => p.1 ≠ id) := by
  induction pool with
  | nil => cases hmem
  | cons p pool ih =>
    obtain ⟨hkey, hnodup'⟩ := List.nodup_cons.mp hnodup
    rcases List.mem_cons.mp hmem with rfl | hmem'
    · have hrest : pool.filter (fun p => p.1 ≠ id) = pool := by
        refine List.filter_eq_self.mpr fun p hp => decide_eq_true ?_
        rintro rfl
        have hfst : p.1 ∈ pool.map Prod.fst := List.mem_map_of_mem hp
        exact hkey hfst
      rw [List.filter_cons_of_neg (by simp), hrest]
    · have hne : p.1 ≠ id := by
        intro heq
        have hfst : id ∈ pool.map Prod.fst := List.mem_map_of_mem hmem'
        exact hkey (heq ▸ hfst)
      have hcons : (p :: pool).filter (fun p => p.1 ≠ id)
          = p :: pool.filter fun p => p.1 ≠ id := List.filter_cons_of_pos (decide_eq_true hne)
      rw [hcons]
      exact ((ih hnodup' hmem').cons p).trans (List.Perm.swap ..)

/-- The session that `delete_session` closes is the one that was in the pool. -/
theorem closed_deleteSession (m : SessionManager σ) (id : SessionID) :
    (m.deleteSession id).2 = m.getSession id := by
  by_cases hmem : id ∈ m.getSessionIds
  · rw [deleteSession, if_neg (not_not.mpr hmem)]
  · rw [deleteSession, if_pos hmem]
    exact (lookup_eq_none_iff.mpr hmem).symm

/-! ## Runs -/

/-- The manager, and the ids that each caller of `delete_all` has still to delete. -/
structure State (σ : Type) where
  manager : SessionManager σ
  ids : ℕ → List SessionID

/-- A call of `create_session` or `delete_session`, and the two kinds of steps of
`delete_all`. -/
inductive Step (σ : Type) where
  | create (session : σ)
  | delete (id : SessionID)
  | deleteAll (caller : ℕ)
  | deleteNext (caller : ℕ)

/-- One step.  A caller of `delete_all` asks for the ids when it has no ids left. -/
def step (s : State σ) : Step σ → Option (State σ)
  | .create session => some { s with manager := (s.manager.createSession session).2 }
  | .delete id => some { s with manager := (s.manager.deleteSession id).1 }
  | .deleteAll caller =>
    if s.ids caller = [] then
      some { s with ids := Function.update s.ids caller s.manager.getSessionIds }
    else none
  | .deleteNext caller =>
    match s.ids caller with
    | [] => none
    | id :: ids => some
      { manager := (s.manager.deleteSession id).1
        ids := Function.update s.ids caller ids }

/-- Nothing has been created, and nobody has called `delete_all`. -/
def State.start : State σ := ⟨empty, fun _ => []⟩

/-- The manager after a step. -/
theorem step_manager {s s' : State σ} {l : Step σ} (h : step s l = some s') :
    s'.manager = s.manager ∨ (∃ session, s'.manager = (s.manager.createSession session).2) ∨
      ∃ id, s'.manager = (s.manager.deleteSession id).1 := by
  cases l with
  | create session =>
    obtain rfl := Option.some.inj h
    exact Or.inr (Or.inl ⟨session, rfl⟩)
  | delete id =>
    obtain rfl := Option.some.inj h
    exact Or.inr (Or.inr ⟨id, rfl⟩)
  | deleteAll caller =>
    obtain ⟨-, hsome⟩ := Option.ite_none_right_eq_some.mp h
    obtain rfl := Option.some.inj hsome
    exact Or.inl rfl
  | deleteNext caller =>
    rw [step] at h
    cases hids : s.ids caller with
    | nil =>
      rw [hids] at h
      cases h
    | cons id ids =>
      rw [hids] at h
      obtain rfl := Option.some.inj h
      exact Or.inr (Or.inr ⟨id, rfl⟩)

theorem wellFormed_step {s s' : State σ} {l : Step σ} (hs : s.manager.WellFormed)
    (h : step s l = some s') : s'.manager.WellFormed := by
  rcases step_manager h with hm | ⟨session, hm⟩ | ⟨id, hm⟩
  · rw [hm]
    exact hs
  · rw [hm]
    exact wellFormed_createSession hs session
  · rw [hm]
    exact wellFormed_deleteSession hs id

/-- The pool and the reusable ids say which ids are known. -/
structure PoolInvariant (m : SessionManager σ) : Prop where
  disjoint : ∀ id, id ∈ m.getSessionIds → id ∉ m.reusableIds
  nodup : m.reusableIds.Nodup
  union : ∀ id, id ∈ m.getSessionIds ∨ id ∈ m.reusableIds ↔
    id < m.sessionPool.length + m.reusableIds.length
  keys : m.getSessionIds.Nodup
  number : m.numberOfSessions = m.sessionPool.length

theorem WellFormed.poolInvariant {m : SessionManager σ} (h : m.WellFormed) : m.PoolInvariant where
  disjoint := fun _ hid hreusable => h.disjoint hid hreusable
  nodup := h.nodup_reusableIds
  union := h.mem_iff
  keys := h.nodup_ids
  number := h.number

/-- `create_session` gives an id that no live session has, and overwrites none. -/
def CreatesFresh (s : State σ) : Step σ → Prop
  | .create session => s.manager.getSession (s.manager.createSession session).1 = none ∧
      ∀ id, (s.manager.createSession session).2.getSession id
        = if id = (s.manager.createSession session).1 then some session
          else s.manager.getSession id
  | _ => True

theorem WellFormed.createsFresh {s : State σ} (h : s.manager.WellFormed) (l : Step σ) :
    CreatesFresh s l := by
  cases l with
  | create session =>
    exact ⟨lookup_eq_none_iff.mpr h.newId_fresh, getSession_createSession h session⟩
  | _ => trivial

/-- **The session-pool invariant holds throughout every run**, and no session ever gets the
id of a live one. -/
theorem throughout_poolInvariant (ls : List (Step σ)) :
    Throughout step (fun s => s.manager.PoolInvariant) State.start ls ∧
      Along step CreatesFresh State.start ls := by
  constructor
  · exact (throughout (I := fun s : State σ => s.manager.WellFormed)
      (fun _ _ _ => wellFormed_step) wellFormed_empty ls).mono fun _ => WellFormed.poolInvariant
  · exact along (I := fun s : State σ => s.manager.WellFormed)
      (fun _ _ _ => wellFormed_step) (fun _ l h => h.createsFresh l) wellFormed_empty ls

end SessionManager

end KoheronSdk
