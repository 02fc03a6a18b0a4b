import Mathlib.Data.Finset.Update
import Mathlib.Data.List.Basic
import KoheronSdk.Lib.Transition

/-!
# Calls that take time

Parties call objects.  A call begins with the states that it finds and leaves others behind when it
ends; in between the other parties go on.  Where the calls that are going on have no object in
common, it is as if they had been made one after the other, each at the moment it ends.

## Reach

An object may be built on others, and a call of it then reads and changes the states of these as
well.  So a call has a *reach*, a finite set of objects, and what it finds and leaves behind is a
family of states over this set: by its type it cannot depend on an object outside, nor change one.
What is begun keeps the states as they were at the begin; when the call ends, its results replace
whatever has become of its reach in the meantime.  Two calls that go on at once with an object in
common therefore undo each other's effects, and nothing here excludes this: it is for whoever calls
the objects to keep them `Apart`.

## Two ways to be undisturbed

If *all* calls that go on at once are apart, the states are those of one sequence of calls
(`Serialized`).  This needs that no two parties get in each other's way.  A single party can do with
less: where nobody else reaches into a region of the objects, the region is as the party's own calls
have left it, whatever the others do to one another (`Isolated`).

## Results

* `Behaviour`: what the calls of an object can return, and the states that they leave behind.
* `Objects`: the states, the calls that have begun, and those that have ended in their order.
* `Serialized.enter`, `Serialized.leave`: the calls that have ended, one after the other, lead to
  the states; it stays so when a call begins, and when one ends while the calls are apart.
* `Isolated.enter`, `Isolated.leave`: the same for one party and its region.
* `Separate.apart`: calls are apart if those of one object exclude each other, and different objects
  that different parties use share nothing.
* `run_own`: a part of the states that only one party changes is as its own calls have left it.
-/

namespace Atomicity

open Transition

variable {ι κ C R σ : Type*}

/-! ## Objects -/

/-- A call that has ended. -/
structure Done (κ C R : Type*) where
  object : κ
  call : C
  value : R
  deriving DecidableEq

/-- The objects that a call reaches, and their states after it, if this value can have been
returned. -/
structure Behaviour (κ C R σ : Type*) where
  reach : κ → Finset κ
  after : (d : κ) → C → (reach d → σ) → R → Option (reach d → σ)

/-- A call that has begun, with the states that it has found. -/
structure Begun (κ C σ : Type*) where
  object : κ
  call : C
  found : κ → σ

/-- The objects, where each party is, and what has been done. -/
structure Objects (ι κ C R σ : Type*) where
  state : κ → σ
  begun : ι → Option (Begun κ C σ)
  history : List (ι × Done κ C R)

namespace Behaviour

variable [DecidableEq κ] (b : Behaviour κ C R σ)

/-- A call that is made at once. -/
def step (s : κ → σ) (x : Done κ C R) : Option (κ → σ) :=
  (b.after x.object x.call ((b.reach x.object).restrict s) x.value).map
    (Function.updateFinset s (b.reach x.object))

/-- A call that reaches no object outside. -/
def Within (D : Finset κ) (x : Done κ C R) : Prop := b.reach x.object ⊆ D

instance (D : Finset κ) : DecidablePred (b.Within D) := fun x =>
  inferInstanceAs (Decidable (b.reach x.object ⊆ D))

/-- Objects that have nothing to do with each other. -/
def ofOwn (f : κ → C → σ → R → Option σ) : Behaviour κ C R σ where
  reach d := {d}
  after d c found v := (f d c (found ⟨d, Finset.mem_singleton_self d⟩) v).map fun t _ => t

variable {b}

theorem step_eq_some {s s' : κ → σ} {x : Done κ C R} : b.step s x = some s' ↔
    ∃ t, b.after x.object x.call ((b.reach x.object).restrict s) x.value = some t ∧
      Function.updateFinset s (b.reach x.object) t = s' :=
  Option.map_eq_some_iff

theorem step_ofOwn {f : κ → C → σ → R → Option σ} {s s' : κ → σ} {x : Done κ C R} :
    (ofOwn f).step s x = some s' ↔
      ∃ t, f x.object x.call (s x.object) x.value = some t ∧
        Function.update s x.object t = s' := by
  have hsingle : ∀ t : σ, Function.updateFinset s {x.object} (fun _ => t)
      = Function.update s x.object t := fun _ => Function.updateFinset_singleton
  rw [step_eq_some]
  constructor
  · rintro ⟨_, hafter, rfl⟩
    obtain ⟨t, ht, rfl⟩ := Option.map_eq_some_iff.mp hafter
    exact ⟨t, ht, (hsingle t).symm⟩
  · rintro ⟨t, ht, rfl⟩
    exact ⟨fun _ => t, Option.map_eq_some_iff.mpr ⟨t, ht, rfl⟩, hsingle t⟩

/-- A call depends on its reach only, and changes nothing else. -/
theorem exists_step {s t s' : κ → σ} {x : Done κ C R} {D : Finset κ} (hwithin : b.Within D x)
    (hagree : ∀ k ∈ D, t k = s k) (hstep : b.step s x = some s') :
    ∃ t', b.step t x = some t' ∧ ∀ k ∈ D, t' k = s' k := by
  obtain ⟨y, hy, rfl⟩ := step_eq_some.mp hstep
  have hfound : (b.reach x.object).restrict t = (b.reach x.object).restrict s :=
    funext fun k => hagree k (hwithin k.2)
  refine ⟨_, step_eq_some.mpr ⟨y, hfound ▸ hy, rfl⟩, fun k hk => ?_⟩
  rw [Function.updateFinset, Function.updateFinset]
  split
  · rfl
  · exact hagree k hk

end Behaviour

/-- What one party has done. -/
def own [DecidableEq ι] {α : Type*} (h : List (ι × α)) (i : ι) : List α :=
  (h.filter fun p => p.1 = i).map Prod.snd

namespace Objects

variable [DecidableEq ι] [DecidableEq κ] (b : Behaviour κ C R σ) (w : Objects ι κ C R σ) (i : ι)

/-- No call has begun. -/
def start (s : κ → σ) : Objects ι κ C R σ where
  state := s
  begun := fun _ => none
  history := []

/-- Party `i` begins a call. -/
def enter (d : κ) (c : C) : Objects ι κ C R σ :=
  { w with begun := Function.update w.begun i (some ⟨d, c, w.state⟩) }

/-- What a call leaves behind that has begun and returns this value. -/
def result (x : Begun κ C σ) (v : R) : Option (b.reach x.object → σ) :=
  b.after x.object x.call ((b.reach x.object).restrict x.found) v

/-- Its call can return this value. -/
def Admits (v : R) : Prop :=
  ∃ x t, w.begun i = some x ∧ result b x v = some t

/-- Its call ends. -/
def leave (v : R) : Objects ι κ C R σ :=
  match w.begun i with
  | none => w
  | some x =>
    match result b x v with
    | none => w
    | some t =>
      { state := Function.updateFinset w.state (b.reach x.object) t
        begun := Function.update w.begun i none
        history := w.history ++ [(i, ⟨x.object, x.call, v⟩)] }

/-- No two parties are inside calls with an object in common. -/
def Apart : Prop :=
  ∀ i j x y, w.begun i = some x → w.begun j = some y → i ≠ j →
    Disjoint (b.reach x.object) (b.reach y.object)

/-- Nobody but party `i` is inside a call that reaches into the region, and its own call does so
only if it stays there. -/
def Parted (D : Finset κ) : Prop :=
  ∀ j x, w.begun j = some x →
    Disjoint (b.reach x.object) D ∨ j = i ∧ b.reach x.object ⊆ D

variable {b w i}

omit [DecidableEq κ] in
theorem begun_enter_self (w : Objects ι κ C R σ) (i : ι) (d : κ) (c : C) :
    (w.enter i d c).begun i = some ⟨d, c, w.state⟩ := Function.update_self _ _ _

omit [DecidableEq κ] in
theorem begun_enter_of_ne (w : Objects ι κ C R σ) {j : ι} (d : κ) (c : C) (h : j ≠ i) :
    (w.enter i d c).begun j = w.begun j := Function.update_of_ne h _ _

theorem leave_eq {v : R} {x : Begun κ C σ} {t : b.reach x.object → σ} (hx : w.begun i = some x)
    (ht : result b x v = some t) : w.leave b i v =
      { state := Function.updateFinset w.state (b.reach x.object) t
        begun := Function.update w.begun i none
        history := w.history ++ [(i, ⟨x.object, x.call, v⟩)] } := by
  rw [leave, hx]
  dsimp only
  rw [ht]

/-- Outside the reach of the call that ends nothing changes. -/
theorem updateFinset_of_disjoint {s : κ → σ} {r r' : Finset κ} (h : Disjoint r r') (t : r → σ)
    {k : κ} (hk : k ∈ r') : Function.updateFinset s r t k = s k :=
  dif_neg fun hmem => Finset.disjoint_left.mp h hmem hk

omit [DecidableEq ι] in
/-- A call that finds what is there now makes the step of a call that is made at once. -/
theorem step_of_result {x : Begun κ C σ} {v : R} {t : b.reach x.object → σ}
    (hfound : ∀ k ∈ b.reach x.object, x.found k = w.state k) (ht : result b x v = some t) :
    b.step w.state ⟨x.object, x.call, v⟩
      = some (Function.updateFinset w.state (b.reach x.object) t) := by
  have hrestrict : (b.reach x.object).restrict x.found = (b.reach x.object).restrict w.state :=
    funext fun k => hfound k k.2
  rw [result, hrestrict] at ht
  exact Behaviour.step_eq_some.mpr ⟨t, ht, rfl⟩

end Objects

section Own

variable [DecidableEq ι] {α : Type*} (h : List (ι × α)) {i j : ι} (x : α)

theorem mem_own {h : List (ι × α)} {y : ι × α} (hy : y ∈ h) : y.2 ∈ own h y.1 :=
  List.mem_map_of_mem (List.mem_filter.mpr ⟨hy, decide_eq_true rfl⟩)

theorem own_concat_self : own (h ++ [(i, x)]) i = own h i ++ [x] := by
  simp [own]

theorem own_concat_of_ne (hne : j ≠ i) : own (h ++ [(i, x)]) j = own h j := by
  simp [own, Ne.symm hne]

end Own

variable [DecidableEq ι] [DecidableEq κ] {b : Behaviour κ C R σ} {s₀ : κ → σ}
  {w : Objects ι κ C R σ} {i : ι}

/-! ## All parties together -/

/-- The calls that have ended, made at once and in this order, lead to the states of the objects,
and these are what the calls that have begun have found. -/
structure Serialized (b : Behaviour κ C R σ) (s₀ : κ → σ) (w : Objects ι κ C R σ) : Prop where
  history : run b.step s₀ (w.history.map Prod.snd) = some w.state
  found : ∀ i x, w.begun i = some x → ∀ k ∈ b.reach x.object, x.found k = w.state k

omit [DecidableEq ι] in
theorem serialized_start : Serialized b s₀ (Objects.start s₀ : Objects ι κ C R σ) :=
  ⟨rfl, fun i x hx => by cases hx⟩

/-- **A call begins.** -/
theorem Serialized.enter (h : Serialized b s₀ w) (d : κ) (c : C) :
    Serialized b s₀ (w.enter i d c) := by
  refine ⟨h.history, fun j x hx => ?_⟩
  by_cases hj : j = i
  · subst hj
    rw [Objects.begun_enter_self] at hx
    obtain rfl := Option.some.inj hx
    exact fun k _ => rfl
  · rw [Objects.begun_enter_of_ne w d c hj] at hx
    exact h.found j x hx

/-- **A call ends.**  Nobody has changed its reach since it began, and nobody else has found a
state that it replaces. -/
theorem Serialized.leave (h : Serialized b s₀ w) (hapart : w.Apart b) {v : R}
    (hv : w.Admits b i v) : Serialized b s₀ (w.leave b i v) := by
  obtain ⟨x, t, hx, ht⟩ := hv
  rw [Objects.leave_eq hx ht]
  refine ⟨?_, fun j y hy => ?_⟩
  · rw [List.map_append, run_append, h.history]
    exact run_cons_eq_some.mpr ⟨_, Objects.step_of_result (h.found i x hx) ht, rfl⟩
  · dsimp only at hy ⊢
    by_cases hj : j = i
    · rw [hj, Function.update_self] at hy
      cases hy
    · rw [Function.update_of_ne hj] at hy
      intro k hk
      rw [Objects.updateFinset_of_disjoint (hapart i j x y hx hy (Ne.symm hj)) t hk]
      exact h.found j y hy k hk

/-- Different objects that different parties use share nothing. -/
def Behaviour.Separate (b : Behaviour κ C R σ) (uses : ι → Set κ) : Prop :=
  ∀ i j, i ≠ j → ∀ d ∈ uses i, ∀ e ∈ uses j, d = e ∨ Disjoint (b.reach d) (b.reach e)

omit [DecidableEq ι] in
theorem Behaviour.separate_ofOwn (f : κ → C → σ → R → Option σ) (uses : ι → Set κ) :
    (ofOwn f).Separate uses := by
  intro i j _ d _ e _
  by_cases hde : d = e
  · exact Or.inl hde
  · exact Or.inr (Finset.disjoint_singleton.mpr hde)

omit [DecidableEq ι] [DecidableEq κ] in
/-- Calls are apart when those of one object exclude each other. -/
theorem Behaviour.Separate.apart {uses : ι → Set κ} (h : b.Separate uses)
    (huses : ∀ i x, w.begun i = some x → x.object ∈ uses i)
    (halone : ∀ i j x y, w.begun i = some x → w.begun j = some y → x.object = y.object → i = j) :
    w.Apart b := by
  intro i j x y hx hy hne
  refine (h i j hne _ (huses i x hx) _ (huses j y hy)).resolve_left fun hobject => ?_
  exact hne (halone i j x y hx hy hobject)

/-! ## One party alone -/

/-- The calls of party `i` that stay in the region, made at once, lead to the states that are
there, and these are what its call has found. -/
structure Isolated (b : Behaviour κ C R σ) (s₀ : κ → σ) (D : Finset κ) (i : ι)
    (w : Objects ι κ C R σ) : Prop where
  history : ∃ t, run b.step s₀ ((own w.history i).filter (b.Within D)) = some t ∧
    ∀ k ∈ D, t k = w.state k
  found : ∀ x, w.begun i = some x → ∀ k ∈ D, x.found k = w.state k

variable {D : Finset κ} {j : ι}

/-- **A call begins**, of this party or of another one. -/
theorem Isolated.enter (h : Isolated b s₀ D i w) (d : κ) (c : C) :
    Isolated b s₀ D i (w.enter j d c) := by
  refine ⟨h.history, fun x hx => ?_⟩
  by_cases hi : i = j
  · subst hi
    rw [Objects.begun_enter_self] at hx
    obtain rfl := Option.some.inj hx
    exact fun k _ => rfl
  · rw [Objects.begun_enter_of_ne w d c hi] at hx
    exact h.found x hx

/-- **A call ends**, of this party or of another one. -/
theorem Isolated.leave (h : Isolated b s₀ D i w) (hparted : w.Parted b i D) {v : R}
    (hv : w.Admits b j v) : Isolated b s₀ D i (w.leave b j v) := by
  obtain ⟨x, t, hx, ht⟩ := hv
  obtain ⟨s, hrun, hagree⟩ := h.history
  rw [Objects.leave_eq hx ht]
  by_cases hi : j = i
  · subst hi
    refine ⟨?_, fun y hy => ?_⟩
    · dsimp only
      rw [own_concat_self, List.filter_append]
      by_cases hwithin : b.Within D ⟨x.object, x.call, v⟩
      · have hstep := Objects.step_of_result (fun k hk => h.found x hx k (hwithin hk)) ht
        obtain ⟨s', hs', hagree'⟩ := Behaviour.exists_step hwithin hagree hstep
        have hlast : [(⟨x.object, x.call, v⟩ : Done κ C R)].filter (b.Within D)
            = [⟨x.object, x.call, v⟩] := List.filter_cons_of_pos (decide_eq_true hwithin)
        refine ⟨s', ?_, hagree'⟩
        rw [hlast, run_append, hrun]
        exact run_cons_eq_some.mpr ⟨s', hs', rfl⟩
      · -- a call that does not stay in the region does not reach into it
        have hdisjoint := (hparted j x hx).resolve_right fun hown => hwithin hown.2
        have hlast : [(⟨x.object, x.call, v⟩ : Done κ C R)].filter (b.Within D) = [] :=
          List.filter_cons_of_neg (by simpa using hwithin)
        refine ⟨s, by rw [hlast, List.append_nil, hrun], fun k hk => ?_⟩
        rw [Objects.updateFinset_of_disjoint hdisjoint t hk]
        exact hagree k hk
    · dsimp only at hy
      rw [Function.update_self] at hy
      cases hy
  · have hdisjoint := (hparted j x hx).resolve_right fun hown => hi hown.1
    refine ⟨⟨s, ?_, fun k hk => ?_⟩, fun y hy k hk => ?_⟩
    · dsimp only
      rw [own_concat_of_ne _ _ (Ne.symm hi)]
      exact hrun
    · dsimp only
      rw [Objects.updateFinset_of_disjoint hdisjoint t hk]
      exact hagree k hk
    · dsimp only at hy ⊢
      rw [Function.update_of_ne (Ne.symm hi)] at hy
      rw [Objects.updateFinset_of_disjoint hdisjoint t hk]
      exact h.found y hy k hk

/-! ## A part of the states -/

/-- **What nobody else touches.**  Where the calls of one party change a part of the states in a
way of their own, and those of the others leave it as it is, it is as if the party had been
alone. -/
theorem run_own {τ : Type*} {part : (κ → σ) → τ} {f : τ → Done κ C R → Option τ}
    {P : ι → Done κ C R → Prop}
    (hmine : ∀ s x s', P i x → b.step s x = some s' → f (part s) x = some (part s'))
    (hother : ∀ j s x s', j ≠ i → P j x → b.step s x = some s' → part s' = part s)
    {h : List (ι × Done κ C R)} (hP : ∀ y ∈ h, P y.1 y.2) {s s' : κ → σ}
    (hrun : run b.step s (h.map Prod.snd) = some s') :
    run f (part s) (own h i) = some (part s') := by
  induction h generalizing s with
  | nil =>
    obtain rfl := Option.some.inj hrun
    rfl
  | cons y h ih =>
    obtain ⟨hy, hP⟩ := List.forall_mem_cons.mp hP
    obtain ⟨t, hstep, hrest⟩ := run_cons_eq_some.mp hrun
    have htail := ih hP hrest
    by_cases hi : y.1 = i
    · have hown : own (y :: h) i = y.2 :: own h i := by simp [own, hi]
      rw [hown]
      exact run_cons_eq_some.mpr ⟨_, hmine s y.2 t (hi ▸ hy) hstep, htail⟩
    · have hown : own (y :: h) i = own h i := by simp [own, hi]
      rw [hown, ← hother y.1 s y.2 t hi hy hstep]
      exact htail

end Atomicity
