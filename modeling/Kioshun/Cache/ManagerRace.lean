import Kioshun.Cache.Manager
import Kioshun.Lib.Schedule

/-!
# Calls of the manager that run at once

Any number of calls of `RegisterCache`, `GetCache`, `RemoveCache` and `CloseAll` take their steps
in any order. An instance that has left the registry should be closed, or else its cleanup goroutine
and its memory are never given back. `CloseAll` deletes by name in its second traversal: an instance
that was stored after the first traversal came by is deleted without having been closed.
-/

namespace Kioshun
open Function

universe u v
variable {ι : Type v} {τ : Type u}

/-- The manager and the calls under way. The two lists record the instances that have been stored
in the registry and those whose `GetCache` found another one there; no step reads them. -/
structure ManagerRace (ι : Type v) (τ : Type u) where
  m : Manager τ
  calls : ι → ManagerCall τ
  stored : List Nat
  lost : List Nat

inductive ManagerEvent (ι : Type v) where
  | next (c : ι)
  | look (c : ι) (name : String)
  | visit (c : ι) (k : Nat)

namespace ManagerRace
variable [DecidableEq ι] [DecidableEq τ]

def start (todo : ι → ManagerRequest τ) : ManagerRace ι τ :=
  ⟨Manager.NewManager, fun c => .pending (todo c), [], []⟩

/-- The instances that the step stores, and those that lose. -/
def outcome (m : Manager τ) : ManagerCall τ → List Nat × List Nat
  | .loadOrStore _ name cache =>
    match m.caches.Load name with
    | some _ => ([], [cache])
    | none => ([cache], [])
  | _ => ([], [])

def step (s : ManagerRace ι τ) : ManagerEvent ι → ManagerRace ι τ
  | .next c =>
    let r := s.m.next (s.calls c)
    let o := outcome s.m (s.calls c)
    ⟨r.2, update s.calls c r.1, s.stored ++ o.1, s.lost ++ o.2⟩
  | .look c name =>
    { s with calls := update s.calls c (s.m.look name (s.calls c)) }
  | .visit c k =>
    let r := s.m.visit k (s.calls c)
    { s with m := r.2, calls := update s.calls c r.1 }

def exec (todo : ι → ManagerRequest τ) (es : List (ManagerEvent ι)) : ManagerRace ι τ :=
  Schedule.exec step (start todo) es

/-- An instance that has been stored is in the registry, or it is closed, or the call that has
removed it is about to close it. -/
def Kept (s : ManagerRace ι τ) : Prop :=
  ∀ i ∈ s.stored, (∃ name, s.m.caches.Load name = some i) ∨ s.m.isClosed i = true ∨
    ∃ c, s.calls c = .close i

/-- An instance that came second is closed, or its call is about to close it, and no call returns
it. -/
def Discarded (s : ManagerRace ι τ) : Prop :=
  ∀ i ∈ s.lost, (s.m.isClosed i = true ∨ ∃ c t name actual, s.calls c = .closeOwn t name i actual) ∧
    ∀ c, s.calls c ≠ .returned (.ok (some i))

/-- When `CloseAll` deletes a name, the instance that the name then has is closed. -/
def ClearsClosed (s : ManagerRace ι τ) : ManagerEvent ι → Prop
  | .visit c k =>
    match s.calls c with
    | .clearing r =>
      ∀ name value i, r.found[k]? = some (name, value) → s.m.caches.Load name = some i →
        s.m.isClosed i = true
    | _ => True
  | _ => True

end ManagerRace

namespace ManagerCall

/-- The instance that the call has created and not stored. -/
def owns : ManagerCall τ → Option Nat
  | .loadOrStore _ _ cache => some cache
  | .closeOwn _ _ cache _ => some cache
  | _ => none

def removed : ManagerCall τ → Option Nat
  | .close cached => some cached
  | _ => none

/-- The instance that the call has got from the registry, or put there. -/
def given : ManagerCall τ → Option Nat
  | .closeOwn _ _ _ actual => some actual
  | .returned (.ok r) => r
  | _ => none

end ManagerCall

namespace Manager
variable {m : Manager τ} {i j : Nat}

theorem isClosed_Close : (m.Close i).isClosed j = (m.isClosed j || (decide (i = j) &&
    decide (j < m.instances.length))) := by
  simp only [isClosed, Close, List.getElem?_modify]
  by_cases hj : j < m.instances.length
  · by_cases hij : i = j
    · simp [hij, hj]
    · simp [hij, hj]
  · simp [hj]

theorem isClosed_of_Close (h : m.isClosed j = true) : (m.Close i).isClosed j = true := by
  rw [isClosed_Close, h, Bool.true_or]

theorem isClosed_Close_self (h : i < m.instances.length) : (m.Close i).isClosed i = true := by
  simp [isClosed_Close, h]

theorem length_Close : (m.Close i).instances.length = m.instances.length :=
  List.length_modify ..

theorem isClosed_New {t : τ} {cfg : Config} (h : j < m.instances.length) :
    (m.New t cfg).2.isClosed j = m.isClosed j := by
  simp [isClosed, New, List.getElem?_append_left h]

theorem assertType_cases [DecidableEq τ] (m : Manager τ) (t : τ) (name : String) (i : Nat) :
    m.assertType t name i = .ok (some i) ∨
      m.assertType t name i = .error ⟨"get", name, .ErrTypeMismatch⟩ := by
  unfold assertType
  split
  · exact .inl rfl
  · exact .inr rfl

end Manager

namespace ManagerRace
variable {s s' : ManagerRace ι τ} {e : ManagerEvent ι}

section Steps

variable {c : ι}

/-- The call holds no instance outside the registry. -/
theorem holds_none {call : ManagerCall τ} (hcall : s.calls c = call)
    (h : call.owns = none ∧ call.removed = none) :
    (s.calls c).owns = none ∧ (s.calls c).removed = none := hcall ▸ h

variable [DecidableEq ι]

/-- What a step can do to the registry, the instances and its call. -/
inductive Change (s : ManagerRace ι τ) : ManagerEvent ι → ManagerRace ι τ → Prop
  | rest (e : ManagerEvent ι) : Change s e s
  | proceed (e : ManagerEvent ι) (c : ι) (call : ManagerCall τ) (configs : SyncMap String Config)
      (hold : (s.calls c).owns = none ∧ (s.calls c).removed = none)
      (hnew : call.owns = none ∧ call.removed = none)
      (hgiven : ∀ i, call.given = some i →
        (s.calls c).given = some i ∨ ∃ name, s.m.caches.Load name = some i) :
      Change s e { s with
        m := { s.m with configs := configs }, calls := update s.calls c call }
  | create (c : ι) (t : τ) (name : String) (config : Config)
      (hcall : s.calls c = .create t name config) :
      Change s (.next c) { s with
        m := (s.m.New t config).2
        calls := update s.calls c (.loadOrStore t name s.m.instances.length) }
  | store (c : ι) (t : τ) (name : String) (i : Nat) (hcall : s.calls c = .loadOrStore t name i)
      (hload : s.m.caches.Load name = none) :
      Change s (.next c) { s with
        m := { s.m with caches := s.m.caches.Store name i }
        calls := update s.calls c (.returned (.ok (some i)))
        stored := s.stored ++ [i] }
  | lose (c : ι) (t : τ) (name : String) (i j : Nat) (hcall : s.calls c = .loadOrStore t name i)
      (hload : s.m.caches.Load name = some j) :
      Change s (.next c) { s with
        calls := update s.calls c (.closeOwn t name i j)
        lost := s.lost ++ [i] }
  | discard (c : ι) (t : τ) (name : String) (i j : Nat) (reply : ManagerReply)
      (hcall : s.calls c = .closeOwn t name i j)
      (hreply : ∀ x, reply = .ok (some x) → x = j) :
      Change s (.next c) { s with
        m := s.m.Close i, calls := update s.calls c (.returned reply) }
  | shut (c : ι) (i : Nat) (hcall : s.calls c = .close i) :
      Change s (.next c) { s with
        m := s.m.Close i, calls := update s.calls c (.returned (.ok none)) }
  | sweep (c : ι) (k : Nat) (r r' : SyncMap.Traversal String Nat) (i : Nat)
      (hcall : s.calls c = .closing r) :
      Change s (.visit c k) { s with
        m := s.m.Close i, calls := update s.calls c (.closing r') }
  | remove (c : ι) (name : String) (i : Nat) (hcall : s.calls c = .pending (.RemoveCache name))
      (hload : s.m.caches.Load name = some i) :
      Change s (.next c) { s with
        m := { s.m with caches := s.m.caches.Delete name }
        calls := update s.calls c (.close i) }
  | clear (c : ι) (k : Nat) (r r' : SyncMap.Traversal String Nat) (name : String) (value : Nat)
      (hcall : s.calls c = .clearing r) (hfound : r.found[k]? = some (name, value)) :
      Change s (.visit c k) { s with
        m := { s.m with caches := s.m.caches.Delete name }
        calls := update s.calls c (.clearing r') }

/-- A step that leaves the registry and the instances alone. -/
theorem Change.idle {call : ManagerCall τ}
    (hold : (s.calls c).owns = none ∧ (s.calls c).removed = none)
    (hnew : call.owns = none ∧ call.removed = none)
    (hgiven : call.given = none ∨ call.given = (s.calls c).given) :
    Change s e { s with calls := update s.calls c call } := by
  refine .proceed e c call s.m.configs hold hnew fun i hi => .inl ?_
  rcases hgiven with hnone | hsame
  · cases hnone.symm.trans hi
  · exact hsame.symm.trans hi

variable [DecidableEq τ]

theorem step_next {call call' : ManagerCall τ} {m' : Manager τ} (hcall : s.calls c = call)
    (hnext : s.m.next call = (call', m')) (hout : outcome s.m call = ([], [])) :
    s.step (.next c) = { s with m := m', calls := update s.calls c call' } := by
  simp only [step, hcall, hnext, hout, List.append_nil]

theorem pending_change {r : ManagerRequest τ} (hcall : s.calls c = .pending r) :
    Change s (.next c) (s.step (.next c)) := by
  have hold := holds_none hcall ⟨rfl, rfl⟩
  cases r with
  | RegisterCache name config =>
    rw [step_next hcall rfl rfl]
    unfold Manager.RegisterCache
    cases hload : s.m.configs.Load name with
    | some cfg => exact .idle hold ⟨rfl, rfl⟩ (.inl rfl)
    | none => exact .proceed _ c _ _ hold ⟨rfl, rfl⟩ fun i hi => by cases hi
  | GetCache t name =>
    cases hload : s.m.caches.Load name with
    | some cached =>
      rw [step_next hcall (by simp only [Manager.next, hload]; rfl) rfl]
      refine .proceed _ c _ _ hold ⟨rfl, rfl⟩ fun i hi => .inr ⟨name, ?_⟩
      rcases s.m.assertType_cases t name cached with hok | herr
      · rw [hok] at hi
        exact hload.trans hi
      · rw [herr] at hi
        cases hi
    | none =>
      rw [step_next hcall (by simp only [Manager.next, hload]; rfl) rfl]
      exact .idle hold ⟨rfl, rfl⟩ (.inl rfl)
  | RemoveCache name =>
    cases hload : s.m.caches.Load name with
    | some cached =>
      rw [step_next hcall (by simp only [Manager.next, hload]; rfl) rfl]
      exact .remove c name cached hcall hload
    | none =>
      rw [step_next hcall (by simp only [Manager.next, hload]; rfl) rfl]
      exact .idle hold ⟨rfl, rfl⟩ (.inl rfl)
  | CloseAll =>
    rw [step_next hcall rfl rfl]
    exact .idle hold ⟨rfl, rfl⟩ (.inl rfl)

variable (s : ManagerRace ι τ)

theorem next_change (c : ι) : Change s (.next c) (s.step (.next c)) := by
  cases hcall : s.calls c with
  | pending r => exact pending_change hcall
  | readConfig t name =>
    rw [step_next hcall rfl rfl]
    exact .idle (holds_none hcall ⟨rfl, rfl⟩) ⟨rfl, rfl⟩ (.inl rfl)
  | create t name config =>
    rw [step_next hcall rfl rfl]
    exact .create c t name config hcall
  | loadOrStore t name cache =>
    cases hload : s.m.caches.Load name with
    | some actual =>
      have hstep : s.step (.next c) = { s with
          calls := update s.calls c (.closeOwn t name cache actual)
          lost := s.lost ++ [cache] } := by
        simp only [step, hcall, Manager.next, outcome, hload, List.append_nil]
      rw [hstep]
      exact .lose c t name cache actual hcall hload
    | none =>
      have hstep : s.step (.next c) = { s with
          m := { s.m with caches := s.m.caches.Store name cache }
          calls := update s.calls c (.returned (.ok (some cache)))
          stored := s.stored ++ [cache] } := by
        simp only [step, hcall, Manager.next, outcome, hload, List.append_nil]
      rw [hstep]
      exact .store c t name cache hcall hload
  | closeOwn t name cache actual =>
    rw [step_next hcall rfl rfl]
    refine .discard c t name cache actual _ hcall fun x hx => ?_
    rcases s.m.assertType_cases t name actual with hok | herr
    · rw [hok] at hx
      cases hx
      rfl
    · rw [herr] at hx
      cases hx
  | close cached =>
    rw [step_next hcall rfl rfl]
    exact .shut c cached hcall
  | deleteConfig name =>
    rw [step_next hcall rfl rfl]
    exact .proceed _ c _ _ (holds_none hcall ⟨rfl, rfl⟩) ⟨rfl, rfl⟩ fun i hi => by cases hi
  | closing r =>
    rw [step_next hcall rfl rfl]
    apply Change.idle (holds_none hcall ⟨rfl, rfl⟩)
    · split <;> exact ⟨rfl, rfl⟩
    · split <;> exact .inl rfl
  | closed =>
    rw [step_next hcall rfl rfl]
    exact .idle (holds_none hcall ⟨rfl, rfl⟩) ⟨rfl, rfl⟩ (.inl rfl)
  | clearing r =>
    rw [step_next hcall rfl rfl]
    apply Change.idle (holds_none hcall ⟨rfl, rfl⟩)
    · split <;> exact ⟨rfl, rfl⟩
    · split <;> exact .inl rfl
  | returned r =>
    rw [step_next hcall rfl rfl]
    exact .idle (holds_none hcall ⟨rfl, rfl⟩) ⟨rfl, rfl⟩ (.inr (by rw [hcall]))

theorem visit_change (c : ι) (k : Nat) : Change s (.visit c k) (s.step (.visit c k)) := by
  have hstep : s.step (.visit c k) = { s with
      m := (s.m.visit k (s.calls c)).2
      calls := update s.calls c (s.m.visit k (s.calls c)).1 } := rfl
  have hrest : s.m.visit k (s.calls c) = (s.calls c, s.m) →
      Change s (.visit c k) (s.step (.visit c k)) := by
    intro heq
    rw [hstep, heq, update_eq_self]
    exact .rest _
  cases hcall : s.calls c with
  | closing r =>
    rw [hcall] at hstep hrest
    cases hfound : r.found[k]? with
    | none => exact hrest (by simp only [Manager.visit, hfound])
    | some e =>
      rw [hstep]
      simp only [Manager.visit, hfound]
      exact .sweep c k r _ e.2 hcall
  | clearing r =>
    rw [hcall] at hstep hrest
    cases hfound : r.found[k]? with
    | none => exact hrest (by simp only [Manager.visit, hfound])
    | some e =>
      rw [hstep]
      simp only [Manager.visit, hfound]
      exact .clear c k r _ e.1 e.2 hcall hfound
  | _ => exact hrest (by rw [hcall]; rfl)

theorem step_change (e : ManagerEvent ι) : Change s e (s.step e) := by
  cases e with
  | next c => exact next_change s c
  | look c name =>
    have hstep : s.step (.look c name) =
        { s with calls := update s.calls c (s.m.look name (s.calls c)) } := rfl
    rw [hstep]
    cases hcall : s.calls c with
    | closing r => exact .idle (holds_none hcall ⟨rfl, rfl⟩) ⟨rfl, rfl⟩ (.inl rfl)
    | clearing r => exact .idle (holds_none hcall ⟨rfl, rfl⟩) ⟨rfl, rfl⟩ (.inl rfl)
    | _ =>
      rw [← hcall, show s.m.look name (s.calls c) = s.calls c by rw [hcall]; rfl, update_eq_self]
      exact .rest _
  | visit c k => exact visit_change s c k

end Steps

end ManagerRace

end Kioshun
