import Mathlib.Algebra.GroupWithZero.Nat
import Mathlib.Data.List.Basic

/-!
# Runs over a schedule

A schedule is the list of events that happen, in the order in which they happen.
An event that is not enabled leaves the state alone. A guard is a condition on the
state in which an event happens; it holds along a schedule if it holds at each of
its events.
-/

namespace Schedule
open List

universe u v
variable {σ : Type u} {ε : Type v}

def exec (step : σ → ε → σ) (s : σ) (es : List ε) : σ := es.foldl step s

def Along (step : σ → ε → σ) (guard : σ → ε → Prop) : σ → List ε → Prop
  | _, [] => True
  | s, e :: es => guard s e ∧ Along step guard (step s e) es

variable {step : σ → ε → σ} {guard : σ → ε → Prop} {s : σ} {es fs : List ε} {e : ε}

@[simp] theorem exec_nil : exec step s [] = s := rfl

@[simp] theorem exec_cons : exec step s (e :: es) = exec step (step s e) es := rfl

theorem exec_append : exec step s (es ++ fs) = exec step (exec step s es) fs :=
  foldl_append

theorem exec_concat : exec step s (es ++ [e]) = step (exec step s es) e := exec_append

instance decidableAlong [∀ s e, Decidable (guard s e)] :
    (s : σ) → (es : List ε) → Decidable (Along step guard s es)
  | _, [] => isTrue trivial
  | s, e :: es => @instDecidableAnd _ _ _ (decidableAlong (step s e) es)

theorem along_append :
    Along step guard s (es ++ fs) ↔
      Along step guard s es ∧ Along step guard (exec step s es) fs := by
  induction es generalizing s with
  | nil => exact ⟨fun h => ⟨trivial, h⟩, fun h => h.2⟩
  | cons e es ih => exact (and_congr_right fun _ => ih).trans and_assoc.symm

theorem along_of_forall {P : ε → Prop} (h : ∀ e ∈ es, P e) : Along step (fun _ e => P e) s es := by
  induction es generalizing s with
  | nil => trivial
  | cons e es ih =>
    exact ⟨h e mem_cons_self, ih fun e' he => h e' (mem_cons_of_mem e he)⟩

variable {guard' : σ → ε → Prop}

theorem along_and :
    Along step (fun s e => guard s e ∧ guard' s e) s es ↔
      Along step guard s es ∧ Along step guard' s es := by
  induction es generalizing s with
  | nil => exact ⟨fun _ => ⟨trivial, trivial⟩, fun _ => trivial⟩
  | cons e es ih => exact (and_congr_right fun _ => ih).trans and_and_and_comm

variable {I : σ → Prop}

/-- What every guarded event keeps holds in the end. -/
theorem exec_keeps (keeps : ∀ s e, I s → guard s e → I (step s e)) (h : I s)
    (hguard : Along step guard s es) : I (exec step s es) := by
  induction es generalizing s with
  | nil => exact h
  | cons e es ih => exact ih (keeps s e h hguard.1) hguard.2

/-- The same for what may depend on the number of events so far. -/
theorem exec_counted {I : Nat → σ → Prop} {N n : Nat}
    (keeps : ∀ n s e, n < N → I n s → guard s e → I (n + 1) (step s e)) (h : I n s)
    (hN : n + es.length ≤ N) (hguard : Along step guard s es) :
    I (n + es.length) (exec step s es) := by
  induction es generalizing s n with
  | nil => exact h
  | cons e es ih =>
    rw [length_cons, Nat.add_comm es.length, ← Nat.add_assoc] at hN ⊢
    exact ih (keeps n s e (by omega) h hguard.1) hN hguard.2

/-- What every event keeps holds in the end. -/
theorem exec_invariant (keeps : ∀ s e, I s → I (step s e)) (h : I s) : I (exec step s es) := by
  induction es generalizing s with
  | nil => exact h
  | cons e es ih => exact ih (keeps s e h)

/-- A guard whose violation spoils the end held along the schedule. -/
theorem along_of_final {I Q : σ → Prop} (keeps : ∀ s e, I s → I (step s e))
    (back : ∀ s e, I s → Q (step s e) → Q s) (sound : ∀ s e, I s → Q (step s e) → guard s e)
    (hI : I s) (hQ : Q (exec step s es)) : Q s ∧ Along step guard s es := by
  induction es generalizing s with
  | nil => exact ⟨hQ, trivial⟩
  | cons e es ih =>
    obtain ⟨hnext, halong⟩ := ih (keeps s e hI) hQ
    exact ⟨back s e hI hnext, sound s e hI hnext, halong⟩

/-- A property that a step keeps exactly under its guard holds all along if the guards do. -/
theorem prefixes_iff_along {I Q : σ → Prop} (keeps : ∀ s e, I s → I (step s e))
    (exact : ∀ s e, I s → Q s → (Q (step s e) ↔ guard s e)) (hI : I s) (hQ : Q s) :
    (∀ fs, fs <+: es → Q (exec step s fs)) ↔ Along step guard s es := by
  induction es generalizing s with
  | nil =>
    refine ⟨fun _ => trivial, fun _ fs hfs => ?_⟩
    rw [prefix_nil.mp hfs]
    exact hQ
  | cons e es ih =>
    constructor
    · intro h
      have hnext : Q (step s e) := h [e] (prefix_append [e] es)
      refine ⟨(exact s e hI hQ).mp hnext, (ih (keeps s e hI) hnext).mp fun fs hfs => ?_⟩
      exact h (e :: fs) (prefix_cons_inj e |>.mpr hfs)
    · rintro ⟨hguard, halong⟩ fs hfs
      have hnext := (exact s e hI hQ).mpr hguard
      rcases prefix_cons_iff.mp hfs with rfl | ⟨gs, rfl, hgs⟩
      · exact hQ
      · exact (ih (keeps s e hI) hnext).mpr halong gs hgs

/-- A guard that keeps an invariant implies another guard wherever the invariant holds. -/
theorem along_imp (keeps : ∀ s e, I s → guard s e → I (step s e))
    (imp : ∀ s e, I s → guard s e → guard' s e) (hI : I s) (h : Along step guard s es) :
    Along step guard' s es := by
  induction es generalizing s with
  | nil => trivial
  | cons e es ih => exact ⟨imp s e hI h.1, ih (keeps s e hI h.1) h.2⟩

/-- The events of a schedule, each with the state in which it happens. -/
def turns (step : σ → ε → σ) : σ → List ε → List (σ × ε)
  | _, [] => []
  | s, e :: es => (s, e) :: turns step (step s e) es

/-- What every event keeps holds in the state of every event. -/
theorem turns_invariant (keeps : ∀ s e, I s → I (step s e)) (h : I s) {t : σ × ε}
    (ht : t ∈ turns step s es) : I t.1 := by
  induction es generalizing s with
  | nil => exact absurd ht not_mem_nil
  | cons e es ih =>
    rcases mem_cons.mp ht with rfl | hin
    · exact h
    · exact ih (keeps s e h) hin

/-- A sum over the events of a schedule, each in the state in which it happens. -/
def tally (step : σ → ε → σ) (f : σ → ε → Nat) (s : σ) (es : List ε) : Nat :=
  ((turns step s es).map fun t => f t.1 t.2).sum

theorem tally_cons {f : σ → ε → Nat} :
    tally step f s (e :: es) = f s e + tally step f (step s e) es := by
  simp [tally, turns]

end Schedule
