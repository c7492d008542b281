import Mathlib.Logic.Relation
import Mathlib.Order.Basic

/-!
# Happens before

Events are ordered by the program of the process they belong to and by the
messages that lead from one to another. A clock with a reading before and after
each event that follows both kinds of edges follows their transitive closure.
-/

namespace Causality

variable {E : Type*} {T : Type*} [Preorder T]

/-- One step of the order: the same process, or a message. -/
inductive Direct (program message : E → E → Prop) : E → E → Prop where
  | program {e e' : E} (h : program e e') : Direct program message e e'
  | message {e e' : E} (h : message e e') : Direct program message e e'

def HappensBefore (program message : E → E → Prop) : E → E → Prop :=
  Relation.TransGen (Direct program message)

/-- The readings of the processes' clocks before and after each event. -/
structure Clock (program message : E → E → Prop) (before after : E → T) : Prop where
  tick : ∀ e, before e ≤ after e
  program : ∀ {e e'}, program e e' → after e ≤ before e'
  message : ∀ {e e'}, message e e' → after e ≤ after e'

variable {program message : E → E → Prop} {before after : E → T} {e e' : E}

section
variable (h : Clock program message before after)
include h

theorem Clock.direct (hd : Direct program message e e') : after e ≤ after e' := by
  cases hd with
  | program hp => exact (h.program hp).trans (h.tick e')
  | message hm => exact h.message hm

theorem Clock.le (hb : Relation.ReflTransGen (Direct program message) e e') :
    after e ≤ after e' := by
  induction hb with
  | refl => exact le_refl _
  | tail _ hd ih => exact ih.trans (h.direct hd)

/-- An event that moves the clock and receives nothing is strictly later than all before it. -/
theorem Clock.lt (hb : HappensBefore program message e e') (hmoves : before e' < after e')
    (hlocal : ∀ e, ¬ message e e') : after e < after e' := by
  obtain ⟨mid, hmid, hlast⟩ := Relation.TransGen.tail'_iff.mp hb
  cases hlast with
  | program hp => exact ((h.le hmid).trans (h.program hp)).trans_lt hmoves
  | message hm => exact absurd hm (hlocal mid)

end

end Causality
