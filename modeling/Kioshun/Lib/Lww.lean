import Mathlib.Order.Lattice
import Mathlib.Logic.Function.Basic

/-!
# Last writer wins

A map of registers that carry versions. A write replaces a register unless the
register has a greater version. What a sequence of writes leaves in a register is
the write with the greatest version, or the old content if that has a greater
one; so it depends only on which writes there are, not on their order or on how
often each of them comes.
-/

namespace Lww
open Function List

universe u v w

@[ext]
structure Stamped (T : Type v) (E : Type w) where
  ver : T
  content : E

structure Write (Key : Type u) (T : Type v) (E : Type w) where
  key : Key
  ver : T
  content : E

namespace Write
variable {Key : Type u} {T : Type v} {E : Type w}

def stamped (x : Write Key T E) : Stamped T E := ⟨x.ver, x.content⟩

end Write

variable {Key : Type u} {T : Type v} {E : Type w} [DecidableEq Key] [LinearOrder T]

def deliver (s x : Stamped T E) : Stamped T E := if x.ver < s.ver then s else x

/-- A write to the register of its key. -/
def apply (regs : Key → Stamped T E) (x : Write Key T E) : Key → Stamped T E :=
  update regs x.key (deliver (regs x.key) x.stamped)

/-- `r` is what the writes `xs` leave in the register of `k`. -/
def Wins (regs : Key → Stamped T E) (xs : List (Write Key T E)) (k : Key) (r : Stamped T E) :
    Prop :=
  (r = regs k ∧ ∀ x ∈ xs, x.key = k → x.ver < (regs k).ver) ∨
    ∃ x ∈ xs, x.key = k ∧ r = x.stamped ∧ (regs k).ver ≤ x.ver ∧
      ∀ y ∈ xs, y.key = k → y.ver ≤ x.ver

variable {regs : Key → Stamped T E} {k : Key} {r r' : Stamped T E} {x : Write Key T E}
  {xs xs' : List (Write Key T E)}

theorem apply_of_ne (h : x.key ≠ k) : apply regs x k = regs k :=
  update_of_ne (Ne.symm h) _ _

theorem apply_of_lt (hk : x.key = k) (h : x.ver < (regs k).ver) : apply regs x k = regs k := by
  subst hk
  rw [apply, update_self]
  exact if_pos h

theorem apply_of_le (hk : x.key = k) (h : (regs k).ver ≤ x.ver) :
    apply regs x k = x.stamped := by
  subst hk
  rw [apply, update_self]
  exact if_neg (not_lt.mpr h)

theorem Wins.cons (h : Wins (apply regs x) xs k r) : Wins regs (x :: xs) k r := by
  by_cases hk : x.key = k
  · rcases lt_or_ge x.ver (regs k).ver with hlt | hge
    · have heq := apply_of_lt hk hlt
      rcases h with ⟨hr, hall⟩ | ⟨y, hy, hyk, hr, hle, hall⟩
      · refine .inl ⟨hr.trans heq, fun y hy hyk => ?_⟩
        rcases mem_cons.mp hy with rfl | hy
        · exact hlt
        · exact heq ▸ hall y hy hyk
      · rw [heq] at hle
        refine .inr ⟨y, mem_cons_of_mem _ hy, hyk, hr, hle, fun z hz hzk => ?_⟩
        rcases mem_cons.mp hz with rfl | hz
        · exact hlt.le.trans hle
        · exact hall z hz hzk
    · have heq := apply_of_le hk hge
      rcases h with ⟨hr, hall⟩ | ⟨y, hy, hyk, hr, hle, hall⟩
      · refine .inr ⟨x, mem_cons_self, hk, hr.trans heq, hge, fun z hz hzk => ?_⟩
        rcases mem_cons.mp hz with rfl | hz
        · exact le_refl _
        · have hlt := hall z hz hzk
          rw [heq] at hlt
          exact hlt.le
      · have hxy : x.ver ≤ y.ver := by
          rw [heq] at hle
          exact hle
        refine .inr ⟨y, mem_cons_of_mem _ hy, hyk, hr, hge.trans hxy, fun z hz hzk => ?_⟩
        rcases mem_cons.mp hz with rfl | hz
        · exact hxy
        · exact hall z hz hzk
  · have heq : apply regs x k = regs k := apply_of_ne hk
    have hmem : ∀ y ∈ x :: xs, y.key = k → y ∈ xs := by
      intro y hy hyk
      rcases mem_cons.mp hy with rfl | hy
      · exact absurd hyk hk
      · exact hy
    rcases h with ⟨hr, hall⟩ | ⟨y, hy, hyk, hr, hle, hall⟩
    · rw [heq] at hr hall
      exact .inl ⟨hr, fun y hy hyk => hall y (hmem y hy hyk) hyk⟩
    · rw [heq] at hle
      exact .inr ⟨y, mem_cons_of_mem _ hy, hyk, hr, hle, fun z hz hzk => hall z (hmem z hz hzk) hzk⟩

/-- The greatest version wins, whatever the order. -/
theorem foldl_apply_wins (regs : Key → Stamped T E) (xs : List (Write Key T E)) (k : Key) :
    Wins regs xs k (xs.foldl apply regs k) := by
  induction xs generalizing regs with
  | nil => exact .inl ⟨rfl, fun x hx => absurd hx not_mem_nil⟩
  | cons x xs ih => exact (ih (apply regs x)).cons

omit [DecidableEq Key] in
theorem Wins.congr (h : Wins regs xs k r) (hmem : ∀ x, x ∈ xs ↔ x ∈ xs') : Wins regs xs' k r := by
  rcases h with ⟨hr, hall⟩ | ⟨x, hx, hk, hr, hle, hall⟩
  · exact .inl ⟨hr, fun y hy => hall y ((hmem y).mpr hy)⟩
  · exact .inr ⟨x, (hmem x).mp hx, hk, hr, hle, fun y hy => hall y ((hmem y).mpr hy)⟩

/-- Versions tell the writes of a key apart. -/
def Functional (xs : List (Write Key T E)) : Prop :=
  ∀ x ∈ xs, ∀ y ∈ xs, x.key = y.key → x.ver = y.ver → x.content = y.content

omit [DecidableEq Key] in
theorem Wins.unique (h : Wins regs xs k r) (h' : Wins regs xs k r') (hfun : Functional xs) :
    r = r' := by
  rcases h with ⟨hr, hall⟩ | ⟨x, hx, hk, hr, hle, hall⟩
  · rcases h' with ⟨hr', -⟩ | ⟨y, hy, hyk, -, hle, -⟩
    · exact hr.trans hr'.symm
    · exact absurd hle (not_le.mpr (hall y hy hyk))
  · rcases h' with ⟨-, hall'⟩ | ⟨y, hy, hyk, hr', -, hall'⟩
    · exact absurd hle (not_le.mpr (hall' x hx hk))
    · have hver : x.ver = y.ver := le_antisymm (hall' x hx hk) (hall y hy hyk)
      rw [hr, hr']
      exact Stamped.ext hver (hfun x hx y hy (hk.trans hyk.symm) hver)

end Lww
