import Mathlib.Logic.Function.Basic
import Mathlib.Data.List.Basic

/-!
# A store of cells with two links

Cells carry a body and two nullable links, and are addressed by numbers. New
cells are taken at the break; no cell is ever returned. Assigning through a nil
pointer does not change any cell and sets `faulted`.
-/

namespace CellStore
open Function

universe u

abbrev Addr := Nat

structure Cell (β : Type u) where
  body : β
  prev : Option Addr
  next : Option Addr

structure Store (β : Type u) where
  cell : Addr → Cell β
  brk : Addr
  faulted : Bool

namespace Store
variable {β : Type u}

def next (st : Store β) (a : Addr) : Option Addr := (st.cell a).next

def prev (st : Store β) (a : Addr) : Option Addr := (st.cell a).prev

def body (st : Store β) (a : Addr) : β := (st.cell a).body

def fault (st : Store β) : Store β := { st with faulted := true }

def modify (st : Store β) (a : Addr) (f : Cell β → Cell β) : Store β :=
  { st with cell := update st.cell a (f (st.cell a)) }

/-- `p.next = q`. -/
def assignNext (st : Store β) (p q : Option Addr) : Store β :=
  match p with
  | none => st.fault
  | some a => st.modify a fun c => { c with next := q }

/-- `p.prev = q`. -/
def assignPrev (st : Store β) (p q : Option Addr) : Store β :=
  match p with
  | none => st.fault
  | some a => st.modify a fun c => { c with prev := q }

def assignBody (st : Store β) (a : Addr) (f : β → β) : Store β :=
  st.modify a fun c => { c with body := f c.body }

def alloc (st : Store β) (b : β) : Addr × Store β :=
  (st.brk, { st with cell := update st.cell st.brk ⟨b, none, none⟩, brk := st.brk + 1 })

section Fields
variable (st : Store β) (a : Addr) (p q : Option Addr) (f : β → β) (b : β)

@[simp] theorem next_assignNext : (st.assignNext (some a) q).next = update st.next a q := by
  funext c
  by_cases h : c = a
  · subst c; simp [assignNext, modify, next]
  · simp [assignNext, modify, next, h]

@[simp] theorem prev_assignPrev : (st.assignPrev (some a) q).prev = update st.prev a q := by
  funext c
  by_cases h : c = a
  · subst c; simp [assignPrev, modify, prev]
  · simp [assignPrev, modify, prev, h]

/-- What a change of one cell keeps, it keeps everywhere. -/
theorem modify_keeps {γ : Type*} (g : Cell β → γ) (h : Cell β → Cell β)
    (keeps : ∀ c, g (h c) = g c) (c : Addr) :
    g ((st.modify a h).cell c) = g (st.cell c) := by
  by_cases hc : c = a
  · subst c; simp [modify, keeps]
  · simp [modify, hc]

@[simp] theorem prev_assignNext : (st.assignNext p q).prev = st.prev := by
  funext c
  cases p with
  | none => rfl
  | some a => exact st.modify_keeps a Cell.prev (fun c => { c with next := q }) (fun _ => rfl) c

@[simp] theorem next_assignPrev : (st.assignPrev p q).next = st.next := by
  funext c
  cases p with
  | none => rfl
  | some a => exact st.modify_keeps a Cell.next (fun c => { c with prev := q }) (fun _ => rfl) c

@[simp] theorem body_assignNext : (st.assignNext p q).body = st.body := by
  funext c
  cases p with
  | none => rfl
  | some a => exact st.modify_keeps a Cell.body (fun c => { c with next := q }) (fun _ => rfl) c

@[simp] theorem body_assignPrev : (st.assignPrev p q).body = st.body := by
  funext c
  cases p with
  | none => rfl
  | some a => exact st.modify_keeps a Cell.body (fun c => { c with prev := q }) (fun _ => rfl) c

@[simp] theorem next_assignBody : (st.assignBody a f).next = st.next :=
  funext fun c =>
    st.modify_keeps a Cell.next (fun c => { c with body := f c.body }) (fun _ => rfl) c

@[simp] theorem prev_assignBody : (st.assignBody a f).prev = st.prev :=
  funext fun c =>
    st.modify_keeps a Cell.prev (fun c => { c with body := f c.body }) (fun _ => rfl) c

@[simp] theorem body_assignBody : (st.assignBody a f).body = update st.body a (f (st.body a)) := by
  funext c
  by_cases h : c = a
  · subst c; simp [assignBody, modify, body]
  · simp [assignBody, modify, body, h]

@[simp] theorem prev_assignPrev_none : (st.assignPrev none q).prev = st.prev := rfl

@[simp] theorem brk_assignNext : (st.assignNext p q).brk = st.brk := by cases p <;> rfl

@[simp] theorem brk_assignPrev : (st.assignPrev p q).brk = st.brk := by cases p <;> rfl

@[simp] theorem faulted_assignNext : (st.assignNext (some a) q).faulted = st.faulted := rfl

@[simp] theorem faulted_assignPrev : (st.assignPrev p q).faulted = (st.faulted || p.isNone) := by
  cases p
  · exact (Bool.or_true _).symm
  · exact (Bool.or_false _).symm

@[simp] theorem brk_assignBody : (st.assignBody a f).brk = st.brk := rfl

@[simp] theorem faulted_assignBody : (st.assignBody a f).faulted = st.faulted := rfl

theorem cell_assignBody_of_ne {c : Addr} (h : c ≠ a) : (st.assignBody a f).cell c = st.cell c := by
  simp [assignBody, modify, h]

@[simp] theorem fst_alloc : (st.alloc b).1 = st.brk := rfl

@[simp] theorem brk_alloc : (st.alloc b).2.brk = st.brk + 1 := rfl

theorem cell_alloc_of_ne {c : Addr} (h : c ≠ st.brk) : (st.alloc b).2.cell c = st.cell c := by
  simp [alloc, h]

@[simp] theorem next_alloc : (st.alloc b).2.next = update st.next st.brk none := by
  funext c
  by_cases h : c = st.brk
  · subst c; simp [alloc, next]
  · simp [alloc, next, h]

@[simp] theorem prev_alloc : (st.alloc b).2.prev = update st.prev st.brk none := by
  funext c
  by_cases h : c = st.brk
  · subst c; simp [alloc, prev]
  · simp [alloc, prev, h]

@[simp] theorem body_alloc : (st.alloc b).2.body = update st.body st.brk b := by
  funext c
  by_cases h : c = st.brk
  · subst c; simp [alloc, body]
  · simp [alloc, body, h]

end Fields

theorem ext_fields {st st' : Store β} (hn : st.next = st'.next) (hp : st.prev = st'.prev)
    (hb : st.body = st'.body) (hbrk : st.brk = st'.brk) (hf : st.faulted = st'.faulted) :
    st = st' := by
  have hcell : st.cell = st'.cell := by
    funext a
    have h1 : (st.cell a).next = (st'.cell a).next := congrFun hn a
    have h2 : (st.cell a).prev = (st'.cell a).prev := congrFun hp a
    have h3 : (st.cell a).body = (st'.cell a).body := congrFun hb a
    cases hc : st.cell a
    cases hc' : st'.cell a
    simp_all
  cases st
  cases st'
  simp_all

structure Relinked (cells : List Addr) (st st' : Store β) : Prop where
  frame : ∀ a, a ∉ cells → st'.cell a = st.cell a
  body : st'.body = st.body
  brk : st'.brk = st.brk
  faulted : st'.faulted = st.faulted

namespace Relinked
variable {cells : List Addr} {st st' st'' : Store β}

theorem refl (cells : List Addr) (st : Store β) : Relinked cells st st :=
  ⟨fun _ _ => rfl, rfl, rfl, rfl⟩

theorem trans (h : Relinked cells st st') (h' : Relinked cells st' st'') :
    Relinked cells st st'' where
  frame := fun a ha => (h'.frame a ha).trans (h.frame a ha)
  body := h'.body.trans h.body
  brk := h'.brk.trans h.brk
  faulted := h'.faulted.trans h.faulted

theorem assignNext {a : Addr} (ha : a ∈ cells) (q : Option Addr) :
    Relinked cells st (st.assignNext (some a) q) where
  frame := by
    intro c hc
    have hne : c ≠ a := fun h => hc (h ▸ ha)
    simp [Store.assignNext, modify, hne]
  body := body_assignNext st (some a) q
  brk := rfl
  faulted := rfl

theorem assignPrev {a : Addr} (ha : a ∈ cells) (q : Option Addr) :
    Relinked cells st (st.assignPrev (some a) q) where
  frame := by
    intro c hc
    have hne : c ≠ a := fun h => hc (h ▸ ha)
    simp [Store.assignPrev, modify, hne]
  body := body_assignPrev st (some a) q
  brk := rfl
  faulted := rfl

theorem mono {cells' : List Addr} (h : Relinked cells st st')
    (hsub : ∀ a ∈ cells, a ∈ cells') : Relinked cells' st st' where
  frame := fun a ha => h.frame a fun hc => ha (hsub a hc)
  body := h.body
  brk := h.brk
  faulted := h.faulted

end Relinked

end Store

end CellStore
