import Kioshun.Lib.CellStore
import Kioshun.Lib.Iteration

/-!
# Items, the item pool and the Go runtime

Every `cacheItem` is a cell of an explicit store. The runtime also holds what
the cache cannot choose: the readings of the wall clock, the order of each
`range` over a map, and which cell `sync.Pool` hands out. These are read from
arbitrary streams, so a statement about all runtimes covers all outcomes.
-/

namespace Kioshun

open CellStore

universe u v

/-- The fields of `cacheItem` besides its list links; a nil `key` is `none` and
`expireTime = 0` means no expiration. -/
structure ItemBody (K : Type u) (V : Type v) where
  value : V
  expireTime : Int
  lastAccess : Int
  frequency : Int
  key : Option K

/-- Successive readings of the wall clock. -/
structure WallClock where
  reading : Nat → Int
  ticks : Nat

def WallClock.now (w : WallClock) : Int × WallClock :=
  (w.reading w.ticks, { w with ticks := w.ticks + 1 })

structure WallClock.Later (w w' : WallClock) : Prop where
  reading : w'.reading = w.reading
  ticks : w.ticks ≤ w'.ticks

namespace WallClock.Later
variable {w w' w'' : WallClock}

theorem refl (w : WallClock) : Later w w := ⟨rfl, Nat.le_refl _⟩

theorem of_eq (h : w' = w) : Later w w' := h ▸ refl w

theorem trans (h : Later w w') (h' : Later w' w'') : Later w w'' :=
  ⟨h'.reading.trans h.reading, Nat.le_trans h.ticks h'.ticks⟩

theorem now (w : WallClock) : Later w w.now.2 := ⟨rfl, Nat.le_succ _⟩

end WallClock.Later

structure Runtime (K : Type u) (V : Type v) where
  mem : Store (ItemBody K V)
  pool : List Addr
  wall : WallClock
  choice : Nat → Nat
  draws : Nat

namespace Runtime
variable {K : Type u} {V : Type v}

def zeroBody [Inhabited V] : ItemBody K V := ⟨default, 0, 0, 0, none⟩

def now (rt : Runtime K V) : Int × Runtime K V :=
  (rt.wall.now.1, { rt with wall := rt.wall.now.2 })

/-- The elements of a map in the order one `range` statement visits them. -/
def iterate {α : Type*} (rt : Runtime K V) (l : List α) : List α × Runtime K V :=
  (Iteration.shuffle (fun i => rt.choice (rt.draws + i)) l,
    { rt with draws := rt.draws + l.length })

/-- `itemPool.Get()`: a pooled cell as its last user left it, or a new one. -/
def poolGet [Inhabited V] (rt : Runtime K V) : Addr × Runtime K V :=
  match rt.pool[rt.choice rt.draws]? with
  | some a => (a, { rt with pool := rt.pool.erase a, draws := rt.draws + 1 })
  | none =>
    let new := rt.mem.alloc zeroBody
    (new.1, { rt with mem := new.2, draws := rt.draws + 1 })

def poolPut (rt : Runtime K V) (a : Addr) : Runtime K V :=
  { rt with pool := a :: rt.pool }

def assign (rt : Runtime K V) (a : Addr) (f : ItemBody K V → ItemBody K V) : Runtime K V :=
  { rt with mem := rt.mem.assignBody a f }

structure Taken (rt rt' : Runtime K V) (a : Addr) : Prop where
  source : a ∈ rt.pool ∨ a = rt.mem.brk
  bound : a < rt'.mem.brk
  brk : rt.mem.brk ≤ rt'.mem.brk
  pool : ∀ x, x ∈ rt'.pool ↔ x ∈ rt.pool ∧ x ≠ a
  nodup : rt'.pool.Nodup
  cell : ∀ x, x ≠ a → rt'.mem.cell x = rt.mem.cell x
  faulted : rt'.mem.faulted = rt.mem.faulted
  wall : rt'.wall = rt.wall

theorem poolGet_taken [Inhabited V] {rt : Runtime K V} (hn : rt.pool.Nodup)
    (hb : ∀ a ∈ rt.pool, a < rt.mem.brk) : Taken rt rt.poolGet.2 rt.poolGet.1 := by
  unfold poolGet
  cases hp : rt.pool[rt.choice rt.draws]? with
  | some a =>
    have ha : a ∈ rt.pool := List.mem_of_getElem? hp
    exact
      { source := .inl ha
        bound := hb a ha
        brk := Nat.le_refl _
        pool := fun x => by rw [hn.mem_erase_iff, and_comm]
        nodup := hn.erase a
        cell := fun _ _ => rfl
        faulted := rfl
        wall := rfl }
  | none =>
    exact
      { source := .inr rfl
        bound := Nat.lt_succ_self _
        brk := Nat.le_succ _
        pool := fun x => ⟨fun hx => ⟨hx, Nat.ne_of_lt (hb x hx)⟩, And.left⟩
        nodup := hn
        cell := fun x hx => Store.cell_alloc_of_ne _ _ hx
        faulted := rfl
        wall := rfl }

end Runtime

end Kioshun
