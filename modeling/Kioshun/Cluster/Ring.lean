import Mathlib.Data.List.Sort
import Kioshun.Cluster.Wire

/-!
# Rendezvous hashing

Every node of a ring has a score for a key: a mix of the hash of the key and the
salt of the node, times the weight of the node. The owners of a key are the nodes
with the greatest scores.
-/

namespace Kioshun

structure NodeMeta where
  ID : NodeID
  weight : UInt64
  salt : UInt64
  deriving DecidableEq

def mix64 (x : UInt64) : UInt64 :=
  let x := x ^^^ (x >>> 30)
  let x := 0xbf58476d1ce4e5b9 * x
  let x := x ^^^ (x >>> 27)
  let x := 0x94d049bb133111eb * x
  x ^^^ (x >>> 31)

/-- A `ring`; `rf` is an `int` that is not negative. -/
structure Ring where
  nodes : List NodeMeta
  rf : Nat

namespace Ring

/-- The 128 bits that `bits.Mul64` returns. -/
def score (keyHash : UInt64) (nm : NodeMeta) : Nat :=
  (mix64 (keyHash ^^^ nm.salt)).toNat * nm.weight.toNat

/-- `less`: the greater score first, ties by ID. -/
def less (keyHash : UInt64) (a b : NodeMeta) : Bool :=
  if score keyHash a ≠ score keyHash b then decide (score keyHash b < score keyHash a)
  else decide (a.ID < b.ID)

def ranked (r : Ring) (keyHash : UInt64) : List NodeMeta :=
  r.nodes.insertionSort fun a b => less keyHash b a = false

/-- `ownersTopNFromKeyHash`; `make` panics for a negative length. -/
def ownersTopNFromKeyHash (r : Ring) (keyHash : UInt64) (n : Int) : Option (List NodeMeta) :=
  if n < 0 then none else some ((r.ranked keyHash).take n.toNat)

def ownersFromKeyHash (r : Ring) (keyHash : UInt64) : List NodeMeta :=
  (r.ranked keyHash).take r.rf

def worse (keyHash : UInt64) (a b : NodeMeta) : Bool :=
  if score keyHash a ≠ score keyHash b then decide (score keyHash a < score keyHash b)
  else decide (b.ID < a.ID)

/-- The slots that `ownsHash` keeps, and the index of the worst of them. -/
structure Slots where
  best : List NodeMeta
  worst : Nat

/-- `worse(best[i], best[j])`. -/
def worseAt (keyHash : UInt64) (best : List NodeMeta) (i j : Nat) : Bool :=
  match best[i]?, best[j]? with
  | some a, some b => worse keyHash a b
  | _, _ => false

/-- The loop that looks for the worst slot again. -/
def worstSlot (keyHash : UInt64) (best : List NodeMeta) : Nat :=
  (List.range' 1 (best.length - 1)).foldl
    (fun worst i => if worseAt keyHash best i worst then i else worst) 0

/-- One round of the loop of `ownsHash`. -/
def offer (keyHash : UInt64) (top : Nat) (s : Slots) (nm : NodeMeta) : Slots :=
  if s.best.length < top then
    let best := s.best ++ [nm]
    if best.length = 1 ∨ worseAt keyHash best (best.length - 1) s.worst = true then
      ⟨best, best.length - 1⟩
    else ⟨best, s.worst⟩
  else
    match s.best[s.worst]? with
    | none => s
    | some w =>
      if worse keyHash nm w then s
      else ⟨s.best.set s.worst nm, worstSlot keyHash (s.best.set s.worst nm)⟩

def ownsHash (r : Ring) (selfID : NodeID) (keyHash : UInt64) : Bool :=
  if r.nodes.length = 0 ∨ r.rf = 0 then false
  else
    let top := if r.nodes.length < r.rf then r.nodes.length else r.rf
    (r.nodes.foldl (offer keyHash top) ⟨[], 0⟩).best.any fun nm => nm.ID == selfID

def hasID (r : Ring) (id : NodeID) : Bool := r.nodes.any fun nm => nm.ID == id

end Ring

end Kioshun
