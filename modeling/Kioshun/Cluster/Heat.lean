import Kioshun.Cluster.Membership
import Kioshun.Lib.Heap
import Kioshun.Lib.Summary
import Mathlib.Data.List.AList
import Mathlib.Data.List.GetD
import Mathlib.Data.List.Induction

/-!
# Hot keys

`spaceSaving` of `heat.go`: the keys that are counted and their counts stand in a heap,
and a map gives the position of each key in it. The keys that `sample` picks go into it
one after the other, and gossip carries what it exports. The Count-Min sketch beside it
is written and never read, and is left out.
-/

namespace Kioshun
open List

structure SsEntry where
  K : Bytes
  C : UInt64
  deriving DecidableEq

structure SpaceSaving where
  cap : Int
  h : List SsEntry
  idx : AList fun _ : Bytes => Nat

def addSat64 (a b : UInt64) : UInt64 :=
  let c := a + b
  if c < a then 0xFFFFFFFFFFFFFFFF else c

namespace SpaceSaving

def newSpaceSaving (k : Int) : SpaceSaving := ⟨if k < 1 then 1 else k, [], ∅⟩

def node (s : SpaceSaving) (i : Nat) : SsEntry := s.h.getD i ⟨[], 0⟩

def swap (s : SpaceSaving) (i j : Nat) : SpaceSaving :=
  let s' := { s with h := (s.h.set i (s.node j)).set j (s.node i) }
  { s' with idx := (s'.idx.insert (s'.node i).K i).insert (s'.node j).K j }

/-- `siftUp`; the position halves, so that fuel for every position is enough. -/
def siftUp : Nat → SpaceSaving → Nat → SpaceSaving
  | 0, s, _ => s
  | fuel + 1, s, i =>
    if i = 0 then s
    else
      let p := (i - 1) / 2
      if (s.node p).C ≤ (s.node i).C then s else siftUp fuel (s.swap i p) p

/-- `siftDown`; the position grows, so that fuel for every position is enough. -/
def siftDown : Nat → SpaceSaving → Nat → SpaceSaving
  | 0, s, _ => s
  | fuel + 1, s, i =>
    let n := s.h.length
    let l := 2 * i + 1
    if n ≤ l then s
    else
      let r := l + 1
      let small := if r < n ∧ (s.node r).C < (s.node l).C then r else l
      if (s.node i).C ≤ (s.node small).C then s else siftDown fuel (s.swap i small) small

/-- `add` for a key that is counted at position `i`. -/
def addKnown (s : SpaceSaving) (i : Nat) (inc : UInt64) : SpaceSaving :=
  let e := s.node i
  siftDown s.h.length { s with h := s.h.set i { e with C := addSat64 e.C inc } } i

/-- `add` for a new key with room left. -/
def addNew (s : SpaceSaving) (key : Bytes) (inc : UInt64) : SpaceSaving :=
  siftUp (s.h.length + 1)
    { s with h := s.h ++ [⟨key, inc⟩], idx := s.idx.insert key s.h.length } s.h.length

/-- `add` for a new key without room: the first entry becomes that of the key. -/
def addFull (s : SpaceSaving) (key : Bytes) (inc : UInt64) : SpaceSaving :=
  let minNode := s.node 0
  siftDown s.h.length
    { s with
      h := s.h.set 0 ⟨key, addSat64 minNode.C inc⟩
      idx := (s.idx.erase minNode.K).insert key 0 } 0

def add (s : SpaceSaving) (key : Bytes) (inc : UInt64) : SpaceSaving :=
  match s.idx.lookup key with
  | some i => s.addKnown i inc
  | none => if (s.h.length : Int) < s.cap then s.addNew key inc else s.addFull key inc

def export_ (s : SpaceSaving) : List HotKey := s.h.map fun e => ⟨e.K, e.C⟩

def after (k : Int) (stream : List Bytes) : SpaceSaving :=
  stream.foldl (fun s key => s.add key 1) (newSpaceSaving k)

/-- The map gives the positions of the keys in the heap, and nothing else. -/
def Inverse (s : SpaceSaving) : Prop :=
  ∀ key i, s.idx.lookup key = some i ↔ i < s.h.length ∧ (s.node i).K = key

def count (s : SpaceSaving) (i : Nat) : Nat := (s.node i).C.toNat

def Ordered (s : SpaceSaving) : Prop := Heap.Ordered s.count s.h.length

end SpaceSaving

namespace SpaceSaving
variable {s s' : SpaceSaving} {i j : Nat} {key : Bytes}

theorem node_eq (hi : i < s.h.length) : s.node i = s.h.get ⟨i, hi⟩ := getD_eq_getElem _ _ hi

theorem node_mem (hi : i < s.h.length) : s.node i ∈ s.h := by
  rw [node_eq hi]
  exact get_mem ..

theorem exists_node {e : SsEntry} (he : e ∈ s.h) : ∃ i, i < s.h.length ∧ s.node i = e := by
  obtain ⟨i, hi⟩ := get_of_mem he
  exact ⟨i, i.2, (node_eq i.2).trans hi⟩

theorem node_set (s : SpaceSaving) (idx : AList fun _ : Bytes => Nat) (hi : i < s.h.length)
    (e : SsEntry) (n : Nat) :
    node { s with h := s.h.set i e, idx := idx } n = if n = i then e else s.node n := by
  simp only [node, getD_eq_getElem?_getD, getElem?_set]
  by_cases hn : n = i
  · subst hn
    simp [hi]
  · rw [if_neg (Ne.symm hn), if_neg hn]

theorem Inverse.inj (h : s.Inverse) (hi : i < s.h.length) (hj : j < s.h.length)
    (heq : (s.node i).K = (s.node j).K) : i = j := by
  have hi' := (h _ i).mpr ⟨hi, rfl⟩
  have hj' := (h _ j).mpr ⟨hj, heq.symm⟩
  rw [hi'] at hj'
  exact Option.some.inj hj'

theorem Inverse.not_mem (h : s.Inverse) (hlook : s.idx.lookup key = none) (hi : i < s.h.length) :
    (s.node i).K ≠ key := by
  intro heq
  rw [(h key i).mpr ⟨hi, heq⟩] at hlook
  cases hlook

theorem Inverse.keys_nodup (h : s.Inverse) : (s.h.map SsEntry.K).Nodup := by
  rw [nodup_iff_injective_get]
  intro m n hmn
  rw [get_eq_getElem, get_eq_getElem, getElem_map, getElem_map] at hmn
  have hm : (m : Nat) < s.h.length := by simpa using m.2
  have hn : (n : Nat) < s.h.length := by simpa using n.2
  exact Fin.ext (h.inj hm hn (by rw [node_eq hm, node_eq hn]; exact hmn))

theorem swap_h (s : SpaceSaving) (i j : Nat) :
    (s.swap i j).h = (s.h.set i (s.node j)).set j (s.node i) := rfl

theorem length_swap : (s.swap i j).h.length = s.h.length := by
  rw [swap_h, length_set, length_set]

theorem node_swap (hi : i < s.h.length) (hj : j < s.h.length) :
    (s.swap i j).node = Heap.exchange s.node i j := by
  funext n
  have hset := node_set { s with h := s.h.set i (s.node j) } (s.swap i j).idx (i := j)
    (by rw [length_set]; exact hj) (s.node i) n
  refine hset.trans ?_
  rw [node_set s s.idx hi, Heap.exchange]
  by_cases hni : n = i
  · subst hni
    by_cases hnj : n = j
    · simp [hnj]
    · simp [hnj]
  · simp [hni]

theorem perm_swap (hi : i < s.h.length) (hj : j < s.h.length) : (s.swap i j).h.Perm s.h := by
  rw [swap_h, node_eq hi, node_eq hj]
  exact set_set_perm hi hj

theorem lookup_swap (hi : i < s.h.length) (hj : j < s.h.length) (key : Bytes) :
    (s.swap i j).idx.lookup key = if key = (s.node i).K then some j
      else if key = (s.node j).K then some i else s.idx.lookup key := by
  have hnode := congrFun (node_swap hi hj)
  have hleft : (s.swap i j).node i = s.node j := (hnode i).trans (Heap.exchange_left ..)
  have hright : (s.swap i j).node j = s.node i := (hnode j).trans (Heap.exchange_right ..)
  have hidx : (s.swap i j).idx =
      (s.idx.insert ((s.swap i j).node i).K i).insert ((s.swap i j).node j).K j := rfl
  rw [hidx, hleft, hright]
  by_cases hki : key = (s.node i).K
  · rw [if_pos hki, hki, AList.lookup_insert]
  · rw [if_neg hki, AList.lookup_insert_ne hki]
    by_cases hkj : key = (s.node j).K
    · rw [if_pos hkj, hkj, AList.lookup_insert]
    · rw [if_neg hkj, AList.lookup_insert_ne hkj]

theorem Inverse.swap (h : s.Inverse) (hi : i < s.h.length) (hj : j < s.h.length) :
    (s.swap i j).Inverse := by
  intro key n
  rw [lookup_swap hi hj, node_swap hi hj, length_swap]
  split_ifs with hki hkj
  · subst hki
    constructor
    · rintro ⟨⟩
      exact ⟨hj, by rw [Heap.exchange_right]⟩
    · rintro ⟨hn, heq⟩
      by_cases hnj : n = j
      · rw [hnj]
      · by_cases hni : n = i
        · subst hni
          rw [Heap.exchange_left] at heq
          exact absurd (h.inj hj hn heq).symm hnj
        · rw [Heap.exchange_of_ne hni hnj] at heq
          exact absurd (h.inj hn hi heq) hni
  · subst hkj
    constructor
    · rintro ⟨⟩
      exact ⟨hi, by rw [Heap.exchange_left]⟩
    · rintro ⟨hn, heq⟩
      by_cases hni : n = i
      · rw [hni]
      · by_cases hnj : n = j
        · subst hnj
          rw [Heap.exchange_right] at heq
          exact absurd heq.symm hki
        · rw [Heap.exchange_of_ne hni hnj] at heq
          exact absurd (h.inj hn hj heq) hnj
  · rw [h key n]
    refine and_congr_right fun hn => ?_
    by_cases hni : n = i
    · subst hni
      rw [Heap.exchange_left]
      exact iff_of_false (Ne.symm hki) (Ne.symm hkj)
    · by_cases hnj : n = j
      · subst hnj
        rw [Heap.exchange_right]
        exact iff_of_false (Ne.symm hkj) (Ne.symm hki)
      · rw [Heap.exchange_of_ne hni hnj]

/-- The heap that `siftUp` sifts, with the order of the arguments that it has for `swap`. -/
def upHeap : Heap.Interface SpaceSaving where
  Len := fun s => s.h.length
  Less := fun s i j => decide (s.count i < s.count j)
  Swap := fun s i j => s.swap j i

def downHeap : Heap.Interface SpaceSaving where
  Len := fun s => s.h.length
  Less := fun s i j => decide (s.count i < s.count j)
  Swap := swap

theorem count_swap (hi : i < s.h.length) (hj : j < s.h.length) :
    (s.swap i j).count = Heap.exchange s.count i j := by
  funext n
  rw [count, node_swap hi hj, Heap.exchange, Heap.exchange]
  split_ifs <;> rfl

theorem downHeap_keyed : Heap.Keyed downHeap count where
  less := fun _ _ _ _ _ => decide_eq_true_iff
  len := fun _ _ _ _ _ => length_swap
  swap := fun _ _ _ hi hj => count_swap hi hj

theorem upHeap_keyed : Heap.Keyed upHeap count where
  less := fun _ _ _ _ _ => decide_eq_true_iff
  len := fun _ _ _ _ _ => length_swap
  swap := by
    intro s i j hi hj
    refine (count_swap hj hi).trans (funext fun n => ?_)
    by_cases hni : n = i
    · subst hni
      rw [Heap.exchange_right, Heap.exchange_left]
    · by_cases hnj : n = j
      · subst hnj
        rw [Heap.exchange_left, Heap.exchange_right]
      · rw [Heap.exchange_of_ne hnj hni, Heap.exchange_of_ne hni hnj]

theorem less_eq_false (s : SpaceSaving) (i j : Nat) :
    decide (s.count i < s.count j) = false ↔ (s.node j).C ≤ (s.node i).C := by
  rw [decide_eq_false_iff_not, Nat.not_lt]
  exact UInt64.le_iff_toNat_le.symm

theorem siftUp_eq (fuel : Nat) (s : SpaceSaving) (i : Nat) :
    siftUp fuel s i = Heap.up upHeap fuel s i := by
  induction fuel generalizing s i with
  | zero => rfl
  | succ fuel ih =>
    have hroot : (i - 1) / 2 = i ↔ i = 0 := by omega
    have hless := less_eq_false s i ((i - 1) / 2)
    change upHeap.Less s i ((i - 1) / 2) = false ↔ _ at hless
    simp only [siftUp, Heap.up, hroot, hless]
    by_cases hi : i = 0
    · simp [hi]
    · by_cases hle : (s.node ((i - 1) / 2)).C ≤ (s.node i).C
      · simp [hi, hle]
      · simp only [hi, hle, or_self, if_false]
        exact ih _ _

theorem siftDown_eq (fuel : Nat) (s : SpaceSaving) (i : Nat) :
    siftDown fuel s i = (Heap.down downHeap s.h.length fuel s i).1 := by
  induction fuel generalizing s i with
  | zero => rfl
  | succ fuel ih =>
    have hchild : Heap.child downHeap s s.h.length i =
        if 2 * i + 1 + 1 < s.h.length ∧ (s.node (2 * i + 1 + 1)).C < (s.node (2 * i + 1)).C
        then 2 * i + 1 + 1 else 2 * i + 1 := by
      refine if_congr (and_congr_right fun _ => ?_) rfl rfl
      exact decide_eq_true_iff.trans UInt64.lt_iff_toNat_lt.symm
    have hless : ∀ j, downHeap.Less s j i = false ↔ (s.node i).C ≤ (s.node j).C :=
      fun j => less_eq_false s j i
    simp only [siftDown, Heap.down]
    rw [← hchild]
    by_cases hleaf : s.h.length ≤ 2 * i + 1
    · simp only [hleaf, if_true]
    · by_cases hle : (s.node i).C ≤ (s.node (Heap.child downHeap s s.h.length i)).C
      · simp only [hleaf, hless, hle, if_true, if_false]
      · simp only [hleaf, hless, hle, if_false]
        rw [ih, length_swap]
        rfl

structure Moved (s s' : SpaceSaving) : Prop where
  inverse : s'.Inverse
  perm : s'.h.Perm s.h
  cap : s'.cap = s.cap

theorem Moved.swap (h : Moved s s') (hi : i < s.h.length) (hj : j < s.h.length) :
    Moved s (s'.swap i j) := by
  rw [← h.perm.length_eq] at hi hj
  exact ⟨h.inverse.swap hi hj, (perm_swap hi hj).trans h.perm, h.cap⟩

theorem siftUp_moved (h : s.Inverse) (hi : i < s.h.length) (fuel : Nat) :
    Moved s (siftUp fuel s i) := by
  rw [siftUp_eq]
  exact Heap.up_kept (h := upHeap) (fun _ _ _ hi hj hm => hm.swap hj hi) fuel hi
    ⟨h, List.Perm.refl _, rfl⟩

theorem siftDown_moved (h : s.Inverse) (hi : i < s.h.length) (fuel : Nat) :
    Moved s (siftDown fuel s i) := by
  rw [siftDown_eq]
  exact Heap.down_kept (h := downHeap) (fun _ _ _ hi hj hm => hm.swap hi hj) fuel hi
    ⟨h, List.Perm.refl _, rfl⟩

/-- An entry whose count has grown goes down to its place. -/
theorem siftDown_ordered (hi : i < s.h.length) (hord : s.Ordered) {e : SsEntry}
    {idx : AList fun _ : Bytes => Nat} (hle : s.count i ≤ e.C.toNat)
    (hs' : s' = { s with h := s.h.set i e, idx := idx }) (hinv : s'.Inverse) :
    (siftDown s.h.length s' i).Ordered := by
  have hlen : s'.h.length = s.h.length := by rw [hs', length_set]
  have hcount : ∀ n, s'.count n = if n = i then e.C.toNat else s.count n := by
    intro n
    rw [hs', count, node_set s idx hi]
    split_ifs <;> rfl
  have hbut : Heap.OrderedBut s'.count s.h.length i := by
    have hold := Heap.Ordered.but hord hi
    constructor
    · intro k hpos hk hki hparent
      rw [hcount, hcount, if_neg hki, if_neg hparent]
      exact hold.apart k hpos hk hki hparent
    · intro hpos k hkpos hk hparent
      rw [hcount, hcount, if_neg (by omega), if_neg (by omega)]
      exact hold.grand hpos k hkpos hk hparent
  have habove : 0 < i → s'.count ((i - 1) / 2) ≤ s'.count i := by
    intro hpos
    rw [hcount, hcount, if_pos rfl, if_neg (by omega)]
    exact (hord i hpos hi).trans hle
  have hdown := Heap.down_ordered downHeap_keyed s.h.length (by omega) (s := s')
    (show s.h.length ≤ s'.h.length from hlen.ge) hi hbut habove
  rw [Ordered, (siftDown_moved hinv (hlen ▸ hi) _).perm.length_eq, hlen, siftDown_eq, hlen]
  exact hdown

section Adding

def entries (s : SpaceSaving) : List (Bytes × Nat) := s.h.map fun e => (e.K, e.C.toNat)

theorem addSat64_one {c : UInt64} (hc : c.toNat + 1 < 2 ^ 64) :
    (addSat64 c 1).toNat = c.toNat + 1 := by
  have hsum : (c + 1).toNat = c.toNat + 1 := by
    rw [UInt64.toNat_add]
    exact Nat.mod_eq_of_lt hc
  have hlt : ¬ c + 1 < c := by
    rw [UInt64.lt_iff_toNat_lt, hsum]
    omega
  simp only [addSat64, hlt, if_false, hsum]

structure Adds (s : SpaceSaving) (key : Bytes) (s' : SpaceSaving) : Prop where
  inverse : s'.Inverse
  ordered : s'.Ordered
  cap : s'.cap = s.cap
  step : Summary.Step s.cap.toNat key s.entries s'.entries

theorem entries_set (hi : i < s.h.length) (e : SsEntry) (idx : AList fun _ : Bytes => Nat) :
    s.entries.Perm (((s.node i).K, s.count i) ::
      (s.h.take i ++ s.h.drop (i + 1)).map fun e => (e.K, e.C.toNat)) ∧
    (entries { s with h := s.h.set i e, idx := idx }).Perm ((e.K, e.C.toNat) ::
      (s.h.take i ++ s.h.drop (i + 1)).map fun e => (e.K, e.C.toNat)) := by
  have hsplit : ∀ e, (s.h.set i e).Perm (e :: (s.h.take i ++ s.h.drop (i + 1))) := by
    intro e
    rw [set_eq_take_append_cons_drop, if_pos hi]
    exact perm_middle
  constructor
  · have hself : s.h.set i (s.node i) = s.h := by
      rw [node_eq hi]
      exact set_getElem_self hi
    have hperm := (hsplit (s.node i)).map fun e => (e.K, e.C.toNat)
    rw [hself] at hperm
    exact hperm
  · exact (hsplit e).map fun e => (e.K, e.C.toNat)

theorem not_mem_entries (h : s.Inverse) (hlook : s.idx.lookup key = none) :
    key ∉ s.entries.map Prod.fst := by
  intro hin
  simp only [entries, map_map, mem_map, Function.comp] at hin
  obtain ⟨e, he, rfl⟩ := hin
  obtain ⟨i, hi, rfl⟩ := exists_node he
  exact h.not_mem hlook hi rfl

theorem addKnown_adds (h : s.Inverse) (hord : s.Ordered) (hlook : s.idx.lookup key = some i)
    (hroom : s.count i + 1 < 2 ^ 64) : Adds s key (s.addKnown i 1) := by
  obtain ⟨hi, hkey⟩ := (h key i).mp hlook
  have hcount := addSat64_one hroom
  generalize hs' : ({ s with h := s.h.set i { s.node i with C := addSat64 (s.node i).C 1 } } :
    SpaceSaving) = s'
  have hinv : s'.Inverse := by
    intro key' n
    rw [← hs', node_set s s.idx hi]
    simp only [length_set]
    rw [h key' n]
    refine and_congr_right fun _ => ?_
    split_ifs with hn
    · rw [hn]
    · rfl
  have hi' : i < s'.h.length := by
    rw [← hs', length_set]
    exact hi
  have hmoved := siftDown_moved hinv hi' s.h.length
  have hadd : s.addKnown i 1 = siftDown s.h.length s' i := by rw [← hs', addKnown]
  rw [hadd]
  refine ⟨hmoved.inverse, ?_, hmoved.cap.trans (by rw [← hs']), ?_⟩
  · exact siftDown_ordered hi hord (by rw [hcount]; exact Nat.le_succ _) hs'.symm hinv
  · obtain ⟨hbefore, hafter⟩ :=
      entries_set hi { s.node i with C := addSat64 (s.node i).C 1 } s.idx
    rw [hs'] at hafter
    simp only [hkey, hcount] at hbefore hafter
    exact .counted hbefore ((hmoved.perm.map _).trans hafter)

theorem addNew_adds (h : s.Inverse) (hord : s.Ordered) (hlook : s.idx.lookup key = none)
    (hroom : (s.h.length : Int) < s.cap) : Adds s key (s.addNew key 1) := by
  generalize hs' : ({ s with h := s.h ++ [⟨key, 1⟩], idx := s.idx.insert key s.h.length } :
    SpaceSaving) = s'
  have hlen : s'.h.length = s.h.length + 1 := by
    rw [← hs', length_append, length_singleton]
  have hnode : ∀ n, n < s.h.length → s'.node n = s.node n := by
    intro n hn
    rw [← hs', node, node, getD_append _ _ _ _ hn]
  have hlast : s'.node s.h.length = ⟨key, 1⟩ := by
    rw [← hs', node, getD_append_right _ _ _ _ (Nat.le_refl _), Nat.sub_self]
    rfl
  have hinv : s'.Inverse := by
    intro key' n
    have hidx : s'.idx = s.idx.insert key s.h.length := by rw [← hs']
    rw [hlen, hidx]
    by_cases hkey : key' = key
    · subst hkey
      rw [AList.lookup_insert]
      constructor
      · rintro ⟨⟩
        exact ⟨Nat.lt_succ_self _, by rw [hlast]⟩
      · rintro ⟨hn, heq⟩
        rcases Nat.lt_succ_iff_lt_or_eq.mp hn with hn | hn
        · rw [hnode n hn] at heq
          exact absurd heq (h.not_mem hlook hn)
        · rw [hn]
    · rw [AList.lookup_insert_ne hkey, h key' n]
      constructor
      · rintro ⟨hn, heq⟩
        exact ⟨Nat.lt_succ_of_lt hn, by rw [hnode n hn]; exact heq⟩
      · rintro ⟨hn, heq⟩
        rcases Nat.lt_succ_iff_lt_or_eq.mp hn with hn | hn
        · exact ⟨hn, by rw [← hnode n hn]; exact heq⟩
        · rw [hn, hlast] at heq
          exact absurd heq.symm hkey
  have hmoved := siftUp_moved (i := s.h.length) hinv (by omega) (s.h.length + 1)
  have hadd : s.addNew key 1 = siftUp (s.h.length + 1) s' s.h.length := by rw [← hs', addNew]
  rw [hadd]
  refine ⟨hmoved.inverse, ?_, hmoved.cap.trans (by rw [← hs']), ?_⟩
  · have hbelow : Heap.Ordered s'.count (upHeap.Len s' - 1) := by
      intro k hpos hk
      have hk' : k < s.h.length := by
        simp only [upHeap, hlen] at hk
        omega
      rw [count, count, hnode k hk', hnode _ (by omega)]
      exact hord k hpos hk'
    have hsift := Heap.siftLast_ordered upHeap_keyed hbelow
    rw [Ordered, hmoved.perm.length_eq, siftUp_eq]
    simp only [Heap.siftLast, upHeap, hlen, Nat.add_sub_cancel] at hsift ⊢
    exact hsift
  · refine .added (not_mem_entries h hlook) ?_ ((hmoved.perm.map _).trans ?_)
    · rw [entries, length_map]
      omega
    · rw [← hs', map_append]
      exact perm_append_singleton _ _

theorem addFull_adds (h : s.Inverse) (hord : s.Ordered) (hlook : s.idx.lookup key = none)
    (hfull : s.cap ≤ s.h.length) (hpos : 0 < s.h.length) (hroom : s.count 0 + 1 < 2 ^ 64) :
    Adds s key (s.addFull key 1) := by
  have hcount := addSat64_one hroom
  generalize hs' : ({ s with
    h := s.h.set 0 ⟨key, addSat64 (s.node 0).C 1⟩
    idx := (s.idx.erase (s.node 0).K).insert key 0 } : SpaceSaving) = s'
  have hinv : s'.Inverse := by
    intro key' n
    have hidx : s'.idx = (s.idx.erase (s.node 0).K).insert key 0 := by rw [← hs']
    rw [hidx, ← hs', node_set s _ hpos]
    simp only [length_set]
    by_cases hkey : key' = key
    · subst hkey
      rw [AList.lookup_insert]
      constructor
      · rintro ⟨⟩
        exact ⟨hpos, by rw [if_pos rfl]⟩
      · rintro ⟨hn, heq⟩
        split_ifs at heq with hn0
        · rw [hn0]
        · exact absurd heq (h.not_mem hlook hn)
    · rw [AList.lookup_insert_ne hkey]
      by_cases hold : key' = (s.node 0).K
      · rw [hold, AList.lookup_erase]
        refine iff_of_false nofun fun ⟨hn, heq⟩ => ?_
        split_ifs at heq with hn0
        · exact hkey (hold.trans heq.symm)
        · exact hn0 (h.inj hn hpos heq)
      · rw [AList.lookup_erase_ne hold, h key' n]
        refine and_congr_right fun hn => ?_
        split_ifs with hn0
        · rw [hn0]
          exact iff_of_false (Ne.symm hold) (Ne.symm hkey)
        · rfl
  have hpos' : 0 < s'.h.length := by
    rw [← hs', length_set]
    exact hpos
  have hmoved := siftDown_moved hinv hpos' s.h.length
  have hadd : s.addFull key 1 = siftDown s.h.length s' 0 := by rw [← hs', addFull]
  rw [hadd]
  refine ⟨hmoved.inverse, ?_, hmoved.cap.trans (by rw [← hs']), ?_⟩
  · exact siftDown_ordered hpos hord (by rw [hcount]; exact Nat.le_succ _) hs'.symm hinv
  · obtain ⟨hbefore, hafter⟩ := entries_set hpos ⟨key, addSat64 (s.node 0).C 1⟩
      ((s.idx.erase (s.node 0).K).insert key 0)
    simp only [hcount, hs'] at hafter
    refine .replaced (not_mem_entries h hlook) ?_ hbefore (fun e he => ?_)
      ((hmoved.perm.map _).trans hafter)
    · rw [entries, length_map]
      omega
    · obtain ⟨x, hx, rfl⟩ := mem_map.mp he
      obtain ⟨n, hn, rfl⟩ := exists_node hx
      exact hord.first_le hn

structure Counts (k : Int) (stream : List Bytes) (s : SpaceSaving) : Prop where
  inverse : s.Inverse
  ordered : s.Ordered
  cap : s.cap = k
  length : s.entries.length ≤ k.toNat
  sum : (s.entries.map Prod.snd).sum = stream.length
  within : ∃ slack, Summary.Within k.toNat stream s.entries slack

variable {k : Int}

theorem counts_newSpaceSaving (hk : 1 ≤ k) : Counts k [] (newSpaceSaving k) where
  inverse := fun key i => by simp [newSpaceSaving]
  ordered := fun _ _ hk => absurd hk (Nat.not_lt_zero _)
  cap := if_neg (by omega)
  length := Nat.zero_le _
  sum := rfl
  within := ⟨0, Summary.within_nil _⟩

theorem Inverse.entries_nodup (h : s.Inverse) : (s.entries.map Prod.fst).Nodup := by
  rw [entries, map_map]
  exact h.keys_nodup

variable {stream : List Bytes}

theorem Counts.adds (h : Counts k stream s) (hk : 1 ≤ k) (hN : stream.length + 1 < 2 ^ 64)
    (key : Bytes) : Adds s key (s.add key 1) := by
  have hlen : s.entries.length = s.h.length := length_map _
  -- no count can be more than the length of the stream, so that nothing saturates
  have hroom : ∀ i, i < s.h.length → s.count i + 1 < 2 ^ 64 := by
    intro i hi
    have hin : s.count i ∈ s.entries.map Prod.snd :=
      mem_map.mpr ⟨_, mem_map.mpr ⟨s.node i, node_mem hi, rfl⟩, rfl⟩
    have hle := single_le_sum (fun _ _ => Nat.zero_le _) _ hin
    rw [h.sum] at hle
    omega
  unfold add
  cases hlook : s.idx.lookup key with
  | some i => exact addKnown_adds h.inverse h.ordered hlook (hroom i ((h.inverse key i).mp hlook).1)
  | none =>
    by_cases hcap : (s.h.length : Int) < s.cap
    · simp only [hcap, if_true]
      exact addNew_adds h.inverse h.ordered hlook hcap
    · simp only [hcap, if_false]
      have hpos : 0 < s.h.length := by
        rw [h.cap] at hcap
        omega
      exact addFull_adds h.inverse h.ordered hlook (by omega) hpos (hroom 0 hpos)

theorem Counts.add (h : Counts k stream s) (hk : 1 ≤ k) (hN : stream.length + 1 < 2 ^ 64)
    (key : Bytes) : Counts k (stream ++ [key]) (s.add key 1) := by
  have hadds := h.adds hk hN key
  have hstep := hadds.step
  rw [h.cap] at hstep
  obtain ⟨slack, hwithin⟩ := h.within
  refine ⟨hadds.inverse, hadds.ordered, hadds.cap.trans h.cap, hstep.length_le h.length, ?_, ?_⟩
  · rw [hstep.sum_eq, h.sum, length_append, length_singleton]
  · exact hstep.within h.inverse.entries_nodup hwithin

theorem counts_after (hk : 1 ≤ k) (hN : stream.length < 2 ^ 64) :
    Counts k stream (after k stream) := by
  induction stream using List.reverseRecOn with
  | nil => exact counts_newSpaceSaving hk
  | append_singleton stream key ih =>
    rw [length_append, length_singleton] at hN
    have hstep := (ih (by omega)).add hk hN key
    rw [after, foldl_append]
    exact hstep

/-- The counts of hot keys: the heap and its index are in step, at most `k` keys are counted and
their counts add up to the length of the stream, no count is too small or off by more than a `k`-th
of the stream, and a key that makes up more than a `k`-th of the stream is exported. -/
theorem after_guarantee (k : Int) (hk : 1 ≤ k) (stream : List Bytes)
    (hN : stream.length < 2 ^ 64) :
    (after k stream).Ordered ∧ (after k stream).Inverse ∧
      ((after k stream).h.map SsEntry.K).Nodup ∧ ((after k stream).h.length : Int) ≤ k ∧
      ((after k stream).h.map fun e => e.C.toNat).sum = stream.length ∧
      (∀ e ∈ (after k stream).h, stream.count e.K ≤ e.C.toNat ∧
        e.C.toNat ≤ stream.count e.K + stream.length / k.toNat) ∧
      ∀ key, stream.length / k.toNat < stream.count key →
        ∃ hot ∈ (after k stream).export_, hot.K = key := by
  have h := counts_after hk hN
  obtain ⟨slack, hwithin⟩ := h.within
  have hslack := hwithin.slack_le (by omega)
  rw [h.sum] at hslack
  have hentry : ∀ e ∈ (after k stream).h, (e.K, e.C.toNat) ∈ (after k stream).entries :=
    fun e he => mem_map.mpr ⟨e, he, rfl⟩
  have hlen := h.length
  have hsum := h.sum
  rw [entries, length_map] at hlen
  rw [entries, map_map] at hsum
  refine ⟨h.ordered, h.inverse, h.inverse.keys_nodup, by omega, hsum, fun e he => ⟨?_, ?_⟩, ?_⟩
  · exact hwithin.least _ (hentry e he)
  · exact (hwithin.most _ (hentry e he)).trans (Nat.add_le_add_left hslack _)
  · intro key hkey
    by_contra hno
    have habsent := hwithin.absent key fun hin => ?_
    · omega
    · rw [entries, map_map] at hin
      obtain ⟨e, he, hek⟩ := mem_map.mp hin
      exact hno ⟨⟨e.K, e.C⟩, mem_map.mpr ⟨e, he, rfl⟩, hek⟩

/-- Two counters for five keys: the third key takes over a counter, and the first key, which is
more than half of the stream, is exported. -/
theorem after_guarantee_five :
    (1 : Int) ≤ 2 ∧ [[1], [1], [2], [1], [3]].length < 2 ^ 64 ∧
      ∃ hot ∈ (after 2 [[1], [1], [2], [1], [3]]).export_, hot.K = [1] :=
  have hall := after_guarantee 2 (by decide) [[1], [1], [2], [1], [3]] (by decide)
  ⟨by decide, by decide, hall.2.2.2.2.2.2 [1] (by decide)⟩

end Adding

end SpaceSaving

end Kioshun
