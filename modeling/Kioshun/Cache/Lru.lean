import Kioshun.Lib.LinkedList
import Kioshun.Lib.CellStore

/-!
# The intrusive recency list of a shard

Every shard keeps its items in a list between two sentinel cells, whatever the
eviction policy. The four operations of `shard.go` are modelled assignment by
assignment. `ListRep` says that the cells from head to tail are a given list;
each operation is then an operation on that list which changes links only.
-/

namespace Kioshun

open LinkedList CellStore CellStore.Store Function List

universe u
variable {β : Type u}

/-- `initLRU`, returning the two sentinels; `zero` is the body of a new cell. -/
def initLRU (st : Store β) (zero : β) : (Addr × Addr) × Store β :=
  let head := st.alloc zero
  let tail := head.2.alloc zero
  let st := tail.2.assignNext (some head.1) (some tail.1)
  ((head.1, tail.1), st.assignPrev (some tail.1) (some head.1))

def addToLRUHead (st : Store β) (head item : Addr) : Store β :=
  let oldNext := st.next head
  let st := st.assignNext (some head) (some item)
  let st := st.assignNext (some item) oldNext
  let st := st.assignPrev (some item) (some head)
  st.assignPrev oldNext (some item)

def splice (st : Store β) (item : Addr) : Store β :=
  let st := if st.prev item = none then st
    else st.assignNext (st.prev item) (st.next item)
  if st.next item = none then st else st.assignPrev (st.next item) (st.prev item)

def removeFromLRU (st : Store β) (item : Addr) : Store β :=
  ((splice st item).assignPrev (some item) none).assignNext (some item) none

def moveToLRUHead (st : Store β) (head item : Addr) : Store β :=
  if st.next head = some item then st
  else
    let st := splice st item
    let oldNext := st.next head
    let st := st.assignNext (some head) (some item)
    let st := st.assignPrev (some item) (some head)
    let st := st.assignNext (some item) oldNext
    st.assignPrev oldNext (some item)

/-- The cells from `head` to `tail` are `xs`, in this order. -/
structure ListRep (st : Store β) (head tail : Addr) (xs : List Addr) : Prop where
  path : Path st.next st.prev (head :: (xs ++ [tail]))
  nodup : (head :: (xs ++ [tail])).Nodup
  headPrev : st.prev head = none
  tailNext : st.next tail = none

namespace ListRep
variable {st st' : Store β} {head tail item : Addr} {xs l₁ l₂ : List Addr}

section
variable (h : ListRep st head tail xs)
include h

/-- The list is determined by the links stored in its own cells. -/
theorem congr (same : ∀ a ∈ head :: (xs ++ [tail]), st'.cell a = st.cell a) :
    ListRep st' head tail xs where
  path := h.path.congr (fun a ha => by simp only [Store.next, same a ha])
    (fun a ha => by simp only [Store.prev, same a ha])
  nodup := h.nodup
  headPrev := by simpa only [Store.prev, same head (by simp)] using h.headPrev
  tailNext := by simpa only [Store.next, same tail (by simp)] using h.tailNext

theorem of_links (hn : st'.next = st.next) (hp : st'.prev = st.prev) :
    ListRep st' head tail xs where
  path := by rw [hn, hp]; exact h.path
  nodup := h.nodup
  headPrev := by rw [hp]; exact h.headPrev
  tailNext := by rw [hn]; exact h.tailNext

theorem head_ne_tail : head ≠ tail := by
  rintro rfl
  exact (nodup_cons.mp h.nodup).1 (by simp)

theorem head_notMem : head ∉ xs :=
  fun hm => (nodup_cons.mp h.nodup).1 (by simp [hm])

theorem items_nodup : xs.Nodup :=
  (nodup_append.mp (nodup_cons.mp h.nodup).2).1

theorem tail_notMem : tail ∉ xs :=
  fun hm => (nodup_append.mp (nodup_cons.mp h.nodup).2).2.2 tail hm tail
    (by simp) rfl

/-- Pointer assignments that link `item` right after the head. -/
theorem insertFront {b : Addr} {r : List Addr} (hb : xs ++ [tail] = b :: r)
    (hi : item ∉ head :: (xs ++ [tail]))
    (hn : st'.next = update (update st.next head (some item)) item (some b))
    (hp : st'.prev = update (update st.prev item (some head)) b (some item)) :
    ListRep st' head tail (item :: xs) := by
  have hpath := h.path
  have hnd := h.nodup
  rw [hb] at hpath hi hnd
  have hins := Path.insert (show Path st.next st.prev ([] ++ head :: b :: r) from hpath) hi
  have hih : head ≠ item := by rintro rfl; simp at hi
  have hhb : head ≠ b := by
    rintro rfl
    exact (nodup_cons.mp hnd).1 (by simp)
  have htail : tail ∈ b :: r := by rw [← hb]; simp
  have htitem : tail ≠ item := by rintro rfl; exact hi (mem_cons_of_mem _ htail)
  refine ⟨?_, ?_, ?_, ?_⟩
  · rw [hn, hp, cons_append, hb]
    exact hins
  · rw [cons_append, hb]
    have hsplit := nodup_cons.mp hnd
    have hi' := mem_cons.not.mp hi
    refine nodup_cons.mpr ⟨?_, nodup_cons.mpr ⟨?_, hsplit.2⟩⟩
    · rw [mem_cons]
      exact fun hc => hc.elim hih hsplit.1
    · exact fun hc => hi' (.inr hc)
  · rw [hp, update_of_ne hhb, update_of_ne hih]
    exact h.headPrev
  · rw [hn, update_of_ne htitem, update_of_ne h.head_ne_tail.symm]
    exact h.tailNext

theorem next_head {b : Addr} {r : List Addr} (hb : xs ++ [tail] = b :: r) :
    st.next head = some b := by
  have hpath := h.path
  rw [hb] at hpath
  exact (show Path st.next st.prev ([] ++ head :: b :: r) from hpath).next

end

end ListRep

variable {head tail item : Addr} {st : Store β}

theorem addToLRUHead_rep {xs : List Addr} (h : ListRep st head tail xs)
    (hi : item ∉ head :: (xs ++ [tail])) :
    ListRep (addToLRUHead st head item) head tail (item :: xs) ∧
      Relinked (item :: head :: (xs ++ [tail])) st (addToLRUHead st head item) := by
  obtain ⟨b, r, hb⟩ := exists_front xs tail
  have hnext := h.next_head hb
  have hbm : b ∈ xs ++ [tail] := by rw [hb]; simp
  constructor
  · exact h.insertFront hb hi (by simp [addToLRUHead, hnext]) (by simp [addToLRUHead, hnext])
  · simp only [addToLRUHead, hnext]
    refine Relinked.trans (.assignNext ?_ _) (Relinked.trans (.assignNext ?_ _)
      (Relinked.trans (.assignPrev ?_ _) (.assignPrev ?_ _)))
    · simp
    · simp
    · simp
    · exact mem_cons_of_mem _ (mem_cons_of_mem _ hbm)

/-- Linking an item and filling it in commute. -/
theorem addToLRUHead_assignBody (st : Store β) (head item : Addr) (f : β → β) :
    addToLRUHead (st.assignBody item f) head item =
      (addToLRUHead st head item).assignBody item f := by
  apply ext_fields
  · simp [addToLRUHead]
  · cases hh : st.next head <;> simp [addToLRUHead, hh]
  · simp [addToLRUHead]
  · simp [addToLRUHead]
  · simp [addToLRUHead]

variable {l₁ l₂ : List Addr}

/-- After the splice the remaining items form the list and `item` is outside it. -/
theorem splice_rep (h : ListRep st head tail (l₁ ++ item :: l₂)) :
    ListRep (splice st item) head tail (l₁ ++ l₂) ∧
      item ∉ head :: (l₁ ++ l₂ ++ [tail]) ∧
      Relinked (head :: (l₁ ++ item :: l₂ ++ [tail])) st (splice st item) := by
  obtain ⟨b, r, hb⟩ := exists_front l₂ tail
  obtain ⟨m, a, ha⟩ := exists_back head l₁
  have hfull : head :: (l₁ ++ item :: l₂ ++ [tail]) = m ++ a :: item :: b :: r := by
    have : head :: (l₁ ++ item :: l₂ ++ [tail]) = (head :: l₁) ++ item :: (l₂ ++ [tail]) := by
      simp
    rw [this, ha, hb]
    simp
  have hrest : head :: (l₁ ++ l₂ ++ [tail]) = m ++ a :: b :: r := by
    have : head :: (l₁ ++ l₂ ++ [tail]) = (head :: l₁) ++ (l₂ ++ [tail]) := by simp
    rw [this, ha, hb]
    simp
  have hpath := h.path
  have hnd := h.nodup
  rw [hfull] at hpath hnd
  have hprev : st.prev item = some a := hpath.prev
  have hnext : st.next item = some b := by
    have : m ++ a :: item :: b :: r = (m ++ [a]) ++ item :: b :: r := by simp
    rw [this] at hpath
    exact hpath.next
  have hmid : (m ++ a :: item :: b :: r).Perm (item :: (m ++ a :: b :: r)) := by
    have : (m ++ [a] ++ item :: b :: r).Perm (item :: (m ++ [a] ++ b :: r)) :=
      perm_middle
    simpa using this
  have hout := nodup_cons.mp (hmid.nodup_iff.mp hnd)
  have hai : a ≠ item := by rintro rfl; exact hout.1 (by simp)
  have hbi : b ≠ item := by rintro rfl; exact hout.1 (by simp)
  have hn1 : (splice st item).next = update st.next a (some b) := by
    simp [splice, hprev, hnext, update_of_ne hai.symm]
  have hp1 : (splice st item).prev = update st.prev b (some a) := by
    simp [splice, hprev, hnext, update_of_ne hai.symm]
  have hhead : head ∈ m ++ [a] := by rw [← ha]; simp
  have htail : tail ∈ b :: r := by rw [← hb]; simp
  have hhb : head ≠ b := by
    rintro rfl
    have hd := (nodup_append.mp (show (m ++ [a] ++ head :: r).Nodup by simpa using hout.2)).2.2
    exact hd head hhead head (by simp) rfl
  have hta : tail ≠ a := by
    rintro rfl
    have hd := (nodup_append.mp (show (m ++ [tail] ++ b :: r).Nodup by simpa using hout.2)).2.2
    exact hd tail (by simp) tail htail rfl
  refine ⟨⟨?_, ?_, ?_, ?_⟩, ?_, ?_⟩
  · rw [hn1, hp1, hrest]
    exact hpath.remove
  · rw [hrest]
    exact hout.2
  · rw [hp1, update_of_ne hhb]
    exact h.headPrev
  · rw [hn1, update_of_ne hta]
    exact h.tailNext
  · rw [hrest]
    exact hout.1
  · rw [hfull]
    have hsp : splice st item = (st.assignNext (some a) (some b)).assignPrev (some b) (some a) := by
      simp [splice, hprev, hnext, update_of_ne hai.symm]
    rw [hsp]
    exact Relinked.trans (.assignNext (by simp) _) (.assignPrev (by simp) _)

theorem removeFromLRU_rep (h : ListRep st head tail (l₁ ++ item :: l₂)) :
    ListRep (removeFromLRU st item) head tail (l₁ ++ l₂) ∧
      Relinked (head :: (l₁ ++ item :: l₂ ++ [tail])) st (removeFromLRU st item) := by
  obtain ⟨hrep, hout, hrel⟩ := splice_rep h
  have hself : Relinked [item] (splice st item) (removeFromLRU st item) :=
    Relinked.trans (.assignPrev (by simp) _) (.assignNext (by simp) _)
  refine ⟨hrep.congr ?_, hrel.trans (hself.mono ?_)⟩
  · intro a ha
    refine hself.frame a ?_
    rw [mem_singleton]
    rintro rfl
    exact hout ha
  · intro a ha
    rw [mem_singleton.mp ha]
    simp

theorem moveToLRUHead_rep (h : ListRep st head tail (l₁ ++ item :: l₂)) :
    ListRep (moveToLRUHead st head item) head tail (item :: (l₁ ++ l₂)) ∧
      Relinked (head :: (l₁ ++ item :: l₂ ++ [tail])) st (moveToLRUHead st head item) := by
  unfold moveToLRUHead
  by_cases hfirst : st.next head = some item
  · rw [if_pos hfirst]
    refine ⟨?_, Relinked.refl _ _⟩
    have hl : l₁ = [] := by
      cases l₁ with
      | nil => rfl
      | cons c l₁ =>
        have hc := h.next_head (b := c) rfl
        rw [hfirst] at hc
        have hnd := h.items_nodup
        cases hc
        simp at hnd
    subst hl
    exact h
  · rw [if_neg hfirst]
    obtain ⟨hrep, hout, hrel⟩ := splice_rep h
    obtain ⟨b, r, hb⟩ := exists_front (l₁ ++ l₂) tail
    have hnext := hrep.next_head hb
    have hbm : b ∈ l₁ ++ l₂ ++ [tail] := by rw [hb]; simp
    constructor
    · exact hrep.insertFront hb hout (by simp [hnext]) (by simp [hnext])
    · refine hrel.trans ?_
      simp only [hnext]
      refine Relinked.trans (.assignNext ?_ _) (Relinked.trans (.assignPrev ?_ _)
        (Relinked.trans (.assignNext ?_ _) (.assignPrev ?_ _)))
      · simp
      · simp
      · simp
      · simp only [mem_append, mem_cons, not_mem_nil, or_false] at hbm ⊢
        tauto

theorem initLRU_rep (st : Store β) (zero : β) :
    ListRep (initLRU st zero).2 (initLRU st zero).1.1 (initLRU st zero).1.2 [] := by
  refine ⟨⟨?_, ?_, ?_⟩, ?_, ?_, ?_⟩
  · refine isChain_cons_cons.mpr ⟨⟨?_, ?_⟩, List.IsChain.singleton _⟩
    · simp [initLRU]
    · simp [initLRU]
  · simp
  · simp
  · simp [initLRU]
  · simp [initLRU]
  · simp [initLRU]

theorem initLRU_cell (st : Store β) (zero : β) {a : Addr} (h : a < st.brk) :
    (initLRU st zero).2.cell a = st.cell a := by
  have h1 : a ≠ st.brk := Nat.ne_of_lt h
  have h2 : a ≠ st.brk + 1 := Nat.ne_of_lt (Nat.lt_succ_of_lt h)
  simp [initLRU, alloc, assignNext, assignPrev, Store.modify, h1, h2]

end Kioshun
