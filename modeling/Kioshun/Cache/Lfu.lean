import Kioshun.Lib.LinkedList
import Kioshun.Lib.CellStore
import Kioshun.Lib.Iteration
import Mathlib.Data.List.AList
import Mathlib.Data.List.Sort

/-!
# The frequency index of the LFU policy

`lfuList` is a circular list of buckets, one for each exact frequency in use,
after a sentinel of frequency zero. It is modelled pointer by pointer, with the
bucket nodes in a store of their own. `freqOf` reads the index as what it is
for, a finite map from items to frequencies, and every operation is shown to be
an operation on that map.
-/

namespace Kioshun

open LinkedList CellStore CellStore.Store Function List

structure FreqNode where
  freq : Int
  items : List Addr

structure LfuList where
  head : Addr
  nodes : Store FreqNode
  freqMap : AList (fun _ : Int => Addr)
  itemFreq : AList (fun _ : Addr => Addr)

namespace LfuList

def freq (l : LfuList) (b : Addr) : Int := (l.nodes.body b).freq

def items (l : LfuList) (b : Addr) : List Addr := (l.nodes.body b).items

def newLFUList : LfuList where
  head := 0
  nodes := ⟨fun _ => ⟨⟨0, []⟩, some 0, some 0⟩, 1, false⟩
  freqMap := ∅
  itemFreq := ∅

/-- The part of `ensureIndex` that links a new bucket after `prev`. -/
def insertBucket (l : LfuList) (prev : Addr) (freq : Int) : Addr × LfuList :=
  let new := l.nodes.alloc ⟨freq, []⟩
  let nxt := new.2.next prev
  let st := new.2.assignNext (some prev) (some new.1)
  let st := st.assignPrev (some new.1) (some prev)
  let st := st.assignNext (some new.1) nxt
  let st := st.assignPrev nxt (some new.1)
  (new.1, { l with nodes := st, freqMap := l.freqMap.insert freq new.1 })

def ensureIndex (l : LfuList) (prev : Option Addr) (freq : Int) : Addr × LfuList :=
  match l.freqMap.lookup freq with
  | some node => (node, l)
  | none =>
    match prev with
    | none => (l.nodes.brk, { l with nodes := l.nodes.fault })
    | some p => l.insertBucket p freq

def getOrCreateFreqNode (l : LfuList) (freq : Int) : Addr × LfuList :=
  if freq = 1 then l.ensureIndex (some l.head) 1
  else l.ensureIndex (l.freqMap.lookup (freq - 1)) freq

def removeFreqNode (l : LfuList) (node : Addr) : LfuList :=
  let st := l.nodes.assignNext (l.nodes.prev node) (l.nodes.next node)
  let st := st.assignPrev (st.next node) (st.prev node)
  { l with nodes := st, freqMap := l.freqMap.erase (l.freq node) }

/-- `node.items[item] = struct{}{}; l.itemFreq[item] = node`. -/
def place (l : LfuList) (node item : Addr) : LfuList :=
  { l with
    nodes := l.nodes.assignBody node fun n => { n with items := n.items.insert item }
    itemFreq := l.itemFreq.insert item node }

/-- `delete(node.items, item)`. -/
def unplace (l : LfuList) (node item : Addr) : LfuList :=
  { l with nodes := l.nodes.assignBody node fun n => { n with items := n.items.erase item } }

/-- Unlink a bucket that has become empty, unless it is the sentinel. -/
def dropEmpty (l : LfuList) (node : Addr) : LfuList :=
  if l.items node = [] ∧ l.freq node ≠ 0 then l.removeFreqNode node else l

/-- The index part of `add`; the caller's item gets frequency 1. -/
def add (l : LfuList) (item : Addr) : LfuList :=
  let target := l.getOrCreateFreqNode 1
  target.2.place target.1 item

/-- The bucket of frequency `newFreq` that `increment` moves an item of `cur` to. -/
def nextBucket (l : LfuList) (cur : Addr) (newFreq : Int) : Addr × LfuList :=
  match l.nodes.next cur with
  | none => (cur, { l with nodes := l.nodes.fault })
  | some nxt =>
    if nxt ≠ l.head ∧ l.freq nxt = newFreq then (nxt, l)
    else l.ensureIndex (some cur) newFreq

/-- `increment`, with the frequency it stores in the item. -/
def increment (l : LfuList) (item : Addr) : LfuList × Int :=
  match l.itemFreq.lookup item with
  | none => (l.add item, 1)
  | some cur =>
    let newFreq := l.freq cur + 1
    let target := (l.unplace cur item).nextBucket cur newFreq
    ((target.2.place target.1 item).dropEmpty cur, newFreq)

/-- `removeLFU`; `pick` decides which item of the first bucket `range` yields. -/
def removeLFU (l : LfuList) (pick : Nat → Nat) : LfuList × Option Addr :=
  match l.nodes.next l.head with
  | none => ({ l with nodes := l.nodes.fault }, none)
  | some node =>
    if node = l.head then (l, none)
    else
      match (Iteration.shuffle pick (l.items node)).head? with
      | none => (l.removeFreqNode node, none)
      | some victim =>
        let l := l.unplace node victim
        let l := { l with itemFreq := l.itemFreq.erase victim }
        (if l.items node = [] then l.removeFreqNode node else l, some victim)

def remove (l : LfuList) (item : Addr) : LfuList :=
  match l.itemFreq.lookup item with
  | none => l
  | some node =>
    let l := l.unplace node item
    { l with itemFreq := l.itemFreq.erase item }.dropEmpty node

def freqOf (l : LfuList) (a : Addr) : Option Int := (l.itemFreq.lookup a).map l.freq

/-- The bucket list: circular, ascending, and exactly what `freqMap` knows. -/
structure Buckets (l : LfuList) (bs : List Addr) : Prop where
  path : Path l.nodes.next l.nodes.prev (l.head :: (bs ++ [l.head]))
  bound : ∀ b ∈ l.head :: bs, b < l.nodes.brk
  headFreq : l.freq l.head = 0
  ascending : (l.head :: bs).Pairwise fun a b => l.freq a < l.freq b
  freqMap : ∀ f b, l.freqMap.lookup f = some b ↔ b ∈ bs ∧ l.freq b = f
  unfaulted : l.nodes.faulted = false

structure Indexed (l : LfuList) (bs : List Addr) : Prop where
  nodup : ∀ b ∈ bs, (l.items b).Nodup
  itemFreq : ∀ a b, l.itemFreq.lookup a = some b ↔ b ∈ bs ∧ a ∈ l.items b

structure Rep (l : LfuList) (bs : List Addr) : Prop where
  buckets : l.Buckets bs
  indexed : l.Indexed bs
  nonempty : ∀ b ∈ bs, l.items b ≠ []

def Tracks (l : LfuList) (f : Addr → Option Int) : Prop :=
  (∃ bs, l.Rep bs) ∧ l.freqOf = f

variable {b : Addr} {f : Int}

namespace Buckets
variable {l l' : LfuList} {bs : List Addr}

section
variable (h : l.Buckets bs)
include h

theorem nodup : (l.head :: bs).Nodup := by
  have hs := h.path.sources
  rwa [← cons_append, dropLast_concat] at hs

/-- The bucket structure does not depend on the item sets. -/
theorem congr (hhead : l'.head = l.head) (hn : l'.nodes.next = l.nodes.next)
    (hp : l'.nodes.prev = l.nodes.prev) (hb : l'.nodes.brk = l.nodes.brk)
    (hf : l'.nodes.faulted = l.nodes.faulted) (hfreq : l'.freq = l.freq)
    (hmap : l'.freqMap = l.freqMap) : l'.Buckets bs where
  path := by rw [hhead, hn, hp]; exact h.path
  bound := by rw [hhead, hb]; exact h.bound
  headFreq := by rw [hhead, hfreq]; exact h.headFreq
  ascending := by rw [hhead, hfreq]; exact h.ascending
  freqMap := by rw [hfreq, hmap]; exact h.freqMap
  unfaulted := by rw [hf]; exact h.unfaulted

theorem pos (hb : b ∈ bs) : 0 < l.freq b := by
  have := (pairwise_cons.mp h.ascending).1 b hb
  rwa [h.headFreq] at this

theorem nonneg (hb : b ∈ l.head :: bs) : 0 ≤ l.freq b := by
  rcases mem_cons.mp hb with rfl | hb
  · exact h.headFreq.ge
  · exact (h.pos hb).le

/-- Only buckets of frequencies in `freqMap` are in the list. -/
theorem freq_ne (hf : 0 < f) (hlk : l.freqMap.lookup f = none) (hb : b ∈ l.head :: bs) :
    l.freq b ≠ f := by
  rintro rfl
  rcases mem_cons.mp hb with rfl | hb
  · exact hf.ne' h.headFreq
  · rw [(h.freqMap _ b).mpr ⟨hb, rfl⟩] at hlk
    cases hlk

end

end Buckets

section Fields
variable (l : LfuList) (node item : Addr)

@[simp] theorem freq_unplace : (l.unplace node item).freq = l.freq := by
  funext b
  by_cases h : b = node
  · subst b; simp [freq, unplace]
  · simp [freq, unplace, h]

@[simp] theorem freq_place : (l.place node item).freq = l.freq := by
  funext b
  by_cases h : b = node
  · subst b; simp [freq, place]
  · simp [freq, place, h]

@[simp] theorem items_unplace :
    (l.unplace node item).items = update l.items node ((l.items node).erase item) := by
  funext b
  by_cases h : b = node
  · subst b; simp [items, unplace]
  · simp [items, unplace, h]

@[simp] theorem items_place :
    (l.place node item).items = update l.items node ((l.items node).insert item) := by
  funext b
  by_cases h : b = node
  · subst b; simp [items, place]
  · simp [items, place, h]

end Fields

/-- What a search for the bucket of frequency `f` returns: a bucket of that
frequency, new and empty unless it was there before, and nothing else changed. -/
structure Grown (l : LfuList) (bs : List Addr) (f : Int) (r : Addr × LfuList)
    (bs' : List Addr) : Prop where
  buckets : r.2.Buckets bs'
  freq : r.2.freq r.1 = f
  mem_iff : ∀ b, b ∈ bs' ↔ b ∈ bs ∨ b = r.1
  itemFreq : r.2.itemFreq = l.itemFreq
  body : ∀ b ∈ bs, r.2.nodes.body b = l.nodes.body b
  fresh : r.1 ∉ bs → r.2.items r.1 = []

variable {l : LfuList} {bs : List Addr} {node : Addr}

theorem Grown.of_mem (h : l.Buckets bs) (hn : node ∈ bs) :
    l.Grown bs (l.freq node) (node, l) bs where
  buckets := h
  freq := rfl
  mem_iff := fun _ => ⟨.inl, fun hb => hb.elim id fun he => he ▸ hn⟩
  itemFreq := rfl
  body := fun _ _ => rfl
  fresh := fun hc => absurd hn hc

section Lists
variable {freq freq' : Addr → Int} {bs bs' m r : List Addr} {p new : Addr}

/-- A bucket right after one of the preceding frequency keeps the order. -/
theorem ascending_insert (hasc : (m ++ p :: r).Pairwise fun a b => freq a < freq b)
    (hold : ∀ c ∈ m ++ p :: r, freq' c = freq c) (hnew : freq' new = freq p + 1)
    (hgap : ∀ c ∈ r, freq c ≠ freq p + 1) :
    (m ++ p :: new :: r).Pairwise fun a b => freq' a < freq' b := by
  have hasc' : (m ++ p :: r).Pairwise fun a b => freq' a < freq' b :=
    hasc.imp_of_mem fun hc hd hlt => by rwa [hold _ hc, hold _ hd]
  obtain ⟨hm, hpr, hcross⟩ := pairwise_append.mp hasc'
  obtain ⟨hp, hr⟩ := pairwise_cons.mp hpr
  have hpold : freq' p = freq p := hold p (by simp)
  have hpnew : freq' p < freq' new := by omega
  have hnewr : ∀ c ∈ r, freq' new < freq' c := by
    intro c hc
    have hlt := hp c hc
    have hc' := hold c (by simp [hc])
    have hne := hgap c hc
    omega
  refine pairwise_append.mpr ⟨hm, pairwise_cons.mpr ⟨?_, pairwise_cons.mpr ⟨hnewr, hr⟩⟩, ?_⟩
  · exact forall_mem_cons.mpr ⟨hpnew, hp⟩
  · intro a ha
    have hap := hcross a ha p mem_cons_self
    exact forall_mem_cons.mpr ⟨hap, forall_mem_cons.mpr ⟨hap.trans hpnew,
      fun c hc => hcross a ha c (mem_cons_of_mem _ hc)⟩⟩

/-- The list after the sentinel, with `new` after `p`. -/
theorem exists_insert_after {head : Addr} (h : head :: bs = m ++ p :: r) (new : Addr) :
    ∃ bs', head :: bs' = m ++ p :: new :: r ∧ ∀ c, c ∈ bs' ↔ c ∈ bs ∨ c = new := by
  cases m with
  | nil =>
    cases h
    exact ⟨new :: bs, rfl, fun c => by simp [or_comm]⟩
  | cons d m =>
    have hbs : bs = m ++ p :: r := (List.cons.inj h).2
    rw [(List.cons.inj h).1]
    refine ⟨m ++ p :: new :: r, rfl, fun c => ?_⟩
    simp only [hbs, mem_append, mem_cons]
    tauto

variable {freqMap : AList fun _ : Int => Addr} {f : Int}

theorem lookup_insert_iff (h : ∀ g b, freqMap.lookup g = some b ↔ b ∈ bs ∧ freq b = g)
    (hlk : freqMap.lookup f = none) (hmem : ∀ b, b ∈ bs' ↔ b ∈ bs ∨ b = new)
    (hnew : freq' new = f) (hold : ∀ b ∈ bs, freq' b = freq b) (g : Int) (b : Addr) :
    (freqMap.insert f new).lookup g = some b ↔ b ∈ bs' ∧ freq' b = g := by
  rw [hmem]
  by_cases hg : g = f
  · subst hg
    rw [AList.lookup_insert]
    constructor
    · rintro ⟨⟩
      exact ⟨.inr rfl, hnew⟩
    · rintro ⟨hb | rfl, hf⟩
      · rw [(h g b).mpr ⟨hb, hold b hb ▸ hf⟩] at hlk
        cases hlk
      · rfl
  · rw [AList.lookup_insert_ne hg, h]
    constructor
    · rintro ⟨hb, hf⟩
      exact ⟨.inl hb, (hold b hb).trans hf⟩
    · rintro ⟨hb | rfl, hf⟩
      · exact ⟨hb, (hold b hb).symm.trans hf⟩
      · exact absurd (hf.symm.trans hnew) hg

theorem lookup_erase_iff (h : ∀ g b, freqMap.lookup g = some b ↔ b ∈ bs ∧ freq b = g)
    (hp : p ∈ bs) (hmem : ∀ b, b ∈ bs' ↔ b ∈ bs ∧ b ≠ p) (g : Int) (b : Addr) :
    (freqMap.erase (freq p)).lookup g = some b ↔ b ∈ bs' ∧ freq b = g := by
  rw [hmem]
  by_cases hg : g = freq p
  · subst hg
    rw [AList.lookup_erase]
    constructor
    · rintro ⟨⟩
    · rintro ⟨⟨hb, hne⟩, hf⟩
      have hsame := ((h _ b).mpr ⟨hb, hf⟩).symm.trans ((h _ p).mpr ⟨hp, rfl⟩)
      exact absurd (Option.some.inj hsame) hne
  · rw [AList.lookup_erase_ne hg, h]
    constructor
    · rintro ⟨hb, hf⟩
      exact ⟨⟨hb, by rintro rfl; exact hg hf.symm⟩, hf⟩
    · rintro ⟨⟨hb, -⟩, hf⟩
      exact ⟨hb, hf⟩

end Lists

section InsertBucket
variable (l : LfuList) (p : Addr) (f : Int)

@[simp] theorem body_insertBucket : (l.insertBucket p f).2.nodes.body =
    update l.nodes.body l.nodes.brk ⟨f, []⟩ := by
  simp [insertBucket]

@[simp] theorem freq_insertBucket : (l.insertBucket p f).2.freq = update l.freq l.nodes.brk f := by
  funext b
  by_cases h : b = l.nodes.brk
  · subst b; simp [freq]
  · simp [freq, h]

@[simp] theorem items_insertBucket :
    (l.insertBucket p f).2.items = update l.items l.nodes.brk [] := by
  funext b
  by_cases h : b = l.nodes.brk
  · subst b; simp [items]
  · simp [items, h]

variable {l p f}

theorem insertBucket_path {m rest : List Addr}
    (h : Path l.nodes.next l.nodes.prev (m ++ p :: b :: rest))
    (hnew : l.nodes.brk ∉ m ++ p :: b :: rest) :
    Path (l.insertBucket p f).2.nodes.next (l.insertBucket p f).2.nodes.prev
      (m ++ p :: l.nodes.brk :: b :: rest) := by
  have hne : ∀ c ∈ m ++ p :: b :: rest, c ≠ l.nodes.brk := by
    intro c hc he
    exact hnew (he ▸ hc)
  have hpn : p ≠ l.nodes.brk := hne p (by simp)
  have hnext : update l.nodes.next l.nodes.brk none p = some b := by
    rw [update_of_ne hpn]
    exact h.next
  have hold : Path (update l.nodes.next l.nodes.brk none)
      (update l.nodes.prev l.nodes.brk none) (m ++ p :: b :: rest) :=
    h.congr (fun c hc => update_of_ne (hne c hc) _ _)
      (fun c hc => update_of_ne (hne c hc) _ _)
  simp only [insertBucket, next_alloc, hnext, fst_alloc, next_assignPrev, next_assignNext,
    prev_assignPrev, prev_assignNext, prev_alloc]
  exact hold.insert hnew

theorem insertBucket_store (hp : p ≠ l.nodes.brk) (hb : l.nodes.next p = some b) :
    (l.insertBucket p f).2.nodes.brk = l.nodes.brk + 1 ∧
      (l.insertBucket p f).2.nodes.faulted = l.nodes.faulted := by
  have hnext : update l.nodes.next l.nodes.brk none p = some b := by
    rw [update_of_ne hp]
    exact hb
  simp only [insertBucket, next_alloc, hnext]
  exact ⟨rfl, rfl⟩

theorem insertBucket_grown (h : l.Buckets bs) (hp : p ∈ l.head :: bs)
    (hlk : l.freqMap.lookup (l.freq p + 1) = none) :
    ∃ bs', l.Grown bs (l.freq p + 1) (l.insertBucket p (l.freq p + 1)) bs' := by
  obtain ⟨m, r, hm⟩ := append_of_mem hp
  obtain ⟨b, rest, hb⟩ := exists_front r l.head
  obtain ⟨bs', hbs', hmem⟩ := exists_insert_after hm l.nodes.brk
  have hcycle : l.head :: (bs ++ [l.head]) = m ++ p :: b :: rest := by
    rw [← cons_append, hm, append_assoc, cons_append, hb]
  have hcycle' : l.head :: (bs' ++ [l.head]) = m ++ p :: l.nodes.brk :: b :: rest := by
    rw [← cons_append, hbs', append_assoc, cons_append, cons_append, hb]
  have hne : ∀ c ∈ l.head :: bs, c ≠ l.nodes.brk := fun c hc => Nat.ne_of_lt (h.bound c hc)
  have hpath := h.path
  rw [hcycle] at hpath
  have hnew : l.nodes.brk ∉ m ++ p :: b :: rest := by
    rw [← hcycle]
    intro hc
    refine hne l.nodes.brk ?_ rfl
    simp only [mem_cons, mem_append, not_mem_nil, or_false] at hc ⊢
    tauto
  obtain ⟨hbrk, hfault⟩ := insertBucket_store (f := l.freq p + 1) (hne p hp) hpath.next
  have hnewFreq : (l.insertBucket p (l.freq p + 1)).2.freq l.nodes.brk = l.freq p + 1 := by simp
  have hold : ∀ c ∈ l.head :: bs, (l.insertBucket p (l.freq p + 1)).2.freq c = l.freq c := by
    intro c hc
    rw [freq_insertBucket, update_of_ne (hne c hc)]
  have hfree : ∀ c ∈ l.head :: bs, l.freq c ≠ l.freq p + 1 := fun c hc =>
    h.freq_ne (Int.lt_add_one_of_le (h.nonneg hp)) hlk hc
  refine ⟨bs', ⟨?_, ?_, (hold _ mem_cons_self).trans h.headFreq, ?_,
    lookup_insert_iff h.freqMap hlk hmem hnewFreq fun c hc => hold c (mem_cons_of_mem _ hc),
    hfault.trans h.unfaulted⟩, hnewFreq, hmem, rfl, fun c hc => ?_, fun _ => ?_⟩
  · change Path _ _ (l.head :: (bs' ++ [l.head]))
    rw [hcycle']
    exact insertBucket_path hpath hnew
  · intro c hc
    rw [hbrk]
    rcases mem_cons.mp hc with rfl | hc
    · exact Nat.lt_succ_of_lt (h.bound _ mem_cons_self)
    · rcases (hmem c).mp hc with hc | rfl
      · exact Nat.lt_succ_of_lt (h.bound c (mem_cons_of_mem _ hc))
      · exact Nat.lt_succ_self _
  · change (l.head :: bs').Pairwise _
    have hasc := h.ascending
    rw [hm] at hasc hold hfree
    rw [hbs']
    exact ascending_insert hasc hold hnewFreq fun c hc => hfree c (by simp [hc])
  · rw [body_insertBucket, update_of_ne (hne c (mem_cons_of_mem _ hc))]
  · change (l.insertBucket p _).2.items l.nodes.brk = []
    simp

theorem ensureIndex_grown (h : l.Buckets bs) (hp : p ∈ l.head :: bs) :
    ∃ bs', l.Grown bs (l.freq p + 1) (l.ensureIndex (some p) (l.freq p + 1)) bs' := by
  unfold ensureIndex
  cases hlk : l.freqMap.lookup (l.freq p + 1) with
  | some node =>
    obtain ⟨hn, hf⟩ := (h.freqMap _ _).mp hlk
    have hg := Grown.of_mem h hn
    rw [hf] at hg
    exact ⟨bs, hg⟩
  | none => exact insertBucket_grown h hp hlk

end InsertBucket

theorem nextBucket_grown (h : l.Buckets bs) {cur : Addr} (hc : cur ∈ bs) :
    ∃ bs', l.Grown bs (l.freq cur + 1) (l.nextBucket cur (l.freq cur + 1)) bs' := by
  obtain ⟨m, r, hm⟩ := append_of_mem hc
  obtain ⟨b, hb⟩ : ∃ b, l.nodes.next cur = some b ∧ (b ≠ l.head → b ∈ bs) := by
    have hpath := h.path
    cases r with
    | nil =>
      have hlist : l.head :: (bs ++ [l.head]) = (l.head :: m) ++ cur :: l.head :: [] := by
        simp [hm]
      rw [hlist] at hpath
      exact ⟨l.head, hpath.next, fun hn => absurd rfl hn⟩
    | cons b r =>
      have hlist : l.head :: (bs ++ [l.head]) = (l.head :: m) ++ cur :: b :: (r ++ [l.head]) := by
        simp [hm]
      rw [hlist] at hpath
      exact ⟨b, hpath.next, fun _ => by simp [hm]⟩
  unfold nextBucket
  rw [hb.1]
  by_cases hnext : b ≠ l.head ∧ l.freq b = l.freq cur + 1
  · have hg := Grown.of_mem h (hb.2 hnext.1)
    rw [hnext.2] at hg
    exact ⟨bs, by simpa only [if_pos hnext] using hg⟩
  · simpa only [if_neg hnext] using ensureIndex_grown h (mem_cons_of_mem _ hc)

theorem removeFreqNode_buckets (h : l.Buckets bs) (hn : node ∈ bs) :
    (l.removeFreqNode node).Buckets (bs.erase node) ∧
      (l.removeFreqNode node).nodes.body = l.nodes.body := by
  obtain ⟨m, r, rfl⟩ := append_of_mem hn
  obtain ⟨b, rest, hb⟩ := exists_front r l.head
  obtain ⟨m', a, ha⟩ := exists_back l.head m
  have hcycle : l.head :: (m ++ node :: r ++ [l.head]) = m' ++ a :: node :: b :: rest := by
    have hsplit : l.head :: (m ++ node :: r ++ [l.head]) =
        (l.head :: m) ++ node :: (r ++ [l.head]) := by simp
    rw [hsplit, ha, hb]
    simp
  have hcycle' : l.head :: (m ++ r ++ [l.head]) = m' ++ a :: b :: rest := by
    have hsplit : l.head :: (m ++ r ++ [l.head]) = (l.head :: m) ++ (r ++ [l.head]) := by simp
    rw [hsplit, ha, hb]
    simp
  have hnd := (nodup_cons.mp h.nodup).2
  have hnm : node ∉ m := by
    intro hc
    exact (nodup_append.mp hnd).2.2 node hc node (by simp) rfl
  have herase : (m ++ node :: r).erase node = m ++ r := by
    rw [erase_append_right _ hnm, erase_cons_head]
  have hpath := h.path
  rw [hcycle] at hpath
  have hprev : l.nodes.prev node = some a := hpath.prev
  have hnext : l.nodes.next node = some b := by
    have hsplit : m' ++ a :: node :: b :: rest = (m' ++ [a]) ++ node :: b :: rest := by simp
    rw [hsplit] at hpath
    exact hpath.next
  have han : a ≠ node := by
    rintro rfl
    have hmem : a ∈ l.head :: m := by rw [ha]; simp
    rcases mem_cons.mp hmem with he | hmem
    · exact (nodup_cons.mp h.nodup).1 (he ▸ hn)
    · exact hnm hmem
  have hst : (l.removeFreqNode node).nodes =
      (l.nodes.assignNext (some a) (some b)).assignPrev (some b) (some a) := by
    simp [removeFreqNode, hprev, hnext, update_of_ne han.symm]
  have hbody : (l.removeFreqNode node).nodes.body = l.nodes.body := by simp [hst]
  have hfreq : (l.removeFreqNode node).freq = l.freq := by
    funext c
    simp only [freq, hbody]
  have hmem : ∀ c, c ∈ m ++ r ↔ c ∈ m ++ node :: r ∧ c ≠ node := by
    intro c
    rw [← herase, hnd.mem_erase_iff]
    exact and_comm
  refine ⟨?_, hbody⟩
  rw [herase]
  refine ⟨?_, ?_, ?_, ?_, ?_, ?_⟩
  · change Path _ _ (l.head :: (m ++ r ++ [l.head]))
    rw [hst, hcycle']
    simpa using hpath.remove
  · intro c hc
    rw [hst]
    refine h.bound c ?_
    rcases mem_cons.mp hc with rfl | hc
    · exact mem_cons_self
    · exact mem_cons_of_mem _ ((hmem c).mp hc).1
  · rw [hfreq]
    exact h.headFreq
  · rw [hfreq]
    refine h.ascending.sublist (List.Sublist.cons_cons _ ?_)
    exact List.Sublist.append_left (sublist_cons_self node r) m
  · rw [hfreq]
    exact lookup_erase_iff h.freqMap hn hmem
  · rw [hst]
    exact h.unfaulted

theorem freqOf_eq_some (h : l.Indexed bs) {a : Addr} :
    l.freqOf a = some f ↔ ∃ b ∈ bs, a ∈ l.items b ∧ l.freq b = f := by
  unfold freqOf
  rw [Option.map_eq_some_iff]
  constructor
  · rintro ⟨b, hb, hf⟩
    obtain ⟨hbs, ha⟩ := (h.itemFreq a b).mp hb
    exact ⟨b, hbs, ha, hf⟩
  · rintro ⟨b, hbs, ha, hf⟩
    exact ⟨b, (h.itemFreq a b).mpr ⟨hbs, ha⟩, hf⟩

/-- Dropping a bucket that may have become empty restores the full invariant
and is invisible in the map. -/
theorem dropEmpty_rep (hb : l.Buckets bs) (hi : l.Indexed bs) (hn : node ∈ bs)
    (hne : ∀ b ∈ bs, b ≠ node → l.items b ≠ []) :
    (∃ bs', (l.dropEmpty node).Rep bs') ∧ (l.dropEmpty node).freqOf = l.freqOf := by
  unfold dropEmpty
  by_cases hempty : l.items node = []
  · have hpos : l.freq node ≠ 0 := (hb.pos hn).ne'
    rw [if_pos ⟨hempty, hpos⟩]
    obtain ⟨hbuckets, hbody⟩ := removeFreqNode_buckets hb hn
    have hitems : (l.removeFreqNode node).items = l.items := by
      funext b
      simp only [items, hbody]
    have hnd := (nodup_cons.mp hb.nodup).2
    refine ⟨⟨bs.erase node, hbuckets, ⟨?_, ?_⟩, ?_⟩, ?_⟩
    · intro b hbe
      rw [hitems]
      exact hi.nodup b (mem_of_mem_erase hbe)
    · intro a b
      rw [hitems, hnd.mem_erase_iff]
      change l.itemFreq.lookup a = some b ↔ _
      rw [hi.itemFreq]
      constructor
      · rintro ⟨hbs, ha⟩
        refine ⟨⟨?_, hbs⟩, ha⟩
        rintro rfl
        rw [hempty] at ha
        cases ha
      · rintro ⟨⟨-, hbs⟩, ha⟩
        exact ⟨hbs, ha⟩
    · intro b hbe
      rw [hitems]
      obtain ⟨hbn, hbs⟩ := (hnd.mem_erase_iff).mp hbe
      exact hne b hbs hbn
    · have hfreq : (l.removeFreqNode node).freq = l.freq := by
        funext b
        simp only [LfuList.freq, hbody]
      funext a
      rw [freqOf, hfreq]
      rfl
  · rw [if_neg fun hc => hempty hc.1]
    refine ⟨⟨bs, hb, hi, ?_⟩, rfl⟩
    intro b hbs
    by_cases hbn : b = node
    · exact hbn ▸ hempty
    · exact hne b hbs hbn

variable {item : Addr}

/-- Place an item, at present in no bucket, into the bucket found for `f`. -/
theorem place_spec {bs bs' : List Addr} {r : Addr × LfuList} (hg : l.Grown bs f r bs')
    (hnd : ∀ b ∈ bs, (l.items b).Nodup)
    (hidx : ∀ a, a ≠ item → ∀ b, l.itemFreq.lookup a = some b ↔ b ∈ bs ∧ a ∈ l.items b)
    (hitem : ∀ b ∈ bs, item ∉ l.items b) :
    (r.2.place r.1 item).Buckets bs' ∧ (r.2.place r.1 item).Indexed bs' ∧
      (r.2.place r.1 item).freqOf = update l.freqOf item (some f) := by
  have hold : ∀ b ∈ bs, r.2.items b = l.items b := by
    intro b hb
    simp only [items, hg.body b hb]
  have hitems : ∀ b ∈ bs', ∀ a, a ∈ r.2.items b → b ∈ bs ∧ a ∈ l.items b := by
    intro b hb a ha
    by_cases hbs : b ∈ bs
    · exact ⟨hbs, hold b hbs ▸ ha⟩
    · have hbr : b = r.1 := ((hg.mem_iff b).mp hb).resolve_left hbs
      subst b
      rw [hg.fresh hbs] at ha
      cases ha
  have hr : r.1 ∈ bs' := (hg.mem_iff _).mpr (.inr rfl)
  refine ⟨?_, ⟨?_, ?_⟩, ?_⟩
  · exact hg.buckets.congr rfl (by simp [place]) (by simp [place]) rfl rfl (by simp) rfl
  · intro b hb
    have hrn : (r.2.items b).Nodup := by
      by_cases hbs : b ∈ bs
      · rw [hold b hbs]
        exact hnd b hbs
      · have hbr : b = r.1 := ((hg.mem_iff b).mp hb).resolve_left hbs
        subst b
        rw [hg.fresh hbs]
        exact nodup_nil
    rw [items_place]
    by_cases hbr : b = r.1
    · subst b
      rw [update_self]
      exact hrn.insert
    · rwa [update_of_ne hbr]
  · intro a b
    change (r.2.itemFreq.insert item r.1).lookup a = some b ↔ _
    rw [items_place, hg.itemFreq]
    by_cases ha : a = item
    · subst a
      rw [AList.lookup_insert]
      constructor
      · intro he
        cases he
        exact ⟨hr, by simp⟩
      · rintro ⟨hb, hm⟩
        by_cases hbr : b = r.1
        · rw [hbr]
        · rw [update_of_ne hbr] at hm
          obtain ⟨hbs, hm⟩ := hitems b hb _ hm
          exact absurd hm (hitem b hbs)
    · rw [AList.lookup_insert_ne ha, hidx a ha]
      have hm : a ∈ update r.2.items r.1 ((r.2.items r.1).insert item) b ↔
          a ∈ r.2.items b := by
        by_cases hbr : b = r.1
        · subst b
          simp [ha]
        · rw [update_of_ne hbr]
      rw [hm]
      constructor
      · rintro ⟨hbs, hal⟩
        exact ⟨(hg.mem_iff b).mpr (.inl hbs), (hold b hbs).symm ▸ hal⟩
      · rintro ⟨hb, hal⟩
        exact hitems b hb a hal
  · funext a
    simp only [freqOf, freq_place]
    change ((r.2.itemFreq.insert item r.1).lookup a).map r.2.freq = _
    rw [hg.itemFreq]
    by_cases ha : a = item
    · subst a
      simp [hg.freq]
    · rw [AList.lookup_insert_ne ha, update_of_ne ha, freqOf]
      cases hlk : l.itemFreq.lookup a with
      | none => rfl
      | some b =>
        have hbs := ((hidx a ha b).mp hlk).1
        simp only [Option.map_some, LfuList.freq, hg.body b hbs]

theorem place_nonempty {bs bs' : List Addr} {r : Addr × LfuList} (hg : l.Grown bs f r bs')
    (hb : b ∈ bs') (hne : b ∈ bs → b ≠ r.1 → l.items b ≠ []) :
    (r.2.place r.1 item).items b ≠ [] := by
  rw [items_place]
  by_cases hbr : b = r.1
  · subst b
    rw [update_self]
    exact ne_nil_of_mem mem_insert_self
  · rw [update_of_ne hbr]
    have hbs := ((hg.mem_iff b).mp hb).resolve_right hbr
    simp only [items, hg.body b hbs]
    exact hne hbs hbr

theorem newLFUList_rep : newLFUList.Rep [] where
  buckets := by
    refine ⟨⟨?_, ?_, ?_⟩, ?_, rfl, ?_, ?_, rfl⟩
    · exact isChain_cons_cons.mpr ⟨⟨rfl, rfl⟩, List.IsChain.singleton _⟩
    · simp
    · simp
    · intro b hb
      rw [mem_singleton.mp hb]
      exact Nat.one_pos
    · simp
    · intro f b
      simp [newLFUList]
  indexed := ⟨by simp, by intro a b; simp [newLFUList]⟩
  nonempty := by simp

theorem newLFUList_tracks : newLFUList.Tracks fun _ => none :=
  ⟨⟨[], newLFUList_rep⟩, by funext a; simp [freqOf, newLFUList]⟩

theorem untracked (h : l.Indexed bs) (hu : l.freqOf item = none) : ∀ b ∈ bs, item ∉ l.items b := by
  intro b hb hm
  have := (freqOf_eq_some h).mpr ⟨b, hb, hm, rfl⟩
  rw [hu] at this
  cases this

variable {f : Addr → Option Int}

theorem add_tracks (h : l.Tracks f) (hu : f item = none) :
    (l.add item).Tracks (update f item (some 1)) := by
  obtain ⟨⟨bs, hrep⟩, rfl⟩ := h
  have hfree := untracked hrep.indexed hu
  obtain ⟨bs', hg⟩ := ensureIndex_grown hrep.buckets (p := l.head) mem_cons_self
  rw [hrep.buckets.headFreq] at hg
  obtain ⟨hb, hi, hf⟩ := place_spec hg hrep.indexed.nodup (fun a _ => hrep.indexed.itemFreq a) hfree
  exact ⟨⟨bs', hb, hi, fun b hbm => place_nonempty hg hbm fun hbs _ => hrep.nonempty b hbs⟩, hf⟩

theorem increment_tracks (h : l.Tracks f) {g : Int} (hg : f item = some g) :
    (l.increment item).1.Tracks (update f item (some (g + 1))) ∧
      (l.increment item).2 = g + 1 := by
  obtain ⟨⟨bs, hrep⟩, rfl⟩ := h
  obtain ⟨cur, hlk, hfreq⟩ := Option.map_eq_some_iff.mp hg
  obtain ⟨hcur, hmem⟩ := (hrep.indexed.itemFreq item cur).mp hlk
  have hnd := hrep.indexed.nodup
  simp only [increment, hlk, hfreq, and_true]
  have hb1 : (l.unplace cur item).Buckets bs :=
    hrep.buckets.congr rfl (by simp [unplace]) (by simp [unplace]) rfl rfl (by simp) rfl
  have hitems : ∀ b ∈ bs, ∀ a, a ∈ (l.unplace cur item).items b ↔ a ∈ l.items b ∧ a ≠ item := by
    intro b hb a
    rw [items_unplace]
    by_cases hbc : b = cur
    · subst b
      rw [update_self, (hnd cur hcur).mem_erase_iff]
      exact and_comm
    · rw [update_of_ne hbc]
      constructor
      · intro ha
        refine ⟨ha, ?_⟩
        rintro rfl
        have := (hrep.indexed.itemFreq a b).mpr ⟨hb, ha⟩
        rw [hlk] at this
        exact hbc (Option.some.inj this).symm
      · exact fun ha => ha.1
  obtain ⟨bs', hgrown⟩ := nextBucket_grown hb1 hcur
  rw [freq_unplace, hfreq] at hgrown
  have hnd1 : ∀ b ∈ bs, ((l.unplace cur item).items b).Nodup := by
    intro b hb
    rw [items_unplace]
    by_cases hbc : b = cur
    · subst b
      rw [update_self]
      exact (hnd cur hcur).erase item
    · rw [update_of_ne hbc]
      exact hnd b hb
  have hidx1 : ∀ a, a ≠ item → ∀ b, (l.unplace cur item).itemFreq.lookup a = some b ↔
      b ∈ bs ∧ a ∈ (l.unplace cur item).items b := by
    intro a ha b
    change l.itemFreq.lookup a = some b ↔ _
    rw [hrep.indexed.itemFreq]
    constructor
    · exact fun hx => ⟨hx.1, (hitems b hx.1 a).mpr ⟨hx.2, ha⟩⟩
    · exact fun hx => ⟨hx.1, ((hitems b hx.1 a).mp hx.2).1⟩
  obtain ⟨hb2, hi2, hf2⟩ := place_spec hgrown hnd1 hidx1
    (fun b hb hm => ((hitems b hb item).mp hm).2 rfl)
  have hfo : (l.unplace cur item).freqOf = l.freqOf := by
    funext a
    simp only [freqOf, freq_unplace]
    rfl
  rw [hfo] at hf2
  have hcur' : cur ∈ bs' := (hgrown.mem_iff cur).mpr (.inl hcur)
  have hdrop := dropEmpty_rep hb2 hi2 hcur' ?_
  · exact ⟨hdrop.1, hdrop.2.trans hf2⟩
  · intro b hbm hbc
    refine place_nonempty hgrown hbm fun hbs _ => ?_
    rw [items_unplace, update_of_ne hbc]
    exact hrep.nonempty b hbs

/-- Take a tracked item out of its bucket and of `itemFreq`. -/
theorem unplace_erase (hrep : l.Rep bs) {item node : Addr}
    (hlk : l.itemFreq.lookup item = some node) {l' : LfuList}
    (hl' : l' = { l.unplace node item with itemFreq := l.itemFreq.erase item }) :
    l'.Buckets bs ∧ l'.Indexed bs ∧ l'.freqOf = update l.freqOf item none ∧
      ∀ b ∈ bs, b ≠ node → l'.items b ≠ [] := by
  obtain ⟨hnode, hmem⟩ := (hrep.indexed.itemFreq item node).mp hlk
  have hnd := hrep.indexed.nodup
  have hitems : l'.items = update l.items node ((l.items node).erase item) := by
    rw [hl']
    exact l.items_unplace node item
  have hfreq : l'.freq = l.freq := by
    rw [hl']
    exact l.freq_unplace node item
  have hidx : l'.itemFreq = l.itemFreq.erase item := by rw [hl']
  refine ⟨?_, ⟨?_, ?_⟩, ?_, ?_⟩
  · subst hl'
    exact hrep.buckets.congr rfl (by simp [unplace]) (by simp [unplace]) rfl rfl hfreq rfl
  · intro b hb
    rw [hitems]
    by_cases hbn : b = node
    · subst b
      rw [update_self]
      exact (hnd node hnode).erase item
    · rw [update_of_ne hbn]
      exact hnd b hb
  · intro a b
    rw [hidx, hitems]
    by_cases ha : a = item
    · subst a
      rw [AList.lookup_erase]
      constructor
      · intro he
        cases he
      · rintro ⟨hb, hm⟩
        by_cases hbn : b = node
        · subst b
          rw [update_self, (hnd node hnode).mem_erase_iff] at hm
          exact absurd rfl hm.1
        · rw [update_of_ne hbn] at hm
          have := (hrep.indexed.itemFreq item b).mpr ⟨hb, hm⟩
          rw [hlk] at this
          exact absurd (Option.some.inj this).symm hbn
    · rw [AList.lookup_erase_ne ha, hrep.indexed.itemFreq]
      by_cases hbn : b = node
      · subst b
        rw [update_self, mem_erase_of_ne ha]
      · rw [update_of_ne hbn]
  · funext a
    rw [freqOf, hidx, hfreq]
    by_cases ha : a = item
    · subst a
      simp
    · rw [AList.lookup_erase_ne ha, update_of_ne ha, freqOf]
  · intro b hb hbn
    rw [hitems, update_of_ne hbn]
    exact hrep.nonempty b hb

theorem remove_tracks (h : l.Tracks f) (item : Addr) :
    (l.remove item).Tracks (update f item none) := by
  obtain ⟨⟨bs, hrep⟩, rfl⟩ := h
  unfold remove
  cases hlk : l.itemFreq.lookup item with
  | none =>
    refine ⟨⟨bs, hrep⟩, ?_⟩
    have hno : l.freqOf item = none := by simp [freqOf, hlk]
    exact (update_eq_self_iff.mpr hno.symm).symm
  | some node =>
    obtain ⟨hb, hi, hf, hne⟩ := unplace_erase hrep hlk rfl
    have hnode := ((hrep.indexed.itemFreq item node).mp hlk).1
    obtain ⟨hr, hdf⟩ := dropEmpty_rep hb hi hnode hne
    exact ⟨hr, hdf.trans hf⟩

/-- `removeLFU` returns an item of least frequency, and nil only when nothing is
tracked; it forgets exactly the item it returns. -/
theorem removeLFU_tracks (h : l.Tracks f) (pick : Nat → Nat) :
    match (l.removeLFU pick).2 with
    | none => (∀ a, f a = none) ∧ (l.removeLFU pick).1 = l
    | some victim => (∃ g, f victim = some g ∧ ∀ a g', f a = some g' → g ≤ g') ∧
        (l.removeLFU pick).1.Tracks (update f victim none) := by
  obtain ⟨⟨bs, hrep⟩, rfl⟩ := h
  have hpath := hrep.buckets.path
  cases bs with
  | nil =>
    have hnext : l.nodes.next l.head = some l.head :=
      (show Path l.nodes.next l.nodes.prev ([] ++ l.head :: l.head :: []) from hpath).next
    simp only [removeLFU, hnext, if_true, and_true]
    intro a
    cases ha : l.freqOf a with
    | none => rfl
    | some g =>
      obtain ⟨b, hb, -⟩ := (freqOf_eq_some hrep.indexed).mp ha
      cases hb
  | cons node rest =>
    have hnext : l.nodes.next l.head = some node :=
      (show Path l.nodes.next l.nodes.prev ([] ++ l.head :: node :: (rest ++ [l.head]))
        from hpath).next
    have hne : node ≠ l.head := by
      rintro rfl
      exact (nodup_cons.mp hrep.buckets.nodup).1 mem_cons_self
    have hnb : node ∈ node :: rest := mem_cons_self
    cases hv : (Iteration.shuffle pick (l.items node)).head? with
    | none =>
      have hnil := head?_eq_none_iff.mp hv
      have hperm := Iteration.shuffle_perm pick (l.items node)
      rw [hnil] at hperm
      exact absurd hperm.nil_eq.symm (hrep.nonempty node hnb)
    | some victim =>
      simp only [removeLFU, hnext, if_neg hne, hv]
      have hvm : victim ∈ l.items node :=
        Iteration.mem_shuffle.mp (mem_of_head? hv)
      have hlk : l.itemFreq.lookup victim = some node :=
        (hrep.indexed.itemFreq victim node).mpr ⟨hnb, hvm⟩
      obtain ⟨hb, hi, hf, hnon⟩ := unplace_erase hrep hlk rfl
      have hpos := hb.pos hnb
      constructor
      · refine ⟨l.freq node, by simp [freqOf, hlk], ?_⟩
        intro a g' ha
        obtain ⟨b, hbm, -, rfl⟩ := (freqOf_eq_some hrep.indexed).mp ha
        rcases mem_cons.mp hbm with rfl | hbm
        · exact le_refl _
        · have hasc := (pairwise_cons.mp hrep.buckets.ascending).2
          exact ((pairwise_cons.mp hasc).1 b hbm).le
      · obtain ⟨hr, hdf⟩ := dropEmpty_rep hb hi hnb hnon
        simp only [dropEmpty, hpos.ne', ne_eq, not_false_eq_true, and_true] at hr hdf
        exact ⟨hr, hdf.trans hf⟩

end LfuList

end Kioshun
