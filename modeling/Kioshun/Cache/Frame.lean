import Kioshun.Cache.InMemory
import Kioshun.Cache.RemovalSpec

/-!
# From one shard to the cache

The cache is valid when every shard is, no two shards share a cell, and every
hash selects a shard. A section on one shard that keeps to its own cells and the
pool leaves the other shards as they were, so validity and the effect on the map
from keys to entries need to be shown for that one shard only.
-/

namespace Kioshun

open CellStore

universe u v
variable {K : Type u} {V : Type v} [DecidableEq K]

namespace Locked

/-- A shard is valid in any runtime that keeps its cells. -/
theorem Valid.transfer {policy : EvictionPolicy} {home home' : K → Prop} {rt : Runtime K V}
    {s : Shard K} {t : Locked K V} (h : Valid policy home (⟨rt, s⟩ : Locked K V))
    (ht : Core home' t)
    (keep : ∀ a ∈ s.cells, a < t.rt.mem.brk ∧ a ∉ t.rt.pool ∧ t.rt.mem.cell a = rt.mem.cell a) :
    Valid policy home (⟨t.rt, s⟩ : Locked K V) ∧
      ∀ k, (⟨t.rt, s⟩ : Locked K V).view k = (⟨rt, s⟩ : Locked K V).view k := by
  have hbody : ∀ a ∈ s.items, t.rt.mem.body a = rt.mem.body a := by
    intro a ha
    simp only [Store.body, (keep a (Shard.mem_cells_of_mem_items ha)).2.2]
  have hlook : ∀ k a, s.data.lookup k = some a → t.rt.mem.body a = rt.mem.body a :=
    fun k a hk => hbody a (Shard.mem_items_of_lookup hk)
  refine ⟨⟨⟨?_, ?_, h.core.home, h.core.size, fun a ha => (keep a ha).1,
    fun a ha => (keep a ha).2.1, ht.poolNodup, ht.poolBound, ht.unfaulted⟩, ?_⟩, ?_⟩
  · obtain ⟨xs, hrep, hp⟩ := h.core.chain
    refine ⟨xs, hrep.congr fun a ha => (keep a ?_).2.2, hp⟩
    exact (mem_chain_iff (c := ⟨rt, s⟩) hp).mp ha
  · intro k a hk
    show (t.rt.mem.body a).key = some k
    rw [hlook k a hk]
    exact h.core.key k a hk
  · have hf : (⟨t.rt, s⟩ : Locked K V).freqs = (⟨rt, s⟩ : Locked K V).freqs := by
      funext a
      by_cases ha : a ∈ s.items
      · simp only [freqs, ha, if_true, body, hbody a ha]
      · simp only [freqs, ha, if_false]
    have hi := h.indexed
    unfold Indexed at hi ⊢
    rw [hf]
    exact hi
  · intro k
    cases hk : s.data.lookup k with
    | none =>
      rw [view_eq_none (c := ⟨t.rt, s⟩) |>.mpr hk, view_eq_none (c := ⟨rt, s⟩) |>.mpr hk]
    | some a =>
      rw [view_of_lookup (c := ⟨t.rt, s⟩) hk, view_of_lookup (c := ⟨rt, s⟩) hk]
      simp only [body, hlook k a hk]

end Locked

namespace InMemoryCache

def locked (c : InMemoryCache K V) (s : Shard K) : Locked K V := ⟨c.rt, s⟩

def put (c : InMemoryCache K V) (i : Nat) (t : Locked K V) : InMemoryCache K V :=
  { c with shards := c.shards.set i t.sh, rt := t.rt }

structure Valid (c : InMemoryCache K V) : Prop where
  shard : ∀ (i : Nat) (s : Shard K), c.shards[i]? = some s →
    Locked.Valid c.config.evictionPolicy (fun k => c.home k = i) (c.locked s)
  disjoint : ∀ (i j : Nat) (s t : Shard K), i ≠ j → c.shards[i]? = some s → c.shards[j]? = some t →
    ∀ a ∈ s.cells, a ∉ t.cells
  inRange : ∀ hash, c.shardIndex hash < c.shards.length

def view (c : InMemoryCache K V) (k : K) : Option (V × Int) :=
  (c.shards[c.home k]?).bind fun s => (c.locked s).view k

structure SameShape (c c' : InMemoryCache K V) : Prop where
  config : c'.config = c.config
  mask : c'.shardMask = c.shardMask
  cap : c'.perShardCap = c.perShardCap
  closed : c'.closed = c.closed
  hasher : c'.hasher = c.hasher
  length : c'.shards.length = c.shards.length

namespace SameShape
variable {c c' c'' : InMemoryCache K V}

section
omit [DecidableEq K]

theorem refl (c : InMemoryCache K V) : SameShape c c := ⟨rfl, rfl, rfl, rfl, rfl, rfl⟩

theorem trans (h : SameShape c c') (h' : SameShape c' c'') : SameShape c c'' :=
  ⟨h'.config.trans h.config, h'.mask.trans h.mask, h'.cap.trans h.cap, h'.closed.trans h.closed,
    h'.hasher.trans h.hasher, h'.length.trans h.length⟩

theorem home (h : SameShape c c') (k : K) : c'.home k = c.home k := by
  simp only [InMemoryCache.home, shardIndex, h.mask, h.hasher]

end

end SameShape

variable {c c' : InMemoryCache K V} {i : Nat} {s : Shard K} {t : Locked K V}

section
omit [DecidableEq K]

theorem onShard_eq {α : Type*} (h : c.shards[i]? = some s) (d : α)
    (f : Locked K V → α × Locked K V) :
    c.onShard i d f = ((f (c.locked s)).1, c.put i (f (c.locked s)).2) := by
  simp only [onShard, h]
  rfl

theorem updateShard_eq (h : c.shards[i]? = some s) (f : Locked K V → Locked K V) :
    c.updateShard i f = c.put i (f (c.locked s)) := by
  simp only [updateShard, onShard_eq h]

theorem put_sameShape : SameShape c (c.put i t) :=
  ⟨rfl, rfl, rfl, rfl, rfl, List.length_set⟩

theorem getElem?_put_self (h : c.shards[i]? = some s) : (c.put i t).shards[i]? = some t.sh := by
  obtain ⟨hi, -⟩ := List.getElem?_eq_some_iff.mp h
  exact List.getElem?_set_self hi

theorem getElem?_put_ne {j : Nat} (h : i ≠ j) : (c.put i t).shards[j]? = c.shards[j]? :=
  List.getElem?_set_ne h

end

theorem Valid.exists_shard (h : Valid c) (hash : UInt64) :
    ∃ s, c.shards[c.shardIndex hash]? = some s :=
  ⟨_, List.getElem?_eq_getElem (h.inRange hash)⟩

theorem Valid.home_shard (h : Valid c) (k : K) : ∃ s, c.shards[c.home k]? = some s :=
  h.exists_shard (c.hasher k)

theorem view_of_shard {k : K} (h : c.shards[c.home k]? = some s) :
    c.view k = (c.locked s).view k := by
  simp only [view, h, Option.bind_some]

section Foreign

/-- The cells of another shard are foreign to the holder of this shard's lock. -/
theorem Valid.foreign (h : Valid c) {j : Nat} {s' : Shard K} (hi : c.shards[i]? = some s)
    (hj : c.shards[j]? = some s') (hij : i ≠ j) {a : Addr} (ha : a ∈ s'.cells) :
    (c.locked s).Foreign a where
  bound := (h.shard j s' hj).core.bound a ha
  unpooled := (h.shard j s' hj).core.unpooled a ha
  unowned := h.disjoint j i s' s hij.symm hj hi a ha

variable (h : Valid c) (hi : c.shards[i]? = some s)
  (hstep : Locked.Step c.config.evictionPolicy (fun k => c.home k = i) (c.locked s) t)
include h hi hstep

theorem Valid.other_shard {j : Nat} {s' : Shard K} (hj : c.shards[j]? = some s') (hij : i ≠ j) :
    Locked.Valid c.config.evictionPolicy (fun k => c.home k = j) (⟨t.rt, s'⟩ : Locked K V) ∧
      ∀ k, (⟨t.rt, s'⟩ : Locked K V).view k = (c.locked s').view k := by
  refine Locked.Valid.transfer (h.shard j s' hj) hstep.evolves.core fun a ha => ?_
  obtain ⟨hf, hcell⟩ := hstep.evolves.foreign a (h.foreign hi hj hij ha)
  exact ⟨hf.bound, hf.unpooled, hcell⟩

/-- A section that keeps its shard valid keeps the cache valid. -/
theorem Valid.put : Valid (c.put i t) where
  shard := by
    intro j s' hj
    by_cases hij : i = j
    · subst hij
      rw [getElem?_put_self hi] at hj
      cases hj
      exact hstep.valid
    · rw [getElem?_put_ne hij] at hj
      exact (h.other_shard hi hstep hj hij).1
  disjoint := by
    -- cells of the other shards are foreign before the section, hence after it
    have hout : ∀ j s', i ≠ j → c.shards[j]? = some s' → ∀ a ∈ s'.cells, a ∉ t.sh.cells :=
      fun j s' hij hj a ha =>
        (hstep.evolves.foreign a (h.foreign hi hj hij ha)).1.unowned
    intro j j' s' t' hjj hj hj' a ha
    by_cases hij : i = j
    · subst hij
      rw [getElem?_put_self hi] at hj
      rw [getElem?_put_ne hjj] at hj'
      cases hj
      exact fun ha' => hout j' t' hjj hj' a ha' ha
    · rw [getElem?_put_ne hij] at hj
      by_cases hij' : i = j'
      · subst hij'
        rw [getElem?_put_self hi] at hj'
        cases hj'
        exact hout j s' hij hj a ha
      · rw [getElem?_put_ne hij'] at hj'
        exact h.disjoint j j' s' t' hjj hj hj' a ha
  inRange := by
    intro hash
    rw [put_sameShape.length]
    exact h.inRange hash

/-- A section changes the entries of its own shard only. -/
theorem Valid.view_put (k : K) :
    (c.put i t).view k = if c.home k = i then t.view k else c.view k := by
  have hhome : (c.put i t).home k = c.home k := rfl
  split_ifs with hk
  · subst hk
    exact view_of_shard (getElem?_put_self hi)
  · obtain ⟨s', hs'⟩ := h.home_shard k
    have hne : i ≠ c.home k := fun he => hk he.symm
    rw [view_of_shard hs', ← (h.other_shard hi hstep hs' hne).2 k]
    exact view_of_shard (by rw [hhome, getElem?_put_ne hne]; exact hs')

end Foreign

end InMemoryCache

end Kioshun
