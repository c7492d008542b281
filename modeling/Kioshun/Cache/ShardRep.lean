import Kioshun.Cache.Shard

/-!
# The representation invariant of a shard

`Core` ties map, list, size and pool together. `Indexed` says what the frequency
index holds. Every operation on a shard is built from a few changes: assigning
fields of an item, promoting it, discarding it, inserting a recycled or new one,
and emptying the shard. Each change keeps `Core` and leaves alone the cells that
belong to neither the shard nor the pool, which is what other shards rely on.
-/

namespace Kioshun

open CellStore Function List

universe u v
variable {K : Type u} {V : Type v} {a : Addr} [DecidableEq K]

namespace Shard

def items (s : Shard K) : List Addr := s.data.entries.map Sigma.snd

def cells (s : Shard K) : List Addr := s.head :: s.tail :: s.items

variable {s : Shard K}

theorem mem_items : a ∈ s.items ↔ ∃ k, s.data.lookup k = some a := by
  constructor
  · intro h
    obtain ⟨e, he, rfl⟩ := mem_map.mp h
    exact ⟨e.1, AList.mem_lookup_iff.mpr he⟩
  · rintro ⟨k, hk⟩
    exact mem_map.mpr ⟨⟨k, a⟩, AList.mem_lookup_iff.mp hk, rfl⟩

theorem mem_items_of_lookup {k : K} (h : s.data.lookup k = some a) : a ∈ s.items :=
  mem_items.mpr ⟨k, h⟩

omit [DecidableEq K] in
theorem mem_cells_of_mem_items (h : a ∈ s.items) : a ∈ s.cells :=
  mem_cons_of_mem _ (mem_cons_of_mem _ h)

end Shard

/-- Erasing a key takes one item out of the map. -/
theorem entries_erase_perm {m : AList (fun _ : K => Addr)} {k : K} (h : m.lookup k = some a) :
    (m.entries.map Sigma.snd).Perm (a :: (m.erase k).entries.map Sigma.snd) := by
  have hk : k ∈ m.entries.keys := by
    rw [← AList.keys, ← AList.mem_keys, ← AList.lookup_isSome, h]
    rfl
  obtain ⟨b, l₁, l₂, -, hl, he⟩ := exists_of_kerase hk
  have hb : b = a := by
    have hm : (⟨k, b⟩ : Sigma fun _ : K => Addr) ∈ m.entries := by rw [hl]; simp
    have := AList.mem_lookup_iff.mpr hm
    rw [h] at this
    exact (Option.some.inj this).symm
  subst hb
  have herase : (m.erase k).entries = l₁ ++ l₂ := he
  rw [herase, hl, map_append, map_cons, map_append]
  exact perm_middle

namespace Locked

variable (policy : EvictionPolicy) (home : K → Prop)

def entry (c : Locked K V) (k : K) : Option (ItemBody K V) := (c.sh.data.lookup k).map c.body

def freqs (c : Locked K V) (a : Addr) : Option Int :=
  if a ∈ c.sh.items then some (c.body a).frequency else none

/-- Map, list, size and pool agree; every key belongs to the shard. -/
structure Core (c : Locked K V) : Prop where
  chain : ∃ xs, ListRep c.rt.mem c.sh.head c.sh.tail xs ∧ xs.Perm c.sh.items
  key : ∀ k a, c.sh.data.lookup k = some a → (c.body a).key = some k
  home : ∀ k a, c.sh.data.lookup k = some a → home k
  size : c.sh.size = c.sh.items.length
  bound : ∀ a ∈ c.sh.cells, a < c.rt.mem.brk
  unpooled : ∀ a ∈ c.sh.cells, a ∉ c.rt.pool
  poolNodup : c.rt.pool.Nodup
  poolBound : ∀ a ∈ c.rt.pool, a < c.rt.mem.brk
  unfaulted : c.rt.mem.faulted = false

/-- Under LFU the index tracks exactly the items of the shard; otherwise there is none. -/
def Indexed (c : Locked K V) : Prop :=
  if policy = .LFU then ∃ l, c.sh.lfuList = some l ∧ l.Tracks c.freqs else c.sh.lfuList = none

/-- A cell in use that belongs to neither the shard nor the pool. -/
structure Foreign (c : Locked K V) (a : Addr) : Prop where
  bound : a < c.rt.mem.brk
  unpooled : a ∉ c.rt.pool
  unowned : a ∉ c.sh.cells

structure Evolves (c c' : Locked K V) : Prop where
  core : Core home c'
  foreign : ∀ a, c.Foreign a → c'.Foreign a ∧ c'.rt.mem.cell a = c.rt.mem.cell a

/-- Only counters, the index, the clock and the iteration order differ. -/
structure Quiet (c c' : Locked K V) : Prop where
  mem : c'.rt.mem = c.rt.mem
  pool : c'.rt.pool = c.rt.pool
  data : c'.sh.data = c.sh.data
  head : c'.sh.head = c.sh.head
  tail : c'.sh.tail = c.sh.tail
  size : c'.sh.size = c.sh.size

variable {policy home} {c c' c'' : Locked K V} {k : K} {a : Addr}

theorem Evolves.refl (h : Core home c) : Evolves home c c := ⟨h, fun _ ha => ⟨ha, rfl⟩⟩

theorem Evolves.trans (h : Evolves home c c') (h' : Evolves home c' c'') : Evolves home c c'' where
  core := h'.core
  foreign := by
    intro a ha
    obtain ⟨h1, e1⟩ := h.foreign a ha
    obtain ⟨h2, e2⟩ := h'.foreign a h1
    exact ⟨h2, e2.trans e1⟩

namespace Quiet

omit [DecidableEq K] in
theorem refl (c : Locked K V) : Quiet c c := ⟨rfl, rfl, rfl, rfl, rfl, rfl⟩

section
variable (h : Quiet c c')
include h

section
omit [DecidableEq K]

theorem trans (h' : Quiet c' c'') : Quiet c c'' :=
  ⟨h'.mem.trans h.mem, h'.pool.trans h.pool, h'.data.trans h.data, h'.head.trans h.head,
    h'.tail.trans h.tail, h'.size.trans h.size⟩

theorem items : c'.sh.items = c.sh.items := by
  simp only [Shard.items, h.data]

theorem cells : c'.sh.cells = c.sh.cells := by
  simp only [Shard.cells, h.items, h.head, h.tail]

theorem body : c'.body = c.body := by
  funext a
  simp only [Locked.body, h.mem]

end

theorem entry : c'.entry = c.entry := by
  funext k
  simp only [Locked.entry, h.data, h.body]

omit [DecidableEq K] in
theorem freqs : c'.freqs = c.freqs := by
  funext a
  simp only [Locked.freqs, h.items, h.body]

theorem core (hc : Core home c) : Core home c' where
  chain := by rw [h.mem, h.head, h.tail, h.items]; exact hc.chain
  key := by rw [h.data, h.body]; exact hc.key
  home := by rw [h.data]; exact hc.home
  size := by rw [h.size, h.items]; exact hc.size
  bound := by rw [h.cells, h.mem]; exact hc.bound
  unpooled := by rw [h.cells, h.pool]; exact hc.unpooled
  poolNodup := by rw [h.pool]; exact hc.poolNodup
  poolBound := by rw [h.pool, h.mem]; exact hc.poolBound
  unfaulted := by rw [h.mem]; exact hc.unfaulted

theorem evolves (hc : Core home c) : Evolves home c c' where
  core := h.core hc
  foreign := by
    intro a ha
    refine ⟨⟨?_, ?_, ?_⟩, by rw [h.mem]⟩
    · rw [h.mem]; exact ha.bound
    · rw [h.pool]; exact ha.unpooled
    · rw [h.cells]; exact ha.unowned

omit [DecidableEq K] in
theorem indexed (hl : c'.sh.lfuList = c.sh.lfuList) (hc : c.Indexed policy) :
    c'.Indexed policy := by
  unfold Indexed at hc ⊢
  rw [hl, h.freqs]
  exact hc

end

end Quiet

namespace Core

section
variable (h : Core home c)
include h

theorem items_nodup : c.sh.items.Nodup := by
  obtain ⟨xs, hxs, hp⟩ := h.chain
  exact hp.nodup_iff.mp hxs.items_nodup

theorem head_notMem : c.sh.head ∉ c.sh.items := by
  obtain ⟨xs, hxs, hp⟩ := h.chain
  exact fun hm => hxs.head_notMem (hp.mem_iff.mpr hm)

theorem tail_notMem : c.sh.tail ∉ c.sh.items := by
  obtain ⟨xs, hxs, hp⟩ := h.chain
  exact fun hm => hxs.tail_notMem (hp.mem_iff.mpr hm)

theorem lookup_inj {k' : K} (hk : c.sh.data.lookup k = some a)
    (hk' : c.sh.data.lookup k' = some a) : k = k' :=
  Option.some.inj ((h.key k a hk).symm.trans (h.key k' a hk'))

theorem item_key (ha : a ∈ c.sh.items) :
    ∃ k, c.sh.data.lookup k = some a ∧ (c.body a).key = some k := by
  obtain ⟨k, hk⟩ := Shard.mem_items.mp ha
  exact ⟨k, hk, h.key k a hk⟩

theorem split (ha : a ∈ c.sh.items) :
    ∃ l₁ l₂, ListRep c.rt.mem c.sh.head c.sh.tail (l₁ ++ a :: l₂) ∧
      (l₁ ++ a :: l₂).Perm c.sh.items := by
  obtain ⟨xs, hxs, hp⟩ := h.chain
  obtain ⟨l₁, l₂, rfl⟩ := append_of_mem (hp.mem_iff.mpr ha)
  exact ⟨l₁, l₂, hxs, hp⟩

end

end Core

variable {xs : List Addr}

omit [DecidableEq K] in
/-- The cells between and including the sentinels are the cells of the shard. -/
theorem mem_chain_iff (hp : xs.Perm c.sh.items) :
    a ∈ c.sh.head :: (xs ++ [c.sh.tail]) ↔ a ∈ c.sh.cells := by
  simp only [Shard.cells, mem_cons, mem_append, not_mem_nil, or_false, hp.mem_iff]
  tauto

section Assign
variable {f : ItemBody K V → ItemBody K V}

omit [DecidableEq K] in
theorem body_assign : (c.assign a f).body = update c.body a (f (c.body a)) :=
  Store.body_assignBody c.rt.mem a f

theorem Core.assign (h : Core home c) (ha : a ∈ c.sh.items)
    (hf : (f (c.body a)).key = (c.body a).key) : Evolves home c (c.assign a f) where
  core :=
    { chain := by
        obtain ⟨xs, hxs, hp⟩ := h.chain
        exact ⟨xs, hxs.of_links (Store.next_assignBody ..) (Store.prev_assignBody ..), hp⟩
      key := by
        intro k' a' hk'
        rw [body_assign]
        by_cases he : a' = a
        · subst he
          rw [update_self, hf]
          exact h.key k' a' hk'
        · rw [update_of_ne he]
          exact h.key k' a' hk'
      home := h.home
      size := h.size
      bound := h.bound
      unpooled := h.unpooled
      poolNodup := h.poolNodup
      poolBound := h.poolBound
      unfaulted := h.unfaulted }
  foreign := by
    intro x hx
    have hne : x ≠ a := fun he => hx.unowned (he ▸ Shard.mem_cells_of_mem_items ha)
    exact ⟨⟨hx.bound, hx.unpooled, hx.unowned⟩, Store.cell_assignBody_of_ne _ _ _ hne⟩

omit [DecidableEq K] in
theorem freqs_assign (ha : a ∈ c.sh.items) :
    (c.assign a f).freqs = update c.freqs a (some (f (c.body a)).frequency) := by
  funext x
  by_cases he : x = a
  · subst he
    have : x ∈ (c.assign x f).sh.items := ha
    simp [freqs, this, body_assign]
  · have hitems : (c.assign a f).sh.items = c.sh.items := rfl
    simp [freqs, hitems, body_assign, he]

end Assign

/-- Links of cells of the shard may change as long as they still chain its items. -/
theorem Core.relink (h : Core home c) {g : Store (ItemBody K V) → Store (ItemBody K V)}
    (hrep : ListRep (g c.rt.mem) c.sh.head c.sh.tail xs) (hp : xs.Perm c.sh.items)
    (hrel : Store.Relinked c.sh.cells c.rt.mem (g c.rt.mem)) : Evolves home c (c.relink g) where
  core :=
    { chain := ⟨xs, hrep, hp⟩
      key := by
        intro k' a' hk'
        show ((g c.rt.mem).body a').key = some k'
        rw [hrel.body]
        exact h.key k' a' hk'
      home := h.home
      size := h.size
      bound := by
        intro x hx
        show x < (g c.rt.mem).brk
        rw [hrel.brk]
        exact h.bound x hx
      unpooled := h.unpooled
      poolNodup := h.poolNodup
      poolBound := by
        intro x hx
        show x < (g c.rt.mem).brk
        rw [hrel.brk]
        exact h.poolBound x hx
      unfaulted := hrel.faulted.trans h.unfaulted }
  foreign := by
    intro x hx
    refine ⟨⟨?_, hx.unpooled, hx.unowned⟩, hrel.frame x hx.unowned⟩
    show x < (g c.rt.mem).brk
    rw [hrel.brk]
    exact hx.bound

theorem Core.promote (h : Core home c) (ha : a ∈ c.sh.items) :
    Evolves home c (c.relink fun st => moveToLRUHead st c.sh.head a) ∧
      (c.relink fun st => moveToLRUHead st c.sh.head a).body = c.body := by
  obtain ⟨l₁, l₂, hrep, hp⟩ := h.split ha
  obtain ⟨hrep', hrel⟩ := moveToLRUHead_rep hrep
  refine ⟨h.relink hrep' (perm_middle.symm.trans hp) (hrel.mono ?_), ?_⟩
  · intro x hx
    exact (mem_chain_iff hp).mp hx
  · exact hrel.body

/-- The shard without an entry; its item is in the pool. -/
structure Discards (k : K) (a : Addr) (c c' : Locked K V) : Prop where
  mem : c'.rt.mem = removeFromLRU c.rt.mem a
  pool : c'.rt.pool = a :: c.rt.pool
  data : c'.sh.data = c.sh.data.erase k
  head : c'.sh.head = c.sh.head
  tail : c'.sh.tail = c.sh.tail
  size : c'.sh.size = c.sh.size - 1

namespace Discards

theorem quiet (h : Discards k a c c') (hq : Quiet c' c'') : Discards k a c c'' :=
  ⟨hq.mem.trans h.mem, hq.pool.trans h.pool, hq.data.trans h.data, hq.head.trans h.head,
    hq.tail.trans h.tail, hq.size.trans h.size⟩

theorem quiet_left (h : Discards k a c' c'') (hq : Quiet c c') : Discards k a c c'' := by
  refine ⟨?_, ?_, ?_, h.head.trans hq.head, h.tail.trans hq.tail, ?_⟩
  · rw [h.mem, hq.mem]
  · rw [h.pool, hq.pool]
  · rw [h.data, hq.data]
  · rw [h.size, hq.size]

theorem perm (h : Discards k a c c') (hk : c.sh.data.lookup k = some a) :
    c.sh.items.Perm (a :: c'.sh.items) := by
  unfold Shard.items
  rw [h.data]
  exact entries_erase_perm hk

variable (h : Discards k a c c') (hc : Core home c) (hk : c.sh.data.lookup k = some a)
include h hc hk

theorem mem_items_iff (x : Addr) : x ∈ c'.sh.items ↔ x ∈ c.sh.items ∧ x ≠ a := by
  have hp := h.perm hk
  have hnd := nodup_cons.mp (hp.nodup_iff.mp hc.items_nodup)
  rw [hp.mem_iff, mem_cons]
  constructor
  · exact fun hx => ⟨.inr hx, fun he => hnd.1 (he ▸ hx)⟩
  · rintro ⟨rfl | hx, hne⟩
    · exact absurd rfl hne
    · exact hx

theorem relinked : ∃ xs, ListRep c'.rt.mem c'.sh.head c'.sh.tail xs ∧ xs.Perm c'.sh.items ∧
    Store.Relinked c.sh.cells c.rt.mem c'.rt.mem := by
  obtain ⟨l₁, l₂, hrep, hp⟩ := hc.split (Shard.mem_items_of_lookup hk)
  obtain ⟨hrep', hrel⟩ := removeFromLRU_rep hrep
  refine ⟨l₁ ++ l₂, ?_, ?_, ?_⟩
  · rw [h.mem, h.head, h.tail]
    exact hrep'
  · have hcons : (a :: (l₁ ++ l₂)).Perm (a :: c'.sh.items) :=
      (perm_middle.symm.trans hp).trans (h.perm hk)
    exact perm_cons a |>.mp hcons
  · rw [h.mem]
    exact hrel.mono fun x hx => (mem_chain_iff hp).mp hx

theorem body : c'.body = c.body := by
  obtain ⟨-, -, -, hrel⟩ := h.relinked hc hk
  exact hrel.body

theorem entry : c'.entry = update c.entry k none := by
  funext k'
  rw [Locked.entry, h.data, h.body hc hk]
  by_cases he : k' = k
  · subst he
    simp
  · simp [Locked.entry, he]

theorem freqs : c'.freqs = update c.freqs a none := by
  funext x
  have hiff := h.mem_items_iff hc hk x
  by_cases he : x = a
  · subst he
    have : x ∉ c'.sh.items := fun hx => (hiff.mp hx).2 rfl
    simp [Locked.freqs, this]
  · have : x ∈ c'.sh.items ↔ x ∈ c.sh.items := by rw [hiff]; exact and_iff_left he
    simp [Locked.freqs, this, he, h.body hc hk]

theorem cells_subset (x : Addr) (hx : x ∈ c'.sh.cells) : x ∈ c.sh.cells ∧ x ≠ a := by
  have hitem := Shard.mem_items_of_lookup hk
  simp only [Shard.cells, h.head, h.tail, mem_cons, h.mem_items_iff hc hk x] at hx ⊢
  rcases hx with rfl | rfl | hx
  · exact ⟨.inl rfl, fun he => hc.head_notMem (he ▸ hitem)⟩
  · exact ⟨.inr (.inl rfl), fun he => hc.tail_notMem (he ▸ hitem)⟩
  · exact ⟨.inr (.inr hx.1), hx.2⟩

theorem evolves : Evolves home c c' := by
  obtain ⟨xs, hrep, hp, hrel⟩ := h.relinked hc hk
  have hcell := Shard.mem_cells_of_mem_items (Shard.mem_items_of_lookup hk)
  have hlookup : ∀ k' a', c'.sh.data.lookup k' = some a' → c.sh.data.lookup k' = some a' := by
    intro k' a' hk'
    rw [h.data] at hk'
    by_cases he : k' = k
    · subst he
      simp at hk'
    · rwa [AList.lookup_erase_ne he] at hk'
  refine ⟨⟨⟨xs, hrep, hp⟩, ?_, ?_, ?_, ?_, ?_, ?_, ?_, ?_⟩, ?_⟩
  · intro k' a' hk'
    rw [h.body hc hk]
    exact hc.key k' a' (hlookup k' a' hk')
  · exact fun k' a' hk' => hc.home k' a' (hlookup k' a' hk')
  · have hlen := (h.perm hk).length_eq
    rw [length_cons] at hlen
    rw [h.size, hc.size, hlen]
    omega
  · intro x hx
    rw [hrel.brk]
    exact hc.bound x (h.cells_subset hc hk x hx).1
  · intro x hx
    obtain ⟨hx', hne⟩ := h.cells_subset hc hk x hx
    rw [h.pool, mem_cons]
    exact fun hm => hm.elim hne (hc.unpooled x hx')
  · rw [h.pool]
    exact nodup_cons.mpr ⟨hc.unpooled a hcell, hc.poolNodup⟩
  · intro x hx
    rw [h.pool, mem_cons] at hx
    rw [hrel.brk]
    rcases hx with rfl | hx
    · exact hc.bound x hcell
    · exact hc.poolBound x hx
  · exact hrel.faulted.trans hc.unfaulted
  · intro x hx
    have hne : x ≠ a := fun he => hx.unowned (he ▸ hcell)
    refine ⟨⟨?_, ?_, ?_⟩, hrel.frame x hx.unowned⟩
    · rw [hrel.brk]; exact hx.bound
    · rw [h.pool, mem_cons]
      exact fun hm => hm.elim hne hx.unpooled
    · exact fun hm => hx.unowned (h.cells_subset hc hk x hm).1

end Discards

section Insert
variable {f : ItemBody K V → ItemBody K V} [Inhabited V]

/-- Take an item from the pool, fill it in and link it under a key. -/
def insertItem (key : K) (f : ItemBody K V → ItemBody K V) (c : Locked K V) : Locked K V :=
  ((c.takeItem.2.assign c.takeItem.1 f).link key c.takeItem.1).grow

theorem Core.taken (h : Core home c) : Runtime.Taken c.rt c.takeItem.2.rt c.takeItem.1 :=
  Runtime.poolGet_taken h.poolNodup h.poolBound

theorem Core.taken_notMem (h : Core home c) : c.takeItem.1 ∉ c.sh.cells := by
  intro hm
  rcases h.taken.source with hp | hb
  · exact h.unpooled _ hm hp
  · exact Nat.lt_irrefl _ (hb ▸ h.bound _ hm)

theorem items_insertItem (hk : c.sh.data.lookup k = none) :
    (c.insertItem k f).sh.items = c.takeItem.1 :: c.sh.items := by
  have hmem : k ∉ c.sh.data := AList.lookup_eq_none.mp hk
  show (AList.insert k c.takeItem.1 c.sh.data).entries.map Sigma.snd = _
  rw [AList.entries_insert_of_notMem hmem]
  rfl

theorem lookup_insertItem (k' : K) : (c.insertItem k f).sh.data.lookup k' =
    if k' = k then some c.takeItem.1 else c.sh.data.lookup k' := by
  show (AList.insert k c.takeItem.1 c.sh.data).lookup k' = _
  split_ifs with he
  · subst he
    exact AList.lookup_insert _
  · exact AList.lookup_insert_ne he

theorem mem_cells_insertItem (hk : c.sh.data.lookup k = none) (x : Addr) :
    x ∈ (c.insertItem k f).sh.cells ↔ x = c.takeItem.1 ∨ x ∈ c.sh.cells := by
  unfold Shard.cells
  rw [items_insertItem hk]
  show x ∈ c.sh.head :: c.sh.tail :: c.takeItem.1 :: c.sh.items ↔ _
  simp only [mem_cons]
  tauto

variable (h : Core home c) (hk : c.sh.data.lookup k = none)
include h hk

omit hk in
/-- The new item comes first. -/
theorem Core.insertItem_cons (hrep : ListRep c.rt.mem c.sh.head c.sh.tail xs)
    (hp : xs.Perm c.sh.items) :
    ListRep (c.insertItem k f).rt.mem c.sh.head c.sh.tail (c.takeItem.1 :: xs) ∧
      Store.Relinked (c.takeItem.1 :: c.sh.cells)
        (c.takeItem.2.rt.mem.assignBody c.takeItem.1 f) (c.insertItem k f).rt.mem := by
  have hout : c.takeItem.1 ∉ c.sh.head :: (xs ++ [c.sh.tail]) :=
    fun hm => h.taken_notMem ((mem_chain_iff hp).mp hm)
  have hkeep : ListRep (c.takeItem.2.rt.mem.assignBody c.takeItem.1 f) c.sh.head c.sh.tail xs := by
    refine hrep.congr fun x hx => ?_
    have hne : x ≠ c.takeItem.1 := fun he => hout (he ▸ hx)
    rw [Store.cell_assignBody_of_ne _ _ _ hne]
    exact h.taken.cell x hne
  obtain ⟨hrep', hrel⟩ := addToLRUHead_rep hkeep hout
  refine ⟨hrep', hrel.mono ?_⟩
  intro x hx
  rcases mem_cons.mp hx with rfl | hx
  · exact mem_cons_self
  · exact mem_cons_of_mem _ ((mem_chain_iff hp).mp hx)

theorem Core.insertItem_rep : ∃ xs,
    ListRep (c.insertItem k f).rt.mem c.sh.head c.sh.tail xs ∧
      xs.Perm (c.insertItem k f).sh.items ∧
      Store.Relinked (c.takeItem.1 :: c.sh.cells)
        (c.takeItem.2.rt.mem.assignBody c.takeItem.1 f) (c.insertItem k f).rt.mem := by
  obtain ⟨xs, hrep, hp⟩ := h.chain
  obtain ⟨hrep', hrel⟩ := h.insertItem_cons (k := k) (f := f) hrep hp
  refine ⟨c.takeItem.1 :: xs, hrep', ?_, hrel⟩
  rw [items_insertItem hk]
  exact List.Perm.cons _ hp

theorem Core.body_insertItem (x : Addr) : (c.insertItem k f).body x =
    if x = c.takeItem.1 then f (c.takeItem.2.body x) else c.body x := by
  obtain ⟨-, -, -, hrel⟩ := h.insertItem_rep (f := f) hk
  have hbody : (c.insertItem k f).body x =
      (c.takeItem.2.rt.mem.assignBody c.takeItem.1 f).body x := congrFun hrel.body x
  rw [hbody, Store.body_assignBody]
  split_ifs with he
  · subst he
    rw [update_self]
    rfl
  · rw [update_of_ne he]
    show (c.takeItem.2.rt.mem.cell x).body = (c.rt.mem.cell x).body
    rw [h.taken.cell x he]

theorem Core.insertItem (hhome : home k) (hf : ∀ b, (f b).key = some k) :
    Evolves home c (c.insertItem k f) := by
  obtain ⟨xs, hrep, hp, hrel⟩ := h.insertItem_rep (f := f) hk
  have ht := h.taken
  have hbrk : (c.insertItem k f).rt.mem.brk = c.takeItem.2.rt.mem.brk := hrel.brk
  have hpool : (c.insertItem k f).rt.pool = c.takeItem.2.rt.pool := rfl
  have hne : ∀ x ∈ c.sh.cells, x ≠ c.takeItem.1 := fun x hx he => h.taken_notMem (he ▸ hx)
  refine ⟨⟨⟨xs, hrep, hp⟩, ?_, ?_, ?_, ?_, ?_, ?_, ?_, ?_⟩, ?_⟩
  · intro k' a' hk'
    rw [h.body_insertItem hk]
    rw [lookup_insertItem] at hk'
    split_ifs at hk' with he
    · rw [if_pos (Option.some.inj hk').symm, he]
      exact hf _
    · have hitem := Shard.mem_cells_of_mem_items (Shard.mem_items_of_lookup hk')
      rw [if_neg (hne a' hitem)]
      exact h.key k' a' hk'
  · intro k' a' hk'
    rw [lookup_insertItem] at hk'
    split_ifs at hk' with he
    · exact he ▸ hhome
    · exact h.home k' a' hk'
  · rw [items_insertItem hk, length_cons]
    show c.sh.size + 1 = _
    rw [h.size]
    omega
  · intro x hx
    rw [hbrk]
    rcases (mem_cells_insertItem hk x).mp hx with rfl | hx
    · exact ht.bound
    · exact Nat.lt_of_lt_of_le (h.bound x hx) ht.brk
  · intro x hx
    rw [hpool, ht.pool]
    rcases (mem_cells_insertItem hk x).mp hx with rfl | hx
    · exact fun hm => hm.2 rfl
    · exact fun hm => h.unpooled x hx hm.1
  · exact ht.nodup
  · intro x hx
    rw [hpool, ht.pool] at hx
    rw [hbrk]
    exact Nat.lt_of_lt_of_le (h.poolBound x hx.1) ht.brk
  · exact (hrel.faulted.trans ht.faulted).trans h.unfaulted
  · intro x hx
    have hxne : x ≠ c.takeItem.1 := by
      rintro rfl
      rcases ht.source with hp | hb
      · exact hx.unpooled hp
      · exact Nat.lt_irrefl _ (hb ▸ hx.bound)
    have hxc : x ∉ c.takeItem.1 :: c.sh.cells := by
      rw [mem_cons]
      exact fun hm => hm.elim hxne hx.unowned
    refine ⟨⟨?_, ?_, ?_⟩, ?_⟩
    · rw [hbrk]
      exact Nat.lt_of_lt_of_le hx.bound ht.brk
    · rw [hpool, ht.pool]
      exact fun hm => hx.unpooled hm.1
    · rw [mem_cells_insertItem hk]
      exact fun hm => hm.elim hxne hx.unowned
    · rw [hrel.frame x hxc, Store.cell_assignBody_of_ne _ _ _ hxne]
      exact ht.cell x hxne

theorem Core.freqs_insertItem : (c.insertItem k f).freqs = update c.freqs c.takeItem.1
    (some (f (c.takeItem.2.body c.takeItem.1)).frequency) := by
  funext x
  rw [Locked.freqs, items_insertItem hk, h.body_insertItem hk]
  by_cases he : x = c.takeItem.1
  · subst he
    simp
  · simp [he, Locked.freqs]

omit hk in
theorem Core.freqs_taken : c.freqs c.takeItem.1 = none := by
  have : c.takeItem.1 ∉ c.sh.items := fun hm => h.taken_notMem (Shard.mem_cells_of_mem_items hm)
  simp [Locked.freqs, this]

end Insert

end Locked

end Kioshun
