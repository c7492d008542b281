import Kioshun.Cache.RemovalSpec

/-!
# The order of a shard and the counts of its entries

What an evictor goes by: the keys of the recency list from head to tail, and the
frequency of the item of each key. Every critical section is described by what it
does to these two. The list holds exactly the stored keys; a write puts its key
first, a read does so under LRU only, and everything else only takes keys out.
-/

namespace Kioshun

open CellStore Function List

universe u v
variable {K : Type u} {V : Type v}

/-- The cells that follow `a`, up to the tail sentinel and at most `n` of them. -/
def walk (next : Addr → Option Addr) (tail : Addr) : Nat → Addr → List Addr
  | 0, _ => []
  | n + 1, a =>
    match next a with
    | none => []
    | some b => if b = tail then [] else b :: walk next tail n b

theorem walk_of_path {next prev : Addr → Option Addr} {tail a : Addr} {l xs : List Addr} {n : Nat}
    (h : LinkedList.Path next prev (l ++ a :: (xs ++ [tail]))) (hx : tail ∉ xs)
    (hn : xs.length ≤ n) : walk next tail n a = xs := by
  induction xs generalizing l a n with
  | nil =>
    have hnext : next a = some tail := h.next
    cases n with
    | zero => rfl
    | succ n => simp [walk, hnext]
  | cons b xs ih =>
    have hnext : next a = some b := h.next
    have hne : b ≠ tail := fun he => hx (he ▸ mem_cons_self)
    have hrest : LinkedList.Path next prev ((l ++ [a]) ++ b :: (xs ++ [tail])) := by
      rw [append_assoc]
      exact h
    cases n with
    | zero => simp at hn
    | succ n =>
      simp only [walk, hnext, if_neg hne, List.cons.injEq, true_and]
      exact ih hrest (fun hm => hx (mem_cons_of_mem _ hm)) (Nat.le_of_succ_le_succ hn)

namespace Locked

def keysOf (c : Locked K V) (xs : List Addr) : List K := xs.filterMap fun a => (c.body a).key

def order (c : Locked K V) : List K :=
  c.keysOf (walk c.rt.mem.next c.sh.tail (c.sh.data.entries.length + 1) c.sh.head)

variable [DecidableEq K]

def count (c : Locked K V) (k : K) : Option Int := (c.entry k).map ItemBody.frequency

variable {policy : EvictionPolicy} {home : K → Prop} {c c' c'' : Locked K V} {k : K} {a : Addr}
variable {xs : List Addr}

section
omit [DecidableEq K]

theorem keysOf_cons (hk : (c.body a).key = some k) : c.keysOf (a :: xs) = k :: c.keysOf xs := by
  simp [keysOf, hk]

theorem keysOf_append {xs ys : List Addr} : c.keysOf (xs ++ ys) = c.keysOf xs ++ c.keysOf ys :=
  filterMap_append

theorem order_of_rep (hrep : ListRep c.rt.mem c.sh.head c.sh.tail xs) (hp : xs.Perm c.sh.items) :
    c.order = c.keysOf xs := by
  have hlen : xs.length = c.sh.data.entries.length := by
    rw [hp.length_eq]
    exact length_map _
  rw [order, walk_of_path (l := []) hrep.path hrep.tail_notMem (by omega)]

end

section
variable (h : Core home c)
include h

theorem Core.mem_keysOf (hsub : xs ⊆ c.sh.items) :
    k ∈ c.keysOf xs ↔ ∃ a ∈ xs, c.sh.data.lookup k = some a := by
  rw [keysOf, mem_filterMap]
  constructor
  · rintro ⟨a, ha, hkey⟩
    obtain ⟨k', hk', hkey'⟩ := h.item_key (hsub ha)
    rw [hkey] at hkey'
    exact ⟨a, ha, Option.some.inj hkey' ▸ hk'⟩
  · rintro ⟨a, ha, hk⟩
    exact ⟨a, ha, h.key k a hk⟩

theorem Core.mem_order : k ∈ c.order ↔ ∃ a, c.sh.data.lookup k = some a := by
  obtain ⟨xs, hrep, hp⟩ := h.chain
  rw [order_of_rep hrep hp, h.mem_keysOf hp.subset]
  constructor
  · rintro ⟨a, -, hk⟩
    exact ⟨a, hk⟩
  · rintro ⟨a, hk⟩
    exact ⟨a, hp.mem_iff.mpr (Shard.mem_items_of_lookup hk), hk⟩

theorem Core.nodup_order : c.order.Nodup := by
  obtain ⟨xs, hrep, hp⟩ := h.chain
  rw [order_of_rep hrep hp, keysOf]
  apply pairwise_filterMap.mpr
  refine hrep.items_nodup.imp_of_mem ?_
  intro a b ha hb hne k hk k' hk' he
  -- items with the same key are the item the map has for it
  subst he
  obtain ⟨k₁, hk₁, hkey₁⟩ := h.item_key (hp.mem_iff.mp ha)
  obtain ⟨k₂, hk₂, hkey₂⟩ := h.item_key (hp.mem_iff.mp hb)
  rw [hk] at hkey₁
  rw [hk'] at hkey₂
  rw [← Option.some.inj hkey₁] at hk₁
  rw [← Option.some.inj hkey₂, hk₁] at hk₂
  exact hne (Option.some.inj hk₂)

/-- The recency list holds exactly the stored keys. -/
theorem Core.order_perm : c.order.Perm c.sh.data.keys := by
  apply (perm_ext_iff_of_nodup h.nodup_order (AList.keys_nodup _)).mpr
  intro k
  rw [h.mem_order, ← AList.mem_keys, ← AList.lookup_isSome, Option.isSome_iff_exists]

theorem Core.length_order : (c.order.length : Int) = c.sh.size := by
  have hkeys : c.sh.data.keys.length = c.sh.items.length := by
    rw [Shard.items, AList.keys, List.keys, length_map, length_map]
  rw [h.order_perm.length_eq, hkeys, h.size]

/-- Order and counts are kept in the cells of the shard. -/
theorem Core.order_frame {rt : Runtime K V}
    (keep : ∀ a ∈ c.sh.cells, rt.mem.cell a = c.rt.mem.cell a) :
    (⟨rt, c.sh⟩ : Locked K V).order = c.order ∧ (⟨rt, c.sh⟩ : Locked K V).count = c.count := by
  have hbody : ∀ a ∈ c.sh.items, (⟨rt, c.sh⟩ : Locked K V).body a = c.body a := by
    intro a ha
    simp only [body, Store.body, keep a (Shard.mem_cells_of_mem_items ha)]
  constructor
  · obtain ⟨xs, hrep, hp⟩ := h.chain
    have hrep' : ListRep rt.mem c.sh.head c.sh.tail xs :=
      hrep.congr fun a ha => keep a ((mem_chain_iff hp).mp ha)
    rw [order_of_rep (c := ⟨rt, c.sh⟩) hrep' hp, order_of_rep hrep hp]
    apply filterMap_congr
    intro a ha
    rw [hbody a (hp.subset ha)]
  · funext k
    cases hk : c.sh.data.lookup k with
    | none => simp [count, entry, hk]
    | some a => simp [count, entry, hk, hbody a (Shard.mem_items_of_lookup hk)]

end

omit [DecidableEq K] in
/-- The order is read off the links and the keys of the items. -/
theorem order_congr (hn : c'.rt.mem.next = c.rt.mem.next) (hd : c'.sh.data = c.sh.data)
    (hh : c'.sh.head = c.sh.head) (ht : c'.sh.tail = c.sh.tail)
    (hk : ∀ a, (c'.body a).key = (c.body a).key) : c'.order = c.order := by
  simp only [order, keysOf, hn, hd, hh, ht, hk]

theorem count_congr (h : c'.entry = c.entry) : c'.count = c.count := by
  funext k
  simp only [count, h]

theorem count_of_lookup (hk : c.sh.data.lookup k = some a) :
    c.count k = some (c.body a).frequency := by
  simp [count, entry, hk]

theorem count_eq_none : c.count k = none ↔ c.sh.data.lookup k = none := by
  simp [count, entry]

theorem count_update {b : Option (ItemBody K V)} (h : c'.entry = update c.entry k b) :
    c'.count = update c.count k (b.map ItemBody.frequency) := by
  funext k'
  by_cases he : k' = k
  · subst he
    simp [count, h]
  · simp [count, h, he]

omit [DecidableEq K] in
theorem Quiet.order (h : Quiet c c') : c'.order = c.order :=
  order_congr (by rw [h.mem]) h.data h.head h.tail fun a => by rw [h.body]

theorem Quiet.count (h : Quiet c c') : c'.count = c.count := count_congr h.entry

omit [DecidableEq K] in
theorem order_onLfuList (f : LfuList → LfuList) : (c.onLfuList f).order = c.order := by
  unfold onLfuList
  cases c.sh.lfuList <;> rfl

theorem count_onLfuList (f : LfuList → LfuList) : (c.onLfuList f).count = c.count := by
  unfold onLfuList
  cases c.sh.lfuList <;> rfl

section Assign
variable {f : ItemBody K V → ItemBody K V}

omit [DecidableEq K] in
theorem order_assign (hf : (f (c.body a)).key = (c.body a).key) :
    (c.assign a f).order = c.order := by
  refine order_congr (Store.next_assignBody ..) rfl rfl rfl fun x => ?_
  rw [body_assign]
  by_cases hx : x = a
  · subst hx
    rw [update_self, hf]
  · rw [update_of_ne hx]

/-- Assigning to the item of a key changes the entry of no other key. -/
theorem Core.entry_assign (h : Core home c) (hk : c.sh.data.lookup k = some a) :
    (c.assign a f).entry = update c.entry k (some (f (c.body a))) := by
  funext k'
  have hdata : (c.assign a f).sh.data = c.sh.data := rfl
  rw [entry, hdata, body_assign]
  by_cases he : k' = k
  · subst he
    simp [hk]
  · rw [update_of_ne he, entry]
    cases hk' : c.sh.data.lookup k' with
    | none => rfl
    | some x =>
      have hx : x ≠ a := fun hxa => he (h.lookup_inj hk' (hxa ▸ hk))
      simp [hx]

theorem Core.count_assign (h : Core home c) (hk : c.sh.data.lookup k = some a) :
    (c.assign a f).count = update c.count k (some (f (c.body a)).frequency) :=
  count_update (h.entry_assign hk)

theorem Core.count_assign_same (h : Core home c) (hk : c.sh.data.lookup k = some a)
    (hf : (f (c.body a)).frequency = (c.body a).frequency) : (c.assign a f).count = c.count := by
  rw [h.count_assign hk, hf]
  exact update_eq_self_iff.mpr (count_of_lookup hk).symm

end Assign

/-- An item in the middle of the list is found there by its key. -/
theorem Core.erase_order (h : Core home c) {l₁ l₂ : List Addr} (hk : c.sh.data.lookup k = some a)
    (hrep : ListRep c.rt.mem c.sh.head c.sh.tail (l₁ ++ a :: l₂))
    (hp : (l₁ ++ a :: l₂).Perm c.sh.items) : c.order.erase k = c.keysOf (l₁ ++ l₂) := by
  have hout : k ∉ c.keysOf l₁ := by
    intro hm
    obtain ⟨x, hx, hkx⟩ := (h.mem_keysOf fun x hx => hp.subset (by simp [hx])).mp hm
    have hxa : x = a := Option.some.inj (hkx.symm.trans hk)
    subst hxa
    have hnd := nodup_append.mp hrep.items_nodup
    exact hnd.2.2 x hx x mem_cons_self rfl
  rw [order_of_rep hrep hp, keysOf_append, keysOf_cons (h.key k a hk),
    erase_append_right _ hout, erase_cons_head, keysOf_append]

theorem Core.order_promote (h : Core home c) (hk : c.sh.data.lookup k = some a) :
    (c.relink fun st => moveToLRUHead st c.sh.head a).order = k :: c.order.erase k := by
  obtain ⟨l₁, l₂, hrep, hp⟩ := h.split (Shard.mem_items_of_lookup hk)
  obtain ⟨hrep', hrel⟩ := moveToLRUHead_rep hrep
  have hbody : (c.relink fun st => moveToLRUHead st c.sh.head a).body = c.body := hrel.body
  have horder : (c.relink fun st => moveToLRUHead st c.sh.head a).order =
      (c.relink fun st => moveToLRUHead st c.sh.head a).keysOf (a :: (l₁ ++ l₂)) :=
    order_of_rep hrep' (perm_middle.symm.trans hp)
  rw [horder, keysOf, hbody, h.erase_order hk hrep hp]
  exact keysOf_cons (h.key k a hk)

theorem Discards.order (h : Discards k a c c') (hc : Core home c)
    (hk : c.sh.data.lookup k = some a) : c'.order = c.order.erase k := by
  obtain ⟨l₁, l₂, hrep, hp⟩ := hc.split (Shard.mem_items_of_lookup hk)
  obtain ⟨hrep', -⟩ := removeFromLRU_rep hrep
  have hcons : (a :: (l₁ ++ l₂)).Perm (a :: c'.sh.items) :=
    (perm_middle.symm.trans hp).trans (h.perm hk)
  rw [hc.erase_order hk hrep hp, keysOf, ← h.body hc hk]
  refine order_of_rep ?_ ((perm_cons a).mp hcons)
  rw [h.mem, h.head, h.tail]
  exact hrep'

theorem Discards.count (h : Discards k a c c') (hc : Core home c)
    (hk : c.sh.data.lookup k = some a) : c'.count = update c.count k none :=
  count_update (h.entry hc hk)

section Insert
variable {f : ItemBody K V → ItemBody K V} [Inhabited V]

theorem Core.order_insertItem (h : Core home c) (hk : c.sh.data.lookup k = none)
    (hf : ∀ b, (f b).key = some k) : (c.insertItem k f).order = k :: c.order := by
  obtain ⟨xs, hrep, hp⟩ := h.chain
  obtain ⟨hrep', -⟩ := h.insertItem_cons (k := k) (f := f) hrep hp
  have hp' : (c.takeItem.1 :: xs).Perm (c.insertItem k f).sh.items := by
    rw [items_insertItem hk]
    exact hp.cons _
  have hnew : ((c.insertItem k f).body c.takeItem.1).key = some k := by
    rw [h.body_insertItem hk, if_pos rfl]
    exact hf _
  rw [order_of_rep (c := c.insertItem k f) hrep' hp', order_of_rep hrep hp, keysOf_cons hnew]
  congr 1
  apply filterMap_congr
  intro x hx
  have hne : x ≠ c.takeItem.1 := fun he =>
    h.taken_notMem (Shard.mem_cells_of_mem_items (he ▸ hp.subset hx))
  rw [h.body_insertItem hk, if_neg hne]

theorem Core.entry_insertItem (h : Core home c) (hk : c.sh.data.lookup k = none) :
    (c.insertItem k f).entry = update c.entry k (some (f (c.takeItem.2.body c.takeItem.1))) := by
  funext k'
  rw [entry, lookup_insertItem]
  by_cases he : k' = k
  · subst he
    simp [h.body_insertItem hk]
  · rw [if_neg he, update_of_ne he, entry]
    cases hk' : c.sh.data.lookup k' with
    | none => rfl
    | some x =>
      have hne : x ≠ c.takeItem.1 := fun hx => h.taken_notMem
        (Shard.mem_cells_of_mem_items (hx ▸ Shard.mem_items_of_lookup hk'))
      simp [h.body_insertItem hk, hne]

theorem Core.count_insertItem (h : Core home c) (hk : c.sh.data.lookup k = none) :
    (c.insertItem k f).count =
      update c.count k (some (f (c.takeItem.2.body c.takeItem.1)).frequency) :=
  count_update (h.entry_insertItem hk)

end Insert

structure Thins (policy : EvictionPolicy) (c c' : Locked K V) : Prop where
  order : c'.order.Sublist c.order
  count : policy = .LFU → ∀ k, c'.count k = c.count k ∨ c'.count k = none

theorem Thins.trans (h : Thins policy c c') (h' : Thins policy c' c'') : Thins policy c c'' where
  order := h'.order.trans h.order
  count := by
    intro hp k
    rcases h'.count hp k with he | hn
    · rw [he]
      exact h.count hp k
    · exact .inr hn

theorem thins_of_same (ho : c'.order = c.order) (hn : c'.count = c.count) : Thins policy c c' :=
  ⟨by rw [ho], fun _ k => .inl (by rw [hn])⟩

theorem thins_of_erase (ho : c'.order = c.order.erase k)
    (hn : c'.count = update c.count k none) : Thins policy c c' where
  order := by
    rw [ho]
    exact erase_sublist
  count := by
    intro _ k'
    rw [hn]
    by_cases he : k' = k
    · subst he
      exact .inr (update_self ..)
    · exact .inl (update_of_ne he _ _)

def Drops (k : K) (c c' : Locked K V) : Prop :=
  (c'.order = c.order ∧ c'.count = c.count) ∨
    (c'.order = c.order.erase k ∧ c'.count = update c.count k none)

theorem Drops.refl (k : K) (c : Locked K V) : Drops k c c := .inl ⟨rfl, rfl⟩

theorem Quiet.drops (h : Quiet c c') (k : K) : Drops k c c' := .inl ⟨h.order, h.count⟩

theorem Discards.drops (h : Discards k a c c') (hc : Core home c)
    (hk : c.sh.data.lookup k = some a) : Drops k c c' :=
  .inr ⟨h.order hc hk, h.count hc hk⟩

theorem Drops.thins (h : Drops k c c') (policy : EvictionPolicy) : Thins policy c c' := by
  rcases h with ⟨ho, hn⟩ | ⟨ho, hn⟩
  · exact thins_of_same ho hn
  · exact thins_of_erase ho hn

omit [DecidableEq K] in
theorem order_lfuAdd (a : Addr) : (c.lfuAdd a).order = c.order :=
  (order_onLfuList _).trans (order_assign rfl)

theorem Core.count_lfuAdd (h : Core home c) (hk : c.sh.data.lookup k = some a) :
    (c.lfuAdd a).count = update c.count k (some 1) :=
  (count_onLfuList _).trans (h.count_assign hk)

omit [DecidableEq K] in
theorem order_lfuIncrement (a : Addr) : (c.lfuIncrement a).order = c.order := by
  unfold lfuIncrement
  cases c.sh.lfuList with
  | none => rfl
  | some l => exact order_assign rfl

theorem Core.count_lfuIncrement {l : LfuList} {f : Addr → Option Int} {g : Int} (h : Core home c)
    (hk : c.sh.data.lookup k = some a) (hl : c.sh.lfuList = some l) (ht : l.Tracks f)
    (hg : f a = some g) : (c.lfuIncrement a).count = update c.count k (some (g + 1)) := by
  have hq : Quiet c { c with sh := { c.sh with lfuList := some (l.increment a).1 } } :=
    ⟨rfl, rfl, rfl, rfl, rfl, rfl⟩
  have hcount := (hq.core h).count_assign (a := a) (k := k)
    (f := fun b => { b with frequency := (l.increment a).2 }) hk
  simp only [lfuIncrement, hl]
  rw [hcount, hq.count, (LfuList.increment_tracks ht hg).2]

/-- The order after an entry that is present has been read or overwritten. -/
def promoted (policy : EvictionPolicy) (k : K) (l : List K) : List K :=
  if policy = .LRU then k :: l.erase k else l

theorem Core.order_touch (h : Core home c) (hk : c.sh.data.lookup k = some a)
    (policy : EvictionPolicy) (now : Int) :
    (c.touch policy a now).order = promoted policy k c.order := by
  cases policy with
  | LRU => exact h.order_promote hk
  | LFU => exact (order_lfuIncrement a).trans (order_assign rfl)
  | FIFO => rfl
  | AdmissionLFU => exact order_assign rfl
  | other => rfl

theorem Valid.count_touch (h : Valid .LFU home c) (hk : c.sh.data.lookup k = some a) (now : Int) :
    (c.touch .LFU a now).count = update c.count k (some ((c.body a).frequency + 1)) := by
  obtain ⟨l, hl, ht⟩ := h.indexed.lfu
  have ha := Shard.mem_items_of_lookup hk
  have hassign : Keeps home c
      (c.assign a fun b => { b with lastAccess := now, frequency := b.frequency + 1 }) :=
    Keeps.assign h.core ha (fun _ => rfl) (fun _ => rfl) fun _ => rfl
  have hinc := hassign.evolves.core.count_lfuIncrement (hassign.lookup hk) hl ht (freqs_of_mem ha)
  rw [touch, hinc, h.core.count_assign hk, update_idem]

theorem Core.order_refresh (h : Core home c) (hk : c.sh.data.lookup k = some a)
    (policy : EvictionPolicy) : (c.refresh policy a).order = promoted policy k c.order := by
  cases policy with
  | LRU => exact h.order_promote hk
  | LFU => exact (order_lfuAdd a).trans (order_assign rfl)
  | FIFO => rfl
  | AdmissionLFU => exact order_assign rfl
  | other => rfl

theorem Core.count_refresh (h : Core home c) (hk : c.sh.data.lookup k = some a) :
    (c.refresh .LFU a).count = update c.count k (some 1) := by
  have hassign : Keeps home c (c.assign a fun b => { b with frequency := 1 }) :=
    Keeps.assign h (Shard.mem_items_of_lookup hk) (fun _ => rfl) (fun _ => rfl) fun _ => rfl
  rw [refresh, hassign.evolves.core.count_lfuAdd (hassign.lookup hk), h.count_assign hk,
    update_idem]

/-- What a critical section of `get` does to order and counts. -/
inductive Reads (policy : EvictionPolicy) (k : K) (c : Locked K V) :
    GetOutcome × Locked K V → Prop where
  | miss {r : GetOutcome × Locked K V} (fails : ∀ a now, r.1 ≠ .hit a now)
      (drops : Drops k c r.2) : Reads policy k c r
  | hit {r : GetOutcome × Locked K V} {a : Addr} {now : Int} (succeeds : r.1 = .hit a now)
      (stored : k ∈ c.order) (order : r.2.order = promoted policy k c.order)
      (count : policy = .LFU → ∃ n, c.count k = some n ∧
        r.2.count = update c.count k (some (n + 1))) : Reads policy k c r

theorem getSection_reads {cfg : Config} (h : Valid cfg.evictionPolicy home c) (lockedWrite : Bool)
    (k : K) : Reads cfg.evictionPolicy k c (c.getSection cfg lockedWrite k) := by
  unfold getSection
  cases hk : c.sh.data.lookup k with
  | none =>
    exact .miss (by simp) ((countMiss_quiet cfg.statsEnabled).drops k)
  | some a =>
    have hq : Quiet c { c with rt := c.rt.now.2 } := ⟨rfl, rfl, rfl, rfl, rfl, rfl⟩
    have hv : Valid cfg.evictionPolicy home { c with rt := c.rt.now.2 } := (hq.step rfl h).valid
    have hk₁ : ({ c with rt := c.rt.now.2 } : Locked K V).sh.data.lookup k = some a := hk
    have hbody : ({ c with rt := c.rt.now.2 } : Locked K V).body a = c.body a := rfl
    simp only [hbody]
    generalize ({ c with rt := c.rt.now.2 } : Locked K V) = c₁ at hq hv hk₁
    cases hexp : (c.body a).expired c.rt.now.1 with
    | false =>
      have hhit := countHit_quiet (c := c₁.touch cfg.evictionPolicy a c.rt.now.1) cfg.statsEnabled
      refine .hit (a := a) rfl (h.core.mem_order.mpr ⟨a, hk⟩) ?_ fun hp => ?_
      · rw [← hq.order]
        exact hhit.order.trans (hv.core.order_touch hk₁ _ _)
      · rw [hp] at hv hhit ⊢
        refine ⟨(c.body a).frequency, count_of_lookup hk, hhit.count.trans ?_⟩
        rw [hv.count_touch hk₁, hq.count, hq.body]
    | true =>
      cases lockedWrite with
      | false => exact .miss (by simp) (hq.drops k)
      | true =>
        obtain ⟨hd, -⟩ := discard_spec hv hk₁
        have he := countExpiration_quiet (c := c₁.discard cfg.evictionPolicy k a) cfg.statsEnabled
        have hm := countMiss_quiet (c := (c₁.discard cfg.evictionPolicy k a).countExpiration
          cfg.statsEnabled) cfg.statsEnabled
        exact .miss (by simp) (((hd.quiet_left hq).quiet (he.trans hm)).drops h.core hk)

/-- Which entry an evictor takes: the one at the tail under LRU and FIFO, one of the least count
under LFU. The other evictors pick from a sample. -/
def Victim (policy : EvictionPolicy) (c : Locked K V) (v : K) : Prop :=
  match policy with
  | .LRU | .FIFO => ∃ rest, c.order = rest ++ [v]
  | .LFU => ∃ m, c.count v = some m ∧ ∀ k n, c.count k = some n → m ≤ n
  | .AdmissionLFU | .other => True

theorem Core.order_oldest (h : Core home c) (ho : c.oldest = some (k, a)) :
    ∃ rest, c.order = rest ++ [k] := by
  obtain ⟨xs, hrep, hp⟩ := h.chain
  have hpath := hrep.path
  rcases eq_nil_or_concat xs with rfl | ⟨l, b, rfl⟩
  · have hprev : c.rt.mem.prev c.sh.tail = some c.sh.head :=
      (show LinkedList.Path c.rt.mem.next c.rt.mem.prev ([] ++ c.sh.head :: c.sh.tail :: []) from
        hpath).prev
    simp [oldest, hprev] at ho
  · have hprev : c.rt.mem.prev c.sh.tail = some b := by
      rw [show c.sh.head :: (l.concat b ++ [c.sh.tail]) =
        (c.sh.head :: l) ++ b :: c.sh.tail :: [] by simp] at hpath
      exact hpath.prev
    have hkey : (c.body b).key = some k := by
      simp only [oldest, hprev] at ho
      split_ifs at ho
      obtain ⟨k', hk', he⟩ := Option.map_eq_some_iff.mp ho
      rw [hk', (Prod.mk.inj he).1]
    refine ⟨c.keysOf l, ?_⟩
    rw [order_of_rep hrep hp, concat_eq_append, keysOf_append, keysOf_cons hkey]
    rfl

theorem lruEvict_victim (h : Core home c) (hne : c.sh.items ≠ []) (stats : Bool) :
    ∃ v a, c.sh.data.lookup v = some a ∧ Discards v a c (c.lruEvict stats).2 ∧
      ∃ rest, c.order = rest ++ [v] := by
  rcases oldest_spec h with ⟨hi, -⟩ | ⟨v, a, hv, ho⟩
  · exact absurd hi hne
  · refine ⟨v, a, hv, ?_, h.order_oldest ho⟩
    rw [lruEvict, ho]
    exact evictItem_discards (Quiet.refl c) stats

theorem lfuEvict_victim (h : Valid .LFU home c) (hne : c.sh.items ≠ []) (stats : Bool) :
    ∃ v a, c.sh.data.lookup v = some a ∧ Discards v a c (c.lfuEvict stats).2 ∧
      Victim .LFU c v := by
  obtain ⟨hq, hspec⟩ := popLFU_spec h
  cases hv : c.popLFU.1 with
  | none =>
    rw [hv] at hspec
    exact absurd hspec.1 hne
  | some a =>
    rw [hv] at hspec
    obtain ⟨v, hk, -⟩ := h.core.item_key hspec.1
    refine ⟨v, a, hk, ?_, (c.body a).frequency, count_of_lookup hk, ?_⟩
    · rw [lfuEvict_eq h hv hk]
      exact evictItem_discards hq stats
    · intro k n hn
      obtain ⟨b, hb, rfl⟩ := Option.map_eq_some_iff.mp hn
      obtain ⟨x, hx, rfl⟩ := Option.map_eq_some_iff.mp hb
      exact popLFU_least h hv (Shard.mem_items_of_lookup hx)

/-- Every evictor takes the entry of its policy out of a nonempty shard. -/
theorem evict_victim (h : Valid policy home c) (hne : c.sh.items ≠ []) (stats : Bool) :
    ∃ v a, c.sh.data.lookup v = some a ∧ Discards v a c (c.evict policy stats).2 ∧
      Victim policy c v := by
  have hsampled : EvictSpec policy c (c.admissionEvict stats) → ∃ v a,
      c.sh.data.lookup v = some a ∧ Discards v a c (c.admissionEvict stats).2 ∧ True := by
    rintro (⟨-, hi, -⟩ | ⟨-, v, a, hv, hd, -⟩)
    · exact absurd hi hne
    · exact ⟨v, a, hv, hd, trivial⟩
  cases policy with
  | LRU => exact lruEvict_victim h.core hne stats
  | LFU => exact lfuEvict_victim h hne stats
  | FIFO =>
    rw [evict, fifoEvict_eq (h.indexed.none (by decide))]
    exact lruEvict_victim h.core hne stats
  | AdmissionLFU => exact hsampled (evict_spec h stats)
  | other => exact hsampled (evict_spec h stats)

section Room
variable {cfg : Config} {cap : Int}

inductive Frees (policy : EvictionPolicy) (cap : Int) (c : Locked K V) : Locked K V → Prop where
  | roomy (room : Roomy cap c) : Frees policy cap c c
  | evicted {c' : Locked K V} {v : K} {a : Addr} (full : ¬ Roomy cap c)
      (lookup : c.sh.data.lookup v = some a) (discards : Discards v a c c')
      (victim : Victim policy c v) : Frees policy cap c c'

theorem items_ne_nil_of_full (h : Core home c) (hfull : ¬ Roomy cap c) : c.sh.items ≠ [] := by
  intro hnil
  have hsize := h.size
  rw [hnil] at hsize
  simp only [Roomy, not_or, hsize, length_nil] at hfull
  omega

theorem evict_frees (h : Valid policy home c) (hfull : ¬ Roomy cap c) (stats : Bool) :
    Frees policy cap c (c.evict policy stats).2 := by
  obtain ⟨v, a, hv, hd, hvictim⟩ := evict_victim h (items_ne_nil_of_full h.core hfull) stats
  exact .evicted hfull hv hd hvictim

/-- `Set` frees room, unless the filter refuses the candidate. -/
theorem makeRoom_frees (h : Valid cfg.evictionPolicy home c) (cap : Int) (keyHash : UInt64) :
    ((c.makeRoom cfg cap keyHash).1 = true ∧
      Frees cfg.evictionPolicy cap c (c.makeRoom cfg cap keyHash).2) ∨
    ((c.makeRoom cfg cap keyHash).1 = false ∧ cfg.evictionPolicy = .AdmissionLFU ∧
      ¬ Roomy cap c ∧ Quiet c (c.makeRoom cfg cap keyHash).2) := by
  rcases makeRoom_cases c cfg cap keyHash with ⟨hfree, hr⟩ | ⟨hcap, hr⟩
  · rw [hr]
    refine .inl ⟨rfl, .roomy ?_⟩
    unfold Roomy
    omega
  · have hfull : ¬ Roomy cap c := by
      unfold Roomy
      omega
    rcases hr with hr | ⟨admission, hp, hr⟩
    · rw [hr]
      exact .inl ⟨rfl, evict_frees h hfull _⟩
    · rw [hp] at h ⊢
      rw [hr]
      rcases evictWithAdmission_spec h cfg.statsEnabled admission keyHash with
        ⟨hf, hq, -⟩ | ⟨ht, v, a, -, hv, hd, -⟩
      · exact .inr ⟨hf, rfl, hfull, hq⟩
      · exact .inl ⟨ht, .evicted hfull hv hd trivial⟩

theorem evictLoop_of_lt (rounds : Nat) (hlt : c.sh.size < cap) :
    c.evictLoop cfg cap rounds = c := by
  cases rounds with
  | zero => rfl
  | succ rounds => exact if_neg (by omega)

/-- A shard that is not over capacity loses at most one entry to the loop of `Import`. -/
theorem importRoom_frees (h : Valid cfg.evictionPolicy home c)
    (hcap : 0 < cap → c.sh.size ≤ cap) :
    Frees cfg.evictionPolicy cap c (c.importRoom cfg cap) := by
  by_cases hroom : Roomy cap c
  · rw [(importRoom_spec h cap).2.2.1 hroom]
    exact .roomy hroom
  · have hfree := evict_frees h hroom cfg.statsEnabled
    simp only [Roomy, not_or, not_le, not_lt] at hroom
    have hle := hcap hroom.1
    obtain ⟨ht, hsize⟩ := (evict_spec h cfg.statsEnabled).size (by omega) h.core
    have heq : c.importRoom cfg cap = (c.evict cfg.evictionPolicy cfg.statsEnabled).2 := by
      simp only [importRoom, evictLoop, if_pos hroom.1, if_pos hroom.2, ht, if_true]
      exact evictLoop_of_lt _ (by omega)
    rw [heq]
    exact hfree

end Room

section Write
variable {cfg : Config} {cap : Int}

/-- What `Set` and `Import` do to order and counts. -/
inductive Puts (policy : EvictionPolicy) (cap : Int) (k : K) (c c' : Locked K V) : Prop where
  | overwrites (stored : k ∈ c.order) (order : c'.order = promoted policy k c.order)
      (count : policy = .LFU → c'.count = update c.count k (some 1))
  | inserts (new : k ∉ c.order) (room : Roomy cap c) (order : c'.order = k :: c.order)
      (count : policy = .LFU → c'.count = update c.count k (some 1))
  | replaces {v : K} (new : k ∉ c.order) (full : ¬ Roomy cap c) (stored : v ∈ c.order)
      (victim : Victim policy c v) (order : c'.order = k :: c.order.erase v)
      (count : policy = .LFU →
        c'.count = update (update c.count v none) k (some 1))
  | refused (new : k ∉ c.order) (full : ¬ Roomy cap c) (gated : policy = .AdmissionLFU)
      (order : c'.order = c.order)

theorem Puts.count_lfu (h : Puts .LFU cap k c c') :
    c'.count k = some 1 ∧ ∀ k', k' ≠ k → c'.count k' = c.count k' ∨ c'.count k' = none := by
  cases h with
  | overwrites hm ho hn =>
    rw [hn rfl]
    exact ⟨update_self .., fun k' hk' => .inl (update_of_ne hk' _ _)⟩
  | inserts hnew hroom ho hn =>
    rw [hn rfl]
    exact ⟨update_self .., fun k' hk' => .inl (update_of_ne hk' _ _)⟩
  | @replaces v hnew hfull hv hvictim ho hn =>
    rw [hn rfl]
    refine ⟨update_self .., fun k' hk' => ?_⟩
    rw [update_of_ne hk']
    by_cases he : k' = v
    · subst he
      exact .inr (update_self ..)
    · exact .inl (update_of_ne he _ _)
  | refused hnew hfull hgate ho => cases hgate

theorem Core.notMem_order (h : Core home c) (hk : c.sh.data.lookup k = none) : k ∉ c.order := by
  rw [h.mem_order, hk]
  rintro ⟨a, ha⟩
  cases ha

/-- A new entry once room has been made. -/
theorem Frees.puts {c₁ : Locked K V} (hf : Frees policy cap c c₁) (h : Core home c)
    (hk : c.sh.data.lookup k = none) (ho : c'.order = k :: c₁.order)
    (hn : policy = .LFU → c'.count = update c₁.count k (some 1)) :
    Puts policy cap k c c' := by
  have hnew := h.notMem_order hk
  cases hf with
  | roomy hroom => exact .inserts hnew hroom ho hn
  | evicted hfull hv hd hvictim =>
    rw [hd.order h hv] at ho
    rw [hd.count h hv] at hn
    exact .replaces hnew hfull (h.mem_order.mpr ⟨_, hv⟩) hvictim ho hn

theorem Frees.core {c₁ : Locked K V} (hf : Frees policy cap c c₁) (h : Core home c) :
    Core home c₁ ∧ ∀ {k}, c.sh.data.lookup k = none → c₁.sh.data.lookup k = none := by
  cases hf with
  | roomy => exact ⟨h, id⟩
  | evicted hfull hv hd hvictim => exact ⟨(hd.evolves h hv).core, (hd.sheds h hv).lookup_none⟩

variable [Inhabited V]

theorem Core.order_setFresh (h : Core home c) (hk : c.sh.data.lookup k = none) (value : V)
    (now expireTime : Int) :
    (c.setFresh policy k value now expireTime).order = k :: c.order := by
  have hins := h.order_insertItem (f := fun _ => ⟨value, expireTime, now, 1, some k⟩) hk
    fun _ => rfl
  rw [setFresh_eq]
  split_ifs
  · exact (order_lfuAdd _).trans hins
  · exact hins

theorem Core.count_setFresh (h : Core home c) (hk : c.sh.data.lookup k = none) (hhome : home k)
    (value : V) (now expireTime : Int) :
    (c.setFresh .LFU k value now expireTime).count = update c.count k (some 1) := by
  have hcore := (h.insertItem (f := fun _ => ⟨value, expireTime, now, 1, some k⟩) hk hhome
    fun _ => rfl).core
  have hlookup : (c.insertItem k fun _ => ⟨value, expireTime, now, 1, some k⟩).sh.data.lookup k =
      some c.takeItem.1 := by
    rw [lookup_insertItem, if_pos rfl]
  rw [setFresh_eq, if_pos rfl, hcore.count_lfuAdd hlookup, h.count_insertItem hk, update_idem]

omit [Inhabited V] in
/-- The entry of a key that is present is filled in again. -/
theorem Core.refresh_puts (h : Core home c') (hk : c'.sh.data.lookup k = some a)
    (hm : k ∈ c.order) (ho : c'.order = c.order) (hn : c'.count = c.count) :
    Puts policy cap k c (c'.refresh policy a) := by
  refine .overwrites hm ?_ fun hp => ?_
  · rw [h.order_refresh hk, ho]
  · rw [hp, h.count_refresh hk, hn]

omit [Inhabited V] in
theorem setExisting_puts (h : Valid policy home c) (hk : c.sh.data.lookup k = some a)
    (value : V) (now expireTime : Int) :
    Puts policy cap k c (c.setExisting policy a value now expireTime) := by
  have hv : Valid policy home (c.assign a fun b =>
      { b with value := value, lastAccess := now, expireTime := expireTime }) :=
    h.assign (Shard.mem_items_of_lookup hk) rfl rfl
  obtain ⟨hq, -⟩ := lfuRemove_spec (a := a) hv
  refine (hq.core hv.core).refresh_puts ?_ (h.core.mem_order.mpr ⟨a, hk⟩) ?_ ?_
  · rw [hq.data]
    exact hk
  · exact hq.order.trans (order_assign rfl)
  · exact hq.count.trans (h.core.count_assign_same hk rfl)

theorem setSection_puts (h : Valid cfg.evictionPolicy home c) (hhome : home k)
    (keyHash : UInt64) (value : V) (now expireTime : Int) :
    Puts cfg.evictionPolicy cap k c (c.setSection cfg cap k keyHash value now expireTime) := by
  unfold setSection
  cases hk : c.sh.data.lookup k with
  | some ex => exact setExisting_puts h hk value now expireTime
  | none =>
    simp only
    rcases makeRoom_frees h cap keyHash with ⟨ht, hf⟩ | ⟨hr, hp, hfull, hq⟩
    · rw [ht, if_pos rfl]
      obtain ⟨hcore, hkeep⟩ := hf.core h.core
      refine hf.puts h.core hk (hcore.order_setFresh (hkeep hk) value now expireTime) fun hp => ?_
      rw [hp]
      exact hcore.count_setFresh (hkeep hk) hhome value now expireTime
    · rw [hr, if_neg Bool.false_ne_true]
      exact .refused (h.core.notMem_order hk) hfull hp hq.order

theorem importSection_puts (h : Valid cfg.evictionPolicy home c) (hhome : home k)
    (hcap : 0 < cap → c.sh.size ≤ cap) (value : V) (now expireAbs : Int) :
    Puts cfg.evictionPolicy cap k c (c.importSection cfg cap k value now expireAbs) := by
  cases hk : c.sh.data.lookup k with
  | some ex =>
    obtain ⟨hq, -⟩ := lfuRemove_spec (a := ex) h
    simp only [importSection, importItem, hk]
    generalize c.lfuRemove cfg.evictionPolicy ex = c₁ at hq
    have hcore := hq.core h.core
    have hk₁ : c₁.sh.data.lookup k = some ex := by rw [hq.data]; exact hk
    have hkey : some k = (c₁.body ex).key := (hcore.key k ex hk₁).symm
    refine (hcore.assign (Shard.mem_items_of_lookup hk₁) hkey).core.refresh_puts hk₁
      (h.core.mem_order.mpr ⟨ex, hk⟩) ?_ ?_
    · exact (order_assign hkey).trans hq.order
    · exact (hcore.count_assign_same hk₁ rfl).trans hq.count
  | none =>
    rw [importSection_absent hk]
    have hf := importRoom_frees h hcap
    generalize c.importRoom cfg cap = c₁ at hf
    obtain ⟨hcore, hkeep⟩ := hf.core h.core
    have hk₁ := hkeep hk
    have hins := hcore.order_insertItem (f := fun b =>
      { b with key := some k, value := value, lastAccess := now, expireTime := expireAbs }) hk₁
      fun _ => rfl
    have hnew := (hcore.insertItem (f := fun b =>
      { b with key := some k, value := value, lastAccess := now, expireTime := expireAbs }) hk₁
      hhome fun _ => rfl).core
    have hlookup : (c₁.insertItem k fun b =>
        { b with key := some k, value := value, lastAccess := now,
                 expireTime := expireAbs }).sh.data.lookup k = some c₁.takeItem.1 := by
      rw [lookup_insertItem, if_pos rfl]
    refine hf.puts h.core hk ?_ fun hp => ?_
    · rw [hnew.order_refresh hlookup, hins]
      unfold promoted
      split_ifs
      · rw [erase_cons_head]
      · rfl
    · rw [hp, hnew.count_refresh hlookup, hcore.count_insertItem hk₁, update_idem]

end Write

theorem deleteSection_drops (h : Valid policy home c) (k : K) :
    Step policy home c (c.deleteSection policy k).2 ∧ Drops k c (c.deleteSection policy k).2 := by
  rcases deleteSection_spec h k with ⟨-, heq⟩ | ⟨a, hk, -, hd, hi⟩
  · rw [heq]
    exact ⟨Step.refl h, Drops.refl k c⟩
  · exact ⟨⟨hd.evolves h.core hk, hi⟩, hd.drops h.core hk⟩

theorem existsSection_drops {cfg : Config} (h : Valid cfg.evictionPolicy home c) (k : K)
    (now : Int) :
    Step cfg.evictionPolicy home c (c.existsSection cfg k now).2 ∧
      Drops k c (c.existsSection cfg k now).2 := by
  rcases existsSection_spec cfg h k now with ⟨-, heq⟩ | ⟨a, hk, ⟨-, heq⟩ | ⟨-, -, hd, hi⟩⟩
  · rw [heq]
    exact ⟨Step.refl h, Drops.refl k c⟩
  · rw [heq]
    exact ⟨Step.refl h, Drops.refl k c⟩
  · exact ⟨⟨hd.evolves h.core hk, hi⟩, hd.drops h.core hk⟩

theorem cleanupDrop_drops (h : Valid policy home c) (stats : Bool) (k : K) :
    Drops k c (c.cleanupDrop policy stats k) := by
  unfold cleanupDrop
  cases hk : c.sh.data.lookup k with
  | none => exact Drops.refl k c
  | some a =>
    obtain ⟨hd, -⟩ := discard_spec h hk
    exact (hd.quiet (countExpiration_quiet stats)).drops h.core hk

theorem foldl_cleanupDrop_thins (stats : Bool) (keys : List K) (h : Valid policy home c) :
    Thins policy c (keys.foldl (cleanupDrop policy stats) c) := by
  induction keys generalizing c with
  | nil => exact thins_of_same rfl rfl
  | cons key keys ih =>
    have hstep := (cleanupDrop_spec h stats key).1
    exact ((cleanupDrop_drops h stats key).thins policy).trans (ih hstep.valid)

theorem cleanupScan_thins (now : Int) (acc : List K × Locked K V)
    (e : Sigma fun _ : K => Addr) : Thins policy acc.2 (cleanupScan now policy acc e).2 := by
  unfold cleanupScan
  split_ifs with hexp hage
  · exact thins_of_same rfl rfl
  · refine ⟨by rw [order_assign rfl], fun hp => ?_⟩
    rw [hp] at hage
    exact absurd hage.1 (by decide)
  · exact thins_of_same rfl rfl

theorem foldl_cleanupScan_thins (policy : EvictionPolicy) (now : Int)
    (l : List (Sigma fun _ : K => Addr))
    (acc : List K × Locked K V) : Thins policy acc.2 (l.foldl (cleanupScan now policy) acc).2 := by
  induction l generalizing acc with
  | nil => exact thins_of_same rfl rfl
  | cons e l ih => exact (cleanupScan_thins now acc e).trans (ih _)

theorem cleanup_thins (h : Valid policy home c) (now : Int) (stats : Bool) :
    Thins policy c (c.cleanup now policy stats) := by
  have hq : Quiet c { c with rt := (c.rt.iterate c.sh.data.entries).2 } :=
    ⟨rfl, rfl, rfl, rfl, rfl, rfl⟩
  obtain ⟨hk, hi, -⟩ := foldl_cleanupScan now (c.rt.iterate c.sh.data.entries).1
    ([], { c with rt := (c.rt.iterate c.sh.data.entries).2 }) ((hq.step rfl h).valid)
    (fun e he => mem_map_of_mem (Iteration.mem_shuffle.mp he))
  have hscan := foldl_cleanupScan_thins policy now (c.rt.iterate c.sh.data.entries).1
    ([], { c with rt := (c.rt.iterate c.sh.data.entries).2 })
  exact ((thins_of_same hq.order hq.count).trans hscan).trans
    (foldl_cleanupDrop_thins stats _ ⟨hk.evolves.core, hi⟩)

theorem clearSection_thins [Inhabited V] (h : Valid policy home c) :
    Thins policy c (c.clearSection policy) := by
  obtain ⟨hstep, hdata, -⟩ := clearSection_spec h
  have hnil : (c.clearSection policy).order = [] := by
    have hperm := hstep.evolves.core.order_perm
    rw [hdata] at hperm
    exact hperm.eq_nil
  refine ⟨by rw [hnil]; exact nil_sublist _, fun _ k => .inr (count_eq_none.mpr ?_)⟩
  rw [hdata]
  rfl

end Locked

end Kioshun
