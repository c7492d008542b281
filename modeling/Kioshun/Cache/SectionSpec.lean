import Kioshun.Cache.EvictionSpec

/-!
# What the critical sections do

Reads change metadata only or drop an expired entry, `Set` and `Import` write one
entry after making room, `Delete` and `Clear` remove entries, and `cleanup` keeps
exactly the unexpired ones. Each section is described by its effect on the map
from keys to values and expiries, and keeps the invariant of the shard.
-/

namespace Kioshun

open CellStore Function

universe u v
variable {K : Type u} {V : Type v}

namespace Locked

variable (policy : EvictionPolicy) (home : K → Prop) [DecidableEq K]

structure Keeps (c c' : Locked K V) : Prop where
  evolves : Evolves home c c'
  sheds : Sheds c c'
  data : c'.sh.data = c.sh.data
  pool : c'.rt.pool = c.rt.pool

variable {policy home} {c c' c'' : Locked K V} {k : K} {a : Addr} {f : ItemBody K V → ItemBody K V}

namespace Keeps

theorem refl (h : Core home c) : Keeps home c c := ⟨Evolves.refl h, Sheds.refl c, rfl, rfl⟩

theorem trans (h : Keeps home c c') (h' : Keeps home c' c'') : Keeps home c c'' :=
  ⟨h.evolves.trans h'.evolves, h.sheds.trans h'.sheds, h'.data.trans h.data, h'.pool.trans h.pool⟩

theorem of_quiet (hq : Quiet c c') (h : Core home c) : Keeps home c c' :=
  ⟨hq.evolves h, hq.sheds, hq.data, hq.pool⟩

theorem view (h : Keeps home c c') : c'.view = c.view := h.sheds.view_eq h.data

theorem lookup (h : Keeps home c c') (hk : c.sh.data.lookup k = some a) :
    c'.sh.data.lookup k = some a := by
  rw [h.data]
  exact hk

theorem items (h : Keeps home c c') : c'.sh.items = c.sh.items := by
  simp only [Shard.items, h.data]

theorem assign (h : Core home c) (ha : a ∈ c.sh.items) (hf : ∀ b, (f b).key = b.key)
    (hv : ∀ b, (f b).value = b.value) (he : ∀ b, (f b).expireTime = b.expireTime) :
    Keeps home c (c.assign a f) :=
  ⟨h.assign ha (hf _), assign_sheds hv he, rfl, rfl⟩

end Keeps

/-- `add` on an item that the index does not know. -/
theorem lfuAdd_spec {l : LfuList} {f : Addr → Option Int} (h : Core home c)
    (ha : a ∈ c.sh.items) (hl : c.sh.lfuList = some l) (ht : l.Tracks f) (hu : f a = none)
    (hf : ∀ x, x ≠ a → f x = c.freqs x) :
    Keeps home c (c.lfuAdd a) ∧ (c.lfuAdd a).Indexed .LFU := by
  have hassign : Keeps home c (c.assign a fun b => { b with frequency := 1 }) :=
    Keeps.assign h ha (fun _ => rfl) (fun _ => rfl) fun _ => rfl
  have hl' : (c.assign a fun b => { b with frequency := 1 }).sh.lfuList = some l := hl
  have hq := onLfuList_quiet hl' fun l => l.add a
  refine ⟨hassign.trans (Keeps.of_quiet hq hassign.evolves.core), ?_⟩
  refine indexed_of_tracks (l := l.add a) (by rw [lfuAdd, onLfuList_some hl']) ?_
  have hfreqs : (c.lfuAdd a).freqs = update f a (some 1) := by
    rw [lfuAdd, hq.freqs, freqs_assign ha]
    funext x
    by_cases hx : x = a
    · subst hx
      simp
    · simp [hx, hf x hx]
  rw [hfreqs]
  exact LfuList.add_tracks ht hu

/-- `increment` on an item whose own counter is ahead of the index. -/
theorem lfuIncrement_spec {l : LfuList} {f : Addr → Option Int} {g : Int} (h : Core home c)
    (ha : a ∈ c.sh.items) (hl : c.sh.lfuList = some l) (ht : l.Tracks f) (hg : f a = some g)
    (hf : ∀ x, x ≠ a → f x = c.freqs x) :
    Keeps home c (c.lfuIncrement a) ∧ (c.lfuIncrement a).Indexed .LFU := by
  obtain ⟨ht', hr⟩ := LfuList.increment_tracks ht hg
  have hq : Quiet c { c with sh := { c.sh with lfuList := some (l.increment a).1 } } :=
    ⟨rfl, rfl, rfl, rfl, rfl, rfl⟩
  have ha' : a ∈ ({ c with sh := { c.sh with lfuList := some (l.increment a).1 } } :
      Locked K V).sh.items := ha
  have hinc : c.lfuIncrement a =
      { c with sh := { c.sh with lfuList := some (l.increment a).1 } }.assign a
        fun b => { b with frequency := (l.increment a).2 } := by
    simp only [lfuIncrement, hl]
  rw [hinc]
  refine ⟨(Keeps.of_quiet hq h).trans (Keeps.assign (hq.core h) ha' (fun _ => rfl)
    (fun _ => rfl) fun _ => rfl), ?_⟩
  refine indexed_of_tracks (l := (l.increment a).1) rfl ?_
  rw [freqs_assign ha', hq.freqs]
  have hfreqs : update c.freqs a (some (l.increment a).2) = update f a (some (g + 1)) := by
    funext x
    by_cases hx : x = a
    · subst hx
      simp [hr]
    · simp [hx, hf x hx]
  exact hfreqs ▸ ht'

omit [DecidableEq K] in
theorem freqs_of_mem (ha : a ∈ c.sh.items) : c.freqs a = some (c.body a).frequency := by
  simp [freqs, ha]

theorem touch_spec (h : Valid policy home c) (ha : a ∈ c.sh.items) (now : Int) :
    Keeps home c (c.touch policy a now) ∧ (c.touch policy a now).Indexed policy := by
  have hassign : Keeps home c
      (c.assign a fun b => { b with lastAccess := now, frequency := b.frequency + 1 }) :=
    Keeps.assign h.core ha (fun _ => rfl) (fun _ => rfl) fun _ => rfl
  cases policy with
  | LRU =>
    obtain ⟨he, hb⟩ := h.core.promote ha
    exact ⟨⟨he, relink_sheds hb, rfl, rfl⟩,
      indexed_of_none (by decide) (h.indexed.none (by decide))⟩
  | LFU =>
    obtain ⟨l, hl, ht⟩ := h.indexed.lfu
    obtain ⟨hk, hi⟩ :=
      lfuIncrement_spec (a := a) hassign.evolves.core ha hl ht (freqs_of_mem ha) (by
      intro x hx
      rw [freqs_assign ha, update_of_ne hx])
    exact ⟨hassign.trans hk, hi⟩
  | FIFO => exact ⟨Keeps.refl h.core, h.indexed⟩
  | AdmissionLFU =>
    exact ⟨hassign, indexed_of_none (by decide) (h.indexed.none (by decide))⟩
  | other => exact ⟨Keeps.refl h.core, h.indexed⟩

/-- The ways a critical section of `get` can end. -/
inductive GetSpec (policy : EvictionPolicy) (home : K → Prop) (lockedWrite : Bool) (key : K)
    (c : Locked K V) : GetOutcome × Locked K V → Prop where
  | absent {c' : Locked K V} (lookup : c.sh.data.lookup key = none) (keeps : Keeps home c c')
      (indexed : c'.Indexed policy) : GetSpec policy home lockedWrite key c (.miss, c')
  | hit {c' : Locked K V} {a : Addr} (lookup : c.sh.data.lookup key = some a)
      (live : (c.body a).expired c.rt.now.1 = false) (keeps : Keeps home c c')
      (indexed : c'.Indexed policy) :
      GetSpec policy home lockedWrite key c (.hit a c.rt.now.1, c')
  | expired {c' : Locked K V} {a : Addr} (lookup : c.sh.data.lookup key = some a)
      (stale : (c.body a).expired c.rt.now.1 = true) (write : lockedWrite = true)
      (discards : Discards key a c c') (indexed : c'.Indexed policy) :
      GetSpec policy home lockedWrite key c (.miss, c')
  | upgrade {c' : Locked K V} {a : Addr} (lookup : c.sh.data.lookup key = some a)
      (stale : (c.body a).expired c.rt.now.1 = true) (read : lockedWrite = false)
      (keeps : Keeps home c c') (indexed : c'.Indexed policy) :
      GetSpec policy home lockedWrite key c (.upgrade, c')

theorem getSection_spec {cfg : Config} (h : Valid cfg.evictionPolicy home c) (lockedWrite : Bool)
    (key : K) :
    GetSpec cfg.evictionPolicy home lockedWrite key c (c.getSection cfg lockedWrite key) := by
  unfold getSection
  cases hk : c.sh.data.lookup key with
  | none =>
    have hq := countMiss_quiet (c := c) cfg.statsEnabled
    exact .absent hk (Keeps.of_quiet hq h.core)
      (hq.indexed (lfuList_countMiss cfg.statsEnabled) h.indexed)
  | some a =>
    have hq : Quiet c { c with rt := c.rt.now.2 } := ⟨rfl, rfl, rfl, rfl, rfl, rfl⟩
    have hv : Valid cfg.evictionPolicy home { c with rt := c.rt.now.2 } :=
      (hq.step rfl h).valid
    have hbody : ({ c with rt := c.rt.now.2 } : Locked K V).body a = c.body a := rfl
    simp only [hbody]
    generalize ({ c with rt := c.rt.now.2 } : Locked K V) = c₁ at hq hv
    have hk₁ : c₁.sh.data.lookup key = some a := by
      rw [hq.data]
      exact hk
    cases hexp : (c.body a).expired c.rt.now.1 with
    | false =>
      obtain ⟨hkeep, hidx⟩ := touch_spec hv (Shard.mem_items_of_lookup hk₁) c.rt.now.1
      have hhit := countHit_quiet (c := c₁.touch cfg.evictionPolicy a c.rt.now.1) cfg.statsEnabled
      refine .hit hk hexp ?_ (hhit.indexed (lfuList_countHit _) hidx)
      exact ((Keeps.of_quiet hq h.core).trans hkeep).trans (Keeps.of_quiet hhit hkeep.evolves.core)
    | true =>
      cases lockedWrite with
      | false => exact .upgrade hk hexp rfl (Keeps.of_quiet hq h.core) hv.indexed
      | true =>
        obtain ⟨hd, hidx⟩ := discard_spec hv hk₁
        have he := countExpiration_quiet (c := c₁.discard cfg.evictionPolicy key a) cfg.statsEnabled
        have hm := countMiss_quiet (c := (c₁.discard cfg.evictionPolicy key a).countExpiration
          cfg.statsEnabled) cfg.statsEnabled
        refine .expired hk hexp rfl ((hd.quiet_left hq).quiet (he.trans hm)) ?_
        refine (he.trans hm).indexed ?_ hidx
        rw [lfuList_countMiss, lfuList_countExpiration]

section Write

/-- The item `a` holds the entry of `key` afterwards; every other item keeps its content. -/
structure Writes (home : K → Prop) (key : K) (e : V × Int) (a : Addr) (c c' : Locked K V) :
    Prop where
  evolves : Evolves home c c'
  lookup : ∀ k, c'.sh.data.lookup k = if k = key then some a else c.sh.data.lookup k
  content : ((c'.body a).value, (c'.body a).expireTime) = e
  others : ∀ x, x ≠ a → (c'.body x).value = (c.body x).value ∧
    (c'.body x).expireTime = (c.body x).expireTime
  source : c.sh.data.lookup key = some a ∨
    (c.sh.data.lookup key = none ∧ a ∉ c.sh.items ∧ (a ∈ c.rt.pool ∨ a = c.rt.mem.brk))
  pool : ∀ x, x ∈ c'.rt.pool ↔ x ∈ c.rt.pool ∧ x ≠ a
  size : c'.sh.size = if c.sh.data.lookup key = none then c.sh.size + 1 else c.sh.size

namespace Writes
variable {e : V × Int}

theorem keeps (h : Writes home k e a c c') (hk : Keeps home c' c'') : Writes home k e a c c'' where
  evolves := h.evolves.trans hk.evolves
  lookup := by rw [hk.data]; exact h.lookup
  content := by rw [hk.sheds.value, hk.sheds.expireTime]; exact h.content
  others := fun x hx => by rw [hk.sheds.value, hk.sheds.expireTime]; exact h.others x hx
  source := h.source
  pool := by rw [hk.pool]; exact h.pool
  size := by
    rw [hk.evolves.core.size, hk.items, ← h.evolves.core.size]
    exact h.size

theorem quiet_left (hq : Quiet c c') (h : Writes home k e a c' c'') (hc : Core home c) :
    Writes home k e a c c'' where
  evolves := (hq.evolves hc).trans h.evolves
  lookup := by rw [← hq.data]; exact h.lookup
  content := h.content
  others := fun x hx => by rw [← hq.body]; exact h.others x hx
  source := by rw [← hq.data, ← hq.items, ← hq.pool, ← hq.mem]; exact h.source
  pool := by rw [← hq.pool]; exact h.pool
  size := by rw [← hq.data, ← hq.size]; exact h.size

theorem view (h : Writes home k e a c c') (hc : Core home c) :
    c'.view = update c.view k (some e) := by
  funext k'
  by_cases hk : k' = k
  · subst hk
    rw [update_self, view_of_lookup (a := a) (by rw [h.lookup, if_pos rfl]), h.content]
  · rw [update_of_ne hk]
    have hl : c'.sh.data.lookup k' = c.sh.data.lookup k' := by rw [h.lookup, if_neg hk]
    cases hk' : c.sh.data.lookup k' with
    | none => rw [view_eq_none.mpr hk', view_eq_none.mpr (hl.trans hk')]
    | some a' =>
      have hne : a' ≠ a := by
        rintro rfl
        rcases h.source with hs | ⟨-, hs, -⟩
        · exact hk (hc.lookup_inj hk' hs)
        · exact hs (Shard.mem_items_of_lookup hk')
      obtain ⟨hv, hx⟩ := h.others a' hne
      rw [view_of_lookup hk', view_of_lookup (hl.trans hk'), hv, hx]

end Writes

variable {e : V × Int}

theorem Core.writes_assign (h : Core home c) (hk : c.sh.data.lookup k = some a)
    (hf : (f (c.body a)).key = some k)
    (he : ((f (c.body a)).value, (f (c.body a)).expireTime) = e) :
    Writes home k e a c (c.assign a f) where
  evolves := h.assign (Shard.mem_items_of_lookup hk) (hf.trans (h.key k a hk).symm)
  lookup := by
    intro k'
    split_ifs with hk'
    · rw [hk']
      exact hk
    · rfl
  content := by
    rw [body_assign, update_self]
    exact he
  others := fun x hx => by
    rw [body_assign, update_of_ne hx]
    exact ⟨rfl, rfl⟩
  source := .inl hk
  pool := by
    intro x
    have hout := h.unpooled a (Shard.mem_cells_of_mem_items (Shard.mem_items_of_lookup hk))
    exact ⟨fun hx => ⟨hx, fun hxa => hout (hxa ▸ hx)⟩, And.left⟩
  size := by
    rw [hk]
    rfl

theorem Core.writes_insertItem [Inhabited V] (h : Core home c) (hk : c.sh.data.lookup k = none)
    (hhome : home k) (hf : ∀ b, (f b).key = some k)
    (he : ∀ b, ((f b).value, (f b).expireTime) = e) :
    Writes home k e c.takeItem.1 c (c.insertItem k f) where
  evolves := h.insertItem hk hhome hf
  lookup := lookup_insertItem
  content := by
    rw [h.body_insertItem hk, if_pos rfl]
    exact he _
  others := fun x hx => by
    rw [h.body_insertItem hk, if_neg hx]
    exact ⟨rfl, rfl⟩
  source := .inr ⟨hk, fun hm => h.taken_notMem (Shard.mem_cells_of_mem_items hm), h.taken.source⟩
  pool := h.taken.pool
  size := by
    rw [hk]
    rfl

/-- The index tracks all items but one, which it does not know. -/
def IndexedBut (policy : EvictionPolicy) (a : Addr) (c : Locked K V) : Prop :=
  if policy = .LFU then
    ∃ l f, c.sh.lfuList = some l ∧ l.Tracks f ∧ f a = none ∧ ∀ x, x ≠ a → f x = c.freqs x
  else c.sh.lfuList = none

section
omit [DecidableEq K]

theorem IndexedBut.lfu (h : c.IndexedBut .LFU a) :
    ∃ l f, c.sh.lfuList = some l ∧ l.Tracks f ∧ f a = none ∧ ∀ x, x ≠ a → f x = c.freqs x := by
  simpa [IndexedBut] using h

theorem IndexedBut.none (h : c.IndexedBut policy a) (hp : policy ≠ .LFU) : c.sh.lfuList = none := by
  simpa [IndexedBut, hp] using h

theorem IndexedBut.congr (h : c.IndexedBut policy a) (hl : c'.sh.lfuList = c.sh.lfuList)
    (hf : ∀ x, x ≠ a → c'.freqs x = c.freqs x) : c'.IndexedBut policy a := by
  unfold IndexedBut at h ⊢
  split_ifs at h ⊢ with hp
  · obtain ⟨l, f, hlist, ht, hu, hx⟩ := h
    exact ⟨l, f, hl.trans hlist, ht, hu, fun x hne => (hx x hne).trans (hf x hne).symm⟩
  · exact hl.trans h

theorem IndexedBut.assign (h : c.IndexedBut policy a) (ha : a ∈ c.sh.items) :
    (c.assign a f).IndexedBut policy a :=
  h.congr rfl fun x hx => by rw [freqs_assign ha, update_of_ne hx]

end

theorem refresh_spec (h : Core home c) (ha : a ∈ c.sh.items) (hi : c.IndexedBut policy a) :
    Keeps home c (c.refresh policy a) ∧ (c.refresh policy a).Indexed policy := by
  have hone : Keeps home c (c.assign a fun b => { b with frequency := 1 }) :=
    Keeps.assign h ha (fun _ => rfl) (fun _ => rfl) fun _ => rfl
  cases policy with
  | LRU =>
    obtain ⟨he, hb⟩ := h.promote ha
    exact ⟨⟨he, relink_sheds hb, rfl, rfl⟩, indexed_of_none (by decide) (hi.none (by decide))⟩
  | LFU =>
    obtain ⟨l, f, hl, ht, hu, hf⟩ :=
      (hi.assign ha (f := fun b => { b with frequency := 1 })).lfu
    obtain ⟨hadd, hidx⟩ := lfuAdd_spec hone.evolves.core ha hl ht hu hf
    exact ⟨hone.trans hadd, hidx⟩
  | FIFO => exact ⟨Keeps.refl h, indexed_of_none (by decide) (hi.none (by decide))⟩
  | AdmissionLFU => exact ⟨hone, indexed_of_none (by decide) (hi.none (by decide))⟩
  | other => exact ⟨Keeps.refl h, indexed_of_none (by decide) (hi.none (by decide))⟩

section
variable (h : Valid policy home c)
include h

theorem lfuRemove_spec :
    Quiet c (c.lfuRemove policy a) ∧ (c.lfuRemove policy a).IndexedBut policy a := by
  unfold lfuRemove
  split_ifs with hp
  · subst hp
    obtain ⟨l, hl, ht⟩ := h.indexed.lfu
    have hq := onLfuList_quiet hl fun l => l.remove a
    refine ⟨hq, ?_⟩
    simp only [IndexedBut, if_true]
    refine ⟨l.remove a, _, by rw [onLfuList_some hl], LfuList.remove_tracks ht a,
      update_self .., ?_⟩
    intro x hx
    rw [hq.freqs, update_of_ne hx]
  · refine ⟨Quiet.refl c, ?_⟩
    simp only [IndexedBut, if_neg hp]
    exact h.indexed.none hp

theorem insertItem_indexedBut [Inhabited V] (hk : c.sh.data.lookup k = none) :
    (c.insertItem k f).IndexedBut policy c.takeItem.1 := by
  have hl : (c.insertItem k f).sh.lfuList = c.sh.lfuList := rfl
  by_cases hp : policy = .LFU
  · subst hp
    obtain ⟨l, hlist, ht⟩ := h.indexed.lfu
    simp only [IndexedBut, if_true]
    refine ⟨l, c.freqs, hl.trans hlist, ht, h.core.freqs_taken, ?_⟩
    intro x hx
    rw [h.core.freqs_insertItem hk, update_of_ne hx]
  · simp only [IndexedBut, if_neg hp]
    exact hl.trans (h.indexed.none hp)

theorem Valid.assign (ha : a ∈ c.sh.items) (hkey : (f (c.body a)).key = (c.body a).key)
    (hfreq : (f (c.body a)).frequency = (c.body a).frequency) :
    Valid policy home (c.assign a f) := by
  have hfreqs : (c.assign a f).freqs = c.freqs := by
    rw [freqs_assign ha, hfreq]
    exact update_eq_self_iff.mpr (freqs_of_mem ha).symm
  refine ⟨(h.core.assign ha hkey).core, ?_⟩
  have hi := h.indexed
  unfold Indexed at hi ⊢
  rw [hfreqs]
  exact hi

theorem setExisting_spec (hk : c.sh.data.lookup k = some a) (value : V) (now expireTime : Int) :
    Writes home k (value, expireTime) a c (c.setExisting policy a value now expireTime) ∧
      (c.setExisting policy a value now expireTime).Indexed policy := by
  have ha := Shard.mem_items_of_lookup hk
  have hw : Writes home k (value, expireTime) a c (c.assign a fun b =>
      { b with value := value, lastAccess := now, expireTime := expireTime }) :=
    h.core.writes_assign hk (h.core.key k a hk) rfl
  have hv : Valid policy home (c.assign a fun b =>
      { b with value := value, lastAccess := now, expireTime := expireTime }) :=
    h.assign ha rfl rfl
  obtain ⟨hq, hi⟩ := lfuRemove_spec (a := a) hv
  obtain ⟨hk', hi'⟩ := refresh_spec (hq.core hv.core) (by rw [hq.items]; exact ha) hi
  exact ⟨hw.keeps ((Keeps.of_quiet hq hv.core).trans hk'), hi'⟩

end

section Fresh
omit [DecidableEq K] in
theorem grow_lfuAdd : (c.lfuAdd a).grow = c.grow.lfuAdd a := by
  unfold lfuAdd onLfuList
  cases hl : c.sh.lfuList with
  | none => simp [assign, grow, hl, relink]
  | some l => simp [assign, grow, hl]

theorem setFresh_eq [Inhabited V] (value : V) (now expireTime : Int) :
    c.setFresh policy k value now expireTime =
      if policy = .LFU then
        (c.insertItem k fun _ => ⟨value, expireTime, now, 1, some k⟩).lfuAdd c.takeItem.1
      else c.insertItem k fun _ => ⟨value, expireTime, now, 1, some k⟩ := by
  unfold setFresh insertItem
  split_ifs with hp
  · exact grow_lfuAdd
  · rfl

theorem setFresh_spec [Inhabited V] (h : Valid policy home c) (hk : c.sh.data.lookup k = none)
    (hhome : home k) (value : V) (now expireTime : Int) :
    Writes home k (value, expireTime) c.takeItem.1 c
        (c.setFresh policy k value now expireTime) ∧
      (c.setFresh policy k value now expireTime).Indexed policy := by
  have hw : Writes home k (value, expireTime) c.takeItem.1 c
      (c.insertItem k fun _ => ⟨value, expireTime, now, 1, some k⟩) :=
    h.core.writes_insertItem hk hhome (fun _ => rfl) fun _ => rfl
  have hi := insertItem_indexedBut (f := fun _ => ⟨value, expireTime, now, 1, some k⟩) h hk
  have ha : c.takeItem.1 ∈
      (c.insertItem k fun _ => ⟨value, expireTime, now, 1, some k⟩).sh.items := by
    rw [items_insertItem hk]
    exact List.mem_cons_self
  rw [setFresh_eq]
  split_ifs with hp
  · subst hp
    obtain ⟨l, f, hl, ht, hu, hf⟩ := hi.lfu
    obtain ⟨hadd, hidx⟩ := lfuAdd_spec hw.evolves.core ha hl ht hu hf
    exact ⟨hw.keeps hadd, hidx⟩
  · exact ⟨hw, indexed_of_none hp (hi.none hp)⟩

section Room
variable {cfg : Config} {cap : Int}

theorem makeRoom_cases (c : Locked K V) (cfg : Config) (cap : Int) (keyHash : UInt64) :
    (¬ (0 < cap ∧ cap ≤ c.sh.size) ∧ c.makeRoom cfg cap keyHash = (true, c)) ∨
      ((0 < cap ∧ cap ≤ c.sh.size) ∧
        (c.makeRoom cfg cap keyHash = (true, (c.evict cfg.evictionPolicy cfg.statsEnabled).2) ∨
          ∃ admission, cfg.evictionPolicy = .AdmissionLFU ∧ c.makeRoom cfg cap keyHash =
            c.evictWithAdmission cfg.statsEnabled admission keyHash)) := by
  unfold makeRoom
  split_ifs with hfull
  · right
    refine ⟨hfull, ?_⟩
    split
    · next admission hp ha => exact .inr ⟨admission, hp, rfl⟩
    · exact .inl rfl
  · exact .inl ⟨hfull, rfl⟩

def Roomy (cap : Int) (c : Locked K V) : Prop := cap ≤ 0 ∨ c.sh.size < cap

/-- Unless the candidate is refused, there is room for it afterwards. -/
theorem makeRoom_spec (h : Valid cfg.evictionPolicy home c) (cap : Int) (keyHash : UInt64) :
    Step cfg.evictionPolicy home c (c.makeRoom cfg cap keyHash).2 ∧
      Sheds c (c.makeRoom cfg cap keyHash).2 ∧
      (Roomy cap c → c.makeRoom cfg cap keyHash = (true, c)) ∧
      (0 < cap → c.sh.size ≤ cap → (c.makeRoom cfg cap keyHash).1 = true →
        (c.makeRoom cfg cap keyHash).2.sh.size < cap) := by
  rcases makeRoom_cases c cfg cap keyHash with
    ⟨hfree, hr⟩ | ⟨hfull, hr | ⟨admission, hp, hr⟩⟩
  · rw [hr]
    refine ⟨Step.refl h, Sheds.refl c, fun _ => rfl, fun hcap _ _ => ?_⟩
    show c.sh.size < cap
    omega
  · have hev := evict_spec h cfg.statsEnabled
    obtain ⟨hstep, hsheds⟩ := hev.sheds h
    obtain ⟨-, hsize⟩ := hev.size (by omega) h.core
    rw [hr]
    refine ⟨hstep, hsheds, fun hroom => by rcases hroom with hroom | hroom <;> omega,
      fun _ hle _ => ?_⟩
    show (c.evict cfg.evictionPolicy cfg.statsEnabled).2.sh.size < cap
    omega
  · rw [hp] at h ⊢
    rw [hr]
    rcases evictWithAdmission_spec h cfg.statsEnabled admission keyHash with
      ⟨hf, hq, -, hi⟩ | ⟨-, k, a, -, hk, hd, -, hi⟩
    · exact ⟨⟨hq.evolves h.core, hi⟩, hq.sheds,
        fun hroom => by rcases hroom with hroom | hroom <;> omega, fun _ _ ht => by simp [hf] at ht⟩
    · refine ⟨⟨hd.evolves h.core hk, hi⟩, hd.sheds h.core hk,
        fun hroom => by rcases hroom with hroom | hroom <;> omega, fun _ hle _ => ?_⟩
      rw [hd.size]
      omega

/-- The eviction loop of `Import` ends with room for one more entry. -/
theorem evictLoop_spec (cap : Int) (rounds : Nat) (h : Valid cfg.evictionPolicy home c) :
    Step cfg.evictionPolicy home c (c.evictLoop cfg cap rounds) ∧
      Sheds c (c.evictLoop cfg cap rounds) ∧
      (0 < cap → c.sh.size < rounds → (c.evictLoop cfg cap rounds).sh.size < cap) := by
  induction rounds generalizing c with
  | zero =>
    refine ⟨Step.refl h, Sheds.refl c, fun _ hlt => ?_⟩
    have := h.core.size
    omega
  | succ rounds ih =>
    by_cases hfull : cap ≤ c.sh.size
    · have hev := evict_spec h cfg.statsEnabled
      obtain ⟨hstep, hsheds⟩ := hev.sheds h
      simp only [evictLoop, if_pos hfull]
      split_ifs with ht
      · obtain ⟨hstep', hsheds', hsize'⟩ := ih hstep.valid
        refine ⟨hstep.trans hstep', hsheds.trans hsheds', fun hcap hlt => hsize' hcap ?_⟩
        obtain ⟨-, hsize⟩ := hev.size (by omega) h.core
        rw [hsize]
        omega
      · exact ⟨hstep, hsheds, fun hcap _ => absurd (hev.size (by omega) h.core).1 ht⟩
    · simp only [evictLoop, if_neg hfull]
      exact ⟨Step.refl h, Sheds.refl c, fun _ _ => by omega⟩

/-- What `Set` and `Import` do to a shard: make room and write, unless refused. -/
structure Stores (policy : EvictionPolicy) (home : K → Prop) (cap : Int) (key : K) (e : V × Int)
    (c c' : Locked K V) : Prop where
  step : Step policy home c c'
  capacity : 0 < cap → c.sh.size ≤ cap → c'.sh.size ≤ cap
  writes : ∃ c₁, Step policy home c c₁ ∧ Sheds c c₁ ∧
    (Roomy cap c ∨ c.sh.data.lookup key ≠ none → c₁ = c) ∧
    ((∃ a, Writes home key e a c₁ c') ∨
      (¬ Roomy cap c ∧ c.sh.data.lookup key = none ∧ c' = c₁))

section

theorem Sheds.lookup_none (h : Sheds c c') (hk : c.sh.data.lookup k = none) :
    c'.sh.data.lookup k = none := by
  cases hk' : c'.sh.data.lookup k with
  | none => rfl
  | some a =>
    rw [h.sub k a hk'] at hk
    cases hk

/-- Besides the new entry, what was there is kept or gone; nothing goes while there is room or
the key is present. -/
theorem Stores.view {policy : EvictionPolicy} (h : Stores policy home cap k e c c') :
    (∀ k', c'.view k' = update c.view k (some e) k' ∨ c'.view k' = none) ∧
      (Roomy cap c ∨ c.sh.data.lookup k ≠ none → c'.view = update c.view k (some e)) := by
  obtain ⟨c₁, hstep, hsheds, hsame, ⟨a, hw⟩ | ⟨hfull, hk, rfl⟩⟩ := h.writes
  · refine ⟨fun k' => ?_, fun hor => ?_⟩
    · rw [hw.view hstep.evolves.core]
      by_cases hk : k' = k
      · subst hk
        simp
      · simpa [hk] using hsheds.view k'
    · rw [hw.view hstep.evolves.core, hsame hor]
  · refine ⟨fun k' => ?_, fun hor => absurd (hor.resolve_right fun hne => hne hk) hfull⟩
    by_cases hkk : k' = k
    · subst hkk
      exact .inr (view_eq_none.mpr (hsheds.lookup_none hk))
    · simpa [hkk] using hsheds.view k'

theorem Writes.stores {c₁ : Locked K V} {policy : EvictionPolicy} (h₁ : Step policy home c c₁)
    (hs : Sheds c c₁) (heq : Roomy cap c ∨ c.sh.data.lookup k ≠ none → c₁ = c)
    (hw : Writes home k e a c₁ c') (hi : c'.Indexed policy)
    (hroom : 0 < cap → c.sh.size ≤ cap → c'.sh.size ≤ cap) : Stores policy home cap k e c c' :=
  ⟨h₁.trans ⟨hw.evolves, hi⟩, hroom, c₁, h₁, hs, heq, .inl ⟨a, hw⟩⟩

end

theorem setSection_spec [Inhabited V] (h : Valid cfg.evictionPolicy home c) (hhome : home k)
    (keyHash : UInt64) (value : V) (now expireTime : Int) :
    Stores cfg.evictionPolicy home cap k (value, expireTime) c
      (c.setSection cfg cap k keyHash value now expireTime) := by
  unfold setSection
  cases hk : c.sh.data.lookup k with
  | some ex =>
    obtain ⟨hw, hi⟩ := setExisting_spec h hk value now expireTime
    refine hw.stores (Step.refl h) (Sheds.refl c) (fun _ => rfl) hi fun _ hle => ?_
    rw [hw.size, hk]
    exact hle
  | none =>
    obtain ⟨hstep, hsheds, hfree, hroom⟩ := makeRoom_spec h cap keyHash
    simp only
    generalize hr : c.makeRoom cfg cap keyHash = r at hstep hsheds hfree hroom
    have hk₁ := hsheds.lookup_none hk
    split_ifs with ht
    · obtain ⟨hw, hi⟩ := setFresh_spec hstep.valid hk₁ hhome value now expireTime
      refine hw.stores hstep hsheds (fun hor => ?_) hi fun hcap hle => ?_
      · rw [hfree (hor.resolve_right fun hne => hne hk)]
      · have := hroom hcap hle ht
        rw [hw.size, if_pos hk₁]
        omega
    · have hfull : ¬ Roomy cap c := by
        intro hroom'
        rw [hfree hroom'] at ht
        exact ht rfl
      refine ⟨hstep, fun _ hle => ?_, r.2, hstep, hsheds, fun hor => ?_, .inr ⟨hfull, hk, rfl⟩⟩
      · have := hsheds.size_le h.core hstep.evolves.core
        omega
      · exact absurd (hor.resolve_right fun hne => hne hk) hfull

theorem link_assign : (c.assign a f).link k a = (c.link k a).assign a f := by
  simp only [link, relink, assign, Runtime.assign, addToLRUHead_assignBody]

def importRoom (cfg : Config) (cap : Int) (c : Locked K V) : Locked K V :=
  if 0 < cap then c.evictLoop cfg cap (c.sh.data.entries.length + 1) else c

theorem importRoom_spec (h : Valid cfg.evictionPolicy home c) (cap : Int) :
    Step cfg.evictionPolicy home c (c.importRoom cfg cap) ∧ Sheds c (c.importRoom cfg cap) ∧
      (Roomy cap c → c.importRoom cfg cap = c) ∧
        (0 < cap → (c.importRoom cfg cap).sh.size < cap) := by
  obtain ⟨hstep, hsheds, hsize⟩ := evictLoop_spec cap (c.sh.data.entries.length + 1) h
  unfold importRoom
  split_ifs with hcap
  · refine ⟨hstep, hsheds, fun hroom => ?_, fun _ => hsize hcap ?_⟩
    · rcases hroom with hroom | hroom
      · omega
      · exact if_neg (by omega)
    · have hlen : c.sh.items.length = c.sh.data.entries.length := List.length_map _
      rw [h.core.size, hlen]
      omega
  · exact ⟨Step.refl h, Sheds.refl c, fun _ => rfl, fun hn => absurd hn hcap⟩

/-- On an absent key, filling in the item after it is linked is filling it in before. -/
theorem importSection_absent [Inhabited V] (hk : c.sh.data.lookup k = none) (value : V)
    (now expireAbs : Int) :
    c.importSection cfg cap k value now expireAbs =
      ((c.importRoom cfg cap).insertItem k fun b =>
        { b with
          key := some k, value := value, lastAccess := now, expireTime := expireAbs }).refresh
        cfg.evictionPolicy (c.importRoom cfg cap).takeItem.1 := by
  simp only [importSection, importItem, hk, insertItem, link_assign]
  rfl

/-- `Import` evicts until there is room and never refuses an item. -/
theorem importSection_spec [Inhabited V] (h : Valid cfg.evictionPolicy home c) (hhome : home k)
    (value : V)
    (now expireAbs : Int) :
    Stores cfg.evictionPolicy home cap k (value, expireAbs) c
        (c.importSection cfg cap k value now expireAbs) ∧
      (c.importSection cfg cap k value now expireAbs).view k = some (value, expireAbs) := by
  cases hk : c.sh.data.lookup k with
  | some ex =>
    obtain ⟨hq, hi⟩ := lfuRemove_spec (a := ex) h
    simp only [importSection, importItem, hk]
    generalize c.lfuRemove cfg.evictionPolicy ex = c₁ at hq hi
    have hk₁ : c₁.sh.data.lookup k = some ex := by rw [hq.data]; exact hk
    have ha₁ := Shard.mem_items_of_lookup hk₁
    have hw : Writes home k (value, expireAbs) ex c₁ (c₁.assign ex fun b =>
        { b with key := some k, value := value, lastAccess := now, expireTime := expireAbs }) :=
      (hq.core h.core).writes_assign hk₁ rfl rfl
    obtain ⟨hkeep, hidx⟩ := refresh_spec hw.evolves.core ha₁ (hi.assign ha₁)
    have hw' := Writes.quiet_left hq (hw.keeps hkeep) h.core
    refine ⟨hw'.stores (Step.refl h) (Sheds.refl c) (fun _ => rfl) hidx fun _ hle => ?_, ?_⟩
    · rw [hw'.size, hk]
      exact hle
    · rw [hw'.view h.core, update_self]
  | none =>
    obtain ⟨hstep, hsheds, hfree, hless⟩ := importRoom_spec h cap
    rw [importSection_absent hk]
    generalize c.importRoom cfg cap = c₁ at hstep hsheds hfree hless
    have hk₁ := hsheds.lookup_none hk
    have hw : Writes home k (value, expireAbs) c₁.takeItem.1 c₁ (c₁.insertItem k fun b =>
        { b with key := some k, value := value, lastAccess := now, expireTime := expireAbs }) :=
      hstep.evolves.core.writes_insertItem hk₁ hhome (fun _ => rfl) fun _ => rfl
    have ha : c₁.takeItem.1 ∈ (c₁.insertItem k fun b =>
        { b with key := some k, value := value, lastAccess := now,
                 expireTime := expireAbs }).sh.items := by
      rw [items_insertItem hk₁]
      exact List.mem_cons_self
    obtain ⟨hkeep, hidx⟩ := refresh_spec hw.evolves.core ha (insertItem_indexedBut hstep.valid hk₁)
    have hw' := hw.keeps hkeep
    refine ⟨hw'.stores hstep hsheds (fun hor => hfree (hor.resolve_right fun hne => hne hk)) hidx
      fun hcap _ => ?_, ?_⟩
    · have := hless hcap
      rw [hw'.size, if_pos hk₁]
      omega
    · rw [hw'.view hstep.evolves.core, update_self]

end Room

end Fresh

end Write

end Locked

end Kioshun
