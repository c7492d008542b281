import Kioshun.Cache.Accounting
import Kioshun.Cache.Declined
import Kioshun.Http.Invalidation

/-!
# What the pattern index keeps

Nobody tells the index about an entry that is evicted, that expires, that is not admitted or that
`InvalidateByFunc` removes. Its key stays in the index, which may so get more keys than the cache
has room for.
-/

namespace Kioshun
open Schedule

namespace InMemoryCache

universe u v
variable {K : Type u} {V : Type v} {c c' : InMemoryCache K V} {k v : K} [DecidableEq K]

/-- A `Set` of the key may evict `v`: the key is new, its shard is full, and `v` is an entry that
the policy may take. -/
def Displaces (c : InMemoryCache K V) (k v : K) : Prop :=
  c.view k = none ∧ ∃ s, c.shards[c.home k]? = some s ∧ ¬(c.locked s).Roomy c.perShardCap ∧
    v ∈ (c.locked s).order ∧ (c.locked s).Victim c.config.evictionPolicy v

/-- A lookup that finds nothing only counts. -/
theorem Get_absent_eq (h : Valid c) (hopen : c.closed = false) (hk : c.view k = none) :
    ∃ s, c.shards[c.home k]? = some s ∧ c.Get k = (none,
      c.put (c.home k) ((c.locked s).countMiss c.config.statsEnabled)) := by
  obtain ⟨s, hs⟩ := h.home_shard k
  have hlookup : (c.locked s).sh.data.lookup k = none :=
    Locked.view_eq_none.mp ((view_of_shard hs).symm.trans hk)
  refine ⟨s, hs, ?_⟩
  have hsection : ∀ nw, (c.locked s).getSection c.config nw k =
      (.miss, (c.locked s).countMiss c.config.statsEnabled) := fun nw => by
    rw [Locked.getSection, hlookup]
  simp only [Get, get, hopen, Bool.false_eq_true, if_false, onShard_eq hs, hsection,
    Option.map_none]

theorem displaces_of_absent (h : Valid c) (hopen : c.closed = false) (hk : c.view k = none)
    (hev : (c.Get k).2.now.2.now.2.Displaces k v) : c.Displaces k v := by
  obtain ⟨s, hs, hget⟩ := Get_absent_eq h hopen hk
  obtain ⟨-, s', hs', hev⟩ := hev
  rw [hget] at hs' hev
  obtain rfl := Option.some.inj ((getElem?_put_self hs).symm.trans hs')
  refine ⟨hk, s, hs, ?_⟩
  unfold Locked.countMiss at hev
  split_ifs at hev
  · exact hev
  · exact hev

theorem declines_of_absent (h : Valid c) (hopen : c.closed = false) (hk : c.view k = none)
    (hd : (c.Get k).2.now.2.now.2.Declines k) : c.now.2.now.2.Declines k := by
  obtain ⟨s, hs, hget⟩ := Get_absent_eq h hopen hk
  obtain ⟨s', hs', hd⟩ := hd
  rw [hget] at hs' hd
  obtain rfl := Option.some.inj ((getElem?_put_self hs).symm.trans hs')
  refine ⟨s, hs, ?_⟩
  unfold Locked.countMiss at hd
  split_ifs at hd
  · obtain ⟨hp, ha, hl, hf, admission, victim, hadm, hv, hno⟩ := hd
    simp only [Locked.pickVictim, apply_ite Prod.fst] at hv
    exact ⟨hp, ha, hl, hf, admission, victim, hadm, by
      simp only [Locked.pickVictim, apply_ite Prod.fst]
      exact hv, hno⟩
  · exact hd

theorem Get_cases (h : Valid c) (hopen : c.closed = false) (k : K) :
    (∃ value, (c.Get k).1 = some value ∧ (c.Get k).2.view = c.view) ∨
      (c.Get k).1 = none ∧ (c.view k = none ∧ (c.Get k).2.view = c.view ∨
        ∃ e, c.view k = some e ∧ Locked.live c.now.1 e = false ∧
          (c.Get k).2.view = Function.update c.view k none) := by
  obtain ⟨-, hlook⟩ := get_spec h hopen k
  simp only [Get]
  generalize c.get k = looked at hlook
  cases hlook with
  | hit _ _ _ _ hview => exact .inl ⟨_, rfl, hview⟩
  | absent hk hview => exact .inr ⟨rfl, .inl ⟨hk, hview⟩⟩
  | expired hk hstale _ hview => exact .inr ⟨rfl, .inr ⟨_, hk, hstale, hview⟩⟩

theorem Valid.cached_iff (h : Valid c) : c.view k ≠ none ↔ k ∈ c.order (c.home k) := by
  rw [h.mem_order, Option.isSome_iff_ne_none]
  exact (and_iff_right rfl).symm

/-- `Set` takes out nothing but a victim. -/
theorem Valid.displaces_of_set [Inhabited V] (h : Valid c) (hopen : c.closed = false) {value : V}
    {ttl : Int} (hne : v ≠ k) (hv : c.view v ≠ none) (hgone : (c.Set k value ttl).2.view v = none) :
    c.Displaces k v := by
  have hvalid := (Set_spec h hopen k value ttl).1.outcome.valid
  have hshape := (Set_spec h hopen k value ttl).1.outcome.shape
  obtain ⟨hnow, hview⟩ := h.now
  obtain ⟨s, hs⟩ := hnow.valid.home_shard k
  have hval := hnow.valid.shard _ s hs
  have hstep : Locked.Step c.now.2.config.evictionPolicy
      (fun k' => c.now.2.home k' = c.now.2.home k) (c.now.2.locked s)
      ((c.now.2.locked s).setSection c.config c.perShardCap k (c.hasher k) value c.now.1
        (stamp c.config c.now.1 ttl)) := (Locked.setSection_spec hval rfl ..).step
  have hputs : Locked.Puts c.config.evictionPolicy c.perShardCap k (c.now.2.locked s)
      ((c.now.2.locked s).setSection c.config c.perShardCap k (c.hasher k) value c.now.1
        (stamp c.config c.now.1 ttl)) := Locked.setSection_puts hval rfl ..
  have hset : (c.Set k value ttl).2 = c.now.2.put (c.now.2.home k)
      ((c.now.2.locked s).setSection c.config c.perShardCap k (c.hasher k) value c.now.1
        (stamp c.config c.now.1 ttl)) := by rw [Set_eq_put hopen hs]; rfl
  have hold : v ∈ c.now.2.order (c.home v) := hnow.valid.cached_iff.mp (hview ▸ hv)
  have hnew : v ∉ (c.Set k value ttl).2.order (c.home v) := fun hmem => by
    have := (hvalid.mem_order.mp hmem).2
    rw [hgone] at this
    cases this
  rw [hset, hnow.valid.order_put hs hstep] at hnew
  generalize (c.now.2.locked s).setSection c.config c.perShardCap k (c.hasher k) value c.now.1
    (stamp c.config c.now.1 ttl) = t at hputs hnew
  split_ifs at hnew with hhome
  · have hs' : c.now.2.order (c.home v) = (c.now.2.locked s).order := by
      rw [hhome]
      exact order_of_shard hs
    rw [hs'] at hold
    cases hputs with
    | overwrites _ ho =>
      refine absurd ?_ hnew
      rw [ho, Locked.promoted]
      split_ifs
      · exact List.mem_cons_of_mem k ((List.mem_erase_of_ne hne).mpr hold)
      · exact hold
    | inserts _ _ ho => exact absurd (ho ▸ List.mem_cons_of_mem k hold) hnew
    | @replaces v' hk hfull _ hvictim ho =>
      obtain rfl : v = v' := by
        by_contra hv'
        exact hnew (ho ▸ List.mem_cons_of_mem k ((List.mem_erase_of_ne hv').mpr hold))
      have hnone : c.view k = none := by
        by_contra hk'
        exact hk (order_of_shard hs ▸ hnow.valid.cached_iff.mp (hview ▸ hk'))
      exact ⟨hnone, s, hs, hfull, hold, hvictim⟩
    | refused _ _ _ ho => exact absurd (ho ▸ hold) hnew
  · exact absurd hold hnew

/-- The place of an entry that goes is free. -/
theorem Valid.hasRoom_of_removed (h : Valid c) (hb : Bounded c) (hout : Outcome c c')
    (hk : c.view k ≠ none) (hview : c'.view = Function.update c.view k none) : HasRoom c' k := by
  by_cases hcap : c'.perShardCap ≤ 0
  · exact .inl hcap
  · refine .inr (.inr fun s' hs' => ?_)
    rw [hout.shape.home] at hs'
    obtain ⟨s, hs⟩ := h.home_shard k
    have hcore := (h.shard _ s hs).core
    have hcore' := (hout.valid.shard _ s' hs').core
    have hmem : k ∈ (c.locked s).order := order_of_shard hs ▸ h.cached_iff.mp hk
    have hsub : (c'.locked s').order ⊆ (c.locked s).order.erase k := fun k' hk' => by
      rw [← order_of_shard hs'] at hk'
      obtain ⟨hhome, hsome⟩ := hout.valid.mem_order.mp hk'
      rw [hview] at hsome
      have hne : k' ≠ k := by
        rintro rfl
        simp at hsome
      rw [Function.update_of_ne hne] at hsome
      rw [List.mem_erase_of_ne hne, ← order_of_shard hs]
      exact h.mem_order.mpr ⟨(hout.shape.home k').symm.trans hhome, hsome⟩
    have hle := (List.subperm_of_subset hcore'.nodup_order hsub).length_le
    have hlt := List.length_erase_of_mem hmem
    have hpos := List.length_pos_of_mem hmem
    have hbound := hb (by rw [← hout.shape.cap]; omega) s (List.mem_of_getElem? hs)
    have hlen := hcore.length_order
    have hlen' := hcore'.length_order
    rw [hout.shape.cap]
    show s'.size < _
    have : (c'.locked s').sh.size = s'.size := rfl
    have : (c.locked s).sh.size = s.size := rfl
    omega

theorem Valid.length_le_size (h : Valid c) {keys : List K} (hnodup : keys.Nodup)
    (hcached : ∀ k ∈ keys, c.view k ≠ none) : (keys.length : Int) ≤ c.Size := by
  have hsub : keys ⊆ c.shards.flatMap fun s => s.data.keys := by
    intro k hk
    obtain ⟨s, hs⟩ := h.home_shard k
    have hview := hcached k hk
    rw [view_of_shard hs] at hview
    refine List.mem_flatMap.mpr ⟨s, List.mem_of_getElem? hs, ?_⟩
    by_contra hnone
    exact hview (Locked.view_eq_none.mpr (AList.lookup_eq_none.mpr hnone))
  have hall : (c.shards.flatMap fun s => s.data.keys).length = c.entries := by
    simp [entries, List.length_flatMap, AList.keys, List.keys]
  rw [h.size_eq_entries, ← hall]
  exact_mod_cast (List.subperm_of_subset hnodup hsub).length_le

end InMemoryCache

namespace HTTPCacheMiddleware
open InMemoryCache (Outcome)

variable {m : HTTPCacheMiddleware} {k key : Bytes} {op : Op}

theorem Indexed.outcome_record (h : m.Indexed) (r : Request) (rw' : ResponseWriter) :
    Outcome m.cache (m.record r rw').cache := by
  have hnow := h.valid.now.1
  simp only [HTTPCacheMiddleware.record]
  split_ifs
  · have hset := InMemoryCache.Set_spec h.now.now.valid h.now.now.unclosed
    rw [HTTPCacheMiddleware.store, (addKey_frame _ _).1]
    exact hnow.trans (h.now.valid.now.1.trans (hset ..).1.outcome)
  · exact hnow

theorem Indexed.outcome_middleware (h : m.Indexed) (next : Request → List ResponseAction)
    (w : Writer) (r : Request) : Outcome m.cache (m.Middleware next w r).2.cache := by
  have hget := (InMemoryCache.get_spec h.valid h.unclosed (m.keyGen r)).1
  cases hfound : (m.cache.Get (m.keyGen r)).1 with
  | some cached =>
    rw [Middleware_of_hit hfound]
    exact hget.trans hget.valid.now.1
  | none =>
    rw [Middleware_of_miss hfound]
    exact hget.trans (h.get.outcome_record r _)

theorem Indexed.outcome_step (h : m.Indexed) (op : Op) : Outcome m.cache (m.step op).cache := by
  have hdelete : ∀ (m : HTTPCacheMiddleware) key, m.Indexed →
      Outcome m.cache (m.cache.Delete key).2 :=
    fun m key h => (InMemoryCache.Delete_spec h.valid h.unclosed key).1
  cases op with
  | request next w r => exact h.outcome_middleware next w r
  | cleanup => exact (InMemoryCache.cleanup_spec h.valid h.unclosed).1
  | clear => exact (InMemoryCache.Clear_spec h.valid h.unclosed).1
  | invalidate urlPattern pick =>
    suffices hfold : ∀ (keys : List Bytes) (acc : Int × HTTPCacheMiddleware), acc.2.Indexed →
        Outcome acc.2.cache (keys.foldl HTTPCacheMiddleware.invalidateKey acc).2.cache from
      hfold _ (0, m) h
    intro keys
    induction keys with
    | nil => exact fun acc h => .refl h.valid
    | cons key keys ih =>
      intro acc hacc
      refine Outcome.trans ?_ (ih _ (hacc.invalidateKey acc.1 key).indexed)
      simp only [HTTPCacheMiddleware.invalidateKey]
      split_ifs
      · rw [(removeKey_frame _ key).1]
        exact hdelete acc.2 key hacc
      · exact hdelete acc.2 key hacc
  | invalidateByFunc fn =>
    exact (h.invalidateByFunc_keeps (P := fun m' => Outcome m.cache m'.cache)
      (InMemoryCache.Keys_spec h.valid h.unclosed).1
      fun m' key _ hm' hout => hout.trans (hdelete m' key hm')).2

def Tidy (m : HTTPCacheMiddleware) : Prop := ∀ segs k, m.patternIdx.Has segs k → m.Cached k

def allows (m : HTTPCacheMiddleware) (next : Request → List ResponseAction) (w : Writer)
    (r : Request) : Bool :=
  let rw := (ResponseWriter.newResponseWriter w).serve (next r)
  (m.policy r rw.statusCode rw.headers rw.buf (m.cache.Get (m.keyGen r)).2.now.1).1

/-- What a request finds if it loses no key with a path: an expired response is replaced, and a
new one is admitted and displaces none. -/
structure Keeps (m : HTTPCacheMiddleware) (next : Request → List ResponseAction) (w : Writer)
    (r : Request) : Prop where
  expired : ∀ e, m.cache.view (m.keyGen r) = some e → Locked.live m.cache.now.1 e = false →
    m.pathExtract (m.keyGen r) ≠ [] → m.allows next w r = true
  evicts : m.allows next w r = true → ∀ v, m.cache.Displaces (m.keyGen r) v → m.pathExtract v = []
  admitted : m.allows next w r = true → m.pathExtract (m.keyGen r) ≠ [] →
    ¬m.cache.now.2.now.2.Declines (m.keyGen r)

/-- A call that does not tell the index about removals has nothing to tell. -/
def Retains (m : HTTPCacheMiddleware) : Op → Prop
  | .request next w r => m.Keeps next w r
  | .cleanup => ∀ k, m.pathExtract k ≠ [] → ∀ e, m.cache.view k = some e →
      Locked.live m.cache.now.1 e = true
  | .invalidateByFunc fn => ∀ k, m.pathExtract k ≠ [] → m.Cached k → fn k = false
  | .invalidate _ _ => True
  | .clear => True

def Adds (m : HTTPCacheMiddleware) : Op → Bytes → Prop
  | .request next w r, k =>
    k = m.keyGen r ∧ (m.cache.Get (m.keyGen r)).1 = none ∧ m.allows next w r = true
  | _, _ => False

/-- A request puts the key that it stores into the index. -/
theorem has_request (next : Request → List ResponseAction) (w : Writer) (r : Request)
    {segs : List Bytes} (h : (m.Middleware next w r).2.patternIdx.Has segs k) :
    m.patternIdx.Has segs k ∨ m.Adds (.request next w r) k ∧ m.pathExtract k ≠ [] := by
  cases hget : (m.cache.Get (m.keyGen r)).1 with
  | some cached =>
    rw [Middleware_of_hit hget] at h
    exact .inl h
  | none =>
    rw [Middleware_of_miss hget] at h
    simp only [HTTPCacheMiddleware.record] at h
    split_ifs at h with hallows
    · rw [HTTPCacheMiddleware.store, has_addKey] at h
      exact h.imp_right fun hadd => ⟨⟨hadd.1, hget, hallows⟩, hadd.2.1⟩
    · exact .inl h

section
variable {next : Request → List ResponseAction} {w : Writer} {r : Request}

/-- A request whose lookup misses: it stores the response, or it leaves the cache alone. -/
theorem cache_of_miss (hmiss : (m.cache.Get (m.keyGen r)).1 = none) :
    (m.allows next w r = true ∧ ∃ cached ttl, (m.Middleware next w r).2.cache =
        ((m.cache.Get (m.keyGen r)).2.now.2.now.2.Set (m.keyGen r) cached ttl).2) ∨
      (m.allows next w r = false ∧
        (m.Middleware next w r).2.cache = (m.cache.Get (m.keyGen r)).2.now.2) := by
  rw [Middleware_of_miss hmiss]
  simp only [HTTPCacheMiddleware.record]
  split_ifs with hallows
  · exact .inl ⟨hallows, _, _, by rw [HTTPCacheMiddleware.store, (addKey_frame _ _).1]⟩
  · exact .inr ⟨Bool.eq_false_iff.mpr hallows, rfl⟩

/-- A request for a new key, which stores the response. -/
theorem Indexed.cached_new (h : m.Indexed) (hkeeps : m.Keeps next w r)
    (hallows : m.allows next w r = true) (hnone : m.cache.view (m.keyGen r) = none)
    {cached : CachedResponse} {ttl : Int} (hpath : m.pathExtract k ≠ [])
    (hk : (m.cache.Get (m.keyGen r)).2.now.2.now.2.view k ≠ none ∨ k = m.keyGen r) :
    ((m.cache.Get (m.keyGen r)).2.now.2.now.2.Set (m.keyGen r) cached ttl).2.view k ≠ none := by
  have hfound : ({ m with cache := (m.cache.Get (m.keyGen r)).2.now.2.now.2 }).Indexed :=
    h.get.now.now
  obtain rfl | hne := eq_or_ne k (m.keyGen r)
  · obtain ⟨hd, -⟩ | ⟨-, hview⟩ :=
      InMemoryCache.view_Set hfound.valid hfound.unclosed (m.keyGen r) cached ttl
    · exact absurd (InMemoryCache.declines_of_absent h.valid h.unclosed hnone hd)
        (hkeeps.admitted hallows hpath)
    · exact fun hgone => by cases hview.symm.trans hgone
  · intro hgone
    have hdisplaces :=
      hfound.valid.displaces_of_set hfound.unclosed hne (hk.resolve_right hne) hgone
    exact hpath (hkeeps.evicts hallows k
      (InMemoryCache.displaces_of_absent h.valid h.unclosed hnone hdisplaces))

theorem Indexed.cached_request (h : m.Indexed) (hb : m.cache.Bounded) (hkeeps : m.Keeps next w r)
    (hpath : m.pathExtract k ≠ []) (hk : m.Cached k ∨ m.Adds (.request next w r) k) :
    (m.Middleware next w r).2.Cached k := by
  have hget : ({ m with cache := (m.cache.Get (m.keyGen r)).2 }).Indexed := h.get
  obtain ⟨hnow, hview₁⟩ := hget.valid.now
  obtain ⟨hnow', hview₂⟩ := hnow.valid.now
  obtain ⟨value, hhit, hview⟩ | ⟨hmiss, hcases⟩ :=
    InMemoryCache.Get_cases h.valid h.unclosed (m.keyGen r)
  · rw [Middleware_of_hit hhit, Cached]
    show (m.cache.Get (m.keyGen r)).2.now.2.view k ≠ none
    rw [hview₁, hview]
    exact hk.resolve_right fun hadds => by cases hhit.symm.trans hadds.2.1
  · have hown : m.Cached k ∨ k = m.keyGen r := hk.imp_right And.left
    rw [Cached]
    obtain ⟨hallows, cached, ttl, hcache⟩ | ⟨hdenied, hcache⟩ := cache_of_miss hmiss
    · rw [hcache]
      obtain ⟨hnone, hview⟩ | ⟨e, he, -, hview⟩ := hcases
      · refine h.cached_new hkeeps hallows hnone hpath (hown.imp_left fun hold => ?_)
        rw [hview₂, hview₁, hview]
        exact hold
      · -- the expired entry has gone, and the response takes its place
        have hout := (InMemoryCache.get_spec h.valid h.unclosed (m.keyGen r)).1.trans
          (hnow.trans hnow')
        have hroom := h.valid.hasRoom_of_removed hb hout (by rw [he]; exact Option.some_ne_none e)
          (by rw [hview₂, hview₁, hview])
        have hwrote := InMemoryCache.Set_spec hout.valid (hout.shape.closed.trans h.unclosed)
          (m.keyGen r) cached ttl
        rw [hwrote.1.exact hroom, hview₂, hview₁, hview]
        obtain rfl | hne := eq_or_ne k (m.keyGen r)
        · simp
        · rw [Function.update_of_ne hne, Function.update_of_ne hne]
          exact hown.resolve_right hne
    · rw [hcache, hview₁]
      have hadds : ¬m.Adds (.request next w r) k := fun h => by cases hdenied.symm.trans h.2.2
      obtain ⟨-, hview⟩ | ⟨e, he, hstale, hview⟩ := hcases
      · rw [hview]
        exact hk.resolve_right hadds
      · rw [hview, Function.update_of_ne]
        · exact hk.resolve_right hadds
        · rintro rfl
          cases hdenied.symm.trans (hkeeps.expired e he hstale hpath)

end

theorem patternIdx_invalidateByFunc (h : m.Indexed) (fn : Bytes → Bool) :
    (m.InvalidateByFunc fn).2.patternIdx = m.patternIdx :=
  (h.invalidateByFunc_keeps (P := fun m' => m'.patternIdx = m.patternIdx) rfl
    fun _ _ _ _ h => h).2

/-- `InvalidateByFunc` deletes no key that the function spares. -/
theorem Indexed.view_invalidateByFunc (h : m.Indexed) {fn : Bytes → Bool} (hk : fn k = false) :
    (m.InvalidateByFunc fn).2.cache.view k = m.cache.view k := by
  refine (h.invalidateByFunc_keeps (P := fun m' => m'.cache.view k = m.cache.view k) ?_ ?_).2
  · exact congrFun (InMemoryCache.Keys_spec h.valid h.unclosed).2.1 k
  · intro m' key hfn hm' hview
    have hne : k ≠ key := by
      rintro rfl
      cases hk.symm.trans hfn
    rw [(InMemoryCache.Delete_spec hm'.valid hm'.unclosed key).2.1, Function.update_of_ne hne]
    exact hview

/-- `Invalidate` takes what it deletes out of the index. -/
theorem Tidy.invalidateKey (h : m.Indexed) (ht : m.Tidy) (n : Int) (key : Bytes) :
    (HTTPCacheMiddleware.invalidateKey (n, m) key).2.Tidy := by
  have hremoves := h.invalidateKey n key
  have hfound := InMemoryCache.Delete_found h.valid h.unclosed key
  have hsame : ∀ k, k ≠ key → m.Cached k →
      (HTTPCacheMiddleware.invalidateKey (n, m) key).2.Cached k := by
    intro k hne hk
    rw [Cached, hremoves.view, if_neg (by simpa using hne)]
    exact hk
  intro segs k hk
  simp only [HTTPCacheMiddleware.invalidateKey] at hk
  split_ifs at hk with hdeleted
  · obtain ⟨hold, hother⟩ := has_removeKey.mp hk
    exact hsame k (fun heq => hother ⟨heq, h.own segs k hold⟩) (ht segs k hold)
  · have hnone : ¬m.Cached key := by
      rw [hfound, Option.isSome_iff_ne_none] at hdeleted
      exact hdeleted
    exact hsame k (fun heq => hnone (heq ▸ ht segs k hk)) (ht segs k hk)

theorem Tidy.invalidateKeys (h : m.Indexed) (ht : m.Tidy) (n : Int) (keys : List Bytes) :
    (keys.foldl HTTPCacheMiddleware.invalidateKey (n, m)).2.Tidy := by
  induction keys generalizing n m with
  | nil => exact ht
  | cons key keys ih => exact ih (h.invalidateKey n key).indexed (ht.invalidateKey h n key) _

/-- One call keeps the index tidy if it retains what the index has. -/
theorem Tidy.step (h : m.Indexed) (hb : m.cache.Bounded) (ht : m.Tidy) (hr : m.Retains op) :
    (m.step op).Tidy := by
  intro segs k hk
  cases op with
  | request next w r =>
    obtain hold | ⟨hadds, hpath⟩ := has_request next w r hk
    · exact h.cached_request hb hr (h.own segs k hold).1 (.inl (ht segs k hold))
    · exact h.cached_request hb hr hpath (.inr hadds)
  | cleanup =>
    obtain ⟨e, he⟩ := Option.ne_none_iff_exists'.mp (ht segs k hk)
    have hlive := hr k (h.own segs k hk).1 e he
    rw [Cached]
    show m.cache.cleanup.view k ≠ none
    rw [(InMemoryCache.cleanup_spec h.valid h.unclosed).2.2, he, Option.filter_some, if_pos hlive]
    exact Option.some_ne_none e
  | invalidateByFunc fn =>
    have hold : m.patternIdx.Has segs k := patternIdx_invalidateByFunc h fn ▸ hk
    have hcached := ht segs k hold
    rw [Cached]
    show (m.InvalidateByFunc fn).2.cache.view k ≠ none
    rw [h.view_invalidateByFunc (hr k (h.own segs k hold).1 hcached)]
    exact hcached
  | invalidate urlPattern pick => exact ht.invalidateKeys h 0 _ segs k hk
  | clear => exact absurd hk PatternIndex.not_has_new

section Runs

variable {lib : HttpLib} {config : MiddlewareConfig} {numCPU : Int} {hasher : Bytes → UInt64}
  {wall : WallClock} {choice : Nat → Nat} {m₀ : HTTPCacheMiddleware}

/-- Every key in the index is cached, and there are no more of them than the limit, if there is
one. -/
def Contained (limit : Int) (m : HTTPCacheMiddleware) : Prop :=
  m.Tidy ∧ (0 < limit → (m.patternIdx.root.entries.length : Int) ≤ limit)

theorem Tidy.length_entries_le (h : m.Indexed) (ht : m.Tidy) :
    (m.patternIdx.root.entries.length : Int) ≤ m.cache.Size := by
  have hhas : ∀ e ∈ m.patternIdx.root.entries, m.patternIdx.Has e.1 e.2 :=
    fun e he => (Trie.mem_entries m.patternIdx.wf).mp he
  have hnodup : (m.patternIdx.root.entries.map Prod.snd).Nodup := by
    refine (Trie.nodup_entries m.patternIdx.wf).map_on fun a ha b hb heq => Prod.ext ?_ heq
    rw [(h.own _ _ (hhas a ha)).2, (h.own _ _ (hhas b hb)).2, heq]
  have hlength : (m.patternIdx.root.entries.map Prod.snd).length =
      m.patternIdx.root.entries.length :=
    List.length_map ..
  rw [← hlength]
  refine h.valid.length_le_size hnodup fun k hk => ?_
  obtain ⟨e, he, rfl⟩ := List.mem_map.mp hk
  exact ht e.1 e.2 (hhas e he)

/-- The limit of a middleware as `NewHTTPCacheMiddleware` reads it. -/
def limitOf (config : MiddlewareConfig) : Int :=
  (if config.MaxSize = 0 then DefaultMiddlewareConfig else config).MaxSize.toInt

/-- The index outlives no entry, after any run in which no call loses one behind its back. -/
theorem contained_of_retains
    (hnew : NewHTTPCacheMiddleware lib config numCPU hasher wall choice = some m₀)
    {keyGen : KeyGenerator} {extractor : Bytes → Bytes} {policy : CachePolicy} {ops : List Op}
    (hretains : Along step Retains (m₀.configure keyGen extractor policy) ops) :
    ((m₀.configure keyGen extractor policy).run ops).Contained (limitOf config) := by
  have hstart := indexed_configure hnew keyGen extractor policy
  obtain ⟨cache, hcache, rfl⟩ := Option.map_eq_some_iff.mp hnew
  have hbounded := InMemoryCache.New_bounded hcache
  obtain ⟨hindexed, hout, htidy⟩ := exec_keeps
    (I := fun m => m.Indexed ∧ Outcome cache m.cache ∧ m.Tidy)
    (fun m op h hr => ⟨h.1.step op, h.2.1.trans (h.1.outcome_step op),
      h.2.2.step h.1 (h.2.1.bounded hbounded) hr⟩)
    ⟨hstart, InMemoryCache.Outcome.refl (c := cache) hstart.valid,
      fun segs k hk => absurd hk PatternIndex.not_has_new⟩ hretains
  exact ⟨htidy, fun hlimit => (htidy.length_entries_le hindexed).trans
    (hout.size_le hcache hlimit).2⟩

@[irreducible] def onePage : HTTPCacheMiddleware :=
  (NewHTTPCacheMiddleware plainLib { smallMiddleware with MaxSize := 1 } 1 (fun _ => 0)
    ⟨fun n => n, 0⟩ id).get rfl

def twoPages : List Op :=
  [.request (fun _ => []) .fresh (getRequest "/a"), .request (fun _ => []) .fresh (getRequest "/b")]

/-- The first page is evicted, and its key stays in the index. -/
theorem contained_not :
    let m := onePage.cachesAll.run twoPages
    ascii "GET:/a" ∈ m.patternIdx.GetMatchingKeys (ascii "/a") id ∧ ¬m.Cached (ascii "GET:/a") ∧
      m.patternIdx.root.entries.length = 2 ∧ ¬m.Contained 1 := by
  intro m
  have hlength : m.patternIdx.root.entries.length = 2 := by decide +kernel
  refine ⟨by decide +kernel, by decide +kernel, hlength, fun h => ?_⟩
  have := h.2 (by decide)
  omega

/-- The key of the request is new, and its shard has room. -/
def finds (m : HTTPCacheMiddleware) (r : Request) : Bool :=
  (m.cache.view (m.keyGen r)).isNone && (m.cache.shards[m.cache.home (m.keyGen r)]?).all
    fun s => decide (s.size < m.cache.perShardCap)

theorem keeps_of_finds {next : Request → List ResponseAction} {w : Writer} {r : Request}
    (h : m.finds r = true) : m.Keeps next w r := by
  obtain ⟨hnone, hroom⟩ := Bool.and_eq_true_iff.mp h
  have hless : ∀ s, m.cache.shards[m.cache.home (m.keyGen r)]? = some s →
      s.size < m.cache.perShardCap := fun s hs => by
    rw [hs] at hroom
    exact of_decide_eq_true hroom
  refine ⟨fun e he => ?_, ?_, ?_⟩
  · rw [he] at hnone
    cases hnone
  · rintro - v ⟨-, s, hs, hfull, -⟩
    exact absurd (.inr (hless s hs)) hfull
  · rintro - - ⟨s, hs, hd⟩
    exact absurd (hless s hs) (not_lt.mpr hd.full)

/-- Two pages in a cache for four, and one of them is invalidated. -/
theorem contained_of_retains_two :
    (small.cachesAll.run (twoPages ++ [.invalidate (ascii "/a") id])).Contained 4 :=
  contained_of_retains new_small
    ⟨keeps_of_finds (by decide +kernel), keeps_of_finds (by decide +kernel), trivial, trivial⟩

end Runs

end HTTPCacheMiddleware

end Kioshun
