import Kioshun.Cache.Refinement
import Kioshun.Http.Middleware

/-!
# Pattern invalidation

Entries leave the cache behind the back of the pattern index: they expire, are evicted,
are not admitted, or are removed by `InvalidateByFunc`. The index then has keys that
are not cached, which do no harm. What matters is that every cached key with a path is
in the index at its own path, and at no other.
-/

namespace Kioshun
open InMemoryCache List

namespace HTTPCacheMiddleware

/-- What happens to a middleware; entries are evicted by `Set`, and expire under `Get` and in the
background. -/
inductive Op where
  | request (next : Request → List ResponseAction) (w : Writer) (r : Request)
  | cleanup
  | invalidate (urlPattern : Bytes) (pick : Nat → Nat)
  | invalidateByFunc (fn : Bytes → Bool)
  | clear

def step (m : HTTPCacheMiddleware) : Op → HTTPCacheMiddleware
  | .request next w r => (m.Middleware next w r).2
  | .cleanup => { m with cache := m.cache.cleanup }
  | .invalidate urlPattern pick => (m.Invalidate urlPattern pick).2
  | .invalidateByFunc fn => (m.InvalidateByFunc fn).2
  | .clear => m.Clear

def run (m : HTTPCacheMiddleware) (ops : List Op) : HTTPCacheMiddleware := ops.foldl step m

/-- The key is cached, if only until its expiry is noticed. -/
def Cached (m : HTTPCacheMiddleware) (k : Bytes) : Prop := m.cache.view k ≠ none

instance (m : HTTPCacheMiddleware) (k : Bytes) : Decidable (m.Cached k) :=
  decidable_of_iff ((m.cache.view k).isSome = true) Option.isSome_iff_ne_none

/-- The index has the cached keys, and each at its own path. -/
structure Indexed (m : HTTPCacheMiddleware) : Prop where
  valid : m.cache.Valid
  unclosed : m.cache.closed = false
  covers : ∀ k, m.Cached k → m.pathExtract k ≠ [] → m.patternIdx.Has (segments (m.pathExtract k)) k
  own : ∀ segs k, m.patternIdx.Has segs k → m.pathExtract k ≠ [] ∧ segs = segments (m.pathExtract k)

/-- A cached key with a path is in the index at it, or somebody is about to put it there. -/
structure Awaits (m : HTTPCacheMiddleware) (awaited : Bytes → Prop) : Prop where
  valid : m.cache.Valid
  unclosed : m.cache.closed = false
  covers : ∀ k, m.Cached k → m.pathExtract k ≠ [] →
    m.patternIdx.Has (segments (m.pathExtract k)) k ∨ awaited k
  own : ∀ segs k, m.patternIdx.Has segs k → m.pathExtract k ≠ [] ∧ segs = segments (m.pathExtract k)

variable {m : HTTPCacheMiddleware} {c : InMemoryCache Bytes CachedResponse} {k key : Bytes}
  {awaited awaited' : Bytes → Prop}

section Awaits

theorem Indexed.awaits (h : m.Indexed) : m.Awaits fun _ => False :=
  ⟨h.valid, h.unclosed, fun k hk hpath => .inl (h.covers k hk hpath), h.own⟩

section
variable (h : m.Awaits awaited)
include h

theorem Awaits.indexed (hnone : ∀ k, ¬awaited k) : m.Indexed :=
  ⟨h.valid, h.unclosed, fun k hk hpath => (h.covers k hk hpath).resolve_right (hnone k), h.own⟩

theorem Awaits.mono (himp : ∀ k, awaited k → awaited' k) : m.Awaits awaited' :=
  ⟨h.valid, h.unclosed, fun k hk hpath => (h.covers k hk hpath).imp_right (himp k), h.own⟩

/-- The cache may lose entries. -/
theorem Awaits.shrink (hout : Outcome m.cache c)
    (hview : ∀ k, c.view k ≠ none → m.cache.view k ≠ none) :
    ({ m with cache := c }).Awaits awaited where
  valid := hout.valid
  unclosed := hout.shape.closed.trans h.unclosed
  covers k hk := h.covers k (hview k hk)
  own := h.own

theorem Awaits.now : ({ m with cache := m.cache.now.2 }).Awaits awaited := by
  obtain ⟨hout, hview⟩ := h.valid.now
  exact h.shrink hout fun k hk => by rwa [hview] at hk

variable (key : Bytes)

theorem Awaits.get : ({ m with cache := (m.cache.Get key).2 }).Awaits awaited := by
  obtain ⟨hout, hlook⟩ := get_spec h.valid h.unclosed key
  refine h.shrink hout fun k hk => ?_
  obtain heq | ⟨hnone, -⟩ := hlook.fades k
  · rwa [← heq]
  · exact absurd hnone hk

theorem Awaits.cleanup : ({ m with cache := m.cache.cleanup }).Awaits awaited := by
  obtain ⟨hout, -, hview⟩ := cleanup_spec h.valid h.unclosed
  refine h.shrink hout fun k hk hnone => hk ?_
  rw [hview, hnone]
  rfl

theorem Awaits.delete : ({ m with cache := (m.cache.Delete key).2 }).Awaits awaited := by
  obtain ⟨hout, hview, -⟩ := Delete_spec h.valid h.unclosed key
  refine h.shrink hout fun k hk hnone => hk ?_
  rw [hview]
  by_cases hkey : k = key
  · rw [hkey, Function.update_self]
  · rw [Function.update_of_ne hkey, hnone]

theorem Awaits.clearCache : ({ m with cache := m.cache.Clear }).Awaits awaited := by
  obtain ⟨hout, -, hview⟩ := Clear_spec h.valid h.unclosed
  exact h.shrink hout fun k hk => absurd (hview k) hk

/-- The index may be emptied if the cached keys are about to come back into it. -/
theorem Awaits.clearIndex (hall : ∀ k, m.Cached k → m.pathExtract k ≠ [] → awaited k) :
    ({ m with patternIdx := m.patternIdx.Clear }).Awaits awaited :=
  ⟨h.valid, h.unclosed, fun k hk hpath => .inr (hall k hk hpath),
    fun _ _ hk => absurd hk PatternIndex.not_has_new⟩

/-- The key that is stored is the only one that may become cached. -/
theorem Awaits.set (cached : CachedResponse) (ttl : Int) :
    ({ m with cache := (m.cache.Set key cached ttl).2 }).Awaits fun k => awaited k ∨ k = key := by
  obtain ⟨hwrote, -⟩ := Set_spec h.valid h.unclosed key cached ttl
  refine ⟨hwrote.outcome.valid, hwrote.outcome.shape.closed.trans h.unclosed, fun k hk hpath => ?_,
    h.own⟩
  by_cases hkey : k = key
  · exact .inr (.inr hkey)
  · have hcached : m.Cached k := by
      obtain heq | hnone := hwrote.view k
      · rw [Function.update_of_ne hkey] at heq
        exact fun hnone => hk (heq.trans hnone)
      · exact absurd hnone hk
    exact (h.covers k hcached hpath).imp_right .inl

end

theorem addKey_frame (m : HTTPCacheMiddleware) (key : Bytes) :
    (m.addKey key).cache = m.cache ∧ (m.addKey key).pathExtract = m.pathExtract := by
  unfold HTTPCacheMiddleware.addKey
  split_ifs <;> exact ⟨rfl, rfl⟩

theorem removeKey_frame (m : HTTPCacheMiddleware) (key : Bytes) :
    (m.removeKey key).cache = m.cache ∧ (m.removeKey key).pathExtract = m.pathExtract := by
  unfold removeKey
  split_ifs <;> exact ⟨rfl, rfl⟩

variable {segs : List Bytes}

/-- A key with a path, at its place in the index. -/
theorem placed_iff :
    k = key ∧ m.pathExtract k ≠ [] ∧ segs = segments (m.pathExtract k) ↔
      m.pathExtract key ≠ [] ∧ segs = segments (m.pathExtract key) ∧ k = key := by
  constructor
  · rintro ⟨rfl, hpath, hsegs⟩
    exact ⟨hpath, hsegs, rfl⟩
  · rintro ⟨hpath, hsegs, rfl⟩
    exact ⟨rfl, hpath, hsegs⟩

theorem has_addKey : (m.addKey key).patternIdx.Has segs k ↔
    m.patternIdx.Has segs k ∨ k = key ∧ m.pathExtract k ≠ [] ∧
      segs = segments (m.pathExtract k) := by
  rw [placed_iff, addKey]
  split_ifs with hpath
  · simp [PatternIndex.has_AddKey, hpath]
  · simp [hpath]

theorem has_removeKey : (m.removeKey key).patternIdx.Has segs k ↔
    m.patternIdx.Has segs k ∧
      ¬(k = key ∧ m.pathExtract k ≠ [] ∧ segs = segments (m.pathExtract k)) := by
  rw [placed_iff, removeKey]
  split_ifs with hpath
  · simp [PatternIndex.has_RemoveKey, hpath]
  · simp [hpath]

/-- A key that is put into the index need no longer be awaited. -/
theorem Awaits.addKey (h : m.Awaits fun k => awaited k ∨ k = key) :
    (m.addKey key).Awaits awaited := by
  obtain ⟨hcache, hpath⟩ := addKey_frame m key
  refine ⟨hcache ▸ h.valid, hcache ▸ h.unclosed, fun k hk hne => ?_, fun segs k hk => ?_⟩
  · rw [Cached, hcache] at hk
    rw [hpath] at hne ⊢
    rw [has_addKey]
    obtain hhas | hwait | rfl := h.covers k hk hne
    · exact .inl (.inl hhas)
    · exact .inr hwait
    · exact .inl (.inr ⟨rfl, hne, rfl⟩)
  · rw [hpath]
    exact (has_addKey.mp hk).elim (h.own segs k) And.right

/-- A key that is not cached may leave the index, and so may one that is about to come back. -/
theorem Awaits.removeKey (h : m.Awaits awaited)
    (hgone : m.Cached key → m.pathExtract key ≠ [] → awaited key) :
    (m.removeKey key).Awaits awaited := by
  obtain ⟨hcache, hpath⟩ := removeKey_frame m key
  refine ⟨hcache ▸ h.valid, hcache ▸ h.unclosed, fun k hk hne => ?_, fun segs k hk => ?_⟩
  · rw [Cached, hcache] at hk
    rw [hpath] at hne ⊢
    by_cases hkey : k = key
    · subst hkey
      exact .inr (hgone hk hne)
    · exact (h.covers k hk hne).imp_left fun hhas =>
        has_removeKey.mpr ⟨hhas, fun hboth => hkey hboth.1⟩
  · rw [hpath]
    exact h.own segs k (has_removeKey.mp hk).1

end Awaits

section
variable (h : m.Indexed)
include h

theorem Indexed.now : ({ m with cache := m.cache.now.2 }).Indexed :=
  h.awaits.now.indexed fun _ => id

theorem Indexed.get : ({ m with cache := (m.cache.Get key).2 }).Indexed :=
  (h.awaits.get key).indexed fun _ => id

theorem Indexed.clear : m.Clear.Indexed := by
  obtain ⟨-, -, hview⟩ := Clear_spec h.valid h.unclosed
  exact (h.awaits.clearCache.clearIndex fun k hk => absurd (hview k) hk).indexed fun _ => id

/-- The key that is stored is put into the index. -/
theorem Indexed.store (cached : CachedResponse) (ttl : Int) : (m.store key cached ttl).Indexed :=
  (h.awaits.set key cached ttl).addKey.indexed fun _ => id

theorem Indexed.record (r : Request) (rw' : ResponseWriter) : (m.record r rw').Indexed := by
  simp only [HTTPCacheMiddleware.record]
  split_ifs
  · exact h.now.now.store _ _
  · exact h.now

theorem Indexed.middleware (next : Request → List ResponseAction) (w : Writer) (r : Request) :
    (m.Middleware next w r).2.Indexed := by
  cases hget : (m.cache.Get (m.keyGen r)).1 with
  | some cached =>
    rw [Middleware_of_hit hget]
    exact h.get.now
  | none =>
    rw [Middleware_of_miss hget]
    exact h.get.record r _

end

theorem Indexed.delete (h : m.Indexed) (key : Bytes) :
    ({ m with cache := (m.cache.Delete key).2 }).Indexed :=
  (h.awaits.delete key).indexed fun _ => id

structure Removes (keys : List Bytes) (n : Int) (m : HTTPCacheMiddleware)
    (r : Int × HTTPCacheMiddleware) : Prop where
  count : r.1 = n + (keys.filter fun k => (m.cache.view k).isSome).length
  view : ∀ k, r.2.cache.view k = if k ∈ keys then none else m.cache.view k
  indexed : r.2.Indexed
  path : r.2.pathExtract = m.pathExtract

theorem Indexed.invalidateKey (h : m.Indexed) (n : Int) (key : Bytes) :
    Removes [key] n m (invalidateKey (n, m) key) := by
  obtain ⟨-, hview, -⟩ := Delete_spec h.valid h.unclosed key
  have hfound := Delete_found h.valid h.unclosed key
  have hdeleted := h.delete key
  have hgone : ¬({ m with cache := (m.cache.Delete key).2 }).Cached key := fun hk => by
    apply hk
    simp [hview]
  have hnone : ∀ k, (m.cache.Delete key).2.view k = if k ∈ [key] then none else m.cache.view k := by
    intro k
    rw [hview]
    by_cases hkey : k = key
    · simp [hkey]
    · simp [hkey]
  cases hpresent : (m.cache.Delete key).1 with
  | true =>
    have heq : HTTPCacheMiddleware.invalidateKey (n, m) key =
        (n + 1, HTTPCacheMiddleware.removeKey { m with cache := (m.cache.Delete key).2 } key) := by
      simp [HTTPCacheMiddleware.invalidateKey, hpresent]
    obtain ⟨hcache, hpath⟩ := removeKey_frame { m with cache := (m.cache.Delete key).2 } key
    rw [heq]
    have hindexed := (hdeleted.awaits.removeKey fun hk => absurd hk hgone).indexed fun _ => id
    refine ⟨?_, fun k => by rw [hcache]; exact hnone k, hindexed, hpath⟩
    rw [filter_cons_of_pos (by rw [← hfound, hpresent])]
    rfl
  | false =>
    have heq : HTTPCacheMiddleware.invalidateKey (n, m) key =
        (n, { m with cache := (m.cache.Delete key).2 }) := by
      simp [HTTPCacheMiddleware.invalidateKey, hpresent]
    rw [heq]
    refine ⟨?_, hnone, hdeleted, rfl⟩
    rw [filter_cons_of_neg (by rw [← hfound, hpresent]; exact Bool.false_ne_true)]
    exact (Int.add_zero n).symm

theorem Indexed.invalidateKeys (h : m.Indexed) (n : Int) {keys : List Bytes} (hnodup : keys.Nodup) :
    Removes keys n m (keys.foldl HTTPCacheMiddleware.invalidateKey (n, m)) := by
  induction keys generalizing n m with
  | nil => exact ⟨(Int.add_zero n).symm, fun _ => rfl, h, rfl⟩
  | cons key keys ih =>
    obtain ⟨hnew, hrest⟩ := nodup_cons.mp hnodup
    have hone := h.invalidateKey n key
    have htail := ih hone.indexed (HTTPCacheMiddleware.invalidateKey (n, m) key).1 hrest
    rw [foldl_cons]
    refine ⟨?_, fun k => ?_, htail.indexed, htail.path.trans hone.path⟩
    · -- the keys that are left are untouched by the first deletion
      have hsame : keys.filter (fun k =>
          ((HTTPCacheMiddleware.invalidateKey (n, m) key).2.cache.view k).isSome) =
          keys.filter fun k => (m.cache.view k).isSome := by
        refine filter_congr fun k hk => ?_
        rw [hone.view, if_neg]
        rintro hkey
        exact hnew (mem_singleton.mp hkey ▸ hk)
      have hsplit : (key :: keys).filter (fun k => (m.cache.view k).isSome) =
          [key].filter (fun k => (m.cache.view k).isSome) ++
            keys.filter fun k => (m.cache.view k).isSome := filter_append [key] keys
      rw [htail.count, hone.count, hsame, hsplit, length_append]
      omega
    · rw [htail.view, hone.view]
      by_cases hkey : k = key
      · simp [hkey]
      · simp [hkey]

theorem Indexed.invalidate (h : m.Indexed) (urlPattern : Bytes) (pick : Nat → Nat) :
    Removes (m.patternIdx.GetMatchingKeys urlPattern pick) 0 m (m.Invalidate urlPattern pick) :=
  h.invalidateKeys 0 (PatternIndex.nodup_GetMatchingKeys fun segs k hk => (h.own segs k hk).2)

/-- What the listing of the keys and every deletion keep, `InvalidateByFunc` keeps. -/
theorem Indexed.invalidateByFunc_keeps (h : m.Indexed) {fn : Bytes → Bool}
    {P : HTTPCacheMiddleware → Prop} (hkeys : P { m with cache := m.cache.Keys.2 })
    (hdelete : ∀ (m : HTTPCacheMiddleware) key, fn key = true → m.Indexed → P m →
      P { m with cache := (m.cache.Delete key).2 }) :
    (m.InvalidateByFunc fn).2.Indexed ∧ P (m.InvalidateByFunc fn).2 := by
  obtain ⟨hout, hview, -⟩ := Keys_spec h.valid h.unclosed
  have hindexed : ({ m with cache := m.cache.Keys.2 }).Indexed :=
    (h.awaits.shrink hout fun k hk => by rwa [hview] at hk).indexed fun _ => id
  suffices hfold : ∀ (keys : List Bytes) (acc : Int × HTTPCacheMiddleware),
      acc.2.Indexed ∧ P acc.2 → (keys.foldl (invalidateKeyByFunc fn) acc).2.Indexed ∧
        P (keys.foldl (invalidateKeyByFunc fn) acc).2 from hfold _ _ ⟨hindexed, hkeys⟩
  intro keys
  induction keys with
  | nil => exact fun _ h => h
  | cons key keys ih =>
    intro acc hacc
    refine ih _ ?_
    unfold invalidateKeyByFunc
    split_ifs with hfn
    · exact ⟨hacc.1.delete key, hdelete acc.2 key hfn hacc.1 hacc.2⟩
    · exact hacc

theorem Indexed.invalidateByFunc (h : m.Indexed) (fn : Bytes → Bool) :
    (m.InvalidateByFunc fn).2.Indexed :=
  (h.invalidateByFunc_keeps (P := fun _ => True) trivial fun _ _ _ _ _ => trivial).1

theorem Indexed.step (h : m.Indexed) (op : Op) : (m.step op).Indexed := by
  cases op with
  | request next w r => exact h.middleware next w r
  | cleanup => exact h.awaits.cleanup.indexed fun _ => id
  | invalidate urlPattern pick => exact (h.invalidate urlPattern pick).indexed
  | invalidateByFunc fn => exact h.invalidateByFunc fn
  | clear => exact h.clear

theorem Indexed.run (h : m.Indexed) (ops : List Op) : (m.run ops).Indexed := by
  induction ops generalizing m with
  | nil => exact h
  | cons op ops ih => exact ih (h.step op)

/-- A middleware with a new cache and an empty index. -/
theorem indexed_configure {lib : HttpLib} {config : MiddlewareConfig} {numCPU : Int}
    {hasher : Bytes → UInt64} {wall : WallClock} {choice : Nat → Nat}
    (h : NewHTTPCacheMiddleware lib config numCPU hasher wall choice = some m)
    (keyGen : KeyGenerator) (extractor : Bytes → Bytes) (policy : CachePolicy) :
    (m.configure keyGen extractor policy).Indexed := by
  obtain ⟨cache, hcache, rfl⟩ := Option.map_eq_some_iff.mp h
  obtain ⟨hvalid, hopen, -⟩ := New_spec hcache
  exact ⟨hvalid, hopen, fun k hk => absurd (New_view hcache k) hk,
    fun segs k hk => absurd hk PatternIndex.not_has_new⟩

theorem store_path (cached : CachedResponse) (ttl : Int) :
    (m.store key cached ttl).pathExtract = m.pathExtract := (addKey_frame _ key).2

theorem record_path (r : Request) (rw' : ResponseWriter) :
    (m.record r rw').pathExtract = m.pathExtract := by
  simp only [HTTPCacheMiddleware.record]
  split_ifs
  · exact store_path _ _
  · rfl

theorem Indexed.invalidateByFunc_path (h : m.Indexed) (fn : Bytes → Bool) :
    (m.InvalidateByFunc fn).2.pathExtract = m.pathExtract :=
  (h.invalidateByFunc_keeps (P := fun m' => m'.pathExtract = m.pathExtract) rfl
    fun _ _ _ _ hpath => hpath).2

theorem Indexed.step_path (h : m.Indexed) (op : Op) : (m.step op).pathExtract = m.pathExtract := by
  cases op with
  | request next w r =>
    cases hget : (m.cache.Get (m.keyGen r)).1 with
    | some cached =>
      simp only [HTTPCacheMiddleware.step, Middleware_of_hit hget]
      rfl
    | none =>
      simp only [HTTPCacheMiddleware.step, Middleware_of_miss hget]
      exact record_path r _
  | invalidate urlPattern pick => exact (h.invalidate urlPattern pick).path
  | invalidateByFunc fn => exact h.invalidateByFunc_path fn
  | cleanup => rfl
  | clear => rfl

theorem Indexed.run_path (h : m.Indexed) (ops : List Op) :
    (m.run ops).pathExtract = m.pathExtract := by
  induction ops generalizing m with
  | nil => rfl
  | cons op ops ih => exact (ih (h.step op)).trans (h.step_path op)

section Exactness

/-- The keys whose path the pattern asks for. -/
def Asked (extractor : Bytes → Bytes) (urlPattern k : Bytes) : Prop :=
  extractor k ≠ [] ∧ Matches urlPattern (segments (extractor k))

/-- The cached keys that are asked for are deleted and counted, and nothing else changes. -/
def Exact (m : HTTPCacheMiddleware) (asked : Bytes → Prop) (r : Int × HTTPCacheMiddleware) : Prop :=
  ∃ deleted : List Bytes, deleted.Nodup ∧ (∀ k, k ∈ deleted ↔ m.Cached k ∧ asked k) ∧
    r.1 = deleted.length ∧ (∀ k ∈ deleted, r.2.cache.view k = none) ∧
    ∀ k ∉ deleted, r.2.cache.view k = m.cache.view k

theorem Indexed.mem_GetMatchingKeys (h : m.Indexed) {urlPattern : Bytes} {pick : Nat → Nat}
    (hk : m.Cached k) :
    k ∈ m.patternIdx.GetMatchingKeys urlPattern pick ↔ Asked m.pathExtract urlPattern k := by
  rw [PatternIndex.mem_GetMatchingKeys]
  constructor
  · rintro ⟨segs, hhas, hmatch⟩
    obtain ⟨hpath, rfl⟩ := h.own segs k hhas
    exact ⟨hpath, hmatch⟩
  · rintro ⟨hpath, hmatch⟩
    exact ⟨_, h.covers k hk hpath, hmatch⟩

theorem Indexed.exact (h : m.Indexed) (urlPattern : Bytes) (pick : Nat → Nat) :
    m.Exact (Asked m.pathExtract urlPattern) (m.Invalidate urlPattern pick) := by
  have hremoves := h.invalidate urlPattern pick
  have hnodup : (m.patternIdx.GetMatchingKeys urlPattern pick).Nodup :=
    PatternIndex.nodup_GetMatchingKeys fun segs k hk => (h.own segs k hk).2
  refine ⟨(m.patternIdx.GetMatchingKeys urlPattern pick).filter fun k => (m.cache.view k).isSome,
    hnodup.filter _, fun k => ?_, by rw [hremoves.count, Int.zero_add], fun k hk => ?_,
    fun k hk => ?_⟩
  · rw [mem_filter, Option.isSome_iff_ne_none, and_comm]
    exact and_congr_right fun hk => h.mem_GetMatchingKeys hk
  · rw [hremoves.view, if_pos (mem_filter.mp hk).1]
  · rw [hremoves.view]
    split_ifs with hfound
    · -- a key that is found and not cached has no entry before and after
      by_contra hne
      exact hk (mem_filter.mpr ⟨hfound, Option.isSome_iff_ne_none.mpr fun h => hne h.symm⟩)
    · rfl

variable {lib : HttpLib} {config : MiddlewareConfig} {numCPU : Int} {hasher : Bytes → UInt64}
  {wall : WallClock} {choice : Nat → Nat} {m₀ : HTTPCacheMiddleware}

/-- After any requests, evictions, expirations and invalidations. -/
theorem Invalidate_exact
    (hnew : NewHTTPCacheMiddleware lib config numCPU hasher wall choice = some m₀)
    (policy : CachePolicy) (ops : List Op) (urlPattern : Bytes) (pick : Nat → Nat) :
    ((m₀.configure KeyWithoutQuery PathExtractorFromKey policy).run ops).Exact
      (Asked PathExtractorFromKey urlPattern)
      (((m₀.configure KeyWithoutQuery PathExtractorFromKey policy).run ops).Invalidate urlPattern
        pick) := by
  have hstart := indexed_configure hnew KeyWithoutQuery PathExtractorFromKey policy
  have hexact := (hstart.run ops).exact urlPattern pick
  rwa [hstart.run_path] at hexact

def plainLib : HttpLib := ⟨fun _ => none, fun _ => [], fun _ => [], id⟩

def getRequest (path : String) : Request := ⟨ascii "GET", ⟨ascii path, ascii path⟩, .empty⟩

def pages : List Op :=
  [.request (fun _ => [.WriteHeader 200]) .fresh (getRequest "/api/a"),
    .request (fun _ => [.Write [1]]) .fresh (getRequest "/b"),
    .request (fun _ => [.Write [2]]) .fresh (getRequest "//api/c/"), .cleanup]

def smallMiddleware : MiddlewareConfig :=
  { DefaultMiddlewareConfig with MaxSize := 4, ShardCount := 1 }

@[irreducible] def small : HTTPCacheMiddleware :=
  (NewHTTPCacheMiddleware plainLib smallMiddleware 1 (fun _ => 0) ⟨fun n => n, 0⟩ id).get rfl

theorem new_small :
    NewHTTPCacheMiddleware plainLib smallMiddleware 1 (fun _ => 0) ⟨fun n => n, 0⟩ id =
      some small := by
  unfold small
  rfl

def cachesAll (m : HTTPCacheMiddleware) : HTTPCacheMiddleware :=
  m.configure KeyWithoutQuery PathExtractorFromKey fun _ _ _ _ _ => (true, 0)

theorem Invalidate_exact_api :
    let m := small.cachesAll.run pages
    m.Exact (Asked PathExtractorFromKey (ascii "/api/*")) (m.Invalidate (ascii "/api/*") id) ∧
      (m.Invalidate (ascii "/api/*") id).1 = 2 :=
  ⟨Invalidate_exact new_small _ pages (ascii "/api/*") id, by decide +kernel⟩

end Exactness

end HTTPCacheMiddleware

end Kioshun
