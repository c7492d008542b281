import Kioshun.Cache.Snapshot

/-!
# A closed cache

Once `Close` has returned the cache should be empty for good. Every operation looks at the flag
except `Export`, which only reads, and `Import`: items that are imported into a closed cache are
stored, cannot be read and are never removed.
-/

namespace Kioshun

open WallClock Schedule List

universe u v
variable {K : Type u} {V : Type v} [DecidableEq K] [Inhabited V]

namespace InMemoryCache

structure Shut (c : InMemoryCache K V) : Prop where
  empty : ∀ s ∈ c.shards, s.data = ∅ ∧ s.size = 0
  size : c.Size = 0
  set : ∀ key value ttl, (c.Set key value ttl).1 = .error .ErrCacheClosed ∧
    (c.SetWithCallback key value ttl).1 = .error .ErrCacheClosed
  get : ∀ key, (c.Get key).1 = none ∧ (c.GetWithTTL key).1 = none ∧ (c.Exists key).1 = false ∧
    (c.Delete key).1 = false
  list : c.Keys.1 = [] ∧ ∀ selectFn max, (c.Export selectFn max).1 = []

def ImportsOpen (c : InMemoryCache K V) : PublicOp K V → Prop
  | .op (.import_ items) => c.closed = true → items = []
  | _ => True

variable {c : InMemoryCache K V}

omit [Inhabited V] in
/-- Empty shards are those of a cache without entries. -/
theorem Valid.empty_iff (h : Valid c) :
    (∀ s ∈ c.shards, s.data = ∅ ∧ s.size = 0) ↔ ∀ k, c.view k = none := by
  constructor
  · intro hempty k
    obtain ⟨s, hs⟩ := h.home_shard k
    rw [view_of_shard hs]
    apply Locked.view_eq_none.mpr
    show s.data.lookup k = none
    rw [(hempty s (mem_of_getElem? hs)).1]
    rfl
  · intro hview s hs
    obtain ⟨i, hi⟩ := mem_iff_getElem?.mp hs
    have hkeys : s.data.keys = [] := by
      refine eq_nil_iff_forall_not_mem.mpr fun k hk => ?_
      exact ((h.mem_keys hi k).mp hk).2 (hview k)
    refine ⟨AList.ext (map_eq_nil_iff.mp hkeys), ?_⟩
    rw [h.size_keys hi, hkeys]
    rfl

omit [Inhabited V] in
theorem Export_empty (h : Valid c) (hview : ∀ k, c.view k = none) (selectFn : K → Bool)
    (max : Nat) : (c.Export selectFn max).1 = [] := by
  have hall : (c.Export selectFn 0).1 = [] := by
    refine eq_nil_iff_forall_not_mem.mpr fun it hit => ?_
    have hsome := (((Export_items h selectFn).2 it.Key _).mp ⟨it, hit, rfl, rfl⟩).1
    rw [hview it.Key] at hsome
    cases hsome
  rw [Export_limit h, hall, limit]
  split
  · rfl
  · exact take_nil

/-- A closed cache without entries is all that is expected. -/
theorem Valid.shut (h : Valid c) (hclosed : c.closed = true) (hview : ∀ k, c.view k = none) :
    c.Shut := by
  have hempty := h.empty_iff.mpr hview
  refine ⟨hempty, ?_, fun key value ttl => ?_, fun key => ?_, ?_, Export_empty h hview⟩
  · apply sum_eq_zero
    intro x hx
    obtain ⟨s, hs, rfl⟩ := mem_map.mp hx
    exact (hempty s hs).2
  · simp [Set, SetWithCallback, hclosed]
  · simp [Get, GetWithTTL, get, Exists, Delete, hclosed]
  · simp [Keys, hclosed]

/-- Importing items leaves the last of them in the cache. -/
theorem Import_ne_nil (h : Valid c) {items : List (Item K V)} (hne : items ≠ []) :
    ∃ k, (c.Import items).view k ≠ none := by
  obtain ⟨init, it, rfl⟩ := (eq_nil_or_concat items).resolve_left hne
  have hvalid := (foldl_importOne c.now.1 init h.now.1.valid).1.valid
  refine ⟨it.Key, ?_⟩
  rw [Import, concat_eq_append, foldl_append, foldl_cons, foldl_nil,
    (importOne_spec hvalid c.now.1 it).2.2]
  exact Option.some_ne_none _

/-- On a closed cache nothing but `Import` changes the entries. -/
theorem view_invoke_closed (h : Valid c) (hclosed : c.closed = true) {x : PublicOp K V}
    (hx : ∀ items, x = .op (.import_ items) → items = []) : (c.invoke x).view = c.view := by
  rcases invoke_closed hclosed x with hsame | ⟨items, rfl⟩ | ⟨selectFn, max, rfl⟩
  · rw [hsame]
  · obtain rfl := hx items rfl
    exact h.now.2
  · exact (Export_spec h selectFn max).2

/-- A closed cache stays empty exactly as long as nothing is imported. -/
theorem empty_invoke_iff (h : Valid c) (hc : c.closed = true → ∀ k, c.view k = none)
    (x : PublicOp K V) :
    ((c.invoke x).closed = true → ∀ k, (c.invoke x).view k = none) ↔ c.ImportsOpen x := by
  cases hclosed : c.closed with
  | false =>
    have hguard : c.ImportsOpen x := by
      unfold ImportsOpen
      split
      · simp [hclosed]
      · trivial
    refine iff_of_true (fun hflag => ?_) hguard
    rcases (closed_invoke h x).mp hflag with htrue | rfl
    · cases hclosed.symm.trans htrue
    · exact (Close_spec h hclosed).2
  | true =>
    constructor
    · intro hempty
      have hflag := (closed_invoke h x).mpr (.inl hclosed)
      unfold ImportsOpen
      split
      · rename_i items
        intro _
        by_contra hne
        obtain ⟨k, hk⟩ := Import_ne_nil h hne
        exact hk (hempty hflag k)
      · trivial
    · intro hguard _ k
      rw [view_invoke_closed h hclosed]
      · exact hc hclosed k
      · rintro items rfl
        exact hguard hclosed

/-- In every run, from the first `Close` on, the cache is empty, refuses to store and finds nothing,
exactly if no items are imported into the closed cache. -/
theorem shut_iff_importsOpen {config : Config} {numCPU : Int} {hasher : K → UInt64}
    {wall : WallClock} {choice : Nat → Nat} (hnew : New config numCPU hasher wall choice = some c)
    (ops : List (PublicOp K V)) :
    (∀ done, done <+: ops → .close ∈ done → (c.serve done).Shut) ↔
      Along invoke ImportsOpen c ops := by
  obtain ⟨hv, hopen, -⟩ := New_spec hnew
  have hflag : ∀ done, (c.serve done).closed = true ↔ .close ∈ done := fun done =>
    (closed_serve hv done).trans (by simp [hopen])
  have hruns : (∀ done, done <+: ops → (c.serve done).closed = true →
      ∀ k, (c.serve done).view k = none) ↔ Along invoke ImportsOpen c ops := by
    apply prefixes_iff_along (I := Valid)
      (Q := fun c => c.closed = true → ∀ k, c.view k = none)
    · exact fun _ x h => (invoke_outcome h x).valid
    · exact fun _ x h hc => empty_invoke_iff h hc x
    · exact hv
    · intro htrue
      cases hopen.symm.trans htrue
  rw [← hruns]
  constructor
  · intro hshut done hdone htrue
    have hvalid := serve_valid hv done
    exact hvalid.empty_iff.mp (hshut done hdone ((hflag done).mp htrue)).empty
  · intro hempty done hdone hclose
    have htrue := (hflag done).mpr hclose
    exact (serve_valid hv done).shut htrue (hempty done hdone htrue)

theorem shut_iff_importsOpen_small :
    let c := small .AdmissionLFU fun n => n
    ∀ done, done <+: [.op (.set 1 10 0), .close, .op (.set 2 20 0), .op (.import_ [])] →
      .close ∈ done → (c.serve done).Shut :=
  (shut_iff_importsOpen (New_small ..) _).mpr (by simp [Along, ImportsOpen])

/-- An item imported after `Close` is counted and kept although it cannot be read. -/
theorem import_after_close :
    let closed := (small .LRU fun n => n).serve [.op (.set 1 10 0), .close]
    let after := closed.serve [.op (.import_ [⟨2, 20, 0, 0⟩]), .op .clear, .close]
    (closed.Size, after.closed, after.Size, (after.Get 2).1) = (0, true, 1, none) := by
  decide +kernel

end InMemoryCache

end Kioshun
