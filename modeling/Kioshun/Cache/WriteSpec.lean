import Kioshun.Cache.OpSpec

/-!
# `Set` and `Import`

A write puts one entry under its key. Other entries may be evicted, and under
AdmissionLFU the write itself may be refused, but only when the capacity is
limited and the key is absent.
-/

namespace Kioshun

open CellStore WallClock Function Locked

universe u v
variable {K : Type u} {V : Type v} [DecidableEq K]

namespace InMemoryCache

def HasRoom (c : InMemoryCache K V) (k : K) : Prop :=
  c.perShardCap ≤ 0 ∨ c.view k ≠ none ∨
    ∀ s, c.shards[c.home k]? = some s → s.size < c.perShardCap

structure Wrote (k : K) (e : V × Int) (c c' : InMemoryCache K V) : Prop where
  outcome : Outcome c c'
  view : ∀ k', c'.view k' = update c.view k (some e) k' ∨ c'.view k' = none
  exact : HasRoom c k → c'.view = update c.view k (some e)

variable {c c' : InMemoryCache K V} {s : Shard K} {k : K}

theorem Valid.wrote_put {e : V × Int} {t : Locked K V} (h : Valid c)
    (hs : c.shards[c.home k]? = some s)
    (hst : Stores c.config.evictionPolicy (fun k' => c.home k' = c.home k) c.perShardCap k e
      (c.locked s) t)
    (hl : Later c.rt.wall t.rt.wall) : Wrote k e c (c.put (c.home k) t) where
  outcome := h.outcome_put hs hst.step hl hst.capacity
  view := by
    intro k'
    rw [h.view_put hs hst.step]
    by_cases hk : c.home k' = c.home k
    · rw [if_pos hk]
      have hv := hst.view.1 k'
      have hold : c.view k' = (c.locked s).view k' := view_of_shard (by rw [hk]; exact hs)
      by_cases hkk : k' = k
      · subst hkk
        simpa using hv
      · rw [update_of_ne hkk] at hv ⊢
        rw [hold]
        exact hv
    · have hkk : k' ≠ k := by
        rintro rfl
        exact hk rfl
      rw [if_neg hk, update_of_ne hkk]
      exact .inl rfl
  exact := by
    intro hroom
    refine h.view_put_update hs hst.step rfl (hst.view.2 ?_)
    rcases hroom with hcap | hne | hless
    · exact .inl (.inl hcap)
    · refine .inr fun hnone => hne ?_
      rw [view_of_shard hs]
      exact view_eq_none.mpr hnone
    · exact .inl (.inr (hless s hs))

variable [Inhabited V]

theorem Set_eq_put (hopen : c.closed = false) (hs : c.shards[c.home k]? = some s) (value : V)
    (ttl : Int) :
    c.Set k value ttl = (.ok (), c.now.2.put (c.home k)
      ((c.now.2.locked s).setSection c.config c.perShardCap k (c.hasher k) value c.now.1
        (stamp c.config c.now.1 ttl))) := by
  have hs' : c.now.2.shards[c.home k]? = some s := hs
  simp only [Set, hopen, Bool.false_eq_true, if_false, updateShard_eq hs']

theorem Set_spec (h : Valid c) (hopen : c.closed = false) (k : K) (value : V) (ttl : Int) :
    Wrote k (value, stamp c.config c.now.1 ttl) c (c.Set k value ttl).2 ∧
      (c.Set k value ttl).1 = .ok () := by
  obtain ⟨hnow, hview⟩ := h.now
  obtain ⟨s, hs⟩ := hnow.valid.home_shard k
  have hst : Stores c.now.2.config.evictionPolicy
      (fun k' => c.now.2.home k' = c.now.2.home k) c.now.2.perShardCap k
      (value, stamp c.config c.now.1 ttl) (c.now.2.locked s)
      ((c.now.2.locked s).setSection c.config c.perShardCap k (c.hasher k) value c.now.1
        (stamp c.config c.now.1 ttl)) :=
    setSection_spec (hnow.valid.shard _ s hs) rfl ..
  have hw := hnow.valid.wrote_put hs hst (later_setSection (c.now.2.locked s) _ ..)
  rw [Set_eq_put hopen hs]
  refine ⟨⟨hnow.trans hw.outcome, ?_, ?_⟩, rfl⟩
  · rw [← hview]
    exact hw.view
  · intro hroom
    have hroom' : HasRoom c.now.2 k := by
      rw [HasRoom, hview]
      exact hroom
    rw [← hview]
    exact hw.exact hroom'

theorem Set_reads (h : Valid c) (hopen : c.closed = false) (k : K) (value : V) (ttl : Int) :
    Reads c (c.Set k value ttl).2 c.now.1 := by
  obtain ⟨s, hs⟩ := h.home_shard k
  rw [Set_eq_put hopen hs]
  exact ⟨c.rt.wall.ticks, Nat.le_refl _, (later_setSection (c.now.2.locked s) _ ..).ticks, rfl⟩

theorem importOne_spec (h : Valid c) (now : Int) (it : Item K V) :
    Wrote it.Key (it.Val, it.ExpireAbs) c (importOne now c it) ∧
      (importOne now c it).rt.wall = c.rt.wall ∧
      (importOne now c it).view it.Key = some (it.Val, it.ExpireAbs) := by
  obtain ⟨s, hs⟩ := h.home_shard it.Key
  have hst : Stores c.config.evictionPolicy (fun k' => c.home k' = c.home it.Key)
      c.perShardCap it.Key (it.Val, it.ExpireAbs) (c.locked s)
      ((c.locked s).importSection c.config c.perShardCap it.Key it.Val now it.ExpireAbs) ∧
      ((c.locked s).importSection c.config c.perShardCap it.Key it.Val now it.ExpireAbs).view
        it.Key = some (it.Val, it.ExpireAbs) :=
    importSection_spec (h.shard _ s hs) rfl it.Val now it.ExpireAbs
  have hwall := wall_importSection (c.locked s) c.config c.perShardCap it.Key it.Val now
    it.ExpireAbs
  rw [importOne, updateShard_eq hs]
  refine ⟨h.wrote_put hs hst.1 (Later.of_eq hwall), hwall, ?_⟩
  rw [h.view_put hs hst.1.step, if_pos rfl]
  exact hst.2

/-- The map after importing `items` into a map that nothing is evicted from. -/
def imported (items : List (Item K V)) (view : K → Option (V × Int)) : K → Option (V × Int) :=
  items.foldl (fun v it => update v it.Key (some (it.Val, it.ExpireAbs))) view

omit [Inhabited V] in
/-- A relation between entries that every entry has to itself holds after an import if it held
before. -/
theorem imported_rel {R : Option (V × Int) → Option (V × Int) → Prop} (hrefl : ∀ x, R x x)
    (items : List (Item K V)) {v v' : K → Option (V × Int)} (h : ∀ k, R (v k) (v' k)) (k : K) :
    R (imported items v k) (imported items v' k) := by
  induction items generalizing v v' with
  | nil => exact h k
  | cons it items ih =>
    refine ih fun k' => ?_
    by_cases hk : k' = it.Key
    · subst hk
      simpa using hrefl _
    · simpa [hk] using h k'

theorem foldl_importOne (now : Int) (items : List (Item K V)) (h : Valid c) :
    Outcome c (items.foldl (importOne now) c) ∧
      (items.foldl (importOne now) c).rt.wall = c.rt.wall ∧
      (∀ k, (items.foldl (importOne now) c).view k = imported items c.view k ∨
        (items.foldl (importOne now) c).view k = none) ∧
      (c.perShardCap ≤ 0 → (items.foldl (importOne now) c).view = imported items c.view) := by
  induction items generalizing c with
  | nil => exact ⟨Outcome.refl h, rfl, fun k => .inl rfl, fun _ => rfl⟩
  | cons it items ih =>
    obtain ⟨hw, hwall, -⟩ := importOne_spec h now it
    obtain ⟨hout, hwall', hview, hexact⟩ := ih hw.outcome.valid
    refine ⟨hw.outcome.trans hout, hwall'.trans hwall, fun k => ?_, fun hcap => ?_⟩
    · rcases hview k with hk | hk
      · have hmono := imported_rel (R := fun x y => x = y ∨ x = none) (fun _ => .inl rfl) items
          hw.view k
        rw [← hk] at hmono
        exact hmono
      · exact .inr hk
    · have hcap' : (importOne now c it).perShardCap ≤ 0 := by
        rw [hw.outcome.shape.cap]
        exact hcap
      rw [List.foldl_cons, hexact hcap', hw.exact (.inl hcap)]
      rfl

/-- An item imported alone is stored in any case. -/
theorem Import_single (h : Valid c) (it : Item K V) :
    (c.Import [it]).view it.Key = some (it.Val, it.ExpireAbs) :=
  (importOne_spec h.now.1.valid c.now.1 it).2.2

theorem Import_spec (h : Valid c) (items : List (Item K V)) :
    Outcome c (c.Import items) ∧ (c.Import items).rt.wall = c.rt.wall.now.2 ∧
      (∀ k, (c.Import items).view k = imported items c.view k ∨ (c.Import items).view k = none) ∧
      (c.perShardCap ≤ 0 → (c.Import items).view = imported items c.view) := by
  obtain ⟨hnow, hview⟩ := h.now
  obtain ⟨hout, hwall, hle, hexact⟩ := foldl_importOne c.now.1 items hnow.valid
  rw [hview] at hle hexact
  exact ⟨hnow.trans hout, hwall, hle, hexact⟩

end InMemoryCache

end Kioshun
