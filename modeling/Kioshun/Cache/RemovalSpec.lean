import Kioshun.Cache.SectionSpec

/-!
# Sections that remove entries

`Delete` and `Exists` drop at most the entry they are called for, `cleanup` drops
exactly the expired entries, and `Clear` drops everything.
-/

namespace Kioshun

open CellStore List

universe u v
variable {K : Type u} {V : Type v}

namespace Locked

variable {policy : EvictionPolicy} {home : K → Prop} {c c' c'' : Locked K V} {k : K}
  {a : Addr} [DecidableEq K]

theorem deleteSection_spec (h : Valid policy home c) (k : K) :
    (c.sh.data.lookup k = none ∧ c.deleteSection policy k = (false, c)) ∨
      ∃ a, c.sh.data.lookup k = some a ∧ (c.deleteSection policy k).1 = true ∧
        Discards k a c (c.deleteSection policy k).2 ∧
        (c.deleteSection policy k).2.Indexed policy := by
  unfold deleteSection
  cases hk : c.sh.data.lookup k with
  | none => exact .inl ⟨rfl, rfl⟩
  | some a =>
    obtain ⟨hd, hi⟩ := discard_spec h hk
    exact .inr ⟨a, rfl, rfl, hd, hi⟩

theorem existsSection_spec (cfg : Config) (h : Valid cfg.evictionPolicy home c) (k : K)
    (now : Int) :
    (c.sh.data.lookup k = none ∧ c.existsSection cfg k now = (false, c)) ∨
      ∃ a, c.sh.data.lookup k = some a ∧
        (((c.body a).expired now = false ∧ c.existsSection cfg k now = (true, c)) ∨
          ((c.body a).expired now = true ∧ (c.existsSection cfg k now).1 = false ∧
            Discards k a c (c.existsSection cfg k now).2 ∧
            (c.existsSection cfg k now).2.Indexed cfg.evictionPolicy)) := by
  unfold existsSection
  cases hk : c.sh.data.lookup k with
  | none => exact .inl ⟨rfl, rfl⟩
  | some a =>
    refine .inr ⟨a, rfl, ?_⟩
    cases he : (c.body a).expired now with
    | false => exact .inl ⟨rfl, by simp [he]⟩
    | true =>
      obtain ⟨hd, hi⟩ := discard_spec h hk
      have hq := countExpiration_quiet (c := c.discard cfg.evictionPolicy k a) cfg.statsEnabled
      simp only [he, if_true]
      exact .inr ⟨trivial, trivial, hd.quiet hq, hq.indexed (lfuList_countExpiration _) hi⟩

theorem cleanupScan_spec (now : Int) (acc : List K × Locked K V)
    (entry : Sigma fun _ : K => Addr) (h : Valid policy home acc.2)
    (hm : entry.2 ∈ acc.2.sh.items) :
    Keeps home acc.2 (cleanupScan now policy acc entry).2 ∧
      (cleanupScan now policy acc entry).2.Indexed policy ∧
      (cleanupScan now policy acc entry).1 =
        acc.1 ++ if (acc.2.body entry.2).expired now then [entry.1] else [] := by
  unfold cleanupScan
  split_ifs with hexp hage
  · exact ⟨Keeps.refl h.core, h.indexed, rfl⟩
  · refine ⟨Keeps.assign h.core hm (fun _ => rfl) (fun _ => rfl) fun _ => rfl, ?_,
      (append_nil _).symm⟩
    have hp : policy ≠ .LFU := by
      rw [hage.1]
      decide
    exact indexed_of_none hp (h.indexed.none hp)
  · exact ⟨Keeps.refl h.core, h.indexed, (append_nil _).symm⟩

/-- The first loop changes metadata only and collects the keys of the expired entries. -/
theorem foldl_cleanupScan (now : Int) (l : List (Sigma fun _ : K => Addr))
    (acc : List K × Locked K V) (h : Valid policy home acc.2)
    (hm : ∀ e ∈ l, e.2 ∈ acc.2.sh.items) :
    Keeps home acc.2 (l.foldl (cleanupScan now policy) acc).2 ∧
      (l.foldl (cleanupScan now policy) acc).2.Indexed policy ∧
      (l.foldl (cleanupScan now policy) acc).1 =
        acc.1 ++ (l.filter fun e => (acc.2.body e.2).expired now).map Sigma.fst := by
  induction l generalizing acc with
  | nil => exact ⟨Keeps.refl h.core, h.indexed, by simp⟩
  | cons e l ih =>
    obtain ⟨hk, hi, hkeys⟩ := cleanupScan_spec now acc e h (hm e mem_cons_self)
    obtain ⟨hk', hi', hkeys'⟩ := ih (cleanupScan now policy acc e) ⟨hk.evolves.core, hi⟩
      (fun x hx => by rw [hk.items]; exact hm x (mem_cons_of_mem _ hx))
    refine ⟨hk.trans hk', hi', ?_⟩
    have hsame : ∀ x, ((cleanupScan now policy acc e).2.body x).expired now =
        (acc.2.body x).expired now := by
      intro x
      simp only [ItemBody.expired, hk.sheds.expireTime]
    rw [foldl_cons, hkeys', hkeys]
    simp only [hsame, filter_cons, append_assoc]
    split_ifs <;> simp

theorem cleanupDrop_spec (h : Valid policy home c) (stats : Bool) (key : K) :
    Step policy home c (c.cleanupDrop policy stats key) ∧
      Sheds c (c.cleanupDrop policy stats key) ∧
      ∀ k, (c.cleanupDrop policy stats key).sh.data.lookup k =
        if k = key then none else c.sh.data.lookup k := by
  unfold cleanupDrop
  cases hk : c.sh.data.lookup key with
  | none =>
    refine ⟨Step.refl h, Sheds.refl c, fun k => ?_⟩
    split_ifs with he
    · rw [he]
      exact hk
    · rfl
  | some a =>
    obtain ⟨hd, hi⟩ := discard_spec h hk
    have hq := countExpiration_quiet (c := c.discard policy key a) stats
    have hd' := hd.quiet hq
    refine ⟨⟨hd'.evolves h.core hk, hq.indexed (lfuList_countExpiration _) hi⟩,
      hd'.sheds h.core hk, fun k => ?_⟩
    simp only [hd'.data]
    split_ifs with he
    · rw [he]
      exact AList.lookup_erase _ _
    · exact AList.lookup_erase_ne he

theorem foldl_cleanupDrop (stats : Bool) (keys : List K) (h : Valid policy home c) :
    Step policy home c (keys.foldl (cleanupDrop policy stats) c) ∧
      Sheds c (keys.foldl (cleanupDrop policy stats) c) ∧
      ∀ k, (keys.foldl (cleanupDrop policy stats) c).sh.data.lookup k =
        if k ∈ keys then none else c.sh.data.lookup k := by
  induction keys generalizing c with
  | nil => exact ⟨Step.refl h, Sheds.refl c, fun k => by simp⟩
  | cons key keys ih =>
    obtain ⟨hstep, hsheds, hl⟩ := cleanupDrop_spec h stats key
    obtain ⟨hstep', hsheds', hl'⟩ := ih hstep.valid
    refine ⟨hstep.trans hstep', hsheds.trans hsheds', fun k => ?_⟩
    rw [foldl_cons, hl', hl]
    by_cases h1 : k ∈ keys
    · simp [h1]
    · by_cases h2 : k = key
      · simp [h2]
      · simp [h1, h2]

/-- `cleanup` keeps exactly the entries that are unexpired at its time anchor. -/
theorem cleanup_spec (h : Valid policy home c) (now : Int) (stats : Bool) :
    Step policy home c (c.cleanup now policy stats) ∧ Sheds c (c.cleanup now policy stats) ∧
      ∀ k, (c.cleanup now policy stats).view k = (c.view k).filter (live now) := by
  have hq : Quiet c { c with rt := (c.rt.iterate c.sh.data.entries).2 } :=
    ⟨rfl, rfl, rfl, rfl, rfl, rfl⟩
  have hmem : ∀ e, e ∈ (c.rt.iterate c.sh.data.entries).1 ↔ e ∈ c.sh.data.entries :=
    fun e => Iteration.mem_shuffle
  obtain ⟨hk, hi, hkeys⟩ := foldl_cleanupScan now (c.rt.iterate c.sh.data.entries).1
    ([], { c with rt := (c.rt.iterate c.sh.data.entries).2 }) ((hq.step rfl h).valid)
    (fun e he => mem_map_of_mem ((hmem e).mp he))
  have hcol : ∀ k a, c.sh.data.lookup k = some a →
      (k ∈ ((c.rt.iterate c.sh.data.entries).1.foldl (cleanupScan now policy)
        ([], { c with rt := (c.rt.iterate c.sh.data.entries).2 })).1 ↔
          (c.body a).expired now = true) := by
    intro k a hka
    rw [hkeys, nil_append, mem_map]
    constructor
    · rintro ⟨e, he, rfl⟩
      obtain ⟨hein, hexp⟩ := mem_filter.mp he
      have hl := AList.mem_lookup_iff.mpr ((hmem e).mp hein)
      rw [hka] at hl
      rw [Option.some.inj hl]
      exact hexp
    · intro hexp
      exact ⟨⟨k, a⟩, mem_filter.mpr ⟨(hmem _).mpr (AList.mem_lookup_iff.mp hka), hexp⟩, rfl⟩
  unfold cleanup
  simp only
  generalize (c.rt.iterate c.sh.data.entries).1.foldl (cleanupScan now policy)
    ([], { c with rt := (c.rt.iterate c.sh.data.entries).2 }) = scanned at hk hi hcol
  obtain ⟨hstep, hsheds, hl⟩ := foldl_cleanupDrop stats scanned.1 ⟨hk.evolves.core, hi⟩
  have hkeep : Keeps home c scanned.2 := (Keeps.of_quiet hq h.core).trans hk
  refine ⟨⟨hkeep.evolves.trans hstep.evolves, hstep.indexed⟩, hkeep.sheds.trans hsheds, ?_⟩
  intro k
  have hlk := hl k
  rw [hkeep.data] at hlk
  cases hka : c.sh.data.lookup k with
  | none =>
    rw [view_eq_none.mpr hka, view_eq_none.mpr (by rw [hlk, hka, ite_self])]
    rfl
  | some a =>
    rw [view_of_lookup hka]
    have hiff := hcol k a hka
    by_cases hexp : (c.body a).expired now = true
    · rw [if_pos (hiff.mpr hexp)] at hlk
      rw [view_eq_none.mpr hlk, Option.filter_some, live_body, hexp]
      rfl
    · rw [if_neg (mt hiff.mp hexp), hka] at hlk
      rw [Bool.not_eq_true] at hexp
      rw [view_of_lookup hlk, hsheds.value, hsheds.expireTime, hkeep.sheds.value,
        hkeep.sheds.expireTime, Option.filter_some, live_body, hexp]
      rfl

section Clear
omit [DecidableEq K] in
theorem foldl_poolPut (l : List (Sigma fun _ : K => Addr)) (rt : Runtime K V) :
    l.foldl (fun rt e => rt.poolPut e.2) rt =
      { rt with pool := (l.map Sigma.snd).reverse ++ rt.pool } := by
  induction l generalizing rt with
  | nil => rfl
  | cons e l ih => rw [foldl_cons, ih]; simp [Runtime.poolPut]

variable [Inhabited V]

section
omit [DecidableEq K]

/-- The pool after `Clear`: every item of the shard in front of what was there. -/
theorem clearSection_pool (policy : EvictionPolicy) (c : Locked K V) :
    ∃ l : List Addr, l.Perm c.sh.items ∧
    (c.clearSection policy).rt.pool = l ++ c.rt.pool ∧
    (c.clearSection policy).rt.mem = (initLRU c.rt.mem Runtime.zeroBody).2 ∧
    (c.clearSection policy).rt.wall = c.rt.wall ∧
    (c.clearSection policy).sh.head = c.rt.mem.brk ∧
    (c.clearSection policy).sh.tail = c.rt.mem.brk + 1 := by
  refine ⟨((c.rt.iterate c.sh.data.entries).1.map Sigma.snd).reverse, ?_, ?_, ?_, ?_, ?_, ?_⟩
  · have hshuffle : (c.rt.iterate c.sh.data.entries).1.Perm c.sh.data.entries :=
      Iteration.shuffle_perm _ _
    exact (reverse_perm _).trans (hshuffle.map Sigma.snd)
  all_goals
    simp only [clearSection, foldl_poolPut]
    rfl

theorem clearSection_brk (policy : EvictionPolicy) (c : Locked K V) :
    (c.clearSection policy).rt.mem.brk = c.rt.mem.brk + 2 := by
  obtain ⟨-, -, -, hmem, -⟩ := clearSection_pool policy c
  rw [hmem]
  rfl

theorem clearSection_cells {x : Addr} (hx : x ∈ (c.clearSection policy).sh.cells) :
    c.rt.mem.brk ≤ x ∧ x < c.rt.mem.brk + 2 := by
  obtain ⟨-, -, -, -, -, hhead, htail⟩ := clearSection_pool policy c
  have hitems : (c.clearSection policy).sh.items = [] := rfl
  simp only [Shard.cells, hitems, hhead, htail, mem_cons, not_mem_nil, or_false] at hx
  rcases hx with rfl | rfl
  · exact ⟨Nat.le_refl _, Nat.lt_add_of_pos_right (by decide)⟩
  · exact ⟨Nat.le_succ _, Nat.lt_succ_self _⟩

end

theorem clearSection_core (h : Core home c) : Core home (c.clearSection policy) := by
  obtain ⟨l, hp, hpool, hmem, -, hhead, htail⟩ := clearSection_pool policy c
  have hcell : ∀ x ∈ l, x ∈ c.sh.cells := fun x hx =>
    Shard.mem_cells_of_mem_items (hp.mem_iff.mp hx)
  have hlt : ∀ x ∈ (c.clearSection policy).rt.pool, x < c.rt.mem.brk := by
    intro x hx
    rw [hpool] at hx
    exact (mem_append.mp hx).elim (fun hx => h.bound x (hcell x hx)) (h.poolBound x)
  refine ⟨⟨[], ?_, List.Perm.refl []⟩, ?_, ?_, rfl, ?_, ?_, ?_, ?_, ?_⟩
  · rw [hmem, hhead, htail]
    exact initLRU_rep c.rt.mem Runtime.zeroBody
  · intro k a hk
    cases hk
  · intro k a hk
    cases hk
  · intro x hx
    rw [clearSection_brk]
    exact (clearSection_cells hx).2
  · intro x hx hx'
    exact Nat.lt_irrefl _ (Nat.lt_of_lt_of_le (hlt x hx') (clearSection_cells hx).1)
  · rw [hpool]
    refine nodup_append.mpr ⟨hp.nodup_iff.mpr h.items_nodup, h.poolNodup, ?_⟩
    rintro x hx y hy rfl
    exact h.unpooled x (hcell x hx) hy
  · intro x hx
    rw [clearSection_brk]
    exact Nat.lt_add_right 2 (hlt x hx)
  · rw [hmem]
    exact h.unfaulted

omit [DecidableEq K] in
/-- A cell of another shard stays what it is. -/
theorem clearSection_foreign {x : Addr} (hx : c.Foreign x) :
    (c.clearSection policy).Foreign x ∧
      (c.clearSection policy).rt.mem.cell x = c.rt.mem.cell x := by
  obtain ⟨l, hp, hpool, hmem, -⟩ := clearSection_pool policy c
  refine ⟨⟨?_, ?_, ?_⟩, ?_⟩
  · rw [clearSection_brk]
    exact Nat.lt_add_right 2 hx.bound
  · rw [hpool, mem_append]
    rintro (hm | hm)
    · exact hx.unowned (Shard.mem_cells_of_mem_items (hp.mem_iff.mp hm))
    · exact hx.unpooled hm
  · exact fun hm => Nat.lt_irrefl _ (Nat.lt_of_lt_of_le hx.bound (clearSection_cells hm).1)
  · rw [hmem]
    exact initLRU_cell _ _ hx.bound

omit [DecidableEq K] in
theorem clearSection_indexed (h : Indexed policy c) : Indexed policy (c.clearSection policy) := by
  by_cases hpol : policy = .LFU
  · subst hpol
    refine indexed_of_tracks (l := LfuList.newLFUList) rfl ?_
    have hitems : (c.clearSection .LFU).sh.items = [] := rfl
    have hfreqs : (c.clearSection .LFU).freqs = fun _ => none := by
      funext x
      simp [freqs, hitems]
    rw [hfreqs]
    exact LfuList.newLFUList_tracks
  · refine indexed_of_none hpol ?_
    simp only [clearSection, if_neg hpol]
    exact h.none hpol

/-- `Clear` empties the shard, recycles every item and starts with new sentinels. -/
theorem clearSection_spec (h : Valid policy home c) :
    Step policy home c (c.clearSection policy) ∧
      (c.clearSection policy).sh.data = ∅ ∧ (c.clearSection policy).sh.size = 0 :=
  ⟨⟨⟨clearSection_core h.core, fun _ hx => clearSection_foreign hx⟩,
    clearSection_indexed h.indexed⟩, rfl, rfl⟩

end Clear

end Locked

end Kioshun
