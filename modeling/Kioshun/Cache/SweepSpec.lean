import Kioshun.Cache.WriteSpec

/-!
# Operations over all shards

`Clear` and `cleanup` visit the shards one after the other and act on each of
them in the same way; `Keys` and `Export` read them.
-/

namespace Kioshun

open CellStore WallClock List

universe u v
variable {K : Type u} {V : Type v}

namespace InMemoryCache

variable {c c' : InMemoryCache K V} [DecidableEq K]

structure Sweeps (policy : EvictionPolicy) (f : Locked K V → Locked K V)
    (g : Option (V × Int) → Option (V × Int)) : Prop where
  step : ∀ (home : K → Prop) (s : Locked K V), Locked.Valid policy home s →
    Locked.Step policy home s (f s)
  view : ∀ (home : K → Prop) (s : Locked K V), Locked.Valid policy home s →
    ∀ k, (f s).view k = g (s.view k)
  size : ∀ (home : K → Prop) (s : Locked K V), Locked.Valid policy home s →
    (f s).sh.size ≤ s.sh.size
  wall : ∀ s : Locked K V, (f s).rt.wall = s.rt.wall

variable {g : Option (V × Int) → Option (V × Int)} {f : Locked K V → Locked K V}

/-- Sweeping the first `n` shards acts on exactly the entries that live there. -/
theorem Valid.foldl_sweep (h : Valid c) (hf : Sweeps c.config.evictionPolicy f g) (n : Nat)
    (hn : n ≤ c.shards.length) :
    Outcome c ((List.range n).foldl (fun acc i => acc.updateShard i f) c) ∧
      ((List.range n).foldl (fun acc i => acc.updateShard i f) c).rt.wall = c.rt.wall ∧
      ∀ k, ((List.range n).foldl (fun acc i => acc.updateShard i f) c).view k =
        if c.home k < n then g (c.view k) else c.view k := by
  induction n with
  | zero => exact ⟨Outcome.refl h, rfl, fun k => by simp⟩
  | succ n ih =>
    obtain ⟨hout, hwall, hview⟩ := ih (by omega)
    rw [range_succ, foldl_append, foldl_cons, foldl_nil]
    generalize (List.range n).foldl (fun acc i => acc.updateShard i f) c = c₁ at hout hwall hview
    have hlen : n < c₁.shards.length := by
      rw [hout.shape.length]
      omega
    have hs : c₁.shards[n]? = some c₁.shards[n] := getElem?_eq_getElem hlen
    have hval := hout.valid.shard n _ hs
    have hf' : Sweeps c₁.config.evictionPolicy f g := by
      rw [hout.shape.config]
      exact hf
    have hstep := hf'.step _ _ hval
    have hw : (f (c₁.locked c₁.shards[n])).rt.wall = c₁.rt.wall := hf'.wall _
    rw [updateShard_eq hs]
    refine ⟨hout.trans (hout.valid.outcome_put hs hstep (Later.of_eq hw) fun _ hle =>
      (hf'.size _ _ hval).trans hle), hw.trans hwall, fun k => ?_⟩
    rw [hout.valid.view_put hs hstep, hout.shape.home, hview]
    by_cases hk : c.home k = n
    · have hold : c₁.view k = (c₁.locked c₁.shards[n]).view k :=
        view_of_shard (by rw [hout.shape.home, hk]; exact hs)
      rw [if_pos hk, if_pos (by omega), hf'.view _ _ hval, ← hold, hview, if_neg (by omega)]
    · rw [if_neg hk]
      by_cases hlt : c.home k < n
      · rw [if_pos hlt, if_pos (by omega)]
      · rw [if_neg hlt, if_neg (by omega)]

theorem Valid.sweep (h : Valid c) (hf : Sweeps c.config.evictionPolicy f g) :
    Outcome c ((List.range c.shards.length).foldl (fun acc i => acc.updateShard i f) c) ∧
      ((List.range c.shards.length).foldl (fun acc i => acc.updateShard i f) c).rt.wall =
        c.rt.wall ∧
      ∀ k, ((List.range c.shards.length).foldl (fun acc i => acc.updateShard i f) c).view k =
        g (c.view k) := by
  obtain ⟨hout, hwall, hview⟩ := h.foldl_sweep hf c.shards.length (Nat.le_refl _)
  refine ⟨hout, hwall, fun k => ?_⟩
  rw [hview]
  exact if_pos (h.inRange _)

theorem Clear_spec [Inhabited V] (h : Valid c) (hopen : c.closed = false) :
    Outcome c c.Clear ∧ c.Clear.rt.wall = c.rt.wall ∧ ∀ k, c.Clear.view k = none := by
  have hf : Sweeps c.config.evictionPolicy
      (Locked.clearSection (K := K) (V := V) c.config.evictionPolicy) fun _ => none := by
    refine ⟨fun home s hs => (Locked.clearSection_spec hs).1, fun home s hs k => ?_,
      fun home s hs => ?_, fun s => ?_⟩
    · apply Locked.view_eq_none.mpr
      rw [(Locked.clearSection_spec hs).2.1]
      rfl
    · rw [(Locked.clearSection_spec hs).2.2, hs.core.size]
      exact Int.natCast_nonneg _
    · obtain ⟨-, -, -, -, hw, -⟩ :=
        Locked.clearSection_pool c.config.evictionPolicy s
      exact hw
  rw [Clear, hopen, if_neg Bool.false_ne_true]
  exact h.sweep hf

theorem cleanup_spec (h : Valid c) (hopen : c.closed = false) :
    Outcome c c.cleanup ∧ c.cleanup.rt.wall = c.rt.wall.now.2 ∧
      ∀ k, c.cleanup.view k = (c.view k).filter (Locked.live c.now.1) := by
  have hf : Sweeps c.now.2.config.evictionPolicy
      (Locked.cleanup (K := K) (V := V) c.now.1 c.config.evictionPolicy c.config.statsEnabled)
      (Option.filter (Locked.live c.now.1)) := by
    refine ⟨fun home s hs => (Locked.cleanup_spec hs _ _).1,
      fun home s hs k => (Locked.cleanup_spec hs _ _).2.2 k, fun home s hs => ?_,
      fun s => Locked.wall_cleanup ..⟩
    obtain ⟨hstep, hsheds, -⟩ := Locked.cleanup_spec hs c.now.1 c.config.statsEnabled
    exact hsheds.size_le hs.core hstep.evolves.core
  obtain ⟨hnow, hview⟩ := h.now
  obtain ⟨hout, hwall, hv⟩ := hnow.valid.sweep hf
  have heq : c.cleanup = (List.range c.now.2.shards.length).foldl (fun acc i => acc.updateShard i
      (Locked.cleanup c.now.1 c.config.evictionPolicy c.config.statsEnabled)) c.now.2 := by
    rw [cleanup, hopen, if_neg Bool.false_ne_true]
    rfl
  rw [heq]
  refine ⟨hnow.trans hout, hwall, fun k => ?_⟩
  rw [hv, hview]

structure Idle (c c' : InMemoryCache K V) : Prop where
  shards : c' = { c with rt := c'.rt }
  mem : c'.rt.mem = c.rt.mem
  pool : c'.rt.pool = c.rt.pool
  later : Later c.rt.wall c'.rt.wall

omit [DecidableEq K] in
theorem Idle.refl (c : InMemoryCache K V) : Idle c c := ⟨rfl, rfl, rfl, Later.refl _⟩

omit [DecidableEq K] in
theorem Idle.trans {c'' : InMemoryCache K V} (h : Idle c c') (h' : Idle c' c'') : Idle c c'' where
  shards := by
    rw [h'.shards, h.shards]
  mem := h'.mem.trans h.mem
  pool := h'.pool.trans h.pool
  later := h.later.trans h'.later

theorem Idle.outcome (h : Idle c c') (hc : Valid c) : Outcome c c' ∧ c'.view = c.view := by
  rw [h.shards]
  exact hc.outcome_rt h.mem h.pool h.later

structure Peeks {α : Type*} (f : Locked K V → α × Locked K V) : Prop where
  sh : ∀ s, (f s).2.sh = s.sh
  mem : ∀ s, (f s).2.rt.mem = s.rt.mem
  pool : ∀ s, (f s).2.rt.pool = s.rt.pool
  later : ∀ s, Later s.rt.wall (f s).2.rt.wall

omit [DecidableEq K] in
theorem Peeks.idle {α : Type*} {f : Locked K V → α × Locked K V} (hf : Peeks f) {i : Nat}
    {s : Shard K} (hs : c.shards[i]? = some s) (d : α) : Idle c (c.onShard i d f).2 := by
  rw [onShard_eq hs]
  refine ⟨?_, hf.mem _, hf.pool _, hf.later (c.locked s)⟩
  obtain ⟨hi, hget⟩ := List.getElem?_eq_some_iff.mp hs
  have hset : c.shards.set i (f (c.locked s)).2.sh = c.shards := by
    rw [hf.sh, locked, ← hget]
    exact set_getElem_self hi
  simp only [put, hset]

omit [DecidableEq K] in
theorem keysSection_peeks (now : Int) : Peeks (keysSection (K := K) (V := V) now) :=
  ⟨fun _ => rfl, fun _ => rfl, fun _ => rfl, fun _ => Later.refl _⟩

theorem mem_keysSection (now : Int) (s : Locked K V) (k : K) :
    k ∈ (keysSection now s).1 ↔ ∃ e, s.view k = some e ∧ Locked.live now e = true := by
  have hmem : ∀ e, e ∈ (s.rt.iterate s.sh.data.entries).1 ↔ e ∈ s.sh.data.entries :=
    fun e => Iteration.mem_shuffle
  simp only [keysSection, mem_map, mem_filter, hmem]
  constructor
  · rintro ⟨⟨k', a⟩, ⟨hin, hlive⟩, rfl⟩
    exact ⟨_, Locked.view_of_lookup (AList.mem_lookup_iff.mpr hin), hlive⟩
  · rintro ⟨e, he, hlive⟩
    cases hk : s.sh.data.lookup k with
    | none =>
      rw [Locked.view_eq_none.mpr hk] at he
      cases he
    | some a =>
      rw [Locked.view_of_lookup hk] at he
      obtain rfl := Option.some.inj he
      exact ⟨⟨k, a⟩, ⟨AList.mem_lookup_iff.mp hk, hlive⟩, rfl⟩

omit [DecidableEq K] in
theorem nodup_keysSection (now : Int) (s : Locked K V) : (keysSection now s).1.Nodup := by
  have hperm : (s.rt.iterate s.sh.data.entries).1.Perm s.sh.data.entries :=
    Iteration.shuffle_perm _ _
  have hall : ((s.rt.iterate s.sh.data.entries).1.map Sigma.fst).Nodup :=
    (hperm.map Sigma.fst).nodup_iff.mpr s.sh.data.nodupKeys
  exact hall.sublist (filter_sublist.map Sigma.fst)

theorem Valid.foldl_keys (h : Valid c) (now : Int) (n : Nat) (hn : n ≤ c.shards.length) :
    let r := (List.range n).foldl (fun (acc : List K × InMemoryCache K V) i =>
      (acc.1 ++ (acc.2.onShard i [] (keysSection now)).1,
        (acc.2.onShard i [] (keysSection now)).2)) ([], c)
    Idle c r.2 ∧ r.1.Nodup ∧ ∀ k, k ∈ r.1 ↔
      c.home k < n ∧ ∃ e, c.view k = some e ∧ Locked.live now e = true := by
  induction n with
  | zero => exact ⟨Idle.refl c, nodup_nil, fun k => by simp⟩
  | succ n ih =>
    obtain ⟨hidle, hnodup, hmem⟩ := ih (by omega)
    rw [range_succ, foldl_append, foldl_cons, foldl_nil]
    generalize (List.range n).foldl (fun (acc : List K × InMemoryCache K V) i =>
      (acc.1 ++ (acc.2.onShard i [] (keysSection now)).1,
        (acc.2.onShard i [] (keysSection now)).2)) ([], c) = r at hidle hnodup hmem
    obtain ⟨hout, hview⟩ := hidle.outcome h
    obtain ⟨s, hs⟩ : ∃ s, r.2.shards[n]? = some s := by
      refine ⟨_, getElem?_eq_getElem ?_⟩
      rw [hout.shape.length]
      omega
    have hlocal : ∀ k, (∃ e, (r.2.locked s).view k = some e ∧ Locked.live now e = true) ↔
        c.home k = n ∧ ∃ e, c.view k = some e ∧ Locked.live now e = true := by
      intro k
      rw [← hview]
      constructor
      · rintro ⟨e, he, hlive⟩
        have hk : c.home k = n := by
          rw [← hout.shape.home]
          exact (hout.valid.shard n s hs).core.home_of_view he
        exact ⟨hk, e, (view_of_shard (by rw [hout.shape.home, hk]; exact hs)).trans he, hlive⟩
      · rintro ⟨hk, e, he, hlive⟩
        exact ⟨e, (view_of_shard (by rw [hout.shape.home, hk]; exact hs)).symm.trans he, hlive⟩
    refine ⟨hidle.trans ((keysSection_peeks now).idle hs []), ?_, fun k => ?_⟩
    · simp only [onShard_eq hs]
      refine hnodup.append (nodup_keysSection now _) fun k hk hk' => ?_
      have hbelow := ((hmem k).mp hk).1
      have hhere := ((hlocal k).mp ((mem_keysSection now _ k).mp hk')).1
      omega
    · simp only [onShard_eq hs, mem_append, hmem, mem_keysSection, hlocal, ← or_and_right]
      exact and_congr_left fun _ => by omega

theorem Keys_spec (h : Valid c) (hopen : c.closed = false) :
    Outcome c c.Keys.2 ∧ c.Keys.2.view = c.view ∧
      ∀ k, k ∈ c.Keys.1 ↔ ∃ e, c.view k = some e ∧ Locked.live c.now.1 e = true := by
  obtain ⟨hnow, hview⟩ := h.now
  obtain ⟨hidle, -, hmem⟩ := hnow.valid.foldl_keys c.now.1 c.shards.length (Nat.le_refl _)
  obtain ⟨hout, hview'⟩ := hidle.outcome hnow.valid
  rw [Keys, hopen, if_neg Bool.false_ne_true]
  refine ⟨hnow.trans hout, hview'.trans hview, fun k => ?_⟩
  rw [← hview]
  exact (hmem k).trans (and_iff_right (h.inRange _))

theorem Keys_nodup (h : Valid c) : c.Keys.1.Nodup := by
  unfold Keys
  split_ifs
  · exact nodup_nil
  · exact (h.now.1.valid.foldl_keys c.now.1 c.shards.length (Nat.le_refl _)).2.1

omit [DecidableEq K] in
theorem exportSection_peeks (selectFn : K → Bool) (max : Nat) (out : List (Item K V)) :
    Peeks (exportSection selectFn max out) :=
  ⟨fun _ => rfl, fun _ => rfl, fun _ => rfl, fun _ => Later.now _⟩

theorem Export_spec (h : Valid c) (selectFn : K → Bool) (max : Nat) :
    Outcome c (c.Export selectFn max).2 ∧ (c.Export selectFn max).2.view = c.view := by
  have hfold : ∀ (l : List Nat) (acc : (List (Item K V) × Bool) × InMemoryCache K V),
      (∀ i ∈ l, i < c.shards.length) → Idle c acc.2 →
      Idle c (l.foldl (fun (acc : (List (Item K V) × Bool) × InMemoryCache K V) i =>
        if acc.1.2 then acc
        else acc.2.onShard i acc.1 (exportSection selectFn max acc.1.1)) acc).2 := by
    intro l
    induction l with
    | nil => exact fun _ _ hidle => hidle
    | cons i l ih =>
      intro acc hl hidle
      refine ih _ (fun j hj => hl j (mem_cons_of_mem _ hj)) ?_
      simp only
      split_ifs
      · exact hidle
      · obtain ⟨s, hs⟩ : ∃ s, acc.2.shards[i]? = some s := by
          refine ⟨_, getElem?_eq_getElem ?_⟩
          rw [(hidle.outcome h).1.shape.length]
          exact hl i mem_cons_self
        exact hidle.trans ((exportSection_peeks selectFn max acc.1.1).idle hs acc.1)
  exact (hfold (List.range c.shards.length) (([], false), c) (fun i hi => mem_range.mp hi)
    (Idle.refl c)).outcome h

end InMemoryCache

end Kioshun
