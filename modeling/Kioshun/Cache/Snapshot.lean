import Kioshun.Cache.Lifetime

/-!
# Dumping a cache and restoring it

`Export` lists the entries shard by shard; it reads the clock once for each shard. With a limit
it gives the beginning of that list. `Import` into a new cache of the same configuration puts each
entry into the shard where it was, which has room for it.
-/

namespace Kioshun

open CellStore WallClock Locked List

universe u v
variable {K : Type u} {V : Type v}

namespace InMemoryCache
variable {c : InMemoryCache K V} {selectFn : K → Bool} {max : Nat} {s : Shard K}

section Limit

/-- The beginning of a list, or all of it if there is no limit. -/
def limit (max : Nat) (l : List (Item K V)) : List (Item K V) := if max = 0 then l else l.take max

/-- What has been listed under a limit, next to what would have been listed without. -/
structure Cut (max : Nat) (all : List (Item K V)) (acc : List (Item K V) × Bool) : Prop where
  items : acc.1 = limit max all
  full : acc.2 = true → 0 < max ∧ max ≤ all.length

theorem limit_append_of_full {all rest : List (Item K V)} (hpos : 0 < max)
    (hfull : max ≤ all.length) : limit max (all ++ rest) = limit max all := by
  rw [limit, limit, if_neg (by omega), if_neg (by omega), take_append_of_le_length hfull]

variable {acc : List (Item K V) × Bool} {all : List (Item K V)}

theorem Cut.full_append (h : Cut max all acc) (hfull : acc.2 = true) (rest : List (Item K V)) :
    Cut max (all ++ rest) acc := by
  obtain ⟨hpos, hlen⟩ := h.full hfull
  refine ⟨h.items.trans (limit_append_of_full hpos hlen).symm, fun _ => ⟨hpos, ?_⟩⟩
  rw [length_append]
  omega

def wanted (selectFn : K → Bool) (now : Int) (s : Locked K V) (e : Sigma fun _ : K => Addr) :
    Bool :=
  !(s.body e.2).expired now && selectFn e.1

def exported (s : Locked K V) (e : Sigma fun _ : K => Addr) : Item K V :=
  ⟨e.1, (s.body e.2).value, (s.body e.2).expireTime, UInt64.ofInt (s.body e.2).frequency⟩

def listed (selectFn : K → Bool) (now : Int) (s : Locked K V) (l : List (Sigma fun _ : K => Addr)) :
    List (Item K V) :=
  (l.filter (wanted selectFn now s)).map (exported s)

theorem listed_cons (selectFn : K → Bool) (now : Int) (s : Locked K V)
    (e : Sigma fun _ : K => Addr) (l : List (Sigma fun _ : K => Addr)) :
    listed selectFn now s (e :: l) = listed selectFn now s [e] ++ listed selectFn now s l := by
  unfold listed
  cases hw : wanted selectFn now s e <;> simp [hw]

theorem Cut.entry (h : Cut max all acc) (now : Int) (s : Locked K V) (e : Sigma fun _ : K => Addr) :
    Cut max (all ++ listed selectFn now s [e]) (exportEntry selectFn max now s acc e) := by
  unfold exportEntry
  split
  · exact h.full_append ‹_› _
  · rename_i hflag
    split
    · rename_i hmax
      -- the limit has been reached and there is another entry
      have hlen : max ≤ all.length := by
        have := hmax.2
        rw [h.items, limit, if_neg (by omega), length_take] at this
        omega
      have hcut : Cut max all (acc.1, true) := ⟨h.items, fun _ => ⟨hmax.1, hlen⟩⟩
      exact hcut.full_append rfl _
    · rename_i hroom
      have hshort : acc.1 = all := by
        rw [h.items]
        unfold limit
        split
        · rfl
        · apply take_of_length_le
          rw [h.items, limit, if_neg ‹_›, length_take] at hroom
          omega
      have hnot : acc.2 = false := Bool.eq_false_iff.mpr hflag
      by_cases hexp : (s.body e.2).expired now = true
      · have hnone : listed selectFn now s [e] = [] := by simp [listed, wanted, hexp]
        rw [if_pos hexp, hnone, append_nil]
        exact h
      · rw [if_neg hexp]
        by_cases hsel : selectFn e.1 = true
        · have hone : listed selectFn now s [e] = [exported s e] := by
            simp [listed, wanted, hexp, hsel]
          rw [if_pos hsel, hone]
          refine ⟨?_, by simp⟩
          show acc.1 ++ _ = limit max (all ++ _)
          rw [hshort, limit]
          split
          · rfl
          · rw [hshort] at hroom
            rw [take_of_length_le (by simp; omega)]
            rfl
        · have hnone : listed selectFn now s [e] = [] := by simp [listed, wanted, hsel]
          rw [if_neg hsel, hnone, append_nil]
          exact h

theorem Cut.entries (h : Cut max all acc) (now : Int) (s : Locked K V)
    (l : List (Sigma fun _ : K => Addr)) :
    Cut max (all ++ listed selectFn now s l) (l.foldl (exportEntry selectFn max now s) acc) := by
  induction l generalizing all acc with
  | nil => simpa [listed] using h
  | cons e l ih =>
    rw [listed_cons, ← append_assoc]
    exact ih (h.entry now s e)

def shardItems (selectFn : K → Bool) (s : Locked K V) : List (Item K V) :=
  listed selectFn s.rt.now.1 s (s.rt.now.2.iterate s.sh.data.entries).1

theorem Cut.shard {all out : List (Item K V)} (h : Cut max all (out, false)) (s : Locked K V) :
    Cut max (all ++ shardItems selectFn s) (exportSection selectFn max out s).1 :=
  h.entries _ s _

def exportShards (c : InMemoryCache K V) (selectFn : K → Bool) (max n : Nat) :
    (List (Item K V) × Bool) × InMemoryCache K V :=
  (List.range n).foldl
    (fun (acc : (List (Item K V) × Bool) × InMemoryCache K V) i =>
      if acc.1.2 then acc
      else acc.2.onShard i acc.1 (exportSection selectFn max acc.1.1)) (([], false), c)

theorem exportShards_succ (c : InMemoryCache K V) (selectFn : K → Bool) (max n : Nat) :
    c.exportShards selectFn max (n + 1) =
      if (c.exportShards selectFn max n).1.2 then c.exportShards selectFn max n
      else (c.exportShards selectFn max n).2.onShard n (c.exportShards selectFn max n).1
        (exportSection selectFn max (c.exportShards selectFn max n).1.1) := by
  rw [exportShards, range_succ, foldl_append]
  rfl

/-- Without a limit every shard is visited. -/
theorem exportShards_all {n : Nat} (hflag : (c.exportShards selectFn 0 n).1.2 = false)
    (hs : (c.exportShards selectFn 0 n).2.shards[n]? = some s) :
    c.exportShards selectFn 0 (n + 1) =
      (((c.exportShards selectFn 0 n).1.1 ++
          shardItems selectFn ((c.exportShards selectFn 0 n).2.locked s), false),
        (c.exportShards selectFn 0 n).2.put n
          (exportSection selectFn 0 [] ((c.exportShards selectFn 0 n).2.locked s)).2) := by
  have hcut : Cut 0 (c.exportShards selectFn 0 n).1.1 ((c.exportShards selectFn 0 n).1.1, false) :=
    ⟨rfl, by simp⟩
  obtain ⟨hitems, hfull⟩ := hcut.shard ((c.exportShards selectFn 0 n).2.locked s)
  rw [exportShards_succ, hflag, if_neg Bool.false_ne_true, onShard_eq hs]
  refine Prod.ext (Prod.ext hitems ?_) rfl
  exact Bool.eq_false_iff.mpr fun h => absurd (hfull h).1 (Nat.lt_irrefl 0)

structure Follows (max : Nat) (r all : (List (Item K V) × Bool) × InMemoryCache K V) : Prop where
  cut : Cut max all.1.1 r.1
  cache : r.1.2 = false → r.2 = all.2

variable [DecidableEq K]

/-- What leaves the entries alone leaves the shards where they are. -/
theorem Idle.exists_shard {c' : InMemoryCache K V} (hidle : Idle c c') (h : Valid c) {n : Nat}
    (hn : n < c.shards.length) : ∃ s, c'.shards[n]? = some s := by
  refine ⟨_, getElem?_eq_getElem ?_⟩
  rw [(hidle.outcome h).1.shape.length]
  exact hn

theorem exportShards_cut (h : Valid c) (selectFn : K → Bool) (max n : Nat)
    (hn : n ≤ c.shards.length) :
    Idle c (c.exportShards selectFn 0 n).2 ∧ (c.exportShards selectFn 0 n).1.2 = false ∧
      Follows max (c.exportShards selectFn max n) (c.exportShards selectFn 0 n) := by
  induction n with
  | zero =>
    exact ⟨Idle.refl c, rfl, ⟨by simp [exportShards, limit], by simp [exportShards]⟩, fun _ => rfl⟩
  | succ n ih =>
    obtain ⟨hidle, hflag, hcut, hcache⟩ := ih (by omega)
    obtain ⟨s, hs⟩ := hidle.exists_shard h hn
    have hall := exportShards_all hflag hs
    have hpeek := (exportSection_peeks selectFn 0 ([] : List (Item K V))).idle hs ([], false)
    rw [onShard_eq hs] at hpeek
    rw [hall]
    refine ⟨hidle.trans hpeek, rfl, ?_⟩
    rw [exportShards_succ]
    cases hbroken : (c.exportShards selectFn max n).1.2 with
    | true =>
      rw [if_pos rfl]
      exact ⟨hcut.full_append hbroken _, fun hfalse => absurd (hbroken.symm.trans hfalse) (by simp)⟩
    | false =>
      rw [if_neg Bool.false_ne_true, hcache hbroken, onShard_eq hs]
      refine ⟨Cut.shard ⟨hcut.items, by simp⟩ _, fun _ => rfl⟩

/-- A limit keeps the beginning of the list. -/
theorem Export_limit (h : Valid c) (selectFn : K → Bool) (max : Nat) :
    (c.Export selectFn max).1 = limit max (c.Export selectFn 0).1 :=
  (exportShards_cut h selectFn max c.shards.length (Nat.le_refl _)).2.2.cut.items

end Limit

variable [DecidableEq K]

theorem mem_shardItems (s : Locked K V) (k : K) (e : V × Int) :
    (∃ it ∈ shardItems selectFn s, it.Key = k ∧ (it.Val, it.ExpireAbs) = e) ↔
      s.view k = some e ∧ live s.rt.now.1 e = true ∧ selectFn k = true := by
  have hmem : ∀ x, x ∈ (s.rt.now.2.iterate s.sh.data.entries).1 ↔ x ∈ s.sh.data.entries :=
    fun x => Iteration.mem_shuffle
  simp only [shardItems, listed, mem_map, mem_filter, hmem, wanted, Bool.and_eq_true]
  constructor
  · rintro ⟨it, ⟨⟨k', a⟩, ⟨hin, hlive, hsel⟩, rfl⟩, rfl, rfl⟩
    exact ⟨view_of_lookup (AList.mem_lookup_iff.mpr hin), hlive, hsel⟩
  · rintro ⟨hview, hlive, hsel⟩
    cases hk : s.sh.data.lookup k with
    | none =>
      rw [view_eq_none.mpr hk] at hview
      cases hview
    | some a =>
      rw [view_of_lookup hk] at hview
      obtain rfl := Option.some.inj hview
      exact ⟨exported s ⟨k, a⟩, ⟨⟨k, a⟩, ⟨AList.mem_lookup_iff.mp hk, hlive, hsel⟩, rfl⟩, rfl, rfl⟩

omit [DecidableEq K] in
theorem nodup_shardItems (s : Locked K V) : ((shardItems selectFn s).map Item.Key).Nodup := by
  have hperm : (s.rt.now.2.iterate s.sh.data.entries).1.Perm s.sh.data.entries :=
    Iteration.shuffle_perm _ _
  have hall : ((s.rt.now.2.iterate s.sh.data.entries).1.map Sigma.fst).Nodup :=
    (hperm.map Sigma.fst).nodup_iff.mpr s.sh.data.nodupKeys
  have hkeys : (shardItems selectFn s).map Item.Key =
      ((s.rt.now.2.iterate s.sh.data.entries).1.filter
        (wanted selectFn s.rt.now.1 s)).map Sigma.fst := by
    rw [shardItems, listed, map_map]
    rfl
  rw [hkeys]
  exact hall.sublist (filter_sublist.map Sigma.fst)

/-- The entries of a shard are those whose home it is. -/
theorem Valid.view_locked (h : Valid c) {n : Nat} (hs : c.shards[n]? = some s) {k : K}
    {e : V × Int} : (c.locked s).view k = some e ↔ c.home k = n ∧ c.view k = some e := by
  constructor
  · intro he
    have hk : c.home k = n := (h.shard n s hs).core.home_of_view he
    exact ⟨hk, (view_of_shard (hk ▸ hs)).trans he⟩
  · rintro ⟨rfl, he⟩
    exact (view_of_shard hs).symm.trans he

/-- The reading of the clock that `Export` takes when it comes to the shard of the key. -/
def exportTime (c : InMemoryCache K V) (k : K) : Int :=
  c.rt.wall.reading (c.rt.wall.ticks + c.home k)

theorem exportShards_items (h : Valid c) (selectFn : K → Bool) (n : Nat)
    (hn : n ≤ c.shards.length) :
    (c.exportShards selectFn 0 n).2.rt.wall = ⟨c.rt.wall.reading, c.rt.wall.ticks + n⟩ ∧
      ((c.exportShards selectFn 0 n).1.1.map Item.Key).Nodup ∧
      ∀ k e, (∃ it ∈ (c.exportShards selectFn 0 n).1.1, it.Key = k ∧ (it.Val, it.ExpireAbs) = e) ↔
        c.home k < n ∧ c.view k = some e ∧ live (c.exportTime k) e = true ∧
          selectFn k = true := by
  induction n with
  | zero => exact ⟨rfl, nodup_nil, fun k e => by simp [exportShards]⟩
  | succ n ih =>
    obtain ⟨hwall, hnodup, hmem⟩ := ih (by omega)
    obtain ⟨hidle, hflag, -⟩ := exportShards_cut h selectFn 0 n (by omega)
    obtain ⟨hout, hview⟩ := hidle.outcome h
    obtain ⟨s, hs⟩ := hidle.exists_shard h hn
    have hnow : ((c.exportShards selectFn 0 n).2.locked s).rt.now.1 =
        c.rt.wall.reading (c.rt.wall.ticks + n) := by
      show (c.exportShards selectFn 0 n).2.rt.wall.reading
        (c.exportShards selectFn 0 n).2.rt.wall.ticks = _
      rw [hwall]
    have hitems : ∀ k e, (∃ it ∈ shardItems selectFn ((c.exportShards selectFn 0 n).2.locked s),
        it.Key = k ∧ (it.Val, it.ExpireAbs) = e) ↔ c.home k = n ∧ c.view k = some e ∧
          live (c.exportTime k) e = true ∧ selectFn k = true := by
      intro k e
      rw [mem_shardItems, hout.valid.view_locked hs, hout.shape.home, hview, hnow, and_assoc]
      refine and_congr_right fun hk => ?_
      rw [exportTime, hk]
    rw [exportShards_all hflag hs]
    refine ⟨?_, ?_, fun k e => ?_⟩
    · show (c.exportShards selectFn 0 n).2.rt.wall.now.2 = _
      rw [hwall]
      rfl
    · rw [map_append]
      refine hnodup.append (nodup_shardItems _) fun k hk hk' => ?_
      obtain ⟨it, hit, rfl⟩ := mem_map.mp hk
      obtain ⟨it', hit', heq⟩ := mem_map.mp hk'
      have hbelow := ((hmem it.Key _).mp ⟨it, hit, rfl, rfl⟩).1
      have hhere := ((hitems it.Key _).mp ⟨it', hit', heq, rfl⟩).1
      omega
    · have hsplit : (∃ it ∈ (c.exportShards selectFn 0 n).1.1 ++
          shardItems selectFn ((c.exportShards selectFn 0 n).2.locked s),
          it.Key = k ∧ (it.Val, it.ExpireAbs) = e) ↔
          (∃ it ∈ (c.exportShards selectFn 0 n).1.1, it.Key = k ∧ (it.Val, it.ExpireAbs) = e) ∨
          ∃ it ∈ shardItems selectFn ((c.exportShards selectFn 0 n).2.locked s),
            it.Key = k ∧ (it.Val, it.ExpireAbs) = e := by
        simp only [mem_append, or_and_right, exists_or]
      rw [hsplit, hmem, hitems, ← or_and_right]
      exact and_congr_left fun _ => by omega

/-- `Export` lists each entry that is wanted and unexpired, once. -/
theorem Export_items (h : Valid c) (selectFn : K → Bool) :
    ((c.Export selectFn 0).1.map Item.Key).Nodup ∧
      ∀ k e, (∃ it ∈ (c.Export selectFn 0).1, it.Key = k ∧ (it.Val, it.ExpireAbs) = e) ↔
        c.view k = some e ∧ live (c.exportTime k) e = true ∧ selectFn k = true := by
  obtain ⟨-, hnodup, hmem⟩ := exportShards_items h selectFn c.shards.length (Nat.le_refl _)
  exact ⟨hnodup, fun k e => (hmem k e).trans (and_iff_right (h.inRange _))⟩

section Restore
/-- The keys in a shard are those of the entries whose home it is. -/
theorem Valid.mem_keys (h : Valid c) {i : Nat} (hs : c.shards[i]? = some s) (k : K) :
    k ∈ s.data.keys ↔ c.home k = i ∧ c.view k ≠ none := by
  have hkeys : k ∈ s.data.keys ↔ (c.locked s).view k ≠ none := by
    rw [← AList.mem_keys, ← AList.lookup_isSome, Option.isSome_iff_ne_none]
    exact not_congr (view_eq_none (c := c.locked s)).symm
  rw [hkeys, Option.ne_none_iff_exists', Option.ne_none_iff_exists', ← exists_and_left]
  exact exists_congr fun e => h.view_locked hs

theorem Valid.size_keys (h : Valid c) {i : Nat} (hs : c.shards[i]? = some s) :
    s.size = s.data.keys.length := by
  rw [(h.shardSound hs).size]
  exact congrArg Nat.cast (length_map Sigma.fst).symm

variable (items : List (Item K V))

theorem imported_append (it : Item K V) (v : K → Option (V × Int)) :
    imported (items ++ [it]) v =
      Function.update (imported items v) it.Key (some (it.Val, it.ExpireAbs)) :=
  foldl_append

theorem imported_ne_none (k : K) :
    imported items (fun _ => none) k ≠ none ↔ k ∈ items.map Item.Key := by
  induction items using List.reverseRecOn with
  | nil => simp [imported]
  | append_singleton items it ih =>
    rw [imported_append, map_append, mem_append, ← ih]
    by_cases hk : k = it.Key
    · simp [hk]
    · simp [hk]

theorem imported_eq_some (hnodup : (items.map Item.Key).Nodup) (k : K) (e : V × Int) :
    imported items (fun _ => none) k = some e ↔
      ∃ it ∈ items, it.Key = k ∧ (it.Val, it.ExpireAbs) = e := by
  induction items using List.reverseRecOn with
  | nil => simp [imported]
  | append_singleton items it ih =>
    rw [map_append, nodup_append] at hnodup
    obtain ⟨hold, -, hnew⟩ := hnodup
    rw [imported_append]
    by_cases hk : k = it.Key
    · subst hk
      rw [Function.update_self, Option.some.injEq]
      constructor
      · rintro rfl
        exact ⟨it, by simp, rfl, rfl⟩
      · rintro ⟨it', hit', heq, rfl⟩
        rcases mem_append.mp hit' with hin | hin
        · exact absurd heq (hnew _ (mem_map_of_mem hin) _ (by simp))
        · rw [mem_singleton.mp hin]
    · rw [Function.update_of_ne hk, ih hold]
      constructor
      · rintro ⟨it', hin, heq⟩
        exact ⟨it', mem_append_left _ hin, heq⟩
      · rintro ⟨it', hin, rfl, he⟩
        rcases mem_append.mp hin with hin | hin
        · exact ⟨it', hin, rfl, he⟩
        · exact absurd (congrArg Item.Key (mem_singleton.mp hin)) hk

def keysAt (c : InMemoryCache K V) (i : Nat) (l : List K) : List K :=
  l.filter fun k => decide (c.home k = i)

omit [DecidableEq K] in
theorem mem_keysAt {i : Nat} {l : List K} {k : K} : k ∈ c.keysAt i l ↔ k ∈ l ∧ c.home k = i := by
  simp [keysAt]

omit [DecidableEq K] in
theorem nodup_keysAt {l : List K} (h : l.Nodup) (i : Nat) : (c.keysAt i l).Nodup := h.filter _

variable [Inhabited V]

/-- Importing different keys into an empty cache, no more of them into each shard than it holds,
evicts nothing. -/
theorem foldl_importOne_fits (h : Valid c) (hempty : ∀ k, c.view k = none) (now : Int)
    (items : List (Item K V)) (hnodup : (items.map Item.Key).Nodup)
    (hfits : 0 < c.perShardCap → ∀ i, ((c.keysAt i (items.map Item.Key)).length : Int) ≤
      c.perShardCap) :
    (items.foldl (importOne now) c).view = imported items fun _ => none := by
  induction items using List.reverseRecOn with
  | nil => exact funext hempty
  | append_singleton items it ih =>
    rw [map_append, nodup_append] at hnodup
    obtain ⟨hold, -, hnew⟩ := hnodup
    have hfits' : 0 < c.perShardCap → ∀ i, ((c.keysAt i (items.map Item.Key)).length : Int) +
        (if c.home it.Key = i then 1 else 0) ≤ c.perShardCap := by
      intro hcap i
      have hle := hfits hcap i
      rw [map_append, keysAt, filter_append, length_append] at hle
      by_cases hi : c.home it.Key = i
      · simpa [keysAt, hi] using hle
      · simpa [keysAt, hi] using hle
    have hview := ih hold fun hcap i => by
      have := hfits' hcap i
      split at this <;> omega
    obtain ⟨hout, -, -, -⟩ := foldl_importOne now items h
    rw [foldl_append, foldl_cons, foldl_nil]
    generalize items.foldl (importOne now) c = c' at hview hout
    have hroom : HasRoom c' it.Key := by
      by_cases hcap : 0 < c.perShardCap
      · refine .inr (.inr fun s hs => ?_)
        -- the shard holds the keys that have been imported into it
        have hperm : s.data.keys.Perm (c.keysAt (c.home it.Key) (items.map Item.Key)) := by
          refine (perm_ext_iff_of_nodup s.data.keys_nodup (nodup_keysAt hold _)).mpr fun k => ?_
          rw [hout.valid.mem_keys hs, hview, imported_ne_none, hout.shape.home, hout.shape.home,
            mem_keysAt, and_comm]
        have hone := hfits' hcap (c.home it.Key)
        rw [if_pos rfl] at hone
        rw [hout.valid.size_keys hs, hperm.length_eq, hout.shape.cap]
        omega
      · exact .inl (by rw [hout.shape.cap]; omega)
    rw [(importOne_spec hout.valid now it).1.exact hroom, hview, imported_append]

omit [Inhabited V] in
/-- The entries of a shard that are listed fit into it. -/
theorem length_keysAt_le (h : Valid c) (hb : Bounded c) (hcap : 0 < c.perShardCap) {l : List K}
    (hnodup : l.Nodup) (hl : ∀ k ∈ l, c.view k ≠ none) (i : Nat) :
    ((c.keysAt i l).length : Int) ≤ c.perShardCap := by
  cases hs : c.shards[i]? with
  | none =>
    have hnil : c.keysAt i l = [] := by
      refine filter_eq_nil_iff.mpr fun k _ => ?_
      have hlt := h.inRange (c.hasher k)
      have hge := getElem?_eq_none_iff.mp hs
      have hne : c.home k ≠ i := by
        rintro rfl
        exact Nat.not_lt.mpr hge hlt
      simp [hne]
    rw [hnil]
    exact Int.le_of_lt hcap
  | some s =>
    have hsub : c.keysAt i l ⊆ s.data.keys := by
      intro k hk
      obtain ⟨hin, hhome⟩ := mem_keysAt.mp hk
      exact (h.mem_keys hs k).mpr ⟨hhome, hl k hin⟩
    have hlen := (subperm_of_subset (nodup_keysAt hnodup i) hsub).length_le
    have hsize := hb hcap s (mem_of_getElem? hs)
    rw [h.size_keys hs] at hsize
    omega

/-- A new cache with the capacity and the hash of `c` takes all that `c` lists. -/
theorem restore_view (h : Valid c) (hb : Bounded c) {fresh : InMemoryCache K V} (hf : Valid fresh)
    (hempty : ∀ k, fresh.view k = none) (hcap : fresh.perShardCap = c.perShardCap)
    (hhome : fresh.home = c.home) {items : List (Item K V)} (hnodup : (items.map Item.Key).Nodup)
    (hitems : ∀ k ∈ items.map Item.Key, c.view k ≠ none) :
    (fresh.Import items).view = imported items fun _ => none := by
  obtain ⟨hnow, hview⟩ := hf.now
  apply foldl_importOne_fits hnow.valid
  · intro k
    rw [hview]
    exact hempty k
  · exact hnodup
  · intro hpos i
    have hkeys : fresh.now.2.keysAt i (items.map Item.Key) = c.keysAt i (items.map Item.Key) := by
      show (items.map Item.Key).filter (fun k => decide (fresh.home k = i)) = _
      rw [hhome]
      rfl
    rw [hkeys, hnow.shape.cap, hcap]
    exact length_keysAt_le h hb (by rw [← hcap, ← hnow.shape.cap]; exact hpos) hnodup hitems i

omit [DecidableEq K] in
theorem New_mask {config : Config} {numCPU : Int} {hasher : K → UInt64} {wall : WallClock}
    {choice : Nat → Nat} (h : New config numCPU hasher wall choice = some c) :
    c.shardMask = UInt64.ofInt (config.shards numCPU - 1) := by
  unfold New at h
  simp only at h
  split_ifs at h with hneg
  obtain rfl := Option.some.inj h
  rfl

/-- What all caches of one configuration have in common, whatever has been called. -/
theorem serve_matches {config : Config} {numCPU : Int} {hasher : K → UInt64}
    {wall wall' : WallClock} {choice choice' : Nat → Nat} {new fresh : InMemoryCache K V}
    (hnew : New config numCPU hasher wall choice = some new)
    (hfresh : New config numCPU hasher wall' choice' = some fresh) (ops : List (PublicOp K V)) :
    Valid (new.serve ops) ∧ Bounded (new.serve ops) ∧
      fresh.perShardCap = (new.serve ops).perShardCap ∧ fresh.home = (new.serve ops).home := by
  obtain ⟨hv, -, -, hhash, hcap, -, -, -⟩ := New_spec hnew
  obtain ⟨-, -, -, hhash', hcap', -, -, -⟩ := New_spec hfresh
  have hout := serve_outcome hv ops
  have hstart : Bounded new := New_bounded hnew
  refine ⟨hout.valid, hout.bounded hstart, ?_, funext fun k => ?_⟩
  · rw [hout.shape.cap]
    exact hcap'.trans hcap.symm
  · rw [hout.shape.home]
    show (fresh.hasher k &&& fresh.shardMask).toNat = (new.hasher k &&& new.shardMask).toNat
    rw [hhash, hhash', New_mask hnew, New_mask hfresh]

/-- Dumping any cache and restoring it into a new one of the same configuration gives the entries
that were unexpired when their shard was dumped, and evicts nothing on the way; a limited dump has
as many of the matching entries as it may. -/
theorem export_import_round_trip {config : Config} {numCPU : Int} {hasher : K → UInt64}
    {wall wall' : WallClock} {choice choice' : Nat → Nat} {new fresh : InMemoryCache K V}
    (hnew : New config numCPU hasher wall choice = some new)
    (hfresh : New config numCPU hasher wall' choice' = some fresh) (ops : List (PublicOp K V)) :
    let c := new.serve ops
    let items := (c.Export (fun _ => true) 0).1
    (∀ k, (fresh.Import items).view k = (c.view k).filter (live (c.exportTime k))) ∧
    (∀ part, part <+: items → ∀ it ∈ part,
      (fresh.Import part).view it.Key = some (it.Val, it.ExpireAbs)) ∧
    ∀ selectFn, ∃ matching : List K, matching.Nodup ∧
      (∀ k, k ∈ matching ↔ selectFn k = true ∧
        ∃ e, c.view k = some e ∧ live (c.exportTime k) e = true) ∧
      ∀ max, 0 < max →
        (c.Export selectFn max).1.length = min max matching.length ∧
        ((c.Export selectFn max).1.map Item.Key).Nodup ∧
        ∀ it ∈ (c.Export selectFn max).1, it.Key ∈ matching ∧
          c.view it.Key = some (it.Val, it.ExpireAbs) := by
  obtain ⟨hv, hb, hcap, hhome⟩ := serve_matches hnew hfresh ops
  obtain ⟨hf, -⟩ := New_spec hfresh
  intro c items
  obtain ⟨hnodup, hmem⟩ := Export_items hv fun _ => true
  have hpart : ∀ part, part <+: items → (fresh.Import part).view = imported part fun _ => none := by
    intro part hpart
    apply restore_view hv hb hf (New_view hfresh) hcap hhome
    · exact hnodup.sublist (hpart.sublist.map Item.Key)
    · intro k hk
      obtain ⟨it, hit, rfl⟩ := mem_map.mp hk
      rw [((hmem it.Key _).mp ⟨it, hpart.subset hit, rfl, rfl⟩).1]
      exact Option.some_ne_none _
  refine ⟨fun k => ?_, fun part hp it hit => ?_, fun selectFn => ?_⟩
  · rw [hpart items prefix_rfl]
    refine Option.ext fun e => ?_
    rw [imported_eq_some items hnodup, hmem, Option.filter_eq_some_iff]
    simp only [and_true]
    rfl
  · rw [hpart part hp]
    have hdistinct := hnodup.sublist (hp.sublist.map Item.Key)
    exact (imported_eq_some part hdistinct it.Key _).mpr ⟨it, hit, rfl, rfl⟩
  · obtain ⟨hkeys, hentries⟩ := Export_items hv selectFn
    refine ⟨(c.Export selectFn 0).1.map Item.Key, hkeys, fun k => ?_, fun max hmax => ?_⟩
    · constructor
      · intro hk
        obtain ⟨it, hit, rfl⟩ := mem_map.mp hk
        obtain ⟨hview, hlive, hsel⟩ := (hentries it.Key _).mp ⟨it, hit, rfl, rfl⟩
        exact ⟨hsel, _, hview, hlive⟩
      · rintro ⟨hsel, e, hview, hlive⟩
        obtain ⟨it, hit, hk, -⟩ := (hentries k e).mpr ⟨hview, hlive, hsel⟩
        exact mem_map.mpr ⟨it, hit, hk⟩
    · have htake : (c.Export selectFn max).1 = (c.Export selectFn 0).1.take max := by
        rw [Export_limit hv, limit, if_neg (by omega)]
      rw [htake]
      refine ⟨by rw [length_take, length_map], ?_, fun it hit => ?_⟩
      · exact hkeys.sublist ((take_sublist max _).map Item.Key)
      · have hin := mem_of_mem_take hit
        exact ⟨mem_map_of_mem hin, ((hentries it.Key _).mp ⟨it, hin, rfl, rfl⟩).1⟩

theorem export_import_round_trip_small :
    let c := (small .LRU fun n => n).serve [.op (.set 1 10 0), .op (.set 2 20 5), .op (.get 1)]
    ∀ k, ((small .LRU fun n => n + 100).Import (c.Export (fun _ => true) 0).1).view k =
      (c.view k).filter (live (c.exportTime k)) :=
  (export_import_round_trip (New_small ..) (New_small ..) _).1

end Restore

end InMemoryCache

end Kioshun
