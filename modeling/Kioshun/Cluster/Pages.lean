import Kioshun.Cluster.Backfill
import Kioshun.Cluster.Load
import Kioshun.Cluster.RingSpec
import Kioshun.Lib.BigEndian
import Kioshun.Lib.Mixing
import Kioshun.Lib.Paging

/-!
# Paging through a bucket of a donor

The joiner asks a donor for the keys of a bucket page by page, in the order of
their hashes. The cursor of a request is the last hash it has got, and a key is
sent if its hash is above the cursor. A request without cursor starts above 0, so
a key whose hash is 0 is never sent.
-/

namespace Kioshun

open BigEndian Paging Function InMemoryCache Locked List

universe u v
variable {K : Type u} {V : Type v}

structure MsgBackfillKeysReq where
  ID : UInt64
  TargetID : NodeID
  Prefix : Bytes
  Limit : Int
  Cursor : Bytes

/-- `MsgBackfillKeysResp` with the fields that drive the paging. -/
structure BackfillKeysReply extends MsgBackfillKeysResp where
  ID : UInt64
  NextCursor : Bytes
  Done : Bool
  NotInRing : Bool

variable [DecidableEq K]

namespace Node

def absExpiryAt (base ttl : Int) : Int := if ttl ≤ 0 then 0 else wrap64 (base + ttl)

def pageLimit (limit : Int) : Nat := if limit ≤ 0 ∨ 4096 < limit then 1024 else limit.toNat

def cursorHash (cursor : Bytes) : UInt64 := if cursor.length = 8 then Uint64 cursor else 0

/-- The keys of the bucket that the target owns and whose hash is above the cursor, by hash. -/
def backfillRows (n : Node K V) (req : MsgBackfillKeysReq) (keys : List K) : List K :=
  (keys.filter fun k =>
    decide ((PutUint64 (n.hash64Of k)).take req.Prefix.length = req.Prefix) &&
      (n.ring.ownsHash req.TargetID (n.hash64Of k) &&
        !decide (n.hash64Of k ≤ cursorHash req.Cursor))).insertionSort
    fun a b => (n.hash64Of a).toNat ≤ (n.hash64Of b).toNat

def backfillItems (now : Int) : List K → Node K V → List KV × Node K V
  | [], n => ([], n)
  | k :: ks, n =>
    let got := n.localCache.GetWithTTL k
    let n := { n with localCache := got.2 }
    match got.1 with
    | none => backfillItems now ks n
    | some (v, ttl) =>
      let b2 := n.maybeCompress (n.encodeAnyway v)
      let bk := n.kc.EncodeKey k
      let ver := if n.cfg.LWWEnabled then n.version bk else 0
      let rest := backfillItems now ks n
      (⟨bk, b2.1, absExpiryAt now ttl, ver, b2.2⟩ :: rest.1, rest.2)

def rpcBackfillKeys (n : Node K V) (req : MsgBackfillKeysReq) : BackfillKeysReply × Node K V :=
  if req.Prefix.length = 0 ∨ 8 < req.Prefix.length then (⟨⟨[]⟩, req.ID, [], true, false⟩, n)
  else if n.ring.hasID req.TargetID then
    let keys := n.localCache.Keys
    let n := { n with localCache := keys.2 }
    let rows := (n.backfillRows req keys.1).take (pageLimit req.Limit)
    let now := n.now
    let items := backfillItems now.1 rows now.2
    let next := match rows.getLast? with
      | none => []
      | some k => PutUint64 (n.hash64Of k)
    (⟨⟨items.1⟩, req.ID, next, decide (items.1.length = 0), false⟩, items.2)
  else (⟨⟨[]⟩, req.ID, [], true, true⟩, n)

/-- `kReq` of `backfillOnce`. -/
def keysRequest (joiner : Node K V) (Prefix : Bytes) (page : Int) (cursor : Bytes) :
    MsgBackfillKeysReq :=
  ⟨joiner.nextReqID.1, joiner.cfg.ID, Prefix, page, cursor⟩

structure Paged (K : Type u) (V : Type v) where
  pages : List BackfillKeysReply
  joiner : Node K V
  donor : Node K V

/-- The loop of `backfillOnce` over the pages of the bucket `Prefix`, from a cursor on; `none` if
the fuel is used up. -/
def pageBucket [Inhabited V] (Prefix : Bytes) (page : Int) :
    Nat → Bytes → Node K V → Node K V → Option (Paged K V)
  | 0, _, _, _ => none
  | fuel + 1, cursor, joiner, donor =>
    let r := donor.rpcBackfillKeys (joiner.keysRequest Prefix page cursor)
    let joiner := joiner.nextReqID.2
    if r.1.NotInRing then some ⟨[], joiner, r.2⟩
    else if r.1.Items.length = 0 then some ⟨[], joiner, r.2⟩
    else
      let joiner := joiner.importPage r.1.toMsgBackfillKeysResp
      if r.1.NextCursor.length = 8 then
        (pageBucket Prefix page fuel r.1.NextCursor joiner r.2).map fun rest =>
          { rest with pages := r.1 :: rest.pages }
      else some ⟨[r.1], joiner, r.2⟩

def Live (n : Node K V) (k : K) : Prop :=
  ∃ e, n.localCache.view k = some e ∧ live n.localCache.now.1 e = true

def Timeless (n : Node K V) : Prop :=
  ∀ k e j, n.localCache.view k = some e → n.localCache.rt.wall.ticks ≤ j →
    live (n.localCache.rt.wall.reading j) e = live n.localCache.now.1 e

/-- The hash of the key begins with the bytes of the bucket. -/
def InBucket (n : Node K V) (Prefix : Bytes) (k : K) : Prop :=
  (PutUint64 (n.hash64Of k)).take Prefix.length = Prefix

structure Wanted (n : Node K V) (target : NodeID) (Prefix : Bytes) (k : K) : Prop where
  live : n.Live k
  bucket : n.InBucket Prefix k
  owner : ∃ o ∈ n.ring.ownersFromKeyHash (n.hash64Of k), o.ID = target

/-- The pages hold every key that the target should get once, and no other key. -/
def Complete (donor : Node K V) (target : NodeID) (Prefix : Bytes)
    (pages : List BackfillKeysReply) : Prop :=
  ∃ ks : List K, (pages.flatMap fun kr => kr.Items).map KV.K = ks.map donor.kc.EncodeKey ∧
    ks.Nodup ∧ ∀ k, k ∈ ks ↔ donor.Wanted target Prefix k

variable {n n' n'' d d' : Node K V} {Prefix : Bytes} {target : NodeID} {k : K}

structure Steady (n n' : Node K V) : Prop where
  silent : Silent n n'
  timeless : n'.Timeless
  live : ∀ k, n'.Live k ↔ n.Live k

section

theorem Silent.steady (h : Silent n n') (ht : n.Timeless) : Steady n n' := by
  have hreading := h.advances.later.reading
  have hticks := h.advances.later.ticks
  have hnow : ∀ k e, n.localCache.view k = some e →
      live n'.localCache.now.1 e = live n.localCache.now.1 e := by
    intro k e he
    show live (n'.localCache.rt.wall.reading n'.localCache.rt.wall.ticks) e = _
    rw [hreading]
    exact ht k e _ he hticks
  refine ⟨h, fun k e j he hj => ?_, fun k => ?_⟩
  · rw [h.view] at he
    rw [hreading, hnow k e he]
    exact ht k e j he (hticks.trans hj)
  · unfold Live
    rw [h.view]
    constructor
    · rintro ⟨e, he, hlive⟩
      exact ⟨e, he, (hnow k e he).symm.trans hlive⟩
    · rintro ⟨e, he, hlive⟩
      exact ⟨e, he, (hnow k e he).trans hlive⟩

theorem Steady.trans (h : Steady n n') (h' : Steady n' n'') : Steady n n'' :=
  ⟨h.silent.trans h'.silent, h'.timeless, fun k => (h'.live k).trans (h.live k)⟩

theorem Steady.hash64Of (h : Steady n n') (k : K) : n'.hash64Of k = n.hash64Of k := by
  simp only [Node.hash64Of, h.silent.advances.kc, h.silent.advances.ext]

theorem Steady.wanted (h : Steady n n') (k : K) :
    n'.Wanted target Prefix k ↔ n.Wanted target Prefix k := by
  have hadv := h.silent.advances
  constructor
  · rintro ⟨hlive, hbucket, howner⟩
    rw [InBucket, h.hash64Of] at hbucket
    rw [h.hash64Of, hadv.ring] at howner
    exact ⟨(h.live k).mp hlive, hbucket, howner⟩
  · rintro ⟨hlive, hbucket, howner⟩
    refine ⟨(h.live k).mpr hlive, ?_, ?_⟩
    · rw [InBucket, h.hash64Of]
      exact hbucket
    · rw [h.hash64Of, hadv.ring]
      exact howner

end

def listed (n : Node K V) : Node K V := { n with localCache := n.localCache.Keys.2 }

section

theorem listed_silent (h : n.Ready) : Silent n n.listed := by
  obtain ⟨hout, hview, -⟩ := Keys_spec h.valid h.isOpen
  exact ⟨h.advances hout, rfl, hview⟩

theorem mem_keys (h : n.Ready) (k : K) : k ∈ n.localCache.Keys.1 ↔ n.Live k :=
  (Keys_spec h.valid h.isOpen).2.2 k

theorem keys_steady (h : n.Ready) (ht : n.Timeless) :
    Steady n { n with localCache := n.localCache.Keys.2 } ∧ n.localCache.Keys.1.Nodup ∧
      ∀ k, k ∈ n.localCache.Keys.1 ↔ n.Live k :=
  ⟨(listed_silent h).steady ht, Keys_nodup h.valid, mem_keys h⟩

/-- A key that is there is found, with the entry it has. -/
theorem getWithTTL_steady (h : n.Ready) (ht : n.Timeless) (hk : n.Live k) :
    Steady n { n with localCache := (n.localCache.GetWithTTL k).2 } ∧
      ∃ v ttl, (n.localCache.GetWithTTL k).1 = some (v, ttl) := by
  obtain ⟨e, he, hlive⟩ := hk
  obtain ⟨hout, hlook⟩ := get_spec h.valid h.isOpen k
  have hadv := h.advances hout
  simp only [GetWithTTL]
  generalize n.localCache.get k = r at hlook hadv ⊢
  cases hlook with
  | hit entry live reads first view =>
    exact ⟨(⟨hadv, rfl, view⟩ : Silent _ _).steady ht, _, _, rfl⟩
  | absent entry view =>
    rw [entry] at he
    cases he
  | expired entry stale reads view =>
    rw [entry, Option.some.injEq] at he
    rw [he, hlive] at stale
    cases stale

/-- The rows of a page are sent, all of them. -/
theorem backfillItems_spec (h : n.Ready) (ht : n.Timeless) (now : Int) {ks : List K}
    (hks : ∀ k ∈ ks, n.Live k) :
    Steady n (backfillItems now ks n).2 ∧
      (backfillItems now ks n).1.map KV.K = ks.map n.kc.EncodeKey := by
  induction ks generalizing n with
  | nil => exact ⟨(Silent.refl h).steady ht, rfl⟩
  | cons k ks ih =>
    obtain ⟨hget, v, ttl, hgot⟩ := getWithTTL_steady h ht (hks k mem_cons_self)
    obtain ⟨hrest, hmap⟩ := ih hget.silent.advances.ready hget.timeless fun k' hk' =>
      (hget.live k').mpr (hks k' (mem_cons_of_mem _ hk'))
    simp only [backfillItems, hgot]
    exact ⟨hget.trans hrest, by rw [map_cons, hmap, map_cons]⟩

end

section Scan

def rank (n : Node K V) (k : K) : Nat := (n.hash64Of k).toNat

structure Sorted (n : Node K V) (target : NodeID) (Prefix : Bytes) (rows : List K) : Prop where
  sorted : rows.Pairwise fun a b => n.rank a < n.rank b
  mem : ∀ k, k ∈ rows ↔ n.Wanted target Prefix k

variable {rows : List K}

section

theorem Sorted.nodup (h : n.Sorted target Prefix rows) : rows.Nodup := by
  refine List.Pairwise.imp ?_ h.sorted
  intro a b hlt heq
  rw [heq] at hlt
  exact Nat.lt_irrefl _ hlt

theorem Steady.rank (h : Steady n n') : n'.rank = n.rank := by
  funext k
  rw [Node.rank, h.hash64Of, Node.rank]

theorem Steady.sorted (h : Steady n n') (hs : n.Sorted target Prefix rows) :
    n'.Sorted target Prefix rows :=
  ⟨h.rank ▸ hs.sorted, fun k => (hs.mem k).trans (h.wanted k).symm⟩

end

omit [DecidableEq K] in
theorem pairwise_rank_of_le (hinj : Injective n.hash64Of)
    (hsorted : rows.Pairwise fun a b => n.rank a ≤ n.rank b) (hnodup : rows.Nodup) :
    rows.Pairwise fun a b => n.rank a < n.rank b := by
  refine (List.Pairwise.and hsorted hnodup).imp fun {a b} hab => ?_
  rcases Nat.lt_or_eq_of_le hab.1 with hlt | heq
  · exact hlt
  · exact absurd (hinj (UInt64.toNat_inj.mp heq)) hab.2

theorem exists_sorted (h : n.Ready) (ht : n.Timeless) (hinj : Injective n.hash64Of)
    (target : NodeID) (Prefix : Bytes) : ∃ rows, n.Sorted target Prefix rows := by
  classical
  obtain ⟨-, hnodup, hmem⟩ := keys_steady h ht
  let rows := (n.localCache.Keys.1.filter fun k => decide (n.Wanted target Prefix k)).insertionSort
    fun a b => n.rank a ≤ n.rank b
  have hperm : rows.Perm _ := perm_insertionSort _ _
  refine ⟨rows, pairwise_rank_of_le hinj ?_ (hperm.nodup_iff.mpr (hnodup.filter _)), fun k => ?_⟩
  · have : Std.Total fun a b : K => n.rank a ≤ n.rank b := ⟨fun a b => Nat.le_total _ _⟩
    have : IsTrans K fun a b => n.rank a ≤ n.rank b := ⟨fun _ _ _ => Nat.le_trans⟩
    exact pairwise_insertionSort _ _
  · rw [hperm.mem_iff, mem_filter, decide_eq_true_eq, hmem]
    exact ⟨fun hk => hk.2, fun hk => ⟨hk.live, hk⟩⟩

variable {req : MsgBackfillKeysReq}

/-- Whatever the order in which the keys are listed, the rows of a page are the same. -/
theorem backfillRows_eq {rows keys : List K} (hinj : Injective n.hash64Of)
    (hs : n.Sorted req.TargetID req.Prefix rows) (hnodup : keys.Nodup)
    (hkeys : ∀ k, k ∈ keys ↔ n.Live k) :
    n.backfillRows req keys = beyond n.rank (cursorHash req.Cursor).toNat rows := by
  have : Std.Total fun a b : K => n.rank a ≤ n.rank b := ⟨fun a b => Nat.le_total _ _⟩
  have : IsTrans K fun a b => n.rank a ≤ n.rank b := ⟨fun _ _ _ => Nat.le_trans⟩
  symm
  refine Ranking.eq_insertionSort (r := fun a b => n.rank a ≤ n.rank b) ?_ ?_ ?_
  · intro a _ b _ hab hba
    exact hinj (UInt64.toNat_inj.mp (Nat.le_antisymm hab hba))
  · refine (perm_ext_iff_of_nodup (hs.nodup.filter _) (hnodup.filter _)).mpr fun k => ?_
    have habove : ¬ n.hash64Of k ≤ cursorHash req.Cursor ↔
        (cursorHash req.Cursor).toNat < n.rank k := by
      rw [UInt64.not_le, UInt64.lt_iff_toNat_lt, rank]
    simp only [mem_filter, hs.mem, hkeys, Bool.and_eq_true, decide_eq_true_eq,
      Bool.not_eq_true', decide_eq_false_iff_not, habove, Ring.ownsHash_iff]
    constructor
    · rintro ⟨⟨hlive, hbucket, howner⟩, hlt⟩
      exact ⟨hlive, hbucket, howner, hlt⟩
    · rintro ⟨hlive, hbucket, howner, hlt⟩
      exact ⟨⟨hlive, hbucket, howner⟩, hlt⟩
  · exact (hs.sorted.filter _).imp Nat.le_of_lt

/-- A page is the next part of the sorted rows, and its cursor the rank of its last row. -/
theorem rpcBackfillKeys_spec {rows page : List K} (h : n.Ready) (ht : n.Timeless)
    (hinj : Injective n.hash64Of) (hs : n.Sorted req.TargetID req.Prefix rows)
    (hring : n.ring.hasID req.TargetID = true)
    (hlen : 1 ≤ req.Prefix.length ∧ req.Prefix.length ≤ 8)
    (hpage : (beyond n.rank (cursorHash req.Cursor).toNat rows).take (pageLimit req.Limit) = page) :
    Steady n (n.rpcBackfillKeys req).2 ∧ (n.rpcBackfillKeys req).1.NotInRing = false ∧
      (n.rpcBackfillKeys req).1.Items.map KV.K = page.map n.kc.EncodeKey ∧
      ∀ k, page.getLast? = some k →
        (n.rpcBackfillKeys req).1.NextCursor = PutUint64 (n.hash64Of k) := by
  obtain ⟨hkeys, hnodup, hmem⟩ := keys_steady h ht
  have hrows := backfillRows_eq hinj hs hnodup hmem
  have hnow := hkeys.trans ((now_silent hkeys.silent.advances.ready).steady hkeys.timeless)
  have hlive : ∀ k ∈ page, n.Live k := by
    intro k hk
    rw [← hpage] at hk
    exact ((hs.mem k).mp (mem_beyond.mp (mem_of_mem_take hk)).1).live
  obtain ⟨hitems, hmap⟩ := backfillItems_spec hnow.silent.advances.ready hnow.timeless
    (now { n with localCache := n.localCache.Keys.2 }).1 fun k hk => (hnow.live k).mpr (hlive k hk)
  have hok : ¬ (req.Prefix.length = 0 ∨ 8 < req.Prefix.length) := by omega
  have hrows' : backfillRows { n with localCache := n.localCache.Keys.2 } req n.localCache.Keys.1 =
      beyond n.rank (cursorHash req.Cursor).toNat rows := hrows
  simp only [rpcBackfillKeys, if_neg hok, hring, if_true, hrows', hpage]
  refine ⟨hnow.trans hitems, trivial, hmap, fun k hk => ?_⟩
  rw [hk]
  rfl

theorem importPage_cfg [Inhabited V] (kr : MsgBackfillKeysResp) :
    (n.importPage kr).cfg = n.cfg := by
  have hrec : ∀ (items : List (Item K V)) (n : Node K V), (n.recordAll items).cfg = n.cfg := by
    intro items
    induction items with
    | nil => exact fun _ => rfl
    | cons it items ih => exact fun n => ih _
  unfold importPage
  cases (n.toImport kr).getLast? with
  | none => rfl
  | some last =>
    simp only
    split_ifs
    · exact hrec _ _
    · exact hrec _ _
    · rfl

/-- The same for a donor that has answered requests before. -/
theorem Steady.reply {donor : Node K V} {rows page : List K} (h : Steady n donor)
    (req : MsgBackfillKeysReq) (hinj : Injective n.hash64Of)
    (hs : n.Sorted req.TargetID req.Prefix rows) (hring : n.ring.hasID req.TargetID = true)
    (hlen : 1 ≤ req.Prefix.length ∧ req.Prefix.length ≤ 8)
    (hpage : (beyond n.rank (cursorHash req.Cursor).toNat rows).take (pageLimit req.Limit) = page) :
    Steady n (donor.rpcBackfillKeys req).2 ∧ (donor.rpcBackfillKeys req).1.NotInRing = false ∧
      (donor.rpcBackfillKeys req).1.Items.map KV.K = page.map n.kc.EncodeKey ∧
      ∀ k, page.getLast? = some k →
        (donor.rpcBackfillKeys req).1.NextCursor = PutUint64 (n.hash64Of k) := by
  have hadv := h.silent.advances
  have hhash : donor.hash64Of = n.hash64Of := funext h.hash64Of
  obtain ⟨hafter, hin, hitems, hnext⟩ := rpcBackfillKeys_spec hadv.ready h.timeless (hhash ▸ hinj)
    (h.sorted hs) (hadv.ring ▸ hring) hlen (h.rank ▸ hpage)
  rw [hadv.kc] at hitems
  rw [hhash] at hnext
  exact ⟨h.trans hafter, hin, hitems, hnext⟩

section Rounds
variable {joiner donor : Node K V} {page : Int} {cursor : Bytes} {r : BackfillKeysReply × Node K V}

theorem pageBucket_stop [Inhabited V]
    (hr : donor.rpcBackfillKeys (joiner.keysRequest Prefix page cursor) = r)
    (hin : r.1.NotInRing = false) (hnone : r.1.Items = []) (fuel : Nat) :
    pageBucket Prefix page (fuel + 1) cursor joiner donor = some ⟨[], joiner.nextReqID.2, r.2⟩ := by
  simp only [pageBucket, hr, hin, hnone, length_nil, Bool.false_eq_true, if_false, if_true]

theorem pageBucket_next [Inhabited V]
    (hr : donor.rpcBackfillKeys (joiner.keysRequest Prefix page cursor) = r)
    (hin : r.1.NotInRing = false) (hsome : r.1.Items.length ≠ 0)
    (hnext : r.1.NextCursor.length = 8) (fuel : Nat) :
    pageBucket Prefix page (fuel + 1) cursor joiner donor =
      (pageBucket Prefix page fuel r.1.NextCursor
        (joiner.nextReqID.2.importPage r.1.toMsgBackfillKeysResp) r.2).map fun rest =>
          { rest with pages := r.1 :: rest.pages } := by
  simp only [pageBucket, hr, hin, hsome, hnext, Bool.false_eq_true, if_false, if_true]

end Rounds

/-- The loop of the joiner follows the scan of the sorted rows. -/
theorem pageBucket_scan [Inhabited V] {page : Int} {a : Nat} {pages : List (List K)}
    (hscan : Paging.Scan n.rank (pageLimit page) rows a pages) (hinj : Injective n.hash64Of)
    (hring : n.ring.hasID target = true) (hlen : 1 ≤ Prefix.length ∧ Prefix.length ≤ 8)
    (hs : n.Sorted target Prefix rows) {joiner donor : Node K V} {cursor : Bytes}
    (hsteady : Steady n donor) (hid : joiner.cfg.ID = target)
    (hcursor : (cursorHash cursor).toNat = a) :
    ∃ r : Paged K V, (∀ fuel, pages.length ≤ fuel →
        pageBucket Prefix page (fuel + 1) cursor joiner donor = some r) ∧
      (r.pages.flatMap fun kr => kr.Items).map KV.K = pages.flatten.map n.kc.EncodeKey := by
  induction hscan generalizing joiner donor cursor with
  | done empty =>
    subst hid hcursor
    obtain ⟨-, hin, hitems, -⟩ :=
      hsteady.reply (joiner.keysRequest Prefix page cursor) hinj hs hring
      hlen empty
    exact ⟨_, fun fuel _ => pageBucket_stop rfl hin (map_eq_nil_iff.mp hitems) fuel, rfl⟩
  | @page a x rest last _ ih =>
    subst hid hcursor
    obtain ⟨hafter, hin, hitems, hnext⟩ :=
      hsteady.reply (joiner.keysRequest Prefix page cursor) hinj
      hs hring hlen rfl
    have hnext := hnext x last
    generalize hr : donor.rpcBackfillKeys (joiner.keysRequest Prefix page cursor) = r
      at hafter hin hitems hnext
    have hsome : r.1.Items.length ≠ 0 := by
      rw [← length_map KV.K, hitems, length_map]
      exact Nat.ne_of_gt (length_pos_of_mem (mem_of_getLast? last))
    have hlast : (cursorHash r.1.NextCursor).toNat = n.rank x := by
      rw [hnext, cursorHash, if_pos (length_PutUint64 _), Uint64_PutUint64, rank]
    have hcfg : (joiner.nextReqID.2.importPage r.1.toMsgBackfillKeysResp).cfg = joiner.cfg :=
      importPage_cfg _
    obtain ⟨tail, hrun, htail⟩ := ih hafter (congrArg ClusterConfig.ID hcfg) hlast
    refine ⟨{ tail with pages := r.1 :: tail.pages }, fun fuel hfuel => ?_, ?_⟩
    · obtain ⟨fuel, rfl⟩ := Nat.exists_eq_add_of_le' (Nat.lt_of_lt_of_le (Nat.succ_pos _) hfuel)
      rw [pageBucket_next hr hin hsome (hnext ▸ length_PutUint64 _),
        hrun fuel (by simpa using hfuel), Option.map_some]
    · rw [flatMap_cons, map_append, hitems, htail, flatten_cons, map_append]
      rfl

theorem pageLimit_pos (limit : Int) : 0 < pageLimit limit := by
  unfold pageLimit
  split_ifs <;> omega

/-- For every donor whose entries do not expire, every target in its ring, every bucket and every
page size, the loop ends; and its pages are complete if and only if no key that the target should
get has the hash 0. -/
theorem pageBucket_complete_iff [Inhabited V] (joiner donor : Node K V) (h : donor.Ready)
    (ht : donor.Timeless)
    (hinj : Injective donor.hash64Of) (hring : donor.ring.hasID joiner.cfg.ID = true)
    (Prefix : Bytes) (hlen : 1 ≤ Prefix.length ∧ Prefix.length ≤ 8) (page : Int) :
    ∃ (r : Paged K V) (N : Nat),
      (∀ fuel ≥ N, pageBucket Prefix page fuel [] joiner donor = some r) ∧
      (donor.Complete joiner.cfg.ID Prefix r.pages ↔
        ∀ k, donor.Wanted joiner.cfg.ID Prefix k → donor.hash64Of k ≠ 0) := by
  obtain ⟨rows, hs⟩ := exists_sorted h ht hinj joiner.cfg.ID Prefix
  obtain ⟨pages, hscan⟩ := exists_scan (a := 0) hs.sorted (pageLimit_pos page)
  obtain ⟨r, hrun, hkeys⟩ := pageBucket_scan hscan hinj hring hlen hs
    ((Silent.refl h).steady ht) rfl (show (cursorHash []).toNat = 0 from rfl)
  rw [hscan.flatten hs.sorted (pageLimit_pos page)] at hkeys
  refine ⟨r, pages.length + 1, fun fuel hfuel => ?_, ?_⟩
  · obtain ⟨fuel, rfl⟩ := Nat.exists_eq_add_of_le' (Nat.lt_of_lt_of_le (Nat.succ_pos _) hfuel)
    exact hrun fuel (by omega)
  have hpos : ∀ k, 0 < donor.rank k ↔ donor.hash64Of k ≠ 0 := by
    intro k
    rw [rank, Nat.pos_iff_ne_zero, ne_eq, ← UInt64.toNat_zero, UInt64.toNat_inj]
  constructor
  · rintro ⟨ks, hmap, hnodup, hmem⟩ k hk
    -- both lists have the same length, so the rows that are sent are all keys that are wanted
    have hlength : ks.length = (beyond donor.rank 0 rows).length := by
      rw [← length_map donor.kc.EncodeKey, ← hmap, hkeys, length_map]
    have hsub : ∀ k ∈ beyond donor.rank 0 rows, k ∈ ks := fun k hk =>
      (hmem k).mpr ((hs.mem k).mp (mem_beyond.mp hk).1)
    have hperm := (subperm_of_subset (hs.nodup.filter _) hsub).perm_of_length_le hlength.le
    exact (hpos k).mp (mem_beyond.mp (hperm.mem_iff.mpr ((hmem k).mpr hk))).2
  · intro hnonzero
    refine ⟨beyond donor.rank 0 rows, hkeys, hs.nodup.filter _, fun k => ?_⟩
    rw [mem_beyond, hs.mem, hpos]
    exact ⟨fun hk => hk.1, fun hk => ⟨hk, hnonzero k hk⟩⟩

end Scan

end Node

def Uint64KeyCodec : KeyCodec UInt64 where
  EncodeKey := PutUint64
  DecodeKey := fun b =>
    if b.length = 8 then .ok (Uint64 b) else .error "invalid uint64 key length"
  Hash64 := some mix64

theorem mix64_injective : Injective mix64 :=
  Mixing.avalanche_injective 30 0x96de1b173f119089 27 0x319642b2d24d8ec3 31
    (by decide) (by decide) (by decide) (by decide) (by decide)

def wide (ID : NodeID) : Node UInt64 UInt8 where
  cfg := ⟨ID, 1, 0, ⟨0, 0, 0⟩, true⟩
  kc := Uint64KeyCodec
  codec := Node.byteValues
  ext := Node.stored
  localCache := (New Node.unboundedConfig 1 id ⟨fun n => n, 0⟩ id).get rfl
  ring := ⟨[⟨[2], 1, 0⟩], 1⟩
  hotSet := fun _ => none
  version := fun _ => 0
  clock := Hlc.newHLC 1
  reqID := 0

def holding (ks : List UInt64) : Node UInt64 UInt8 :=
  (wide [1]).deliver (ks.map fun k => .set ⟨1, PutUint64 k, [20], 0, 5, false⟩)

/-- The entries of that node do not expire. -/
theorem holding_spec (ks : List UInt64) :
    Node.Advances (wide [1]) (holding ks) ∧ (∀ bk, (holding ks).version bk ≤ 5) ∧
      ∀ k e, (holding ks).localCache.view k = some e → k ∈ ks ∧ e = (20, 0) := by
  have hnew : New Node.unboundedConfig 1 id ⟨fun n => n, 0⟩ id = some (wide [1]).localCache := rfl
  obtain ⟨-, -, -, -, hcap, -⟩ := New_spec hnew
  have hready : (wide [1]).Ready := Node.ready_of_run hnew [] rfl
  induction ks using List.reverseRecOn with
  | nil =>
    refine ⟨Node.Advances.refl hready, fun _ => UInt64.zero_le, fun k e he => ?_⟩
    cases (New_view hnew k).symm.trans he
  | append_singleton ks k ih =>
    obtain ⟨hadv, hver, hview⟩ := ih
    have hlast : holding (ks ++ [k]) =
        ((holding ks).rpcSet ⟨1, PutUint64 k, [20], 0, 5, false⟩).2 := by
      simp [holding, Node.deliver, Node.handle]
    have hcheck : (holding ks).checkSet ⟨1, PutUint64 k, [20], 0, 5, false⟩ = .ok (k, [20]) := by
      refine Node.checkSet_eq_ok.mpr ⟨by rw [hadv.cfg]; rfl, by rw [hadv.cfg]; rfl, ?_, ?_⟩
      · rw [Node.inflate, hadv.cfg]
        rfl
      · rw [hadv.kc]
        show Uint64KeyCodec.DecodeKey (PutUint64 k) = .ok k
        simp only [Uint64KeyCodec, length_PutUint64, if_true, Uint64_PutUint64]
    have hlww : (holding ks).cfg.LWWEnabled = true := by rw [hadv.cfg]; rfl
    have happ := Node.rpcSet_applied hadv.ready hcheck (v := 20) (by rw [hadv.codec]; rfl) fun hs =>
      UInt64.not_lt.mpr (hver _) ((Node.stale_iff hlww _ _).mp hs)
    rw [hlast, happ.version hlww, happ.view (hadv.cap.trans_le (hcap.trans_le (by decide)))]
    refine ⟨hadv.trans happ.advances, ?_, ?_⟩
    · exact (forall_update_iff _ (p := fun _ ver => ver ≤ (5 : UInt64))).mpr
        ⟨UInt64.le_refl 5, fun bk _ => hver bk⟩
    · refine (forall_update_iff _
        (p := fun k' o => ∀ e, o = some e → k' ∈ ks ++ [k] ∧ e = (20, 0))).mpr
          ⟨fun e he => ?_, fun k' _ e he => ?_⟩
      · exact ⟨mem_append_right _ (mem_singleton_self k), (Option.some.inj he).symm⟩
      · exact ⟨mem_append_left _ (hview k' e he).1, (hview k' e he).2⟩

/-- The keys 10 and 30 are in one bucket, and each gets a page of its own. -/
theorem pageBucket_complete_two : ∃ (r : Node.Paged UInt64 UInt8) (N : Nat),
    (∀ fuel ≥ N, Node.pageBucket [7] 1 fuel [] (wide [2]) (holding [10, 30]) = some r) ∧
      (holding [10, 30]).Complete [2] [7] r.pages := by
  obtain ⟨hadv, -, hview⟩ := holding_spec [10, 30]
  have hhash : (holding [10, 30]).hash64Of = mix64 := by
    funext k
    rw [Node.hash64Of, hadv.kc]
    rfl
  have hforever : (holding [10, 30]).Timeless := by
    intro k e j he _
    rw [(hview k e he).2]
    rfl
  obtain ⟨r, N, hrun, hiff⟩ := Node.pageBucket_complete_iff (wide [2]) (holding [10, 30]) hadv.ready
    hforever (hhash ▸ mix64_injective) (by rw [hadv.ring]; rfl) [7] (by decide) 1
  refine ⟨r, N, hrun, hiff.mpr fun k hk hzero => ?_⟩
  obtain ⟨e, he, -⟩ := hk.live
  have hmem := (hview k e he).1
  rw [hhash] at hzero
  simp only [mem_cons, not_mem_nil, or_false] at hmem
  rcases hmem with rfl | rfl
  · exact absurd hzero (by decide)
  · exact absurd hzero (by decide)

/-- A donor that holds the key 0 for its owner sends it in no page. -/
theorem pageBucket_skips_zero :
    let donor := holding [0]
    (Node.pageBucket [0] 10 3 [] (wide [2]) donor).map (fun r => r.pages.length) = some 0 ∧
      donor.localCache.view 0 = some (20, 0) ∧ (PutUint64 (donor.hash64Of 0)).take 1 = [0] ∧
      (donor.ring.ownersFromKeyHash (donor.hash64Of 0)).map NodeMeta.ID = [[2]] := by
  decide +kernel

end Kioshun
