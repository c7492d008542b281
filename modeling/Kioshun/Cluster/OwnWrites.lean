import Kioshun.Cache.Declined
import Kioshun.Cluster.ReadBack
import Kioshun.Cluster.Load

/-!
# What the first owner keeps of its own writes

The first owner of a key writes its own cache with `Set` and sends the other owners
an absolute expiry. It counts itself as an acknowledgement and records the version
without looking at what its cache has done, and it derives the two expiries from
the time to live by different rules and from different readings of the clock.
-/

namespace Kioshun

universe u v
variable {K : Type u} {V : Type v} [DecidableEq K]

namespace Node
variable {n : Node K V} {net : Network} {replies : NodeID → Except String Ack} {k : K} {v : V}
  {ttl : Int}

def otherAcks (n : Node K V) (net : Network) (replies : NodeID → Except String Ack)
    (owners : List NodeMeta) : Nat :=
  (((owners.map NodeMeta.ID).filter fun id => id ≠ n.cfg.ID).filter (acked net replies)).length

/-- The node when `Set` comes to the local cache: so far it has only read the clock. -/
def atLocalSet (n : Node K V) (ttl : Int) : Node K V := (n.absExpiry ttl).2.next.2

theorem atLocalSet_eq (h : n.localCache.Valid) (ttl : Int) :
    ∃ c clock, n.atLocalSet ttl = { n with localCache := c, clock := clock } ∧
      InMemoryCache.Outcome n.localCache c ∧ c.config = n.localCache.config := by
  unfold atLocalSet absExpiry
  split_ifs
  · exact ⟨_, _, rfl, h.now.1, rfl⟩
  · exact ⟨_, _, rfl, h.now.1.trans h.now.1.valid.now.1, rfl⟩

section
omit [DecidableEq K]

theorem sendAll_frame (n : Node K V) (hint : Hint) (ids : List NodeID) :
    (n.sendAll hint ids).2.localCache = n.localCache ∧
      (n.sendAll hint ids).2.version = n.version := by
  induction ids generalizing n with
  | nil => exact ⟨rfl, rfl⟩
  | cons id ids ih => exact ih _

theorem recordOwn_frame (n : Node K V) (bk : Bytes) (ver : UInt64) :
    (n.recordOwn bk ver).localCache = n.localCache ∧ (n.recordOwn bk ver).cfg = n.cfg ∧
      (n.cfg.LWWEnabled = true → (n.recordOwn bk ver).version bk = ver) := by
  unfold recordOwn
  split_ifs with hlww
  · exact ⟨rfl, rfl, fun _ => Function.update_self ..⟩
  · exact ⟨rfl, rfl, fun hyes => absurd hyes hlww⟩

/-- The first owner waits for one acknowledgement less. -/
theorem replicateSet_result {owners : List NodeMeta} (hprimary : n.isPrimary owners = true)
    (bk bv : Bytes) (exp : Int) (ver : UInt64) :
    (n.replicateSet net replies bk bv exp ver owners).result = .ok () ↔
      n.required - 1 ≤ 0 ∨ metConcern (n.required - 1) (n.otherAcks net replies owners) = true := by
  simp only [replicateSet, replicate, hprimary, if_true]
  change (if n.required - 1 ≤ 0 ∨
    metConcern (n.required - 1) (n.otherAcks net replies owners) = true then _ else _) = _ ↔ _
  split_ifs with hmet
  · exact iff_of_true rfl hmet
  · exact iff_of_false (fun hno => by cases hno) hmet

end

variable [Inhabited V]

structure PrimaryWrite (n : Node K V) (net : Network) (replies : NodeID → Except String Ack) (k : K)
    (v : V) (ttl : Int) (w : Written K V) : Prop where
  cache : w.node.localCache = ((n.atLocalSet ttl).localCache.Set k v ttl).2
  version : n.cfg.LWWEnabled = true →
    w.node.version (n.kc.EncodeKey k) = (n.absExpiry ttl).2.next.1
  result : w.result = .ok () ↔
    n.required - 1 ≤ 0 ∨ metConcern (n.required - 1) (n.otherAcks net replies (n.owners k)) = true
  sent : ∀ x ∈ w.sent, ∃ reqID val ver cp,
    x.2 = .set ⟨reqID, n.kc.EncodeKey k, val, (n.absExpiry ttl).1, ver, cp⟩

theorem Set_primary (net : Network) (replies : NodeID → Except String Ack) (v : V) (ttl : Int)
    (h : n.localCache.Valid) (hprimary : n.isPrimary (n.owners k) = true) :
    (∃ err, n.Set net replies k v ttl = n.refuse err) ∨
      PrimaryWrite n net replies k v ttl (n.Set net replies k v ttl) := by
  rcases Set_cases n net replies k v ttl with hrefused | ⟨bv, -, hw⟩
  · exact .inl hrefused
  obtain ⟨c, clock, hat, -⟩ := atLocalSet_eq h ttl
  have hat' : (n.absExpiry ttl).2.next.2 = { n with localCache := c, clock := clock } := hat
  have hlocal : (n.absExpiry ttl).2.next.2.setLocal (n.owners k) k v ttl (n.kc.EncodeKey k)
      (n.absExpiry ttl).2.next.1 =
        { n with localCache := (c.Set k v ttl).2, clock := clock }.recordOwn (n.kc.EncodeKey k)
          (n.absExpiry ttl).2.next.1 := by
    rw [hat']
    exact if_pos hprimary
  obtain ⟨hcache, hcfg, hver⟩ := recordOwn_frame
    { n with localCache := (c.Set k v ttl).2, clock := clock } (n.kc.EncodeKey k)
    (n.absExpiry ttl).2.next.1
  rw [hlocal] at hw
  rw [hw]
  generalize { n with localCache := (c.Set k v ttl).2, clock := clock }.recordOwn
    (n.kc.EncodeKey k) (n.absExpiry ttl).2.next.1 = r at hcache hcfg hver
  have hself : r.isPrimary (n.owners k) = true := (isPrimary_congr hcfg _).trans hprimary
  have hreq : r.required = n.required := by simp only [required, hcfg]
  have hacks : r.otherAcks net replies (n.owners k) = n.otherAcks net replies (n.owners k) := by
    simp only [otherAcks, hcfg]
  right
  constructor
  · rw [hat]
    exact (sendAll_frame r _ _).1.trans hcache
  · intro hlww
    exact (congrFun (sendAll_frame r _ _).2 _).trans (hver hlww)
  · rw [replicateSet_result hself, hreq, hacks]
  · intro x hx
    obtain ⟨-, reqID, hmsg⟩ := mem_sendAll hx
    exact ⟨reqID, _, _, _, hmsg⟩

/-- The write of the first owner that returns `nil` has recorded its version and counts its own
acknowledgement; its cache returns the value if and only if it is open and does not decline the
insertion. -/
theorem acknowledged_stored_iff (h : n.localCache.Valid)
    (hprimary : n.isPrimary (n.owners k) = true)
    (hok : (n.Set net replies k v ttl).result = .ok ())
    (hlive : ∀ e, (n.Set net replies k v ttl).node.localCache.view k = some e →
      Locked.live (n.Set net replies k v ttl).node.localCache.now.1 e = true) :
    (n.cfg.LWWEnabled = true → (n.Set net replies k v ttl).node.version (n.kc.EncodeKey k) =
        (n.absExpiry ttl).2.next.1) ∧
      (n.required - 1 ≤ 0 ∨
        metConcern (n.required - 1) (n.otherAcks net replies (n.owners k)) = true) ∧
      (((n.Set net replies k v ttl).node.localCache.Get k).1 = some v ↔
        n.localCache.closed = false ∧ ¬ (n.atLocalSet ttl).localCache.Declines k) := by
  rcases Set_primary net replies v ttl h hprimary with ⟨err, hw⟩ | hw
  · rw [hw] at hok
    cases hok
  obtain ⟨c, clock, hat, hout, -⟩ := atLocalSet_eq h ttl
  have hcache : (n.atLocalSet ttl).localCache = c := by rw [hat]
  refine ⟨hw.version, hw.result.mp hok, ?_⟩
  rw [hw.cache, hcache] at hlive ⊢
  cases hclosed : n.localCache.closed with
  | true =>
    have hc : c.closed = true := hout.shape.closed.trans hclosed
    have hget : ((c.Set k v ttl).2.Get k).1 = none := by
      simp [InMemoryCache.Set, InMemoryCache.Get, InMemoryCache.get, hc]
    simp [hget]
  | false =>
    have hopen : c.closed = false := hout.shape.closed.trans hclosed
    have hset := (InMemoryCache.Set_spec hout.valid hopen k v ttl).1.outcome
    have hopen' : (c.Set k v ttl).2.closed = false := hset.shape.closed.trans hopen
    rcases InMemoryCache.view_Set hout.valid hopen k v ttl with ⟨hd, hview⟩ | ⟨hd, hview⟩
    · simp [InMemoryCache.Get_of_absent hset.valid hopen' hview, hd]
    · simp [InMemoryCache.Get_of_live hset.valid hopen' hview (hlive _ hview), hd]

def soleOwner (c : InMemoryCache UInt8 UInt8) : Node UInt8 UInt8 := plain [1] ⟨[⟨[1], 1, 1⟩], 1⟩ c

def silence : NodeID → Except String Ack := fun _ => .error ErrTimeout

def gatedConfig : Config := { unboundedConfig with maxSize := 1, evictionPolicy := .AdmissionLFU }

def gatedCache (reading : Nat → Int) : InMemoryCache UInt8 UInt8 :=
  (InMemoryCache.New gatedConfig 1 UInt8.toUInt64 ⟨reading, 0⟩ id).get rfl

set_option synthInstance.maxSize 400 in
/-- The shard is full, and two seconds after the first write its key is evicted for the new one. -/
theorem acknowledged_stored_admitted :
    let n := soleOwner (.run [.set 7 10 (-1)] (gatedCache fun i => 2000000000 * (i + 1)))
    ((n.Set allConnected silence 8 20 (-1)).node.localCache.Get 8).1 = some 20 := by
  intro n
  have hnew : InMemoryCache.New gatedConfig 1 UInt8.toUInt64
      ⟨fun i => 2000000000 * (i + 1), 0⟩ id = some (gatedCache fun i => 2000000000 * (i + 1)) := rfl
  have hready : n.Ready := ready_of_run hnew [.set 7 10 (-1)] rfl
  have hrun : n.isPrimary (n.owners 8) = true ∧
      (n.Set allConnected silence 8 20 (-1)).result = .ok () ∧
      (n.Set allConnected silence 8 20 (-1)).node.localCache.view 8 = some (20, 0) := by
    decide +kernel
  obtain ⟨hprimary, hok, hview⟩ := hrun
  have hlive : ∀ e, (n.Set allConnected silence 8 20 (-1)).node.localCache.view 8 = some e →
      Locked.live (n.Set allConnected silence 8 20 (-1)).node.localCache.now.1 e = true := by
    intro e he
    cases hview.symm.trans he
    rfl
  have hadmits : let c := (n.atLocalSet (-1)).localCache
      ∀ s ∈ c.shards[c.home 8]?, ∀ admission ∈ s.admission,
        ∀ victim ∈ ((c.now.2.locked s).pickVictim Locked.defaultAdmissionLFUSampleSize).1,
          admission.admits (c.hasher 8) (UInt64.ofInt ((c.now.2.locked s).body victim).frequency)
            ((c.now.2.locked s).body victim).lastAccess c.now.2.rt.wall = true := by
    decide +kernel
  refine (acknowledged_stored_iff hready.valid hprimary hok hlive).2.2.mpr ⟨hready.isOpen, ?_⟩
  rintro ⟨s, hs, -, -, -, -, admission, victim, hadmission, hvictim, hno⟩
  cases (hadmits s hs admission hadmission victim hvictim).symm.trans hno

/-- The shard is full. The second write returns `nil` and its version is recorded, but the filter
has turned its key away. -/
theorem acknowledged_not_stored :
    let n := ((soleOwner (gatedCache fun i => i + 1)).Set allConnected silence 7 10 (-1)).node
    let w := n.Set allConnected silence 8 20 (-1)
    n.isPrimary (n.owners 8) = true ∧ w.result = .ok () ∧
      (w.node.version [8], (n.absExpiry (-1)).2.next.1) = (513, 513) ∧
      (w.node.localCache.Get 8).1 = none := by
  decide +kernel

section Lifetimes

/-- The values of `int64` and of `time.Duration`. -/
def IsInt64 (x : Int) : Prop := -(2 ^ 63) ≤ x ∧ x < 2 ^ 63

def Timely (x : Int) : Prop := 0 < x ∧ x < 2 ^ 63

/-- The time to live that `Set` works with. -/
def effectiveTTL (config : Config) (ttl : Int) : Int :=
  if ttl = 0 then config.defaultTTL.toInt else ttl

/-- The expiry that an owner keeps and the one that it sends belong to the same lifetime: they are
finite together, and then each is one of the readings taken plus the time to live. -/
structure SameLifetime (taken : Int → Prop) (ttl kept sent : Int) : Prop where
  finite : 0 < kept ↔ sent ≠ 0
  stamped : 0 < kept → ∃ r r', taken r ∧ taken r' ∧ kept = r + ttl ∧ sent = r' + ttl

/-- There is no default that stands in for the time to live 0, and no deadline overflows: `rSet` is
the reading of the local `Set`, `rExp` that of `absExpiry`. -/
def LifetimesAgree (config : Config) (ttl rSet rExp : Int) : Prop :=
  (ttl = 0 → 0 < config.defaultTTL.toInt → ¬ Timely (rSet + config.defaultTTL.toInt)) ∧
    (0 < ttl → (Timely (rSet + ttl) ∧ rExp + ttl ≠ 0 ∧ rExp + ttl < 2 ^ 63) ∨
      (¬ Timely (rSet + ttl) ∧ rExp + ttl = 0))

theorem wrap64_pos_iff {x : Int} (h : -(2 ^ 63) ≤ x) (h' : x < 2 ^ 64) :
    0 < wrap64 x ↔ Timely x := by
  by_cases hx : x < 2 ^ 63
  · rw [wrap64_of_mem h hx]
    exact ⟨fun hpos => ⟨hpos, hx⟩, fun ht => ht.1⟩
  · rw [wrap64_of_ge (by omega) h']
    constructor
    · intro hpos
      omega
    · intro ht
      exact absurd ht.2 hx

variable {config : Config} {taken : Int → Prop} {rSet rExp : Int}

theorem sameLifetime_default (hset : IsInt64 rSet) :
    SameLifetime taken config.defaultTTL.toInt (InMemoryCache.stamp config rSet 0) 0 ↔
      (0 < config.defaultTTL.toInt → ¬ Timely (rSet + config.defaultTTL.toInt)) := by
  have hdef := config.defaultTTL.toInt_lt
  have hkept : 0 < InMemoryCache.stamp config rSet 0 ↔
      0 < config.defaultTTL.toInt ∧ Timely (rSet + config.defaultTTL.toInt) := by
    simp only [InMemoryCache.stamp, if_true]
    split_ifs with hpos
    · rw [wrap64_pos_iff (by have := hset.1; omega) (by have := hset.2; omega)]
      exact (and_iff_right hpos).symm
    · exact iff_of_false (by omega) fun hboth => hpos hboth.1
  constructor
  · intro hsame hpos ht
    exact hsame.finite.mp (hkept.mpr ⟨hpos, ht⟩) rfl
  · intro hno
    have hnot : ¬ 0 < InMemoryCache.stamp config rSet 0 := fun hpos =>
      hno (hkept.mp hpos).1 (hkept.mp hpos).2
    exact ⟨iff_of_false hnot fun hne => hne rfl, fun hpos => absurd hpos hnot⟩

theorem sameLifetime_pos {ttl : Int} (hpos : 0 < ttl) (httl : IsInt64 ttl)
    (htaken : ∀ r, taken r → IsInt64 r) (hset : taken rSet) (hexp : taken rExp) :
    SameLifetime taken ttl (wrap64 (rSet + ttl)) (wrap64 (rExp + ttl)) ↔
      (Timely (rSet + ttl) ∧ rExp + ttl ≠ 0 ∧ rExp + ttl < 2 ^ 63) ∨
        (¬ Timely (rSet + ttl) ∧ rExp + ttl = 0) := by
  obtain ⟨-, hmax⟩ := httl
  obtain ⟨hsetlo, hsethi⟩ := htaken rSet hset
  obtain ⟨hexplo, hexphi⟩ := htaken rExp hexp
  have hkept : 0 < wrap64 (rSet + ttl) ↔ Timely (rSet + ttl) :=
    wrap64_pos_iff (by omega) (by omega)
  have hsent : (rExp + ttl < 2 ^ 63 ∧ wrap64 (rExp + ttl) = rExp + ttl) ∨
      (2 ^ 63 ≤ rExp + ttl ∧ wrap64 (rExp + ttl) = rExp + ttl - 2 ^ 64) := by
    by_cases hfits : rExp + ttl < 2 ^ 63
    · exact .inl ⟨hfits, wrap64_of_mem (by omega) hfits⟩
    · exact .inr ⟨by omega, wrap64_of_ge (by omega) (by omega)⟩
  by_cases ht : Timely (rSet + ttl)
  · have hexact : wrap64 (rSet + ttl) = rSet + ttl := wrap64_of_mem (by omega) ht.2
    simp only [ht, true_and, not_true, false_and, or_false]
    constructor
    · intro hsame
      have hne := hsame.finite.mp (hkept.mpr ht)
      obtain ⟨-, r', -, hr', -, heq⟩ := hsame.stamped (hkept.mpr ht)
      have hlow := (htaken r' hr').1
      -- A deadline that has wrapped around is no reading plus the time to live.
      omega
    · rintro ⟨hne, hfits⟩
      have hsent' : wrap64 (rExp + ttl) = rExp + ttl := by omega
      refine ⟨iff_of_true (hkept.mpr ht) (by omega), fun _ => ?_⟩
      exact ⟨rSet, rExp, hset, hexp, hexact, hsent'⟩
  · have hnot : ¬ 0 < wrap64 (rSet + ttl) := fun hp => ht (hkept.mp hp)
    simp only [ht, false_and, not_false_eq_true, true_and, false_or]
    constructor
    · intro hsame
      have hzero : wrap64 (rExp + ttl) = 0 := by
        by_contra hne
        exact hnot (hsame.finite.mpr hne)
      omega
    · intro hzero
      refine ⟨iff_of_false hnot (by omega), fun hp => absurd hp hnot⟩

/-- The two expiries of one time to live. -/
theorem sameLifetime_iff {ttl : Int} (httl : IsInt64 ttl) (htaken : ∀ r, taken r → IsInt64 r)
    (hset : taken rSet) (hexp : 0 < ttl → taken rExp) :
    SameLifetime taken (effectiveTTL config ttl) (InMemoryCache.stamp config rSet ttl)
        (if ttl ≤ 0 then 0 else wrap64 (rExp + ttl)) ↔ LifetimesAgree config ttl rSet rExp := by
  rcases lt_trichotomy ttl 0 with hneg | rfl | hpos
  · have hstamp : InMemoryCache.stamp config rSet ttl = 0 := by
      simp only [InMemoryCache.stamp, if_neg hneg.ne, if_neg (by omega : ¬ 0 < ttl)]
    rw [hstamp, if_pos hneg.le]
    refine iff_of_true ⟨by simp, fun hp => absurd hp (lt_irrefl 0)⟩ ⟨?_, ?_⟩
    · intro hzero
      omega
    · intro hp
      omega
  · simpa [LifetimesAgree, effectiveTTL] using sameLifetime_default (htaken rSet hset)
  · have hstamp : InMemoryCache.stamp config rSet ttl = wrap64 (rSet + ttl) := by
      simp only [InMemoryCache.stamp, if_neg hpos.ne', if_pos hpos]
    have heff : effectiveTTL config ttl = ttl := if_neg hpos.ne'
    rw [hstamp, heff, if_neg (by omega), sameLifetime_pos hpos httl htaken hset (hexp hpos)]
    simp only [LifetimesAgree, hpos.ne', false_implies, true_and, hpos, true_implies]

end Lifetimes

section Calls
variable {n' : Node K V} {sent : List (NodeID × Msg)} {rSet rExp : Int}
  {reply : NodeID → MsgLeaseLoad → Except String MsgLeaseLoadResp}

/-- The owner keeps the value, and every message about it carries the same lifetime. The readings
are those between the two states. -/
def Shares (n n' : Node K V) (sent : List (NodeID × Msg)) (k : K) (v : V) (ttl : Int) : Prop :=
  ∃ kept, n'.localCache.view k = some (v, kept) ∧ ∀ x ∈ sent, ∀ s, x.2 = .set s →
    SameLifetime (InMemoryCache.Reads n.localCache n'.localCache)
      (effectiveTTL n.localCache.config ttl) kept s.Exp

/-- A call that stamps its entry with the reading `rSet` and its messages with `rExp`. -/
structure TimedCall (n n' : Node K V) (sent : List (NodeID × Msg)) (k : K) (v : V)
    (ttl rSet rExp : Int) : Prop where
  view : n'.localCache.view k = some (v, InMemoryCache.stamp n.localCache.config rSet ttl)
  sent : ∀ x ∈ sent, ∃ reqID key val ver cp,
    x.2 = .set ⟨reqID, key, val, if ttl ≤ 0 then 0 else wrap64 (rExp + ttl), ver, cp⟩
  set : InMemoryCache.Reads n.localCache n'.localCache rSet
  exp : 0 < ttl → InMemoryCache.Reads n.localCache n'.localCache rExp

omit [Inhabited V] in
theorem TimedCall.shares_iff (h : TimedCall n n' sent k v ttl rSet rExp) (hne : sent ≠ [])
    (httl : IsInt64 ttl) (hreadings : ∀ i, IsInt64 (n.localCache.rt.wall.reading i)) :
    Shares n n' sent k v ttl ↔ LifetimesAgree n.localCache.config ttl rSet rExp := by
  have htaken : ∀ r, InMemoryCache.Reads n.localCache n'.localCache r → IsInt64 r := by
    rintro r ⟨j, -, -, rfl⟩
    exact hreadings j
  rw [← sameLifetime_iff httl htaken h.set h.exp]
  constructor
  · rintro ⟨kept, hview, hall⟩
    obtain ⟨x, hx⟩ := List.exists_mem_of_ne_nil sent hne
    obtain ⟨reqID, key, val, ver, cp, hmsg⟩ := h.sent x hx
    rw [h.view, Option.some.injEq, Prod.mk.injEq] at hview
    rw [hview.2]
    exact hall x hx _ hmsg
  · intro hsame
    refine ⟨_, h.view, fun x hx s hs => ?_⟩
    obtain ⟨reqID, key, val, ver, cp, hmsg⟩ := h.sent x hx
    cases hs.symm.trans hmsg
    exact hsame

omit [Inhabited V] in
/-- Steps before the call that keep the configuration. -/
theorem TimedCall.before {n₀ : Node K V} (h : TimedCall n n' sent k v ttl rSet rExp)
    (hconfig : n.localCache.config = n₀.localCache.config)
    (hlater : WallClock.Later n₀.localCache.rt.wall n.localCache.rt.wall) :
    TimedCall n₀ n' sent k v ttl rSet rExp := by
  obtain ⟨hview, hsent, hset, hexp⟩ := h
  rw [hconfig] at hview
  exact ⟨hview, hsent, hset.widen hlater, fun hpos => (hexp hpos).widen hlater⟩

omit [DecidableEq K] [Inhabited V] in
theorem absExpiry_fst (n : Node K V) (ttl : Int) :
    (n.absExpiry ttl).1 = if ttl ≤ 0 then 0 else wrap64 (n.now.1 + ttl) := by
  unfold absExpiry
  split_ifs
  · rfl
  · rfl

omit [DecidableEq K] [Inhabited V] in
/-- The reading of `absExpiry` is taken before whatever follows it. -/
theorem absExpiry_reads (hpos : 0 < ttl)
    (hlater : WallClock.Later (n.absExpiry ttl).2.localCache.rt.wall n'.localCache.rt.wall) :
    InMemoryCache.Reads n.localCache n'.localCache n.now.1 := by
  have hnow : (n.absExpiry ttl).2 = n.now.2 := by
    unfold absExpiry
    rw [if_neg (by omega)]
  rw [hnow] at hlater
  exact ⟨n.localCache.rt.wall.ticks, Nat.le_refl _, hlater.ticks, rfl⟩

theorem Set_stamps (h : n.Ready) (hprimary : n.isPrimary (n.owners k) = true)
    (hdecl : ¬ (n.atLocalSet ttl).localCache.Declines k)
    (hne : (n.Set net replies k v ttl).sent ≠ []) :
    TimedCall n (n.Set net replies k v ttl).node (n.Set net replies k v ttl).sent k v ttl
      (n.atLocalSet ttl).now.1 n.now.1 := by
  rcases Set_primary net replies v ttl h.valid hprimary with ⟨err, hw⟩ | hw
  · rw [hw] at hne
    exact absurd rfl hne
  have habs := (absExpiry_silent h ttl).advances
  have hat : Advances n (n.atLocalSet ttl) := habs.trans (next_silent habs.ready).advances
  have hlater : WallClock.Later (n.absExpiry ttl).2.localCache.rt.wall
      (n.atLocalSet ttl).localCache.rt.wall := (next_silent habs.ready).advances.later
  obtain ⟨c, clock, heq, -, hconfig⟩ := atLocalSet_eq h.valid ttl
  have hset := (InMemoryCache.Set_spec hat.ready.valid hat.ready.isOpen k v ttl).1.outcome
  rcases InMemoryCache.view_Set hat.ready.valid hat.ready.isOpen k v ttl with
    ⟨hyes, -⟩ | ⟨-, hview⟩
  · exact absurd hyes hdecl
  have hconfig' : (n.atLocalSet ttl).localCache.config = n.localCache.config := by
    rw [heq]
    exact hconfig
  constructor
  · rw [hw.cache, hview, hconfig']
    rfl
  · intro x hx
    obtain ⟨reqID, val, ver, cp, hmsg⟩ := hw.sent x hx
    rw [absExpiry_fst] at hmsg
    exact ⟨reqID, _, val, ver, cp, hmsg⟩
  · rw [hw.cache]
    exact (InMemoryCache.Set_reads hat.ready.valid hat.ready.isOpen k v ttl).widen hat.later
  · intro hpos
    refine absExpiry_reads hpos ?_
    rw [hw.cache]
    exact hlater.trans hset.later

def afterGet (n : Node K V) (k : K) : Node K V := { n with localCache := (n.localCache.Get k).2 }

def afterLoad (n : Node K V) (k : K) (v : V) (ttl : Int) : Node K V :=
  { n with localCache := (n.localCache.Set k v ttl).2 }

/-- A load stores the value, takes some silent steps to `m`, then derives the expiry to send. -/
theorem load_stamps {m : Node K V} (h : n.Ready) (hdecl : ¬ n.localCache.Declines k)
    (hm : Silent (n.afterLoad k v ttl) m) (hn' : n'.localCache.view = m.localCache.view)
    (hlater : WallClock.Later (m.absExpiry ttl).2.localCache.rt.wall n'.localCache.rt.wall)
    (hsent : ∀ x ∈ sent, ∃ reqID key val ver cp,
      x.2 = .set ⟨reqID, key, val, (m.absExpiry ttl).1, ver, cp⟩) :
    TimedCall n n' sent k v ttl n.now.1 m.now.1 := by
  have hset := (InMemoryCache.Set_spec h.valid h.isOpen k v ttl).1.outcome
  have hend : WallClock.Later m.localCache.rt.wall n'.localCache.rt.wall :=
    (absExpiry_silent hm.advances.ready ttl).advances.later.trans hlater
  rcases InMemoryCache.view_Set h.valid h.isOpen k v ttl with ⟨hyes, -⟩ | ⟨-, hview⟩
  · exact absurd hyes hdecl
  rw [absExpiry_fst] at hsent
  constructor
  · rw [hn', hm.view]
    exact hview
  · exact hsent
  · obtain ⟨j, hlo, hhi, hj⟩ := InMemoryCache.Set_reads h.valid h.isOpen k v ttl
    exact ⟨j, hlo, Nat.lt_of_lt_of_le hhi (hm.advances.later.trans hend).ticks, hj⟩
  · intro hpos
    exact (absExpiry_reads hpos hlater).widen (hset.later.trans hm.advances.later)

theorem GetOrLoad_owned (hmiss : (n.localCache.Get k).1 = none)
    (hprimary : n.isPrimary (n.owners k) = true) (loader : Except String (V × Int)) :
    n.GetOrLoad net replies .acquired reply loader k =
      (n.afterGet k).loadOwned net replies loader (n.owners k) k := by
  have howners : Node.owners { n with localCache := (n.localCache.Get k).2 } k = n.owners k := rfl
  simp only [GetOrLoad, hmiss, howners]
  cases hown : n.owners k with
  | nil => simp [isPrimary, hown] at hprimary
  | cons o os =>
    have hself : o.ID = n.cfg.ID := by
      rw [hown] at hprimary
      exact beq_iff_eq.mp hprimary
    simp only [hself, if_true]
    rfl

theorem loadOwned_stamps {owners : List NodeMeta} (h : n.Ready)
    (hdecl : ¬ n.localCache.Declines k)
    (hne : (n.loadOwned net replies (.ok (v, ttl)) owners k).sent ≠ []) :
    TimedCall n (n.loadOwned net replies (.ok (v, ttl)) owners k).node
      (n.loadOwned net replies (.ok (v, ttl)) owners k).sent k v ttl n.now.1
      (n.afterLoad k v ttl).next.2.now.1 := by
  have hload : Advances n (n.afterLoad k v ttl) :=
    h.advances (InMemoryCache.Set_spec h.valid h.isOpen k v ttl).1.outcome
  have hnext := next_silent hload.ready
  have habs := absExpiry_silent hnext.advances.ready ttl
  generalize hr : n.loadOwned net replies (.ok (v, ttl)) owners k = r at hne
  simp only [loadOwned] at hr
  cases henc : n.codec.Encode v with
  | error err =>
    simp only [henc] at hr
    subst hr
    exact absurd rfl hne
  | ok bv =>
    simp only [henc] at hr
    split_ifs at hr
    · subst hr
      exact absurd rfl hne
    subst hr
    obtain ⟨hcache, -⟩ :=
      recordOwn_frame (((n.afterLoad k v ttl).next.2.absExpiry ttl).2.replicateSet
      net replies (n.kc.EncodeKey k) bv ((n.afterLoad k v ttl).next.2.absExpiry ttl).1
      (n.afterLoad k v ttl).next.1 owners).node (n.kc.EncodeKey k) (n.afterLoad k v ttl).next.1
    have hend := hcache.trans (sendAll_frame ..).1
    refine load_stamps h hdecl hnext ?_ ?_ fun x hx => ?_
    · rw [← habs.view]
      exact congrArg InMemoryCache.view hend
    · exact WallClock.Later.of_eq (congrArg (fun c => c.rt.wall) hend)
    · obtain ⟨-, reqID, hmsg⟩ := mem_sendAll hx
      exact ⟨reqID, _, _, _, _, hmsg⟩

theorem rpcLeaseLoad_owned {ll : MsgLeaseLoad} (hkey : n.kc.DecodeKey ll.Key = .ok k)
    (hmiss : (n.localCache.Get k).1 = none) (loader : K → Except String (V × Int)) :
    n.rpcLeaseLoad net replies true .acquired (some loader) ll =
      (n.afterGet k).leaseOwned net replies loader ll k := by
  simp only [rpcLeaseLoad, hkey, hmiss, if_true]
  rfl

theorem leaseOwned_stamps {loader : K → Except String (V × Int)} {ll : MsgLeaseLoad} (h : n.Ready)
    (hdecl : ¬ n.localCache.Declines k) (hload : loader k = .ok (v, ttl)) :
    TimedCall n (n.leaseOwned net replies loader ll k).node
      (n.leaseOwned net replies loader ll k).sent k v ttl n.now.1
      ((n.afterLoad k v ttl).ownersFor k).2.now.1 := by
  have hset : Advances n (n.afterLoad k v ttl) :=
    h.advances (InMemoryCache.Set_spec h.valid h.isOpen k v ttl).1.outcome
  have howners := ownersFor_silent hset.ready k
  have habs := absExpiry_silent howners.advances.ready ttl
  have hnext := next_silent habs.advances.ready
  simp only [leaseOwned, hload]
  change TimedCall n (recordOwn (replicateSet _ net replies ll.Key ..).node _ _) _ k v ttl _ _
  have hend :=
    (recordOwn_frame ((((n.afterLoad k v ttl).ownersFor k).2.absExpiry ttl).2.next.2.replicateSet
    net replies ll.Key ((n.afterLoad k v ttl).encodeAnyway v)
    (((n.afterLoad k v ttl).ownersFor k).2.absExpiry ttl).1
    (((n.afterLoad k v ttl).ownersFor k).2.absExpiry ttl).2.next.1
    (((n.afterLoad k v ttl).ownersFor k).1.getD [])).node ll.Key
    (((n.afterLoad k v ttl).ownersFor k).2.absExpiry ttl).2.next.1).1.trans (sendAll_frame ..).1
  refine load_stamps h hdecl howners ?_ ?_ fun x hx => ?_
  · rw [← (habs.trans hnext).view]
    exact congrArg InMemoryCache.view hend
  · exact hnext.advances.later.trans (WallClock.Later.of_eq (congrArg (fun c => c.rt.wall) hend))
  · obtain ⟨-, reqID, hmsg⟩ := mem_sendAll hx
    exact ⟨reqID, _, _, _, _, hmsg⟩

end Calls

/-- The first owner and the others agree on the lifetime of a write, of a load and of a load for
another node if and only if the time to live is not the 0 for which the default stands in, and no
deadline overflows. -/
theorem shares_iff_lifetimesAgree (h : n.Ready)
    (hreadings : ∀ i, IsInt64 (n.localCache.rt.wall.reading i)) (httl : IsInt64 ttl)
    (net : Network) (replies : NodeID → Except String Ack) (k : K) (v : V) :
    (n.isPrimary (n.owners k) = true → ¬ (n.atLocalSet ttl).localCache.Declines k →
      (n.Set net replies k v ttl).sent ≠ [] →
      (Shares n (n.Set net replies k v ttl).node (n.Set net replies k v ttl).sent k v ttl ↔
        LifetimesAgree n.localCache.config ttl (n.atLocalSet ttl).now.1 n.now.1)) ∧
    (n.isPrimary (n.owners k) = true → (n.localCache.Get k).1 = none →
      ¬ (n.afterGet k).localCache.Declines k →
      ∀ reply, (n.GetOrLoad net replies .acquired reply (.ok (v, ttl)) k).sent ≠ [] →
      (Shares n (n.GetOrLoad net replies .acquired reply (.ok (v, ttl)) k).node
          (n.GetOrLoad net replies .acquired reply (.ok (v, ttl)) k).sent k v ttl ↔
        LifetimesAgree n.localCache.config ttl (n.afterGet k).now.1
          ((n.afterGet k).afterLoad k v ttl).next.2.now.1)) ∧
    ((n.localCache.Get k).1 = none → ¬ (n.afterGet k).localCache.Declines k →
      ∀ ll loader, n.kc.DecodeKey ll.Key = .ok k → loader k = .ok (v, ttl) →
      (n.rpcLeaseLoad net replies true .acquired (some loader) ll).sent ≠ [] →
      (Shares n (n.rpcLeaseLoad net replies true .acquired (some loader) ll).node
          (n.rpcLeaseLoad net replies true .acquired (some loader) ll).sent k v ttl ↔
        LifetimesAgree n.localCache.config ttl (n.afterGet k).now.1
          (((n.afterGet k).afterLoad k v ttl).ownersFor k).2.now.1)) := by
  have hout := (InMemoryCache.get_spec h.valid h.isOpen k).1
  have hget : (n.afterGet k).Ready := (h.advances hout).ready
  refine ⟨?_, ?_, ?_⟩
  · intro hprimary hdecl hne
    exact (Set_stamps h hprimary hdecl hne).shares_iff hne httl hreadings
  · intro hprimary hmiss hdecl reply hne
    rw [GetOrLoad_owned hmiss hprimary] at hne ⊢
    exact ((loadOwned_stamps hget hdecl hne).before hout.shape.config hout.later).shares_iff hne
      httl hreadings
  · intro hmiss hdecl ll loader hkey hload hne
    rw [rpcLeaseLoad_owned hkey hmiss] at hne ⊢
    exact ((leaseOwned_stamps hget hdecl hload).before hout.shape.config hout.later).shares_iff hne
      httl hreadings

def willing : NodeID → Except String Ack := fun _ => .ok ⟨0, true, ""⟩

theorem shares_five_nanoseconds :
    let n := plain [2] pairRing (freshCache fun _ => 100)
    Shares n (n.Set allConnected willing 7 20 5).node (n.Set allConnected willing 7 20 5).sent 7 20
      5 := by
  intro n
  have hrep : Replica n := plain_replica ..
  have hrun : n.isPrimary (n.owners 7) = true ∧ (n.Set allConnected willing 7 20 5).sent ≠ [] ∧
      (n.atLocalSet 5).now.1 = 100 ∧ n.now.1 = 100 := by decide +kernel
  obtain ⟨hprimary, hsent, hset, hexp⟩ := hrun
  have hint64 : ∀ i, IsInt64 (n.localCache.rt.wall.reading i) := by
    intro i
    show IsInt64 ((freshCache fun _ => 100).rt.wall.reading i)
    rw [freshCache_reading]
    exact ⟨by decide, by decide⟩
  have hfree : ¬ (n.atLocalSet 5).localCache.Declines 7 := by
    rintro ⟨s, -, hd⟩
    exact absurd hd.limited (Int.not_lt.mpr hrep.unbounded)
  refine ((shares_iff_lifetimesAgree hrep.ready hint64 ⟨by decide, by decide⟩ allConnected willing 7
    20).1 hprimary hfree hsent).mpr ?_
  rw [hset, hexp]
  exact ⟨fun hzero => absurd hzero (by decide), fun _ => .inl ⟨⟨by decide, by decide⟩, by decide,
    by decide⟩⟩

def defaultingConfig : Config := { unboundedConfig with defaultTTL := 60 }

def expiries (sent : List (NodeID × Msg)) : List (NodeID × Int) :=
  sent.filterMap fun x => match x.2 with
    | .set s => some (x.1, s.Exp)
    | .setBulk _ => none
    | .del _ => none

set_option synthInstance.maxSize 400 in
/-- The time to live is 0 and the cache has a default of 60. The first owner's entry expires at
its reading plus 60, and the expiry that it sends to the other owner says that it never does. -/
theorem zero_ttl_diverges :
    (InMemoryCache.New defaultingConfig 1 UInt8.toUInt64 ⟨fun _ => 100, 0⟩ id).map (fun c =>
      let n := plain [2] pairRing c
      let w := n.Set allConnected willing 7 20 0
      let r := n.GetOrLoad allConnected willing .acquired (fun _ _ => .error ErrTimeout)
        (.ok (20, 0)) 7
      [(w.node.localCache.view 7, expiries w.sent), (r.node.localCache.view 7, expiries r.sent)]) =
    some [(some (20, 160), [([1], 0)]), (some (20, 160), [([1], 0)])] := by
  decide +kernel

end Node

end Kioshun
