import Kioshun.Cluster.OwnWrites
import Kioshun.Cluster.Pages
import Kioshun.Cluster.Rebalance
import Kioshun.Lib.Schedule

/-!
# Expiry across a transfer

Backfill and rebalancing send the time that an entry has left, added to a reading of the
clock. An entry is still there when the clock reads exactly its expiry, and it has no time
left then: it is sent as one that never expires.
-/

namespace Kioshun

universe u v
variable {K : Type u} {V : Type v}

namespace Node
open Schedule InMemoryCache List

section Arithmetic
variable {E r r' base : Int}

/-- An entry that does not expire is sent as such, and one that does with an expiry that is not
later. -/
def KeepsExpiry (E e : Int) : Prop := (E = 0 → e = 0) ∧ (0 < E → 0 < e ∧ e ≤ E)

/-- An entry that does not expire is sent as such, and one that does with some expiry. -/
def StillExpires (E e : Int) : Prop := (E = 0 → e = 0) ∧ (0 < E → e ≠ 0)

/-- The entry has time left, and the time fits into a `time.Duration`. -/
def TimeLeft (E r : Int) : Prop := r ≠ E ∧ E - r < 2 ^ 63

theorem remaining_of_timeLeft (hpos : 0 < E) (hle : r ≤ E) (h : TimeLeft E r) :
    remaining E r = E - r := by
  have hleft : 0 ≤ E - r := Int.sub_nonneg.mpr hle
  rw [remaining, if_neg hpos.ne']
  exact wrap64_of_mem (by omega) h.2

theorem remaining_nonpos (hE : IsInt64 E) (hr : IsInt64 r) (hpos : 0 < E) (h : ¬ TimeLeft E r) :
    remaining E r ≤ 0 := by
  rw [remaining, if_neg hpos.ne']
  have hE' := hE.2
  have hr' := hr.1
  by_cases hbig : E - r < 2 ^ 63
  · have heq : r = E := not_not.mp fun hne => h ⟨hne, hbig⟩
    rw [heq, Int.sub_self]
    decide
  · rw [wrap64_of_ge (by omega) (by omega)]
    omega

theorem absExpiryAt_keeps_iff (hE : IsInt64 E) (hr : IsInt64 r) (hb : IsInt64 base) (hbr : base ≤ r)
    (hlive : 0 < E → r ≤ E) :
    KeepsExpiry E (absExpiryAt base (remaining E r)) ↔
      (0 < E → TimeLeft E r ∧ r - base < E) := by
  have hzero : E = 0 → absExpiryAt base (remaining E r) = 0 := by
    rintro rfl
    rfl
  rw [KeepsExpiry, and_iff_right hzero]
  refine imp_congr_right fun hpos => ?_
  have hle := hlive hpos
  by_cases htime : TimeLeft E r
  · have hrem := remaining_of_timeLeft hpos hle htime
    have hleft := htime.1
    have hE' := hE.2
    have hb' := hb.1
    rw [hrem, absExpiryAt, if_neg (by omega), wrap64_of_mem (by omega) (by omega),
      and_iff_right htime]
    omega
  · rw [absExpiryAt, if_pos (remaining_nonpos hE hr hpos htime)]
    exact iff_of_false (fun hkept => Int.lt_irrefl 0 hkept.1) fun hboth => htime hboth.1

theorem absExpiry_expires_iff (hE : IsInt64 E) (hr : IsInt64 r) (hr' : IsInt64 r') (hrr : r ≤ r')
    (hlive : 0 < E → r ≤ E) :
    StillExpires E (if remaining E r ≤ 0 then 0
        else wrap64 (r' + remaining E r)) ↔ (0 < E → TimeLeft E r) := by
  have hzero : E = 0 → (if remaining E r ≤ 0 then 0
      else wrap64 (r' + remaining E r)) = 0 := by
    rintro rfl
    rfl
  rw [StillExpires, and_iff_right hzero]
  refine imp_congr_right fun hpos => ?_
  have hle := hlive hpos
  by_cases htime : TimeLeft E r
  · have hrem := remaining_of_timeLeft hpos hle htime
    have hleft := htime
    have hr₂ := hr'.2
    rw [hrem, if_neg (by have := htime.1; omega)]
    refine iff_of_true ?_ htime
    by_cases hbig : r' + (E - r) < 2 ^ 63
    · rw [wrap64_of_mem (by omega) hbig]
      omega
    · rw [wrap64_of_ge (by omega) (by have := htime.2; omega)]
      have := htime.2
      omega
  · rw [if_pos (remaining_nonpos hE hr hpos htime)]
    exact iff_of_false (fun hne => hne rfl) htime

end Arithmetic

variable {n n' m : Node K V} {k : K} [DecidableEq K]

/-- The node later in a transfer: it may have lost entries, and it has no others. -/
structure Follows (n n' : Node K V) : Prop where
  advances : Advances n n'
  entries : ∀ k e, n'.localCache.view k = some e → n.localCache.view k = some e

theorem Silent.follows (h : Silent n n') : Follows n n' :=
  ⟨h.advances, fun k e he => by rw [← h.view]; exact he⟩

theorem Follows.trans {n'' : Node K V} (h : Follows n n') (h' : Follows n' n'') : Follows n n'' :=
  ⟨h.advances.trans h'.advances, fun k e he => h.entries k e (h'.entries k e he)⟩

def readRow (n : Node K V) (k : K) : Node K V :=
  { n with localCache := (n.localCache.GetWithTTL k).2 }

theorem readRow_follows (h : n.Ready) (k : K) : Follows n (n.readRow k) := by
  obtain ⟨hout, hlook⟩ := get_spec h.valid h.isOpen k
  have hadv := h.advances hout
  simp only [readRow, GetWithTTL]
  generalize n.localCache.get k = got at hlook hadv ⊢
  cases hlook with
  | hit entry live reads first view => exact (⟨hadv, rfl, view⟩ : Silent _ _).follows
  | absent entry view => exact (⟨hadv, rfl, view⟩ : Silent _ _).follows
  | expired entry stale reads view =>
    refine ⟨hadv, fun k' e he => ?_⟩
    rw [view] at he
    by_cases hk : k' = k
    · rw [hk, Function.update_self] at he
      cases he
    · rwa [Function.update_of_ne hk] at he

theorem rebalanceKey_follows (h : n.Ready) (up : NodeID → Bool) (reply : Except String Ack)
    (k : K) : Follows n (n.rebalanceKey up reply k).2 := by
  obtain ⟨hadv, hfate⟩ := rebalanceKey_fate h up reply k
  refine ⟨hadv, fun k' e he => ?_⟩
  cases hfate k' with
  | kept view => rw [← view]; exact he
  | moved entry other mem key acknowledged primary carries gone => cases gone.symm.trans he
  | expired entry other reads stale gone => cases gone.symm.trans he

/-- With a clock that does not step back, `GetWithTTL` finds an entry that is live at its first
reading, and the time that this reading leaves. -/
theorem getWithTTL_reads (h : n.Ready) (hmono : Monotone n.localCache.rt.wall.reading) {v : V}
    {ttl : Int} (hgot : (n.localCache.GetWithTTL k).1 = some (v, ttl)) :
    ∃ E, n.localCache.view k = some (v, E) ∧ (0 < E → n.now.1 ≤ E) ∧
      ttl = remaining E n.now.1 := by
  have hlook := (get_spec h.valid h.isOpen k).2
  simp only [GetWithTTL] at hgot
  generalize n.localCache.get k = got at hlook hgot
  cases hlook with
  | absent entry view => cases hgot
  | expired entry stale reads view => cases hgot
  | @hit c a now entry live reads first view =>
    simp only [Option.map_some, Option.some.injEq, Prod.mk.injEq] at hgot
    obtain ⟨rfl, rfl⟩ := hgot
    have hle : 0 < (c.body a).expireTime → now ≤ (c.body a).expireTime := by
      simp only [Locked.live, Bool.not_eq_true', decide_eq_false_iff_not, not_and, not_lt] at live
      exact live
    have hnow : now = n.now.1 := by
      rcases first with hfirst | hstale
      · exact hfirst
      · -- what is expired at the first reading is so at every later one
        obtain ⟨j, hj, -, hread⟩ := reads
        have hearly : n.localCache.now.1 ≤ now := hread ▸ hmono hj
        simp only [Locked.live, Bool.not_eq_false', decide_eq_true_eq] at hstale
        have := hle hstale.1
        omega
    exact ⟨_, entry, hnow ▸ hle, by rw [hnow]⟩

section Loops

/-- The rows of a page, each with the node in the state in which `GetWithTTL` is called for it. -/
def pageTurns (n : Node K V) (req : MsgBackfillKeysReq) : List (Node K V × K) :=
  turns readRow n.listed.now.2
    ((n.listed.backfillRows req n.localCache.Keys.1).take (pageLimit req.Limit))

variable {req : MsgBackfillKeysReq}

theorem pageTurns_follows (h : n.Ready) {t : Node K V × K} (ht : t ∈ n.pageTurns req) :
    Follows n.listed.now.2 t.1 := by
  have hnow := now_silent (listed_silent h).advances.ready
  exact turns_invariant (I := Follows n.listed.now.2)
    (fun s e hs => hs.trans (readRow_follows hs.advances.ready e))
    (Silent.refl hnow.advances.ready).follows ht

/-- The item is made from what `GetWithTTL` finds for a row. -/
def MadeFrom (base : Int) (t : Node K V × K) (it : KV) : Prop :=
  ∃ v ttl, (t.1.localCache.GetWithTTL t.2).1 = some (v, ttl) ∧ it.K = t.1.kc.EncodeKey t.2 ∧
    it.E = absExpiryAt base ttl

theorem mem_backfillItems {base : Int} {ks : List K} {it : KV}
    (hit : it ∈ (backfillItems base ks n).1) : ∃ t ∈ turns readRow n ks, MadeFrom base t it := by
  induction ks generalizing n with
  | nil => exact absurd hit not_mem_nil
  | cons k ks ih =>
    have hlater : it ∈ (backfillItems base ks (n.readRow k)).1 →
        ∃ t ∈ turns readRow n (k :: ks), MadeFrom base t it := by
      intro hin
      obtain ⟨t, ht, hrest⟩ := ih hin
      exact ⟨t, mem_cons_of_mem _ ht, hrest⟩
    cases hgot : (n.localCache.GetWithTTL k).1 with
    | none =>
      simp only [backfillItems, hgot] at hit
      exact hlater hit
    | some found =>
      simp only [backfillItems, hgot] at hit
      rcases mem_cons.mp hit with rfl | hin
      · exact ⟨(n, k), mem_cons_self, found.1, found.2, hgot, rfl, rfl⟩
      · exact hlater hin

theorem mem_rpcBackfillKeys {it : KV} (hit : it ∈ (n.rpcBackfillKeys req).1.Items) :
    ∃ t ∈ n.pageTurns req, MadeFrom n.listed.now.1 t it := by
  unfold rpcBackfillKeys at hit
  split_ifs at hit
  · exact absurd hit not_mem_nil
  · exact mem_backfillItems hit
  · exact absurd hit not_mem_nil

/-- The keys that `rebalanceOnce` comes to, each with its number and the node in its state then. -/
def pushTurns (n : Node K V) (up : Nat → NodeID → Bool) (reply : Nat → Except String Ack) :
    List (Node K V × K × Nat) :=
  let keys := n.localCache.Keys.1
  let limit := n.cfg.RebalanceLimit
  let bound := if limit ≤ 0 ∨ (keys.length : Int) < limit then keys.length else limit.toNat
  turns (fun m t => (m.rebalanceKey (up t.2) (reply t.2) t.1).2) n.listed (keys.take bound).zipIdx

variable {reply : Nat → Except String Ack} {up : Nat → NodeID → Bool}

theorem pushTurns_follows (h : n.Ready) {t : Node K V × K × Nat} (ht : t ∈ n.pushTurns up reply) :
    Follows n t.1 := by
  have hlisted := listed_silent h
  exact hlisted.follows.trans (turns_invariant (I := Follows n.listed)
    (fun s t hs => hs.trans (rebalanceKey_follows hs.advances.ready _ _ t.1))
    (Silent.refl hlisted.advances.ready).follows ht)

/-- The readings of the clock are those of the node at the beginning. -/
theorem Follows.now_eq (h : Follows n m) :
    m.now.1 = n.localCache.rt.wall.reading m.localCache.rt.wall.ticks := by
  show m.localCache.rt.wall.reading _ = _
  rw [h.advances.later.reading]

theorem mem_rebalanceLoop {i : Nat} {ks : List K} {p : Push K}
    (hp : p ∈ (rebalanceLoop up reply i ks n).1) :
    ∃ t ∈ turns (fun m t => (m.rebalanceKey (up t.2) (reply t.2) t.1).2) n (ks.zipIdx i),
      (t.1.rebalanceKey (up t.2.2) (reply t.2.2) t.2.1).1 = some p := by
  induction ks generalizing n i with
  | nil => exact absurd hp not_mem_nil
  | cons k ks ih =>
    rw [zipIdx_cons]
    rcases mem_append.mp hp with hone | hrest
    · exact ⟨(n, k, i), mem_cons_self, Option.mem_toList.mp hone⟩
    · obtain ⟨t, ht, hpush⟩ := ih hrest
      exact ⟨t, mem_cons_of_mem _ ht, hpush⟩

/-- What the message of an iteration is made from. -/
theorem pushOf_some {up : NodeID → Bool} {primary : NodeID} {msg : MsgSet}
    (hpush : (n.pushOf up k).1 = some (primary, msg)) :
    ∃ v ttl, ((n.ownersFor k).2.localCache.GetWithTTL k).1 = some (v, ttl) ∧
      msg.Exp = (((n.ownersFor k).2.readRow k).absExpiry ttl).1 := by
  unfold pushOf at hpush
  simp only at hpush
  cases howners : (n.ownersFor k).1.getD [] with
  | nil =>
    rw [howners] at hpush
    cases hpush
  | cons o os =>
    simp only [howners] at hpush
    by_cases hself : o.ID = n.cfg.ID
    · rw [if_pos hself] at hpush
      cases hpush
    · rw [if_neg hself] at hpush
      cases hgot : ((n.ownersFor k).2.localCache.GetWithTTL k).1 with
      | none =>
        rw [hgot] at hpush
        cases hpush
      | some found =>
        refine ⟨found.1, found.2, rfl, ?_⟩
        simp only [hgot] at hpush
        split at hpush
        · cases hpush
        · split_ifs at hpush
          · simp only [Option.some.injEq, Prod.mk.injEq] at hpush
            rw [← hpush.2]
            rfl

end Loops

/-- An item of a page keeps the expiry of its entry if and only if the clock does not read the
expiry itself when the row is read. (Before 1970 the time that is left may not fit, or the sum may
not be positive.) -/
theorem rpcBackfillKeys_keeps_iff (h : n.Ready) (hmono : Monotone n.localCache.rt.wall.reading)
    (hreadings : ∀ j, IsInt64 (n.localCache.rt.wall.reading j)) (req : MsgBackfillKeysReq) {it : KV}
    (hit : it ∈ (n.rpcBackfillKeys req).1.Items) :
    ∃ m k v E, (m, k) ∈ n.pageTurns req ∧ it.K = n.kc.EncodeKey k ∧
      n.localCache.view k = some (v, E) ∧ (IsInt64 E →
        (KeepsExpiry E it.E ↔ (0 < E → TimeLeft E m.now.1 ∧ m.now.1 - n.listed.now.1 < E))) := by
  obtain ⟨⟨m, k⟩, hturn, v, ttl, hgot, hkey, hexp⟩ := mem_rpcBackfillKeys hit
  have hlisted := listed_silent h
  have hnow := now_silent hlisted.advances.ready
  have hfrom : Follows n.listed.now.2 m := pageTurns_follows h hturn
  have hfollows : Follows n m := (hlisted.trans hnow).follows.trans hfrom
  have hmono' : Monotone m.localCache.rt.wall.reading := by
    rw [hfollows.advances.later.reading]
    exact hmono
  obtain ⟨E, hentry, hlive, rfl⟩ := getWithTTL_reads hfollows.advances.ready hmono' hgot
  refine ⟨m, k, v, E, hturn, ?_, hfollows.entries k _ hentry, fun hE => ?_⟩
  · rw [hkey, hfollows.advances.kc]
  · have hbase : n.listed.now.1 ≤ m.now.1 := by
      rw [hfollows.now_eq, hlisted.follows.now_eq]
      exact hmono ((Nat.le_succ _).trans hfrom.advances.later.ticks)
    rw [hexp]
    refine absExpiryAt_keeps_iff hE ?_ ?_ hbase hlive
    · rw [hfollows.now_eq]
      exact hreadings _
    · rw [hlisted.follows.now_eq]
      exact hreadings _

/-- The message of `rebalanceOnce` for an entry that expires has an expiry if and only if the clock
does not read the expiry itself when the entry is read. -/
theorem rebalanceOnce_expires_iff (h : n.Ready) (hmono : Monotone n.localCache.rt.wall.reading)
    (hreadings : ∀ j, IsInt64 (n.localCache.rt.wall.reading j)) (up : Nat → NodeID → Bool)
    (reply : Nat → Except String Ack) {p : Push K} (hp : p ∈ (n.rebalanceOnce up reply).1) :
    ∃ m i v E, (m, p.key, i) ∈ n.pushTurns up reply ∧ n.localCache.view p.key = some (v, E) ∧
      (IsInt64 E → (StillExpires E p.msg.Exp ↔
        (0 < E → TimeLeft E (m.ownersFor p.key).2.now.1))) := by
  obtain ⟨⟨m, k, i⟩, hturn, hsent⟩ := mem_rebalanceLoop hp
  obtain ⟨rfl, hpush⟩ := rebalanceKey_some hsent
  obtain ⟨v, ttl, hgot, hexp⟩ := pushOf_some hpush
  have hfrom : Follows n m := pushTurns_follows h hturn
  have howners := ownersFor_silent hfrom.advances.ready p.key
  have hfollows : Follows n (m.ownersFor p.key).2 := hfrom.trans howners.follows
  have hrow := hfollows.trans (readRow_follows hfollows.advances.ready p.key)
  have hmono' : Monotone (m.ownersFor p.key).2.localCache.rt.wall.reading := by
    rw [hfollows.advances.later.reading]
    exact hmono
  obtain ⟨E, hentry, hlive, rfl⟩ := getWithTTL_reads hfollows.advances.ready hmono' hgot
  refine ⟨m, i, v, E, hturn, hfollows.entries _ _ hentry, fun hE => ?_⟩
  have hsum : p.msg.Exp = if remaining E (m.ownersFor p.key).2.now.1 ≤ 0 then 0
      else wrap64 (((m.ownersFor p.key).2.readRow p.key).now.1 +
        remaining E (m.ownersFor p.key).2.now.1) := by
    rw [hexp, absExpiry]
    split_ifs <;> rfl
  have hlater : (m.ownersFor p.key).2.now.1 ≤ ((m.ownersFor p.key).2.readRow p.key).now.1 := by
    rw [hfollows.now_eq, hrow.now_eq]
    exact hmono (readRow_follows hfollows.advances.ready p.key).advances.later.ticks
  rw [hsum]
  refine absExpiry_expires_iff hE ?_ ?_ hlater hlive
  · rw [hfollows.now_eq]
    exact hreadings _
  · rw [hrow.now_eq]
    exact hreadings _

/-- Both transfers: an entry keeps expiring exactly if the clock does not read its expiry when the
entry is read. -/
theorem transfer_expiry_iff (h : n.Ready) (hmono : Monotone n.localCache.rt.wall.reading)
    (hreadings : ∀ j, IsInt64 (n.localCache.rt.wall.reading j)) :
    (∀ req, ∀ it ∈ (n.rpcBackfillKeys req).1.Items,
      ∃ m k v E, (m, k) ∈ n.pageTurns req ∧ it.K = n.kc.EncodeKey k ∧
        n.localCache.view k = some (v, E) ∧ (IsInt64 E →
          (KeepsExpiry E it.E ↔ (0 < E → TimeLeft E m.now.1 ∧ m.now.1 - n.listed.now.1 < E)))) ∧
    ∀ up reply, ∀ p ∈ (n.rebalanceOnce up reply).1,
      ∃ m i v E, (m, p.key, i) ∈ n.pushTurns up reply ∧ n.localCache.view p.key = some (v, E) ∧
        (IsInt64 E → (StillExpires E p.msg.Exp ↔
          (0 < E → TimeLeft E (m.ownersFor p.key).2.now.1))) :=
  ⟨fun req _ hit => rpcBackfillKeys_keeps_iff h hmono hreadings req hit,
    fun up reply _ hp => rebalanceOnce_expires_iff h hmono hreadings up reply hp⟩

def heldUntil (exp : Int) (c : InMemoryCache UInt8 UInt8) : Node UInt8 UInt8 :=
  ((plain [1] pairRing c).rpcSet ⟨1, [7], [10], exp, 1, false⟩).2

theorem heldUntil_view (exp : Int) (reading : Nat → Int) :
    Advances (plain [1] pairRing (freshCache reading)) (heldUntil exp (freshCache reading)) ∧
      ∀ k e, (heldUntil exp (freshCache reading)).localCache.view k = some e → e = (10, exp) := by
  obtain ⟨hadv, hview⟩ := plain_rpcSet_view reading [1] pairRing 7 10 exp 1
  exact ⟨hadv, fun k e he => (hview k e he).2⟩

/-- With 50 nanoseconds left both transfers keep the expiry. -/
theorem transfer_expiry_left :
    let n := heldUntil 200 (freshCache fun _ => 150)
    (∀ it ∈ (n.rpcBackfillKeys ⟨1, [2], [0], 10, []⟩).1.Items, KeepsExpiry 200 it.E) ∧
      ∀ p ∈ (n.rebalanceOnce (fun _ _ => true) fun _ => .ok ⟨0, true, ""⟩).1,
        StillExpires 200 p.msg.Exp := by
  intro n
  obtain ⟨hadv, hview⟩ := heldUntil_view 200 fun _ => 150
  have hreading : n.localCache.rt.wall.reading = fun _ => 150 :=
    hadv.later.reading.trans (freshCache_reading _)
  have hint64 : ∀ j, IsInt64 (n.localCache.rt.wall.reading j) := fun j => by
    rw [hreading]
    constructor <;> norm_num
  obtain ⟨hpages, hpushes⟩ := transfer_expiry_iff hadv.ready
    (by rw [hreading]; exact monotone_const) hint64
  refine ⟨fun it hit => ?_, fun p hp => ?_⟩
  · obtain ⟨m, k, v, E, hturn, -, hentry, hiff⟩ := hpages _ it hit
    cases hview k _ hentry
    have hfrom := (((listed_silent hadv.ready).trans (now_silent
      (listed_silent hadv.ready).advances.ready)).follows.trans
        (pageTurns_follows hadv.ready hturn))
    refine (hiff (by constructor <;> norm_num)).mpr fun _ => ?_
    rw [hfrom.now_eq, (listed_silent hadv.ready).follows.now_eq, hreading]
    exact ⟨⟨by norm_num, by norm_num⟩, by norm_num⟩
  · obtain ⟨m, i, v, E, hturn, hentry, hiff⟩ := hpushes _ _ p hp
    cases hview _ _ hentry
    have hfrom := pushTurns_follows hadv.ready hturn
    have howners := hfrom.trans (ownersFor_silent hfrom.advances.ready p.key).follows
    refine (hiff (by constructor <;> norm_num)).mpr fun _ => ?_
    rw [howners.now_eq, hreading]
    exact ⟨by norm_num, by norm_num⟩

/-- The clock reads 150, the expiry of the entry: it is sent without one. -/
theorem transfer_loses_expiry :
    let n := heldUntil 150 (freshCache fun _ => 150)
    n.localCache.view 7 = some (10, 150) ∧
      (n.rpcBackfillKeys ⟨1, [2], [0], 10, []⟩).1.Items.map (fun it => (it.K, it.E)) = [([7], 0)] ∧
      (n.rebalanceOnce (fun _ _ => true) fun _ => .ok ⟨0, true, ""⟩).1.map
        (fun p => (p.key, p.msg.Exp)) = [(7, 0)] := by
  decide +kernel

end Node

end Kioshun
