import Kioshun.Cluster.ReadBack

/-!
# Rebalancing

`rebalanceOnce` pushes local entries to the first owner of their key and deletes
the local copy when the push is acknowledged. Only keys whose first owner is the
node itself are left alone: a copy that the node keeps as a later owner is pushed
and deleted as well.
-/

namespace Kioshun
open Function InMemoryCache

universe u v
variable {K : Type u} {V : Type v}

/-- A request of `rebalanceOnce` and what came back: a reply or a failure. -/
structure Push (K : Type u) where
  key : K
  primary : NodeID
  msg : MsgSet
  reply : Except String Ack

/-- The reply decodes and has OK. -/
def Push.acknowledged (p : Push K) : Bool :=
  match p.reply with
  | .ok resp => resp.OK
  | .error _ => false

namespace Node

variable [DecidableEq K]

/-- An iteration up to the request: the message and where it goes to. `up` tells for which peers
there is a connection that is not penalized. -/
def pushOf (n : Node K V) (up : NodeID → Bool) (k : K) : Option (NodeID × MsgSet) × Node K V :=
  let owners := n.ownersFor k
  match owners.1.getD [] with
  | [] => (none, owners.2)
  | primary :: _ =>
    if primary.ID = n.cfg.ID then (none, owners.2)
    else
      let got := owners.2.localCache.GetWithTTL k
      let n := { owners.2 with localCache := got.2 }
      match got.1 with
      | none => (none, n)
      | some (v, ttl) =>
        match n.codec.Encode v with
        | .error _ => (none, n)
        | .ok vb =>
          let exp := n.absExpiry ttl
          if up primary.ID then
            let id := exp.2.nextReqID
            let ver := id.2.next
            (some (primary.ID, ⟨id.1, n.kc.EncodeKey k, (n.maybeCompress vb).1, exp.1, ver.1,
              (n.maybeCompress vb).2⟩), ver.2)
          else (none, exp.2)

def rebalanceKey (n : Node K V) (up : NodeID → Bool) (reply : Except String Ack) (k : K) :
    Option (Push K) × Node K V :=
  let pushed := n.pushOf up k
  match pushed.1 with
  | none => (none, pushed.2)
  | some (primary, msg) =>
    let push : Push K := ⟨k, primary, msg, reply⟩
    if push.acknowledged then
      (some push, { pushed.2 with localCache := (pushed.2.localCache.Delete k).2 })
    else (some push, pushed.2)

/-- The loop of `rebalanceOnce`, with the connections and the reply of every iteration. -/
def rebalanceLoop (up : Nat → NodeID → Bool) (reply : Nat → Except String Ack) :
    Nat → List K → Node K V → List (Push K) × Node K V
  | _, [], n => ([], n)
  | i, k :: ks, n =>
    let one := n.rebalanceKey (up i) (reply i) k
    let rest := rebalanceLoop up reply (i + 1) ks one.2
    (one.1.toList ++ rest.1, rest.2)

def rebalanceOnce (n : Node K V) (up : Nat → NodeID → Bool) (reply : Nat → Except String Ack) :
    List (Push K) × Node K V :=
  let keys := n.localCache.Keys
  let limit := n.cfg.RebalanceLimit
  let bound := if limit ≤ 0 ∨ (keys.1.length : Int) < limit then keys.1.length else limit.toNat
  rebalanceLoop up reply 0 (keys.1.take bound) { n with localCache := keys.2 }

variable {n n' n'' : Node K V} {up : NodeID → Bool} {k : K} {ver : UInt64}

def Foreign (n : Node K V) (k : K) (primary : NodeID) : Prop :=
  ((n.ownersFor k).1.getD []).head?.map NodeMeta.ID = some primary ∧ primary ≠ n.cfg.ID

structure Carries (n : Node K V) (k : K) (v : V) (msg : MsgSet) : Prop where
  key : msg.Key = n.kc.EncodeKey k
  value : ∃ vb, n.codec.Encode v = .ok vb ∧ msg.Val = (n.maybeCompress vb).1 ∧
    msg.Cp = (n.maybeCompress vb).2

/-- The version of the message is issued at the last reading of the clock. -/
def Stamps (n n' : Node K V) (ver : UInt64) : Prop :=
  ∃ j, n'.localCache.rt.wall.ticks = j + 1 ∧
    ver = (n.clock.Next (unixMilli (n.localCache.rt.wall.reading j))).1

/-- How an iteration goes up to the request. What it finds and can encode is left alone only if
there is no connection to the first owner. -/
inductive Prepares (n : Node K V) (up : NodeID → Bool) (k : K) :
    Option (NodeID × MsgSet) × Node K V → Prop where
  | skip {n' : Node K V} (silent : Silent n n')
      (unsent : ∀ primary e vb, Foreign n k primary → n.localCache.view k = some e →
        n.codec.Encode e.1 = .ok vb → up primary = false) : Prepares n up k (none, n')
  | expired {n' : Node K V} {primary : NodeID} {e : V × Int} {now : Int} (advances : Advances n n')
      (foreign : Foreign n k primary) (entry : n.localCache.view k = some e)
      (reads : InMemoryCache.Reads n.localCache n'.localCache now)
      (stale : Locked.live now e = false)
      (view : n'.localCache.view = update n.localCache.view k none) :
      Prepares n up k (none, n')
  | sent {n' : Node K V} {primary : NodeID} {msg : MsgSet} {e : V × Int} (silent : Silent n n')
      (foreign : Foreign n k primary) (entry : n.localCache.view k = some e)
      (carries : Carries n k e.1 msg) (stamps : Stamps n n' msg.Ver) :
      Prepares n up k (some (primary, msg), n')

omit [DecidableEq K] in
theorem ownersFor_clock : (n.ownersFor k).2.clock = n.clock := by
  unfold ownersFor
  cases n.hotSet (n.kc.EncodeKey k) with
  | none => rfl
  | some expAt =>
    simp only
    split_ifs
    · rfl
    · rfl

omit [DecidableEq K] in
theorem absExpiry_clock (ttl : Int) : (n.absExpiry ttl).2.clock = n.clock := by
  unfold absExpiry
  split_ifs
  · rfl
  · rfl

/-- What the iteration does once it has found the entry. -/
theorem sent_spec (h : n.Ready) {vb : Bytes} {v : V} (henc : n.codec.Encode v = .ok vb)
    (ttl : Int) :
    Silent n (n.absExpiry ttl).2.nextReqID.2.next.2 ∧
      Stamps n (n.absExpiry ttl).2.nextReqID.2.next.2 (n.absExpiry ttl).2.nextReqID.2.next.1 ∧
      Carries n k v ⟨(n.absExpiry ttl).2.nextReqID.1, n.kc.EncodeKey k, (n.maybeCompress vb).1,
        (n.absExpiry ttl).1, (n.absExpiry ttl).2.nextReqID.2.next.1, (n.maybeCompress vb).2⟩ := by
  have habs := absExpiry_silent h ttl
  have hreq := nextReqID_silent habs.advances.ready
  have hnext := next_silent hreq.advances.ready
  refine ⟨(habs.trans hreq).trans hnext, ⟨_, rfl, ?_⟩, rfl, vb, henc, rfl, rfl⟩
  show ((n.absExpiry ttl).2.clock.Next _).1 = _
  rw [absExpiry_clock]
  have hreading := habs.advances.later.reading
  show (n.clock.Next (unixMilli ((n.absExpiry ttl).2.localCache.rt.wall.reading _))).1 = _
  rw [hreading]

/-- The part after `GetWithTTL` as a step from the beginning of the iteration. -/
theorem Stamps.of_silent (h : Stamps n' n'' ver) (hs : Silent n n') (hclock : n'.clock = n.clock) :
    Stamps n n'' ver := by
  obtain ⟨j, hj, hver⟩ := h
  refine ⟨j, hj, ?_⟩
  rw [hver, hclock, hs.advances.later.reading]

theorem Carries.of_advances {v : V} {msg : MsgSet} (h : Carries n' k v msg) (ha : Advances n n') :
    Carries n k v msg := by
  obtain ⟨hkey, vb, henc, hval, hcp⟩ := h
  rw [ha.maybeCompress] at hval hcp
  exact ⟨by rw [hkey, ha.kc], vb, by rw [← ha.codec]; exact henc, hval, hcp⟩

theorem pushOf_prepares (h : n.Ready) (up : NodeID → Bool) (k : K) :
    Prepares n up k (n.pushOf up k) := by
  have hown := ownersFor_silent h k
  have hclock : (n.ownersFor k).2.clock = n.clock := ownersFor_clock
  cases howners : (n.ownersFor k).1.getD [] with
  | nil =>
    simp only [pushOf, howners]
    exact .skip hown fun primary e vb hforeign => by simp [Foreign, howners] at hforeign
  | cons primary os =>
    have hfirst : ∀ id, Foreign n k id → primary.ID = id ∧ id ≠ n.cfg.ID := fun id hforeign =>
      ⟨by simpa [howners] using hforeign.1, hforeign.2⟩
    by_cases hself : primary.ID = n.cfg.ID
    · simp only [pushOf, howners, hself, if_true]
      exact .skip hown fun id e vb hforeign =>
        absurd ((hfirst id hforeign).1.symm.trans hself) (hfirst id hforeign).2
    · have hforeign : Foreign n k primary.ID := ⟨by rw [howners]; rfl, hself⟩
      obtain ⟨hout, hlook⟩ := get_spec hown.advances.ready.valid hown.advances.ready.isOpen k
      have hgot := hown.advances.ready.advances hout
      simp only [pushOf, howners, hself, if_false, GetWithTTL]
      generalize (n.ownersFor k).2.localCache.get k = r at hlook hgot ⊢
      cases hlook with
      | absent entry view =>
        rw [hown.view] at entry
        exact .skip (hown.trans ⟨hgot, rfl, view⟩) fun _ _ _ _ he => nomatch entry.symm.trans he
      | expired entry stale reads view =>
        rw [hown.view] at entry view
        exact .expired (hown.advances.trans hgot) hforeign entry
          (reads.widen hown.advances.later) stale view
      | @hit c a now entry live reads first view =>
        have hhit := hown.trans (⟨hgot, rfl, view⟩ : Silent _ _)
        rw [hown.view] at entry
        simp only [Option.map_some]
        cases henc : (n.ownersFor k).2.codec.Encode (c.body a).value with
        | error err =>
          rw [hown.advances.codec] at henc
          refine .skip hhit fun _ e vb _ he hvb => ?_
          obtain rfl := Option.some.inj (entry.symm.trans he)
          exact nomatch henc.symm.trans hvb
        | ok vb =>
          simp only
          split_ifs with hup
          · obtain ⟨hsilent, hstamps, hcarries⟩ := sent_spec (k := k) hhit.advances.ready henc
              (remaining (c.body a).expireTime now)
            exact .sent (hhit.trans hsilent) hforeign entry (hcarries.of_advances hhit.advances)
              (hstamps.of_silent hhit hclock)
          · exact .skip (hhit.trans (absExpiry_silent hhit.advances.ready _))
              fun id _ _ hforeign _ _ => (hfirst id hforeign).1 ▸ Bool.eq_false_iff.mpr hup

theorem rebalanceKey_some {up : NodeID → Bool} {reply : Except String Ack} {p : Push K}
    (hp : (n.rebalanceKey up reply k).1 = some p) :
    p.key = k ∧ (n.pushOf up k).1 = some (p.primary, p.msg) := by
  unfold rebalanceKey at hp
  cases hpush : (n.pushOf up k).1 with
  | none =>
    simp only [hpush] at hp
    cases hp
  | some sent =>
    simp only [hpush] at hp
    split_ifs at hp
    all_goals
      cases hp
      exact ⟨rfl, rfl⟩

section Fate
variable {log log' : List (Push K)}

/-- What may become of the entry of `k`: it stays, or it goes because a push of its value to the
first owner was acknowledged, or because it had expired when it was read. -/
inductive Fate (n : Node K V) (log : List (Push K)) (n' : Node K V) (k : K) : Prop where
  | kept (view : n'.localCache.view k = n.localCache.view k)
  | moved {e : V × Int} {p : Push K} (entry : n.localCache.view k = some e)
      (other : n.isPrimary (n.owners k) = false) (mem : p ∈ log) (key : p.key = k)
      (acknowledged : p.acknowledged = true)
      (primary : ∀ o, (n.owners k).head? = some o → p.primary = o.ID)
      (carries : Carries n k e.1 p.msg) (gone : n'.localCache.view k = none)
  | expired {e : V × Int} {now : Int} (entry : n.localCache.view k = some e)
      (other : n.isPrimary (n.owners k) = false)
      (reads : InMemoryCache.Reads n.localCache n'.localCache now)
      (stale : Locked.live now e = false) (gone : n'.localCache.view k = none)

/-- What is gone does not come back. -/
theorem Fate.none (h : Fate n log n' k) (hnone : n.localCache.view k = none) :
    n'.localCache.view k = none := by
  cases h with
  | kept view => exact view.trans hnone
  | moved entry other mem key acknowledged primary carries gone => exact gone
  | expired entry other reads stale gone => exact gone

theorem Fate.trans (h : Fate n log n' k) (h' : Fate n' log' n'' k) (ha : Advances n n')
    (ha' : Advances n' n'') : Fate n (log ++ log') n'' k := by
  have hprim := isPrimary_congr ha.cfg (n.owners k)
  cases h with
  | kept view =>
    cases h' with
    | kept view' => exact .kept (view'.trans view)
    | moved entry other mem key acknowledged primary carries gone =>
      rw [ha.owners, hprim] at other
      rw [ha.owners] at primary
      exact .moved (view ▸ entry) other (List.mem_append_right _ mem) key acknowledged primary
        (carries.of_advances ha) gone
    | expired entry other reads stale gone =>
      rw [ha.owners, hprim] at other
      exact .expired (view ▸ entry) other (reads.widen ha.later) stale gone
  | moved entry other mem key acknowledged primary carries gone =>
    exact .moved entry other (List.mem_append_left _ mem) key acknowledged primary carries
      (h'.none gone)
  | expired entry other reads stale gone =>
    obtain ⟨j, hlo, hhi, hj⟩ := reads
    exact .expired entry other ⟨j, hlo, Nat.lt_of_lt_of_le hhi ha'.later.ticks, hj⟩ stale
      (h'.none gone)

omit [DecidableEq K] in
/-- The first owner, if the ring has one, is the first owner of a hot key as well. -/
theorem ownersFor_head {o : NodeMeta} (h : (n.owners k).head? = some o) {owners : List NodeMeta}
    (hsome : (n.ownersFor k).1 = some owners) : owners.head? = some o := by
  have howners : n.ring.ownersFromKeyHash (n.hash64Of k) = n.owners k := rfl
  have hshadow : ∀ cands, (shadow (n.owners k) cands).head? = some o := by
    intro cands
    unfold shadow
    split
    · rw [List.head?_append, h]
      rfl
    · exact h
  unfold ownersFor at hsome
  cases hhot : n.hotSet (n.kc.EncodeKey k) with
  | none =>
    simp only [hhot, howners, Option.some.injEq] at hsome
    exact hsome ▸ h
  | some expAt =>
    simp only [hhot, howners] at hsome
    generalize n.ring.ownersTopNFromKeyHash _ _ = top at hsome
    split_ifs at hsome
    · obtain ⟨cands, -, rfl⟩ := Option.map_eq_some_iff.mp hsome
      exact hshadow cands
    · exact Option.some.inj hsome ▸ h

omit [DecidableEq K] in
theorem Foreign.other {primary : NodeID} (h : Foreign n k primary) :
    n.isPrimary (n.owners k) = false ∧ ∀ o, (n.owners k).head? = some o → primary = o.ID := by
  have hhead : ∀ o, (n.owners k).head? = some o → primary = o.ID := by
    intro o ho
    have hmap := h.1
    cases hsome : (n.ownersFor k).1 with
    | none =>
      rw [hsome] at hmap
      cases hmap
    | some owners =>
      rw [hsome, Option.getD_some, ownersFor_head ho hsome, Option.map_some,
        Option.some.injEq] at hmap
      exact hmap.symm
  refine ⟨?_, hhead⟩
  cases hh : (n.owners k).head? with
  | none => simp [isPrimary, hh]
  | some o =>
    have hne : o.ID ≠ n.cfg.ID := hhead o hh ▸ h.2
    simp [isPrimary, hh, hne]

/-- One iteration decides about the entry of its key only. -/
theorem rebalanceKey_fate (h : n.Ready) (up : NodeID → Bool) (reply : Except String Ack) (k : K) :
    Advances n (n.rebalanceKey up reply k).2 ∧
      ∀ k', Fate n (n.rebalanceKey up reply k).1.toList (n.rebalanceKey up reply k).2 k' := by
  have hprep := pushOf_prepares h up k
  unfold rebalanceKey
  generalize n.pushOf up k = r at hprep
  cases hprep with
  | skip silent _ => exact ⟨silent.advances, fun k' => .kept (congrFun silent.view k')⟩
  | expired advances foreign entry reads stale view =>
    refine ⟨advances, fun k' => ?_⟩
    by_cases hk : k' = k
    · subst hk
      exact .expired entry foreign.other.1 reads stale (by rw [view, update_self])
    · exact .kept (by rw [view, update_of_ne hk])
  | @sent n' primary msg e silent foreign entry carries stamps =>
    simp only
    split_ifs with hack
    · obtain ⟨hout, hview, -⟩ := Delete_spec silent.advances.ready.valid
        silent.advances.ready.isOpen k
      rw [silent.view] at hview
      refine ⟨silent.advances.trans (silent.advances.ready.advances hout), fun k' => ?_⟩
      by_cases hk : k' = k
      · subst hk
        exact .moved entry foreign.other.1 List.mem_cons_self rfl hack foreign.other.2 carries
          ((congrFun hview k').trans (update_self ..))
      · exact .kept ((congrFun hview k').trans (update_of_ne hk _ _))
    · exact ⟨silent.advances, fun k' => .kept (congrFun silent.view k')⟩

theorem rebalanceLoop_fate (h : n.Ready) (up : Nat → NodeID → Bool)
    (reply : Nat → Except String Ack) (i : Nat) (ks : List K) :
    Advances n (rebalanceLoop up reply i ks n).2 ∧
      ∀ k, Fate n (rebalanceLoop up reply i ks n).1 (rebalanceLoop up reply i ks n).2 k := by
  induction ks generalizing n i with
  | nil => exact ⟨Advances.refl h, fun k => .kept rfl⟩
  | cons k ks ih =>
    obtain ⟨hone, hfate⟩ := rebalanceKey_fate h (up i) (reply i) k
    obtain ⟨hrest, hfate'⟩ := ih hone.ready (i + 1)
    exact ⟨hone.trans hrest, fun k' => (hfate k').trans (hfate' k') hone hrest⟩

/-- Whatever the connections and the replies: a key whose first owner is the node keeps its entry.
Any other entry is as before or gone, and it is gone only if the push of its value to the first
owner was acknowledged or if it had expired when it was read. -/
theorem rebalanceOnce_keeps (h : n.Ready) (up : Nat → NodeID → Bool)
    (reply : Nat → Except String Ack) (k : K) :
    (n.isPrimary (n.owners k) = true →
      (n.rebalanceOnce up reply).2.localCache.view k = n.localCache.view k) ∧
    (n.localCache.view k = none → (n.rebalanceOnce up reply).2.localCache.view k = none) ∧
    ∀ e, n.localCache.view k = some e →
      (n.rebalanceOnce up reply).2.localCache.view k = some e ∨
      (n.rebalanceOnce up reply).2.localCache.view k = none ∧
        ((∃ p ∈ (n.rebalanceOnce up reply).1, p.key = k ∧ p.acknowledged = true ∧
            (∀ o, (n.owners k).head? = some o → p.primary = o.ID) ∧ Carries n k e.1 p.msg) ∨
          ∃ now, InMemoryCache.Reads n.localCache (n.rebalanceOnce up reply).2.localCache now ∧
            Locked.live now e = false) := by
  have hfate : Fate n (n.rebalanceOnce up reply).1 (n.rebalanceOnce up reply).2 k := by
    obtain ⟨hout, hview, -⟩ := Keys_spec h.valid h.isOpen
    have hkeys := h.advances hout
    have hloop := rebalanceLoop_fate hkeys.ready up reply 0
    have hstart : Fate n [] { n with localCache := n.localCache.Keys.2 } k :=
      .kept (congrFun hview k)
    exact hstart.trans ((hloop _).2 k) hkeys (hloop _).1
  refine ⟨fun hprim => ?_, hfate.none, fun e he => ?_⟩
  · cases hfate with
    | kept view => exact view
    | moved entry other mem key acknowledged primary carries gone =>
      rw [hprim] at other
      cases other
    | expired entry other reads stale gone =>
      rw [hprim] at other
      cases other
  · cases hfate with
    | kept view => exact .inl (view.trans he)
    | moved entry other mem key acknowledged primary carries gone =>
      obtain rfl := Option.some.inj (he.symm.trans entry)
      exact .inr ⟨gone, .inl ⟨_, mem, key, acknowledged, primary, carries⟩⟩
    | expired entry other reads stale gone =>
      obtain rfl := Option.some.inj (he.symm.trans entry)
      exact .inr ⟨gone, .inr ⟨_, reads, stale⟩⟩

def scanned (n : Node K V) : List K :=
  let keys := n.localCache.Keys.1
  let limit := n.cfg.RebalanceLimit
  keys.take (if limit ≤ 0 ∨ (keys.length : Int) < limit then keys.length else limit.toNat)

/-- The entry is unexpired at every reading of the clock from now on. -/
def Lasts (n : Node K V) (e : V × Int) : Prop :=
  ∀ j, n.localCache.rt.wall.ticks ≤ j → Locked.live (n.localCache.rt.wall.reading j) e = true

theorem Lasts.of_advances {e : V × Int} (h : n.Lasts e) (ha : Advances n n') : n'.Lasts e :=
  fun j hj => ha.later.reading ▸ h j (ha.later.ticks.trans hj)

omit [DecidableEq K] in
theorem Lasts.not_stale {e : V × Int} (h : n.Lasts e) {now : Int}
    (hreads : InMemoryCache.Reads n.localCache n'.localCache now) :
    Locked.live now e = true := by
  obtain ⟨j, hlo, -, rfl⟩ := hreads
  exact h j hlo

theorem mem_log_key {up : Nat → NodeID → Bool} {reply : Nat → Except String Ack} {i : Nat}
    {ks : List K} {p : Push K} (hp : p ∈ (rebalanceLoop up reply i ks n).1) : p.key ∈ ks := by
  induction ks generalizing n i with
  | nil => cases hp
  | cons k ks ih =>
    rcases List.mem_append.mp hp with hone | hrest
    · exact (rebalanceKey_some (Option.mem_toList.mp hone)).1 ▸ List.mem_cons_self
    · exact List.mem_cons_of_mem k (ih hrest)

omit [DecidableEq K] in
theorem exists_ownersFor (hrf : n.ring.rf + 3 < 2 ^ 63) (k : K) :
    ∃ owners, (n.ownersFor k).1 = some owners := by
  have hsum : wrap64 (n.ring.rf + 3) = ((n.ring.rf + 3 : Nat) : Int) :=
    wrap64_of_mem (by omega) (by omega)
  unfold ownersFor
  cases n.hotSet (n.kc.EncodeKey k) with
  | none => exact ⟨_, rfl⟩
  | some expAt =>
    simp only [hsum, Ring.ownersTopNFromKeyHash, if_neg (not_lt.mpr (Int.natCast_nonneg _))]
    split_ifs
    · exact ⟨_, rfl⟩
    · exact ⟨_, rfl⟩

omit [DecidableEq K] in
/-- An owner that is not the first one. -/
theorem foreign_of_owner (hrf : n.ring.rf + 3 < 2 ^ 63)
    (howner : ∃ o ∈ n.owners k, o.ID = n.cfg.ID) (hprim : n.isPrimary (n.owners k) = false) :
    ∃ primary, Foreign n k primary := by
  obtain ⟨o, ho, -⟩ := howner
  obtain ⟨owners, howners⟩ := exists_ownersFor hrf k
  cases hhead : (n.owners k).head? with
  | none =>
    rw [List.head?_eq_none_iff.mp hhead] at ho
    cases ho
  | some first =>
    refine ⟨first.ID, ?_, fun heq => ?_⟩
    · rw [howners, Option.getD_some, ownersFor_head hhead howners, Option.map_some]
    · simp [isPrimary, hhead, heq] at hprim

/-- One iteration leaves an entry that lasts alone, unless it is for its key. -/
theorem rebalanceKey_other (h : n.Ready) (up : NodeID → Bool) (reply : Except String Ack) {k' : K}
    (hne : k' ≠ k) {e : V × Int} (he : n.localCache.view k = some e) (hlasts : n.Lasts e) :
    (n.rebalanceKey up reply k').2.localCache.view k = some e := by
  cases (rebalanceKey_fate h up reply k').2 k with
  | kept view => exact view.trans he
  | moved entry other mem key =>
    exact absurd ((rebalanceKey_some (Option.mem_toList.mp mem)).1.symm.trans key) hne
  | expired entry other reads stale =>
    obtain rfl := Option.some.inj (he.symm.trans entry)
    exact nomatch stale.symm.trans (hlasts.not_stale reads)

/-- The iteration for the key of an entry that can be encoded, with an acknowledged push. -/
theorem rebalanceKey_moves (h : n.Ready) {primary : NodeID} (hforeign : Foreign n k primary)
    {e : V × Int} (he : n.localCache.view k = some e) {vb : Bytes}
    (hvb : n.codec.Encode e.1 = .ok vb) :
    (n.rebalanceKey (fun _ => true) (.ok ⟨0, true, ""⟩) k).2.localCache.view k = none := by
  have hprep := pushOf_prepares h (fun _ => true) k
  unfold rebalanceKey
  generalize n.pushOf (fun _ => true) k = r at hprep
  cases hprep with
  | skip _ unsent => exact nomatch unsent primary e vb hforeign he hvb
  | expired _ _ _ _ _ view => exact (congrFun view k).trans (update_self ..)
  | sent silent =>
    have hview := (Delete_spec silent.advances.ready.valid silent.advances.ready.isOpen k).2.1
    exact (congrFun hview k).trans (update_self ..)

/-- The induction is on the keys that are left: up to its turn the entry stays. -/
theorem rebalanceLoop_moves (h : n.Ready) (hrf : n.ring.rf + 3 < 2 ^ 63)
    (howner : ∃ o ∈ n.owners k, o.ID = n.cfg.ID) (hprim : n.isPrimary (n.owners k) = false)
    {e : V × Int} (he : n.localCache.view k = some e) (hlasts : n.Lasts e) {vb : Bytes}
    (hvb : n.codec.Encode e.1 = .ok vb) {i : Nat} {ks : List K} (hk : k ∈ ks) :
    (rebalanceLoop (fun _ _ => true) (fun _ => .ok ⟨0, true, ""⟩) i ks n).2.localCache.view k =
      none := by
  induction ks generalizing n i with
  | nil => cases hk
  | cons k' ks ih =>
    have hone := (rebalanceKey_fate h (fun _ => true) (.ok ⟨0, true, ""⟩) k').1
    by_cases hkk : k' = k
    · subst hkk
      obtain ⟨primary, hforeign⟩ := foreign_of_owner hrf howner hprim
      exact ((rebalanceLoop_fate hone.ready _ _ (i + 1) ks).2 k').none
        (rebalanceKey_moves h hforeign he hvb)
    · exact ih hone.ready (by rw [hone.ring]; exact hrf)
        (by rw [hone.owners, hone.cfg]; exact howner)
        (by rw [hone.owners, isPrimary_congr hone.cfg]; exact hprim)
        (rebalanceKey_other h _ _ hkk he hlasts) (hlasts.of_advances hone)
        (by rw [hone.codec]; exact hvb) ((List.mem_cons.mp hk).resolve_left (Ne.symm hkk))

/-- An entry of a key that the node owns, and that does not expire, is kept whatever the outcome of
the requests if and only if the pass does not come to it, or the node is the first owner, or the
value cannot be encoded. -/
theorem keeps_replica_iff (h : n.Ready) (hrf : n.ring.rf + 3 < 2 ^ 63)
    (howner : ∃ o ∈ n.owners k, o.ID = n.cfg.ID) {e : V × Int}
    (he : n.localCache.view k = some e) (hlasts : n.Lasts e) :
    (∀ up reply, (n.rebalanceOnce up reply).2.localCache.view k = some e) ↔
      (k ∈ n.scanned → n.isPrimary (n.owners k) = true ∨
        ∃ err, n.codec.Encode e.1 = .error err) := by
  constructor
  · intro hkeeps hk
    by_contra hno
    obtain ⟨hprim, herr⟩ := not_or.mp hno
    obtain ⟨hout, hview, -⟩ := Keys_spec h.valid h.isOpen
    have hkeys := h.advances hout
    cases hvb : n.codec.Encode e.1 with
    | error err => exact herr ⟨err, hvb⟩
    | ok vb =>
      have hgone := rebalanceLoop_moves hkeys.ready hrf howner (Bool.eq_false_iff.mpr hprim)
        ((congrFun hview k).trans he) (hlasts.of_advances hkeys) hvb hk (i := 0)
      exact nomatch (hkeeps _ _).symm.trans hgone
  · intro hcond up reply
    obtain ⟨hfirst, -, hfate⟩ := rebalanceOnce_keeps h up reply k
    obtain hkept | ⟨-, ⟨p, hp, rfl, -, -, hcarries⟩ | ⟨now, hreads, hstale⟩⟩ := hfate e he
    · exact hkept
    · obtain hprim | ⟨err, herr⟩ := hcond (mem_log_key hp)
      · exact (hfirst hprim).trans he
      · obtain ⟨vb, hvb, -⟩ := hcarries.value
        exact nomatch herr.symm.trans hvb
    · exact nomatch hstale.symm.trans (hlasts.not_stale hreads)

theorem keeps_replica_iff_first :
    let n := heldByBoth (freshCache fun n => n) [2]
    ∀ up reply, (n.rebalanceOnce up reply).2.localCache.view 7 = some (10, 0) := by
  intro n
  have hadv := heldByBoth_advances (fun n => n) [2]
  have hrun : n.ring.rf + 3 < 2 ^ 63 ∧ (∃ o ∈ n.owners 7, o.ID = n.cfg.ID) ∧
      n.localCache.view 7 = some (10, 0) ∧ n.isPrimary (n.owners 7) = true := by decide +kernel
  obtain ⟨hrf, howns, hentry, hfirst⟩ := hrun
  exact (keeps_replica_iff hadv.ready hrf howns hentry fun _ _ => rfl).mpr fun _ => .inl hfirst

/-- The node [1] is the second of the two owners of 7. After the acknowledged push to the first
one it has lost its copy. -/
theorem rebalanceOnce_drops_replica :
    let n := heldByBoth (freshCache fun n => n) [1]
    let r := n.rebalanceOnce (fun _ _ => true) fun _ => .ok ⟨0, true, ""⟩
    (n.owners 7).map NodeMeta.ID = [[2], [1]] ∧ n.localCache.view 7 = some (10, 0) ∧
      r.2.localCache.view 7 = none := by decide +kernel

end Fate

end Node

end Kioshun
