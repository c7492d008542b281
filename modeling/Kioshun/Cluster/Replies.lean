import Kioshun.Cluster.Client
import Kioshun.Cluster.Handoff

/-!
# What the replies of the handlers mean

A handler that refuses a write should have changed nothing, and a handler that gets a message for
the second time should acknowledge it again, or else the sender keeps its hint and tries again
until the hint expires. `rpcSetBulk` records the versions of a batch before it has looked at all of
it; `rpcDel` replies with what the local `Delete` has found.
-/

namespace Kioshun
open Function List

universe u v
variable {K : Type u} {V : Type v} [DecidableEq K]

namespace Node
variable {n : Node K V}

section Refusals

def passes (n : Node K V) (kv : KV) : Bool := (n.checkItem kv).isOk

def Unchanged (n n' : Node K V) : Prop :=
  n'.localCache.view = n.localCache.view ∧ n'.version = n.version

/-- No item before the first one that fails is newer than what the node has. -/
def NothingNewer (n : Node K V) (items : List KV) : Prop :=
  n.cfg.LWWEnabled = true → ∀ kv ∈ items.takeWhile n.passes, kv.Ver ≤ n.version kv.K

/-- Recording a version changes nothing that the checks read, and no entry. -/
theorem commit_frame (n : Node K V) (bk : Bytes) (ver : UInt64) :
    (n.commit bk ver).cfg = n.cfg ∧ (n.commit bk ver).checkItem = n.checkItem ∧
      (n.commit bk ver).localCache.view = n.localCache.view := by
  unfold commit
  split
  · exact ⟨rfl, rfl, rfl⟩
  · exact ⟨rfl, rfl, rfl⟩

omit [DecidableEq K] in
theorem commit_version (n : Node K V) (bk : Bytes) (ver : UInt64) :
    (n.commit bk ver).version =
      if n.cfg.LWWEnabled then update n.version bk ver else n.version := by
  unfold commit
  split <;> rfl

omit [DecidableEq K] in
/-- A version that is not stale raises the recorded one, or is the same. -/
theorem commit_version_le {bk : Bytes} {ver : UInt64} (hs : n.stale bk ver = false) (x : Bytes) :
    n.version x ≤ (n.commit bk ver).version x := by
  rw [commit_version]
  split
  · rename_i hlww
    by_cases hx : x = bk
    · subst hx
      rw [update_self]
      exact le_of_not_stale hlww (by simp [hs])
    · rw [update_of_ne hx]
      exact UInt64.le_refl _
  · exact UInt64.le_refl _

variable (items : List (Item K V))

omit [DecidableEq K] in
theorem version_le_collect (kvs : List KV) (x : Bytes) :
    n.version x ≤ (n.collect items kvs).2.version x := by
  induction kvs generalizing n items with
  | nil => exact UInt64.le_refl _
  | cons kv kvs ih =>
    unfold collect
    cases n.checkItem kv with
    | error err => exact UInt64.le_refl _
    | ok r =>
      cases hs : n.stale kv.K kv.Ver with
      | true =>
        simp only [if_true]
        exact ih items
      | false =>
        simp only [Bool.false_eq_true, if_false]
        exact UInt64.le_trans (commit_version_le hs x) (ih _)

theorem view_collect (kvs : List KV) :
    (n.collect items kvs).2.localCache.view = n.localCache.view := by
  induction kvs generalizing n items with
  | nil => rfl
  | cons kv kvs ih =>
    unfold collect
    cases n.checkItem kv with
    | error err => rfl
    | ok r =>
      simp only
      split
      · exact ih items
      · exact (ih _).trans (commit_frame n kv.K kv.Ver).2.2

omit [DecidableEq K] in
theorem commit_version_same {bk : Bytes} {ver : UInt64} (hs : n.stale bk ver = false)
    (hlww : n.cfg.LWWEnabled = true) (h : ver ≤ n.version bk) :
    (n.commit bk ver).version = n.version := by
  have hle : n.version bk ≤ ver := le_of_not_stale hlww (by simp [hs])
  rw [commit_version, if_pos hlww, UInt64.le_antisymm h hle, update_eq_self]

omit [DecidableEq K] in
/-- A version that is recorded is the one that was there, or it shows in the end. -/
theorem version_collect_commit {kv : KV} (hs : n.stale kv.K kv.Ver = false)
    (hlww : n.cfg.LWWEnabled = true) (items : List (Item K V)) (kvs : List KV) :
    ((n.commit kv.K kv.Ver).collect items kvs).2.version = n.version ↔
      kv.Ver ≤ n.version kv.K ∧ ((n.commit kv.K kv.Ver).collect items kvs).2.version =
        (n.commit kv.K kv.Ver).version := by
  constructor
  · intro heq
    have hown := version_le_collect (n := n.commit kv.K kv.Ver) items kvs kv.K
    rw [heq, commit_version, if_pos hlww, update_self] at hown
    exact ⟨hown, heq.trans (commit_version_same hs hlww hown).symm⟩
  · rintro ⟨hge, heq⟩
    exact heq.trans (commit_version_same hs hlww hge)

/-- A batch that fails leaves the version table as it was exactly if nothing in it before the
failing item is newer. -/
theorem version_collect_iff {kvs : List KV} {err : String}
    (herr : (n.collect items kvs).1 = .error err) :
    (n.collect items kvs).2.version = n.version ↔ n.NothingNewer kvs := by
  induction kvs generalizing n items with
  | nil => cases herr
  | cons kv kvs ih =>
    unfold NothingNewer
    cases hcheck : n.checkItem kv with
    | error e => simp [collect, hcheck, passes, Except.isOk, Except.toBool]
    | ok r =>
      have hpass : n.passes kv = true := by simp [passes, hcheck, Except.isOk, Except.toBool]
      rw [takeWhile_cons_of_pos hpass]
      simp only [collect, hcheck] at herr ⊢
      cases hs : n.stale kv.K kv.Ver with
      | true =>
        rw [hs] at herr
        rw [if_pos rfl, ih items herr, NothingNewer]
        refine forall_congr' fun hlww => ?_
        have hlt := (stale_iff hlww kv.K kv.Ver).mp hs
        simp [UInt64.le_of_lt hlt]
      | false =>
        rw [hs] at herr
        rw [if_neg Bool.false_ne_true] at herr ⊢
        obtain ⟨hcfg, hchecks, -⟩ := commit_frame n kv.K kv.Ver
        have hpasses : (n.commit kv.K kv.Ver).passes = n.passes := by
          funext x
          rw [passes, hchecks, passes]
        have hrest := ih _ herr
        rw [NothingNewer, hcfg, hpasses] at hrest
        by_cases hlww : n.cfg.LWWEnabled = true
        · rw [version_collect_commit hs hlww, hrest]
          constructor
          · rintro ⟨hge, hnone⟩ _ x hx
            rcases mem_cons.mp hx with rfl | hx
            · exact hge
            · rw [← commit_version_same hs hlww hge]
              exact hnone hlww x hx
          · intro hnone
            have hge := hnone hlww kv mem_cons_self
            refine ⟨hge, fun _ x hx => ?_⟩
            rw [commit_version_same hs hlww hge]
            exact hnone hlww x (mem_cons_of_mem _ hx)
        · have hsame : (n.commit kv.K kv.Ver).version = n.version := by
            rw [commit_version, if_neg hlww]
          refine iff_of_true ?_ fun hyes => absurd hyes hlww
          rw [← hsame]
          exact hrest.mpr fun hyes => absurd hyes hlww

variable [Inhabited V]

/-- A refused `rpcSet` has changed nothing. -/
theorem rpcSet_refused {s : MsgSet} (h : (n.rpcSet s).1.OK = false) : (n.rpcSet s).2 = n := by
  unfold rpcSet at h ⊢
  cases hcheck : n.checkSet s with
  | error err => rfl
  | ok r =>
    simp only [hcheck] at h ⊢
    cases hs : n.stale s.Key s.Ver with
    | true => rfl
    | false =>
      rw [hs] at h
      cases hdec : n.codec.Decode r.2 with
      | error err => simp
      | ok val => simp [hdec] at h

omit [Inhabited V] in
/-- A refused `rpcDel` has changed nothing; a delete that found no entry is not refused. -/
theorem rpcDel_refused {d : MsgDel} (h : (n.rpcDel d).1.Err ≠ "") : (n.rpcDel d).2 = n := by
  unfold rpcDel at h ⊢
  split
  · rfl
  · rename_i hsize
    rw [if_neg hsize] at h
    cases hdec : n.kc.DecodeKey d.Key with
    | error err => rfl
    | ok k =>
      simp only [hdec] at h ⊢
      cases hs : n.stale d.Key d.Ver with
      | true => rfl
      | false => simp [hs] at h

/-- A refused write has changed nothing, except for a batch with an item that is newer than what
the node has before the one that fails. -/
theorem refused_unchanged_iff (n : Node K V) :
    (∀ s, (n.rpcSet s).1.OK = false → (n.rpcSet s).1.Err ≠ "" → Unchanged n (n.rpcSet s).2) ∧
    (∀ d, (n.rpcDel d).1.OK = false → (n.rpcDel d).1.Err ≠ "" → Unchanged n (n.rpcDel d).2) ∧
    ∀ sb, (n.rpcSetBulk sb).1.OK = false → (n.rpcSetBulk sb).1.Err ≠ "" →
      (Unchanged n (n.rpcSetBulk sb).2 ↔ n.NothingNewer sb.Items) := by
  refine ⟨fun s hok _ => ?_, fun d _ herr => ?_, fun sb hok _ => ?_⟩
  · rw [rpcSet_refused hok]
    exact ⟨rfl, rfl⟩
  · rw [rpcDel_refused herr]
    exact ⟨rfl, rfl⟩
  · unfold rpcSetBulk at hok ⊢
    cases hcollect : (n.collect [] sb.Items).1 with
    | error err =>
      simp only [hcollect]
      rw [Unchanged, view_collect, version_collect_iff [] hcollect]
      exact and_iff_right rfl
    | ok items => simp [hcollect] at hok

def upToDate : Node UInt8 UInt8 :=
  { Node.plain [1] ⟨[⟨[1], 1, 1⟩], 1⟩ (freshCache fun n => n) with version := fun _ => 9 }

def halfValid : MsgSetBulk := ⟨0, [⟨[7], [1], 0, 5, false⟩, ⟨[8], [1, 2], 0, 6, false⟩]⟩

theorem refused_unchanged_upToDate :
    (upToDate.rpcSetBulk halfValid).1.Err = "invalid value length" ∧
      Unchanged upToDate (upToDate.rpcSetBulk halfValid).2 := by
  have herr : (upToDate.rpcSetBulk halfValid).1 = ⟨0, false, "invalid value length"⟩ := rfl
  have hnewer : upToDate.NothingNewer halfValid.Items := by
    intro _ kv hkv
    have hmem : kv ∈ halfValid.Items := (takeWhile_sublist _).subset hkv
    simp only [halfValid, mem_cons, not_mem_nil, or_false] at hmem
    rcases hmem with rfl | rfl
    · show (5 : UInt64) ≤ 9
      decide
    · show (6 : UInt64) ≤ 9
      decide
  refine ⟨by rw [herr], ((refused_unchanged_iff upToDate).2.2 halfValid ?_ ?_).mpr hnewer⟩
  · rw [herr]
  · rw [herr]
    decide

/-- The batch is refused and its first version is recorded without its value. -/
theorem refused_records_version :
    let n := Node.plain [1] ⟨[⟨[1], 1, 1⟩], 1⟩ (freshCache fun n => n)
    let r := n.rpcSetBulk halfValid
    (r.1.OK, r.1.Err) = (false, "invalid value length") ∧ n.version [7] = 0 ∧
      r.2.version [7] = 5 ∧ r.2.localCache.view 7 = none := by
  decide +kernel

end Refusals

def ack [Inhabited V] (n : Node K V) : Msg → Bool
  | .set s => (n.rpcSet s).1.OK
  | .setBulk sb => (n.rpcSetBulk sb).1.OK
  | .del d => (n.rpcDel d).1.OK

theorem commit_valid (h : n.localCache.Valid) (bk : Bytes) (ver : UInt64) :
    (n.commit bk ver).localCache.Valid ∧
      (n.commit bk ver).localCache.closed = n.localCache.closed := by
  unfold commit
  split
  · exact ⟨h.now.1.valid, rfl⟩
  · exact ⟨h, rfl⟩

omit [DecidableEq K] in
/-- What the checks and the registers read besides the entries and the versions. -/
theorem commit_codecs (n : Node K V) (bk : Bytes) (ver : UInt64) :
    (n.commit bk ver).kc = n.kc ∧ (n.commit bk ver).codec = n.codec ∧
      (n.commit bk ver).checkSet = n.checkSet := by
  unfold commit
  split
  · exact ⟨rfl, rfl, rfl⟩
  · exact ⟨rfl, rfl, rfl⟩

omit [DecidableEq K] in
theorem version_commit_self (hlww : n.cfg.LWWEnabled = true) (bk : Bytes) (ver : UInt64) :
    (n.commit bk ver).version bk = ver := by
  rw [commit_version, if_pos hlww, update_self]

theorem not_stale_commit (n : Node K V) (bk : Bytes) (ver : UInt64) :
    (n.commit bk ver).stale bk ver = false := by
  rw [stale, (commit_frame n bk ver).1, commit_version]
  cases hlww : n.cfg.LWWEnabled with
  | false => rfl
  | true => simp [UInt64.lt_irrefl]

section Set
variable {s : MsgSet} {k : K} {vbytes : Bytes} {v : V}

def applySet [Inhabited V] (n : Node K V) (s : MsgSet) (k : K) (v : V) : Node K V :=
  (n.importItems [⟨k, v, s.Exp, s.Ver⟩]).commit s.Key s.Ver

theorem rpcSet_accepted [Inhabited V] (hcheck : n.checkSet s = .ok (k, vbytes))
    (hdec : n.codec.Decode vbytes = .ok v) :
    n.rpcSet s = (⟨s.ID, true, ""⟩, if n.stale s.Key s.Ver then n else n.applySet s k v) := by
  simp only [rpcSet, hcheck, hdec]
  split <;> rfl

theorem applySet_valid [Inhabited V] (h : n.localCache.Valid) (s : MsgSet) (k : K) (v : V) :
    (n.applySet s k v).localCache.Valid :=
  (commit_valid (n := n.importItems _) (InMemoryCache.Import_spec h _).1.valid _ _).1

/-- The entry stands in the register with the version of the message. -/
theorem register_applySet [Inhabited V] (h : n.localCache.Valid) (hlww : n.cfg.LWWEnabled = true)
    (hkey : n.kc.DecodeKey s.Key = .ok k) :
    (n.applySet s k v).register s.Key = ⟨s.Ver.toNat, some (v, s.Exp)⟩ := by
  have hview : (n.applySet s k v).localCache.view k = some (v, s.Exp) := by
    rw [applySet, (commit_frame ..).2.2]
    exact InMemoryCache.Import_single h ⟨k, v, s.Exp, s.Ver⟩
  have hver : (n.applySet s k v).version s.Key = s.Ver :=
    version_commit_self (n := n.importItems _) hlww _ _
  have hkc : (n.applySet s k v).kc = n.kc := (commit_codecs (n.importItems _) _ _).1
  simp only [register, registers, hkc, hkey, hver, hview]

/-- A set that comes again is acknowledged again and changes neither entry nor version. -/
theorem rpcSet_again [Inhabited V] (h : n.localCache.Valid) (hlww : n.cfg.LWWEnabled = true)
    (hacc : n.Accepts (.set s)) (id : UInt64) :
    (n.rpcSet s).1.OK = true ∧ ((n.rpcSet s).2.rpcSet { s with ID := id }).1.OK = true ∧
      ((n.rpcSet s).2.rpcSet { s with ID := id }).2.register s.Key =
        (n.rpcSet s).2.register s.Key := by
  obtain ⟨k, vbytes, v, hcheck, hdec⟩ := hacc
  have hkey : n.kc.DecodeKey s.Key = .ok k := (checkSet_eq_ok.mp hcheck).2.2.2
  cases hs : n.stale s.Key s.Ver with
  | true =>
    have hfirst : n.rpcSet s = (⟨s.ID, true, ""⟩, n) := by
      rw [rpcSet_accepted hcheck hdec, hs, if_pos rfl]
    have hcheck' : n.checkSet { s with ID := id } = .ok (k, vbytes) := hcheck
    have hagain : n.rpcSet { s with ID := id } = (⟨id, true, ""⟩, n) := by
      rw [rpcSet_accepted hcheck' hdec, hs, if_pos rfl]
    rw [hfirst, hagain]
    exact ⟨rfl, rfl, rfl⟩
  | false =>
    have hfirst : n.rpcSet s = (⟨s.ID, true, ""⟩, n.applySet s k v) := by
      rw [rpcSet_accepted hcheck hdec, hs, if_neg Bool.false_ne_true]
    obtain ⟨hkc, hcodec, hchecks⟩ :=
      commit_codecs (n.importItems [⟨k, v, s.Exp, s.Ver⟩]) s.Key s.Ver
    have hcheck' : (n.applySet s k v).checkSet { s with ID := id } = .ok (k, vbytes) := by
      rw [applySet, hchecks]
      exact hcheck
    have hdec' : (n.applySet s k v).codec.Decode vbytes = .ok v := by
      rw [applySet, hcodec]
      exact hdec
    have hstale : (n.applySet s k v).stale s.Key s.Ver = false := not_stale_commit ..
    have hagain : (n.applySet s k v).rpcSet { s with ID := id } =
        (⟨id, true, ""⟩, (n.applySet s k v).applySet { s with ID := id } k v) := by
      rw [rpcSet_accepted hcheck' hdec', hstale, if_neg Bool.false_ne_true]
    have hlww' : (n.applySet s k v).cfg.LWWEnabled = true := by
      rw [applySet, (commit_frame ..).1]
      exact hlww
    have hkey' : (n.applySet s k v).kc.DecodeKey s.Key = .ok k := by
      rw [applySet, hkc]
      exact hkey
    rw [hfirst, hagain]
    refine ⟨rfl, rfl, ?_⟩
    have hsecond := register_applySet (s := { s with ID := id }) (v := v)
      (applySet_valid h s k v) hlww' hkey'
    exact hsecond.trans (register_applySet h hlww hkey).symm

end Set

section Del
variable {d : MsgDel} {k : K}

/-- After a `Delete` there is no entry, unless the cache is closed. -/
theorem Delete_done {c : InMemoryCache K V} (h : c.Valid) (k : K) :
    (c.Delete k).2.Valid ∧ ((c.Delete k).2.view k = none ∨ (c.Delete k).2.closed = true) := by
  cases hclosed : c.closed with
  | true =>
    have hsame : (c.Delete k).2 = c := by simp [InMemoryCache.Delete, hclosed]
    rw [hsame]
    exact ⟨h, .inr hclosed⟩
  | false =>
    obtain ⟨hout, hview, -⟩ := InMemoryCache.Delete_spec h hclosed k
    rw [hview, update_self]
    exact ⟨hout.valid, .inl rfl⟩

/-- A `Delete` that has nothing to do reports it. -/
theorem Delete_again {c : InMemoryCache K V} (h : c.Valid) {k : K}
    (hk : c.view k = none ∨ c.closed = true) :
    (c.Delete k).1 = false ∧ (c.Delete k).2.view k = c.view k := by
  cases hclosed : c.closed with
  | true => simp [InMemoryCache.Delete, hclosed]
  | false =>
    have hnone : c.view k = none := hk.resolve_right (by simp [hclosed])
    obtain ⟨-, hview, -⟩ := InMemoryCache.Delete_spec h hclosed k
    rw [InMemoryCache.Delete_found h hclosed k, hview, update_self, hnone]
    exact ⟨rfl, rfl⟩

def applyDel (n : Node K V) (d : MsgDel) (k : K) : Node K V :=
  { n.commit d.Key d.Ver with
    localCache := ((n.commit d.Key d.Ver).localCache.Delete k).2 }

theorem rpcDel_accepted (hsize : tooLarge n.cfg.Sec.MaxKeySize d.Key = false)
    (hkey : n.kc.DecodeKey d.Key = .ok k) :
    n.rpcDel d = if n.stale d.Key d.Ver then (⟨d.ID, true, ""⟩, n)
      else (⟨d.ID, ((n.commit d.Key d.Ver).localCache.Delete k).1, ""⟩, n.applyDel d k) := by
  simp only [rpcDel, hsize, hkey, Bool.false_eq_true, if_false]
  rfl

/-- A delete that comes again changes neither entry nor version, and is acknowledged only if it is
stale. -/
theorem rpcDel_again (h : n.localCache.Valid) (hlww : n.cfg.LWWEnabled = true)
    (hacc : n.Accepts (.del d)) (id : UInt64) :
    ((n.rpcDel d).2.rpcDel { d with ID := id }).2.register d.Key = (n.rpcDel d).2.register d.Key ∧
      ((n.rpcDel d).2.rpcDel { d with ID := id }).1.OK = n.stale d.Key d.Ver ∧
      (n.stale d.Key d.Ver = true → (n.rpcDel d).1.OK = true) := by
  obtain ⟨hsize, k, hkey⟩ := hacc
  rw [rpcDel_accepted hsize hkey]
  cases hs : n.stale d.Key d.Ver with
  | true =>
    simp only [if_true]
    have hagain : n.rpcDel { d with ID := id } = (⟨id, true, ""⟩, n) := by
      rw [rpcDel_accepted (d := { d with ID := id }) hsize hkey, hs, if_pos rfl]
    rw [hagain]
    exact ⟨rfl, rfl, fun _ => trivial⟩
  | false =>
    simp only [Bool.false_eq_true, if_false]
    obtain ⟨hvalid, hdone⟩ := Delete_done (commit_valid h d.Key d.Ver).1 k
    obtain ⟨hcfg, -, -⟩ := commit_frame n d.Key d.Ver
    obtain ⟨hkc, -, -⟩ := commit_codecs n d.Key d.Ver
    have hver : (n.applyDel d k).version d.Key = d.Ver := version_commit_self hlww _ _
    have hkey' : (n.applyDel d k).kc.DecodeKey d.Key = .ok k := by
      rw [show (n.applyDel d k).kc = _ from hkc]
      exact hkey
    have hsize' : tooLarge (n.applyDel d k).cfg.Sec.MaxKeySize d.Key = false := by
      rw [show (n.applyDel d k).cfg = _ from hcfg]
      exact hsize
    have hlww' : (n.applyDel d k).cfg.LWWEnabled = true := by
      rw [show (n.applyDel d k).cfg = _ from hcfg]
      exact hlww
    have hstale : (n.applyDel d k).stale d.Key d.Ver = false := not_stale_commit n d.Key d.Ver
    have hagain := rpcDel_accepted (d := { d with ID := id }) hsize' hkey'
    rw [hstale, if_neg Bool.false_ne_true] at hagain
    -- the second delete finds what the first one has left
    have hvalid' := commit_valid (n := n.applyDel d k) hvalid d.Key d.Ver
    have hview' := (commit_frame (n.applyDel d k) d.Key d.Ver).2.2
    obtain ⟨hfalse, hsame⟩ := Delete_again hvalid'.1 (k := k) (by
      rw [hview', hvalid'.2]
      exact hdone)
    rw [hview'] at hsame
    refine ⟨?_, ?_, fun hyes => absurd hyes (by simp)⟩
    · rw [hagain]
      have hver' : ((n.applyDel d k).applyDel { d with ID := id } k).version d.Key = d.Ver :=
        version_commit_self hlww' _ _
      have hkc' : ((n.applyDel d k).applyDel { d with ID := id } k).kc = (n.applyDel d k).kc :=
        (commit_codecs (n.applyDel d k) d.Key d.Ver).1
      have hview : ((n.applyDel d k).applyDel { d with ID := id } k).localCache.view k =
          (n.applyDel d k).localCache.view k := hsame
      simp only [register, registers, hkc', hkey', hver, hver', hview]
    · rw [hagain]
      exact hfalse

end Del

end Node

/-- The message that `replayOne` makes of a hint. -/
def HintItem.toMsg (hi : HintItem) (rid : UInt64) : Msg :=
  if hi.isDel then .del ⟨rid, hi.key, hi.ver⟩ else .set ⟨rid, hi.key, hi.val, hi.exp, hi.ver, hi.cp⟩

/-- The end of `replayOne`: with an acknowledgement the hint, which is not queued any more, is
dropped. -/
def Handoff.replied (h : Handoff) (hi : Nat) (OK : Bool) : Handoff :=
  if OK then h else h.scheduleRetry hi

namespace Node
variable {n : Node K V} [Inhabited V]

/-- A message that comes for the second time changes neither the entry nor the version of its key.
A set is acknowledged both times; a delete is exactly if it is stale, so that a hint for a delete
that the peer has carried out goes back into the queue. -/
theorem redelivery_acknowledged_iff (h : n.localCache.Valid) (hlww : n.cfg.LWWEnabled = true) :
    (∀ s, n.Accepts (.set s) →
      ((n.handle (.set s)).handle (.set s)).register s.Key = (n.handle (.set s)).register s.Key ∧
      n.ack (.set s) = true ∧ (n.handle (.set s)).ack (.set s) = true) ∧
    (∀ d, n.Accepts (.del d) →
      ((n.handle (.del d)).handle (.del d)).register d.Key = (n.handle (.del d)).register d.Key ∧
      (n.ack (.del d) = true ∧ (n.handle (.del d)).ack (.del d) = true ↔
        d.Ver < n.version d.Key)) ∧
    ∀ (q : Handoff) (hi : Nat) (rid rid' : UInt64), n.Accepts ((q.queue.item hi).toMsg rid) →
      q.replied hi ((n.handle ((q.queue.item hi).toMsg rid)).ack ((q.queue.item hi).toMsg rid')) =
        if (q.queue.item hi).isDel = true ∧ ¬(q.queue.item hi).ver < n.version (q.queue.item hi).key
        then q.scheduleRetry hi else q := by
  refine ⟨fun s hacc => ?_, fun d hacc => ?_, fun q hi rid rid' hacc => ?_⟩
  · obtain ⟨hfirst, hagain, hsame⟩ := rpcSet_again h hlww hacc s.ID
    exact ⟨hsame, hfirst, hagain⟩
  · obtain ⟨hsame, hagain, hfirst⟩ := rpcDel_again h hlww hacc d.ID
    refine ⟨hsame, ?_⟩
    rw [← stale_iff hlww, show (n.handle (.del d)).ack (.del d) = _ from hagain]
    exact ⟨fun hboth => hboth.2, fun hs => ⟨hfirst hs, hs⟩⟩
  · cases hdel : (q.queue.item hi).isDel with
    | true =>
      simp only [HintItem.toMsg, hdel, if_true] at hacc ⊢
      have hagain : (n.handle (.del ⟨rid, (q.queue.item hi).key, (q.queue.item hi).ver⟩)).ack
          (.del ⟨rid', (q.queue.item hi).key, (q.queue.item hi).ver⟩) =
          n.stale (q.queue.item hi).key (q.queue.item hi).ver := (rpcDel_again h hlww hacc rid').2.1
      have hstale := stale_iff hlww (q.queue.item hi).key (q.queue.item hi).ver
      rw [hagain, Handoff.replied]
      by_cases hlt : (q.queue.item hi).ver < n.version (q.queue.item hi).key
      · simp [hstale.mpr hlt, hlt]
      · simp [mt hstale.mp hlt, hlt]
    | false =>
      simp only [HintItem.toMsg, hdel, Bool.false_eq_true, if_false, false_and] at hacc ⊢
      have hagain := (rpcSet_again h hlww hacc rid').2.1
      rw [show (n.handle (.set _)).ack (.set _) = true from hagain]
      rfl

/-- A set and a stale delete around a cache with one entry. -/
theorem redelivery_acknowledged_stale :
    upToDate.ack (.set ⟨1, [7], [1], 0, 9, false⟩) = true ∧
      (upToDate.handle (.set ⟨1, [7], [1], 0, 9, false⟩)).ack
        (.set ⟨1, [7], [1], 0, 9, false⟩) = true ∧
      (upToDate.handle (.del ⟨2, [7], 8⟩)).ack (.del ⟨2, [7], 8⟩) = true := by
  have hboth := redelivery_acknowledged_iff (n := upToDate)
    (InMemoryCache.New_spec (New_freshCache _)).1 rfl
  have hset := hboth.1 ⟨1, [7], [1], 0, 9, false⟩ ⟨7, [1], 1, rfl, rfl⟩
  have hdel := (hboth.2.1 ⟨2, [7], 8⟩ ⟨rfl, 7, rfl⟩).2.mpr (by show (8 : UInt64) < 9; decide)
  exact ⟨hset.2.1, hset.2.2, hdel.2⟩

/-- A delete of a key that is present is acknowledged, and when it comes again it is not. -/
theorem delete_not_acknowledged_again :
    let n := (Node.plain [1] ⟨[⟨[1], 1, 1⟩], 1⟩ (freshCache fun n => n)).handle
      (.set ⟨1, [7], [1], 0, 5, false⟩)
    let del : Msg := .del ⟨2, [7], 6⟩
    n.ack del = true ∧ (n.handle del).ack del = false ∧
      ((n.handle del).handle del).localCache.view 7 = none := by
  decide +kernel

end Node

end Kioshun
