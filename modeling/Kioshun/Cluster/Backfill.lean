import Kioshun.Cluster.Convergence

/-!
# Importing a page of backfill

A joiner imports the pages that a donor sends and records the versions of their
items. It does not look at the versions it has recorded itself, so an item older
than the local write replaces it, and a deleted key may come back.
-/

namespace Kioshun
open InMemoryCache List

universe u v
variable {K : Type u} {V : Type v} [DecidableEq K] [Inhabited V]

namespace Node

def decodeItem (n : Node K V) (kv : KV) : Option (Item K V) :=
  match n.kc.DecodeKey kv.K with
  | .error _ => none
  | .ok k =>
    match n.maybeDecompress kv.V kv.Cp with
    | .error _ => none
    | .ok vb =>
      match n.codec.Decode vb with
      | .error _ => none
      | .ok v => some ⟨k, v, kv.E, kv.Ver⟩

def toImport (n : Node K V) (kr : MsgBackfillKeysResp) : List (Item K V) :=
  kr.Items.filterMap n.decodeItem

/-- `n.version` gets the version of every item, in the order of the page. -/
def recordAll (n : Node K V) (items : List (Item K V)) : Node K V :=
  items.foldl (fun n it => n.record (n.kc.EncodeKey it.Key) it.Version) n

def importPage (n : Node K V) (kr : MsgBackfillKeysResp) : Node K V :=
  match (n.toImport kr).getLast? with
  | none => n
  | some last =>
    let stored := n.importItems (n.toImport kr)
    if n.cfg.LWWEnabled then
      let recorded := stored.recordAll (n.toImport kr)
      if 0 < last.Version then recorded.observe last.Version else recorded
    else stored

def lastOf (items : List (Item K V)) (k : K) : Option (Item K V) :=
  (items.filter fun it => it.Key = k).getLast?

def donorItem (n : Node K V) (kr : MsgBackfillKeysResp) (k : K) : Option (Item K V) :=
  lastOf (n.toImport kr) k

/-- Coming from `n` to `n'`, the donor's item has neither lowered the version of its key nor
prevailed over a newer local write or delete. -/
structure Prunes (n n' : Node K V) (it : Item K V) : Prop where
  version : n.version (n.kc.EncodeKey it.Key) ≤ n'.version (n.kc.EncodeKey it.Key)
  value : it.Version < n.version (n.kc.EncodeKey it.Key) →
    ∀ e, n.localCache.view it.Key = some e →
      n'.localCache.view it.Key = some e ∨ n'.localCache.view it.Key = none
  absent : it.Version < n.version (n.kc.EncodeKey it.Key) →
    n.localCache.view it.Key = none → n'.localCache.view it.Key = none

variable {n n' : Node K V} {items : List (Item K V)} {k : K} {it : Item K V}

section
omit [Inhabited V]

theorem lastOf_snoc (items : List (Item K V)) (it : Item K V) (k : K) :
    lastOf (items ++ [it]) k = if it.Key = k then some it else lastOf items k := by
  by_cases hk : it.Key = k
  · simp [lastOf, hk]
  · simp [lastOf, hk]

theorem lastOf_key (h : lastOf items k = some it) : it.Key = k := by
  have hmem := mem_filter.mp (mem_of_getLast? h)
  exact of_decide_eq_true hmem.2

/-- Of several items with one key the last one is imported. -/
theorem imported_lastOf (view : K → Option (V × Int)) (items : List (Item K V)) (k : K) :
    imported items view k =
      match lastOf items k with
      | some it => some (it.Val, it.ExpireAbs)
      | none => view k := by
  induction items using List.reverseRecOn with
  | nil => rfl
  | append_singleton items it ih =>
    rw [lastOf_snoc, imported, foldl_append]
    by_cases hk : it.Key = k
    · subst hk
      simp
    · rw [if_neg hk, ← ih]
      simp [imported, Ne.symm hk]

/-- And the last one is the one whose version is recorded. -/
theorem recordAll_spec (h : n.Ready) (hkc : n.kc.Lawful) (items : List (Item K V)) :
    Advances n (n.recordAll items) ∧
      (n.recordAll items).localCache.view = n.localCache.view ∧
      ∀ k, (n.recordAll items).version (n.kc.EncodeKey k) =
        match lastOf items k with
        | some it => it.Version
        | none => n.version (n.kc.EncodeKey k) := by
  induction items using List.reverseRecOn with
  | nil => exact ⟨Advances.refl h, rfl, fun _ => rfl⟩
  | append_singleton items it ih =>
    obtain ⟨hadv, hview, hver⟩ := ih
    have hsnoc : n.recordAll (items ++ [it]) =
        (n.recordAll items).record (n.kc.EncodeKey it.Key) it.Version := by
      rw [← hadv.kc, recordAll, foldl_append]
      rfl
    rw [hsnoc]
    refine ⟨hadv.trans (record_advances hadv.ready _ _), hview, fun k => ?_⟩
    rw [lastOf_snoc]
    by_cases hk : it.Key = k
    · subst hk
      simp [record]
    · have hne : n.kc.EncodeKey k ≠ n.kc.EncodeKey it.Key := by
        intro he
        have hd := hkc.decode_encode k
        rw [he, hkc.decode_encode] at hd
        exact hk (Except.ok.inj hd)
      rw [if_neg hk, ← hver]
      exact Function.update_of_ne hne _ _

end

section Page
variable {kr : MsgBackfillKeysResp}

structure Imports (n : Node K V) (items : List (Item K V)) (n' : Node K V) : Prop where
  advances : Advances n n'
  kept : ∀ k, n'.localCache.view k = imported items n.localCache.view k ∨
    n'.localCache.view k = none
  view : n.localCache.perShardCap ≤ 0 →
    n'.localCache.view = imported items n.localCache.view
  version : n.cfg.LWWEnabled = true → ∀ k, n'.version (n.kc.EncodeKey k) =
    match lastOf items k with
    | some it => it.Version
    | none => n.version (n.kc.EncodeKey k)
  unversioned : ¬ n.cfg.LWWEnabled = true → n'.version = n.version

theorem importPage_imports (h : n.Ready) (hkc : n.kc.Lawful) (kr : MsgBackfillKeysResp) :
    Imports n (n.toImport kr) (n.importPage kr) := by
  cases hlast : (n.toImport kr).getLast? with
  | none =>
    have hnil : n.toImport kr = [] := getLast?_eq_none_iff.mp hlast
    simp only [importPage, hnil]
    exact ⟨Advances.refl h, fun _ => .inl rfl, fun _ => rfl, fun _ _ => rfl, fun _ => rfl⟩
  | some last =>
    obtain ⟨himp, hle, hexact⟩ := importItems_spec h (n.toImport kr)
    by_cases hlww : n.cfg.LWWEnabled = true
    · obtain ⟨hrec, hview, hver⟩ := recordAll_spec himp.ready (himp.kc ▸ hkc) (n.toImport kr)
      have hsilent : Silent ((n.importItems (n.toImport kr)).recordAll (n.toImport kr))
          (n.importPage kr) := by
        simp only [importPage, hlast, hlww, if_true]
        split_ifs
        · exact observe_silent hrec.ready _
        · exact Silent.refl hrec.ready
      rw [himp.kc] at hver
      have hsame : (n.importPage kr).localCache.view =
          (n.importItems (n.toImport kr)).localCache.view := hsilent.view.trans hview
      exact
        { advances := (himp.trans hrec).trans hsilent.advances
          kept := hsame ▸ hle
          view := hsame ▸ hexact
          version := fun _ k => (congrFun hsilent.version _).trans (hver k)
          unversioned := fun hno => absurd hlww hno }
    · have hstored : n.importPage kr = n.importItems (n.toImport kr) := by
        simp only [importPage, hlast, if_neg hlww]
      rw [hstored]
      exact ⟨himp, hle, hexact, fun hyes => absurd hyes hlww, fun _ => rfl⟩

/-- After the import of a page, every key of it has the version of the donor's item, whatever
was recorded before, and holds the value of that item unless it has been evicted since. -/
theorem importPage_spec (h : n.Ready) (hlww : n.cfg.LWWEnabled = true) (hkc : n.kc.Lawful)
    (kr : MsgBackfillKeysResp) :
    Advances n (n.importPage kr) ∧
      ∀ k it, n.donorItem kr k = some it →
        (n.importPage kr).version (n.kc.EncodeKey k) = it.Version ∧
          ((n.importPage kr).localCache.view k = some (it.Val, it.ExpireAbs) ∨
            (n.importPage kr).localCache.view k = none) ∧
          (n.localCache.perShardCap ≤ 0 →
            (n.importPage kr).localCache.view k = some (it.Val, it.ExpireAbs)) := by
  have himports := importPage_imports h hkc kr
  refine ⟨himports.advances, fun k it hit => ?_⟩
  have hdonor : lastOf (n.toImport kr) k = some it := hit
  have himported : imported (n.toImport kr) n.localCache.view k =
      some (it.Val, it.ExpireAbs) := by rw [imported_lastOf, hdonor]
  refine ⟨?_, ?_, fun hcap => ?_⟩
  · rw [himports.version hlww, hdonor]
  · rw [← himported]
    exact himports.kept k
  · rw [himports.view hcap]
    exact himported

/-- For every joiner, every page and every key of it: newer local writes and deletes prevail if
and only if there are none, because the donor's item is not older than the version that the
joiner has recorded. -/
theorem importPage_prunes_iff (h : n.Ready) (hlww : n.cfg.LWWEnabled = true) (hkc : n.kc.Lawful)
    (hit : n.donorItem kr k = some it) :
    Prunes n (n.importPage kr) it ↔ n.version (n.kc.EncodeKey k) ≤ it.Version := by
  have hkey : it.Key = k := lastOf_key hit
  obtain ⟨-, hpage⟩ := importPage_spec h hlww hkc kr
  obtain ⟨hver, -, -⟩ := hpage k it hit
  subst hkey
  constructor
  · intro hprunes
    rw [← hver]
    exact hprunes.version
  · intro hle
    have hnot : ¬ it.Version < n.version (n.kc.EncodeKey it.Key) := UInt64.not_lt.mpr hle
    exact ⟨hver ▸ hle, fun hlt => absurd hlt hnot, fun hlt => absurd hlt hnot⟩

def joiner : Node UInt8 UInt8 :=
  (plain [1] ⟨[], 1⟩ (freshCache fun n => n)).deliver
    [.set ⟨1, [7], [20], 0, 5, false⟩, .del ⟨2, [8], 6⟩]

theorem importPage_prunes_newer :
    Prunes joiner (joiner.importPage ⟨[⟨[7], [30], 0, 9, false⟩]⟩) ⟨7, 30, 0, 9⟩ := by
  have hrep : Replica (plain [1] ⟨[], 1⟩ (freshCache fun n => n)) := plain_replica ..
  have hadv : Advances (plain [1] ⟨[], 1⟩ (freshCache fun n => n)) joiner := by
    refine (deliver_performs hrep fun m hm => ?_).advances
    simp only [mem_cons, not_mem_nil, or_false] at hm
    rcases hm with rfl | rfl
    · exact ⟨7, [20], 20, rfl, rfl⟩
    · exact ⟨rfl, 8, rfl⟩
  have hj := hrep.advances hadv
  refine (importPage_prunes_iff (k := 7) hj.ready hj.lww hj.lawful ?_).mpr (by decide +kernel)
  have hkc : joiner.kc = byteKeys := hadv.kc
  have hcodec : joiner.codec = byteValues := hadv.codec
  simp only [donorItem, toImport, decodeItem, maybeDecompress, hkc, hcodec]
  rfl

/-- Older items of the donor lower the version of 7 and replace its value, and the deleted key 8
is present again. -/
theorem importPage_older :
    let n' := joiner.importPage ⟨[⟨[7], [10], 0, 3, false⟩, ⟨[8], [11], 0, 4, false⟩]⟩
    [joiner, n'].map (fun n => (n.version [7], n.localCache.view 7)) =
        [(5, some (20, 0)), (3, some (10, 0))] ∧
      [joiner, n'].map (fun n => (n.version [8], n.localCache.view 8)) =
        [(6, none), (4, some (11, 0))] := by
  decide +kernel

end Page

end Node

end Kioshun
