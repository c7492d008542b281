import Kioshun.Cluster.Convergence
import Kioshun.Lib.Ranking

/-!
# The queries of a ring

The owners of a key come from a sorted list, `ownsHash` from one pass over the
nodes. Both select the same IDs, and a ring that loses a node or raises a weight
keeps the order of the other nodes.
-/

namespace Kioshun

open Ranking List

universe u v

namespace Ring
variable {h : UInt64} {a b x : NodeMeta} {r : Ring}

/-- `a` stands before `b` in the ranking, or ties with it. -/
abbrev Before (h : UInt64) : NodeMeta → NodeMeta → Prop := fun a b => less h b a = false

theorem before_iff : Before h a b ↔
    score h b < score h a ∨ score h a = score h b ∧ a.ID ≤ b.ID := by
  unfold Before less
  split_ifs with hne
  · rw [decide_eq_false_iff_not]
    omega
  · rw [decide_eq_false_iff_not, List.not_lt]
    constructor
    · intro hid
      exact .inr ⟨by omega, hid⟩
    · rintro (hlt | ⟨-, hid⟩)
      · omega
      · exact hid

instance : Std.Total (Before h) where
  total a b := by
    rw [before_iff, before_iff]
    rcases Nat.lt_trichotomy (score h a) (score h b) with hlt | heq | hlt
    · exact .inr (.inl hlt)
    · rcases List.le_total a.ID b.ID with hid | hid
      · exact .inl (.inr ⟨heq, hid⟩)
      · exact .inr (.inr ⟨heq.symm, hid⟩)
    · exact .inl (.inl hlt)

instance : IsTrans NodeMeta (Before h) where
  trans a b c hab hbc := by
    rw [before_iff] at *
    rcases hab with hab | ⟨hab, hid⟩
    · exact .inl (by omega)
    · rcases hbc with hbc | ⟨hbc, hid'⟩
      · exact .inl (by omega)
      · exact .inr ⟨hab.trans hbc, List.le_trans hid hid'⟩

theorem Before.tie (hab : Before h a b) (hba : Before h b a) : a.ID = b.ID := by
  rw [before_iff] at hab hba
  rcases hab with hab | ⟨hab, hid⟩
  · omega
  · rcases hba with hba | ⟨-, hid'⟩
    · omega
    · exact List.le_antisymm hid hid'

/-- Distinct IDs leave no ties. -/
theorem before_antisymm {l : List NodeMeta} (hids : (l.map NodeMeta.ID).Nodup) :
    ∀ a ∈ l, ∀ b ∈ l, Before h a b → Before h b a → a = b :=
  fun _ ha _ hb hab hba => inj_on_of_nodup_map hids ha hb (hab.tie hba)

theorem worse_eq_less : worse h a b = less h b a := by
  unfold worse less
  by_cases hs : score h a = score h b
  · rw [if_neg (by omega), if_neg (by omega)]
  · rw [if_pos hs, if_pos (Ne.symm hs)]

theorem before_of_not_worse (hw : ¬ worse h a b = true) : Before h a b := by
  rw [worse_eq_less] at hw
  exact Bool.eq_false_of_not_eq_true hw

theorem before_of_worse (hw : worse h a b = true) : Before h b a := by
  rcases Std.Total.total (r := Before h) a b with hab | hba
  · rw [worse_eq_less, hab] at hw
    cases hw
  · exact hba

section Streaming
variable {l best : List NodeMeta} {top : Nat} {s : Slots}

/-- The loop over the slots from `j` on, when the slots before `j` are dealt with. -/
theorem foldl_worstSlot (n : Nat) {j worst : Nat} {w : NodeMeta} (hw : best[worst]? = some w)
    (hdone : ∀ i < j, ∀ a, best[i]? = some a → Before h a w) (hn : j + n ≤ best.length) :
    ∃ w', best[(List.range' j n).foldl
        (fun worst i => if worseAt h best i worst then i else worst) worst]? = some w' ∧
      ∀ i < j + n, ∀ a, best[i]? = some a → Before h a w' := by
  induction n generalizing j worst w with
  | zero => exact ⟨w, hw, hdone⟩
  | succ n ih =>
    obtain ⟨x, hx⟩ : ∃ x, best[j]? = some x := ⟨_, getElem?_eq_getElem (by omega)⟩
    have hcmp : worseAt h best j worst = worse h x w := by simp only [worseAt, hx, hw]
    rw [List.range'_succ, foldl_cons, hcmp]
    have hnext : ∃ w₁, best[if worse h x w = true then j else worst]? = some w₁ ∧
        ∀ i < j + 1, ∀ a, best[i]? = some a → Before h a w₁ := by
      by_cases hxw : worse h x w = true
      · rw [if_pos hxw]
        refine ⟨x, hx, fun i hi a ha => ?_⟩
        rcases Nat.lt_succ_iff_lt_or_eq.mp hi with hlt | rfl
        · exact IsTrans.trans a w x (hdone i hlt a ha) (before_of_worse hxw)
        · rw [Option.some.inj (ha.symm.trans hx)]
          exact (Std.Total.total (r := Before h) x x).elim id id
      · rw [if_neg hxw]
        refine ⟨w, hw, fun i hi a ha => ?_⟩
        rcases Nat.lt_succ_iff_lt_or_eq.mp hi with hlt | rfl
        · exact hdone i hlt a ha
        · rw [Option.some.inj (ha.symm.trans hx)]
          exact before_of_not_worse hxw
    obtain ⟨w₁, hw₁, hdone₁⟩ := hnext
    obtain ⟨w', hw', hall⟩ := ih hw₁ hdone₁ (by omega)
    exact ⟨w', hw', fun i hi => hall i (by omega)⟩

theorem worstSlot_spec (hne : best ≠ []) :
    ∃ w, best[worstSlot h best]? = some w ∧ ∀ a ∈ best, Before h a w := by
  have hpos := length_pos_iff.mpr hne
  obtain ⟨x, hx⟩ : ∃ x, best[0]? = some x := ⟨_, getElem?_eq_getElem hpos⟩
  have hfirst : ∀ i < 1, ∀ a, best[i]? = some a → Before h a x := by
    intro i hi a ha
    obtain rfl : i = 0 := by omega
    rw [Option.some.inj (ha.symm.trans hx)]
    exact (Std.Total.total (r := Before h) x x).elim id id
  obtain ⟨w, hw, hall⟩ := foldl_worstSlot (best.length - 1) hx hfirst (by omega)
  refine ⟨w, hw, fun a ha => ?_⟩
  obtain ⟨i, hi⟩ := mem_iff_getElem?.mp ha
  have hlt : i < best.length := (List.getElem?_eq_some_iff.mp hi).1
  exact hall i (by omega) a hi

structure Slots.Sound (h : UInt64) (top : Nat) (l : List NodeMeta) (s : Slots) : Prop where
  best : Top (Before h) top l s.best
  worst : s.best ≠ [] → ∃ w, s.best[s.worst]? = some w ∧ ∀ a ∈ s.best, Before h a w

theorem offer_append (hs : s.Sound h top l) (hroom : s.best.length < top) (nm : NodeMeta) :
    (offer h top s nm).Sound h top (l ++ [nm]) := by
  have hrefl : Before h nm nm := (Std.Total.total (r := Before h) nm nm).elim id id
  have hlast : (s.best ++ [nm])[s.best.length]? = some nm := by simp
  have hbest := hs.best.push hroom nm
  simp only [offer, if_pos hroom, length_append, length_singleton, Nat.add_sub_cancel]
  by_cases hnil : s.best = []
  · refine ⟨by simpa [hnil] using hbest, fun _ => ⟨nm, ?_, ?_⟩⟩
    · simp [hnil]
    · simpa [hnil] using hrefl
  · obtain ⟨w, hw, hall⟩ := hs.worst hnil
    have hpos := length_pos_iff.mpr hnil
    have hlt : s.worst < s.best.length := (List.getElem?_eq_some_iff.mp hw).1
    have hw' : (s.best ++ [nm])[s.worst]? = some w := by
      rw [getElem?_append_left hlt]
      exact hw
    have hcmp : worseAt h (s.best ++ [nm]) s.best.length s.worst = worse h nm w := by
      simp only [worseAt, hlast, hw']
    rw [hcmp]
    by_cases hx : worse h nm w = true
    · rw [if_pos (.inr hx)]
      refine ⟨hbest, fun _ => ⟨nm, hlast, fun a ha => ?_⟩⟩
      rcases mem_append.mp ha with ha | ha
      · exact IsTrans.trans a w nm (hall a ha) (before_of_worse hx)
      · rw [mem_singleton.mp ha]
        exact hrefl
    · have hnot : ¬ (s.best.length + 1 = 1 ∨ worse h nm w = true) := by
        rintro (hone | hyes)
        · omega
        · exact hx hyes
      rw [if_neg hnot]
      refine ⟨hbest, fun _ => ⟨w, hw', fun a ha => ?_⟩⟩
      rcases mem_append.mp ha with ha | ha
      · exact hall a ha
      · rw [mem_singleton.mp ha]
        exact before_of_not_worse hx

theorem offer_full (hs : s.Sound h top l) (htop : 0 < top) (hfull : ¬ s.best.length < top)
    (nm : NodeMeta) : (offer h top s nm).Sound h top (l ++ [nm]) := by
  have hlen : s.best.length = top := by
    have hmin := hs.best.length
    omega
  have hne : s.best ≠ [] := length_pos_iff.mp (by omega)
  obtain ⟨w, hw, hall⟩ := hs.worst hne
  simp only [offer, if_neg hfull, hw]
  by_cases hx : worse h nm w = true
  · rw [if_pos hx]
    exact ⟨hs.best.keep hlen hall (before_of_worse hx), hs.worst⟩
  · rw [if_neg hx]
    exact ⟨hs.best.replace hlen hw hall (before_of_not_worse hx), fun hset => worstSlot_spec hset⟩

theorem foldl_offer_sound (htop : 0 < top) (nodes : List NodeMeta) (hs : s.Sound h top l) :
    (nodes.foldl (offer h top) s).Sound h top (l ++ nodes) := by
  induction nodes generalizing l s with
  | nil =>
    rw [append_nil]
    exact hs
  | cons nm nodes ih =>
    have hstep : (offer h top s nm).Sound h top (l ++ [nm]) := by
      by_cases hroom : s.best.length < top
      · exact offer_append hs hroom nm
      · exact offer_full hs htop hroom nm
    have hrest := ih hstep
    rw [append_assoc] at hrest
    exact hrest

/-- `ownsHash` agrees with `ownersFromKeyHash`, whatever the IDs are. -/
theorem ownsHash_iff (r : Ring) (id : NodeID) (h : UInt64) :
    r.ownsHash id h = true ↔ ∃ o ∈ r.ownersFromKeyHash h, o.ID = id := by
  by_cases hnone : r.nodes.length = 0 ∨ r.rf = 0
  · have hlen : (r.ownersFromKeyHash h).length = 0 := by
      rw [ownersFromKeyHash, ranked, length_take, length_insertionSort]
      omega
    rw [ownsHash, if_pos hnone, length_eq_zero_iff.mp hlen]
    simp
  · rw [ownsHash, if_neg hnone]
    generalize htop : (if r.nodes.length < r.rf then r.nodes.length else r.rf) = top
    have hmin : top = min r.rf r.nodes.length := by
      rw [← htop]
      split_ifs <;> omega
    have hstart : Slots.Sound h top [] ⟨[], 0⟩ := ⟨Top.nil, fun hne => absurd rfl hne⟩
    have hbest := (foldl_offer_sound (by omega) r.nodes hstart).best
    rw [nil_append] at hbest
    have howners : Top (Before h) top r.nodes (r.ownersFromKeyHash h) := by
      obtain ⟨hlen, hsplit⟩ := top_take (r := Before h) r.rf r.nodes
      exact ⟨hlen.trans (by omega), hsplit⟩
    simp only [any_eq_true, beq_iff_eq]
    constructor
    · rintro ⟨o, ho, rfl⟩
      obtain ⟨o', ho', hoo, hoo'⟩ := hbest.tied howners ho
      exact ⟨o', ho', hoo'.tie hoo⟩
    · rintro ⟨o, ho, rfl⟩
      obtain ⟨o', ho', hoo, hoo'⟩ := howners.tied hbest ho
      exact ⟨o', ho', hoo'.tie hoo⟩

end Streaming

section Queries
variable {K : Type u} {V : Type v}

theorem mem_ranked : a ∈ r.ranked h ↔ a ∈ r.nodes := mem_insertionSort _

theorem pairwise_ranked (r : Ring) (h : UInt64) : (r.ranked h).Pairwise (Before h) :=
  pairwise_insertionSort (Before h) r.nodes

section
variable (hids : (r.nodes.map NodeMeta.ID).Nodup)
include hids

theorem nodup_ranked (h : UInt64) : ((r.ranked h).map NodeMeta.ID).Nodup :=
  ((perm_insertionSort (Before h) r.nodes).map NodeMeta.ID).nodup_iff.mpr hids

theorem ranked_perm {r' : Ring} (hperm : r'.nodes.Perm r.nodes) : r'.ranked h = r.ranked h :=
  eq_insertionSort (before_antisymm hids)
    ((perm_insertionSort (Before h) r'.nodes).trans hperm) (pairwise_ranked r' h)

/-- The node that `ownersFor` adds for a hot key is the next one of the ranking. -/
theorem shadow_ranked (h : UInt64) :
    Node.shadow (r.ownersFromKeyHash h) ((r.ranked h).take (r.rf + 3)) =
      r.ownersFromKeyHash h ++ (r.ranked h)[r.rf]?.toList := by
  have hsplit : (r.ranked h).take (r.rf + 3) =
      r.ownersFromKeyHash h ++ ((r.ranked h).drop r.rf).take 3 := by
    rw [ownersFromKeyHash, take_add]
  have hold : (r.ownersFromKeyHash h).find? (fun cand =>
      !(r.ownersFromKeyHash h).any fun ex => ex.ID == cand.ID) = none := by
    refine find?_eq_none.mpr fun cand hcand => ?_
    have hin : (r.ownersFromKeyHash h).any (fun ex => ex.ID == cand.ID) = true :=
      any_eq_true.mpr ⟨cand, hcand, beq_self_eq_true _⟩
    simp [hin]
  rw [Node.shadow, hsplit, find?_append, hold, Option.none_or]
  cases hrest : (r.ranked h).drop r.rf with
  | nil =>
    have hnone : (r.ranked h)[r.rf]? = none :=
      getElem?_eq_none_iff.mpr (drop_eq_nil_iff.mp hrest)
    simp [hnone]
  | cons c rest =>
    have hc : (r.ranked h)[r.rf]? = some c := by
      rw [← head?_drop, hrest]
      rfl
    -- the IDs are distinct, so the first node after the owners is not one of them
    have hnew : (r.ownersFromKeyHash h).any (fun ex => ex.ID == c.ID) = false := by
      refine any_eq_false.mpr fun o ho heq => ?_
      have hnodup := nodup_ranked hids h
      rw [← take_append_drop r.rf (r.ranked h), hrest, map_append] at hnodup
      refine disjoint_of_nodup_append hnodup (mem_map_of_mem ho) ?_
      rw [beq_iff_eq.mp heq]
      exact mem_map_of_mem mem_cons_self
    simp [hc, hnew]

end

/-- The order of the nodes does not matter, the three queries agree, and a hot key is given to one
more node, the next one of the ranking, unless `rf + 3` overflows. -/
theorem queries_agree (r : Ring) (hids : (r.nodes.map NodeMeta.ID).Nodup) (hrf : r.rf < 2 ^ 63)
    (h : UInt64) :
    (∀ r' : Ring, r'.nodes.Perm r.nodes → r'.rf = r.rf →
      r'.ownersFromKeyHash h = r.ownersFromKeyHash h) ∧
    (∀ m : Int, r.rf ≤ m → ∃ top, r.ownersTopNFromKeyHash h m = some top ∧
      r.ownersFromKeyHash h = top.take (min r.rf r.nodes.length)) ∧
    (∀ id, r.ownsHash id h = true ↔ ∃ o ∈ r.ownersFromKeyHash h, o.ID = id) ∧
    ∀ (n : Node K V) (k : K) (expAt : Int), n.ring = r → n.hash64Of k = h →
      n.hotSet (n.kc.EncodeKey k) = some expAt → n.now.1 < expAt →
      ((n.ownersFor k).1 = some (r.ownersFromKeyHash h ++ (r.ranked h)[r.rf]?.toList) ↔
        r.rf + 3 < 2 ^ 63) := by
  refine ⟨fun r' hperm hrf => ?_, fun m hm => ?_, fun id => ownsHash_iff r id h,
    fun n k expAt hring hhash hhot hnow => ?_⟩
  · rw [ownersFromKeyHash, ownersFromKeyHash, ranked_perm hids hperm, hrf]
  · have hlen : (r.ranked h).length = r.nodes.length := length_insertionSort _ _
    refine ⟨_, if_neg (by omega), ?_⟩
    rw [ownersFromKeyHash, take_take,
      Nat.min_eq_left (by omega : min r.rf r.nodes.length ≤ m.toNat), ← hlen, take_eq_take_min]
  · simp only [Node.ownersFor, hhot, if_pos hnow, hring, hhash, ownersTopNFromKeyHash]
    by_cases hfits : r.rf + 3 < 2 ^ 63
    · have hsum : wrap64 (r.rf + 3) = ((r.rf + 3 : Nat) : Int) :=
        wrap64_of_mem (by omega) (by omega)
      rw [hsum, if_neg (by omega), Int.toNat_natCast, Option.map_some, shadow_ranked hids h]
      exact iff_of_true rfl hfits
    · have hsum : wrap64 (r.rf + 3) < 0 := by
        rw [wrap64, Int.bmod_def]
        split_ifs <;> omega
      rw [if_pos hsum, Option.map_none]
      exact iff_of_false (Option.some_ne_none _).symm hfits

def hotNode (rf : Nat) (c : InMemoryCache UInt8 UInt8) : Node UInt8 UInt8 :=
  { Node.plain [1] ⟨[⟨[1], 5, 0⟩, ⟨[2], 9, 0⟩], rf⟩ c with
    hotSet := fun bk => if bk = [7] then some 100 else none }

theorem queries_agree_pair :
    ((hotNode 1 (Node.freshCache fun _ => 0)).ownersFor 7).1 = some [⟨[2], 9, 0⟩, ⟨[1], 5, 0⟩] :=
  ((queries_agree ⟨[⟨[1], 5, 0⟩, ⟨[2], 9, 0⟩], 1⟩ (by decide) (by decide) 7).2.2.2
    (hotNode 1 _) 7 100 rfl rfl rfl (by decide +kernel)).mpr (by decide)

/-- A replication factor that leaves no room for the three more candidates. -/
theorem hot_owners_panic :
    let owners (rf : Nat) := ((hotNode rf (Node.freshCache fun _ => 0)).ownersFor 7).1
    owners (2 ^ 63 - 3) = none ∧ owners (2 ^ 63 - 4) = some [⟨[2], 9, 0⟩, ⟨[1], 5, 0⟩] := by
  decide +kernel

end Queries

def others (x : NodeMeta) (nm : NodeMeta) : Bool := decide (nm.ID ≠ x.ID)

def without (r : Ring) (x : NodeMeta) : Ring := { r with nodes := r.nodes.filter (others x) }

def reweigh (x : NodeMeta) (w : UInt64) (nm : NodeMeta) : NodeMeta :=
  if nm.ID = x.ID then { nm with weight := w } else nm

def withWeight (r : Ring) (x : NodeMeta) (w : UInt64) : Ring :=
  { r with nodes := r.nodes.map (reweigh x w) }

theorem others_self : others x x = false := decide_eq_false fun hne => hne rfl

theorem ID_reweigh (w : UInt64) (nm : NodeMeta) : (reweigh x w nm).ID = nm.ID := by
  unfold reweigh
  split_ifs <;> rfl

theorem map_ID_withWeight (r : Ring) (x : NodeMeta) (w : UInt64) :
    (r.withWeight x w).nodes.map NodeMeta.ID = r.nodes.map NodeMeta.ID := by
  rw [withWeight, map_map]
  exact map_congr_left fun nm _ => ID_reweigh w nm

/-- The ranking around a node. -/
theorem ranked_split (hids : (r.nodes.map NodeMeta.ID).Nodup) (hx : x ∈ r.nodes) (h : UInt64) :
    ∃ front back, r.ranked h = front ++ x :: back ∧ (∀ a ∈ front, others x a = true) ∧
      (∀ b ∈ back, others x b = true) ∧ ∀ b ∈ back, Before h x b := by
  obtain ⟨front, back, hsplit⟩ := append_of_mem (mem_ranked (h := h).mpr hx)
  have hnodup := nodup_ranked hids h
  have hsorted := pairwise_ranked r h
  rw [hsplit, map_append, map_cons, nodup_middle, nodup_cons] at hnodup
  rw [hsplit] at hsorted
  refine ⟨front, back, hsplit, fun a ha => decide_eq_true fun heq => hnodup.1 ?_,
    fun b hb => decide_eq_true fun heq => hnodup.1 ?_, ?_⟩
  · rw [← heq]
    exact mem_append_left _ (mem_map_of_mem ha)
  · rw [← heq]
    exact mem_append_right _ (mem_map_of_mem hb)
  · exact (pairwise_cons.mp (pairwise_append.mp hsorted).2.1).1

theorem mem_take_split {front back : List NodeMeta} (hfront : ∀ a ∈ front, others x a = true)
    (n : Nat) : x ∈ (front ++ x :: back).take n ↔ front.length < n := by
  constructor
  · intro hmem
    by_contra hle
    rw [take_append_of_le_length (by omega)] at hmem
    have hyes := hfront x (mem_of_mem_take hmem)
    rw [others_self] at hyes
    cases hyes
  · intro hlt
    obtain ⟨m, rfl⟩ : ∃ m, n = front.length + (m + 1) := ⟨n - front.length - 1, by omega⟩
    rw [take_length_add_append, take_succ_cons]
    exact mem_append_right _ mem_cons_self

theorem ranked_without (hids : (r.nodes.map NodeMeta.ID).Nodup) :
    (r.without x).ranked h = (r.ranked h).filter (others x) :=
  (filter_insertionSort (before_antisymm hids) (others x)).symm

theorem ranked_withWeight (hids : (r.nodes.map NodeMeta.ID).Nodup) (w : UInt64) :
    ((r.withWeight x w).ranked h).filter (others x) = (r.ranked h).filter (others x) := by
  have hids' : ((r.withWeight x w).nodes.map NodeMeta.ID).Nodup := by
    rw [map_ID_withWeight]
    exact hids
  have hsame : (r.withWeight x w).nodes.filter (others x) = r.nodes.filter (others x) := by
    rw [withWeight, filter_map]
    have hcomp : others x ∘ reweigh x w = others x := by
      funext nm
      simp only [Function.comp, others, ID_reweigh]
    rw [hcomp]
    refine (map_congr_left fun nm hnm => ?_).trans (map_id _)
    exact if_neg (of_decide_eq_true (mem_filter.mp hnm).2)
  rw [← ranked_without hids', ← ranked_without hids, ranked, ranked, without, without]
  exact congrArg (List.insertionSort (Before h)) hsame

/-- A greater weight does not move a node behind another one. -/
theorem before_reweigh {w : UInt64} (hw : x.weight ≤ w) (hxb : Before h x b) :
    Before h { x with weight := w } b := by
  have hscore : score h x ≤ score h { x with weight := w } :=
    Nat.mul_le_mul_left _ (UInt64.le_iff_toNat_le.mp hw)
  rw [before_iff] at *
  rcases hxb with hlt | ⟨heq, hid⟩
  · exact .inl (lt_of_lt_of_le hlt hscore)
  · rcases Nat.lt_or_ge (score h b) (score h { x with weight := w }) with hlt | hge
    · exact .inl hlt
    · exact .inr ⟨by omega, hid⟩

theorem withWeight_owner (hids : (r.nodes.map NodeMeta.ID).Nodup) (hx : x ∈ r.nodes) {w : UInt64}
    (hw : x.weight ≤ w) (hown : x ∈ r.ownersFromKeyHash h) :
    { x with weight := w } ∈ (r.withWeight x w).ownersFromKeyHash h := by
  have hids' : ((r.withWeight x w).nodes.map NodeMeta.ID).Nodup := by
    rw [map_ID_withWeight]
    exact hids
  have hx' : { x with weight := w } ∈ (r.withWeight x w).nodes :=
    mem_map.mpr ⟨x, hx, if_pos rfl⟩
  obtain ⟨front, back, hsplit, hfront, hback, hbehind⟩ := ranked_split hids hx h
  obtain ⟨front', back', hsplit', hfront', hback', -⟩ := ranked_split hids' hx' h
  have hsorted' := pairwise_ranked (r.withWeight x w) h
  rw [hsplit'] at hsorted'
  have hrest : front' ++ back' = front ++ back := by
    have heq := ranked_withWeight (x := x) (h := h) hids w
    have hrest' : (front' ++ { x with weight := w } :: back').filter (others x) =
        front' ++ back' := filter_split others_self hfront' hback'
    rw [hsplit, hsplit', hrest', filter_split others_self hfront hback] at heq
    exact heq
  rw [ownersFromKeyHash, hsplit, mem_take_split hfront] at hown
  rw [ownersFromKeyHash, hsplit', mem_take_split hfront']
  refine lt_of_le_of_lt ?_ hown
  by_contra hlonger
  -- the node that stood right behind x would now stand before it
  have hlt : front.length < front'.length := by omega
  have hb : front'[front.length] ∈ back := by
    have hget : (front' ++ back')[front.length]? = some front'[front.length] := by
      rw [getElem?_append_left hlt, getElem?_eq_getElem hlt]
    rw [hrest, getElem?_append_right (le_refl _)] at hget
    exact mem_of_getElem? hget
  have hmem : front'[front.length] ∈ front' := getElem_mem hlt
  have hahead : Before h front'[front.length] { x with weight := w } :=
    (pairwise_append.mp hsorted').2.2 _ hmem _ mem_cons_self
  exact of_decide_eq_true (hback _ hb) (hahead.tie (before_reweigh hw (hbehind _ hb)))

/-- A node that leaves takes only its own places with it: the owners of a key stay, or the next
node of the ranking moves up. A node whose weight grows stays an owner, and the others keep their
order. -/
theorem minimal_disruption (r : Ring) (hids : (r.nodes.map NodeMeta.ID).Nodup)
    (hx : x ∈ r.nodes) (h : UInt64) :
    (x ∉ r.ownersFromKeyHash h →
      (r.without x).ownersFromKeyHash h = r.ownersFromKeyHash h) ∧
    (x ∈ r.ownersFromKeyHash h → (r.without x).ownersFromKeyHash h =
      (r.ownersFromKeyHash h).filter (others x) ++ (r.ranked h)[r.rf]?.toList) ∧
    ∀ w, x.weight ≤ w →
      (x ∈ r.ownersFromKeyHash h →
        { x with weight := w } ∈ (r.withWeight x w).ownersFromKeyHash h) ∧
      ((r.withWeight x w).ranked h).filter (others x) = (r.ranked h).filter (others x) := by
  obtain ⟨front, back, hsplit, hfront, hback, -⟩ := ranked_split hids hx h
  have hmem : x ∈ (front ++ x :: back).take r.rf ↔ front.length < r.rf :=
    mem_take_split hfront r.rf
  have hcut := take_filter_split (others_self (x := x)) hfront hback r.rf
  have hleft : (r.without x).ownersFromKeyHash h = ((r.ranked h).filter (others x)).take r.rf := by
    rw [ownersFromKeyHash, ranked_without hids, without]
  refine ⟨fun hno => ?_, fun hyes => ?_, fun w hw =>
    ⟨fun hown => withWeight_owner hids hx hw hown, ranked_withWeight hids w⟩⟩
  · rw [ownersFromKeyHash, hsplit, hmem] at hno
    rw [hleft, hsplit, hcut, if_pos (by omega), ownersFromKeyHash, hsplit]
  · rw [ownersFromKeyHash, hsplit, hmem] at hyes
    rw [hleft, ownersFromKeyHash, hsplit, hcut, if_neg (by omega)]

def trio : Ring := ⟨[⟨[1], 5, 0⟩, ⟨[2], 9, 0⟩, ⟨[3], 7, 0⟩], 2⟩

theorem minimal_disruption_trio :
    trio.ownersFromKeyHash 7 = [⟨[2], 9, 0⟩, ⟨[3], 7, 0⟩] ∧
      (trio.without ⟨[2], 9, 0⟩).ownersFromKeyHash 7 =
        (trio.ownersFromKeyHash 7).filter (others ⟨[2], 9, 0⟩) ++
          (trio.ranked 7)[trio.rf]?.toList :=
  ⟨by decide, (minimal_disruption trio (by decide) (by decide) 7).2.1 (by decide)⟩

end Ring

end Kioshun
