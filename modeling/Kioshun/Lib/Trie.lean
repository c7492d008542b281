import Mathlib.Data.List.Nodup
import Mathlib.Data.List.Perm.Basic

/-!
# Tries

A node holds a set of keys and has children, one for each segment that leads on. The
children of a node are a forest: its first tree, with the forest below it, and the
rest. A trie is seen as the relation between paths and the keys at their end.
-/

namespace Trie
open List

universe u v

inductive Forest (σ : Type u) (κ : Type v) where
  | nil
  | cons (seg : σ) (keys : List κ) (children rest : Forest σ κ)

structure Node (σ : Type u) (κ : Type v) where
  keys : List κ
  children : Forest σ κ

variable {σ : Type u} {κ : Type v}

namespace Forest

variable [DecidableEq σ]

def lookup : Forest σ κ → σ → Option (Node σ κ)
  | nil, _ => none
  | cons s keys children rest, x => if x = s then some ⟨keys, children⟩ else rest.lookup x

/-- The child is replaced, or added if there was none. -/
def set : Forest σ κ → σ → Node σ κ → Forest σ κ
  | nil, x, n => cons x n.keys n.children nil
  | cons s keys children rest, x, n =>
    if x = s then cons s n.keys n.children rest else cons s keys children (rest.set x n)

/-- No two children of a node have the same segment, and no key is twice at a node. -/
def Wf : Forest σ κ → Prop
  | nil => True
  | cons s keys children rest => keys.Nodup ∧ children.Wf ∧ rest.Wf ∧ rest.lookup s = none

omit [DecidableEq σ]

def collect : Forest σ κ → List κ
  | nil => []
  | cons _ keys children rest => keys ++ children.collect ++ rest.collect

/-- The keys of all nodes with the paths that lead to them. -/
def entries : Forest σ κ → List (List σ × κ)
  | nil => []
  | cons s keys children rest =>
    (keys.map fun k => ([s], k)) ++ (children.entries.map fun e => (s :: e.1, e.2)) ++ rest.entries

end Forest

namespace Node

def empty : Node σ κ := ⟨[], .nil⟩

variable [DecidableEq σ]

def Wf (n : Node σ κ) : Prop := n.keys.Nodup ∧ n.children.Wf

/-- The node at the end of a path. -/
def find : Node σ κ → List σ → Option (Node σ κ)
  | n, [] => some n
  | n, s :: path => (n.children.lookup s).bind fun c => c.find path

def Holds (n : Node σ κ) (path : List σ) (k : κ) : Prop := ∃ m, n.find path = some m ∧ k ∈ m.keys

variable [DecidableEq κ]

/-- The nodes that are missing on the path are made. -/
def add : Node σ κ → List σ → κ → Node σ κ
  | n, [], k => { n with keys := n.keys.insert k }
  | n, s :: path, k =>
    { n with children := n.children.set s (((n.children.lookup s).getD empty).add path k) }

def remove : Node σ κ → List σ → κ → Node σ κ
  | n, [], k => { n with keys := n.keys.erase k }
  | n, s :: path, k =>
    match n.children.lookup s with
    | none => n
    | some c => { n with children := n.children.set s (c.remove path k) }

omit [DecidableEq σ] [DecidableEq κ]

def collect (n : Node σ κ) : List κ := n.keys ++ n.children.collect

def entries (n : Node σ κ) : List (List σ × κ) :=
  (n.keys.map fun k => ([], k)) ++ n.children.entries

end Node

section Forests

variable [DecidableEq σ] {f : Forest σ κ} {n : Node σ κ} {x y : σ}

theorem lookup_set (f : Forest σ κ) (x y : σ) (n : Node σ κ) :
    (f.set x n).lookup y = if y = x then some n else f.lookup y := by
  induction f with
  | nil => rfl
  | cons s keys children rest _ ih =>
    by_cases hx : x = s
    · subst hx
      by_cases hy : y = x <;> simp [Forest.set, Forest.lookup, hy]
    · by_cases hy : y = s
      · subst hy
        simp [Forest.set, Forest.lookup, hx, Ne.symm hx]
      · simp [Forest.set, Forest.lookup, hx, hy, ih]

theorem wf_set (hf : f.Wf) (hn : n.Wf) : (f.set x n).Wf := by
  induction f with
  | nil => exact ⟨hn.1, hn.2, trivial, rfl⟩
  | cons s keys children rest _ ih =>
    obtain ⟨hkeys, hchildren, hrest, hnew⟩ := hf
    by_cases hx : x = s
    · rw [Forest.set, if_pos hx]
      exact ⟨hn.1, hn.2, hrest, hnew⟩
    · rw [Forest.set, if_neg hx]
      refine ⟨hkeys, hchildren, ih hrest, ?_⟩
      rw [lookup_set, if_neg (Ne.symm hx)]
      exact hnew

theorem wf_lookup (hf : f.Wf) (h : f.lookup x = some n) : n.Wf := by
  induction f with
  | nil => cases h
  | cons s keys children rest _ ih =>
    obtain ⟨hkeys, hchildren, hrest, -⟩ := hf
    rw [Forest.lookup] at h
    split_ifs at h
    · cases h
      exact ⟨hkeys, hchildren⟩
    · exact ih hrest h

end Forests

section Nodes

variable [DecidableEq σ] {n c : Node σ κ} {p q : List σ} {s : σ} {k x : κ}

@[simp] theorem holds_nil : n.Holds [] x ↔ x ∈ n.keys := by
  simp [Node.Holds, Node.find]

@[simp] theorem not_holds_empty : ¬(Node.empty : Node σ κ).Holds q x := by
  cases q with
  | nil => simp [Node.empty]
  | cons s q => simp [Node.Holds, Node.find, Node.empty, Forest.lookup]

theorem holds_cons : n.Holds (s :: q) x ↔ ∃ c, n.children.lookup s = some c ∧ c.Holds q x := by
  simp only [Node.Holds, Node.find, Option.bind_eq_some_iff]
  constructor
  · rintro ⟨m, ⟨c, hc, hm⟩, hx⟩
    exact ⟨c, hc, m, hm, hx⟩
  · rintro ⟨c, hc, m, hm, hx⟩
    exact ⟨m, ⟨c, hc, hm⟩, hx⟩

/-- Paths through a child that has been set. -/
theorem holds_set {q : List σ} : ({ n with children := n.children.set s c } : Node σ κ).Holds q x ↔
    match q with
    | [] => x ∈ n.keys
    | t :: q => if t = s then c.Holds q x else n.Holds (t :: q) x := by
  cases q with
  | nil => exact holds_nil
  | cons t q =>
    simp only [holds_cons, lookup_set]
    split_ifs with ht
    · simp
    · rfl

theorem wf_empty : (Node.empty : Node σ κ).Wf := ⟨nodup_nil, trivial⟩

theorem wf_find (hn : n.Wf) (h : n.find p = some c) : c.Wf := by
  induction p generalizing n with
  | nil => cases h; exact hn
  | cons s p ih =>
    obtain ⟨d, hd, hc⟩ := Option.bind_eq_some_iff.mp h
    exact ih (wf_lookup hn.2 hd) hc

theorem find_append : n.find (p ++ q) = (n.find p).bind fun c => c.find q := by
  induction p generalizing n with
  | nil => rfl
  | cons s p ih =>
    simp only [cons_append, Node.find]
    cases n.children.lookup s with
    | none => rfl
    | some c => exact ih

/-- Below the node at the end of a path. -/
theorem holds_append (h : n.find p = some c) : n.Holds (p ++ q) x ↔ c.Holds q x := by
  simp [Node.Holds, find_append, h]

variable [DecidableEq κ]

theorem holds_add : (n.add p k).Holds q x ↔ n.Holds q x ∨ (q = p ∧ x = k) := by
  induction p generalizing n q with
  | nil =>
    cases q with
    | nil => simp [Node.add, or_comm]
    | cons t q => simp [Node.add, holds_cons]
  | cons s p ih =>
    rw [Node.add, holds_set]
    cases q with
    | nil => simp
    | cons t q =>
      by_cases ht : t = s
      · subst ht
        simp only [if_true, ih, holds_cons, List.cons.injEq, true_and]
        cases n.children.lookup t <;> simp
      · simp [ht]

theorem holds_remove (hn : n.Wf) : (n.remove p k).Holds q x ↔ n.Holds q x ∧ ¬(q = p ∧ x = k) := by
  induction p generalizing n q with
  | nil =>
    cases q with
    | nil => simp [Node.remove, hn.1.mem_erase_iff, and_comm]
    | cons t q => simp [Node.remove, holds_cons]
  | cons s p ih =>
    cases hc : n.children.lookup s with
    | none =>
      simp only [Node.remove, hc]
      refine ⟨fun h => ⟨h, ?_⟩, fun h => h.1⟩
      rintro ⟨rfl, -⟩
      simp [holds_cons, hc] at h
    | some c =>
      simp only [Node.remove, hc]
      rw [holds_set]
      cases q with
      | nil => simp
      | cons t q =>
        by_cases ht : t = s
        · subst ht
          simp [ih (wf_lookup hn.2 hc), holds_cons, hc]
        · simp [ht]

theorem wf_add (hn : n.Wf) : (n.add p k).Wf := by
  induction p generalizing n with
  | nil => exact ⟨hn.1.insert, hn.2⟩
  | cons s p ih =>
    refine ⟨hn.1, wf_set hn.2 (ih ?_)⟩
    cases hc : n.children.lookup s with
    | none => exact wf_empty
    | some c => exact wf_lookup hn.2 hc

theorem wf_remove (hn : n.Wf) : (n.remove p k).Wf := by
  induction p generalizing n with
  | nil => exact ⟨hn.1.erase k, hn.2⟩
  | cons s p ih =>
    cases hc : n.children.lookup s with
    | none => simpa only [Node.remove, hc] using hn
    | some c =>
      simp only [Node.remove, hc]
      exact ⟨hn.1, wf_set hn.2 (ih (wf_lookup hn.2 hc))⟩

end Nodes

section Entries

variable {f : Forest σ κ} {n : Node σ κ} {q : List σ} {x : κ}

theorem collect_forest (f : Forest σ κ) : f.collect = f.entries.map Prod.snd := by
  induction f with
  | nil => rfl
  | cons s keys children rest ihc ihr =>
    simp [Forest.collect, Forest.entries, ihc, ihr, Function.comp_def]

/-- What is collected below a node are the keys of its entries. -/
theorem collect_eq (n : Node σ κ) : n.collect = n.entries.map Prod.snd := by
  simp [Node.collect, Node.entries, collect_forest, Function.comp_def]

theorem ne_nil_of_mem_entries (h : (q, x) ∈ f.entries) : q ≠ [] := by
  induction f with
  | nil => cases h
  | cons s keys children rest _ ihr =>
    simp only [Forest.entries, mem_append, mem_map, Prod.mk.injEq] at h
    obtain (⟨k, -, rfl, -⟩ | ⟨e, -, rfl, -⟩) | h := h
    · exact cons_ne_nil _ _
    · exact cons_ne_nil _ _
    · exact ihr h

variable [DecidableEq σ]

/-- The entries of a forest lead through its children. -/
theorem mem_entries_forest (hf : f.Wf) :
    (q, x) ∈ f.entries ↔ ∃ s p c, q = s :: p ∧ f.lookup s = some c ∧ c.Holds p x := by
  induction f generalizing q with
  | nil => simp [Forest.entries, Forest.lookup]
  | cons s keys children rest ihc ihr =>
    obtain ⟨-, hchildren, hrest, hnew⟩ := hf
    simp only [Forest.entries, mem_append, mem_map, Prod.mk.injEq]
    constructor
    · rintro ((⟨k, hk, rfl, rfl⟩ | ⟨⟨p, y⟩, he, rfl, rfl⟩) | he)
      · exact ⟨s, [], ⟨keys, children⟩, rfl, by simp [Forest.lookup], holds_nil.mpr hk⟩
      · obtain ⟨t, p, c, rfl, hc, hx⟩ := (ihc hchildren).mp he
        exact ⟨s, t :: p, ⟨keys, children⟩, rfl, by simp [Forest.lookup],
          holds_cons.mpr ⟨c, hc, hx⟩⟩
      · obtain ⟨t, p, c, rfl, hc, hx⟩ := (ihr hrest).mp he
        have hne : t ≠ s := by
          rintro rfl
          rw [hnew] at hc
          cases hc
        exact ⟨t, p, c, rfl, by rw [Forest.lookup, if_neg hne, hc], hx⟩
    · rintro ⟨t, p, c, rfl, hc, hx⟩
      rw [Forest.lookup] at hc
      split_ifs at hc with ht
      · cases hc
        subst ht
        cases p with
        | nil => exact .inl (.inl ⟨x, holds_nil.mp hx, rfl, rfl⟩)
        | cons u p =>
          obtain ⟨c, hc, hx⟩ := holds_cons.mp hx
          exact .inl (.inr ⟨(u :: p, x), (ihc hchildren).mpr ⟨u, p, c, rfl, hc, hx⟩, rfl, rfl⟩)
      · exact .inr ((ihr hrest).mpr ⟨t, p, c, rfl, hc, hx⟩)

theorem mem_entries (hn : n.Wf) : (q, x) ∈ n.entries ↔ n.Holds q x := by
  simp only [Node.entries, mem_append, mem_map, Prod.mk.injEq, mem_entries_forest hn.2]
  cases q with
  | nil => simp
  | cons s q => simp [holds_cons]

theorem nodup_entries_forest (hf : f.Wf) : f.entries.Nodup := by
  induction f with
  | nil => exact nodup_nil
  | cons s keys children rest ihc ihr =>
    obtain ⟨hkeys, hchildren, hrest, hnew⟩ := hf
    have hown : (keys.map fun k => ([s], k)).Nodup :=
      hkeys.map fun a b h => (Prod.mk.inj h).2
    have hbelow : (children.entries.map fun e => (s :: e.1, e.2)).Nodup :=
      (ihc hchildren).map fun a b h => by
        obtain ⟨h₁, h₂⟩ := Prod.mk.inj h
        exact Prod.ext (List.cons.inj h₁).2 h₂
    refine (hown.append hbelow ?_).append (ihr hrest) ?_
    · -- a path below a child has at least two segments
      rintro e he hb
      obtain ⟨k, -, rfl⟩ := mem_map.mp he
      obtain ⟨⟨p, y⟩, hp, heq⟩ := mem_map.mp hb
      exact ne_nil_of_mem_entries hp (List.cons.inj (Prod.mk.inj heq).1).2
    · -- the paths of the rest start with other segments
      rintro ⟨p, y⟩ he hr
      obtain ⟨t, p', c, rfl, hc, -⟩ := (mem_entries_forest hrest).mp hr
      have hts : t = s := by
        rcases mem_append.mp he with he | he
        · obtain ⟨k, -, heq⟩ := mem_map.mp he
          exact ((List.cons.inj (Prod.mk.inj heq).1).1).symm
        · obtain ⟨e, -, heq⟩ := mem_map.mp he
          exact ((List.cons.inj (Prod.mk.inj heq).1).1).symm
      rw [hts, hnew] at hc
      cases hc

theorem nodup_entries (hn : n.Wf) : n.entries.Nodup := by
  refine (hn.1.map fun a b h => (Prod.mk.inj h).2).append (nodup_entries_forest hn.2) ?_
  rintro ⟨p, y⟩ he hb
  obtain ⟨k, -, heq⟩ := mem_map.mp he
  exact ne_nil_of_mem_entries hb (Prod.mk.inj heq).1.symm

end Entries

end Trie
