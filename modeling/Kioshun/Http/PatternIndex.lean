import Kioshun.Cluster.Wire
import Kioshun.Lib.Iteration
import Kioshun.Lib.Trie
import Mathlib.Data.List.DropRight
import Mathlib.Data.List.Infix
import Mathlib.Data.Set.Insert

/-!
# The pattern index

`PatternIndex` maps URL paths to cache keys in a trie of path segments. A pattern asks
for the keys at one path or, if it ends in a star, at and below it. Strings are
sequences of bytes.
-/

namespace Kioshun
open List

/-- The bytes of an ASCII text. -/
def ascii (s : String) : Bytes := s.toList.map fun c => c.toNat.toUInt8

def pathSeparator : UInt8 := 47

def wildcardChar : UInt8 := 42

def rootPath : Bytes := [pathSeparator]

/-- `strings.Trim` with one character. -/
def trim (c : UInt8) (s : Bytes) : Bytes := (s.dropWhile (· == c)).rdropWhile (· == c)

def normalizePath (path : Bytes) : List Bytes :=
  let path := if path = [] then rootPath else path
  let trimmed := trim pathSeparator path
  if trimmed = [] then [] else (trimmed.splitOn pathSeparator).filter (· ≠ [])

/-- The tree of `PatternIndex`; no node has two children with one segment, or a key twice. -/
structure PatternIndex where
  root : Trie.Node Bytes Bytes
  wf : root.Wf

namespace PatternIndex

def NewPatternIndex : PatternIndex := ⟨.empty, Trie.wf_empty⟩

def AddKey (pi : PatternIndex) (path key : Bytes) : PatternIndex :=
  ⟨pi.root.add (normalizePath path) key, Trie.wf_add pi.wf⟩

def RemoveKey (pi : PatternIndex) (path key : Bytes) : PatternIndex :=
  ⟨pi.root.remove (normalizePath path) key, Trie.wf_remove pi.wf⟩

/-- `GetMatchingKeys`; the maps are visited in an order that `pick` decides. -/
def GetMatchingKeys (pi : PatternIndex) (pattern : Bytes) (pick : Nat → Nat) : List Bytes :=
  let pattern := if pattern = [] then rootPath else pattern
  let isWildcard := decide (pattern.getLast? = some wildcardChar)
  let pattern := if isWildcard then pattern.dropLast else pattern
  match pi.root.find (normalizePath pattern) with
  | none => []
  | some node => Iteration.shuffle pick (if isWildcard then node.collect else node.keys)

def Clear (_ : PatternIndex) : PatternIndex := NewPatternIndex

end PatternIndex

def segments (path : Bytes) : List Bytes := (path.splitOn pathSeparator).filter (· ≠ [])

theorem segments_nil : segments [] = [] := by
  simp [segments]

theorem segments_append_sep (p q : Bytes) :
    segments (p ++ pathSeparator :: q) = segments p ++ segments q := by
  rw [segments, splitOn_append_cons_self, filter_append]
  rfl

theorem segments_dropWhile (p : Bytes) :
    segments (p.dropWhile (· == pathSeparator)) = segments p := by
  induction p with
  | nil => rfl
  | cons c p ih =>
    by_cases hc : c = pathSeparator
    · subst hc
      have hskip : segments (pathSeparator :: p) = segments p := by
        rw [← nil_append (pathSeparator :: p), segments_append_sep, segments_nil, nil_append]
      simpa [dropWhile_cons, hskip] using ih
    · simp [hc]

theorem segments_rdropWhile (p : Bytes) :
    segments (p.rdropWhile (· == pathSeparator)) = segments p := by
  induction p using List.reverseRecOn with
  | nil => rfl
  | append_singleton p c ih =>
    by_cases hc : c = pathSeparator
    · subst hc
      rw [rdropWhile_concat_pos _ _ _ (by simp), ih, segments_append_sep, segments_nil, append_nil]
    · rw [rdropWhile_concat_neg _ _ _ (by simpa using hc)]

/-- Trimming slashes, and dropping the segments between two of them, loses no segment. -/
theorem normalizePath_eq (path : Bytes) : normalizePath path = segments path := by
  have htrim : ∀ p, segments (trim pathSeparator p) = segments p := fun p => by
    rw [trim, segments_rdropWhile, segments_dropWhile]
  have hroot : segments rootPath = [] := segments_append_sep [] [] |>.trans (by simp [segments_nil])
  have hpath : segments (if path = [] then rootPath else path) = segments path := by
    split_ifs with h
    · rw [h, hroot, segments_nil]
    · rfl
  rw [← hpath, ← htrim]
  generalize ht : trim pathSeparator (if path = [] then rootPath else path) = trimmed
  have hdef : normalizePath path = if trimmed = [] then [] else segments trimmed := by
    rw [← ht]
    rfl
  rw [hdef]
  split_ifs with h
  · rw [h, segments_nil]
  · rfl

/-- A pattern asks for the paths with its segments or, if it ends in a star, for those that
begin with the segments before the star. -/
def Matches (pattern : Bytes) (segs : List Bytes) : Prop :=
  if pattern.getLast? = some wildcardChar then segments pattern.dropLast <+: segs
  else segs = segments pattern

instance (pattern : Bytes) (segs : List Bytes) : Decidable (Matches pattern segs) :=
  inferInstanceAs (Decidable (if pattern.getLast? = some wildcardChar then
    segments pattern.dropLast <+: segs else segs = segments pattern))

namespace PatternIndex

def Has (pi : PatternIndex) (segs : List Bytes) (key : Bytes) : Prop := pi.root.Holds segs key

variable {pi : PatternIndex} {path key k pattern : Bytes} {segs : List Bytes} {pick : Nat → Nat}

theorem not_has_new : ¬NewPatternIndex.Has segs key := Trie.not_holds_empty

theorem has_AddKey :
    (pi.AddKey path key).Has segs k ↔ pi.Has segs k ∨ (segs = segments path ∧ k = key) := by
  rw [← normalizePath_eq]
  exact Trie.holds_add

theorem has_RemoveKey :
    (pi.RemoveKey path key).Has segs k ↔ pi.Has segs k ∧ ¬(segs = segments path ∧ k = key) := by
  rw [← normalizePath_eq]
  exact Trie.holds_remove pi.wf

def base (pattern : Bytes) : Bytes :=
  if pattern.getLast? = some wildcardChar then pattern.dropLast else pattern

theorem GetMatchingKeys_eq : pi.GetMatchingKeys pattern pick =
    match pi.root.find (segments (base pattern)) with
    | none => []
    | some node => Iteration.shuffle pick
        (if pattern.getLast? = some wildcardChar then node.collect else node.keys) := by
  by_cases hempty : pattern = []
  · -- the empty pattern is the one for the root
    subst hempty
    have hroot : segments rootPath = [] := by decide
    simp [GetMatchingKeys, normalizePath_eq, base, rootPath, pathSeparator, wildcardChar,
      segments_nil, show segments [47] = [] from hroot]
  · simp only [GetMatchingKeys, if_neg hempty, normalizePath_eq, base, decide_eq_true_eq]

/-- What is found are the keys of the entries that the pattern asks for, once for each. -/
theorem GetMatchingKeys_entries (pi : PatternIndex) (pattern : Bytes) (pick : Nat → Nat) :
    ∃ entries : List (List Bytes × Bytes), entries.Nodup ∧
      (∀ segs k, (segs, k) ∈ entries ↔ pi.Has segs k ∧ Matches pattern segs) ∧
      (pi.GetMatchingKeys pattern pick).Perm (entries.map Prod.snd) := by
  rw [GetMatchingKeys_eq]
  cases hfind : pi.root.find (segments (base pattern)) with
  | none =>
    -- no path begins with the segments of the pattern
    refine ⟨[], nodup_nil, fun segs k => ⟨nofun, ?_⟩, .refl _⟩
    rintro ⟨⟨n, hn, -⟩, hmatch⟩
    have hbegins : segments (base pattern) <+: segs := by
      by_cases hstar : pattern.getLast? = some wildcardChar
      · simpa only [Matches, base, hstar, if_true] using hmatch
      · simp only [Matches, base, hstar, if_false] at hmatch ⊢
        exact hmatch ▸ prefix_rfl
    obtain ⟨rest, rfl⟩ := hbegins
    simp [Trie.find_append, hfind] at hn
  | some node =>
    have hwf := Trie.wf_find pi.wf hfind
    by_cases hstar : pattern.getLast? = some wildcardChar
    · refine ⟨node.entries.map fun e => (segments (base pattern) ++ e.1, e.2),
        (Trie.nodup_entries hwf).map fun a b h => ?_, fun segs k => ?_, ?_⟩
      · obtain ⟨h₁, h₂⟩ := Prod.mk.inj h
        exact Prod.ext (append_cancel_left h₁) h₂
      · simp only [Matches, base, hstar, if_true, mem_map, Prod.mk.injEq, Prod.exists] at hfind ⊢
        constructor
        · rintro ⟨q, x, hq, rfl, rfl⟩
          exact ⟨(Trie.holds_append hfind).mpr ((Trie.mem_entries hwf).mp hq), prefix_append _ _⟩
        · rintro ⟨hhas, rest, rfl⟩
          exact ⟨rest, k, (Trie.mem_entries hwf).mpr ((Trie.holds_append hfind).mp hhas), rfl, rfl⟩
      · simpa [hstar, Trie.collect_eq, Function.comp_def] using Iteration.shuffle_perm pick _
    · refine ⟨node.keys.map fun k => (segments (base pattern), k),
        hwf.1.map fun a b h => (Prod.mk.inj h).2, fun segs k => ?_, ?_⟩
      · simp only [Matches, base, hstar, if_false, mem_map, Prod.mk.injEq] at hfind ⊢
        constructor
        · rintro ⟨x, hx, rfl, rfl⟩
          exact ⟨⟨node, hfind, hx⟩, rfl⟩
        · rintro ⟨⟨n, hn, hk⟩, rfl⟩
          rw [hfind] at hn
          cases hn
          exact ⟨k, hk, rfl, rfl⟩
      · simpa [hstar, Function.comp_def] using Iteration.shuffle_perm pick _

/-- The keys that are found are those of the paths that the pattern asks for. -/
theorem mem_GetMatchingKeys :
    k ∈ pi.GetMatchingKeys pattern pick ↔ ∃ segs, pi.Has segs k ∧ Matches pattern segs := by
  obtain ⟨entries, -, hmem, hperm⟩ := pi.GetMatchingKeys_entries pattern pick
  simp only [hperm.mem_iff, mem_map, Prod.exists, exists_eq_right, hmem]

/-- A key that is at one path only is found once. -/
theorem nodup_GetMatchingKeys {segsOf : Bytes → List Bytes}
    (h : ∀ segs k, pi.Has segs k → segs = segsOf k) : (pi.GetMatchingKeys pattern pick).Nodup := by
  obtain ⟨entries, hnodup, hmem, hperm⟩ := pi.GetMatchingKeys_entries pattern pick
  refine hperm.nodup_iff.mpr (hnodup.map_on ?_)
  rintro ⟨p, x⟩ hp ⟨q, y⟩ hq (rfl : x = y)
  rw [h p x ((hmem p x).mp hp).1, h q x ((hmem q x).mp hq).1]

section Runs

inductive Op where
  | AddKey (path key : Bytes)
  | RemoveKey (path key : Bytes)
  | Clear

def step (pi : PatternIndex) : Op → PatternIndex
  | .AddKey path key => pi.AddKey path key
  | .RemoveKey path key => pi.RemoveKey path key
  | .Clear => pi.Clear

/-- The index as a relation between paths, as their segments, and keys. -/
def Op.apply (R : Set (List Bytes × Bytes)) : Op → Set (List Bytes × Bytes)
  | .AddKey path key => insert (segments path, key) R
  | .RemoveKey path key => R \ {(segments path, key)}
  | .Clear => ∅

variable {R : Set (List Bytes × Bytes)}

theorem has_step (h : ∀ segs k, pi.Has segs k ↔ (segs, k) ∈ R) (op : Op) (segs : List Bytes)
    (k : Bytes) : (pi.step op).Has segs k ↔ (segs, k) ∈ op.apply R := by
  cases op with
  | AddKey path key => simp [step, Op.apply, has_AddKey, h, or_comm]
  | RemoveKey path key => simp [step, Op.apply, has_RemoveKey, h]
  | Clear => exact iff_of_false not_has_new (Set.notMem_empty _)

theorem has_foldl (h : ∀ segs k, pi.Has segs k ↔ (segs, k) ∈ R) (ops : List Op) (segs : List Bytes)
    (k : Bytes) : (ops.foldl step pi).Has segs k ↔ (segs, k) ∈ ops.foldl Op.apply R := by
  induction ops generalizing pi R with
  | nil => exact h segs k
  | cons op ops ih => exact ih (has_step h op)

/-- After any calls the index answers like the relation, whatever spelling of the paths was used. -/
theorem index_refines_relation (ops : List Op) :
    (∀ pattern pick, ∃ entries : List (List Bytes × Bytes), entries.Nodup ∧
      (∀ e, e ∈ entries ↔ e ∈ ops.foldl Op.apply ∅ ∧ Matches pattern e.1) ∧
      ((ops.foldl step NewPatternIndex).GetMatchingKeys pattern pick).Perm (entries.map Prod.snd)) ∧
    ∀ path path' key segs k, segments path' = segments path →
      ((((ops.foldl step NewPatternIndex).AddKey path key).RemoveKey path' key).Has segs k ↔
        (ops.foldl step NewPatternIndex).Has segs k ∧ (segs, k) ≠ (segments path, key)) := by
  have hrel := @has_foldl NewPatternIndex ∅
    (fun segs k => iff_of_false not_has_new (Set.notMem_empty _)) ops
  constructor
  · intro pattern pick
    obtain ⟨entries, hnodup, hmem, hperm⟩ :=
      (ops.foldl step NewPatternIndex).GetMatchingKeys_entries pattern pick
    exact ⟨entries, hnodup, fun e => by rw [hmem, hrel], hperm⟩
  · intro path path' key segs k hsame
    rw [has_RemoveKey, has_AddKey, hsame, ne_eq, Prod.mk.injEq]
    tauto

end Runs

end PatternIndex

end Kioshun
