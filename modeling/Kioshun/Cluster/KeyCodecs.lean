import Kioshun.Cache.Hash
import Kioshun.Cluster.Pages

/-!
# Keys that are integers

The codecs of `keycodec.go` for words. A key has one encoding, of eight bytes, and every eight
bytes are the encoding of a key; no two keys have the same hash.
-/

namespace Kioshun
open BigEndian Function

/-- A codec for keys that are words in another reading. -/
def wordKeyCodec {K : Type} (toWord : K → UInt64) (ofWord : UInt64 → K) (err : String) :
    KeyCodec K where
  EncodeKey := fun k => PutUint64 (toWord k)
  DecodeKey := fun b => if b.length = 8 then .ok (ofWord (Uint64 b)) else .error err
  Hash64 := some fun k => mix64 (toWord k)

def Int64KeyCodec : KeyCodec Int64 :=
  wordKeyCodec Int64.toUInt64 UInt64.toInt64 "invalid int64 key length"

theorem Uint64KeyCodec_eq : Uint64KeyCodec = wordKeyCodec id id "invalid uint64 key length" := rfl

/-- Keys and the strings of eight bytes correspond, and the hash tells keys apart. -/
structure KeyCodec.Exact {K : Type} (kc : KeyCodec K) : Prop where
  lawful : kc.Lawful
  fails_iff : ∀ b, (∃ err, kc.DecodeKey b = .error err) ↔ b.length ≠ 8
  hash : ∃ h, kc.Hash64 = some h ∧ Injective h

theorem wordKeyCodec_exact {K : Type} {toWord : K → UInt64} {ofWord : UInt64 → K}
    (hleft : LeftInverse ofWord toWord) (hright : Function.RightInverse ofWord toWord)
    (err : String) : (wordKeyCodec toWord ofWord err).Exact := by
  refine ⟨⟨fun k => ?_, fun b k h => ?_⟩, fun b => ?_, _, rfl, mix64_injective.comp hleft.injective⟩
  · simp only [wordKeyCodec, length_PutUint64, if_true, Uint64_PutUint64, hleft k]
  · simp only [wordKeyCodec] at h ⊢
    split_ifs at h with hlen
    cases h
    rw [hright, PutUint64_Uint64 hlen]
  · by_cases hlen : b.length = 8 <;> simp [wordKeyCodec, hlen]

/-- Integer keys never collide, and their encodings are exact. -/
theorem integer_keys_exact :
    (Injective xxHash64Avalanche ∧ Injective mix64) ∧
    (Injective (fun k => HasherKey.hash (.int k)) ∧ Injective (fun k => HasherKey.hash (.int32 k)) ∧
      Injective (fun k => HasherKey.hash (.int64 k)) ∧
      Injective (fun k => HasherKey.hash (.uint k)) ∧
      Injective (fun k => HasherKey.hash (.uint32 k)) ∧
      Injective fun k => HasherKey.hash (.uint64 k)) ∧
    Int64KeyCodec.Exact ∧ Uint64KeyCodec.Exact := by
  have havalanche := xxHash64Avalanche_injective
  have hsigned := havalanche.comp toUInt64_injective
  have hshort : Injective UInt32.toUInt64 := fun _ _ => UInt32.toUInt64_inj.mp
  exact ⟨⟨havalanche, mix64_injective⟩,
    ⟨hsigned, hsigned.comp toInt64_injective, hsigned, havalanche,
    havalanche.comp hshort, havalanche⟩, wordKeyCodec_exact (fun _ => rfl) (fun _ => rfl) _,
    Uint64KeyCodec_eq ▸ wordKeyCodec_exact (fun _ => rfl) (fun _ => rfl) _⟩

end Kioshun
