import SpdkConnector.Codec.Framing
import SpdkConnector.NvmeKv.FormatProofs
import SpdkConnector.NvmeKv.NativeConnector

/-!
# What the two key schemes hash

| here | kv_format.py, native_kv_connector.cpp |
|---|---|
| `Scheme.domain .format` | `_DOMAIN_SEPARATOR` (kv_format.py:22) |
| `Scheme.domain .native` | `kKeyDomain` (native_kv_connector.cpp:16) |
| `material` | the argument of `sha256` in `_derive_key` (:183), `material` in `derive_key` (:310) |

Both schemes write keys of one device, so a clash of two preimages would be a clash of two records whatever the
hash.  The identity has no length in front and the index has no separator before it: the four bytes of the index
and the two domains, which part at their twenty-second byte, are all that keeps the strings apart.
-/
namespace SpdkConnector
namespace NvmeKv

open Codec

/-- The two ways of deriving a device key. -/
inductive Scheme
  /-- `_derive_key` of the record format -/
  | format
  /-- `derive_key` of the native connector -/
  | native
deriving DecidableEq

/-- What a scheme derives a key from: an identity and an index below 2^32 (the last one is the manifest's), or an
LMCache key. -/
abbrev Scheme.Input : Scheme → Type
  | .format => Bytes × Fin (2 ^ 32)
  | .native => Bytes

def Scheme.domain : Scheme → Bytes
  | .format => domainSeparator
  | .native => SpdkNvmeKvConnector.keyDomain

/-- What follows the domain. -/
def Scheme.body : (s : Scheme) → s.Input → Bytes
  | .format => suffixed fun index => beBytes 4 index.val
  | .native => id

/-- The byte string a scheme gives to SHA-256. -/
def material : (Σ s : Scheme, s.Input) → Bytes := tagged Scheme.domain Scheme.body

theorem index_injective : Function.Injective fun index : Fin (2 ^ 32) => beBytes 4 index.val := by
  intro i j h
  have hfits : 2 ^ 32 ≤ 256 ^ 4 := by decide
  have hi : i.val < 256 ^ 4 := Nat.lt_of_lt_of_le i.isLt hfits
  have hj : j.val < 256 ^ 4 := Nat.lt_of_lt_of_le j.isLt hfits
  exact Fin.ext (beBytes_inj hi hj h)

theorem body_injective (s : Scheme) : Function.Injective s.body := by
  cases s with
  | format =>
    have hwidth : ∀ index : Fin (2 ^ 32), (beBytes 4 index.val).length = 4 := by
      intro index
      exact beBytes_length 4 index.val
    have hinj : Function.Injective (suffixed fun index : Fin (2 ^ 32) => beBytes 4 index.val) :=
      suffixed_injective hwidth index_injective
    exact hinj
  | native => exact Function.injective_id

theorem domain_prefixFree : PrefixFree Scheme.domain := by
  intro s t
  cases s <;> cases t
  case format.format => exact fun _ => rfl
  case native.native => exact fun _ => rfl
  case format.native => exact fun h => absurd h (by decide +kernel)
  case native.format => exact fun h => absurd h (by decide +kernel)

theorem material_injective : Function.Injective material :=
  domain_prefixFree.tagged_injective body_injective

theorem material_format (b : Bytes) (index : Fin (2 ^ 32)) :
    material ⟨.format, b, index⟩ = domainSeparator ++ b ++ beBytes 4 index.val :=
  (List.append_assoc _ _ _).symm

theorem deriveKey_material (b : Bytes) (index : Nat) :
    deriveKey b index =
      if h : index < 2 ^ 32 then .ok ((sha256 (material ⟨.format, b, index, h⟩)).take KV_KEY_BYTES)
      else .error (.format "chunk index is outside the format range") := by
  have hmax : manifestChunkIndex = 2 ^ 32 - 1 := rfl
  by_cases h : index < 2 ^ 32
  · have hle : index ≤ manifestChunkIndex := by omega
    rw [dif_pos h, deriveKey_ok hle, recordKey, material_format]
  · rw [dif_neg h]
    exact if_neg (by omega)

theorem manifestChunkIndex_lt : manifestChunkIndex < 2 ^ 32 := by decide

theorem manifestKey_material (identity : Identity) :
    manifestKey identity =
      (identityBytes identity).map fun b =>
        (sha256 (material ⟨.format, b, manifestChunkIndex, manifestChunkIndex_lt⟩)).take KV_KEY_BYTES := by
  cases hb : identityBytes identity with
  | error e =>
    rw [manifestKey, hb]
    rfl
  | ok b =>
    have hkey := deriveKey_material b manifestChunkIndex
    rw [dif_pos manifestChunkIndex_lt] at hkey
    rw [manifestKey, hb]
    exact hkey

/-- **No two inputs of either scheme share a preimage.**  `material` is injective over both schemes, all identities
of any length and content, all indexes (the last one is the manifest's) and all native keys, and it is what the
functions of both schemes hash. -/
theorem preimages_distinct :
    Function.Injective material ∧
    (∀ (identity : Bytes) (index : Nat),
      deriveKey identity index =
        if h : index < 2 ^ 32 then .ok ((sha256 (material ⟨.format, identity, index, h⟩)).take KV_KEY_BYTES)
        else .error (.format "chunk index is outside the format range")) ∧
    (∀ identity : Identity,
      manifestKey identity =
        (identityBytes identity).map fun b =>
          (sha256 (material ⟨.format, b, manifestChunkIndex, manifestChunkIndex_lt⟩)).take KV_KEY_BYTES) ∧
    ∀ key : Bytes, SpdkNvmeKvConnector.deriveKey key = (sha256 (material ⟨.native, key⟩)).take 16 := by
  refine ⟨material_injective, deriveKey_material, manifestKey_material, ?_⟩
  intro key
  rfl

end NvmeKv
end SpdkConnector
