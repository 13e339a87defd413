import SpdkConnector.Codec.Base64
import SpdkConnector.Codec.PyInt

/-!
# The KV object format (src/nvme-kv/src/lmcache_spdk_connector_kv/kv_format.py)

An object is a manifest record and chunk records, under keys derived from its identity.

| here | there |
|---|---|
| `makeObjectPlan` | `make_object_plan` (:59) |
| `encodeManifest`, `decodeManifest` | `encode_manifest`, `decode_manifest` (:98, :111) |
| `validatePayload`, `validateManifest` | `validate_payload`, `_validate_manifest` (:150, :186) |
| `manifestKey`, `chunkKey`, `deriveKey` | `manifest_key`, `chunk_key`, `_derive_key` (:140, :145, :177) |
| `identityBytes` | `_identity_bytes` (:166) |

A manifest's numbers and checksum are whatever `json.loads` gave until `_validate_manifest` has seen
them. `limit` is the number of containers that may be nested inside the manifest's object before the
interpreter raises `RecursionError`.
-/
namespace SpdkConnector
namespace NvmeKv

open Codec

/-- What a call raises. -/
inductive Exn where
  /-- `KvFormatError`. -/
  | format (message : String)
  /-- `KvObjectConflict`. -/
  | conflict (message : String)
  /-- A surrogate in a `str` identity. -/
  | unicodeEncode
  /-- An integer with more digits than Python prints. -/
  | value
  | recursion
  /-- Whatever the engine raised. -/
  | engine
  deriving DecidableEq, Repr

abbrev KV_KEY_BYTES : Nat := 16

def formatVersion : Int := 1

def manifestChunkIndex : Nat := 2 ^ 32 - 1

/-- `b"lmcache-spdk-nvme-kv/v1\0"`. -/
def domainSeparator : Bytes := (text "lmcache-spdk-nvme-kv/v1").map UInt8.ofNat ++ [0]

structure KvManifest where
  identity : Bytes
  logicalBytes : Json
  chunkCount : Json
  payloadChecksum : Json

structure KvChunk where
  key : Bytes
  value : Bytes
  deriving DecidableEq, Repr

structure KvObjectPlan where
  manifestKey : Bytes
  manifestValue : Bytes
  chunks : List KvChunk
  deriving DecidableEq, Repr

inductive Identity where
  | str (s : Str)
  | bytes (b : Bytes)
  deriving DecidableEq, Repr

/-- `isinstance(_, int)`: a `bool` is an `int`. -/
def int? : Json → Option Int
  | .int n => some n
  | .bool b => some (if b then 1 else 0)
  | _ => none

/-- `isinstance(_, str)`. -/
def str? : Json → Option Str
  | .str s => some s
  | _ => none

/-- `x == 1`, which also holds of `True` and of a float that rounds to 1. -/
def equalsOne : Json → Bool
  | .int n => n == 1
  | .bool b => b
  | .float (.finite m e) =>
    if 0 ≤ e then m == 1 && e == 0
    else
      let scale : Int := 10 ^ (-e).toNat
      (2 ^ 54 - 1) * scale ≤ m * 2 ^ 54 && m * 2 ^ 53 ≤ (2 ^ 53 + 1) * scale
  | _ => false

/-- `hexdigest`. -/
def hexDigest (digest : Bytes) : Str :=
  digest.flatMap fun b => [hexDigit (b.toNat / 16), hexDigit (b.toNat % 16)]

/-- `sha256(payload).hexdigest()`. -/
def checksum (payload : Bytes) : Str := hexDigest (sha256 payload)

/-- `identity.encode("utf-8")` for a `str`. -/
def Identity.encode : Identity → Except Exn Bytes
  | .str s =>
    match utf8Encode s with
    | some b => .ok b
    | none => .error .unicodeEncode
  | .bytes b => .ok b

def identityBytes (identity : Identity) : Except Exn Bytes :=
  identity.encode.bind fun b =>
    if b = [] then .error (.format "object identity must not be empty") else .ok b

def deriveKey (identity : Bytes) (chunkIndex : Nat) : Except Exn Bytes :=
  if chunkIndex ≤ manifestChunkIndex then
    .ok ((sha256 (domainSeparator ++ identity ++ beBytes 4 chunkIndex)).take KV_KEY_BYTES)
  else .error (.format "chunk index is outside the format range")

def manifestKey (identity : Identity) : Except Exn Bytes :=
  (identityBytes identity).bind fun b => deriveKey b manifestChunkIndex

def chunkKey (identity : Identity) (chunkIndex : Nat) : Except Exn Bytes :=
  (identityBytes identity).bind fun b => deriveKey b chunkIndex

def validateManifest (manifest : KvManifest) : Except Exn Unit :=
  if manifest.identity = [] then .error (.format "manifest identity must not be empty")
  else
    match int? manifest.logicalBytes with
    | none => .error (.format "manifest length must be a positive integer")
    | some n =>
      if n ≤ 0 then .error (.format "manifest length must be a positive integer")
      else
        match int? manifest.chunkCount with
        | none => .error (.format "manifest chunk count is invalid")
        | some n =>
          if ¬ (0 < n ∧ n < manifestChunkIndex) then .error (.format "manifest chunk count is invalid")
          else
            match str? manifest.payloadChecksum with
            | none => .error (.format "manifest checksum is invalid")
            | some s =>
              if s.length ≠ 64 then .error (.format "manifest checksum is invalid")
              else if int16Ok s then .ok () else .error (.format "manifest checksum is invalid")

def manifestDocument (manifest : KvManifest) : List (Str × Json) :=
  [(text "chunks", manifest.chunkCount), (text "identity", .str (base64Encode manifest.identity)),
    (text "length", manifest.logicalBytes), (text "sha256", manifest.payloadChecksum),
    (text "version", .int formatVersion)]

def encodeManifest (manifest : KvManifest) : Except Exn Bytes :=
  (validateManifest manifest).bind fun _ =>
    match dumps (manifestDocument manifest) with
    | none => .error .value
    | some s =>
      match utf8Encode s with
      | none => .error .unicodeEncode
      | some v => .ok v

def manifestFields : List Str :=
  [text "chunks", text "identity", text "length", text "sha256", text "version"]

/-- `set(xs) == {"chunks", …}`. -/
def isManifestFields (xs : List Str) : Bool :=
  xs.all (· ∈ manifestFields) && manifestFields.all (· ∈ xs)

def malformed : Exn := .format "manifest is malformed"

/-- The fields of the document `json.loads` gave, by `decode_manifest`'s `try` block (:113-124). -/
def manifestOf : Json → Except Exn KvManifest
  | .dict d =>
    if isManifestFields (d.map (·.1)) then
      match d.lookup (text "version"), d.lookup (text "identity"), d.lookup (text "length"),
          d.lookup (text "chunks"), d.lookup (text "sha256") with
      | some version, some identity, some length, some chunks, some sha =>
        if equalsOne version then
          match (str? identity).bind base64Decode with
          | none => .error malformed
          | some identity => .ok ⟨identity, length, chunks, sha⟩
        else .error (.format "manifest version is unsupported")
      | _, _, _, _, _ => .error malformed
    else .error (.format "manifest fields are invalid")
  | .str _ => .error (.format "manifest fields are invalid")
  | .list xs =>
    -- a list or a dict among the elements is unhashable; equal sets fail at the subscript
    if xs.any (fun | .list _ | .dict _ => true | _ => false) then .error malformed
    else if xs.all (fun x => (str? x).isSome) && isManifestFields (xs.filterMap str?) then .error malformed
    else .error (.format "manifest fields are invalid")
  | .null | .bool _ | .int _ | .float _ => .error malformed

def decodeManifest (limit : Nat) (value : Bytes) : Except Exn KvManifest :=
  match utf8Decode value with
  | none => .error malformed
  | some s =>
    match loads (limit + 1) s with
    | .error .recursion => .error .recursion
    | .error _ => .error malformed
    | .ok document =>
      (manifestOf document).bind fun manifest => (validateManifest manifest).map fun _ => manifest

def validatePayload (manifest : KvManifest) (chunks : List Bytes) : Except Exn Bytes :=
  (validateManifest manifest).bind fun _ =>
    let payload := chunks.flatten
    if int? manifest.chunkCount ≠ some (chunks.length : Int) then
      .error (.format "retrieved chunk count differs from manifest")
    else if int? manifest.logicalBytes ≠ some (payload.length : Int) then
      .error (.format "retrieved payload length differs from manifest")
    else if str? manifest.payloadChecksum ≠ some (checksum payload) then
      .error (.format "retrieved payload checksum differs from manifest")
    else .ok payload

/-- The manifest `make_object_plan` writes for an object. -/
def plannedManifest (identity payload : Bytes) (maxValueBytes : Nat) : KvManifest where
  identity
  logicalBytes := .int payload.length
  chunkCount := .int (pieces maxValueBytes payload).length
  payloadChecksum := .str (checksum payload)

def planChunks (identity : Bytes) : Nat → List Bytes → Except Exn (List KvChunk)
  | _, [] => .ok []
  | index, value :: values =>
    (deriveKey identity index).bind fun key =>
      (planChunks identity (index + 1) values).map fun chunks => ⟨key, value⟩ :: chunks

def makeObjectPlan (identity : Identity) (payload : Bytes) (maxValueBytes : Nat) : Except Exn KvObjectPlan :=
  (identityBytes identity).bind fun b =>
    if payload = [] then .error (.format "NVMe KV objects must not be empty")
    else if maxValueBytes = 0 then .error (.format "max_value_bytes must be positive")
    else
      (planChunks b 0 (pieces maxValueBytes payload)).bind fun chunks =>
        (encodeManifest (plannedManifest b payload maxValueBytes)).bind fun value =>
          if maxValueBytes < value.length then
            .error (.format "manifest exceeds the namespace maximum value length")
          else (deriveKey b manifestChunkIndex).map fun key => ⟨key, value, chunks⟩

end NvmeKv
end SpdkConnector
