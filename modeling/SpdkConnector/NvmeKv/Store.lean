import SpdkConnector.NvmeKv.Format
import SpdkConnector.Interleaving.Program

/-!
# `KvObjectStore` (src/nvme-kv/src/lmcache_spdk_connector_kv/kv_store.py)

The calls of the object layer as programs over the four engine commands. Each command is atomic; it may
raise before or after it has taken effect, and the caller cannot tell which.

| here | there |
|---|---|
| `Command`, `Engine`, `exec` | `KvEngine` (:28) |
| `store`, `storeChunks`, `checkExistingManifest` | `store`, `_check_existing_manifest` (:57, :148) |
| `load`, `loadObject`, `retrieveChunks` | `load` (:87) |
| `delete`, `deleteChunks` | `delete` (:109) |
| `recoverIdentities`, `recoverKey` | `recover_identities` (:126) |
-/
namespace SpdkConnector
namespace NvmeKv

open Codec Interleaving

/-- What the recursion limit of the interpreter leaves of nested containers: `outer` in a `decode_manifest` that a
call makes itself, `inner` in one that a function makes which it calls. A Python frame counts against the containers
up to Python 3.11 (`frame = 1`), and no longer from 3.12 on (`frame = 0`). -/
structure Limit where
  inner : Nat
  frame : Nat
  deriving DecidableEq, Repr

def Limit.outer (l : Limit) : Nat := l.inner + l.frame

def python311 (inner : Nat) : Limit := ⟨inner, 1⟩

inductive Command where
  | storeIfAbsent (key value : Bytes)
  | retrieve (key : Bytes)
  | delete (key : Bytes)
  | listKeys
  deriving DecidableEq, Repr

abbrev Reply : Command → Type
  | .storeIfAbsent _ _ => Bool
  | .retrieve _ => Option Bytes
  | .delete _ => Bool
  | .listKeys => List Bytes

/-- What a caller gets: `none` when the engine raised. -/
abbrev Answer (c : Command) : Type := Option (Reply c)

/-- The device's records, and a trace of the insertions that took effect: which thread put which key. -/
structure Engine where
  records : List (Bytes × Bytes)
  writes : List (Nat × Bytes)
  deriving DecidableEq, Repr

def Engine.empty : Engine := ⟨[], []⟩

def Engine.get (s : Engine) (key : Bytes) : Option Bytes := s.records.lookup key

def Engine.reply (s : Engine) : (c : Command) → Reply c
  | .storeIfAbsent key _ => (s.get key).isNone
  | .retrieve key => s.get key
  | .delete key => (s.get key).isSome
  | .listKeys => s.records.map (·.1)

/-- The state after thread `t` ran a command. -/
def Engine.effect (t : Nat) (s : Engine) : Command → Engine
  | .storeIfAbsent key value =>
    match s.get key with
    | none => ⟨s.records ++ [(key, value)], s.writes ++ [(t, key)]⟩
    | some _ => s
  | .delete key => { s with records := s.records.filter fun r => !(r.1 == key) }
  | .retrieve _ | .listKeys => s

inductive Luck where
  | done
  | raiseBefore
  | raiseAfter
  deriving DecidableEq, Repr

def exec (t : Nat) (c : Command) (luck : Luck) (s : Engine) : Option (Answer c × Engine) :=
  match luck with
  | .done => some (some (s.reply c), s.effect t c)
  | .raiseBefore => some (none, s)
  | .raiseAfter => some (none, s.effect t c)

abbrev KvProg (α : Type) := Prog Command Answer Exn α

/-- One engine call. -/
def ask (c : Command) : KvProg (Reply c) :=
  .call c fun
    | some r => .pure r
    | none => .throw .engine

def KvManifest.count (m : KvManifest) : Nat := ((int? m.chunkCount).getD 0).toNat

/-- `==` of two manifests that `_validate_manifest` has accepted. -/
def KvManifest.equals (a b : KvManifest) : Bool :=
  a.identity == b.identity && int? a.logicalBytes == int? b.logicalBytes &&
    int? a.chunkCount == int? b.chunkCount && str? a.payloadChecksum == str? b.payloadChecksum

def checkExistingManifest (limit : Nat) (value : Bytes) (requested : KvManifest) : Except Exn Unit :=
  match decodeManifest limit value with
  | .error (.format _) => .error (.conflict "existing manifest is malformed")
  | .error e => .error e
  | .ok existing =>
    if existing.equals requested then .ok ()
    else .error (.conflict "existing manifest does not match the requested object")

def storeChunks : List KvChunk → KvProg Unit
  | [] => .pure ()
  | chunk :: chunks =>
    (ask (.storeIfAbsent chunk.key chunk.value)).bind fun (inserted : Bool) =>
      if inserted then storeChunks chunks
      else
        (ask (.retrieve chunk.key)).bind fun (existing : Option Bytes) =>
          if existing = some chunk.value then storeChunks chunks
          else .throw (.conflict "existing chunk does not match the requested object")

def store (limit : Limit) (maxValueBytes : Nat) (identity : Identity) (payload : Bytes) : KvProg Bool :=
  (Prog.ofExcept (makeObjectPlan identity payload maxValueBytes)).bind fun plan =>
  (Prog.ofExcept (decodeManifest limit.outer plan.manifestValue)).bind fun requested =>
  (ask (.retrieve plan.manifestKey)).bind fun (existing : Option Bytes) =>
    match existing with
    | some value =>
      (Prog.ofExcept (checkExistingManifest limit.inner value requested)).bind fun _ => .pure false
    | none =>
      (storeChunks plan.chunks).bind fun _ =>
      (ask (.storeIfAbsent plan.manifestKey plan.manifestValue)).bind fun (published : Bool) =>
        if published then .pure true
        else
          (ask (.retrieve plan.manifestKey)).bind fun (existing : Option Bytes) =>
            match existing with
            | none => .throw (.conflict "manifest disappeared while publishing object")
            | some value =>
              (Prog.ofExcept (checkExistingManifest limit.inner value requested)).bind fun _ => .pure false

/-- The chunks `index`, `index + 1`, … of an object, `count` of them. -/
def retrieveChunks (identity : Identity) : Nat → Nat → KvProg (List (Option Bytes))
  | 0, _ => .pure []
  | count + 1, index =>
    (Prog.ofExcept (chunkKey identity index)).bind fun key =>
    (ask (.retrieve key)).bind fun (chunk : Option Bytes) =>
    (retrieveChunks identity count (index + 1)).bind fun chunks => .pure (chunk :: chunks)

/-- The `try` block of `load` (:93-105). -/
def loadObject (limit : Nat) (identity : Identity) (encodedManifest : Bytes) : KvProg (Option Bytes) :=
  (Prog.ofExcept (decodeManifest limit encodedManifest)).bind fun manifest =>
  (Prog.ofExcept identity.encode).bind fun b =>
    if manifest.identity ≠ b then .pure none
    else
      (retrieveChunks identity manifest.count 0).bind fun chunks =>
        if chunks.any Option.isNone then .pure none
        else (Prog.ofExcept (validatePayload manifest (chunks.filterMap id))).bind fun p => .pure (some p)

def load (limit : Nat) (identity : Identity) : KvProg (Option Bytes) :=
  (Prog.ofExcept (manifestKey identity)).bind fun key =>
  (ask (.retrieve key)).bind fun (encodedManifest : Option Bytes) =>
    match encodedManifest with
    | none => .pure none
    | some value =>
      (loadObject limit identity value).tryCatch fun
        | .format _ => .pure none
        | e => .throw e

def deleteChunks (identity : Identity) : Nat → Nat → KvProg Unit
  | 0, _ => .pure ()
  | count + 1, index =>
    (Prog.ofExcept (chunkKey identity index)).bind fun key =>
    (ask (.delete key)).bind fun _ => deleteChunks identity count (index + 1)

def delete (limit : Nat) (identity : Identity) : KvProg Bool :=
  (Prog.ofExcept (manifestKey identity)).bind fun key =>
  (ask (.retrieve key)).bind fun (encodedManifest : Option Bytes) =>
    match encodedManifest with
    | none => .pure false
    | some value =>
      match decodeManifest limit value with
      | .error (.format _) => ask (.delete key)
      | .error e => .throw e
      | .ok manifest =>
        (Prog.ofExcept identity.encode).bind fun b =>
          if manifest.identity ≠ b then .pure false
          else
            (ask (.delete key)).bind fun _ =>
            (deleteChunks identity manifest.count 0).bind fun _ => .pure true

/-- The identity `recover_identities` takes from one key, if any (:134-144). -/
def recoverKey (limit : Limit) (key : Bytes) : KvProg (Option Bytes) :=
  (ask (.retrieve key)).bind fun (encodedManifest : Option Bytes) =>
    match encodedManifest with
    | none => .pure none
    | some value =>
      match decodeManifest limit.outer value with
      | .error (.format _) => .pure none
      | .error e => .throw e
      | .ok manifest =>
        (Prog.ofExcept (manifestKey (.bytes manifest.identity))).bind fun k =>
          if k ≠ key then .pure none
          else
            (load limit.inner (.bytes manifest.identity)).bind fun payload =>
              .pure (if payload.isSome then some manifest.identity else none)

def recoverKeys (limit : Limit) : List Bytes → KvProg (List Bytes)
  | [] => .pure []
  | key :: keys =>
    (recoverKey limit key).bind fun identity =>
    (recoverKeys limit keys).bind fun identities => .pure (identity.toList ++ identities)

/-- `a <= b` of two byte strings. -/
def bytesLe : Bytes → Bytes → Bool
  | [], _ => true
  | _ :: _, [] => false
  | a :: as, b :: bs => a < b || (a == b && bytesLe as bs)

def recoverIdentities (limit : Limit) : KvProg (List Bytes) :=
  (ask .listKeys).bind fun (keys : List Bytes) =>
  (recoverKeys limit keys).bind fun identities => .pure (identities.mergeSort bytesLe)

/-! ## Calls -/

inductive Request where
  | store (identity : Identity) (payload : Bytes)
  | load (identity : Identity)
  | delete (identity : Identity)
  | recover
  deriving DecidableEq, Repr

/-- A call, and what the recursion limit leaves of nested containers in it. -/
structure Job where
  request : Request
  limit : Limit
  deriving DecidableEq, Repr

inductive Value where
  | stored (published : Bool)
  | loaded (payload : Option Bytes)
  | deleted (existed : Bool)
  | recovered (identities : List Bytes)
  deriving DecidableEq, Repr

def body (maxValueBytes : Nat) (j : Job) : KvProg Value :=
  match j.request with
  | .store identity payload => (store j.limit maxValueBytes identity payload).bind fun b => .pure (.stored b)
  | .load identity => (load j.limit.outer identity).bind fun p => .pure (.loaded p)
  | .delete identity => (delete j.limit.outer identity).bind fun b => .pure (.deleted b)
  | .recover => (recoverIdentities j.limit).bind fun l => .pure (.recovered l)

/-- Any number of clients on one engine. -/
def machine (maxValueBytes : Nat) : Machine Engine Job Command Answer Exn Value Luck where
  exec := exec
  body := body maxValueBytes

end NvmeKv
end SpdkConnector
