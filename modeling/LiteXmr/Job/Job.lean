/-
LiteXmr.Job.Job — the mining job of `job.rs`: the nonce field of a block
blob, the target decoding, and the three constructors `from_notify`,
`from_c3pool_job` and `from_daemon_template`.

A job is only ever made by one of the three constructors, which `Accepted`
records; every statement about "a job the miner holds" is about those.
Warnings are log lines and are left out; each parser returns `none` on the
paths that log and return `None`.
-/
import LiteXmr.Lib.Base16
import LiteXmr.Json

namespace LiteXmr

/-! ## The nonce field -/

def nonceOffset : Nat := 39

def nicehashNonceMask : UInt32 := 0x00ffffff

/-- `u32::from_le_bytes` on a window of four bytes. -/
def u32FromLe (bs : Bytes) : UInt32 := UInt32.ofNat (Bytes.natOfLe bs)

/-- `u32::to_le_bytes`. -/
def u32ToLe (x : UInt32) : Bytes := Bytes.leOfNat 4 x.toNat

def formatNonce (nonce : UInt32) : String := Base16.encode (u32ToLe nonce)

def readNonce (blob : Bytes) : Option UInt32 :=
  if nonceOffset + 4 > blob.length then none
  else some (u32FromLe (Bytes.window blob nonceOffset 4))

/-- The nonce bits under the mask, the bits already in the blob elsewhere. -/
def mergeNonce (current nonce mask : UInt32) : UInt32 :=
  (current &&& ~~~mask) ||| (nonce &&& mask)

/-- The blob after the write, with the merged nonce the call returns. -/
def writeNonce (blob : Bytes) (nonce mask : UInt32) : Option (Bytes × UInt32) :=
  match readNonce blob with
  | none => none
  | some current =>
      let merged := mergeNonce current nonce mask
      some (Bytes.overwrite blob nonceOffset (u32ToLe merged), merged)

def detectsNicehashNonce (blob : Bytes) : Bool :=
  match readNonce blob with
  | some nonce => nonce != 0
  | none => false

/-! ## The target -/

def u64Max : UInt64 := 0xffffffffffffffff

def u32Max : UInt32 := 0xffffffff

def decodeTarget (targetHex : String) : Option UInt64 :=
  match Base16.decode targetHex with
  | none => none
  | some bytes =>
      if bytes.length = 4 ∨ bytes.length = 8 then
        let diff := UInt64.ofNat (Bytes.natOfLe bytes)
        if diff = 0 then some u64Max
        else
          let maxVal := if bytes.length = 4 then u32Max.toUInt64 else u64Max
          some (maxVal / diff)
      else none

/-! ## Jobs -/

structure Job where
  jobId : String
  blob : String
  target : String
  algo : String
  height : Option UInt64
  seedHash : Option String
  blockTemplateBlob : Option String
  blobBytes : Bytes
  difficulty : UInt64
  nicehash : Bool
  deriving DecidableEq, Repr

namespace Job

def isNicehash (job : Job) : Bool := job.nicehash

def nonceMask (job : Job) : UInt32 :=
  if job.nicehash then nicehashNonceMask else u32Max

/-- The common tail of the two pool parsers: decode the blob, then the
target, then look for a reserved nonce byte. -/
def ofPoolFields (jobId blob target algo : String) (height : Option UInt64)
    (seedHash : Option String) : Option Job :=
  match Base16.decode blob with
  | none => none
  | some blobBytes =>
      match decodeTarget target with
      | none => none
      | some difficulty =>
          some { jobId, blob, target, algo, height, seedHash
                 blockTemplateBlob := none, blobBytes, difficulty
                 nicehash := detectsNicehashNonce blobBytes }

def fromNotify (params : List Json) : Option Job :=
  if params.length < 4 then none
  else
    match params[0]?.bind Json.asStr, params[1]?.bind Json.asStr,
        params[2]?.bind Json.asStr with
    | some jobId, some blob, some target =>
        let algo := (params[3]?.bind Json.asStr).getD "rx/0"
        let height := params[4]?.bind Json.asU64
        let seedHash := params[5]?.bind Json.asStr
        ofPoolFields jobId blob target algo height seedHash
    | _, _, _ => none

def fromC3poolJob (obj : Json) : Option Job :=
  match (obj.get "job_id").bind Json.asStr, (obj.get "blob").bind Json.asStr with
  | some jobId, some blob =>
      let target := ((obj.get "target").bind Json.asStr).getD "c5a70000"
      let algo := ((obj.get "algo").bind Json.asStr).getD "rx/0"
      let height := (obj.get "height").bind Json.asU64
      let seedHash := (obj.get "seed_hash").bind Json.asStr
      ofPoolFields jobId blob target algo height seedHash
  | _, _ => none

def fromDaemonTemplate (jobId blockhashingBlob blockTemplateBlob : String)
    (difficulty : UInt64) (height : Option UInt64) (seedHash : Option String) :
    Option Job :=
  match Base16.decode blockhashingBlob with
  | none => none
  | some blobBytes =>
      if (Base16.decode blockTemplateBlob).isNone then none
      else
        some { jobId, blob := blockhashingBlob
               target := toString difficulty.toNat, algo := "rx/0", height, seedHash
               blockTemplateBlob := some blockTemplateBlob, blobBytes
               difficulty := max difficulty 1, nicehash := false }

/-- A job one of the three constructors returned. -/
inductive Accepted : Job → Prop where
  | notify {params : List Json} {job : Job} (h : fromNotify params = some job) :
      Accepted job
  | c3pool {obj : Json} {job : Job} (h : fromC3poolJob obj = some job) : Accepted job
  | daemon {jobId hashing template : String} {difficulty : UInt64}
      {height : Option UInt64} {seedHash : Option String} {job : Job}
      (h : fromDaemonTemplate jobId hashing template difficulty height seedHash
        = some job) : Accepted job

end Job

end LiteXmr
