/-
LiteXmr.Daemon.RpcReply — what `daemon_rpc.rs` makes of the replies to its requests.

`json_rpc` either has no reply, or cannot read its body, or has a body that is
read as an `RpcEnvelope`; an error in it counts more than a result. The texts
are those of the errors as they are logged, without their causes.

How the body becomes a tree is a parameter.
-/
import LiteXmr.Controller.DaemonMode
import LiteXmr.Json.Struct
import LiteXmr.Pool.Address

namespace LiteXmr.Daemon

open JsonStruct

/-! ## The structs of a reply -/

structure RpcEnvelope (α : Type) where
  result : Option α
  error : Option Json

def RpcEnvelope.read {α : Type} (de : De α) : De (RpcEnvelope α) := fun v =>
  match structFields ["result", "error"] v with
  | some [result, error] => do
      return { result := ← optionalField de result, error := ← optionalField some error }
  | _ => none

def BlockTemplateResult.read : De BlockTemplateResult := fun v =>
  match structFields ["blocktemplate_blob", "blockhashing_blob", "difficulty", "height",
      "seed_hash", "next_seed_hash"] v with
  | some [blocktemplateBlob, blockhashingBlob, difficulty, height, seedHash, nextSeedHash] => do
      return {
        blocktemplateBlob := ← requiredField Json.asStr blocktemplateBlob
        blockhashingBlob := ← requiredField Json.asStr blockhashingBlob
        difficulty := ← requiredField Json.asU64 difficulty
        height := ← requiredField Json.asU64 height
        seedHash := ← optionalField Json.asStr seedHash
        nextSeedHash := ← optionalField Json.asStr nextSeedHash }
  | _ => none

structure SubmitBlockResult where
  status : Option String

def SubmitBlockResult.read : De SubmitBlockResult := fun v =>
  match structFields ["status"] v with
  | some [status] => do return { status := ← optionalField Json.asStr status }
  | _ => none

/-! ## The calls -/

inductive HttpReply (β : Type) where
  /-- No reply in time, or one whose status is an error. -/
  | failed
  | unreadable
  | body (body : β)

section

variable {α β : Type} (parse : β → Option Json)

def jsonRpc (de : De α) (method : String) : HttpReply β → Except String α
  | .failed => .error s!"daemon RPC {method} failed"
  | .unreadable => .error s!"daemon RPC {method} response read failed"
  | .body body =>
      match (parse body).bind (RpcEnvelope.read de) with
      | none => .error s!"daemon RPC {method} returned invalid JSON"
      | some envelope =>
          match envelope.error with
          | some error => .error s!"daemon RPC {method} error: {JsonText.toText error}"
          | none => okOrElse envelope.result s!"daemon RPC {method} returned no result"

/-- The first half of `get_block_template`; the other one is `getBlockTemplate`. -/
def templateReply (reply : HttpReply β) : Except String BlockTemplateResult :=
  jsonRpc parse BlockTemplateResult.read "get_block_template" reply

def jobReply (reply : HttpReply β) : Except String Job := do
  let result ← templateReply parse reply
  okOrElse (getBlockTemplate result) "daemon returned an invalid block template"

/-- `submit_block`. -/
def submitReply (reply : HttpReply β) : Except String Unit := do
  let result ← jsonRpc parse SubmitBlockResult.read "submit_block" reply
  let status := result.status.getD "OK"
  if Str.toAsciiLowercase status = Str.toAsciiLowercase "OK" then return ()
  else throw s!"daemon submit_block status={status}"

end

end LiteXmr.Daemon
