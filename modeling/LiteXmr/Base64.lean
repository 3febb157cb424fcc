/-
LiteXmr.Base64 — the two base64 encoders, `base64url_encode` of `doh.rs` and
`base64` of `daemon_rpc.rs`, and what is sent of their output.

Both read three bytes at a time into a number of 32 bits and look its six-bit
parts up in a table. They differ in the table, and in the end of the text: the
one leaves out the characters that stand for missing bytes, the other writes
`=` instead.
-/
import LiteXmr.Daemon.RpcClient
import LiteXmr.Doh.Query

namespace LiteXmr

/-- `data.chunks(3)`. -/
def chunks3 {α : Type} : List α → List (List α)
  | [] => []
  | [a] => [[a]]
  | [a, b] => [[a, b]]
  | a :: b :: c :: rest => [a, b, c] :: chunks3 rest

/-- The bytes of a chunk in one number; a missing byte is zero. -/
def chunkTriple (chunk : Bytes) : UInt32 :=
  let b0 := (chunk.getD 0 0).toUInt32
  let b1 := (chunk.getD 1 0).toUInt32
  let b2 := (chunk.getD 2 0).toUInt32
  (b0 <<< 16) ||| (b1 <<< 8) ||| b2

/-- `T[((triple >> shift) & 0x3F) as usize] as char`. -/
def tableChar (table : String) (triple shift : UInt32) : Char :=
  table.toList.getD ((triple >>> shift) &&& 0x3F).toNat 'A'

/-! ## `doh.rs` -/

def base64urlTable : String :=
  "ABCDEFGHIJKLMNOPQRSTUVWXYZabcdefghijklmnopqrstuvwxyz0123456789-_"

def base64urlChunk (chunk : Bytes) : List Char :=
  let triple := chunkTriple chunk
  [tableChar base64urlTable triple 18, tableChar base64urlTable triple 12] ++
    (if 1 < chunk.length then [tableChar base64urlTable triple 6] else []) ++
    (if 2 < chunk.length then [tableChar base64urlTable triple 0] else [])

def base64urlEncode (data : Bytes) : String :=
  String.ofList ((chunks3 data).flatMap base64urlChunk)

/-- The address of the request that `doh_query` makes. -/
def dohUrl (server hostname : String) (qtype : UInt16) : String :=
  server ++ "?dns=" ++ base64urlEncode (buildDnsQuery hostname qtype)

/-! ## `daemon_rpc.rs` -/

def base64Table : String :=
  "ABCDEFGHIJKLMNOPQRSTUVWXYZabcdefghijklmnopqrstuvwxyz0123456789+/"

def base64Chunk (chunk : Bytes) : List Char :=
  let n := chunkTriple chunk
  [tableChar base64Table n 18, tableChar base64Table n 12] ++
    (if 1 < chunk.length then [tableChar base64Table n 6] else ['=']) ++
    (if 2 < chunk.length then [tableChar base64Table n 0] else ['='])

def base64 (input : String) : String :=
  String.ofList ((chunks3 (Str.asBytes input)).flatMap base64Chunk)

/-- The `Authorization` header of `json_rpc`, when there is a login. -/
def DaemonRpcClient.authorization (client : DaemonRpcClient) : Option String :=
  client.rpcLogin.map fun login => "Basic " ++ base64 login

example : base64 "user:pass" = "dXNlcjpwYXNz" := by decide

end LiteXmr
