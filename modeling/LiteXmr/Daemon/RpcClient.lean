/-
LiteXmr.Daemon.RpcClient — the client of monerod's JSON-RPC (`daemon_rpc.rs`):
its settings and the bodies of its requests.

`normalize_rpc_url` makes an address to post to out of what the configuration
holds: it takes a `daemon+` off, puts `http://` before a bare `host:port`, and
adds the path of the RPC unless it is there.
-/
import LiteXmr.Json.Write
import LiteXmr.Rust.Str

namespace LiteXmr

def normalizeRpcUrl (raw : String) : String :=
  let url := Str.trim raw
  let url := (Str.stripPrefixStr url "daemon+").getD url
  let url := if Str.contains url "://" then url else "http://" ++ url
  if Str.endsWith url "/json_rpc" then url
  else Str.trimEndMatches url '/' ++ "/json_rpc"

structure DaemonRpcClient where
  rpcUrl : String
  wallet : String
  rpcLogin : Option String
  deriving DecidableEq, Repr

def DaemonRpcClient.new (url wallet : String) (rpcLogin : Option String) : DaemonRpcClient :=
  { rpcUrl := normalizeRpcUrl url
    wallet := wallet
    rpcLogin := rpcLogin.filter fun s => Str.trim s ≠ "" }

/-- The body `json_rpc` posts. -/
def rpcBody (method : String) (params : Json) : String :=
  JsonText.toText (.object
    [("jsonrpc", .string "2.0"), ("id", .string "0"), ("method", .string method),
      ("params", params)])

/-- The body of `get_block_template`. -/
def DaemonRpcClient.blockTemplateBody (client : DaemonRpcClient) : String :=
  rpcBody "get_block_template"
    (.object [("wallet_address", .string client.wallet), ("reserve_size", .number (.posInt 0))])

/-- The body of `submit_block`. -/
def submitBlockBody (blockBlob : String) : String :=
  rpcBody "submit_block" (.array [.string blockBlob])

end LiteXmr
