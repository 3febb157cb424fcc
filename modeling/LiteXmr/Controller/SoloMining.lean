/-
LiteXmr.Controller.SoloMining — the miner in solo mode with the daemon it mines for.

The polling task and the submit loop each make one call at a time: a request is
posted, the daemon serves it, and the reply is delivered to the task that waits.
Request or reply may be lost (`timeout_global` included); the call then fails.
Requests and replies are the texts that are sent.

The daemon is what the client relies on: it reads a request as JSON, hands out a
template or takes a block, and answers with a result or an error. Which template,
which blocks it takes, and what else it says are its own choice.
-/
import LiteXmr.Daemon.RpcClient
import LiteXmr.Daemon.RpcReply
import LiteXmr.Stratum.Messages

namespace LiteXmr.Daemon

open Stratum (field?)

/-! ## The daemon -/

structure Node where
  /-- The templates that were handed out. -/
  templates : List BlockTemplateResult
  /-- The blocks that were taken, in order. -/
  blocks : List Bytes

structure Choice where
  result : BlockTemplateResult
  /-- Other members of the result. -/
  extra : List (String × Json)
  takes : Bool

def templateFields (result : BlockTemplateResult) : List (String × Json) :=
  [("blocktemplate_blob", .string result.blocktemplateBlob),
    ("blockhashing_blob", .string result.blockhashingBlob),
    ("difficulty", .number (.posInt result.difficulty)),
    ("height", .number (.posInt result.height))]
  ++ field? "seed_hash" (result.seedHash.map .string)
  ++ field? "next_seed_hash" (result.nextSeedHash.map .string)

def resultText (result : Json) : String :=
  JsonText.toText (.object [("id", .string "0"), ("jsonrpc", .string "2.0"), ("result", result)])

def errorText (message : String) : String :=
  JsonText.toText (.object
    [("error", .object [("message", .string message)]), ("id", .string "0"),
      ("jsonrpc", .string "2.0")])

/-- The block in the parameters of `submit_block`. -/
def blockOf : Json → Option Bytes
  | .array [.string text] => Base16.decode text
  | _ => none

def Node.serve (node : Node) (choice : Choice) (body : String) : Node × String :=
  let message := JsonText.read body
  let params := message.bind (·.get "params")
  match message.bind (·.get "method") with
  | some (.string "get_block_template") =>
      ({ node with templates := node.templates ++ [choice.result] },
        resultText (.object (templateFields choice.result ++ choice.extra)))
  | some (.string "submit_block") =>
      match params.bind blockOf with
      | some block =>
          if choice.takes then
            ({ node with blocks := node.blocks ++ [block] },
              resultText (.object [("status", .string "OK")]))
          else (node, errorText "Block not accepted")
      | none => (node, errorText "Wrong block blob")
  | _ => (node, errorText "Method not found")

/-! ## State -/

inductive Call where
  | idle
  | posted (body : String)
  | answered (text : String)
  deriving DecidableEq

inductive RpcCaller where
  | poller
  | submitter
  deriving DecidableEq

structure SoloState where
  daemon : DaemonState
  poll : Call
  submit : Call
  node : Node
  /-- How many blocks were taken of which the miner has not heard. -/
  unheard : Nat

def SoloState.start (threadCount : UInt32) : SoloState :=
  { daemon := .start threadCount, poll := .idle, submit := .idle
    node := { templates := [], blocks := [] }, unheard := 0 }

def SoloState.call (s : SoloState) : RpcCaller → Call
  | .poller => s.poll
  | .submitter => s.submit

def SoloState.setCall (s : SoloState) (caller : RpcCaller) (call : Call) : SoloState :=
  match caller with
  | .poller => { s with poll := call }
  | .submitter => { s with submit := call }

/-- The blocks of which an answer tells that they were taken. -/
def Call.told : Call → Nat
  | .answered text => if (submitReply JsonText.read (.body text)).isOk then 1 else 0
  | _ => 0

/-! ## Steps -/

inductive SoloInput where
  /-- A step of the miner other than the end of a call. -/
  | miner (i : DaemonInput)
  /-- The polling task calls `get_block_template`. -/
  | ask
  | serve (caller : RpcCaller) (choice : Choice)
  | deliver (caller : RpcCaller)
  | lose (caller : RpcCaller)

def isReply : DaemonInput → Bool
  | .response _ | .submitted _ => true
  | _ => false

/-- The step of the miner that a reply leads to. -/
def replyInput (reply : HttpReply String) : RpcCaller → DaemonInput
  | .poller => .response (templateReply JsonText.read reply).toOption
  | .submitter => .submitted (submitReply JsonText.read reply).isOk

/-- The request of a step of the submit loop. -/
def requestOf : DaemonObs → Option String
  | .submitBlock _ blockBlob => some (submitBlockBody blockBlob)
  | _ => none

section

variable (mc : MinerConfig) (client : DaemonRpcClient)

/-- A call comes back. -/
def SoloState.finish (s : SoloState) (caller : RpcCaller) (reply : HttpReply String) :
    Option (SoloState × List DaemonObs) :=
  match daemonStep mc s.daemon (replyInput reply caller) with
  | some (daemon, os) => some ({ s with daemon }.setCall caller .idle, os)
  | none => none

def soloStep : Lts.Step SoloState SoloInput DaemonObs
  | s, .miner i =>
      if isReply i then none
      else
        match daemonStep mc s.daemon i with
        | some (daemon, os) =>
            match os.filterMap requestOf with
            | [] => some ({ s with daemon }, os)
            | body :: _ => some ({ s with daemon, submit := .posted body }, os)
        | none => none
  | s, .ask =>
      if s.daemon.submitter = .stopped then none
      else
        match s.daemon.poller, s.poll with
        | .polling, .idle => some ({ s with poll := .posted client.blockTemplateBody }, [])
        | _, _ => none
  | s, .serve caller choice =>
      match s.call caller with
      | .posted body =>
          let served := s.node.serve choice body
          some ({ s with node := served.1 }.setCall caller (.answered served.2), [])
      | _ => none
  | s, .deliver caller =>
      match s.call caller with
      | .answered text => s.finish mc caller (.body text)
      | _ => none
  | s, .lose caller =>
      match s.call caller with
      | .idle => none
      | call =>
          let unheard := match caller with
            | .poller => s.unheard
            | .submitter => s.unheard + call.told
          { s with unheard }.finish mc caller .failed

end

end LiteXmr.Daemon
