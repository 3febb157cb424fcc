/-
LiteXmr.Controller.PoolMining — the miner in pool mode with the pool it mines for.

`PoolMode` lets the client read any lines. Here the pool is a party of its own: it
reads the lines that the client writes, as JSON, answers every login and every
submit once, with the id that it came with, and says other things when it likes.
What the answers say is its own choice; the shares it takes are those that it
answers without an error.

A line is under way on the connection before it is read, in the order of writing. The
connection may break at any time. What the client has written may still reach the pool
then, in any order; what the pool says on such a connection is lost.
-/
import LiteXmr.Controller.PoolMode
import LiteXmr.Json.Write
import LiteXmr.Stratum.ConnectTheorems

namespace LiteXmr.Pool

open Stratum

/-! ## The pool -/

/-- A share as the pool reads it. -/
structure ReadShare where
  sessionId : String
  submission : Submission
  deriving DecidableEq

/-- A login, or a submit with its share. -/
structure PoolRequest where
  id : Json
  share : Option ReadShare

def shareIn (request : Json) : Option ReadShare := do
  let params ← request.get "params"
  return {
    sessionId := ← (params.get "id").bind Json.asStr
    submission := {
      jobId := ← (params.get "job_id").bind Json.asStr
      nonce := ← (params.get "nonce").bind Json.asStr
      result := ← (params.get "result").bind Json.asStr } }

def readRequest (line : String) : Option PoolRequest := do
  let request ← JsonText.read line
  let id ← request.get "id"
  let method ← (request.get "method").bind Json.asStr
  if method = "login" then return { id, share := none }
  else if method = "submit" then return { id, share := ← (shareIn request).map some }
  else none

/-- What the pool says, and what it answers with it. -/
inductive PoolMessage where
  /-- The answer to a login. -/
  | greeting (msg : Json)
  /-- The answer to a submit. -/
  | verdict (taken : Bool) (msg : Json)
  | notice (msg : Json)

def PoolMessage.msg : PoolMessage → Json
  | .greeting msg | .verdict _ msg | .notice msg => msg

/-- The line, without its end. -/
def PoolMessage.text (message : PoolMessage) : String := JsonText.toText message.msg

structure PoolNode where
  /-- Everything it has said. -/
  said : List Json
  taken : List ReadShare
  refused : List ReadShare

/-- An answer: the id, and the members that the pool chooses. -/
def answerWith (id : Json) (members : List (String × Json)) : Json :=
  .object (("id", id) :: members)

def withoutError (members : List (String × Json)) : Bool :=
  match Json.lookup "error" members with
  | none | some .null => true
  | some _ => false

def PoolNode.serve (node : PoolNode) (members : List (String × Json)) (line : String) :
    PoolNode × List PoolMessage :=
  match readRequest line with
  | none => (node, [])
  | some request =>
      let msg := answerWith request.id members
      let node := { node with said := node.said ++ [msg] }
      match request.share with
      | none => (node, [.greeting msg])
      | some share =>
          if withoutError members then
            ({ node with taken := node.taken ++ [share] }, [.verdict true msg])
          else ({ node with refused := node.refused ++ [share] }, [.verdict false msg])

/-! ## State -/

structure MiningState where
  miner : PoolState
  node : PoolNode
  /-- The lines under way on the connection, if the client has one. -/
  toPool : List String
  toMiner : List PoolMessage
  /-- The lines under way on the connections that the client has left. -/
  late : List String
  /-- What the pool has said and the client will not read. -/
  lost : List PoolMessage

/-- What the client writes, with the end of the line. -/
def writtenLine : PoolObs → Option String
  | .client (.login _ msg) => some (JsonText.toText msg ++ "\n")
  | .client (.submit _ _ _ line) => some line
  | _ => none

/-- The state after a step of the miner: its lines are under way, or its connection is gone. -/
def MiningState.follow (s : MiningState) (miner : PoolState) (os : List PoolObs) : MiningState :=
  if miner.client.phase.connected then
    { s with miner, toPool := s.toPool ++ os.filterMap writtenLine }
  else
    { s with
      miner, toPool := [], toMiner := [], late := s.late ++ s.toPool, lost := s.lost ++ s.toMiner }

/-! ## Steps -/

inductive MiningInput where
  /-- A step of the miner in which the client reads no line. -/
  | miner (i : PoolInput)
  /-- The client reads the next line. -/
  | deliver
  /-- The pool reads the next line. -/
  | serve (members : List (String × Json))
  | notify (members : List (String × Json))
  /-- The pool reads a line on another connection. -/
  | serveLate (k : Nat) (members : List (String × Json))
  | loseLate (k : Nat)

def isLine : PoolInput → Bool
  | .client (.read (.line _)) => true
  | _ => false

section

variable (cc : ClientConfig) (mc : MinerConfig)

def MiningState.start : MiningState :=
  { miner := .start cc mc, node := { said := [], taken := [], refused := [] }
    toPool := [], toMiner := [], late := [], lost := [] }

def miningStep : Lts.Step MiningState MiningInput PoolObs
  | s, .miner i =>
      if isLine i then none
      else
        match poolStep cc mc s.miner i with
        | some (miner, os) => some (s.follow miner os, os)
        | none => none
  | s, .deliver =>
      match s.toMiner with
      | [] => none
      | message :: rest =>
          match poolStep cc mc s.miner (.client (.read (.line message.text))) with
          | some (miner, os) => some ({ s with toMiner := rest }.follow miner os, os)
          | none => none
  | s, .serve members =>
      match s.toPool with
      | [] => none
      | line :: rest =>
          let served := s.node.serve members line
          some ({ s with
            node := served.1, toPool := rest, toMiner := s.toMiner ++ served.2 }, [])
  | s, .notify members =>
      if s.miner.client.phase.connected then
        let msg := Json.object members
        some ({ s with
          node := { s.node with said := s.node.said ++ [msg] }
          toMiner := s.toMiner ++ [.notice msg] }, [])
      else none
  | s, .serveLate k members =>
      match s.late[k]? with
      | none => none
      | some line =>
          let served := s.node.serve members line
          some ({ s with
            node := served.1, late := s.late.eraseIdx k, lost := s.lost ++ served.2 }, [])
  | s, .loseLate k =>
      if k < s.late.length then some ({ s with late := s.late.eraseIdx k }, []) else none

end

end LiteXmr.Pool
