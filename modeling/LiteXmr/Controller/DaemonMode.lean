/-
LiteXmr.Controller.DaemonMode — `Controller::run_daemon_rpc`: solo mining
against a daemon, with the calls of `daemon_rpc.rs` it makes.

The polling task asks for a block template, keeps the template under the
job's id and publishes the job when its id is new; the mining threads work
on the job; the controller's `select!` loop takes their shares, looks the
template up again by the id of the share and submits the block. What the
daemon answers is the input. The three accesses to something shared that
follow a response (the map, the job channel) are steps of their own, and so
is the lookup for a share.

Errors are logged and otherwise dropped, so a failed call is `none` here.
-/
import LiteXmr.Miner.Worker
import LiteXmr.Rust.Str

namespace LiteXmr.Daemon

/-! ## `daemon_rpc.rs` -/

structure BlockTemplateResult where
  blocktemplateBlob : String
  blockhashingBlob : String
  difficulty : UInt64
  height : UInt64
  seedHash : Option String
  nextSeedHash : Option String
  deriving DecidableEq

def daemonJobId (height : UInt64) (blob : String) : String :=
  "daemon-" ++ toString height.toNat ++ "-" ++ (Str.getTo blob 16).getD blob

/-- The job made of a response. -/
def getBlockTemplate (result : BlockTemplateResult) : Option Job :=
  Job.fromDaemonTemplate (daemonJobId result.height result.blockhashingBlob)
    result.blockhashingBlob result.blocktemplateBlob result.difficulty (some result.height)
    (result.seedHash.or result.nextSeedHash)

def blockTemplateWithNonce (templateHex nonceHex : String) : Option String :=
  match Base16.decode templateHex, Base16.decode nonceHex with
  | some template, some nonce =>
      if nonce.length ≠ 4 then none
      else if nonceOffset + 4 > template.length then none
      else some (Base16.encode (Bytes.overwrite template nonceOffset nonce))
  | _, _ => none

/-! ## State -/

inductive PollerPhase where
  /-- In `get_block_template` or in the sleep before it. -/
  | polling
  /-- The job of a response; its template is still to be kept. -/
  | received (job : Job)
  /-- The template is kept; the job is still to be compared and published. -/
  | kept (job : Job)
  deriving DecidableEq

inductive SubmitterPhase where
  | selecting
  /-- A share has been taken; its template is still to be looked up. -/
  | looking (found : Found)
  /-- In `submit_block`. -/
  | submitting (found : Found)
  | stopped
  deriving DecidableEq

structure DaemonState where
  poller : PollerPhase
  lastJobId : String
  /-- The map from job ids to templates. -/
  templates : String → Option String
  miner : MinerState
  submitter : SubmitterPhase
  accepted : Nat
  rejected : Nat

def DaemonState.start (threadCount : UInt32) : DaemonState :=
  { poller := .polling, lastJobId := "", templates := fun _ => none
    miner := .start threadCount, submitter := .selecting, accepted := 0, rejected := 0 }

/-! ## Steps -/

inductive DaemonInput where
  /-- `get_block_template` comes back. -/
  | response (result : Option BlockTemplateResult)
  | insert
  | publish
  | miner (i : MinerInput)
  | recvShare
  | lookup
  /-- `submit_block` comes back. -/
  | submitted (ok : Bool)
  | shutdown

inductive DaemonObs where
  | response (result : BlockTemplateResult)
  | miner (o : MinerObs)
  /-- `submit_block` is called with this blob for this share. -/
  | submitBlock (found : Found) (blockBlob : String)

def daemonStep (config : MinerConfig) : Lts.Step DaemonState DaemonInput DaemonObs
  | s, .response result =>
      if s.submitter = .stopped then none
      else
        match s.poller, result with
        | .polling, none => some (s, [])
        | .polling, some result =>
            match getBlockTemplate result with
            | none => some (s, [.response result])
            | some job => some ({ s with poller := .received job }, [.response result])
        | _, _ => none
  | s, .insert =>
      if s.submitter = .stopped then none
      else
        match s.poller with
        | .received job =>
            match job.blockTemplateBlob with
            | some template =>
                some ({ s with
                        poller := .kept job
                        templates := Function.update s.templates job.jobId (some template) },
                  [])
            | none => some ({ s with poller := .kept job }, [])
        | _ => none
  | s, .publish =>
      if s.submitter = .stopped then none
      else
        match s.poller with
        | .kept job =>
            if job.jobId = s.lastJobId then some ({ s with poller := .polling }, [])
            else
              match minerStep config s.miner (.publish job) with
              | some (miner, os) =>
                  some ({ s with poller := .polling, lastJobId := job.jobId, miner },
                    os.map .miner)
              | none => none
        | _ => none
  | s, .miner i =>
      match i with
      | .publish _ | .pop => none
      | .dropSender =>
          -- the sender is dropped with the polling task
          if s.submitter = .stopped then
            match minerStep config s.miner .dropSender with
            | some (miner, os) => some ({ s with miner }, os.map .miner)
            | none => none
          else none
      | i =>
          match minerStep config s.miner i with
          | some (miner, os) => some ({ s with miner }, os.map .miner)
          | none => none
  | s, .recvShare =>
      match s.submitter, s.miner.mined with
      | .selecting, found :: _ =>
          match minerStep config s.miner .pop with
          | some (miner, os) =>
              some ({ s with miner, submitter := .looking found }, os.map .miner)
          | none => none
      | _, _ => none
  | s, .lookup =>
      match s.submitter with
      | .looking found =>
          match (s.templates found.share.jobId).bind fun template =>
              blockTemplateWithNonce template found.share.nonce with
          | none => some ({ s with submitter := .selecting, rejected := s.rejected + 1 }, [])
          | some blockBlob =>
              some ({ s with submitter := .submitting found }, [.submitBlock found blockBlob])
      | _ => none
  | s, .submitted ok =>
      match s.submitter with
      | .submitting _ =>
          if ok then
            some ({ s with submitter := .selecting, accepted := s.accepted + 1 }, [])
          else some ({ s with submitter := .selecting, rejected := s.rejected + 1 }, [])
      | _ => none
  | s, .shutdown =>
      match s.submitter with
      | .selecting => some ({ s with submitter := .stopped }, [])
      | _ => none

end LiteXmr.Daemon
