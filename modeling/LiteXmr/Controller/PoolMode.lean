/-
LiteXmr.Controller.PoolMode — `Controller::run` against a pool: the stratum
client, the mining threads and the controller's `select!` loop, joined by
three bounded queues and the job channel.

* `mined` (256, in `MinerState`) — worker to controller, filled by `try_send`.
* `submits` (256) — controller to client; `submit_tx.send(..).await` blocks
  while it is full, inside the arm of the `select!`, so the controller does
  nothing else meanwhile (`ControllerPhase.sending`).
* `events` (256) — client to controller; `event_tx.send(..).await` blocks
  while it is full (the client's `outbox`).

The parties run on their own threads, so every step is one party's step, or
one exchange over a queue. When the client's task ends, its ends of the
channels are dropped: a blocked `submit_tx.send` returns an error and the
job channel closes. When the process is gone, all of them are.
-/
import LiteXmr.Miner.Worker
import LiteXmr.Stratum.Client

namespace LiteXmr.Pool

open Stratum

/-! ## State -/

inductive ControllerPhase where
  | selecting
  /-- In `submit_tx.send(..).await`. -/
  | sending (submission : Submission)
  | stopped
  deriving DecidableEq

/-- The controller's loop with the counters it keeps in `MiningStats`. -/
structure Controller where
  phase : ControllerPhase
  accepted : Nat
  rejected : Nat
  loggedIn : Bool

structure PoolState where
  client : Client
  miner : MinerState
  events : List StratumEvent
  submits : List Submission
  controller : Controller

def queueCapacity : Nat := 256

/-! ## Steps -/

inductive PoolInput where
  /-- A step of the client by itself. -/
  | client (i : ClientInput)
  /-- A step of the mining threads by themselves. -/
  | miner (i : MinerInput)
  /-- The event queue takes an event from the client. -/
  | sendEvent
  /-- The client takes a submission from the submit queue. -/
  | recvSubmit
  /-- The `select!` arms of the controller. -/
  | recvEvent
  | recvShare
  | shutdown
  /-- The blocking send of the controller comes back. -/
  | submitSent

inductive PoolObs where
  | client (o : ClientObs)
  | miner (o : MinerObs)

def Controller.handleEvent (controller : Controller) : StratumEvent → Controller
  | .newJob _ => controller
  | .accepted => { controller with accepted := controller.accepted + 1 }
  | .rejected _ => { controller with rejected := controller.rejected + 1 }
  | .connected => { controller with loggedIn := true }
  | .disconnected _ => { controller with loggedIn := false }

def Submission.ofShare (share : MinedShare) : Submission :=
  { jobId := share.jobId, nonce := share.nonce, result := share.result }

/-- Inputs of the client that are exchanges over a queue. -/
def isExchange : ClientInput → Bool
  | .sendEvent | .recvSubmit _ => true
  | _ => false

def publishedJob : ClientObs → Option Job
  | .published job => some job
  | _ => none

section

variable (clientConfig : ClientConfig) (minerConfig : MinerConfig)

/-- No thread is started for a keepalive connection. -/
def PoolState.start : PoolState :=
  { client := .start
    miner := .start (if clientConfig.keepalive then 0 else minerConfig.threadCount)
    events := [], submits := []
    controller := { phase := .selecting, accepted := 0, rejected := 0, loggedIn := false } }

/-- A step of the client, with the job it sends on the job channel. -/
def clientMove (s : PoolState) (i : ClientInput) : Option (PoolState × List PoolObs) :=
  match clientStep clientConfig s.client i with
  | none => none
  | some (client, os) =>
      match os.filterMap publishedJob with
      | [] => some ({ s with client }, os.map .client)
      | job :: _ =>
          match minerStep minerConfig s.miner (.publish job) with
          | none => none
          | some (miner, mos) =>
              some ({ s with client, miner }, os.map .client ++ mos.map .miner)

def minerMove (s : PoolState) (i : MinerInput) : Option (PoolState × List PoolObs) :=
  match minerStep minerConfig s.miner i with
  | none => none
  | some (miner, os) => some ({ s with miner }, os.map .miner)

def partyStep : Lts.Step PoolState PoolInput PoolObs
  | s, .client i =>
      if isExchange i ∨ s.controller.phase = .stopped then none
      else clientMove clientConfig minerConfig s i
  | s, .miner i =>
      match i with
      | .publish _ | .pop => none
      | .dropSender => if s.client.LeftLoop then minerMove minerConfig s .dropSender else none
      | i => minerMove minerConfig s i
  | s, .sendEvent =>
      if s.controller.phase = .stopped ∨ queueCapacity ≤ s.events.length then none
      else
        match s.client.outbox with
        | [] => none
        | event :: _ =>
            clientMove clientConfig minerConfig { s with events := s.events ++ [event] }
              .sendEvent
  | s, .recvSubmit =>
      if s.controller.phase = .stopped then none
      else
        match s.submits with
        | [] => none
        | submission :: rest =>
            clientMove clientConfig minerConfig { s with submits := rest }
              (.recvSubmit submission)
  | s, .recvEvent =>
      match s.controller.phase, s.events with
      | .selecting, event :: rest =>
          some ({ s with events := rest, controller := s.controller.handleEvent event }, [])
      | _, _ => none
  | s, .recvShare =>
      match s.controller.phase, s.miner.mined with
      | .selecting, found :: _ =>
          minerMove minerConfig
            { s with
              controller :=
                { s.controller with phase := .sending (Submission.ofShare found.share) } }
            .pop
      | _, _ => none
  | s, .shutdown =>
      match s.controller.phase with
      | .selecting => some ({ s with controller := { s.controller with phase := .stopped } }, [])
      | _ => none
  | s, .submitSent =>
      match s.controller.phase with
      | .sending submission =>
          let controller := { s.controller with phase := .selecting }
          if s.client.LeftLoop then some ({ s with controller }, [])
          else if s.submits.length < queueCapacity then
            some ({ s with controller, submits := s.submits ++ [submission] }, [])
          else none
      | _ => none

/-- The parties are threads of one process: when it is gone, nothing happens any more. -/
def poolStep : Lts.Step PoolState PoolInput PoolObs := fun s i =>
  if s.client.phase = .aborted then none else partyStep clientConfig minerConfig s i

end

end LiteXmr.Pool
