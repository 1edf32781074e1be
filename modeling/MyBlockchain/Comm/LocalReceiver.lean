import Mathlib.Algebra.Ring.Nat
import Mathlib.Data.List.Basic
import Mathlib.Data.List.Induction
import Mathlib.Data.List.Range
import Mathlib.Logic.Function.Basic

namespace Blockchain

/-- What a server's local receiver thread works on: the answers of the epoch server in the order of the requests, the
sets of the next message, and the answer it holds while it waits for the others. Ghosts: all answers of the epoch
server, and those that are in a message or its sets. -/
structure LocalReceiver (Batch : Type*) where
  epoch : Nat
  pendingTransactionsProof : List (Nat × Batch)
  transactionSetMulti : List Batch
  held : Option (Nat × Batch)
  broadcasts : List (Nat × List Batch)
  failed : Bool
  answered : List (Nat × Batch)
  done : List (Nat × Batch)

namespace LocalReceiver

variable {Batch : Type*}

def start : LocalReceiver Batch :=
  { epoch := 1, pendingTransactionsProof := [], transactionSetMulti := [], held := none, broadcasts := [],
    failed := false, answered := [], done := [] }

def getReply (receiver : LocalReceiver Batch) (response : Nat × Batch) : LocalReceiver Batch :=
  { receiver with
    pendingTransactionsProof := receiver.pendingTransactionsProof ++ [response]
    answered := receiver.answered ++ [response] }

def addSet (receiver : LocalReceiver Batch) (response : Nat × Batch) : LocalReceiver Batch :=
  if response.1 ≠ receiver.epoch then { receiver with failed := true }
  else { receiver with
    transactionSetMulti := receiver.transactionSetMulti ++ [response.2]
    done := receiver.done ++ [response] }

def receive (receiver : LocalReceiver Batch) : Option (LocalReceiver Batch) :=
  if receiver.held.isSome ∨ receiver.failed then none
  else
    match receiver.pendingTransactionsProof with
    | [] => none
    | response :: pendingTransactionsProof =>
      let receiver := { receiver with pendingTransactionsProof }
      if receiver.epoch < response.1 then
        some { receiver with
          broadcasts := receiver.broadcasts ++ [(receiver.epoch, receiver.transactionSetMulti)]
          transactionSetMulti := []
          held := some response }
      else some (receiver.addSet response)

/-- The return from `wait`: the callback of the barrier has incremented the epoch. -/
def release (receiver : LocalReceiver Batch) : Option (LocalReceiver Batch) :=
  receiver.held.map fun response =>
    { receiver with epoch := (receiver.epoch + 1) % 2 ^ 32, held := none }.addSet response

def round (receiver : LocalReceiver Batch) : Nat :=
  if receiver.held.isSome then receiver.broadcasts.length else receiver.broadcasts.length + 1

def ofEpoch (epoch : Nat) (responses : List (Nat × Batch)) : List Batch :=
  (responses.filter fun response => response.1 = epoch).map Prod.snd

def sent (receiver : LocalReceiver Batch) : Nat :=
  if receiver.held.isSome then receiver.epoch else receiver.epoch - 1

/-- One message for each epoch, with the batches of this server that have it. -/
structure KeepsUp (receiver : LocalReceiver Batch) : Prop where
  checked : receiver.failed = false
  broadcasts : receiver.broadcasts =
    (List.range' 1 receiver.sent).map fun epoch => (epoch, ofEpoch epoch receiver.answered)

end LocalReceiver

/-- The epoch server and the block servers. `received` counts the messages of another server after which this one's
thread has called `wait`. -/
structure EpochSystem (servers : Nat) (Batch : Type*) where
  epochNum : Nat
  local_ : Fin servers → LocalReceiver Batch
  received : Fin servers → Fin servers → Nat

/-- A batch comes to the epoch server, which may then turn to its next epoch; a local receiver works on an answer; a
remote receiver takes the next message of its server; the barrier of a server opens. -/
inductive EpochMove (servers : Nat) (Batch : Type*)
  | request (server : Fin servers) (batch : Batch) (increment : Bool)
  | receiveFromLocalServer (server : Fin servers)
  | receiveFromOtherServer (server other : Fin servers)
  | release (server : Fin servers)

namespace EpochSystem

variable {servers : Nat} {Batch : Type*}

def start : EpochSystem servers Batch :=
  { epochNum := 1, local_ := fun _ => LocalReceiver.start, received := fun _ _ => 0 }

def setLocal (system : EpochSystem servers Batch) (server : Fin servers) (receiver : LocalReceiver Batch) :
    EpochSystem servers Batch :=
  { system with local_ := Function.update system.local_ server receiver }

/-- A thread that has called `wait` goes on when all threads of its server have called it in the same round. -/
def step (system : EpochSystem servers Batch) : EpochMove servers Batch → Option (EpochSystem servers Batch)
  | .request server batch increment =>
    some { system.setLocal server ((system.local_ server).getReply (system.epochNum, batch)) with
      epochNum := if increment then (system.epochNum + 1) % 2 ^ 32 else system.epochNum }
  | .receiveFromLocalServer server => ((system.local_ server).receive).map (system.setLocal server)
  | .receiveFromOtherServer server other =>
    if server ≠ other ∧ system.received server other < (system.local_ server).round ∧
        system.received server other < (system.local_ other).broadcasts.length then
      some { system with
        received := Function.update system.received server
          (Function.update (system.received server) other (system.received server other + 1)) }
    else none
  | .release server =>
    if ∀ other, other ≠ server → system.received server other = (system.local_ server).round then
      ((system.local_ server).release).map (system.setLocal server)
    else none

def run (system : EpochSystem servers Batch) (moves : List (EpochMove servers Batch)) :
    Option (EpochSystem servers Batch) :=
  moves.foldlM step system

end EpochSystem

end Blockchain
