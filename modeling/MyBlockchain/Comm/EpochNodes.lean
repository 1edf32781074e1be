import Mathlib.Data.List.Forall2
import MyBlockchain.Comm.EpochServer
import MyBlockchain.Comm.LocalReceiver

namespace Blockchain

structure EpochNodes (servers : Nat) where
  server : EpochServer
  local_ : Fin servers → LocalReceiver EpochResponse
  received : Fin servers → Fin servers → Nat

inductive EpochNodesMove (servers : Nat)
  | request (server : Fin servers) (round : EpochRound)
  | receiveFromLocalServer (server : Fin servers)
  | receiveFromOtherServer (server other : Fin servers)
  | release (server : Fin servers)

namespace EpochNodesMove

variable {servers : Nat}

def Matches (readRequest : Bytes → EpochRequest) : EpochNodesMove servers → EpochMove servers EpochResponse → Prop
  | .request server round, .request server' response _ =>
    server = server' ∧ response.request = readRequest round.requestRaw
  | .receiveFromLocalServer server, .receiveFromLocalServer server' => server = server'
  | .receiveFromOtherServer server other, .receiveFromOtherServer server' other' => server = server' ∧ other = other'
  | .release server, .release server' => server = server'
  | _, _ => False

end EpochNodesMove

namespace EpochNodes

variable {servers : Nat} (readRequest : Bytes → EpochRequest) (rsaEncrypt : Bytes → Bytes)

def start (now : Int) : EpochNodes servers :=
  { server := .start now, local_ := fun _ => LocalReceiver.start, received := fun _ _ => 0 }

def system (nodes : EpochNodes servers) : EpochSystem servers EpochResponse :=
  { epochNum := nodes.server.epochNum, local_ := nodes.local_, received := nodes.received }

def block (nodes : EpochNodes servers) (system : EpochSystem servers EpochResponse) : EpochNodes servers :=
  { nodes with local_ := system.local_, received := system.received }

def step (nodes : EpochNodes servers) : EpochNodesMove servers → Option (EpochNodes servers)
  | .request server round =>
    let (next, response) := nodes.server.process readRequest rsaEncrypt round
    some { nodes with
      server := next
      local_ := Function.update nodes.local_ server ((nodes.local_ server).getReply (response.epoch, response)) }
  | .receiveFromLocalServer server => (nodes.system.step (.receiveFromLocalServer server)).map nodes.block
  | .receiveFromOtherServer server other => (nodes.system.step (.receiveFromOtherServer server other)).map nodes.block
  | .release server => (nodes.system.step (.release server)).map nodes.block

variable {readRequest rsaEncrypt} {nodes after : EpochNodes servers} {move : EpochNodesMove servers}
  {moves : List (EpochNodesMove servers)}

theorem block_system {system : EpochSystem servers EpochResponse} (same : system.epochNum = nodes.server.epochNum) :
    (nodes.block system).system = system := by
  rw [EpochNodes.system, block, ← same]

theorem step_simulates (stepped : nodes.step readRequest rsaEncrypt move = some after) :
    ∃ choice, move.Matches readRequest choice ∧ nodes.system.step choice = some after.system := by
  cases move with
  | request server round =>
    cases stepped
    have turned := nodes.server.process_epochNum readRequest rsaEncrypt round
    refine ⟨.request server (nodes.server.process readRequest rsaEncrypt round).2
      ((nodes.server.process readRequest rsaEncrypt round).1.epochNum ≠ nodes.server.epochNum), ⟨rfl, rfl⟩, ?_⟩
    refine congrArg some ?_
    have choice : (if decide ((nodes.server.process readRequest rsaEncrypt round).1.epochNum ≠
        nodes.server.epochNum) = true then (nodes.server.epochNum + 1) % 2 ^ 32 else nodes.server.epochNum) =
        (nodes.server.process readRequest rsaEncrypt round).1.epochNum := by
      split
      · next moved => exact (turned.resolve_right (of_decide_eq_true moved)).symm
      · next still =>
        have same : (nodes.server.process readRequest rsaEncrypt round).1.epochNum = nodes.server.epochNum := by
          simpa using still
        exact same.symm
    exact congrArg (fun epochNum => EpochSystem.mk epochNum _ _) choice
  | receiveFromLocalServer server =>
    obtain ⟨system, made, rfl⟩ := Option.map_eq_some_iff.mp stepped
    refine ⟨.receiveFromLocalServer server, rfl, ?_⟩
    obtain ⟨receiver, -, same⟩ := Option.map_eq_some_iff.mp made
    rw [made, block_system (by rw [← same]; rfl)]
  | receiveFromOtherServer server other =>
    obtain ⟨system, made, rfl⟩ := Option.map_eq_some_iff.mp stepped
    refine ⟨.receiveFromOtherServer server other, ⟨rfl, rfl⟩, ?_⟩
    obtain ⟨-, same⟩ := Option.ite_none_right_eq_some.mp made
    rw [made, block_system (by rw [← Option.some.inj same]; rfl)]
  | release server =>
    obtain ⟨system, made, rfl⟩ := Option.map_eq_some_iff.mp stepped
    refine ⟨.release server, rfl, ?_⟩
    obtain ⟨-, released⟩ := Option.ite_none_right_eq_some.mp made
    obtain ⟨receiver, -, same⟩ := Option.map_eq_some_iff.mp released
    rw [made, block_system (by rw [← same]; rfl)]

theorem run_simulates (ran : moves.foldlM (step readRequest rsaEncrypt) nodes = some after) :
    ∃ choices, List.Forall₂ (EpochNodesMove.Matches readRequest) moves choices ∧
      nodes.system.run choices = some after.system := by
  induction moves generalizing nodes with
  | nil =>
    cases ran
    exact ⟨[], .nil, rfl⟩
  | cons move rest ih =>
    obtain ⟨next, stepped, ran⟩ := Option.bind_eq_some_iff.mp ran
    obtain ⟨choice, matches_, chosen⟩ := step_simulates stepped
    obtain ⟨choices, others, reached⟩ := ih ran
    refine ⟨choice :: choices, .cons matches_ others, ?_⟩
    exact Option.bind_eq_some_iff.mpr ⟨next.system, chosen, reached⟩

/-- The epoch server with its clock and the block servers are one of the behaviours of the system in which the epochs end
as the environment chooses. -/
theorem epoch_nodes_simulated (now : Int) (ran : moves.foldlM (step readRequest rsaEncrypt) (start now) = some after) :
    ∃ choices, List.Forall₂ (EpochNodesMove.Matches readRequest) moves choices ∧
      EpochSystem.start.run choices = some after.system :=
  run_simulates ran

theorem epoch_nodes_simulated_two :
    ∃ after : EpochNodes 2, [EpochNodesMove.request 0 ⟨[1, 2], 0, 1⟩, .receiveFromLocalServer 0,
        .request 1 ⟨[3], 1, 1⟩].foldlM (step EpochServer.countBytes fun _ => []) (start 0) = some after ∧
      after.server.epochNum = 2 ∧ ∃ choices, EpochSystem.start.run choices = some after.system := by
  refine ⟨_, rfl, rfl, ?_⟩
  obtain ⟨choices, -, reached⟩ := @epoch_nodes_simulated 2 EpochServer.countBytes (fun _ => []) _
    [.request 0 ⟨[1, 2], 0, 1⟩, .receiveFromLocalServer 0, .request 1 ⟨[3], 1, 1⟩] 0 rfl
  exact ⟨choices, reached⟩

end EpochNodes

end Blockchain
