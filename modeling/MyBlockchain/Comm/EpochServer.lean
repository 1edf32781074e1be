import Mathlib.Data.List.Induction
import MyBlockchain.Comm.CommController

namespace Blockchain

/-- A round of the epoch server's loop: what comes in, and what the clock shows then and after the answer. -/
structure EpochRound where
  requestRaw : Bytes
  received : Int
  processed : Int

structure EpochServer where
  epochSizeMap : Nat → Nat
  epochNum : Nat
  epochStartTime : Int
  totalSize : Nat

def timeGap : Int := 1

namespace EpochServer

def start (now : Int) : EpochServer :=
  { epochSizeMap := fun _ => 0, epochNum := 1, epochStartTime := now, totalSize := 0 }

variable (readRequest : Bytes → EpochRequest) (rsaEncrypt : Bytes → Bytes)

/-- A round of the loop, with the response that it sends. -/
def process (server : EpochServer) (round : EpochRound) : EpochServer × EpochResponse :=
  let epochStartTime := if server.epochSizeMap server.epochNum = 0 then round.received else server.epochStartTime
  let request := readRequest round.requestRaw
  let currentRequestSize := request.requestBatchSize
  let totalSize := (server.totalSize + currentRequestSize) % 2 ^ 64
  let epochSize := (server.epochSizeMap server.epochNum + currentRequestSize) % 2 ^ 64
  let response : EpochResponse := { epoch := server.epochNum, request, nonce := totalSize % 2 ^ 32, signature := [] }
  ({ epochSizeMap := Function.update server.epochSizeMap server.epochNum epochSize
     -- the next round resets the time where its epoch is empty
     epochNum := if timeGap ≤ round.processed - epochStartTime then (server.epochNum + 1) % 2 ^ 32 else server.epochNum
     epochStartTime
     totalSize },
    { response with signature := rsaEncrypt response.message })

def serve : EpochServer → List EpochRound → EpochServer × List (EpochRound × EpochResponse)
  | server, [] => (server, [])
  | server, round :: rest =>
    let (next, response) := server.process readRequest rsaEncrypt round
    let (last, served) := serve next rest
    (last, (round, response) :: served)

def requested (rounds : List EpochRound) : Nat :=
  (rounds.map fun round => (readRequest round.requestRaw).requestBatchSize).sum

def opener (epoch : Nat) (served : List (EpochRound × EpochResponse)) : Option (EpochRound × EpochResponse) :=
  served.find? fun served => served.2.epoch = epoch

def sizeOf (epoch : Nat) (served : List (EpochRound × EpochResponse)) : Nat :=
  ((served.filter fun served => served.2.epoch = epoch).map fun served => served.2.request.requestBatchSize).sum

/-- What the rounds so far have left: epochs one after the other, none without an answer, and the time at which the first
batch of the epoch came in. -/
structure Sound (server : EpochServer) (served : List (EpochRound × EpochResponse)) : Prop where
  positive : 1 ≤ server.epochNum
  bounded : server.epochNum ≤ served.length + 1
  sorted : served.Pairwise fun earlier later => earlier.2.epoch ≤ later.2.epoch
  within : ∀ round ∈ served, round.2.epoch ≤ server.epochNum
  filled : ∀ epoch, 1 ≤ epoch → epoch < server.epochNum → ∃ round ∈ served, round.2.epoch = epoch
  sizes : server.epochSizeMap = fun epoch => sizeOf epoch served
  opened : ∀ first, opener server.epochNum served = some first → server.epochStartTime = first.1.received
  nonempty : ∀ round ∈ served, 0 < round.2.request.requestBatchSize

variable {readRequest rsaEncrypt} {server : EpochServer} {served : List (EpochRound × EpochResponse)}

theorem process_epochNum (server : EpochServer) (readRequest : Bytes → EpochRequest) (rsaEncrypt : Bytes → Bytes)
    (round : EpochRound) :
    (server.process readRequest rsaEncrypt round).1.epochNum = (server.epochNum + 1) % 2 ^ 32 ∨
      (server.process readRequest rsaEncrypt round).1.epochNum = server.epochNum := by
  have either (epochStartTime : Int) :
      (if timeGap ≤ round.processed - epochStartTime then (server.epochNum + 1) % 2 ^ 32 else server.epochNum) =
        (server.epochNum + 1) % 2 ^ 32 ∨
      (if timeGap ≤ round.processed - epochStartTime then (server.epochNum + 1) % 2 ^ 32 else server.epochNum) =
        server.epochNum := by
    split
    · exact .inl rfl
    · exact .inr rfl
  exact either _

theorem Sound.start (now : Int) : Sound (start now) [] where
  positive := Nat.le_refl 1
  bounded := Nat.le_refl 1
  sorted := .nil
  within round member := by cases member
  filled epoch low high := absurd (Nat.lt_of_lt_of_le high low) (Nat.lt_irrefl epoch)
  sizes := rfl
  opened first found := by cases found
  nonempty round member := by cases member

theorem serve_cons (server : EpochServer) (round : EpochRound) (rest : List EpochRound) :
    server.serve readRequest rsaEncrypt (round :: rest) =
      (((server.process readRequest rsaEncrypt round).1.serve readRequest rsaEncrypt rest).1,
        (round, (server.process readRequest rsaEncrypt round).2) ::
          ((server.process readRequest rsaEncrypt round).1.serve readRequest rsaEncrypt rest).2) := rfl

theorem serve_append (server : EpochServer) (rounds more : List EpochRound) :
    (server.serve readRequest rsaEncrypt (rounds ++ more)) =
      (((server.serve readRequest rsaEncrypt rounds).1.serve readRequest rsaEncrypt more).1,
        (server.serve readRequest rsaEncrypt rounds).2 ++
          ((server.serve readRequest rsaEncrypt rounds).1.serve readRequest rsaEncrypt more).2) := by
  induction rounds generalizing server with
  | nil => rfl
  | cons round rest ih =>
    rw [List.cons_append, serve_cons, serve_cons, ih]
    rfl

theorem sizeOf_append (epoch : Nat) (served more : List (EpochRound × EpochResponse)) :
    sizeOf epoch (served ++ more) = sizeOf epoch served + sizeOf epoch more := by
  simp [sizeOf]

theorem sizeOf_single (epoch : Nat) (round : EpochRound × EpochResponse) :
    sizeOf epoch [round] = if round.2.epoch = epoch then round.2.request.requestBatchSize else 0 := by
  unfold sizeOf
  split <;> simp_all

theorem sizeOf_eq_zero {epoch : Nat} (nobody : opener epoch served = none) : sizeOf epoch served = 0 := by
  have empty : served.filter (fun served => served.2.epoch = epoch) = [] :=
    List.filter_eq_nil_iff.mpr (List.find?_eq_none.mp nobody)
  rw [sizeOf, empty]
  rfl

theorem Sound.sizeOf_pos (sound : Sound server served) {epoch : Nat} {first : EpochRound × EpochResponse}
    (found : opener epoch served = some first) : 0 < sizeOf epoch served := by
  rw [opener] at found
  have member := List.mem_of_find?_eq_some found
  have same := List.find?_some found
  refine List.sum_pos_iff_exists_pos_nat.mpr ⟨first.2.request.requestBatchSize, ?_, sound.nonempty first member⟩
  exact List.mem_map.mpr ⟨first, List.mem_filter.mpr ⟨member, same⟩, rfl⟩

theorem Sound.started (sound : Sound server served) (round : EpochRound) {response : EpochResponse}
    (own : response.epoch = server.epochNum) {first : EpochRound × EpochResponse}
    (found : opener server.epochNum (served ++ [(round, response)]) = some first) :
    (if server.epochSizeMap server.epochNum = 0 then round.received else server.epochStartTime) =
      first.1.received := by
  rw [opener, List.find?_append] at found
  rw [sound.sizes]
  dsimp only
  cases before : opener server.epochNum served with
  | none =>
    rw [opener] at before
    rw [before, Option.none_or, List.find?_singleton, if_pos (decide_eq_true own)] at found
    cases found
    rw [if_pos (sizeOf_eq_zero before)]
  | some mate =>
    have some_ := sound.sizeOf_pos before
    rw [if_neg (Nat.ne_of_gt some_), sound.opened mate before]
    rw [opener] at before
    rw [before, Option.some_or] at found
    cases found
    rfl

theorem Sound.process (sound : Sound server served) (round : EpochRound)
    (some_ : 0 < (readRequest round.requestRaw).requestBatchSize)
    (few : sizeOf server.epochNum served + (readRequest round.requestRaw).requestBatchSize < 2 ^ 64)
    (short : server.epochNum + 1 < 2 ^ 32) {next : EpochServer} {response : EpochResponse}
    (processed : server.process readRequest rsaEncrypt round = (next, response)) :
    Sound next (served ++ [(round, response)]) ∧
      ∃ first, opener server.epochNum (served ++ [(round, response)]) = some first ∧ next.epochNum =
        if timeGap ≤ round.processed - first.1.received then server.epochNum + 1 else server.epochNum := by
  have own : response.epoch = server.epochNum := by
    cases processed
    rfl
  have asked : response.request = readRequest round.requestRaw := by
    cases processed
    rfl
  obtain ⟨first, found⟩ : ∃ first, opener server.epochNum (served ++ [(round, response)]) = some first := by
    refine Option.isSome_iff_exists.mp (List.find?_isSome.mpr ⟨(round, response), ?_, decide_eq_true own⟩)
    exact List.mem_append_right _ (List.mem_singleton_self _)
  have started := sound.started round own found
  have time : next.epochStartTime = first.1.received := by
    cases processed
    exact started
  have turned : next.epochNum =
      if timeGap ≤ round.processed - first.1.received then server.epochNum + 1 else server.epochNum := by
    cases processed
    dsimp only [EpochServer.process]
    rw [started, Nat.mod_eq_of_lt short]
  have later : server.epochNum ≤ next.epochNum ∧ next.epochNum ≤ server.epochNum + 1 := by
    rw [turned]
    split <;> omega
  refine ⟨⟨Nat.le_trans sound.positive later.1, ?_, ?_, ?_, ?_, ?_, ?_, ?_⟩, first, found, turned⟩
  · have bounded := sound.bounded
    rw [List.length_append, List.length_singleton]
    omega
  · refine List.pairwise_append.mpr ⟨sound.sorted, List.pairwise_singleton .., fun earlier member last same => ?_⟩
    rw [List.mem_singleton.mp same, own]
    exact sound.within earlier member
  · intro other member
    rcases List.mem_append.mp member with old | new
    · exact Nat.le_trans (sound.within other old) later.1
    · rw [List.mem_singleton.mp new, own]
      exact later.1
  · intro epoch low high
    by_cases last : epoch = server.epochNum
    · exact ⟨(round, response), List.mem_append_right _ (List.mem_singleton_self _), own.trans last.symm⟩
    · obtain ⟨other, member, same⟩ := sound.filled epoch low (by omega)
      exact ⟨other, List.mem_append_left _ member, same⟩
  · funext epoch
    rw [sizeOf_append, sizeOf_single, own, asked]
    cases processed
    dsimp only [EpochServer.process]
    rw [sound.sizes]
    dsimp only
    rw [Nat.mod_eq_of_lt few]
    by_cases same : epoch = server.epochNum
    · rw [same, Function.update_self, if_pos rfl]
    · rw [Function.update_of_ne same, if_neg (Ne.symm same), Nat.add_zero]
  · intro other found'
    rw [time]
    by_cases goes : next.epochNum = server.epochNum
    · rw [goes, found] at found'
      cases found'
      rfl
    · rw [opener] at found'
      have member := List.mem_of_find?_eq_some found'
      have fresh := List.find?_some found'
      rw [decide_eq_true_eq] at fresh
      rcases List.mem_append.mp member with old | new
      · have within := sound.within other old
        omega
      · rw [List.mem_singleton.mp new] at fresh
        exact absurd (fresh.symm.trans own) goes
  · intro other member
    rcases List.mem_append.mp member with old | new
    · exact sound.nonempty other old
    · rw [List.mem_singleton.mp new]
      dsimp only
      rw [asked]
      exact some_

variable {rounds : List EpochRound}

theorem serve_length (server : EpochServer) (rounds : List EpochRound) :
    (server.serve readRequest rsaEncrypt rounds).2.length = rounds.length := by
  induction rounds generalizing server with
  | nil => rfl
  | cons round rest ih => exact congrArg (· + 1) (ih _)

theorem sizeOf_le (server : EpochServer) (epoch : Nat) (rounds : List EpochRound) :
    sizeOf epoch (server.serve readRequest rsaEncrypt rounds).2 ≤ requested readRequest rounds := by
  induction rounds generalizing server with
  | nil => exact Nat.le_refl 0
  | cons round rest ih =>
    have later := ih (server.process readRequest rsaEncrypt round).1
    have split := sizeOf_append epoch [(round, (server.process readRequest rsaEncrypt round).2)]
      ((server.process readRequest rsaEncrypt round).1.serve readRequest rsaEncrypt rest).2
    rw [sizeOf_single, List.singleton_append] at split
    have own : (server.process readRequest rsaEncrypt round).2.request = readRequest round.requestRaw := rfl
    have all : requested readRequest (round :: rest) =
      (readRequest round.requestRaw).requestBatchSize + requested readRequest rest := rfl
    rw [serve_cons, all]
    dsimp only at split ⊢
    rw [split, own]
    split <;> omega

theorem requested_append (rounds more : List EpochRound) :
    requested readRequest (rounds ++ more) = requested readRequest rounds + requested readRequest more := by
  simp [requested]

theorem serve_sound (now : Int) (rounds : List EpochRound)
    (nonempty : ∀ round ∈ rounds, 0 < (readRequest round.requestRaw).requestBatchSize)
    (few : requested readRequest rounds < 2 ^ 64) (short : rounds.length + 1 < 2 ^ 32) :
    Sound ((start now).serve readRequest rsaEncrypt rounds).1 ((start now).serve readRequest rsaEncrypt rounds).2 ∧
      ∀ before round, rounds = before ++ [round] → ∃ first,
        opener ((start now).serve readRequest rsaEncrypt before).1.epochNum
          ((start now).serve readRequest rsaEncrypt rounds).2 = some first ∧
        ((start now).serve readRequest rsaEncrypt rounds).1.epochNum =
          if timeGap ≤ round.processed - first.1.received then
            ((start now).serve readRequest rsaEncrypt before).1.epochNum + 1
          else ((start now).serve readRequest rsaEncrypt before).1.epochNum := by
  induction rounds using List.reverseRecOn with
  | nil =>
    refine ⟨Sound.start now, fun before round same => ?_⟩
    exact absurd (congrArg List.length same) (by simp)
  | append_singleton rounds round ih =>
    rw [requested_append] at few
    rw [List.length_append, List.length_singleton] at short
    have single : requested readRequest [round] = (readRequest round.requestRaw).requestBatchSize := Nat.add_zero _
    obtain ⟨sound, -⟩ := ih (fun other member => nonempty other (List.mem_append_left _ member)) (by omega) (by omega)
    have bounded := sound.bounded
    rw [serve_length] at bounded
    have size_le := @sizeOf_le readRequest rsaEncrypt (start now)
      ((start now).serve readRequest rsaEncrypt rounds).1.epochNum rounds
    have some_ := nonempty round (List.mem_append_right _ (List.mem_singleton_self _))
    rw [serve_append, serve_cons]
    cases processed : ((start now).serve readRequest rsaEncrypt rounds).1.process readRequest rsaEncrypt round with
    | mk next response =>
    have last := sound.process round some_ (by omega) (by omega) processed
    refine ⟨last.1, fun before other same => ?_⟩
    obtain ⟨rfl, one⟩ := List.append_inj' same rfl
    cases one
    exact last.2

/-- The epochs of the answers go up one by one, none is left out, each counts the transactions of its answers, and an
epoch ends with the first answer sent `TIME_GAP` or more after its first request came in. -/
theorem epoch_server_epochs (now : Int) (rounds : List EpochRound) (round : EpochRound)
    (nonempty : ∀ other ∈ rounds ++ [round], 0 < (readRequest other.requestRaw).requestBatchSize)
    (few : requested readRequest (rounds ++ [round]) < 2 ^ 64) (short : (rounds ++ [round]).length + 1 < 2 ^ 32) :
    let before := (start now).serve readRequest rsaEncrypt rounds
    let after := (start now).serve readRequest rsaEncrypt (rounds ++ [round])
    after.2.Pairwise (fun earlier later => earlier.2.epoch ≤ later.2.epoch) ∧
      (∀ epoch, 1 ≤ epoch → epoch < after.1.epochNum → ∃ answered ∈ after.2, answered.2.epoch = epoch) ∧
      (∀ epoch, after.1.epochSizeMap epoch = sizeOf epoch after.2) ∧
      ∃ first, opener before.1.epochNum after.2 = some first ∧ after.1.epochNum =
        if timeGap ≤ round.processed - first.1.received then before.1.epochNum + 1 else before.1.epochNum := by
  obtain ⟨sound, ends⟩ := @serve_sound readRequest rsaEncrypt now (rounds ++ [round]) nonempty few short
  exact ⟨sound.sorted, sound.filled, fun epoch => congrFun sound.sizes epoch, ends rounds round rfl⟩

/-- Two batches: the answer to the second ends the epoch. -/
def twoRounds : List EpochRound := [⟨[1, 2], 0, 0⟩, ⟨[3], 0, 1⟩]

def countBytes (requestRaw : Bytes) : EpochRequest := { requestBatchSize := requestRaw.length, batchHash := requestRaw }

theorem epoch_server_epochs_three :
    let after := (start 0).serve countBytes (fun _ => []) (twoRounds ++ [⟨[4, 5, 6], 5, 5⟩])
    (after.2.map fun answered => answered.2.epoch) = [1, 1, 2] ∧
      ∀ epoch, 1 ≤ epoch → epoch < after.1.epochNum → ∃ answered ∈ after.2, answered.2.epoch = epoch :=
  ⟨rfl, (@epoch_server_epochs countBytes (fun _ => []) 0 twoRounds ⟨[4, 5, 6], 5, 5⟩ (by decide) (by decide)
    (by decide)).2.1⟩

theorem serve_numbers (server : EpochServer) (few : server.totalSize + requested readRequest rounds < 2 ^ 32) :
    (server.serve readRequest rsaEncrypt rounds).1.totalSize = server.totalSize + requested readRequest rounds ∧
      (server.serve readRequest rsaEncrypt rounds).2.Pairwise
        (fun earlier later => earlier.2.nonce + later.2.request.requestBatchSize ≤ later.2.nonce) ∧
      ∀ answered ∈ (server.serve readRequest rsaEncrypt rounds).2,
        server.totalSize + answered.2.request.requestBatchSize ≤ answered.2.nonce ∧
        answered.2.signature = rsaEncrypt answered.2.message := by
  induction rounds generalizing server with
  | nil => exact ⟨rfl, .nil, fun _ member => by cases member⟩
  | cons round rest ih =>
    have split : requested readRequest (round :: rest) =
        (readRequest round.requestRaw).requestBatchSize + requested readRequest rest := rfl
    rw [split] at few
    have total : (server.process readRequest rsaEncrypt round).1.totalSize =
        server.totalSize + (readRequest round.requestRaw).requestBatchSize := Nat.mod_eq_of_lt (by omega)
    have nonce : (server.process readRequest rsaEncrypt round).2.nonce =
        server.totalSize + (readRequest round.requestRaw).requestBatchSize := by
      change (server.process readRequest rsaEncrypt round).1.totalSize % 2 ^ 32 = _
      rw [total]
      exact Nat.mod_eq_of_lt (by omega)
    obtain ⟨last, ordered, above⟩ := ih (server.process readRequest rsaEncrypt round).1 (by omega)
    rw [total] at last above
    rw [serve_cons]
    refine ⟨?_, List.pairwise_cons.mpr ⟨fun later member => ?_, ordered⟩, fun answered member => ?_⟩
    · rw [split, ← Nat.add_assoc]
      exact last
    · exact nonce ▸ (above later member).1
    · rcases List.mem_cons.mp member with rfl | member
      · exact ⟨Nat.le_of_eq nonce.symm, rfl⟩
      · obtain ⟨least, signed⟩ := above answered member
        exact ⟨by omega, signed⟩

/-- The nonces number the transactions: those of two batches are apart, and all together are as many as were asked for;
each response has the signature of its own message. -/
theorem epoch_server_numbers (now : Int) (few : requested readRequest rounds < 2 ^ 32) :
    let after := (start now).serve readRequest rsaEncrypt rounds
    after.1.totalSize = requested readRequest rounds ∧
      after.2.Pairwise (fun earlier later => earlier.2.nonce + later.2.request.requestBatchSize ≤ later.2.nonce) ∧
      ∀ answered ∈ after.2, answered.2.request.requestBatchSize ≤ answered.2.nonce ∧
        answered.2.signature = rsaEncrypt answered.2.message := by
  have zero : (start now).totalSize = 0 := rfl
  have numbers := @serve_numbers readRequest rsaEncrypt rounds (start now) (by omega)
  rw [zero, Nat.zero_add] at numbers
  obtain ⟨total, apart, each⟩ := numbers
  refine ⟨total, apart, fun answered member => ?_⟩
  have own := each answered member
  rw [Nat.zero_add] at own
  exact own

theorem epoch_server_numbers_two :
    let after := (start 0).serve countBytes (fun _ => []) twoRounds
    (after.2.map fun answered => answered.2.nonce) = [2, 3] ∧
      after.2.Pairwise (fun earlier later => earlier.2.nonce + later.2.request.requestBatchSize ≤ later.2.nonce) :=
  ⟨rfl, (@epoch_server_numbers countBytes (fun _ => []) twoRounds 0 (by decide)).2.1⟩

end EpochServer

end Blockchain
