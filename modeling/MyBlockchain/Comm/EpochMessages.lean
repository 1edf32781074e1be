import MyBlockchain.Comm.LocalReceiver
import MyBlockchain.Library.Runs

namespace Blockchain

namespace LocalReceiver

variable {Batch : Type*}

def lastOf : Nat → List (Nat × Batch) → Nat
  | last, [] => last
  | _, response :: rest => lastOf response.1 rest

def SteadyFrom : Nat → List (Nat × Batch) → Prop
  | _, [] => True
  | last, response :: rest => last ≤ response.1 ∧ response.1 ≤ last + 1 ∧ SteadyFrom response.1 rest

def remaining (receiver : LocalReceiver Batch) : List (Nat × Batch) :=
  receiver.held.toList ++ receiver.pendingTransactionsProof

structure Invariant (receiver : LocalReceiver Batch) : Prop where
  positive : 1 ≤ receiver.epoch
  answered : receiver.answered = receiver.done ++ receiver.remaining
  older : ∀ response ∈ receiver.done, response.1 ≤ receiver.epoch
  last : lastOf 1 receiver.done = receiver.epoch
  steady : SteadyFrom receiver.epoch receiver.remaining
  narrow : ∀ response ∈ receiver.remaining, response.1 < 2 ^ 32
  held : ∀ response ∈ receiver.held, response.1 = receiver.epoch + 1 ∧ receiver.transactionSetMulti = []
  sets : receiver.held = none → receiver.transactionSetMulti = ofEpoch receiver.epoch receiver.done
  broadcasts : receiver.broadcasts =
    (List.range' 1 receiver.sent).map fun epoch => (epoch, ofEpoch epoch receiver.done)
  checked : receiver.failed = false

theorem lastOf_append (last : Nat) (first second : List (Nat × Batch)) :
    lastOf last (first ++ second) = lastOf (lastOf last first) second := by
  induction first generalizing last with
  | nil => rfl
  | cons response rest ih => exact ih response.1

theorem steadyFrom_append (last : Nat) (first second : List (Nat × Batch)) :
    SteadyFrom last (first ++ second) ↔ SteadyFrom last first ∧ SteadyFrom (lastOf last first) second := by
  induction first generalizing last with
  | nil => simp [SteadyFrom, lastOf]
  | cons response rest ih =>
    simp only [List.cons_append, SteadyFrom, lastOf, ih, and_assoc]

theorem SteadyFrom.above {last : Nat} {responses : List (Nat × Batch)} (steady : SteadyFrom last responses) :
    ∀ response ∈ responses, last ≤ response.1 := by
  induction responses generalizing last with
  | nil => intro response member; cases member
  | cons first rest ih =>
    intro response member
    rcases List.mem_cons.mp member with rfl | later
    · exact steady.1
    · exact Nat.le_trans steady.1 (ih steady.2.2 response later)

theorem ofEpoch_append (epoch : Nat) (first second : List (Nat × Batch)) :
    ofEpoch epoch (first ++ second) = ofEpoch epoch first ++ ofEpoch epoch second := by
  simp [ofEpoch]

theorem ofEpoch_none {epoch : Nat} {responses : List (Nat × Batch)}
    (other : ∀ response ∈ responses, response.1 ≠ epoch) : ofEpoch epoch responses = [] := by
  unfold ofEpoch
  rw [List.filter_eq_nil_iff.mpr fun response member => by simpa using other response member]
  rfl

variable {receiver next : LocalReceiver Batch}

theorem start_invariant : Invariant (start : LocalReceiver Batch) where
  positive := Nat.le_refl 1
  answered := rfl
  older _ member := by cases member
  last := rfl
  steady := trivial
  narrow _ member := by cases member
  held _ member := by cases member
  sets _ := rfl
  broadcasts := rfl
  checked := rfl

theorem addSet_answered (receiver : LocalReceiver Batch) (response : Nat × Batch) :
    (receiver.addSet response).answered = receiver.answered := by
  unfold addSet
  split <;> rfl

theorem receive_answered (received : receiver.receive = some next) : next.answered = receiver.answered := by
  unfold receive at received
  split at received
  · cases received
  · split at received
    · cases received
    · dsimp only at received
      split at received
      · cases received
        rfl
      · cases received
        exact addSet_answered _ _

theorem release_answered (released : receiver.release = some next) : next.answered = receiver.answered := by
  obtain ⟨response, -, rfl⟩ := Option.map_eq_some_iff.mp released
  exact addSet_answered _ _

theorem Invariant.getReply (invariant : receiver.Invariant) (batch : Batch) {epochNum : Nat}
    (narrow : epochNum < 2 ^ 32) (reached : lastOf 1 receiver.answered ≤ epochNum)
    (gradual : epochNum ≤ lastOf 1 receiver.answered + 1) :
    (receiver.getReply (epochNum, batch)).Invariant := by
  have more : (receiver.getReply (epochNum, batch)).remaining = receiver.remaining ++ [(epochNum, batch)] := by
    simp [remaining, LocalReceiver.getReply]
  have before : lastOf 1 receiver.answered = lastOf receiver.epoch receiver.remaining := by
    rw [invariant.answered, lastOf_append, invariant.last]
  rw [before] at reached gradual
  refine { invariant with answered := ?answered, steady := ?steady, narrow := ?narrow }
  case answered =>
    rw [more]
    show receiver.answered ++ [(epochNum, batch)] = receiver.done ++ (receiver.remaining ++ [(epochNum, batch)])
    rw [invariant.answered, List.append_assoc]
  case steady =>
    rw [more]
    exact (steadyFrom_append _ _ _).mpr ⟨invariant.steady, reached, gradual, trivial⟩
  case narrow =>
    rw [more]
    intro response member
    rcases List.mem_append.mp member with old | new
    · exact invariant.narrow response old
    · rw [List.mem_singleton.mp new]
      exact narrow

theorem broadcasts_done {epoch sent : Nat} (done : List (Nat × Batch)) {response : Nat × Batch}
    (current : response.1 = epoch) (below : sent < epoch) :
    ((List.range' 1 sent).map fun e => (e, ofEpoch e (done ++ [response]))) =
      (List.range' 1 sent).map fun e => (e, ofEpoch e done) := by
  apply List.map_congr_left
  intro e member
  have inside := List.mem_range'_1.mp member
  have other : ofEpoch e [response] = [] := ofEpoch_none fun _ only => by
    rw [List.mem_singleton.mp only]
    omega
  rw [ofEpoch_append, other, List.append_nil]

theorem Invariant.addSet {response : Nat × Batch} (positive : 1 ≤ receiver.epoch) (idle : receiver.held = none)
    (answered : receiver.answered = receiver.done ++ response :: receiver.pendingTransactionsProof)
    (older : ∀ old ∈ receiver.done, old.1 ≤ receiver.epoch) (current : response.1 = receiver.epoch)
    (onward : SteadyFrom response.1 receiver.pendingTransactionsProof)
    (narrow : ∀ later ∈ receiver.pendingTransactionsProof, later.1 < 2 ^ 32)
    (sets : receiver.transactionSetMulti = ofEpoch receiver.epoch receiver.done)
    (broadcasts : receiver.broadcasts =
      (List.range' 1 (receiver.epoch - 1)).map fun epoch => (epoch, ofEpoch epoch receiver.done))
    (checked : receiver.failed = false) : (receiver.addSet response).Invariant := by
  unfold LocalReceiver.addSet
  rw [if_neg (not_not.mpr current)]
  have alone : ofEpoch receiver.epoch [response] = [response.2] := by simp [ofEpoch, current]
  constructor
  case positive => exact positive
  case checked => exact checked
  case answered =>
    show receiver.answered = receiver.done ++ [response] ++ (receiver.held.toList ++ receiver.pendingTransactionsProof)
    rw [answered, idle]
    simp
  case older =>
    intro old member
    rcases List.mem_append.mp member with inside | new
    · exact older old inside
    · rw [List.mem_singleton.mp new]
      exact Nat.le_of_eq current
  case last =>
    rw [lastOf_append]
    exact current
  case steady =>
    show SteadyFrom receiver.epoch (receiver.held.toList ++ receiver.pendingTransactionsProof)
    rw [idle, ← current]
    exact onward
  case narrow =>
    show ∀ later ∈ receiver.held.toList ++ receiver.pendingTransactionsProof, later.1 < 2 ^ 32
    rw [idle]
    exact narrow
  case held =>
    intro held member
    rw [show receiver.held = none from idle] at member
    cases member
  case sets =>
    intro _
    show receiver.transactionSetMulti ++ [response.2] = ofEpoch receiver.epoch (receiver.done ++ [response])
    rw [ofEpoch_append, alone, sets]
  case broadcasts =>
    have before : receiver.sent = receiver.epoch - 1 := by simp [sent, idle]
    show receiver.broadcasts =
      (List.range' 1 receiver.sent).map fun e => (e, ofEpoch e (receiver.done ++ [response]))
    rw [broadcasts_done receiver.done current (by omega), before]
    exact broadcasts

theorem Invariant.hold (invariant : receiver.Invariant) (idle : receiver.held = none)
    {response : Nat × Batch} {rest : List (Nat × Batch)}
    (queue : receiver.pendingTransactionsProof = response :: rest) (ahead : receiver.epoch < response.1) :
    LocalReceiver.Invariant { receiver with
      broadcasts := receiver.broadcasts ++ [(receiver.epoch, receiver.transactionSetMulti)]
      transactionSetMulti := []
      pendingTransactionsProof := rest
      held := some response } := by
  have same : receiver.remaining = response :: rest := by simp [remaining, idle, queue]
  have steady := invariant.steady
  have narrow := invariant.narrow
  have answered := invariant.answered
  rw [same] at steady narrow answered
  refine { invariant with
    answered := answered, steady := steady, narrow := narrow, held := ?held, sets := ?sets
    broadcasts := ?broadcasts }
  case held =>
    intro held member
    cases member
    obtain ⟨-, high, -⟩ := steady
    exact ⟨by dsimp only; omega, rfl⟩
  case sets =>
    intro none
    cases none
  case broadcasts =>
    have before : receiver.sent = receiver.epoch - 1 := by simp [sent, idle]
    show receiver.broadcasts ++ [(receiver.epoch, receiver.transactionSetMulti)] =
      (List.range' 1 receiver.epoch).map fun e => (e, ofEpoch e receiver.done)
    have positive := invariant.positive
    obtain ⟨k, same⟩ : ∃ k, receiver.epoch = k + 1 := ⟨receiver.epoch - 1, by omega⟩
    rw [invariant.broadcasts, before, invariant.sets idle, same, List.range'_1_concat]
    simp [Nat.add_comm]

theorem Invariant.receive (invariant : receiver.Invariant) (received : receiver.receive = some next) :
    next.Invariant := by
  unfold LocalReceiver.receive at received
  split at received
  · cases received
  · next free =>
    have idle : receiver.held = none := by
      cases held : receiver.held with
      | none => rfl
      | some response => exact absurd (.inl (by rw [held]; rfl)) free
    split at received
    · cases received
    · next response rest queue =>
      dsimp only at received
      split at received
      · next ahead =>
        cases received
        exact invariant.hold idle queue ahead
      · next notAhead =>
        have left : receiver.remaining = response :: rest := by simp [remaining, idle, queue]
        have before : receiver.sent = receiver.epoch - 1 := by simp [sent, idle]
        have steady := invariant.steady
        have narrow := invariant.narrow
        have answered := invariant.answered
        have broadcasts := invariant.broadcasts
        rw [left] at steady narrow answered
        rw [before] at broadcasts
        obtain ⟨low, -, onward⟩ := steady
        cases received
        exact .addSet invariant.positive idle answered invariant.older (by dsimp only; omega) onward
          (fun later member => narrow later (.tail _ member)) (invariant.sets idle) broadcasts invariant.checked

theorem Invariant.release (invariant : receiver.Invariant) (released : receiver.release = some next) :
    next.Invariant := by
  obtain ⟨response, held, rfl⟩ := Option.map_eq_some_iff.mp released
  obtain ⟨current, empty⟩ := invariant.held response held
  have left : receiver.remaining = response :: receiver.pendingTransactionsProof := by simp [remaining, held]
  have before : receiver.sent = receiver.epoch := by simp [sent, held]
  have steady := invariant.steady
  have narrow := invariant.narrow
  have answered := invariant.answered
  have broadcasts := invariant.broadcasts
  rw [left] at steady narrow answered
  rw [before] at broadcasts
  obtain ⟨-, -, onward⟩ := steady
  have nothing : ofEpoch (receiver.epoch + 1) receiver.done = [] := ofEpoch_none fun old member => by
    have bound := invariant.older old member
    omega
  -- the held answer is of the next epoch, so that this epoch is not the last one
  have first := narrow response (.head _)
  rw [Nat.mod_eq_of_lt (show receiver.epoch + 1 < 2 ^ 32 by omega)]
  exact .addSet (Nat.le_succ_of_le invariant.positive) rfl answered
    (fun old member => Nat.le_succ_of_le (invariant.older old member)) current onward
    (fun later member => narrow later (.tail _ member)) (empty.trans nothing.symm) broadcasts invariant.checked

theorem Invariant.keepsUp (invariant : receiver.Invariant) : KeepsUp receiver where
  checked := invariant.checked
  broadcasts := by
    rw [invariant.broadcasts]
    apply List.map_congr_left
    intro e member
    have inside := List.mem_range'_1.mp member
    have later : ∀ response ∈ receiver.remaining, e < response.1 := by
      intro response left
      have steady := invariant.steady
      cases held : receiver.held with
      | none =>
        have bound := steady.above response left
        have before : receiver.sent = receiver.epoch - 1 := by simp [sent, held]
        have positive := invariant.positive
        omega
      | some first =>
        have parts : receiver.remaining = first :: receiver.pendingTransactionsProof := by simp [remaining, held]
        have before : receiver.sent = receiver.epoch := by simp [sent, held]
        have current := (invariant.held first held).1
        rw [parts] at steady left
        rcases List.mem_cons.mp left with rfl | behind
        · omega
        · have bound := steady.2.2.above response behind
          omega
    have none : ofEpoch e receiver.remaining = [] := ofEpoch_none fun response left => by
      have bound := later response left
      omega
    rw [invariant.answered, ofEpoch_append, none, List.append_nil]

end LocalReceiver

namespace EpochSystem

variable {servers : Nat} {Batch : Type*}

/-- The epoch server is in the epoch of its last answer to a server or in the one after it when the next batch of that
server comes. -/
def Gradual (system : EpochSystem servers Batch) : EpochMove servers Batch → Prop
  | .request server _ _ =>
    LocalReceiver.lastOf 1 (system.local_ server).answered ≤ system.epochNum ∧
      system.epochNum ≤ LocalReceiver.lastOf 1 (system.local_ server).answered + 1
  | _ => True

instance (system : EpochSystem servers Batch) (move : EpochMove servers Batch) : Decidable (system.Gradual move) :=
  match move with
  | .request _ _ _ => inferInstanceAs (Decidable (_ ∧ _))
  | .receiveFromLocalServer _ | .receiveFromOtherServer _ _ | .release _ => .isTrue trivial

structure Invariant (system : EpochSystem servers Batch) : Prop where
  local_ : ∀ server, (system.local_ server).Invariant
  narrow : system.epochNum < 2 ^ 32

variable {system next : EpochSystem servers Batch}

theorem start_invariant : (start : EpochSystem servers Batch).Invariant where
  local_ _ := LocalReceiver.start_invariant
  narrow := show 1 < 2 ^ 32 by decide

theorem Invariant.setLocal (invariant : system.Invariant) (server : Fin servers) {receiver : LocalReceiver Batch}
    (kept : receiver.Invariant) : (system.setLocal server receiver).Invariant where
  local_ other := by
    show (Function.update system.local_ server receiver other).Invariant
    by_cases same : other = server
    · subst same
      rw [Function.update_self]
      exact kept
    · rw [Function.update_of_ne same]
      exact invariant.local_ other
  narrow := invariant.narrow

theorem Invariant.step {move : EpochMove servers Batch} (invariant : system.Invariant)
    (gradual : system.Gradual move) (done : system.step move = some next) : next.Invariant := by
  cases move with
  | request server batch increment =>
    cases done
    obtain ⟨reached, gradual⟩ := gradual
    have answered := (invariant.local_ server).getReply batch invariant.narrow reached gradual
    refine ⟨(invariant.setLocal server answered).local_, ?_⟩
    show (if increment then (system.epochNum + 1) % 2 ^ 32 else system.epochNum) < 2 ^ 32
    split
    · exact Nat.mod_lt _ (by decide)
    · exact invariant.narrow
  | receiveFromLocalServer server =>
    obtain ⟨receiver, received, rfl⟩ := Option.map_eq_some_iff.mp done
    exact invariant.setLocal server ((invariant.local_ server).receive received)
  | receiveFromOtherServer server other =>
    obtain ⟨-, same⟩ := Option.ite_none_right_eq_some.mp done
    cases same
    exact ⟨invariant.local_, invariant.narrow⟩
  | release server =>
    obtain ⟨-, mapped⟩ := Option.ite_none_right_eq_some.mp done
    obtain ⟨receiver, released, rfl⟩ := Option.map_eq_some_iff.mp mapped
    exact invariant.setLocal server ((invariant.local_ server).release released)

theorem run_invariant {moves : List (EpochMove servers Batch)} (gradual : Runs.Along step Gradual start moves)
    (completed : start.run moves = some next) : next.Invariant :=
  Runs.invariant_along Invariant (fun done gradual invariant => invariant.step gradual done) completed gradual
    start_invariant

def increments : EpochMove servers Batch → Bool
  | .request _ _ increment => increment
  | _ => false

/-- With one server every answer is to it, and the epoch server increments at most once between two of them. -/
theorem single_server_gradual {system : EpochSystem 1 Batch} (moves : List (EpochMove 1 Batch))
    (reached : LocalReceiver.lastOf 1 (system.local_ 0).answered ≤ system.epochNum)
    (near : system.epochNum ≤ LocalReceiver.lastOf 1 (system.local_ 0).answered + 1)
    (short : system.epochNum + moves.countP increments < 2 ^ 32) : Runs.Along step Gradual system moves := by
  induction moves generalizing system with
  | nil => trivial
  | cons move rest ih =>
    rw [List.countP_cons] at short
    have here : system.Gradual move := by
      cases move with
      | request server batch increment =>
        obtain rfl : server = 0 := Subsingleton.elim _ _
        exact ⟨reached, near⟩
      | _ => trivial
    -- an answer of the receiver's past does not move when it works on another
    have quiet : ∀ {next : EpochSystem 1 Batch}, next.epochNum = system.epochNum →
        (next.local_ 0).answered = (system.local_ 0).answered → Runs.Along step Gradual next rest := by
      intro next epochNum answered
      refine ih ?_ ?_ ?_
      · rw [epochNum, answered]
        exact reached
      · rw [epochNum, answered]
        exact near
      · rw [epochNum]
        omega
    refine ⟨here, fun next done => ?_⟩
    cases move with
    | request server batch increment =>
      cases done
      obtain rfl : server = 0 := Subsingleton.elim _ _
      change system.epochNum + (rest.countP increments + if increment then 1 else 0) < 2 ^ 32 at short
      have answered : LocalReceiver.lastOf 1 ((system.local_ 0).answered ++ [(system.epochNum, batch)]) =
          system.epochNum := LocalReceiver.lastOf_append ..
      have turned : (if increment then (system.epochNum + 1) % 2 ^ 32 else system.epochNum) =
          system.epochNum + if increment then 1 else 0 := by
        cases increment with
        | false => rfl
        | true =>
          simp only [if_true] at short ⊢
          exact Nat.mod_eq_of_lt (by omega)
      refine ih ?_ ?_ ?_
      · show LocalReceiver.lastOf 1 ((system.local_ 0).answered ++ [(system.epochNum, batch)]) ≤
          if increment then (system.epochNum + 1) % 2 ^ 32 else system.epochNum
        rw [answered, turned]
        exact Nat.le_add_right _ _
      · show (if increment then (system.epochNum + 1) % 2 ^ 32 else system.epochNum) ≤
          LocalReceiver.lastOf 1 ((system.local_ 0).answered ++ [(system.epochNum, batch)]) + 1
        rw [answered, turned]
        split <;> omega
      · show (if increment then (system.epochNum + 1) % 2 ^ 32 else system.epochNum) +
          rest.countP increments < 2 ^ 32
        rw [turned]
        omega
    | receiveFromLocalServer server =>
      obtain ⟨receiver, received, rfl⟩ := Option.map_eq_some_iff.mp done
      obtain rfl : server = 0 := Subsingleton.elim _ _
      exact quiet rfl (LocalReceiver.receive_answered received)
    | receiveFromOtherServer server other =>
      obtain ⟨-, same⟩ := Option.ite_none_right_eq_some.mp done
      cases same
      exact quiet rfl rfl
    | release server =>
      obtain ⟨-, mapped⟩ := Option.ite_none_right_eq_some.mp done
      obtain ⟨receiver, released, rfl⟩ := Option.map_eq_some_iff.mp mapped
      obtain rfl : server = 0 := Subsingleton.elim _ _
      exact quiet rfl (LocalReceiver.release_answered released)

theorem single_server_keeps_up {system : EpochSystem 1 Batch} {moves : List (EpochMove 1 Batch)}
    (short : moves.countP increments + 1 < 2 ^ 32) (completed : (start : EpochSystem 1 Batch).run moves = some system) :
    (system.local_ 0).KeepsUp := by
  have gradual : Runs.Along step Gradual start moves := by
    refine single_server_gradual moves (Nat.le_refl 1) (Nat.le_succ 1) ?_
    show 1 + moves.countP increments < 2 ^ 32
    omega
  exact ((run_invariant gradual completed).local_ 0).keepsUp

end EpochSystem

open EpochSystem in
/-- Every server keeps up in a run in which no batch finds the epoch server two epochs ahead of the last answer, or
back behind it. -/
theorem local_receiver_keeps_up {servers : Nat} {Batch : Type*} {moves : List (EpochMove servers Batch)}
    (gradual : Runs.Along step Gradual (start : EpochSystem servers Batch) moves) {system : EpochSystem servers Batch}
    (completed : start.run moves = some system) (server : Fin servers) : (system.local_ server).KeepsUp :=
  ((run_invariant gradual completed).local_ server).keepsUp

def sharedEpoch : List (EpochMove 2 Nat) :=
  [.request 0 10 false, .request 1 20 true, .request 0 11 false, .request 1 21 false, .receiveFromLocalServer 0,
    .receiveFromLocalServer 0, .receiveFromLocalServer 1, .receiveFromLocalServer 1, .receiveFromOtherServer 0 1,
    .release 0]

theorem local_receiver_keeps_up_two :
    ∃ system, (EpochSystem.start : EpochSystem 2 Nat).run sharedEpoch = some system ∧
      (system.local_ 0).broadcasts = [(1, [10])] ∧ (system.local_ 0).epoch = 2 ∧ (system.local_ 0).KeepsUp :=
  ⟨_, rfl, rfl, rfl, local_receiver_keeps_up (by decide)
    (show (EpochSystem.start : EpochSystem 2 Nat).run sharedEpoch = some _ from rfl) 0⟩

def skippedEpoch : List (EpochMove 2 Nat) :=
  [.request 0 10 false, .request 1 20 true, .request 1 21 true, .request 0 11 false, .receiveFromLocalServer 0,
    .receiveFromLocalServer 0, .receiveFromLocalServer 1, .receiveFromLocalServer 1, .receiveFromOtherServer 0 1,
    .release 0]

theorem skipped_epoch_fails_check :
    ∃ system, (EpochSystem.start : EpochSystem 2 Nat).run skippedEpoch = some system ∧
      (system.local_ 0).failed = true ∧ ¬ (system.local_ 0).KeepsUp :=
  ⟨_, rfl, rfl, fun keepsUp => absurd keepsUp.checked (by decide)⟩

end Blockchain
