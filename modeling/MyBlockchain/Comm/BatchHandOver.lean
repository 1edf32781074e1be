import MyBlockchain.Comm.SingleProducer

namespace Blockchain

/-- The thread of the user collector and the local receiver thread, with the queues between them. `transaction` and
`proof` are what `newTransactionHandle` still has to enqueue. Ghost: what it was called with. -/
structure BatchHandOver (Tx Proof : Type*) where
  pendingTransactions : BlockingConcurrentQueue Party Tx
  pendingTransactionsProof : BlockingConcurrentQueue Party Proof
  transaction : List Tx
  proof : Option Proof
  handed : List (List Tx × Proof)

/-- `enqueue` and `dequeue` are the next calls that `newTransactionHandle` and `receiveFromLocalServer` make. -/
inductive HandOverMove (Tx Proof : Type*)
  | newTransactionHandle (transaction : List Tx) (proof : Proof)
  | enqueue
  | dequeue
  | transactions (move : QueueMove Party Tx)
  | proofs (move : QueueMove Party Proof)

namespace BatchHandOver

open BlockingConcurrentQueue (Supplied)

variable {Tx Proof : Type*} {batchSize : Proof → Nat} {maxSpins : Nat} {system after : BatchHandOver Tx Proof}

def start : BatchHandOver Tx Proof := ⟨.start, .start, [], none, []⟩

def responseRaw (system : BatchHandOver Tx Proof) : Option Proof :=
  if system.pendingTransactions.returned.length < system.pendingTransactionsProof.delivered.length then
    system.pendingTransactionsProof.delivered.getLast?
  else none

def step (batchSize : Proof → Nat) (maxSpins : Nat) (system : BatchHandOver Tx Proof) :
    HandOverMove Tx Proof → Option (BatchHandOver Tx Proof)
  | .newTransactionHandle transaction proof =>
    match system.transaction, system.proof, system.pendingTransactionsProof.stage .collector with
    | [], none, .idle =>
      some { system with transaction, proof := some proof, handed := system.handed ++ [(transaction, proof)] }
    | _, _, _ => none
  | .enqueue =>
    match system.transaction, system.proof, system.pendingTransactions.stage .collector with
    | data :: rest, _, .idle =>
      (system.pendingTransactions.step maxSpins (.call .collector (.enqueue data))).map fun queue =>
        { system with pendingTransactions := queue, transaction := rest }
    | [], some proof, .idle =>
      (system.pendingTransactionsProof.step maxSpins (.call .collector (.enqueue proof))).map fun queue =>
        { system with pendingTransactionsProof := queue, proof := none }
    | _, _, _ => none
  | .dequeue =>
    match system.pendingTransactions.stage .receiver, system.responseRaw with
    | .idle, none =>
      (system.pendingTransactionsProof.step maxSpins (.call .receiver .wait_dequeue)).map fun queue =>
        { system with pendingTransactionsProof := queue }
    | .idle, some responseRaw =>
      (system.pendingTransactions.step maxSpins (.call .receiver (.wait_dequeue_bulk (batchSize responseRaw)))).map
        fun queue => { system with pendingTransactions := queue }
    | _, _ => none
  | .transactions move =>
    if move.inOrder then
      (system.pendingTransactions.step maxSpins move).map fun queue => { system with pendingTransactions := queue }
    else none
  | .proofs move =>
    if move.inOrder then
      (system.pendingTransactionsProof.step maxSpins move).map fun queue =>
        { system with pendingTransactionsProof := queue }
    else none

def received (system : BatchHandOver Tx Proof) : List (List Tx × Proof) :=
  (system.pendingTransactions.returned.map Prod.snd).zip system.pendingTransactionsProof.delivered

inductive Turn (system : BatchHandOver Tx Proof) : Prop
  | proof (even : system.pendingTransactionsProof.delivered.length = system.pendingTransactions.returned.length)
      (idle : system.pendingTransactions.stage .receiver = .idle)
  | batch (odd : system.pendingTransactionsProof.delivered.length = system.pendingTransactions.returned.length + 1)
      (idle : system.pendingTransactionsProof.stage .receiver = .idle)
      (takes : system.pendingTransactions.stage .receiver = .idle ∨
        ∃ batch, system.handed[system.pendingTransactions.returned.length]? = some batch ∧
          Supplied batch.1.length system.pendingTransactions.sema.count (system.pendingTransactions.stage .receiver))

structure Invariant (system : BatchHandOver Tx Proof) : Prop where
  transactions : system.pendingTransactions.Channel
  proofs : system.pendingTransactionsProof.Channel
  put : system.pendingTransactions.entered ++ (system.pendingTransactions.stage .collector).pending ++
    system.transaction = system.handed.flatMap Prod.fst
  putProofs : system.pendingTransactionsProof.entered ++ (system.pendingTransactionsProof.stage .collector).pending ++
    system.proof.toList = system.handed.map Prod.snd
  first : system.proof = none → system.transaction = [] ∧ system.pendingTransactions.stage .collector = .idle
  later : system.proof ≠ none → system.pendingTransactionsProof.stage .collector = .idle
  ready : ∀ count ≤ system.pendingTransactionsProof.entered.length,
    ((system.handed.take count).flatMap Prod.fst).length ≤ system.pendingTransactions.signalled
  took : system.pendingTransactions.returned.map Prod.snd =
    (system.handed.take system.pendingTransactions.returned.length).map Prod.fst
  single : ∀ answer ∈ system.pendingTransactionsProof.returned, answer.1 = .wait_dequeue
  asks : ∀ call, (system.pendingTransactionsProof.stage .receiver).call = some call → call = .wait_dequeue
  turn : system.Turn

namespace Invariant

theorem start : (start : BatchHandOver Tx Proof).Invariant where
  transactions := .start
  proofs := .start
  put := rfl
  putProofs := rfl
  first _ := ⟨rfl, rfl⟩
  later missing := absurd rfl missing
  ready count none := by rw [Nat.le_zero.mp none]; exact Nat.zero_le _
  took := rfl
  single _ member := by cases member
  asks _ call := by cases call
  turn := .proof rfl rfl

end Invariant

theorem Turn.keeps (turn : system.Turn) (handed : ∃ more, after.handed = system.handed ++ more)
    (returned : after.pendingTransactions.returned = system.pendingTransactions.returned)
    (delivered : after.pendingTransactionsProof.delivered = system.pendingTransactionsProof.delivered)
    (idle : system.pendingTransactionsProof.stage .receiver = .idle →
      after.pendingTransactionsProof.stage .receiver = .idle)
    (idle' : system.pendingTransactions.stage .receiver = .idle → after.pendingTransactions.stage .receiver = .idle)
    (supplied : ∀ max,
      Supplied max system.pendingTransactions.sema.count (system.pendingTransactions.stage .receiver) →
        Supplied max after.pendingTransactions.sema.count (after.pendingTransactions.stage .receiver)) :
    after.Turn := by
  cases turn with
  | proof even here => exact .proof (by rw [delivered, returned, even]) (idle' here)
  | batch odd here takes =>
    refine .batch (by rw [delivered, returned, odd]) (idle here) ?_
    rcases takes with free | ⟨batch, found, there⟩
    · exact .inl (idle' free)
    · obtain ⟨more, grown⟩ := handed
      obtain ⟨within, -⟩ := List.getElem?_eq_some_iff.mp found
      refine .inr ⟨batch, ?_, supplied _ there⟩
      rw [returned, grown, List.getElem?_append_left within, found]

namespace Invariant

theorem entered_le (invariant : system.Invariant) :
    system.pendingTransactionsProof.entered.length ≤ system.handed.length := by
  have size := congrArg List.length invariant.putProofs
  rw [List.length_append, List.length_append, List.length_map] at size
  omega

theorem returned_le (invariant : system.Invariant) :
    system.pendingTransactions.returned.length ≤ system.handed.length := by
  have size := congrArg List.length invariant.took
  rw [List.length_map, List.length_map, List.length_take] at size
  omega

theorem handle (invariant : system.Invariant) {transaction : List Tx} {proof : Proof}
    (handled : system.step batchSize maxSpins (.newTransactionHandle transaction proof) = some after) :
    after.Invariant := by
  simp only [step] at handled
  split at handled
  · rename_i nothing none idle
    cases handled
    exact {
      transactions := invariant.transactions
      proofs := invariant.proofs
      put := by
        have put := invariant.put
        rw [nothing, List.append_nil] at put
        rw [List.flatMap_append, List.flatMap_singleton, put]
      putProofs := by
        have put := invariant.putProofs
        rw [none, Option.toList_none, List.append_nil] at put
        rw [List.map_append, List.map_singleton, put, Option.toList_some]
      first := fun missing => by cases missing
      later := fun _ => idle
      ready := fun count entered => by
        rw [List.take_append_of_le_length (Nat.le_trans entered invariant.entered_le)]
        exact invariant.ready count entered
      took := by
        rw [List.take_append_of_le_length invariant.returned_le]
        exact invariant.took
      single := invariant.single
      asks := invariant.asks
      turn := invariant.turn.keeps ⟨_, rfl⟩ rfl rfl id id fun _ => id }
  · cases handled

theorem all_signalled (invariant : system.Invariant) (none : system.proof = none) (count : Nat) :
    ((system.handed.take count).flatMap Prod.fst).length ≤ system.pendingTransactions.signalled := by
  obtain ⟨nothing, idle⟩ := invariant.first none
  have put := invariant.put
  rw [nothing, idle, QueueStage.pending_idle, List.append_nil, List.append_nil] at put
  rw [BlockingConcurrentQueue.signalled, put, idle]
  conv_rhs => rw [← List.take_append_drop count system.handed, List.flatMap_append, List.length_append]
  exact Nat.le_add_right _ _

theorem enqueue (invariant : system.Invariant) (called : system.step batchSize maxSpins .enqueue = some after) :
    after.Invariant := by
  simp only [step] at called
  split at called
  · rename_i data rest some idle
    obtain ⟨queue, stepped, rfl⟩ := Option.map_eq_some_iff.mp called
    obtain ⟨channel, signalled⟩ := invariant.transactions.send stepped
    obtain ⟨-, rfl⟩ := BlockingConcurrentQueue.call_cases stepped
    have put := invariant.put
    rw [idle, QueueStage.pending_idle, List.append_nil, some] at put
    exact {
      transactions := channel
      proofs := invariant.proofs
      put := (List.append_assoc ..).trans put
      putProofs := invariant.putProofs
      first := fun missing => by
        rw [(invariant.first missing).1] at some
        cases some
      later := invariant.later
      ready := fun count entered => signalled ▸ invariant.ready count entered
      took := invariant.took
      single := invariant.single
      asks := invariant.asks
      turn := invariant.turn.keeps ⟨[], (List.append_nil _).symm⟩ rfl rfl id id fun _ => id }
  · rename_i proof nothing some idle
    obtain ⟨queue, stepped, rfl⟩ := Option.map_eq_some_iff.mp called
    obtain ⟨channel, -⟩ := invariant.proofs.send stepped
    obtain ⟨free, rfl⟩ := BlockingConcurrentQueue.call_cases stepped
    have put := invariant.putProofs
    rw [free, QueueStage.pending_idle, List.append_nil, some] at put
    exact {
      transactions := invariant.transactions
      proofs := channel
      put := invariant.put
      putProofs := (List.append_nil _).trans put
      first := fun _ => ⟨nothing, idle⟩
      later := fun sent => absurd rfl sent
      ready := invariant.ready
      took := invariant.took
      single := invariant.single
      asks := invariant.asks
      turn := invariant.turn.keeps ⟨[], (List.append_nil _).symm⟩ rfl rfl id id fun _ => id }
  · cases called

theorem delivered_length {queue : BlockingConcurrentQueue Party Proof} (sound : queue.Sound)
    (single : ∀ answer ∈ queue.returned, answer.1 = .wait_dequeue) :
    queue.delivered.length = queue.returned.length := by
  have one : ∀ answer ∈ queue.returned, answer.2.length = 1 := by
    intro answer member
    obtain ⟨most, least⟩ := sound.answers answer member
    rw [single answer member] at most least
    exact Nat.le_antisymm most (least rfl)
  rw [BlockingConcurrentQueue.delivered, List.length_flatMap, List.map_congr_left one, List.map_const',
    List.sum_replicate_nat, Nat.mul_one]

theorem delivered_eq (invariant : system.Invariant) : system.pendingTransactions.delivered =
    (system.handed.take system.pendingTransactions.returned.length).flatMap Prod.fst := by
  rw [BlockingConcurrentQueue.delivered, List.flatMap_def, List.flatMap_def, invariant.took]

theorem delivered_prefix (invariant : system.Invariant) :
    system.pendingTransactionsProof.delivered <+: system.handed.map Prod.snd := by
  rw [← invariant.putProofs, invariant.proofs.order]
  simp only [List.append_assoc]
  exact List.prefix_append _ _

theorem batches_eq (invariant : system.Invariant) {batch : List Tx × Proof}
    (found : system.handed[system.pendingTransactions.returned.length]? = some batch) :
    system.handed.take (system.pendingTransactions.returned.length + 1) =
        system.handed.take system.pendingTransactions.returned.length ++ [batch] ∧
      ∃ later, system.handed.flatMap Prod.fst = system.pendingTransactions.delivered ++ (batch.1 ++ later) := by
  have first : system.handed.take (system.pendingTransactions.returned.length + 1) =
      system.handed.take system.pendingTransactions.returned.length ++ [batch] := by
    rw [List.take_add_one, found, Option.toList_some]
  refine ⟨first, (system.handed.drop (system.pendingTransactions.returned.length + 1)).flatMap Prod.fst, ?_⟩
  conv_lhs => rw [← List.take_append_drop (system.pendingTransactions.returned.length + 1) system.handed]
  rw [first, invariant.delivered_eq, List.flatMap_append, List.flatMap_append, List.flatMap_singleton,
    List.append_assoc]

theorem proofs_step (invariant : system.Invariant) {move : QueueMove Party Proof}
    (moved : system.step batchSize maxSpins (.proofs move) = some after) : after.Invariant := by
  simp only [step] at moved
  split at moved
  · rename_i inOrder
    obtain ⟨queue, stepped, rfl⟩ := Option.map_eq_some_iff.mp moved
    have proceeds := invariant.proofs.proceeds stepped inOrder
    have entered (busy : system.proof ≠ none) : queue.entered = system.pendingTransactionsProof.entered := by
      have put := proceeds.put
      rw [proceeds.idle (invariant.later busy), invariant.later busy] at put
      simpa using put
    have single : ∀ answer ∈ queue.returned, answer.1 = .wait_dequeue := by
      intro answer member
      rcases proceeds.returned with ⟨same, -⟩ | ⟨call, got, here, more, -⟩
      · exact invariant.single answer (same ▸ member)
      · rw [more] at member
        rcases List.mem_append.mp member with old | new
        · exact invariant.single answer old
        · rw [List.mem_singleton.mp new]
          exact invariant.asks call (by rw [here]; rfl)
    exact {
      transactions := invariant.transactions
      proofs := proceeds.channel
      put := invariant.put
      putProofs := by
        rw [proceeds.put]
        exact invariant.putProofs
      first := invariant.first
      later := fun busy => proceeds.idle (invariant.later busy)
      ready := fun count most => by
        by_cases sent : system.proof = none
        · exact invariant.all_signalled sent count
        · exact invariant.ready count (entered sent ▸ most)
      took := invariant.took
      single := single
      asks := fun call here => by
        rcases proceeds.returned with ⟨-, same⟩ | ⟨_, _, -, -, idle⟩
        · exact invariant.asks call (same ▸ here)
        · rw [idle] at here
          cases here
      turn := by
        rcases proceeds.returned with ⟨same, calls⟩ | ⟨call, got, here, more, idle⟩
        · refine invariant.turn.keeps ⟨[], (List.append_nil _).symm⟩ rfl ?_ (fun free => ?_) id fun _ => id
          · rw [BlockingConcurrentQueue.delivered, BlockingConcurrentQueue.delivered, same]
          · rw [free] at calls
            exact QueueStage.idle_of_call calls
        · cases invariant.turn with
          | proof even free =>
            refine .batch ?_ idle (.inl free)
            rw [delivered_length proceeds.channel.sound single, more, List.length_append, List.length_singleton,
              ← delivered_length invariant.proofs.sound invariant.single, even]
          | batch odd free takes =>
            rw [here] at free
            cases free }
  · cases moved

theorem last_proof (invariant : system.Invariant) {responseRaw : Proof}
    (odd : system.pendingTransactionsProof.delivered.length = system.pendingTransactions.returned.length + 1)
    (last : system.pendingTransactionsProof.delivered.getLast? = some responseRaw) :
    ∃ batch, system.handed[system.pendingTransactions.returned.length]? = some batch ∧ batch.2 = responseRaw := by
  obtain ⟨front, delivered⟩ := List.getLast?_eq_some_iff.mp last
  obtain ⟨later, all⟩ := invariant.delivered_prefix
  rw [delivered, List.length_append, List.length_singleton] at odd
  have there : (system.handed.map Prod.snd)[front.length]? = some responseRaw := by
    rw [← all, delivered]
    simp
  rw [Nat.add_right_cancel odd, List.getElem?_map] at there
  exact Option.map_eq_some_iff.mp there

theorem enough (invariant : system.Invariant) {batch : List Tx × Proof}
    (odd : system.pendingTransactionsProof.delivered.length = system.pendingTransactions.returned.length + 1)
    (idle : system.pendingTransactions.stage .receiver = .idle)
    (found : system.handed[system.pendingTransactions.returned.length]? = some batch) :
    batch.1.length ≤ system.pendingTransactions.sema.count := by
  have count := invariant.transactions.count_eq idle
  have size := congrArg List.length invariant.proofs.order
  rw [List.length_append, List.length_append] at size
  have ready := invariant.ready (system.pendingTransactions.returned.length + 1) (by omega)
  rw [(invariant.batches_eq found).1, List.flatMap_append, List.flatMap_singleton, ← invariant.delivered_eq,
    List.length_append] at ready
  omega

theorem dequeue (invariant : system.Invariant) (sized : ∀ batch ∈ system.handed, batch.1.length = batchSize batch.2)
    (called : system.step batchSize maxSpins .dequeue = some after) : after.Invariant := by
  simp only [step] at called
  split at called
  · rename_i idle none
    obtain ⟨queue, stepped, rfl⟩ := Option.map_eq_some_iff.mp called
    obtain ⟨channel, -⟩ := invariant.proofs.take rfl stepped
    obtain ⟨free, rfl⟩ := BlockingConcurrentQueue.call_cases stepped
    exact {
      transactions := invariant.transactions
      proofs := channel
      put := invariant.put
      putProofs := invariant.putProofs
      first := invariant.first
      later := invariant.later
      ready := invariant.ready
      took := invariant.took
      single := invariant.single
      asks := fun call here => by
        cases here
        rfl
      turn := by
        cases invariant.turn with
        | proof even free => exact .proof even free
        | batch odd _ takes =>
          rw [responseRaw, if_pos (by omega), List.getLast?_eq_none_iff] at none
          rw [none] at odd
          cases odd }
  · rename_i responseRaw idle some
    cases invariant.turn with
    | proof even free =>
      rw [BatchHandOver.responseRaw, if_neg (by omega)] at some
      cases some
    | batch odd free takes =>
      rw [BatchHandOver.responseRaw, if_pos (by omega)] at some
      obtain ⟨batch, found, rfl⟩ := invariant.last_proof odd some
      rw [← sized batch (List.mem_of_getElem? found)] at called
      obtain ⟨queue, stepped, rfl⟩ := Option.map_eq_some_iff.mp called
      obtain ⟨channel, -⟩ := invariant.transactions.take rfl stepped
      obtain ⟨-, rfl⟩ := BlockingConcurrentQueue.call_cases stepped
      exact {
        transactions := channel
        proofs := invariant.proofs
        put := invariant.put
        putProofs := invariant.putProofs
        first := invariant.first
        later := invariant.later
        ready := invariant.ready
        took := invariant.took
        single := invariant.single
        asks := invariant.asks
        turn := .batch odd free (.inr ⟨batch, found, .load (invariant.enough odd idle found)⟩) }
  · cases called

theorem next_batch (invariant : system.Invariant) {move : QueueMove Party Tx} {queue : BlockingConcurrentQueue Party Tx}
    {call : QueueCall Tx} {got : List Tx} (stepped : system.pendingTransactions.step maxSpins move = some queue)
    (inOrder : move.inOrder = true) (here : system.pendingTransactions.stage .receiver = .dequeue call got.length got)
    (more : queue.returned = system.pendingTransactions.returned ++ [(call, got)])
    (idle : queue.stage .receiver = .idle) :
    ∃ batch, system.handed[system.pendingTransactions.returned.length]? = some batch ∧ batch.1 = got := by
  have proceeds := invariant.transactions.proceeds stepped inOrder
  cases invariant.turn with
  | proof even free =>
    rw [here] at free
    cases free
  | batch odd free takes =>
    rcases takes with free | ⟨batch, found, there⟩
    · rw [here] at free
      cases free
    · rw [here] at there
      refine ⟨batch, found, ?_⟩
      obtain ⟨-, later, all⟩ := invariant.batches_eq found
      have put := invariant.put
      have delivered : queue.delivered = system.pendingTransactions.delivered ++ got := by
        rw [BlockingConcurrentQueue.delivered, more, List.flatMap_append, List.flatMap_singleton]
        rfl
      rw [← proceeds.put, proceeds.channel.order, idle, delivered, all] at put
      simp only [List.append_assoc] at put
      exact (List.append_inj_left (List.append_cancel_left put) there.dequeued).symm

theorem transactions_step (invariant : system.Invariant) {move : QueueMove Party Tx}
    (moved : system.step batchSize maxSpins (.transactions move) = some after) : after.Invariant := by
  simp only [step] at moved
  split at moved
  · rename_i inOrder
    obtain ⟨queue, stepped, rfl⟩ := Option.map_eq_some_iff.mp moved
    have proceeds := invariant.transactions.proceeds stepped inOrder
    exact {
      transactions := proceeds.channel
      proofs := invariant.proofs
      put := by
        rw [proceeds.put]
        exact invariant.put
      putProofs := invariant.putProofs
      first := fun none => ⟨(invariant.first none).1, proceeds.idle (invariant.first none).2⟩
      later := invariant.later
      ready := fun count most => Nat.le_trans (invariant.ready count most) proceeds.signalled
      took := by
        rcases proceeds.returned with ⟨same, -⟩ | ⟨call, got, here, more, idle⟩
        · rw [same]
          exact invariant.took
        · obtain ⟨batch, found, rfl⟩ := invariant.next_batch stepped inOrder here more idle
          rw [more, List.length_append, List.length_singleton, (invariant.batches_eq found).1, List.map_append,
            List.map_append, invariant.took]
          rfl
      single := invariant.single
      asks := invariant.asks
      turn := by
        rcases proceeds.returned with ⟨same, calls⟩ | ⟨call, got, here, more, idle⟩
        · refine invariant.turn.keeps ⟨[], (List.append_nil _).symm⟩ same rfl id (fun free => ?_) fun max there => ?_
          · rw [free] at calls
            exact QueueStage.idle_of_call calls
          · rcases invariant.transactions.supplied stepped inOrder there with idle | supplied
            · rw [idle] at calls
              rw [QueueStage.idle_of_call calls.symm] at there
              cases there
            · exact supplied
        · cases invariant.turn with
          | proof even free =>
            rw [here] at free
            cases free
          | batch odd free takes =>
            refine .proof ?_ idle
            rw [more, List.length_append, List.length_singleton]
            exact odd }
  · cases moved

end Invariant

theorem step_handed {move : HandOverMove Tx Proof} (stepped : system.step batchSize maxSpins move = some after) :
    ∃ more, after.handed = system.handed ++ more := by
  cases move with
  | newTransactionHandle transaction proof =>
    simp only [step] at stepped
    split at stepped
    · cases stepped
      exact ⟨_, rfl⟩
    · cases stepped
  | enqueue | dequeue =>
    simp only [step] at stepped
    split at stepped
    · obtain ⟨queue, -, rfl⟩ := Option.map_eq_some_iff.mp stepped
      exact ⟨[], (List.append_nil _).symm⟩
    · obtain ⟨queue, -, rfl⟩ := Option.map_eq_some_iff.mp stepped
      exact ⟨[], (List.append_nil _).symm⟩
    · cases stepped
  | transactions move | proofs move =>
    simp only [step] at stepped
    split at stepped
    · obtain ⟨queue, -, rfl⟩ := Option.map_eq_some_iff.mp stepped
      exact ⟨[], (List.append_nil _).symm⟩
    · cases stepped

theorem Invariant.step (invariant : system.Invariant)
    (sized : ∀ batch ∈ system.handed, batch.1.length = batchSize batch.2) {move : HandOverMove Tx Proof}
    (stepped : system.step batchSize maxSpins move = some after) : after.Invariant := by
  cases move with
  | newTransactionHandle transaction proof => exact invariant.handle stepped
  | enqueue => exact invariant.enqueue stepped
  | dequeue => exact invariant.dequeue sized stepped
  | transactions move => exact invariant.transactions_step stepped
  | proofs move => exact invariant.proofs_step stepped

variable {moves : List (HandOverMove Tx Proof)}

theorem run_invariant (ran : moves.foldlM (step batchSize maxSpins) start = some system)
    (sized : ∀ batch ∈ system.handed, batch.1.length = batchSize batch.2) : system.Invariant := by
  refine Runs.invariant
    (fun system => (∀ batch ∈ system.handed, batch.1.length = batchSize batch.2) → system.Invariant)
    (fun stepped before sized => ?_) ran (fun _ => .start) sized
  obtain ⟨more, grown⟩ := step_handed stepped
  have sized' := fun batch member => sized batch (grown ▸ List.mem_append_left more member)
  exact (before sized').step sized' stepped

theorem zip_take {α β : Type*} (pairs : List (α × β)) {here there : Nat} (less : here ≤ there) :
    ((pairs.take here).map Prod.fst).zip ((pairs.map Prod.snd).take there) = pairs.take here := by
  induction pairs generalizing here there with
  | nil => simp
  | cons pair rest ih =>
    cases here with
    | zero => rfl
    | succ here =>
      cases there with
      | zero => cases less
      | succ there => exact congrArg (pair :: ·) (ih (Nat.le_of_succ_le_succ less))

theorem Invariant.received_eq (invariant : system.Invariant) :
    system.received = system.handed.take system.pendingTransactions.returned.length := by
  have less : system.pendingTransactions.returned.length ≤ system.pendingTransactionsProof.delivered.length := by
    cases invariant.turn with
    | proof even => exact Nat.le_of_eq even.symm
    | batch odd => omega
  rw [received, invariant.took, List.prefix_iff_eq_take.mp invariant.delivered_prefix]
  exact zip_take system.handed less

/-- "enqueue data first, then enqueue metadata": however the two threads interleave, the receiver has dequeued the first
batches handed over, each with its own proof and whole, and `wait_dequeue_bulk` never makes it wait. -/
theorem hand_over_in_order (ran : moves.foldlM (step batchSize maxSpins) start = some system)
    (sized : ∀ batch ∈ system.handed, batch.1.length = batchSize batch.2) :
    system.received = system.handed.take system.pendingTransactions.returned.length ∧
      (system.pendingTransactions.stage .receiver).sema.waiting = 0 := by
  have invariant := run_invariant ran sized
  refine ⟨invariant.received_eq, ?_⟩
  cases invariant.turn with
  | proof even idle => rw [idle]; rfl
  | batch odd idle takes =>
    rcases takes with free | ⟨batch, -, there⟩
    · rw [free]
      rfl
    · generalize system.pendingTransactions.stage .receiver = stage at there
      cases there <;> rfl

/-- The receiver falls asleep before the batch comes, and again when it has it. -/
def earlyMoves : List (HandOverMove Nat Nat) :=
  List.flatten
    [[.dequeue, .proofs (.sema .receiver .go), .proofs (.sema .receiver .go), .newTransactionHandle [7, 8] 2],
      (List.replicate 2 [.enqueue, .transactions (.put .collector), .transactions (.next .collector),
        .transactions (.sema .collector .go), .transactions (.next .collector)]).flatten,
      [.enqueue, .proofs (.put .collector), .proofs (.next .collector), .proofs (.sema .collector .go),
        .proofs (.sema .collector .go), .proofs (.sema .receiver .go), .proofs (.next .receiver),
        .proofs (.take .receiver 0), .proofs (.next .receiver), .dequeue, .proofs (.sema .collector .go),
        .proofs (.next .collector), .transactions (.sema .receiver .go), .transactions (.sema .receiver .go),
        .transactions (.next .receiver), .transactions (.take .receiver 0), .transactions (.miss .receiver),
        .transactions (.take .receiver 0), .transactions (.next .receiver), .dequeue, .proofs (.sema .receiver .go),
        .proofs (.sema .receiver .go)]]

theorem hand_over_in_order_early :
    ∃ system : BatchHandOver Nat Nat, earlyMoves.foldlM (step id 0) start = some system ∧
      system.pendingTransactions.returned.length = 1 ∧
      system.received = system.handed.take 1 ∧ system.received = [([7, 8], 2)] ∧
      (system.pendingTransactions.stage .receiver).sema.waiting = 0 := by
  have run : ∃ system : BatchHandOver Nat Nat, earlyMoves.foldlM (step id 0) start = some system ∧
      system.pendingTransactions.returned.length = 1 ∧ system.handed = [([7, 8], 2)] := ⟨_, rfl, rfl, rfl⟩
  obtain ⟨system, ran, one, handed⟩ := run
  obtain ⟨inOrder, awake⟩ := @hand_over_in_order Nat Nat id 0 system earlyMoves ran (by rw [handed]; decide)
  rw [one] at inOrder
  exact ⟨system, ran, one, inOrder, by rw [inOrder, handed]; rfl, awake⟩

theorem Invariant.receiver_idle (invariant : system.Invariant) (rests : system.pendingTransactions.Rests .receiver) :
    system.pendingTransactions.stage .receiver = .idle := by
  cases invariant.turn with
  | proof even idle => exact idle
  | batch odd idle takes =>
    rcases takes with free | ⟨batch, -, there⟩
    · exact free
    · exact there.idle rests

section Stuck

variable (stuck : ∀ move after, system.step batchSize maxSpins move = some after →
  ∃ transaction proof, move = .newTransactionHandle transaction proof)
include stuck

theorem blocked (move : HandOverMove Tx Proof)
    (other : ∀ transaction proof, move ≠ .newTransactionHandle transaction proof) :
    system.step batchSize maxSpins move = none := by
  by_contra possible
  obtain ⟨after, stepped⟩ := Option.ne_none_iff_exists'.mp possible
  obtain ⟨transaction, proof, same⟩ := stuck move after stepped
  exact other transaction proof same

theorem queues_stuck :
    system.pendingTransactions.Stuck maxSpins ∧ system.pendingTransactionsProof.Stuck maxSpins := by
  constructor
  · refine BlockingConcurrentQueue.stuck_of_inOrder fun move inOrder => ?_
    have none := blocked stuck (.transactions move) fun _ _ same => by cases same
    rwa [step, if_pos inOrder, Option.map_eq_none_iff] at none
  · refine BlockingConcurrentQueue.stuck_of_inOrder fun move inOrder => ?_
    have none := blocked stuck (.proofs move) fun _ _ same => by cases same
    rwa [step, if_pos inOrder, Option.map_eq_none_iff] at none

theorem all_sent (idle : system.pendingTransactions.stage .collector = .idle)
    (idle' : system.pendingTransactionsProof.stage .collector = .idle) :
    system.transaction = [] ∧ system.proof = none := by
  have none := blocked stuck .enqueue fun _ _ same => by cases same
  cases transaction : system.transaction with
  | cons data rest => simp [step, transaction, idle, BlockingConcurrentQueue.step] at none
  | nil =>
    cases proof : system.proof with
    | none => exact ⟨rfl, rfl⟩
    | some responseRaw => simp [step, transaction, proof, idle, idle', BlockingConcurrentQueue.step] at none

theorem receiver_waits (idle : system.pendingTransactions.stage .receiver = .idle) :
    system.pendingTransactionsProof.stage .receiver ≠ .idle := by
  intro idle'
  have none := blocked stuck .dequeue fun _ _ same => by cases same
  cases responseRaw : system.responseRaw with
  | none => simp [step, idle, responseRaw, idle', BlockingConcurrentQueue.step] at none
  | some proof => simp [step, idle, responseRaw, BlockingConcurrentQueue.step] at none

end Stuck

/-- When nothing goes on until the next batch is handed over, the receiver has them all. -/
theorem hand_over_complete (ran : moves.foldlM (step batchSize maxSpins) start = some system)
    (sized : ∀ batch ∈ system.handed, batch.1.length = batchSize batch.2)
    (stuck : ∀ move after, system.step batchSize maxSpins move = some after →
      ∃ transaction proof, move = .newTransactionHandle transaction proof) :
    system.received = system.handed := by
  have invariant := run_invariant ran sized
  obtain ⟨data, proofs⟩ := queues_stuck stuck
  have rests := fun thread => (invariant.transactions.sound.stuck_thread data thread).1
  have rests' := fun thread => (invariant.proofs.sound.stuck_thread proofs thread).1
  have idle' := invariant.proofs.collector_idle (rests' .collector)
  have waits := receiver_waits stuck (invariant.receiver_idle (rests .receiver))
  have sent := (all_sent stuck (invariant.transactions.collector_idle (rests .collector)) idle').2
  have all : system.pendingTransactionsProof.delivered = system.handed.map Prod.snd := by
    rw [← invariant.putProofs, invariant.proofs.order, invariant.proofs.sound.stuck_empty proofs waits,
      (rests' .receiver).owns.2, idle', sent]
    simp
  cases invariant.turn with
  | batch odd idle takes => exact absurd idle waits
  | proof even idle =>
    rw [invariant.received_eq, ← even, all, List.length_map, List.take_length]

theorem hand_over_complete_early :
    ∃ system : BatchHandOver Nat Nat, earlyMoves.foldlM (step id 0) start = some system ∧
      system.handed = [([7, 8], 2)] ∧ system.received = system.handed := by
  have final : ∃ system : BatchHandOver Nat Nat, earlyMoves.foldlM (step id 0) start = some system ∧
      (system.handed = [([7, 8], 2)] ∧ system.transaction = [] ∧ system.proof = none ∧ system.responseRaw = none) ∧
      (system.pendingTransactions.sema.sema = 0 ∧ system.pendingTransactionsProof.sema.sema = 0) ∧
      (∀ thread, system.pendingTransactions.stage thread = .idle) ∧
      system.pendingTransactionsProof.stage .collector = .idle ∧
      system.pendingTransactionsProof.stage .receiver =
        .acquire .wait_dequeue (.sleep .one (-1) (by decide) (by decide)) :=
    ⟨_, rfl, ⟨rfl, rfl, rfl, rfl⟩, ⟨rfl, rfl⟩, fun thread => by cases thread <;> rfl, rfl, rfl⟩
  obtain ⟨system, ran, ⟨handed, transaction, proof, responseRaw⟩, ⟨empty, empty'⟩, idle, free, asleep⟩ := final
  have data : system.pendingTransactions.Stuck 0 :=
    BlockingConcurrentQueue.stuck_of_rests (fun thread => .inl (idle thread)) empty
  have proofs : system.pendingTransactionsProof.Stuck 0 := by
    refine BlockingConcurrentQueue.stuck_of_rests (fun thread => ?_) empty'
    cases thread with
    | collector => exact .inl free
    | receiver => exact .inr ⟨_, _, _, _, _, asleep, by decide⟩
  refine ⟨system, ran, handed, hand_over_complete ran (by rw [handed]; decide) fun move after stepped => ?_⟩
  cases move with
  | newTransactionHandle transaction proof => exact ⟨transaction, proof, rfl⟩
  | enqueue => simp [step, transaction, proof] at stepped
  | dequeue => simp [step, idle, responseRaw, asleep, BlockingConcurrentQueue.step] at stepped
  | transactions move =>
    simp only [step] at stepped
    split at stepped
    · rename_i inOrder
      obtain ⟨queue, moved, -⟩ := Option.map_eq_some_iff.mp stepped
      obtain ⟨_, _, rfl⟩ := data move queue moved
      cases inOrder
    · cases stepped
  | proofs move =>
    simp only [step] at stepped
    split at stepped
    · rename_i inOrder
      obtain ⟨queue, moved, -⟩ := Option.map_eq_some_iff.mp stepped
      obtain ⟨_, _, rfl⟩ := proofs move queue moved
      cases inOrder
    · cases stepped

end BatchHandOver

end Blockchain
