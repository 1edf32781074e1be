import MyBlockchain.Epoch.CommittedWrites
import MyBlockchain.Library.Decimal

namespace Blockchain

open Interleaving Overwrite

theorem bytesOf_ofList {chars : List Char} (ascii : ∀ c ∈ chars, c.toNat ≤ 127) :
    bytesOf (String.ofList chars) = chars.map fun c => UInt8.ofNat c.toNat := by
  unfold bytesOf
  rw [String.toUTF8_eq_toByteArray, String.toByteArray_ofList, List.utf8Encode, List.data_toByteArray]
  rw [List.map_eq_flatMap]
  refine List.flatMap_congr fun c member => ?_
  exact String.utf8EncodeChar_eq_singleton (Char.utf8Size_eq_one_iff.mpr (ascii c member))

theorem bytesOf_toString (n : Nat) : bytesOf (toString n) = Decimal.digits n := by
  rw [Nat.toString_eq_ofList_toDigits, bytesOf_ofList]
  · rfl
  · intro c member
    have digit := Decimal.toNat_ofNat_digit (Nat.isDigit_of_mem_toDigits (by decide) (by decide) member)
    omega

def Contents.counter (db : Contents Bytes) (key : Bytes) : Nat := ((db key).map Decimal.value).getD 0

/-- What a counter transaction records: its key is read once, and its increment written there. -/
def KVRWSet.ofCounter (select : Bytes × Bytes → Bytes) (gcounter : Bytes × Nat) : KVRWSet :=
  let table := bytesOf "test_table"
  { reads := [{ table, key := gcounter.1, value := select (table, gcounter.1) }]
    writes := [{ table, key := gcounter.1, isDelete := false, value := Decimal.digits gcounter.2 }] }

theorem KVRWSet.readKeys_ofCounter (select : Bytes × Bytes → Bytes) (gcounter : Bytes × Nat) :
    (ofCounter select gcounter).readKeys = {(bytesOf "test_table", gcounter.1)} := by
  ext key
  constructor
  · rintro ⟨read, member, rfl⟩
    cases List.mem_singleton.mp member
    rfl
  · rintro rfl
    exact ⟨_, .head _, rfl⟩

theorem KVRWSet.writeKeys_ofCounter (select : Bytes × Bytes → Bytes) (gcounter : Bytes × Nat) :
    (ofCounter select gcounter).writeKeys = {(bytesOf "test_table", gcounter.1)} := by
  ext key
  constructor
  · rintro ⟨write, member, rfl⟩
    cases List.mem_singleton.mp member
    rfl
  · rintro rfl
    exact ⟨_, .head _, rfl⟩

namespace Shared

variable (inputs : ChaincodeInputs) {Slot : Type} (start : Shared Slot)

/-- The key and the increment in the payload of a transaction. -/
def gcounter (r : Ref) : Bytes × Nat := inputs.gcounter (start.heap r).transactionPayload.payload

def AllCounters (refs : List Ref) : Prop :=
  ∀ r ∈ refs, (start.heap r).transactionPayload.header = bytesOf "crdt_gcounter"

def SmallestOnKey (refs : List Ref) (r : Ref) : Prop :=
  ∀ s ∈ refs, (start.gcounter inputs s).1 = (start.gcounter inputs r).1 → (start.heap r).tid ≤ (start.heap s).tid

instance (refs : List Ref) (r : Ref) : Decidable (start.SmallestOnKey inputs refs r) :=
  inferInstanceAs (Decidable (∀ s ∈ refs, _))

variable {inputs start} {slotOf : SlotOf Slot} {refs : List Ref} {r : Ref} {epoch : Nat}

theorem invoke_counter (header : (start.heap r).transactionPayload.header = bytesOf "crdt_gcounter") :
    start.invoke slotOf (ORMTestChaincode.InvokeChaincode inputs) r =
      { success := true
        rwSet := .ofCounter (selectDB slotOf start.database.db) (start.gcounter inputs r)
        tableList := [] } := by
  unfold invoke ORMTestChaincode.InvokeChaincode
  dsimp only
  rw [header, if_neg (by decide), if_neg (by decide), if_neg (by decide), if_pos rfl,
    AriaORM.CCORMHelper.query_eq, AriaORM.CCORMHelper.insert_singleton, bytesOf_toString]
  rfl

theorem executed_counter (ready : start.EpochStart epoch refs) (counters : start.AllCounters refs)
    (member : r ∈ refs) :
    (start.executed slotOf (ORMTestChaincode.InvokeChaincode inputs) r).kvrwSet =
      .ofCounter (selectDB slotOf start.database.db) (start.gcounter inputs r) := by
  rw [executed, (ready.fresh r member).empty, KVRWSet.empty_append, invoke_counter (counters r member)]

theorem readKeys_counter (ready : start.EpochStart epoch refs) (counters : start.AllCounters refs)
    (member : r ∈ refs) : start.readKeys slotOf (ORMTestChaincode.InvokeChaincode inputs) r =
      {(bytesOf "test_table", (start.gcounter inputs r).1)} := by
  rw [readKeys, executed_counter ready counters member, KVRWSet.readKeys_ofCounter]

theorem writeKeys_counter (ready : start.EpochStart epoch refs) (counters : start.AllCounters refs)
    (member : r ∈ refs) : start.writeKeys slotOf (ORMTestChaincode.InvokeChaincode inputs) r =
      {(bytesOf "test_table", (start.gcounter inputs r).1)} := by
  rw [writeKeys, executed_counter ready counters member, KVRWSet.writeKeys_ofCounter]

theorem accepted_counter_iff (ready : start.EpochStart epoch refs) (counters : start.AllCounters refs)
    (member : r ∈ refs) : start.Accepted slotOf (ORMTestChaincode.InvokeChaincode inputs) refs r ↔
      start.SmallestOnKey inputs refs r := by
  have reserver : ∀ s ∈ refs, s ∈ start.reservers slotOf (ORMTestChaincode.InvokeChaincode inputs) refs := by
    intro s listed
    refine ⟨listed, ?_⟩
    rw [invoke_counter (counters s listed)]
  have overlaps : BatchOrder.Waw start.rank (start.writeKeys slotOf (ORMTestChaincode.InvokeChaincode inputs))
      (start.reservers slotOf (ORMTestChaincode.InvokeChaincode inputs) refs) r ↔
        ¬ start.SmallestOnKey inputs refs r := by
    unfold SmallestOnKey
    push Not
    constructor
    · rintro ⟨s, ⟨listed, -⟩, less, key, inS, inR⟩
      rw [writeKeys_counter ready counters listed, Set.mem_singleton_iff] at inS
      rw [writeKeys_counter ready counters member, Set.mem_singleton_iff, inS, Prod.mk.injEq] at inR
      exact ⟨s, listed, inR.2, less⟩
    · rintro ⟨s, listed, same, less⟩
      refine ⟨s, reserver s listed, less, (bytesOf "test_table", (start.gcounter inputs r).1), ?_, ?_⟩
      · rw [writeKeys_counter ready counters listed, same]
        rfl
      · rw [writeKeys_counter ready counters member]
        rfl
  constructor
  · exact fun accepted => not_not.mp (mt overlaps.mpr accepted.not_waw)
  · intro smallest
    have noWaw := mt overlaps.mp (not_not.mpr smallest)
    refine ⟨reserver r member, noWaw, fun both => noWaw ?_⟩
    -- what a counter reads it also writes
    obtain ⟨s, reserves, less, key, inS, inR⟩ := both.2
    refine ⟨s, reserves, less, key, inS, ?_⟩
    rw [readKeys_counter ready counters member] at inR
    rw [writeKeys_counter ready counters member]
    exact inR

theorem SmallestOnKey.unique (ready : start.EpochStart epoch refs) {s : Ref}
    (smallest : start.SmallestOnKey inputs refs r) (other : start.SmallestOnKey inputs refs s) (member : r ∈ refs)
    (listed : s ∈ refs) (same : (start.gcounter inputs s).1 = (start.gcounter inputs r).1) : s = r := by
  by_contra different
  have less := smallest s listed same
  have greater := other r member same.symm
  exact ready.tid_ne listed member different (by omega)

theorem SmallestOnKey.perm {others : List Ref} (perm : others.Perm refs) :
    start.SmallestOnKey inputs others r ↔ start.SmallestOnKey inputs refs r :=
  forall_congr' fun _ => imp_congr_left perm.mem_iff

variable (inputs start) in
def committedSum (final : Shared Slot) (refs : List Ref) (key : Bytes) : Nat :=
  ((refs.filter fun r => (final.heap r).transactionResult = .COMMIT ∧ (start.gcounter inputs r).1 = key).map
    fun r => (start.gcounter inputs r).2).sum

section Epoch

variable {start read final : Shared Bytes} {executes commits : List (Nat × Ref)}
  (result : EpochResult LevelDBStorage.slotOf (ORMTestChaincode.InvokeChaincode inputs) start epoch executes commits
    read final)
  (ready : start.EpochStart epoch (executes.map Prod.snd)) (counters : start.AllCounters (executes.map Prod.snd))
  (perm : (commits.map Prod.snd).Perm (executes.map Prod.snd))

include result ready counters

theorem outcome_counter_iff (member : r ∈ executes.map Prod.snd) :
    read.outcome r = .COMMIT ↔ start.SmallestOnKey inputs (executes.map Prod.snd) r :=
  (result.executed.outcome_commit_iff ready member).trans (accepted_counter_iff ready counters member)

include perm

theorem passing_counters : read.passing (commits.map Prod.snd) =
    (commits.map Prod.snd).filter fun r => start.SmallestOnKey inputs (executes.map Prod.snd) r := by
  refine List.filter_congr fun r member => decide_eq_decide.mpr ?_
  exact outcome_counter_iff result ready counters (perm.mem_iff.mp member)

theorem committed_counter_iff (member : r ∈ executes.map Prod.snd) :
    (final.heap r).transactionResult = .COMMIT ↔ start.SmallestOnKey inputs (executes.map Prod.snd) r := by
  rw [result.heap member (perm.mem_iff.mpr member)]
  exact outcome_counter_iff result ready counters member

theorem committedSum_smallest (member : r ∈ executes.map Prod.snd)
    (smallest : start.SmallestOnKey inputs (executes.map Prod.snd) r) :
    start.committedSum inputs final (executes.map Prod.snd) (start.gcounter inputs r).1 =
      (start.gcounter inputs r).2 := by
  have only : ((executes.map Prod.snd).filter fun s => (final.heap s).transactionResult = .COMMIT ∧
      (start.gcounter inputs s).1 = (start.gcounter inputs r).1) = [r] := by
    refine List.perm_singleton.mp ?_
    refine (List.perm_ext_iff_of_nodup (ready.nodup.filter _) (List.nodup_singleton r)).mpr fun s => ?_
    rw [List.mem_filter, decide_eq_true_eq, List.mem_singleton]
    constructor
    · rintro ⟨listed, commit, same⟩
      have other := (committed_counter_iff result ready counters perm listed).mp commit
      exact smallest.unique ready other member listed same
    · rintro rfl
      exact ⟨member, (committed_counter_iff result ready counters perm member).mpr smallest, rfl⟩
  rw [committedSum, only]
  exact Nat.add_zero _

theorem committedSum_nobody {key : Bytes}
    (nobody : ∀ r ∈ executes.map Prod.snd, start.SmallestOnKey inputs (executes.map Prod.snd) r →
      (start.gcounter inputs r).1 ≠ key) :
    start.committedSum inputs final (executes.map Prod.snd) key = 0 := by
  have none : ((executes.map Prod.snd).filter fun s => (final.heap s).transactionResult = .COMMIT ∧
      (start.gcounter inputs s).1 = key) = [] := by
    refine List.filter_eq_nil_iff.mpr fun s listed => ?_
    rw [decide_eq_true_eq]
    rintro ⟨commit, same⟩
    exact nobody s listed ((committed_counter_iff result ready counters perm listed).mp commit) same
  rw [committedSum, none]
  rfl

/-- Only the first transaction that commits is stored, and its increment replaces the number. -/
theorem counter_final (key : Bytes) : final.database.db.counter key =
    match (commits.map Prod.snd).filter fun r => start.SmallestOnKey inputs (executes.map Prod.snd) r with
    | [] => start.database.db.counter key
    | first :: _ =>
      if (start.gcounter inputs first).1 = key then (start.gcounter inputs first).2
      else start.database.db.counter key := by
  have passing := passing_counters result ready counters perm
  rw [result.committed.database, passing]
  cases winners : (commits.map Prod.snd).filter fun r =>
      start.SmallestOnKey inputs (executes.map Prod.snd) r with
  | nil => rw [latched, result.executed.db]
  | cons first rest =>
    have member : first ∈ executes.map Prod.snd := by
      have winner : first ∈ first :: rest := .head _
      rw [← winners] at winner
      exact perm.mem_iff.mp (List.mem_filter.mp winner).1
    have written : read.effects LevelDBStorage.slotOf [first] =
        [((start.gcounter inputs first).1, some (Decimal.digits (start.gcounter inputs first).2))] := by
      rw [effects, List.flatMap_singleton, result.executed.executed first member,
        executed_counter ready counters member]
      rfl
    rw [latched, written, result.executed.db, overwrite_cons, overwrite_nil]
    unfold Contents.counter
    by_cases same : (start.gcounter inputs first).1 = key
    · subst same
      simp [Decimal.value_digits]
    · simp [same, Ne.symm same]

end Epoch

theorem committedSum_perm (final : Shared Slot) {others : List Ref} (perm : others.Perm refs) (key : Bytes) :
    start.committedSum inputs final others key = start.committedSum inputs final refs key :=
  ((perm.filter _).map _).sum_nat

end Shared

open Shared

theorem first_only_sums_iff {op : Ref → Bytes × Nat} {db sum : Bytes → Nat} {first : Ref} {rest : List Ref}
    (apart : ∀ r ∈ rest, (op first).1 ≠ (op r).1) (increments : ∀ r ∈ first :: rest, sum (op r).1 = (op r).2)
    (nobody : ∀ key, (∀ r ∈ first :: rest, (op r).1 ≠ key) → sum key = 0) :
    (∀ key, (if (op first).1 = key then (op first).2 else db key) = db key + sum key) ↔
      db (op first).1 = 0 ∧ ∀ r ∈ rest, (op r).2 = 0 := by
  have own : sum (op first).1 = (op first).2 := increments first (.head _)
  constructor
  · intro sums
    constructor
    · have here := sums (op first).1
      rw [if_pos rfl] at here
      omega
    · intro r member
      have here := sums (op r).1
      have mine := increments r (.tail _ member)
      rw [if_neg (apart r member)] at here
      omega
  · rintro ⟨none, nothing⟩ key
    by_cases same : (op first).1 = key
    · subst same
      rw [if_pos rfl]
      omega
    · rw [if_neg same]
      by_cases someone : ∃ r ∈ rest, (op r).1 = key
      · obtain ⟨r, member, rfl⟩ := someone
        rw [increments r (.tail _ member), nothing r member, Nat.add_zero]
      · push Not at someone
        rw [nobody key fun r member => ?_, Nat.add_zero]
        rcases List.mem_cons.mp member with rfl | member
        · exact same
        · exact someone r member

/-- The counters of an epoch count if and only if the first transaction to commit finds no number, and those that
commit after it add nothing. -/
theorem gcounter_sums_iff (inputs : ChaincodeInputs) (start : Shared Bytes) (epoch : Nat)
    (workloads : List (Nat × List Ref)) (ready : start.EpochStart epoch (workloads.flatMap Prod.snd))
    (counters : start.AllCounters (workloads.flatMap Prod.snd)) (executes commits : List (Nat × Ref))
    (executing : Merge (workloads.map iterations) executes) (committing : Merge (workloads.map iterations) commits) :
    ∃ final, start.runEpoch LevelDBStorage.slotOf (ORMTestChaincode.InvokeChaincode inputs) executes commits =
        some final ∧
      ((∀ key, final.database.db.counter key =
          start.database.db.counter key + start.committedSum inputs final (workloads.flatMap Prod.snd) key) ↔
        ∀ first rest,
          (commits.map Prod.snd).filter (fun r => start.SmallestOnKey inputs (workloads.flatMap Prod.snd) r) =
            first :: rest →
          start.database.db.counter (start.gcounter inputs first).1 = 0 ∧
            ∀ r ∈ rest, (start.gcounter inputs r).2 = 0) := by
  have listed : (executes.map Prod.snd).Perm (workloads.flatMap Prod.snd) := merge_refs executing
  have perm : (commits.map Prod.snd).Perm (executes.map Prod.snd) := (merge_refs committing).trans listed.symm
  have ready_ := ready.perm listed
  have counters_ : start.AllCounters (executes.map Prod.snd) :=
    fun r member => counters r (listed.mem_iff.mp member)
  obtain ⟨read, final, result⟩ := runEpoch_result LevelDBStorage.slotOf (ORMTestChaincode.InvokeChaincode inputs)
    (committing.perm.trans executing.perm.symm) ready_
  refine ⟨final, result.run, ?_⟩
  have stored := counter_final result ready_ counters_ perm
  simp only [← committedSum_perm final listed, ← SmallestOnKey.perm listed]
  have winner : ∀ r, r ∈ (commits.map Prod.snd).filter (fun r =>
      start.SmallestOnKey inputs (executes.map Prod.snd) r) ↔
        r ∈ executes.map Prod.snd ∧ start.SmallestOnKey inputs (executes.map Prod.snd) r := by
    intro r
    rw [List.mem_filter, decide_eq_true_eq, perm.mem_iff]
  have nodup : ((commits.map Prod.snd).filter fun r =>
      start.SmallestOnKey inputs (executes.map Prod.snd) r).Nodup := (perm.nodup_iff.mpr ready_.nodup).filter _
  cases winners : (commits.map Prod.snd).filter fun r =>
      start.SmallestOnKey inputs (executes.map Prod.snd) r with
  | nil =>
    rw [winners] at winner
    refine iff_of_true (fun key => ?_) nofun
    rw [stored, winners, committedSum_nobody result ready_ counters_ perm fun r member smallest => ?_]
    · rfl
    · cases (winner r).mpr ⟨member, smallest⟩
  | cons first rest =>
    rw [winners] at winner nodup
    obtain ⟨out, -⟩ := List.nodup_cons.mp nodup
    obtain ⟨firstMember, firstSmallest⟩ := (winner first).mp (.head _)
    have apart : ∀ r ∈ rest, (start.gcounter inputs first).1 ≠ (start.gcounter inputs r).1 := by
      intro r member same
      obtain ⟨listed, smallest⟩ := (winner r).mp (.tail _ member)
      have equal := smallest.unique ready_ firstSmallest listed firstMember same
      subst equal
      exact out member
    simp only [stored, winners]
    rw [first_only_sums_iff apart]
    · constructor
      · rintro counts _ _ ⟨rfl, rfl⟩
        exact counts
      · exact fun counts => counts first rest rfl
    · intro r member
      obtain ⟨listed, smallest⟩ := (winner r).mp member
      exact committedSum_smallest result ready_ counters_ perm listed smallest
    · intro key nobody
      apply committedSum_nobody result ready_ counters_ perm
      exact fun r listed smallest same => nobody r ((winner r).mpr ⟨listed, smallest⟩) same

section TenStored

/-- The counter epoch with 10 in the counter that transaction 1 increments. -/
def tenInCounter : Shared Bytes :=
  { counterEpoch Bytes with
    database := .initial fun key => if key = bytesOf "a" then some (Decimal.digits 10) else none }

theorem tenInCounter_ready : tenInCounter.EpochStart 1 [1, 2] :=
  have ready := counterEpoch_ready Bytes
  ⟨ready.distinct, ready.nonzero, ready.epochs, ready.fresh, ready.stale⟩

theorem gcounter_sums_iff_ten :
    ∃ final, tenInCounter.runEpoch LevelDBStorage.slotOf (ORMTestChaincode.InvokeChaincode counterInputs)
        [(0, 1), (7, 2)] [(0, 1), (7, 2)] = some final ∧
      ((∀ key, final.database.db.counter key =
          tenInCounter.database.db.counter key + tenInCounter.committedSum counterInputs final [1, 2] key) ↔
        ∀ first rest, [1, 2].filter (fun r => tenInCounter.SmallestOnKey counterInputs [1, 2] r) = first :: rest →
          tenInCounter.database.db.counter (tenInCounter.gcounter counterInputs first).1 = 0 ∧
            ∀ r ∈ rest, (tenInCounter.gcounter counterInputs r).2 = 0) :=
  gcounter_sums_iff counterInputs tenInCounter 1 [(0, [1]), (7, [2])] tenInCounter_ready (fun _ _ => rfl) _ _
    (.sequential _) (.sequential _)

/-- Ten and one make one. -/
theorem increment_replaces_number :
    tenInCounter.EpochStart 1 [1] ∧ tenInCounter.AllCounters [1] ∧
      ∃ final, tenInCounter.runEpoch LevelDBStorage.slotOf (ORMTestChaincode.InvokeChaincode counterInputs)
        [(0, 1)] [(0, 1)] = some final ∧ (final.heap 1).transactionResult = .COMMIT ∧
      tenInCounter.database.db.counter (bytesOf "a") = 10 ∧
      tenInCounter.committedSum counterInputs final [1] (bytesOf "a") = 1 ∧
      final.database.db.counter (bytesOf "a") = 1 :=
  ⟨tenInCounter_ready.sublist (by simp), fun _ _ => rfl, _, rfl, by decide, by decide, by decide, by decide⟩

end TenStored

end Blockchain
