import MyBlockchain.Database.MergeUpdates

namespace Blockchain

open Decimal MergeOp DatabaseImpl

variable {heap : Heap} {database : DatabaseImpl Bytes} {transactionList : List Ref} {key : Bytes}
  {db : Contents Bytes}

def mergedDB (heap : Heap) (db : Contents Bytes) (transactionList : List Ref) : Contents Bytes :=
  fun slot => (expected db (mergeOps heap transactionList) slot).or (db slot)

/-- Who writes a key whose number is not 0 also reads it. -/
def WritersRead (heap : Heap) (db : Contents Bytes) (transactionList : List Ref) : Prop :=
  ∀ tr ∈ transactionList, ∀ kvWrite ∈ (heap tr).kvrwSet.writes, db.number kvWrite.key ≠ 0 →
    ∃ kvRead ∈ (heap tr).kvrwSet.reads, kvRead.key = kvWrite.key

/-- Every key that is read and not written is in the database. -/
def ReadsPresent (heap : Heap) (db : Contents Bytes) (transactionList : List Ref) : Prop :=
  ∀ tr ∈ transactionList, ∀ kvRead ∈ (heap tr).kvrwSet.reads,
    Written heap transactionList kvRead.key ∨ (db kvRead.key).isSome

theorem mergedDB_written (fits : SumsFit db (mergeOps heap transactionList))
    (written : Written heap transactionList key) :
    mergedDB heap db transactionList key =
      some (intDigits (base db (mergeOps heap transactionList) key + (incrementsOf heap transactionList key).sum)) ∧
    (mergedDB heap db transactionList).number key =
      base db (mergeOps heap transactionList) key + (incrementsOf heap transactionList key).sum := by
  have some : increments (mergeOps heap transactionList) key ≠ [] := written_iff.mp written
  obtain ⟨tr, listed, kvWrite, member, same⟩ := written
  have touched : ¬ ∀ op ∈ mergeOps heap transactionList, op.key ≠ key :=
    fun none => none (.inr kvWrite) (List.mem_flatMap.mpr ⟨tr, listed, mem_ops.mpr (.inr ⟨kvWrite, member, rfl⟩)⟩) same
  have stored : mergedDB heap db transactionList key =
      Option.some (intDigits (base db (mergeOps heap transactionList) key +
        (incrementsOf heap transactionList key).sum)) := by
    unfold mergedDB expected
    rw [if_neg touched, if_neg some]
    rfl
  have inRange : FitsInt (base db (mergeOps heap transactionList) key +
      (incrementsOf heap transactionList key).sum) := fits.total key
  refine ⟨stored, ?_⟩
  rw [Contents.number, stored, Option.bind_some, stoi_intDigits inRange]
  rfl

theorem mergedDB_read (unwritten : ¬ Written heap transactionList key) {tr : Ref} (listed : tr ∈ transactionList)
    {kvRead : KVRead} (member : kvRead ∈ (heap tr).kvrwSet.reads) (same : kvRead.key = key) :
    mergedDB heap db transactionList key = some ((db key).getD (digits 0)) := by
  have none : increments (mergeOps heap transactionList) key = [] := not_not.mp (mt written_iff.mpr unwritten)
  have touched : ¬ ∀ op ∈ mergeOps heap transactionList, op.key ≠ key :=
    fun none => none (.inl kvRead) (List.mem_flatMap.mpr ⟨tr, listed, mem_ops.mpr (.inl ⟨kvRead, member, rfl⟩)⟩) same
  unfold mergedDB expected
  rw [if_neg touched, if_pos none]
  rfl

theorem mergedDB_untouched (unwritten : ¬ Written heap transactionList key)
    (unread : ∀ tr ∈ transactionList, ∀ kvRead ∈ (heap tr).kvrwSet.reads, kvRead.key ≠ key) :
    mergedDB heap db transactionList key = db key := by
  have untouched : ∀ op ∈ mergeOps heap transactionList, op.key ≠ key := by
    intro op inOps
    obtain ⟨tr, listed, inSet⟩ := List.mem_flatMap.mp inOps
    rcases mem_ops.mp inSet with ⟨kvRead, member, rfl⟩ | ⟨kvWrite, member, rfl⟩
    · exact unread tr listed kvRead member
    · exact fun same => unwritten ⟨tr, listed, kvWrite, member, same⟩
  unfold mergedDB expected
  rw [if_pos untouched]
  rfl

theorem base_of_writersRead (reads : WritersRead heap db transactionList)
    (written : Written heap transactionList key) :
    base db (mergeOps heap transactionList) key = db.number key := by
  have first : ∀ refs : List Ref, (∀ tr ∈ refs, tr ∈ transactionList) →
      (mergeOps heap refs).find? (fun op => op.key = key) = none ∨
      base db (mergeOps heap refs) key = db.number key := by
    intro refs
    induction refs with
    | nil => exact fun _ => .inl rfl
    | cons tr rest ih =>
      intro listed
      have split : mergeOps heap (tr :: rest) = (heap tr).kvrwSet.ops ++ mergeOps heap rest := List.flatMap_cons
      unfold base
      rw [split, List.find?_append]
      cases found : (heap tr).kvrwSet.ops.find? fun op => op.key = key with
      | none => exact ih fun tr member => listed tr (.tail _ member)
      | some op =>
        right
        cases op with
        | inl kvRead => rfl
        | inr kvWrite =>
          have touches : MergeOp.key (.inr kvWrite) = key := by simpa using List.find?_some found
          have touches : kvWrite.key = key := touches
          by_contra other
          have member : kvWrite ∈ (heap tr).kvrwSet.writes := by
            rcases mem_ops.mp (List.mem_of_find?_eq_some found) with ⟨_, -, same⟩ | ⟨_, member, same⟩
            · cases same
            · cases same
              exact member
          obtain ⟨kvRead, read, same⟩ := reads tr (listed tr (.head _)) kvWrite member
            fun zero => other (by rw [← touches, zero]; rfl)
          -- the reads of a set come before its writes
          unfold KVRWSet.ops at found
          rw [List.find?_append] at found
          have earlier : ((heap tr).kvrwSet.reads.map Sum.inl).find? (fun op => MergeOp.key op = key) = none := by
            cases early : ((heap tr).kvrwSet.reads.map Sum.inl).find? (fun op => MergeOp.key op = key) with
            | none => rfl
            | some op =>
              rw [early] at found
              cases found
              obtain ⟨_, -, same⟩ := List.mem_map.mp (List.mem_of_find?_eq_some early)
              cases same
          have none := List.find?_eq_none.mp earlier (.inl kvRead) (List.mem_map_of_mem read)
          exact none (decide_eq_true (same.trans touches))
  rcases first transactionList fun _ member => member with none | same
  · obtain ⟨tr, listed, kvWrite, member, same⟩ := written
    have notHere := List.find?_eq_none.mp none (.inr kvWrite)
      (List.mem_flatMap.mpr ⟨tr, listed, mem_ops.mpr (.inr ⟨kvWrite, member, rfl⟩)⟩)
    exact absurd (decide_eq_true same) notHere
  · exact same

theorem base_of_blind_writer {tr : Ref} {rest : List Ref} {kvWrite : KVWrite}
    (member : kvWrite ∈ (heap tr).kvrwSet.writes) (same : kvWrite.key = key)
    (blind : ∀ kvRead ∈ (heap tr).kvrwSet.reads, kvRead.key ≠ key) :
    base db (mergeOps heap (tr :: rest)) key = 0 := by
  have split : mergeOps heap (tr :: rest) = (heap tr).kvrwSet.ops ++ mergeOps heap rest := List.flatMap_cons
  have there : ((heap tr).kvrwSet.ops.find? fun op => op.key = key).isSome := by
    rw [List.find?_isSome]
    exact ⟨.inr kvWrite, mem_ops.mpr (.inr ⟨kvWrite, member, rfl⟩), decide_eq_true same⟩
  obtain ⟨op, found⟩ := Option.isSome_iff_exists.mp there
  unfold base
  rw [split, List.find?_append, found]
  cases op with
  | inl kvRead =>
    have touches : MergeOp.key (.inl kvRead) = key := by simpa using List.find?_some found
    rcases mem_ops.mp (List.mem_of_find?_eq_some found) with ⟨_, member, read⟩ | ⟨_, -, other⟩
    · cases read
      exact absurd touches (blind kvRead member)
    · cases other
  | inr _ => rfl

/-- What the call has to do: sums, nothing else, and the same for every order of the list. -/
def MergesAsSum (heap : Heap) (database : DatabaseImpl Bytes) (transactionList : List Ref) : Prop :=
  ∃ after, commitUpdateList heap database transactionList = some after ∧
    Merged heap transactionList database.db after.db ∧
    ∀ others : List Ref, others.Perm transactionList →
      ∃ otherAfter, commitUpdateList heap database others = some otherAfter ∧ otherAfter.db = after.db

/-- With the flag up the call does nothing at all. -/
def MergeSafe (heap : Heap) (database : DatabaseImpl Bytes) (transactionList : List Ref) : Prop :=
  if database.commitPhase then ∀ key, (incrementsOf heap transactionList key).sum = 0
  else WritersRead heap database.db transactionList ∧ ReadsPresent heap database.db transactionList

theorem merged_of_safe (ready : MergeReady heap database transactionList)
    (writers : WritersRead heap database.db transactionList) (reads : ReadsPresent heap database.db transactionList) :
    Merged heap transactionList database.db (mergedDB heap database.db transactionList) where
  written key written := by
    rw [(mergedDB_written ready.fits written).2, base_of_writersRead writers written]
  kept key unwritten := by
    by_cases read : ∃ tr ∈ transactionList, ∃ kvRead ∈ (heap tr).kvrwSet.reads, kvRead.key = key
    · obtain ⟨tr, listed, kvRead, member, same⟩ := read
      rw [mergedDB_read unwritten listed member same]
      subst same
      obtain ⟨bytes, there⟩ := Option.isSome_iff_exists.mp ((reads tr listed kvRead member).resolve_left unwritten)
      rw [there]
      rfl
    · push Not at read
      exact mergedDB_untouched unwritten read

theorem mergedDB_perm (ready : MergeReady heap database transactionList)
    (writers : WritersRead heap database.db transactionList) (reads : ReadsPresent heap database.db transactionList)
    {others : List Ref} (perm : others.Perm transactionList) :
    mergedDB heap database.db others = mergedDB heap database.db transactionList := by
  funext key
  have same : Written heap others key ↔ Written heap transactionList key :=
    exists_congr fun tr => and_congr_left fun _ => perm.mem_iff
  have writers' : WritersRead heap database.db others := fun tr member => writers tr (perm.mem_iff.mp member)
  have reads' : ReadsPresent heap database.db others := by
    intro tr member kvRead read
    refine (reads tr (perm.mem_iff.mp member) kvRead read).imp_left fun written => ?_
    obtain ⟨writer, listed, rest⟩ := written
    exact ⟨writer, perm.mem_iff.mpr listed, rest⟩
  by_cases written : Written heap transactionList key
  · rw [(mergedDB_written ready.fits written).1, (mergedDB_written (ready.perm perm).fits (same.mpr written)).1,
      base_of_writersRead writers written, base_of_writersRead writers' (same.mpr written),
      (incrementsOf_perm perm key).sum_eq]
  · rw [(merged_of_safe ready writers reads).kept key written,
      (merged_of_safe (ready.perm perm) writers' reads').kept key (mt same.mp written)]

/-- A blind writer of a key with a number, put first, loses the number. -/
theorem writersRead_of_merges (ready : MergeReady heap database transactionList)
    (merged : Merged heap transactionList database.db (mergedDB heap database.db transactionList))
    (ordered : ∀ others : List Ref, others.Perm transactionList →
      mergedDB heap database.db others = mergedDB heap database.db transactionList) :
    WritersRead heap database.db transactionList := by
  intro tr listed kvWrite member number
  by_contra blind
  push Not at blind
  have perm : (tr :: transactionList.erase tr).Perm transactionList := (List.perm_cons_erase listed).symm
  have written : Written heap transactionList kvWrite.key := ⟨tr, listed, kvWrite, member, rfl⟩
  have first : Written heap (tr :: transactionList.erase tr) kvWrite.key := ⟨tr, .head _, kvWrite, member, rfl⟩
  have lost := (mergedDB_written (ready.perm perm).fits first).2
  rw [base_of_blind_writer member rfl blind, (incrementsOf_perm perm _).sum_eq, ordered _ perm,
    merged.written _ written] at lost
  omega

theorem readsPresent_of_merges
    (merged : Merged heap transactionList database.db (mergedDB heap database.db transactionList)) :
    ReadsPresent heap database.db transactionList := by
  intro tr listed kvRead member
  by_cases written : Written heap transactionList kvRead.key
  · exact .inl written
  · right
    rw [← merged.kept _ written, mergedDB_read written listed member rfl]
    rfl

/-- `commitUpdate` of a list merges as a sum if and only if writers of a counted key read it and keys that are only
read are there; once the flag is up, if and only if there is nothing to add. -/
theorem merge_is_sum_iff (heap : Heap) (database : DatabaseImpl Bytes) (transactionList : List Ref)
    (ready : MergeReady heap database transactionList) :
    MergesAsSum heap database transactionList ↔ MergeSafe heap database transactionList := by
  unfold MergesAsSum MergeSafe
  cases flag : database.commitPhase with
  | true =>
    have unchanged : ∀ others, commitUpdateList heap database others = some database := by
      intro others
      unfold commitUpdateList
      rw [if_pos flag]
    rw [if_pos rfl]
    constructor
    · rintro ⟨after, ran, merged, -⟩ key
      rw [unchanged] at ran
      cases ran
      by_cases written : Written heap transactionList key
      · have sum := merged.written key written
        omega
      · rw [not_not.mp (mt written_iff.mpr written)]
        rfl
    · intro nothing
      refine ⟨database, unchanged _, ⟨fun key _ => ?_, fun _ _ => rfl⟩, fun others _ => ⟨database, unchanged _, rfl⟩⟩
      rw [nothing key, Int.add_zero]
  | false =>
    have ran := ready.commitUpdateList flag
    rw [if_neg (by decide)]
    constructor
    · rintro ⟨after, same, merged, ordered⟩
      rw [ran] at same
      cases same
      refine ⟨writersRead_of_merges ready merged fun others perm => ?_, readsPresent_of_merges merged⟩
      obtain ⟨otherAfter, same, db⟩ := ordered others perm
      rw [(ready.perm perm).commitUpdateList flag] at same
      cases same
      exact db
    · rintro ⟨writers, reads⟩
      refine ⟨_, ran, merged_of_safe ready writers reads, fun others perm => ?_⟩
      exact ⟨_, (ready.perm perm).commitUpdateList flag, mergedDB_perm ready writers reads perm⟩

section BlindWriter

def writeFive (reads : List KVRead) : Heap := fun tr =>
  { MockTransaction.new with tid := tr, kvrwSet := { reads, writes := [⟨[], [1], false, digits 5⟩] } }

def tenStored : DatabaseImpl Bytes :=
  { DatabaseImpl.initial (fun key => if key = [1] then some (digits 10) else none) with
    rwSetBuffer := fun tid => if tid = 1 ∨ tid = 2 then some tid else none }

theorem writeFive_increments (reads : List KVRead) (transactionList : List Ref) (key : Bytes) :
    incrementsOf (writeFive reads) transactionList key =
      if [1] = key then List.replicate transactionList.length 5 else [] := by
  have none : (reads.map Sum.inl).filterMap (increment key) = [] := by
    refine List.filterMap_eq_nil_iff.mpr fun op member => ?_
    obtain ⟨kvRead, -, rfl⟩ := List.mem_map.mp member
    rfl
  have own : ([.inr ⟨[], [1], false, digits 5⟩] : List MergeOp).filterMap (increment key) =
      if [1] = key then [5] else [] := by
    by_cases same : [1] = key
    · rw [if_pos same]
      subst same
      rfl
    · simp [increment, same]
  unfold incrementsOf MergeOp.increments
  induction transactionList with
  | nil =>
    rw [List.length_nil, List.replicate_zero, ite_self]
    rfl
  | cons tr rest ih =>
    rw [mergeOps, List.flatMap_cons, List.filterMap_append, ← mergeOps, ih]
    rw [show (writeFive reads tr).kvrwSet.ops = reads.map Sum.inl ++ [.inr ⟨[], [1], false, digits 5⟩] from rfl,
      List.filterMap_append, none, own]
    split <;> rfl

theorem writeFive_ready {reads : List KVRead} {transactionList : List Ref}
    (recorded : ∀ kvRead ∈ reads, kvRead.value = selectDB LevelDBStorage.slotOf tenStored.db (kvRead.table, kvRead.key))
    (few : transactionList.length ≤ 2) (buffered : ∀ tr ∈ transactionList, tr = 1 ∨ tr = 2) :
    MergeReady (writeFive reads) tenStored transactionList := by
  constructor
  case buffered => exact fun tr listed => if_pos (buffered tr listed)
  case decimal =>
    intro key bytes there
    obtain ⟨-, same⟩ := Option.ite_none_right_eq_some.mp there
    cases same
    decide
  case recorded => exact fun tr listed => recorded
  case increments =>
    intro tr listed kvWrite member
    rw [List.mem_singleton.mp member]
    decide
  case fits =>
    intro key part subperm
    have number : tenStored.db.number key = 10 ∨ tenStored.db.number key = 0 := by
      by_cases same : key = [1]
      · subst same
        exact .inl (by decide)
      · right
        unfold Contents.number
        rw [show tenStored.db key = none from if_neg same]
        rfl
    rw [← incrementsOf, writeFive_increments] at subperm
    have fives : part = List.replicate part.length 5 := by
      refine List.eq_replicate_of_mem fun value member => ?_
      have among := subperm.subset member
      split at among
      · exact List.eq_of_mem_replicate among
      · cases among
    have most : part.length ≤ 2 := by
      have bound := subperm.length_le
      split at bound
      · rw [List.length_replicate] at bound
        omega
      · exact Nat.le_trans bound (by decide)
    have sum : part.sum = 5 * part.length := by
      rw [fives, List.sum_replicate, List.length_replicate, nsmul_eq_mul, mul_comm]
    unfold FitsInt
    omega

theorem merge_is_sum_recorded : MergesAsSum (writeFive [⟨[1], digits 10, []⟩]) tenStored [1, 2] := by
  have safe : MergeSafe (writeFive [⟨[1], digits 10, []⟩]) tenStored [1, 2] := by
    refine ⟨fun tr listed kvWrite member _ => ?_, fun tr listed kvRead member => .inl ?_⟩
    · rw [List.mem_singleton.mp member]
      exact ⟨_, .head _, rfl⟩
    · rw [List.mem_singleton.mp member]
      exact ⟨1, .head _, _, .head _, rfl⟩
  exact (merge_is_sum_iff _ tenStored [1, 2] (writeFive_ready (by decide) (by decide) (by decide))).mpr safe

/-- The blind write is taken for an increment of 0. -/
theorem blind_write_loses_number : MergeReady (writeFive []) tenStored [1] ∧
    ∃ after, commitUpdateList (writeFive []) tenStored [1] = some after ∧
      tenStored.db.number [1] = 10 ∧ (incrementsOf (writeFive []) [1] [1]).sum = 5 ∧ after.db.number [1] = 5 ∧
      ¬ Merged (writeFive []) [1] tenStored.db after.db := by
  refine ⟨writeFive_ready (by decide) (by decide) (by decide), _,
    (writeFive_ready (by decide) (by decide) (by decide)).commitUpdateList rfl, by decide, by decide, by decide, fun merged => ?_⟩
  have sum := merged.written [1] ⟨1, .head _, _, .head _, rfl⟩
  exact absurd sum (by decide)

end BlindWriter

end Blockchain
