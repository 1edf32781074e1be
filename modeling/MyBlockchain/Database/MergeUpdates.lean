import Mathlib.Data.List.Induction
import Mathlib.Data.List.Perm.Subperm
import Mathlib.Algebra.BigOperators.Group.List.Basic
import Mathlib.Algebra.Ring.Int.Defs
import MyBlockchain.Database.DatabaseImpl
import MyBlockchain.Library.Decimal

namespace Blockchain

open Decimal

abbrev MergeResult := Bytes → Option Bytes

namespace DatabaseImpl

def mergeRead (result : MergeResult) (kvRead : KVRead) : MergeResult :=
  if (result kvRead.key).isSome then result
  else if kvRead.value = [] then Function.update result kvRead.key (some (digits 0))
  else Function.update result kvRead.key (some kvRead.value)

/-- `none` is an exception of `stoi`, or a signed overflow. -/
def mergeWrite (result : MergeResult) (kvWrite : KVWrite) : Option MergeResult :=
  let result :=
    if (result kvWrite.key).isSome then result else Function.update result kvWrite.key (some (digits 0))
  do
    let current ← result kvWrite.key
    let previous ← stoi current
    let increment ← stoi kvWrite.value
    if FitsInt (previous + increment) then
      some (Function.update result kvWrite.key (some (intDigits (previous + increment))))
    else none

def mergeSet (result : MergeResult) (kvRWSet : KVRWSet) : Option MergeResult :=
  kvRWSet.writes.foldlM mergeWrite (kvRWSet.reads.foldl mergeRead result)

/-- `commitUpdate` of a list of transactions. All entries of `result` go to one table, and LevelDB is asked with
the key alone. -/
def commitUpdateList (heap : Heap) (database : DatabaseImpl Bytes) (transactionList : List Ref) :
    Option (DatabaseImpl Bytes) :=
  if database.commitPhase then some database
  else do
    let result ← transactionList.foldlM (fun result tr => do
      let kvRWSet ← database.rwSetBuffer (heap tr).tid
      mergeSet result (heap kvRWSet).kvrwSet) fun _ => none
    some { database with db := fun slot => (result slot).or (database.db slot), commitPhase := true }

end DatabaseImpl

def Contents.number (db : Contents Bytes) (key : Bytes) : Int := ((db key).bind stoi).getD 0

/-- One round of the two inner loops. -/
abbrev MergeOp := KVRead ⊕ KVWrite

namespace MergeOp

open DatabaseImpl

def key : MergeOp → Bytes
  | .inl kvRead => kvRead.key
  | .inr kvWrite => kvWrite.key

def merge (result : MergeResult) : MergeOp → Option MergeResult
  | .inl kvRead => some (mergeRead result kvRead)
  | .inr kvWrite => mergeWrite result kvWrite

def increment (key : Bytes) : MergeOp → Option Int
  | .inl _ => none
  | .inr kvWrite => if kvWrite.key = key then some ((stoi kvWrite.value).getD 0) else none

def increments (ops : List MergeOp) (key : Bytes) : List Int := ops.filterMap (increment key)

/-- What the sum starts from: the previous number where the first round on the key is one of a read. -/
def base (db : Contents Bytes) (ops : List MergeOp) (key : Bytes) : Int :=
  match ops.find? fun op => op.key = key with
  | some (.inl _) => db.number key
  | _ => 0

def expected (db : Contents Bytes) (ops : List MergeOp) (key : Bytes) : Option Bytes :=
  if ∀ op ∈ ops, op.key ≠ key then none
  else if increments ops key = [] then some ((db key).getD (digits 0))
  else some (intDigits (base db ops key + (increments ops key).sum))

end MergeOp

def KVRWSet.ops (kvRWSet : KVRWSet) : List MergeOp := kvRWSet.reads.map .inl ++ kvRWSet.writes.map .inr

theorem DatabaseImpl.mergeSet_eq (result : MergeResult) (kvRWSet : KVRWSet) :
    mergeSet result kvRWSet = kvRWSet.ops.foldlM MergeOp.merge result := by
  unfold mergeSet KVRWSet.ops
  rw [List.foldlM_append]
  have reads : ∀ (reads : List KVRead) (result : MergeResult),
      (reads.map Sum.inl).foldlM MergeOp.merge result = some (reads.foldl mergeRead result) := by
    intro reads
    induction reads with
    | nil => exact fun _ => rfl
    | cons read rest ih => exact fun result => ih (mergeRead result read)
  rw [reads]
  have writes : ∀ (writes : List KVWrite) (result : MergeResult),
      (writes.map Sum.inr).foldlM MergeOp.merge result = writes.foldlM mergeWrite result := by
    intro writes
    induction writes with
    | nil => exact fun _ => rfl
    | cons write rest ih =>
      intro result
      rw [List.map_cons, List.foldlM_cons, List.foldlM_cons]
      exact congrArg (mergeWrite result write).bind (funext ih)
  exact (writes _ _).symm

namespace MergeOp

open DatabaseImpl

variable {db : Contents Bytes} {ops : List MergeOp} {key : Bytes}

theorem increments_append (ops others : List MergeOp) (key : Bytes) :
    increments (ops ++ others) key = increments ops key ++ increments others key := List.filterMap_append

structure Suits (db : Contents Bytes) (op : MergeOp) : Prop where
  read : ∀ kvRead, op = .inl kvRead → kvRead.value = (db kvRead.key).getD []
  write : ∀ kvWrite, op = .inr kvWrite → (stoi kvWrite.value).isSome

def IsDecimal (db : Contents Bytes) : Prop := ∀ key bytes, db key = some bytes → (stoi bytes).isSome

/-- No sum of increments leaves the range of `int`, from 0 or from the previous number. -/
def SumsFit (db : Contents Bytes) (ops : List MergeOp) : Prop :=
  ∀ key part, List.Subperm part (increments ops key) → FitsInt part.sum ∧ FitsInt (db.number key + part.sum)

theorem stoi_shown (decimal : IsDecimal db) (key : Bytes) :
    stoi ((db key).getD (digits 0)) = some (db.number key) := by
  unfold Contents.number
  cases found : db key with
  | none => decide
  | some bytes =>
    obtain ⟨value, read⟩ := Option.isSome_iff_exists.mp (decimal key bytes found)
    simp [read]

theorem expected_frame (db : Contents Bytes) (ops : List MergeOp) {op : MergeOp} (other : op.key ≠ key) :
    expected db (ops ++ [op]) key = expected db ops key := by
  have touched : (∀ op' ∈ ops ++ [op], op'.key ≠ key) ↔ ∀ op' ∈ ops, op'.key ≠ key := by
    simp [or_imp, forall_and, other]
  have same : increments (ops ++ [op]) key = increments ops key := by
    have none : increments [op] key = [] := by
      cases op with
      | inl kvRead => rfl
      | inr kvWrite =>
        have differs : kvWrite.key ≠ key := other
        simp [increments, increment, differs]
    rw [increments_append, none, List.append_nil]
  have base : base db (ops ++ [op]) key = base db ops key := by
    unfold base
    rw [List.find?_append]
    have none : List.find? (fun op => decide (op.key = key)) [op] = none := by simp [other]
    rw [none, Option.or_none]
  unfold expected
  rw [same, base]
  simp only [touched]

theorem base_append (db : Contents Bytes) {ops : List MergeOp} (others : List MergeOp) {op : MergeOp}
    (member : op ∈ ops) (touches : op.key = key) : base db (ops ++ others) key = base db ops key := by
  have there : (ops.find? fun op => op.key = key).isSome := by
    rw [List.find?_isSome]
    exact ⟨op, member, by simpa using touches⟩
  obtain ⟨first, found⟩ := Option.isSome_iff_exists.mp there
  unfold base
  rw [List.find?_append, found]
  rfl

theorem increments_untouched (untouched : ∀ op ∈ ops, op.key ≠ key) : increments ops key = [] := by
  refine List.filterMap_eq_nil_iff.mpr fun op member => ?_
  cases op with
  | inl _ => rfl
  | inr kvWrite => exact if_neg (untouched _ member)

theorem base_unwritten (touched : ∃ op ∈ ops, op.key = key) (unwritten : increments ops key = []) :
    base db ops key = db.number key := by
  have there : (ops.find? fun op => op.key = key).isSome := by
    rw [List.find?_isSome]
    obtain ⟨op, member, touches⟩ := touched
    exact ⟨op, member, by simpa using touches⟩
  obtain ⟨first, found⟩ := Option.isSome_iff_exists.mp there
  unfold base
  rw [found]
  cases first with
  | inl kvRead => rfl
  | inr kvWrite =>
    have touches : MergeOp.key (.inr kvWrite) = key := by simpa using List.find?_some found
    have touches : kvWrite.key = key := touches
    have listed := List.filterMap_eq_nil_iff.mp unwritten _ (List.mem_of_find?_eq_some found)
    rw [increment, if_pos touches] at listed
    cases listed

theorem base_first_write {kvWrite : KVWrite} (untouched : ∀ op ∈ ops, op.key ≠ kvWrite.key) :
    base db (ops ++ [.inr kvWrite]) kvWrite.key = 0 := by
  have none : (ops.find? fun op => op.key = kvWrite.key) = none :=
    List.find?_eq_none.mpr fun op member => by simpa using untouched op member
  unfold base
  rw [List.find?_append, none]
  simp [key]

theorem SumsFit.total (fits : SumsFit db ops) (key : Bytes) :
    FitsInt (base db ops key + (increments ops key).sum) := by
  obtain ⟨fromZero, fromNumber⟩ := fits key _ (List.Subperm.refl _)
  unfold base
  split
  · exact fromNumber
  · rw [Int.zero_add]
    exact fromZero

theorem SumsFit.prefix {others : List MergeOp} (fits : SumsFit db (ops ++ others)) : SumsFit db ops := by
  intro key part subperm
  refine fits key part (subperm.trans ?_)
  rw [increments_append]
  exact (List.sublist_append_left _ _).subperm

theorem mergeRead_expected (decimal : IsDecimal db) {kvRead : KVRead}
    (recorded : kvRead.value = (db kvRead.key).getD []) :
    mergeRead (expected db ops) kvRead = expected db (ops ++ [.inl kvRead]) := by
  funext key
  by_cases same : kvRead.key = key
  · subst same
    by_cases touched : ∀ op ∈ ops, op.key ≠ kvRead.key
    · -- the first round on this key
      have nothing : increments ops kvRead.key = [] := increments_untouched touched
      have before : expected db ops kvRead.key = none := if_pos touched
      have after : expected db (ops ++ [.inl kvRead]) kvRead.key = some ((db kvRead.key).getD (digits 0)) := by
        have reached : ¬ ∀ op ∈ ops ++ [.inl kvRead], op.key ≠ kvRead.key :=
          fun none => none _ (List.mem_append_right _ (.head _)) rfl
        unfold expected
        rw [if_neg reached, increments_append, nothing]
        rfl
      unfold mergeRead
      rw [before, after, recorded]
      cases found : db kvRead.key with
      | none => simp
      | some bytes =>
        have nonempty : bytes ≠ [] := by
          rintro rfl
          exact absurd (decimal _ _ found) (by decide)
        simp [nonempty]
    · have touched' : ∃ op ∈ ops, op.key = kvRead.key := by
        push Not at touched
        exact touched
      obtain ⟨op, member, touches⟩ := touched'
      have reached : ¬ ∀ op ∈ ops ++ [.inl kvRead], op.key ≠ kvRead.key :=
        fun none => none op (List.mem_append_left _ member) touches
      have there : (expected db ops kvRead.key).isSome := by
        unfold expected
        rw [if_neg touched]
        split <;> rfl
      have kept : increments (ops ++ [.inl kvRead]) kvRead.key = increments ops kvRead.key := by
        rw [increments_append]
        exact List.append_nil _
      unfold mergeRead
      rw [if_pos there]
      unfold expected
      rw [if_neg touched, if_neg reached, kept, base_append db _ member touches]
  · rw [expected_frame db ops (show MergeOp.key (.inl kvRead) ≠ _ from same)]
    unfold mergeRead
    split
    · rfl
    · split
      · exact Function.update_of_ne (Ne.symm same) _ _
      · exact Function.update_of_ne (Ne.symm same) _ _

theorem expected_previous (decimal : IsDecimal db) (fits : SumsFit db ops) (touched : ∃ op ∈ ops, op.key = key) :
    ∃ current, expected db ops key = some current ∧
      stoi current = some (base db ops key + (increments ops key).sum) := by
  have reached : ¬ ∀ op ∈ ops, op.key ≠ key := by
    push Not
    exact touched
  unfold expected
  rw [if_neg reached]
  by_cases unwritten : increments ops key = []
  · rw [if_pos unwritten, unwritten]
    refine ⟨_, rfl, ?_⟩
    rw [stoi_shown decimal, base_unwritten touched unwritten]
    simp
  · rw [if_neg unwritten]
    exact ⟨_, rfl, stoi_intDigits (fits.total key)⟩

theorem mergeWrite_current (decimal : IsDecimal db) (fits : SumsFit db ops) (kvWrite : KVWrite) :
    let start : MergeResult :=
      if (expected db ops kvWrite.key).isSome then expected db ops
      else Function.update (expected db ops) kvWrite.key (some (digits 0))
    (∃ current, start kvWrite.key = some current ∧ stoi current =
      some (base db (ops ++ [.inr kvWrite]) kvWrite.key + (increments ops kvWrite.key).sum)) ∧
      ∀ key, key ≠ kvWrite.key → start key = expected db ops key := by
  intro start
  constructor
  · by_cases touched : ∃ op ∈ ops, op.key = kvWrite.key
    · obtain ⟨current, there, number⟩ := expected_previous decimal fits touched
      obtain ⟨op, member, touches⟩ := touched
      refine ⟨current, ?_, ?_⟩
      · dsimp only [start]
        rw [there]
        exact there
      · rw [number, ← base_append db [.inr kvWrite] member touches]
    · push Not at touched
      have nothing : expected db ops kvWrite.key = none := if_pos touched
      refine ⟨digits 0, ?_, ?_⟩
      · dsimp only [start]
        rw [nothing]
        exact Function.update_self ..
      · rw [base_first_write touched, increments_untouched touched]
        decide
  · intro key other
    dsimp only [start]
    split
    · rfl
    · exact Function.update_of_ne other _ _

theorem expected_write (db : Contents Bytes) (ops : List MergeOp) (kvWrite : KVWrite) :
    expected db (ops ++ [.inr kvWrite]) kvWrite.key = some (intDigits
      (base db (ops ++ [.inr kvWrite]) kvWrite.key + (increments (ops ++ [.inr kvWrite]) kvWrite.key).sum)) := by
  have reached : ¬ ∀ op ∈ ops ++ [.inr kvWrite], op.key ≠ kvWrite.key :=
    fun none => none _ (List.mem_append_right _ (.head _)) rfl
  unfold expected
  rw [if_neg reached, if_neg]
  rw [increments_append]
  simp [increments, increment]

theorem mergeWrite_expected (decimal : IsDecimal db) {kvWrite : KVWrite} (isDecimal : (stoi kvWrite.value).isSome)
    (fits : SumsFit db (ops ++ [.inr kvWrite])) :
    mergeWrite (expected db ops) kvWrite = some (expected db (ops ++ [.inr kvWrite])) := by
  obtain ⟨value, read⟩ := Option.isSome_iff_exists.mp isDecimal
  obtain ⟨⟨current, there, number⟩, elsewhere⟩ := mergeWrite_current decimal fits.prefix kvWrite
  have more : increments (ops ++ [.inr kvWrite]) kvWrite.key = increments ops kvWrite.key ++ [value] := by
    rw [increments_append]
    simp [increments, increment, read]
  have own := expected_write db ops kvWrite
  have inRange := fits.total kvWrite.key
  rw [more, List.sum_append, List.sum_singleton, ← Int.add_assoc] at own inRange
  unfold mergeWrite
  dsimp only
  rw [there, Option.bind_eq_bind, Option.bind_some, number, read]
  refine (if_pos inRange).trans ?_
  rw [Option.some.injEq]
  funext key
  by_cases same : key = kvWrite.key
  · rw [same, Function.update_self, own]
  · rw [Function.update_of_ne same, elsewhere key same]
    exact (expected_frame db ops (show MergeOp.key (.inr kvWrite) ≠ _ from Ne.symm same)).symm

theorem SumsFit.perm {others : List MergeOp} (fits : SumsFit db ops) (perm : others.Perm ops) : SumsFit db others :=
  fun key part subperm => fits key part (subperm.trans (perm.filterMap _).subperm)

theorem foldlM_merge (decimal : IsDecimal db) (suits : ∀ op ∈ ops, Suits db op) (fits : SumsFit db ops) :
    ops.foldlM merge (fun _ => none) = some (expected db ops) := by
  induction ops using List.reverseRecOn with
  | nil => rfl
  | append_singleton before op ih =>
    rw [List.foldlM_append, ih (fun op member => suits op (List.mem_append_left _ member)) fits.prefix]
    have own := suits op (List.mem_append_right _ (.head _))
    cases op with
    | inl kvRead => exact congrArg some (mergeRead_expected decimal (own.read kvRead rfl))
    | inr kvWrite =>
      change (mergeWrite (expected db before) kvWrite).bind some = _
      rw [mergeWrite_expected decimal (own.write kvWrite rfl) fits]
      rfl

end MergeOp

section Merge

open MergeOp DatabaseImpl

variable {heap : Heap} {database : DatabaseImpl Bytes} {transactionList : List Ref} {key : Bytes}

def mergeOps (heap : Heap) (transactionList : List Ref) : List MergeOp :=
  transactionList.flatMap fun tr => (heap tr).kvrwSet.ops

def Written (heap : Heap) (transactionList : List Ref) (key : Bytes) : Prop :=
  ∃ tr ∈ transactionList, ∃ kvWrite ∈ (heap tr).kvrwSet.writes, kvWrite.key = key

def incrementsOf (heap : Heap) (transactionList : List Ref) (key : Bytes) : List Int :=
  increments (mergeOps heap transactionList) key

structure MergeReady (heap : Heap) (database : DatabaseImpl Bytes) (transactionList : List Ref) : Prop where
  buffered : ∀ tr ∈ transactionList, database.rwSetBuffer (heap tr).tid = some tr
  decimal : IsDecimal database.db
  recorded : ∀ tr ∈ transactionList, ∀ kvRead ∈ (heap tr).kvrwSet.reads,
    kvRead.value = selectDB LevelDBStorage.slotOf database.db (kvRead.table, kvRead.key)
  increments : ∀ tr ∈ transactionList, ∀ kvWrite ∈ (heap tr).kvrwSet.writes, (stoi kvWrite.value).isSome
  fits : SumsFit database.db (mergeOps heap transactionList)

structure Merged (heap : Heap) (transactionList : List Ref) (db after : Contents Bytes) : Prop where
  written : ∀ key, Written heap transactionList key →
    after.number key = db.number key + (incrementsOf heap transactionList key).sum
  kept : ∀ key, ¬ Written heap transactionList key → after key = db key

theorem mem_ops {kvRWSet : KVRWSet} {op : MergeOp} : op ∈ kvRWSet.ops ↔
    (∃ kvRead ∈ kvRWSet.reads, op = .inl kvRead) ∨ ∃ kvWrite ∈ kvRWSet.writes, op = .inr kvWrite := by
  simp [KVRWSet.ops, eq_comm]

theorem written_iff : Written heap transactionList key ↔ incrementsOf heap transactionList key ≠ [] := by
  rw [incrementsOf, MergeOp.increments, ne_eq, List.filterMap_eq_nil_iff]
  push Not
  constructor
  · rintro ⟨tr, listed, kvWrite, member, same⟩
    refine ⟨.inr kvWrite, List.mem_flatMap.mpr ⟨tr, listed, mem_ops.mpr (.inr ⟨kvWrite, member, rfl⟩)⟩, ?_⟩
    simp [increment, same]
  · rintro ⟨op, inOps, some⟩
    obtain ⟨tr, listed, inSet⟩ := List.mem_flatMap.mp inOps
    rcases mem_ops.mp inSet with ⟨kvRead, -, rfl⟩ | ⟨kvWrite, member, rfl⟩
    · exact absurd rfl some
    · refine ⟨tr, listed, kvWrite, member, ?_⟩
      by_contra other
      exact some (if_neg other)

theorem MergeReady.perm (ready : MergeReady heap database transactionList) {others : List Ref}
    (perm : others.Perm transactionList) : MergeReady heap database others where
  buffered tr member := ready.buffered tr (perm.mem_iff.mp member)
  decimal := ready.decimal
  recorded tr member := ready.recorded tr (perm.mem_iff.mp member)
  increments tr member := ready.increments tr (perm.mem_iff.mp member)
  fits := ready.fits.perm (perm.flatMap_right _)

theorem incrementsOf_perm {others : List Ref} (perm : others.Perm transactionList) (key : Bytes) :
    (incrementsOf heap others key).Perm (incrementsOf heap transactionList key) :=
  (perm.flatMap_right _).filterMap _

theorem MergeReady.commitUpdateList (ready : MergeReady heap database transactionList)
    (down : database.commitPhase = false) :
    commitUpdateList heap database transactionList = some { database with
      db := fun slot => (expected database.db (mergeOps heap transactionList) slot).or (database.db slot)
      commitPhase := true } := by
  have sets : ∀ (refs : List Ref) (result : MergeResult), (∀ tr ∈ refs, database.rwSetBuffer (heap tr).tid = some tr) →
      (refs.foldlM (fun result tr => do
        let kvRWSet ← database.rwSetBuffer (heap tr).tid
        mergeSet result (heap kvRWSet).kvrwSet) result) = (mergeOps heap refs).foldlM merge result := by
    intro refs
    induction refs with
    | nil => exact fun _ _ => rfl
    | cons tr rest ih =>
      intro result buffered
      have first : mergeOps heap (tr :: rest) = (heap tr).kvrwSet.ops ++ mergeOps heap rest := List.flatMap_cons
      rw [first, List.foldlM_append, List.foldlM_cons, buffered tr (.head _)]
      change (mergeSet result (heap tr).kvrwSet).bind _ = _
      rw [mergeSet_eq]
      exact congrArg (Option.bind _) (funext fun result => ih result fun tr member => buffered tr (.tail _ member))
  have suits : ∀ op ∈ mergeOps heap transactionList, Suits database.db op := by
    intro op member
    obtain ⟨tr, listed, member⟩ := List.mem_flatMap.mp member
    constructor
    · rintro kvRead rfl
      rcases mem_ops.mp member with ⟨_, member, same⟩ | ⟨_, -, other⟩
      · cases same
        exact ready.recorded tr listed kvRead member
      · cases other
    · rintro kvWrite rfl
      rcases mem_ops.mp member with ⟨_, -, other⟩ | ⟨_, member, same⟩
      · cases other
      · cases same
        exact ready.increments tr listed kvWrite member
  unfold DatabaseImpl.commitUpdateList
  rw [if_neg (by rw [down]; decide), sets _ _ ready.buffered, foldlM_merge ready.decimal suits ready.fits]
  rfl

end Merge

end Blockchain
