import Mathlib.Logic.Function.Basic

namespace Blockchain

/-- A `std::string`, or a protobuf `bytes` or `string` field. -/
abbrev Bytes := List UInt8

structure KVRead where
  key : Bytes
  value : Bytes
  table : Bytes
  deriving DecidableEq, Repr

structure KVWrite where
  table : Bytes
  key : Bytes
  isDelete : Bool
  value : Bytes
  deriving DecidableEq, Repr

structure KVRWSet where
  reads : List KVRead
  writes : List KVWrite
  deriving DecidableEq, Repr

namespace KVRWSet

def empty : KVRWSet := { reads := [], writes := [] }

def append (first second : KVRWSet) : KVRWSet :=
  { reads := first.reads ++ second.reads, writes := first.writes ++ second.writes }

@[simp] theorem empty_append (rwSet : KVRWSet) : empty.append rwSet = rwSet := rfl

def readKeys (rwSet : KVRWSet) : Set (Bytes × Bytes) :=
  fun key => ∃ read ∈ rwSet.reads, (read.table, read.key) = key

def writeKeys (rwSet : KVRWSet) : Set (Bytes × Bytes) :=
  fun key => ∃ write ∈ rwSet.writes, (write.table, write.key) = key

end KVRWSet

inductive TransactionResult
  | PENDING | COMMIT | ABORT | ABORT_NO_RETRY
  deriving DecidableEq, Repr

structure TransactionPayload where
  header : Bytes
  payload : Bytes
  nonce : Nat
  digest : Bytes
  deriving DecidableEq, Repr

namespace TransactionPayload

def default : TransactionPayload := { header := [], payload := [], nonce := 0, digest := [] }

end TransactionPayload

structure MockTransaction where
  epoch : Nat
  tid : Nat
  transactionResult : TransactionResult
  transactionPayload : TransactionPayload
  kvrwSet : KVRWSet
  deriving DecidableEq, Repr

abbrev Ref := Nat

abbrev Heap := Ref → MockTransaction

namespace MockTransaction

def new : MockTransaction :=
  { epoch := 0, tid := 0, transactionResult := .PENDING, transactionPayload := .default, kvrwSet := .empty }

def setEpoch (transaction : MockTransaction) (epoch : Nat) : MockTransaction :=
  { transaction with epoch }

def setTransactionID (transaction : MockTransaction) (tid : Nat) : MockTransaction :=
  { transaction with tid }

def setTransactionResult (transaction : MockTransaction) (transactionResult : TransactionResult) :
    MockTransaction :=
  { transaction with transactionResult }

def resetTransaction (transaction : MockTransaction) : MockTransaction :=
  { transaction with epoch := 0, kvrwSet := .empty, transactionResult := .PENDING }

/-- What the constructors and `resetTransaction` leave: nothing recorded, nothing decided. -/
structure Fresh (transaction : MockTransaction) : Prop where
  pending : transaction.transactionResult = .PENDING
  empty : transaction.kvrwSet = .empty

theorem resetTransaction_fresh (transaction : MockTransaction) : transaction.resetTransaction.Fresh :=
  ⟨rfl, rfl⟩

end MockTransaction

end Blockchain
