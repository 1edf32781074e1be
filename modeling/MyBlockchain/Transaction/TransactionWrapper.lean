import MyBlockchain.Transaction.MockTransaction

namespace Blockchain

structure TransactionWrapper where
  epoch : Nat
  transactionList : List Ref
  deriving DecidableEq, Repr

namespace TransactionWrapper

def new (epoch : Nat) : TransactionWrapper := { epoch, transactionList := [] }

def setEpoch (wrapper : TransactionWrapper) (epoch : Nat) : TransactionWrapper := { wrapper with epoch }

def size (wrapper : TransactionWrapper) : Nat := wrapper.transactionList.length

/-- A transaction of another epoch is dropped. -/
def pushTransaction (heap : Heap) (wrapper : TransactionWrapper) (t : Ref) : TransactionWrapper × Bool :=
  if (heap t).epoch ≠ wrapper.epoch then (wrapper, false)
  else ({ wrapper with transactionList := wrapper.transactionList ++ [t] }, true)

def pushTransactionUncheck (wrapper another : TransactionWrapper) : TransactionWrapper :=
  { wrapper with transactionList := wrapper.transactionList ++ another.transactionList }

theorem pushTransaction_of_epoch {heap : Heap} {wrapper : TransactionWrapper} {t : Ref}
    (same : (heap t).epoch = wrapper.epoch) :
    wrapper.pushTransaction heap t = ({ wrapper with transactionList := wrapper.transactionList ++ [t] }, true) := by
  simp [pushTransaction, same]

end TransactionWrapper

end Blockchain
