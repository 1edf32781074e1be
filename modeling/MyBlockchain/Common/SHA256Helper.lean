import MyBlockchain.Transaction.MockTransaction

namespace Blockchain

/-- The context of the hash: the bytes fed since the last reset, and the two flags. A string is fed whole:
no message of protobuf comes near the 4 GiB at which its length would not fit `SHA256Input`. -/
structure SHA256Helper where
  fed : Bytes
  computed : Bool
  corrupted : Bool
  deriving DecidableEq, Repr

namespace SHA256Helper

def reset (_helper : SHA256Helper) : SHA256Helper := { fed := [], computed := false, corrupted := false }

/-- `SHA256Input`: the length is looked at first, then the flags. -/
def append (helper : SHA256Helper) (data : Bytes) : SHA256Helper × Bool :=
  if data = [] then (helper, true)
  else if helper.computed then ({ helper with corrupted := true }, false)
  else if helper.corrupted then (helper, false)
  else ({ helper with fed := helper.fed ++ data }, true)

/-- The digest is resized before `SHA256Result` can fail. -/
def execute (sha256 : Bytes → Bytes) (helper : SHA256Helper) : SHA256Helper × Bytes × Bool :=
  if helper.corrupted then (helper, List.replicate 32 0, false)
  else ({ helper with computed := true }, sha256 helper.fed, true)

/-- The `hash` that takes no digest: it forgets what was fed before. -/
def hash (helper : SHA256Helper) (data : Bytes) : SHA256Helper × Bool := helper.reset.append data

def hashTo (sha256 : Bytes → Bytes) (helper : SHA256Helper) (data : Bytes) : SHA256Helper × Bytes × Bool :=
  let (helper, fed) := helper.reset.append data
  if fed then helper.execute sha256 else (helper, [], false)

theorem append_running {helper : SHA256Helper} (data : Bytes) (running : helper.computed = false)
    (sound : helper.corrupted = false) : helper.append data = ({ helper with fed := helper.fed ++ data }, true) := by
  unfold append
  by_cases none : data = []
  · simp [none]
  · simp [none, running, sound]

@[simp] theorem hash_eq (helper : SHA256Helper) (data : Bytes) :
    helper.hash data = ({ fed := data, computed := false, corrupted := false }, true) :=
  append_running data rfl rfl

@[simp] theorem hashTo_eq (sha256 : Bytes → Bytes) (helper : SHA256Helper) (data : Bytes) :
    helper.hashTo sha256 data = ({ fed := data, computed := true, corrupted := false }, sha256 data, true) := by
  rw [hashTo, append_running data rfl rfl]
  simp [execute, reset]

end SHA256Helper

end Blockchain
