import MyBlockchain.Common.SHA256Refinement

namespace Blockchain

open SecureHash (Bits bits)

structure HelperObject where
  ctx : SHA256Context

namespace HelperObject

open SHA256 (shaSuccess sha256H0 sha256HashSize)

def reset (object : HelperObject) : HelperObject := ⟨SHA256.reset object.ctx sha256H0⟩

def append (object : HelperObject) (data : Bytes) : Option (HelperObject × Bool) := do
  let (ctx, code) ← SHA256.input object.ctx data (HashCall.narrowed data)
  return (⟨ctx⟩, code = shaSuccess)

def execute (object : HelperObject) : Option (HelperObject × Bytes × Bool) := do
  let (ctx, code, digest) ← SHA256.resultN object.ctx sha256HashSize
  return (⟨ctx⟩, digest.getD (List.replicate sha256HashSize 0), code = shaSuccess)

def hash (object : HelperObject) (data : Bytes) : Option (HelperObject × Bool) := object.reset.append data

def hashTo (object : HelperObject) (data : Bytes) : Option (HelperObject × Bytes × Bool) := do
  let (object, fed) ← object.reset.append data
  if fed then object.execute else return (object, [], false)

end HelperObject

inductive HelperRequest
  | reset
  | append (data : Bytes)
  | execute
  | hash (data : Bytes)
  | hashTo (data : Bytes)

namespace HelperRequest

def data : HelperRequest → Bytes
  | append data | hash data | hashTo data => data
  | reset | execute => []

def Fresh : HelperRequest → Prop
  | reset | hash _ | hashTo _ => True
  | append _ | execute => False

def onObject (object : HelperObject) : HelperRequest → Option (HelperObject × Bool × Option Bytes)
  | reset => some (object.reset, true, none)
  | append data => (object.append data).map fun (object, done) => (object, done, none)
  | execute => object.execute.map fun (object, digest, done) => (object, done, some digest)
  | hash data => (object.hash data).map fun (object, done) => (object, done, none)
  | hashTo data => (object.hashTo data).map fun (object, digest, done) => (object, done, some digest)

def onHelper (sha256 : Bytes → Bytes) (helper : SHA256Helper) : HelperRequest → SHA256Helper × Bool × Option Bytes
  | reset => (helper.reset, true, none)
  | append data => ((helper.append data).1, (helper.append data).2, none)
  | execute =>
    ((helper.execute sha256).1, (helper.execute sha256).2.2, some (helper.execute sha256).2.1)
  | hash data => ((helper.hash data).1, (helper.hash data).2, none)
  | hashTo data =>
    ((helper.hashTo sha256 data).1, (helper.hashTo sha256 data).2.2, some (helper.hashTo sha256 data).2.1)

def objectAnswers : HelperObject → List HelperRequest → Option (List (Bool × Option Bytes))
  | _, [] => some []
  | object, next :: calls => do
    let (object, answer) ← onObject object next
    let later ← objectAnswers object calls
    return answer :: later

def helperAnswers (sha256 : Bytes → Bytes) : SHA256Helper → List HelperRequest → List (Bool × Option Bytes)
  | _, [] => []
  | helper, next :: calls => (onHelper sha256 helper next).2 :: helperAnswers sha256 (onHelper sha256 helper next).1 calls

theorem fed_length (sha256 : Bytes → Bytes) (helper : SHA256Helper) (next : HelperRequest) :
    (onHelper sha256 helper next).1.fed.length ≤ helper.fed.length + next.data.length := by
  cases next with
  | reset => exact Nat.zero_le _
  | append data =>
    simp only [onHelper, SHA256Helper.append, HelperRequest.data]
    split
    · exact Nat.le_add_right _ _
    · split
      · exact Nat.le_add_right _ _
      · split
        · exact Nat.le_add_right _ _
        · exact Nat.le_of_eq List.length_append
  | execute =>
    simp only [onHelper, SHA256Helper.execute, HelperRequest.data]
    split <;> exact Nat.le_add_right _ _
  | hash data =>
    rw [onHelper, SHA256Helper.hash_eq]
    exact Nat.le_add_left _ _
  | hashTo data =>
    rw [onHelper, SHA256Helper.hashTo_eq]
    exact Nat.le_add_left _ _

end HelperRequest

namespace SHA256

/-- The machine that a helper abstracts: no message comes near the 2^64 bits at which input fails. -/
def machineOf (helper : SHA256Helper) : HashMachine :=
  if helper.corrupted then .refused shaStateError
  else if helper.computed then .finished SecureHash.initial256 (bits helper.fed)
  else .collecting SecureHash.initial256 helper.fed

variable {object : HelperObject} {helper : SHA256Helper}

theorem reset_refines (object : HelperObject) (helper : SHA256Helper) :
    Behaves object.reset.ctx (machineOf helper.reset) := by
  have fresh := Behaves.collecting (reset_collects object.ctx sha256H0)
  rw [sha256H0_eq] at fresh
  exact fresh

theorem append_machine {data : Bytes} (fits : 8 * (helper.fed.length + data.length) < 2 ^ 64) :
    (machineOf helper).input data =
      (machineOf (helper.append data).1, if (helper.append data).2 then shaSuccess else shaStateError) := by
  unfold SHA256Helper.append
  by_cases none : data = []
  · rw [if_pos none, none]
    unfold machineOf
    cases helper.corrupted <;> cases helper.computed <;> simp [HashMachine.input]
  · rw [if_neg none]
    cases corrupted : helper.corrupted with
    | true => cases computed : helper.computed <;> simp [machineOf, HashMachine.input, none, corrupted]
    | false =>
      cases computed : helper.computed with
      | true => simp [machineOf, HashMachine.input, none, corrupted, computed]
      | false =>
        rw [machineOf, corrupted, computed]
        simp only [Bool.false_eq_true, if_false, if_true, HashMachine.input, if_pos (Or.inr fits), machineOf]

theorem input_refines {ctx : SHA256Context} (behaves : Behaves ctx (machineOf helper)) {data : Bytes}
    (narrow : data.length < 2 ^ 32) (fits : 8 * (helper.fed.length + data.length) < 2 ^ 64) :
    ∃ after, input ctx data (HashCall.narrowed data) =
        some (after, if (helper.append data).2 then shaSuccess else shaStateError) ∧
      Behaves after (machineOf (helper.append data).1) := by
  obtain ⟨after, fed, onward⟩ := behaves.input data
  rw [Nat.mod_eq_of_lt narrow, List.take_length, append_machine fits] at fed onward
  exact ⟨after, fed, onward⟩

theorem append_refines (behaves : Behaves object.ctx (machineOf helper)) {data : Bytes}
    (narrow : data.length < 2 ^ 32) (fits : 8 * (helper.fed.length + data.length) < 2 ^ 64) :
    ∃ after, object.append data = some (after, (helper.append data).2) ∧
      Behaves after.ctx (machineOf (helper.append data).1) := by
  obtain ⟨ctx, fed, onward⟩ := input_refines behaves narrow fits
  refine ⟨⟨ctx⟩, ?_, onward⟩
  rw [HelperObject.append, fed]
  cases (helper.append data).2 <;> rfl

theorem execute_machine (fits : 8 * helper.fed.length < 2 ^ 64) :
    (machineOf helper).result (8 * sha256HashSize) =
      (machineOf (helper.execute digest).1,
        if helper.corrupted then (shaStateError, none) else (shaSuccess, some (bits (digest helper.fed)))) := by
  have whole : (SecureHash.digest SecureHash.initial256 (bits helper.fed)).take (8 * sha256HashSize) =
      bits (digest helper.fed) := by
    have size := SecureHash.sha256_length (bits helper.fed)
    rw [digest_eq fits]
    exact List.take_of_length_le (Nat.le_of_eq size)
  unfold SHA256Helper.execute
  cases corrupted : helper.corrupted with
  | true => simp [machineOf, HashMachine.result, corrupted]
  | false => cases computed : helper.computed <;> simp [machineOf, HashMachine.result, corrupted, computed, whole]

theorem result_refines {ctx : SHA256Context} (behaves : Behaves ctx (machineOf helper))
    (fits : 8 * helper.fed.length < 2 ^ 64) :
    ∃ after, resultN ctx sha256HashSize = some (after,
        if helper.corrupted then (shaStateError, none) else (shaSuccess, some (digest helper.fed))) ∧
      Behaves after (machineOf (helper.execute digest).1) := by
  obtain ⟨after, result, resulted, same, onward⟩ := @Behaves.result _ _ behaves sha256HashSize (Nat.le_refl _)
  rw [execute_machine fits] at resulted same onward
  refine ⟨after, ?_, onward⟩
  rw [resulted]
  cases corrupted : helper.corrupted with
  | true =>
    rw [corrupted] at same
    rw [Option.map_eq_none_iff.mp same]
    rfl
  | false =>
    rw [corrupted] at same
    have right : result = some (digest helper.fed) :=
      Option.map_injective (fun _ _ => SecureHash.bits_injective) same
    rw [right]
    rfl

theorem execute_refines (behaves : Behaves object.ctx (machineOf helper)) (fits : 8 * helper.fed.length < 2 ^ 64) :
    ∃ after, object.execute = some (after, (helper.execute digest).2) ∧
      Behaves after.ctx (machineOf (helper.execute digest).1) := by
  obtain ⟨ctx, resulted, onward⟩ := result_refines behaves fits
  refine ⟨⟨ctx⟩, ?_, onward⟩
  rw [HelperObject.execute, resulted, SHA256Helper.execute]
  cases helper.corrupted <;> rfl

theorem call_refines (behaves : Behaves object.ctx (machineOf helper)) (next : HelperRequest)
    (narrow : next.data.length < 2 ^ 32) (fits : helper.fed.length + next.data.length < 2 ^ 61) :
    ∃ after, next.onObject object = some (after, (next.onHelper digest helper).2) ∧
      Behaves after.ctx (machineOf (next.onHelper digest helper).1) := by
  have bits : 8 * (helper.fed.length + next.data.length) < 2 ^ 64 := by omega
  have fresh : 8 * (helper.reset.fed.length + next.data.length) < 2 ^ 64 := by
    have none : helper.reset.fed.length = 0 := rfl
    omega
  cases next with
  | reset => exact ⟨object.reset, rfl, reset_refines object helper⟩
  | append data =>
    obtain ⟨after, appended, onward⟩ := @append_refines _ _ behaves data narrow bits
    refine ⟨after, ?_, onward⟩
    rw [HelperRequest.onObject, appended]
    rfl
  | execute =>
    obtain ⟨after, executed, onward⟩ := execute_refines behaves (by omega)
    refine ⟨after, ?_, onward⟩
    rw [HelperRequest.onObject, executed]
    rfl
  | hash data =>
    obtain ⟨after, appended, onward⟩ := @append_refines _ _ (reset_refines object helper) data narrow fresh
    refine ⟨after, ?_, onward⟩
    rw [HelperRequest.onObject, HelperObject.hash, appended]
    rfl
  | hashTo data =>
    obtain ⟨middle, appended, between⟩ := @append_refines _ _ (reset_refines object helper) data narrow fresh
    have fed : helper.reset.append data = ({ fed := data, computed := false, corrupted := false }, true) :=
      SHA256Helper.append_running data rfl rfl
    rw [fed] at appended between
    have short : 8 * data.length < 2 ^ 64 := by
      simp only [HelperRequest.data] at narrow
      omega
    obtain ⟨after, executed, onward⟩ := execute_refines between short
    refine ⟨after, ?_, ?_⟩
    · rw [HelperRequest.onObject, HelperObject.hashTo, appended]
      show (HelperObject.execute middle).map _ = _
      rw [executed, HelperRequest.onHelper, SHA256Helper.hashTo, fed]
      rfl
    · rw [HelperRequest.onHelper, SHA256Helper.hashTo, fed]
      exact onward

theorem answers_refine (behaves : Behaves object.ctx (machineOf helper)) (calls : List HelperRequest)
    (narrow : ∀ next ∈ calls, next.data.length < 2 ^ 32)
    (fits : helper.fed.length + (calls.map fun next => next.data.length).sum < 2 ^ 61) :
    HelperRequest.objectAnswers object calls = some (HelperRequest.helperAnswers digest helper calls) := by
  induction calls generalizing object helper with
  | nil => rfl
  | cons next calls ih =>
    rw [List.map_cons, List.sum_cons] at fits
    obtain ⟨after, called, onward⟩ := call_refines behaves next (narrow next (List.mem_cons_self ..)) (by omega)
    have grown := HelperRequest.fed_length digest helper next
    have later := ih onward (fun other member => narrow other (List.mem_cons_of_mem _ member)) (by omega)
    rw [HelperRequest.objectAnswers, called, HelperRequest.helperAnswers]
    show HelperRequest.objectAnswers after calls >>= _ = _
    rw [later]
    rfl

/-- The helper over its context answers like the helper that holds what was fed, from the first call that forgets what
was before. -/
theorem helper_refines (object : HelperObject) (helper : SHA256Helper) (first : HelperRequest) (calls : List HelperRequest)
    (fresh : first.Fresh) (narrow : ∀ next ∈ first :: calls, next.data.length < 2 ^ 32)
    (fits : ((first :: calls).map fun next => next.data.length).sum < 2 ^ 61) :
    HelperRequest.objectAnswers object (first :: calls) =
      some (HelperRequest.helperAnswers digest helper (first :: calls)) := by
  -- nothing of the state before the first call is in its answer, nor in the state after it
  have swap : HelperRequest.onObject object first = HelperRequest.onObject object.reset first ∧
      HelperRequest.onHelper digest helper first = HelperRequest.onHelper digest helper.reset first := by
    cases first with
    | reset => exact ⟨rfl, rfl⟩
    | hash data => exact ⟨rfl, rfl⟩
    | hashTo data => exact ⟨rfl, rfl⟩
    | append data => cases fresh
    | execute => cases fresh
  have whole := answers_refine (reset_refines object helper) (first :: calls) narrow
    (by rw [show helper.reset.fed.length = 0 from rfl, Nat.zero_add]; exact fits)
  rw [HelperRequest.objectAnswers, HelperRequest.helperAnswers, swap.1, swap.2]
  exact whole

/-- A helper on the stack, after which an execute and a late append are refused. -/
theorem helper_refines_late_append :
    HelperRequest.objectAnswers ⟨counted 8⟩ [.reset, .append [1, 2], .append [3], .execute, .append [4], .execute] =
      some (HelperRequest.helperAnswers digest { fed := [9], computed := true, corrupted := false }
        [.reset, .append [1, 2], .append [3], .execute, .append [4], .execute]) :=
  helper_refines ⟨counted 8⟩ { fed := [9], computed := true, corrupted := false } .reset
    [.append [1, 2], .append [3], .execute, .append [4], .execute] trivial (by decide) (by decide)

theorem hashTo_eq (object : HelperObject) {data : Bytes} (narrow : data.length < 2 ^ 32) :
    ∃ after, object.hashTo data = some (after, digest data, true) := by
  have fits : (([HelperRequest.hashTo data]).map fun next => next.data.length).sum < 2 ^ 61 := by
    simp only [List.map_cons, List.map_nil, List.sum_cons, List.sum_nil, HelperRequest.data]
    omega
  have answered := helper_refines object { fed := [], computed := false, corrupted := false } (.hashTo data) []
    trivial (fun next member => by rw [List.mem_singleton.mp member]; exact narrow) fits
  simp only [HelperRequest.helperAnswers, HelperRequest.onHelper, SHA256Helper.hashTo_eq, HelperRequest.objectAnswers,
    HelperRequest.onObject] at answered
  cases hashed : object.hashTo data with
  | none =>
    rw [hashed] at answered
    cases answered
  | some result =>
    obtain ⟨after, written, done⟩ := result
    rw [hashed] at answered
    have same : (done, some written) = (true, some (digest data)) := by simpa using answered
    obtain ⟨rfl, written⟩ := Prod.mk.inj same
    rw [Option.some.inj written]
    exact ⟨after, rfl⟩

/-- A helper hashes two different strings to different digests, or two different blocks that were processed for them
collide in `SHA224_256ProcessMessageBlock`. -/
theorem helper_digest_binds (object object' : HelperObject) (data other : Bytes) (narrow : data.length < 2 ^ 32)
    (narrow' : other.length < 2 ^ 32) (different : data ≠ other) :
    (object.hashTo data).map (fun result => result.2) ≠ (object'.hashTo other).map (fun result => result.2) ∨
      BlockStream.Collide compress sha256H0 (paddedBlocks data) (paddedBlocks other) := by
  refine or_iff_not_imp_left.mpr fun notDistinct => ?_
  have same := of_not_not notDistinct
  obtain ⟨after, hashed⟩ := hashTo_eq object narrow
  obtain ⟨after', hashed'⟩ := hashTo_eq object' narrow'
  rw [hashed, hashed'] at same
  have digests : digest data = digest other := (Prod.mk.inj (Option.some.inj same)).1
  exact (digest_binds (by omega) (by omega) digests).resolve_left different

/-- The second string is the first with the byte that its padding starts with. -/
theorem helper_digest_binds_padded :
    ((⟨counted 8⟩ : HelperObject).hashTo [1]).map (fun result => result.2) ≠
        ((⟨counted 8⟩ : HelperObject).hashTo [1, 128]).map (fun result => result.2) ∨
      BlockStream.Collide compress sha256H0 (paddedBlocks [1]) (paddedBlocks [1, 128]) :=
  helper_digest_binds ⟨counted 8⟩ ⟨counted 8⟩ [1] [1, 128] (by decide) (by decide) (by decide)

end SHA256

/-- `mt_hash` with the context it leaves uninitialized; `none` is an error code. -/
def mtHash (ctx : SHA256Context) (left right : Bytes) : Option Bytes := do
  let ctx := SHA256.reset ctx SHA256.sha256H0
  let (ctx, code) ← SHA256.input ctx left 32
  if code ≠ SHA256.shaSuccess then none
  else do
    let (ctx, code) ← SHA256.input ctx right 32
    if code ≠ SHA256.shaSuccess then none
    else do
      let (_, code, messageDigest) ← SHA256.resultN ctx SHA256.sha256HashSize
      if code ≠ SHA256.shaSuccess then none else messageDigest

namespace SHA256

/-- The hash of a pair of nodes never fails, whatever was on the stack, and is that of the two hashes end to end. -/
theorem mtHash_eq (ctx : SHA256Context) (left right : Bytes) (length : left.length = 32)
    (length' : right.length = 32) : mtHash ctx left right = some (digest (left ++ right)) := by
  have narrow (hash : Bytes) (size : hash.length = 32) : HashCall.narrowed hash = 32 := by
    rw [HashCall.narrowed, size]
    rfl
  have start := reset_refines ⟨ctx⟩ { fed := [], computed := false, corrupted := false }
  obtain ⟨first, fed, behaves⟩ := input_refines start (by rw [length]; decide)
    (by rw [length, show SHA256Helper.fed _ = [] from rfl]; decide)
  rw [SHA256Helper.append_running left rfl rfl] at fed behaves
  obtain ⟨second, fed', behaves'⟩ := input_refines behaves (by rw [length']; decide)
    (by simp only [SHA256Helper.reset, List.nil_append, length, length']; decide)
  rw [SHA256Helper.append_running right rfl rfl] at fed' behaves'
  obtain ⟨last, resulted, -⟩ := result_refines behaves'
    (by simp only [SHA256Helper.reset, List.nil_append, List.length_append, length, length']; decide)
  rw [narrow left length] at fed
  rw [narrow right length'] at fed'
  rw [mtHash]
  dsimp only [HelperObject.reset] at fed
  simp only [fed, fed', resulted, Option.bind_eq_bind, Option.bind_some]
  rfl

end SHA256

end Blockchain
