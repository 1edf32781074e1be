import MyBlockchain.Common.ConcurrentHashMapSteps
import MyBlockchain.Library.Runs

namespace Blockchain

open PartitionedMap (Map Splits)
open HashMapBuckets (bucketNumber)

namespace ConcurrentHashMap

theorem begin_view {N : Nat} {Key Value : Type} [NeZero N] {hasher : Key → Nat} (call : HashMapCall Key Value) :
    (begin hasher call : HashMapStage N Key Value).view = AtomicMap.begin call := by
  cases call with
  | insert | remove | contains | read | assign | size | clear => rfl

variable {N : Nat} {Thread Key Value : Type} [NeZero N] [DecidableEq Key] {hasher : Key → Nat}
  {world after : ConcurrentHashMap N Thread Key Value} {spec spec' : AtomicMap Thread Key Value}

/-- The atomic map that the buckets and the threads stand for. -/
structure Represents (hasher : Key → Nat) (world : ConcurrentHashMap N Thread Key Value)
    (spec : AtomicMap Thread Key Value) : Prop where
  splits : Splits (bucketNumber hasher) world.maps spec.whole
  freed : spec.freed = world.freed
  stage : spec.stage = fun thread => (world.stage thread).view
  returned : spec.returned = world.returned.map fun answer => (answer.thread, answer.call, answer.result)

theorem Represents.start : (start : ConcurrentHashMap N Thread Key Value).Represents hasher .start :=
  ⟨Splits.empty _, rfl, rfl, rfl⟩

theorem Represents.here (represents : world.Represents hasher spec) (thread : Thread) :
    spec.stage thread = (world.stage thread).view := congrFun represents.stage thread

theorem Represents.lookup (represents : world.Represents hasher spec) {key : Key} {i : Fin N}
    (place : bucketNumber hasher key = i) : (world.maps i).lookup key = spec.whole.lookup key :=
  place ▸ represents.splits.lookup key

theorem Represents.mem (represents : world.Represents hasher spec) {key : Key} {i : Fin N}
    (place : bucketNumber hasher key = i) : key ∈ world.maps i ↔ key ∈ spec.whole :=
  place ▸ represents.splits.mem_iff key

theorem Represents.subscript [Inhabited Value] (represents : world.Represents hasher spec) {key : Key} {i : Fin N}
    (place : bucketNumber hasher key = i) :
    Splits (bucketNumber hasher) (Function.update world.maps i (subscript (world.maps i) key).1)
      (SingleMap.call spec.whole (.read key)).1 := by
  subst place
  exact (@HashMapBuckets.index_refines _ _ _ ⟨world.maps⟩ _ _ _ _ _ represents.splits key).1

variable [DecidableEq Thread] {thread : Thread} {stage : HashMapStage N Key Value}

theorem Represents.advance (represents : world.Represents hasher spec)
    (set : after.stage = Function.update world.stage thread stage)
    (splits : Splits (bucketNumber hasher) after.maps spec'.whole) (freed : spec'.freed = after.freed)
    (stage' : spec'.stage = Function.update spec.stage thread stage.view)
    (returned : spec'.returned = after.returned.map fun answer => (answer.thread, answer.call, answer.result)) :
    after.Represents hasher spec' := by
  refine ⟨splits, freed, ?_, returned⟩
  rw [stage', represents.stage, set]
  funext other
  exact (Function.apply_update (fun _ => HashMapStage.view) world.stage thread stage other).symm

theorem Represents.stutter (represents : world.Represents hasher spec)
    (set : after.stage = Function.update world.stage thread stage) (maps : after.maps = world.maps)
    (freed : after.freed = world.freed) (returned : after.returned = world.returned)
    (same : stage.view = (world.stage thread).view) : after.Represents hasher spec := by
  refine represents.advance set (maps ▸ represents.splits) (freed ▸ represents.freed) ?_ (returned ▸ represents.returned)
  rw [same, ← represents.here, Function.update_eq_self]

variable [Inhabited Value]

theorem Represents.perform (represents : world.Represents hasher spec) {call : HashMapCall Key Value}
    (result : HashMapResult Value) (set : after.stage = Function.update world.stage thread stage)
    (view : stage.view = .answer call (some result)) (same : (SingleMap.call spec.whole call).2 = result)
    (splits : Splits (bucketNumber hasher) after.maps (SingleMap.call spec.whole call).1)
    (freed : spec.freedBy call = after.freed) (returned : after.returned = world.returned) :
    after.Represents hasher (spec.perform thread call) := by
  refine represents.advance set splits freed ?_ (returned ▸ represents.returned)
  rw [view, ← same]
  rfl

theorem apply_simulates (sound : Sound hasher world) (represents : world.Represents hasher spec)
    {call : HashMapCall Key Value} {i : Fin N} {finalValue : Int}
    (here : world.stage thread = .applyFunc call i finalValue) :
    ∃ spec', AtomicMap.Steps (bucketNumber hasher : Key → Fin N) spec spec' ∧
      (world.applyStep thread i finalValue call).Represents hasher spec' := by
  have place := sound.valid thread
  have seen := represents.here thread
  rw [here] at place seen
  cases call with
  | insert key value =>
    have found := represents.lookup (place key rfl)
    cases there : (world.maps i).lookup key with
    | none =>
      refine ⟨spec, .refl, represents.stutter rfl rfl rfl rfl ?_⟩
      rw [here, there]
      rfl
    | some old =>
      have member : key ∈ spec.whole := Finmap.mem_of_lookup_eq_some (found.symm.trans there)
      refine ⟨_, .single (.perform thread _ seen rfl),
        represents.perform (.flag false) rfl ?_ ?_ ?_ represents.freed rfl⟩
      · rw [there]
        rfl
      · rw [SingleMap.call, if_pos member]
      · rw [SingleMap.call, if_pos member]
        exact represents.splits
  | remove key =>
    have found := represents.lookup (place key rfl)
    cases there : (world.maps i).lookup key with
    | some old =>
      refine ⟨spec, .refl, represents.stutter rfl rfl rfl rfl ?_⟩
      rw [here, there]
      rfl
    | none =>
      have missing : key ∉ spec.whole := Finmap.lookup_eq_none.mp (found.symm.trans there)
      refine ⟨_, .single (.perform thread _ seen rfl), represents.perform (.flag false) rfl ?_ ?_ ?_ ?_ rfl⟩
      · rw [there]
        rfl
      · rw [SingleMap.call, if_neg missing]
      · rw [SingleMap.call, if_neg missing]
        exact represents.splits
      · rw [AtomicMap.freedBy, if_neg missing]
        exact represents.freed
  | contains key =>
    refine ⟨_, .single (.perform thread _ seen rfl),
      represents.perform _ rfl rfl ?_ represents.splits represents.freed rfl⟩
    rw [SingleMap.call, represents.lookup (place key rfl)]
    refine congrArg HashMapResult.flag ?_
    rw [Bool.eq_iff_iff, Finmap.lookup_isSome, decide_eq_true_eq]
  | read key | assign key value =>
    refine ⟨_, .single (.refer thread _ key seen rfl rfl), represents.advance rfl
      (represents.subscript (place key rfl)) represents.freed ?_ represents.returned⟩
    rw [represents.freed]
    rfl
  | size =>
    have count : (world.maps i).keys.card = {key ∈ spec.whole.keys | bucketNumber hasher key = i}.card :=
      congrArg Finset.card (represents.splits.keys i)
    refine ⟨_, .single (.count thread i finalValue seen), represents.advance rfl represents.splits represents.freed ?_
      represents.returned⟩
    rw [← count]
    rfl
  | clear =>
    obtain ⟨wiped, without⟩ :=
      PartitionedMap.exists_without spec.whole {key ∈ spec.whole.keys | bucketNumber hasher key = i}
    have wipes (key : Key) :
        wiped.lookup key = if bucketNumber hasher key = i then none else spec.whole.lookup key := by
      rw [without key]
      by_cases place : bucketNumber hasher key = i
      · rw [if_pos place]
        split
        · rfl
        · rename_i missing
          rw [Finset.mem_filter, Finmap.mem_keys, not_and] at missing
          exact Finmap.lookup_eq_none.mpr fun member => missing member place
      · rw [if_neg place, if_neg]
        exact fun member => place (Finset.mem_filter.mp member).2
    refine ⟨_, .single (.wipe thread i finalValue wiped seen wipes), represents.advance rfl
      (represents.splits.wipe i wipes) ?_ rfl represents.returned⟩
    funext key
    rw [represents.freed]
    have same : (bucketNumber hasher key = i ∧ key ∈ spec.whole) = (key ∈ world.maps i) := by
      rw [← Finmap.mem_keys, ← Finmap.mem_keys, represents.splits.keys i, Finset.mem_filter, and_comm]
    simp only [same]
    rfl

theorem run_simulates (sound : Sound hasher world) (represents : world.Represents hasher spec)
    (ran : world.run hasher thread = some after) :
    ∃ spec', AtomicMap.Steps (bucketNumber hasher : Key → Fin N) spec spec' ∧ after.Represents hasher spec' := by
  have valid := sound.valid thread
  have seen := represents.here thread
  unfold run at ran
  split at ran <;> cases ran <;> rename_i here <;> rw [here] at valid seen
  · rename_i call i finalValue
    by_cases inside : i < N
    · refine ⟨spec, .refl, represents.stutter rfl rfl rfl rfl ?_⟩
      rw [dif_pos inside, here]
      simp only [HashMapStage.view]
      rw [show call.key = none from valid]
    · refine ⟨_, .single (.finish thread call i finalValue seen (Nat.le_of_not_lt inside)),
        represents.advance rfl represents.splits represents.freed ?_ represents.returned⟩
      rw [dif_neg inside]
      rfl
  · split
    · exact ⟨spec, .refl, represents⟩
    · exact ⟨spec, .refl, represents.stutter rfl rfl rfl rfl (by rw [here]; rfl)⟩
  · exact apply_simulates sound represents here
  · rename_i key value i
    obtain ⟨rfl, missing⟩ := valid
    rw [represents.mem rfl] at missing
    refine ⟨_, .single (.perform thread _ seen rfl), represents.perform (.flag true) rfl rfl ?_ ?_ represents.freed rfl⟩
    · rw [SingleMap.call, if_neg missing]
    · rw [SingleMap.call, if_neg missing, subscript_insert]
      exact represents.splits.insert key value
  · rename_i key i
    obtain ⟨rfl, member⟩ := valid
    rw [represents.mem rfl] at member
    refine ⟨_, .single (.perform thread _ seen rfl), represents.perform (.flag true) rfl rfl ?_ ?_ ?_ rfl⟩
    · rw [SingleMap.call, if_pos member]
    · rw [SingleMap.call, if_pos member]
      exact represents.splits.erase key
    · rw [AtomicMap.freedBy, if_pos member, represents.freed]
  · exact ⟨spec, .refl, represents.stutter rfl rfl rfl rfl (by rw [here]; rfl)⟩
  · rename_i call key node
    obtain ⟨own, refers, -, there⟩ := valid
    dsimp only
    by_cases live : world.freed key = node
    · rw [if_pos live]
      have access : spec.stage thread = .access call key (spec.freed key) := by
        rw [seen, represents.freed, live]
        rfl
      cases call with
      | assign key' value =>
        cases own
        refine ⟨_, .single (.access thread _ key access),
          represents.perform .done rfl rfl rfl (represents.splits.insert key value) represents.freed rfl⟩
      | read key' =>
        cases own
        obtain ⟨value, found⟩ := Finmap.mem_iff.mp (there live)
        have same := represents.lookup (rfl : bucketNumber hasher key = (bucketNumber hasher key : Fin N))
        rw [found] at same
        refine ⟨_, .single (.access thread _ key access),
          represents.perform (.value value) rfl ?_ ?_ ?_ represents.freed rfl⟩
        · rw [found]
          rfl
        · rw [SingleMap.call, ← same]
        · rw [SingleMap.call, ← same]
          exact represents.splits
      | insert | remove | contains | size | clear => cases refers
    · rw [if_neg live]
      refine ⟨_, .single (.dangling thread call key node seen ?_), represents.advance rfl represents.splits
        represents.freed rfl represents.returned⟩
      rw [represents.freed]
      exact live
  · rename_i call result
    refine ⟨_, .single (.return thread call result seen),
      represents.advance rfl represents.splits represents.freed rfl ?_⟩
    rw [List.map_append, represents.returned]
    rfl

variable {moves : List (HashMapMove Thread Key Value)}

theorem step_simulates {move : HashMapMove Thread Key Value} (sound : Sound hasher world)
    (represents : world.Represents hasher spec) (stepped : world.step hasher move = some after) :
    ∃ spec', AtomicMap.Steps (bucketNumber hasher : Key → Fin N) spec spec' ∧ after.Represents hasher spec' := by
  cases move with
  | call thread call =>
    simp only [step] at stepped
    split at stepped <;> cases stepped
    rename_i idle
    have seen := represents.here thread
    rw [idle] at seen
    refine ⟨_, .single (.call thread call seen),
      represents.advance rfl represents.splits represents.freed ?_ represents.returned⟩
    rw [begin_view]
    rfl
  | run thread =>
    obtain ⟨next, ran, rfl⟩ := Option.map_eq_some_iff.mp stepped
    obtain ⟨spec', steps, seen⟩ := run_simulates sound represents ran
    exact ⟨spec', steps, seen.splits, seen.freed, seen.stage, seen.returned⟩

theorem run_represents (ran : moves.foldlM (step hasher) start = some world) :
    Sound hasher world ∧ ∃ spec, AtomicMap.Steps (bucketNumber hasher : Key → Fin N) .start spec ∧
      world.Represents hasher spec := by
  refine Runs.invariant (fun world => Sound hasher world ∧
      ∃ spec, AtomicMap.Steps (bucketNumber hasher : Key → Fin N) .start spec ∧ world.Represents hasher spec)
    (fun stepped before => ?_) ran ⟨.start, .start, .refl, .start⟩
  obtain ⟨sound, spec, steps, represents⟩ := before
  obtain ⟨spec', more, seen⟩ := step_simulates sound represents stepped
  exact ⟨step_sound sound stepped, spec', steps.trans more, seen⟩

/-- For all that the threads see, the calls of a `HashMap` take effect one after the other on one map, however their
operations under the locks, and those on the locks, interleave. -/
theorem hash_map_refines (ran : moves.foldlM (step hasher) start = some world) :
    ∃ spec, AtomicMap.Steps (bucketNumber hasher : Key → Fin N) .start spec ∧ world.Represents hasher spec :=
  (run_represents ran).2

/-- Two threads insert one key: the second spins until the first is through. -/
def racingMoves : List (HashMapMove Bool Nat Nat) :=
  [.call false (.insert 1 5), .call true (.insert 1 6), .run false, .run true, .run false, .run true, .run false,
    .run true, .run false, .run true, .run false, .run true, .run true, .run true]

theorem hash_map_refines_racing :
    ∃ world : ConcurrentHashMap 2 Bool Nat Nat, racingMoves.foldlM (step id) start = some world ∧
      (world.returned.map fun answer => (answer.thread, answer.result)) =
        [(false, some (.flag true)), (true, some (.flag false))] ∧
      ∃ spec, AtomicMap.Steps (bucketNumber id : Nat → Fin 2) .start spec ∧ world.Represents id spec :=
  ⟨_, rfl, rfl, @hash_map_refines 2 Bool Nat Nat _ _ id _ _ _ racingMoves rfl⟩

end ConcurrentHashMap

end Blockchain
