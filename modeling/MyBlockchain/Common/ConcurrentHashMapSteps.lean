import MyBlockchain.Common.AtomicMap
import MyBlockchain.Common.HashMapRefinement
import MyBlockchain.Library.LockTable

namespace Blockchain

open LockTable (Exclusive)
open PartitionedMap (Map Splits)
open HashMapBuckets (bucketNumber)

namespace HashMapStage

variable {N : Nat} {Key Value : Type}

def holds : HashMapStage N Key Value → Option (Fin N)
  | .applyFunc _ i _ | .put _ _ i | .erase _ i | .unlock i _ => some i
  | _ => none

def view : HashMapStage N Key Value → AtomicStage Key Value
  | .idle => .idle
  | .loop call i finalValue => .passing call i finalValue
  | .lock call i finalValue | .applyFunc call i finalValue =>
    match call.key with
    | some _ => .called call
    | none => .passing call i finalValue
  | .put key value _ => .called (.insert key value)
  | .erase key _ => .called (.remove key)
  | .unlock _ next => next.view
  | .access call key node => .access call key node
  | .answer call result => .answer call result

variable [NeZero N] (hasher : Key → Nat)

/-- A thread that has found its key, or not, relies on the lock; one that has a reference on the node. -/
def Valid (maps : Fin N → Map Key Value) (freed : Key → Nat) : HashMapStage N Key Value → Prop
  | .idle | .answer .. => True
  | .loop call _ _ => call.key = none
  | .lock call i _ | .applyFunc call i _ => ∀ key, call.key = some key → bucketNumber hasher key = i
  | .put key _ i => bucketNumber hasher key = i ∧ key ∉ maps i
  | .erase key i => bucketNumber hasher key = i ∧ key ∈ maps i
  | .unlock _ next => next.holds = none ∧ next.Valid maps freed
  | .access call key node => call.key = some key ∧ call.refers = true ∧ node ≤ freed key ∧
      (freed key = node → key ∈ maps (bucketNumber hasher key))

end HashMapStage

namespace ConcurrentHashMap

variable {N : Nat} {Thread Key Value : Type} [NeZero N] {hasher : Key → Nat}
  {world after : ConcurrentHashMap N Thread Key Value}

structure Sound (hasher : Key → Nat) (world : ConcurrentHashMap N Thread Key Value) : Prop where
  locks : Exclusive world.locks fun thread => (world.stage thread).holds
  placed : ∀ i key, key ∈ world.maps i → bucketNumber hasher key = i
  valid : ∀ thread, (world.stage thread).Valid hasher world.maps world.freed

theorem Sound.start : Sound hasher (start : ConcurrentHashMap N Thread Key Value) where
  locks := Exclusive.free
  placed _ _ member := absurd member Finmap.notMem_empty
  valid _ := trivial

variable [DecidableEq Thread] {thread : Thread} {stage : HashMapStage N Key Value}

/-- What a step can do: it changes the stage of one thread, keeps the keys of buckets whose lock it does not hold, and
frees the nodes of the keys that it takes away. -/
structure Change (hasher : Key → Nat) (world : ConcurrentHashMap N Thread Key Value) (thread : Thread)
    (after : ConcurrentHashMap N Thread Key Value) (stage : HashMapStage N Key Value) : Prop where
  set : after.stage = Function.update world.stage thread stage
  locks : Exclusive after.locks (Function.update (fun thread => (world.stage thread).holds) thread stage.holds)
  others : ∀ i key, (world.stage thread).holds ≠ some i → (key ∈ after.maps i ↔ key ∈ world.maps i)
  freed : ∀ key, world.freed key ≤ after.freed key
  kept : ∀ i key, key ∈ world.maps i → key ∈ after.maps i ∨ world.freed key < after.freed key
  placed : ∀ i key, key ∈ after.maps i → bucketNumber hasher key = i
  valid : stage.Valid hasher after.maps after.freed

theorem Change.valid_other (change : Change hasher world thread after stage) {other : HashMapStage N Key Value}
    (apart : ∀ i, (world.stage thread).holds = some i → other.holds ≠ some i)
    (valid : other.Valid hasher world.maps world.freed) : other.Valid hasher after.maps after.freed := by
  have same (i : Fin N) (here : other.holds = some i) (key : Key) : key ∈ after.maps i ↔ key ∈ world.maps i :=
    change.others i key fun held => apart i held here
  induction other with
  | idle | answer => trivial
  | loop | lock | applyFunc => exact valid
  | put key value i => exact ⟨valid.1, fun member => valid.2 ((same i rfl key).mp member)⟩
  | erase key i => exact ⟨valid.1, (same i rfl key).mpr valid.2⟩
  | unlock i next ih =>
    obtain ⟨free, valid⟩ := valid
    exact ⟨free, ih (fun _ _ => by simp [free]) valid (by simp [free])⟩
  | access call key node =>
    obtain ⟨own, refers, old, live⟩ := valid
    refine ⟨own, refers, Nat.le_trans old (change.freed key), fun now => ?_⟩
    have before : world.freed key = node := Nat.le_antisymm (now ▸ change.freed key) old
    rcases change.kept _ key (live before) with member | more
    · exact member
    · omega

theorem Change.sound (change : Change hasher world thread after stage) (sound : Sound hasher world) :
    Sound hasher after := by
  refine ⟨?_, change.placed, fun other => ?_⟩
  · have holds : (fun other => (after.stage other).holds) =
        Function.update (fun thread => (world.stage thread).holds) thread stage.holds := by
      funext other
      rw [change.set]
      exact Function.apply_update (fun _ => HashMapStage.holds) world.stage thread stage other
    rw [holds]
    exact change.locks
  · rw [change.set]
    by_cases same : other = thread
    · rw [same, Function.update_self]
      exact change.valid
    · rw [Function.update_of_ne same]
      refine change.valid_other (fun i held held' => ?_) (sound.valid other)
      exact same (sound.locks.alone held' held)

theorem Change.quiet (sound : Sound hasher world) (set : after.stage = Function.update world.stage thread stage)
    (maps : after.maps = world.maps) (freed : after.freed = world.freed)
    (locks : Exclusive after.locks (Function.update (fun thread => (world.stage thread).holds) thread stage.holds))
    (valid : stage.Valid hasher world.maps world.freed) : Change hasher world thread after stage where
  set := set
  locks := locks
  others i key _ := by rw [maps]
  freed key := by rw [freed]
  kept i key member := .inl (by rwa [maps])
  placed i key member := sound.placed i key (by rwa [← maps])
  valid := by rwa [maps, freed]

theorem Sound.keep (sound : Sound hasher world) (same : stage.holds = (world.stage thread).holds) :
    Exclusive world.locks (Function.update (fun thread => (world.stage thread).holds) thread stage.holds) :=
  sound.locks.keep same

theorem Change.bucket (sound : Sound hasher world) {i : Fin N} {part : Map Key Value}
    (set : after.stage = Function.update world.stage thread stage)
    (maps : after.maps = Function.update world.maps i part) (locks : after.locks = world.locks)
    (same : stage.holds = (world.stage thread).holds)
    (own : (world.stage thread).holds = some i ∨ ∀ key, key ∈ part ↔ key ∈ world.maps i)
    (freed : ∀ key, world.freed key ≤ after.freed key)
    (kept : ∀ key, key ∈ world.maps i → key ∈ part ∨ world.freed key < after.freed key)
    (placed : ∀ key, key ∈ part → bucketNumber hasher key = i)
    (valid : stage.Valid hasher after.maps after.freed) : Change hasher world thread after stage where
  set := set
  locks := by
    rw [locks]
    exact sound.keep same
  others j key away := by
    rw [maps]
    by_cases here : j = i
    · subst here
      rw [Function.update_self]
      exact own.resolve_left away key
    · rw [Function.update_of_ne here]
  freed := freed
  kept j key member := by
    rw [maps]
    by_cases here : j = i
    · subst here
      rw [Function.update_self]
      exact kept key member
    · rw [Function.update_of_ne here]
      exact .inl member
  placed j key member := by
    rw [maps] at member
    by_cases here : j = i
    · subst here
      rw [Function.update_self] at member
      exact placed key member
    · rw [Function.update_of_ne here] at member
      exact sound.placed j key member
  valid := valid

theorem call_change (sound : Sound hasher world) (idle : world.stage thread = .idle) (call : HashMapCall Key Value) :
    Change hasher world thread (world.set thread (begin hasher call)) (begin hasher call) := by
  refine .quiet sound rfl rfl rfl (sound.keep ?_) ?_
  · rw [idle, begin]
    split <;> rfl
  · unfold begin
    split
    · rename_i key own
      intro other same
      rw [own] at same
      cases same
      rfl
    · rename_i own
      exact own

variable [DecidableEq Key] [Inhabited Value]

theorem mem_subscript {map : Map Key Value} {key other : Key} :
    other ∈ (subscript map key).1 ↔ other = key ∨ other ∈ map := by
  unfold subscript
  cases found : map.lookup key with
  | none => exact Finmap.mem_insert
  | some value =>
    refine ⟨.inr, fun either => either.elim (fun same => ?_) id⟩
    rw [same]
    exact Finmap.mem_of_lookup_eq_some found

theorem apply_change (sound : Sound hasher world) {call : HashMapCall Key Value} {i : Fin N} {finalValue : Int}
    (here : world.stage thread = .applyFunc call i finalValue) :
    ∃ stage, Change hasher world thread (world.applyStep thread i finalValue call) stage := by
  have valid := sound.valid thread
  rw [here] at valid
  cases call with
  | insert key value =>
    refine ⟨_, .quiet sound rfl rfl rfl (sound.keep ?_) ?_⟩
    · rw [here]
      split <;> rfl
    · split
      · exact ⟨rfl, trivial⟩
      · rename_i missing
        exact ⟨valid key rfl, Finmap.lookup_eq_none.mp missing⟩
  | remove key =>
    refine ⟨_, .quiet sound rfl rfl rfl (sound.keep ?_) ?_⟩
    · rw [here]
      split <;> rfl
    · split
      · exact ⟨rfl, trivial⟩
      · rename_i found
        exact ⟨valid key rfl, Finmap.mem_of_lookup_eq_some found⟩
  | contains key => exact ⟨_, .quiet sound rfl rfl rfl (sound.keep (by rw [here]; rfl)) ⟨rfl, trivial⟩⟩
  | size => exact ⟨_, .quiet sound rfl rfl rfl (sound.keep (by rw [here]; rfl)) ⟨rfl, rfl⟩⟩
  | read key | assign key value =>
    have place := valid key rfl
    refine ⟨_, .bucket sound rfl rfl rfl (by rw [here]; rfl) (.inl (by rw [here]; rfl)) (fun _ => Nat.le_refl _)
      (fun other member => .inl (mem_subscript.mpr (.inr member))) (fun other member => ?_)
      ⟨rfl, rfl, rfl, Nat.le_refl _, fun _ => ?_⟩⟩
    · rcases mem_subscript.mp member with rfl | before
      · exact place
      · exact sound.placed i other before
    · rw [place]
      dsimp only [applyStep]
      rw [Function.update_self]
      exact mem_subscript.mpr (.inl rfl)
  | clear =>
    refine ⟨_, .bucket sound rfl rfl rfl (by rw [here]; rfl) (.inl (by rw [here]; rfl)) (fun key => ?_)
      (fun key member => .inr ?_) (fun key member => absurd member Finmap.notMem_empty) ⟨rfl, rfl⟩⟩
    · dsimp only [applyStep]
      split
      · exact Nat.le_succ _
      · exact Nat.le_refl _
    · dsimp only [applyStep]
      rw [if_pos member]
      exact Nat.lt_succ_self _

theorem run_change (sound : Sound hasher world) (ran : world.run hasher thread = some after) :
    ∃ stage, Change hasher world thread after stage := by
  have valid := sound.valid thread
  unfold run at ran
  split at ran <;> cases ran <;> rename_i here <;> rw [here] at valid
  · rename_i call i finalValue
    refine ⟨_, .quiet sound rfl rfl rfl (sound.keep ?_) ?_⟩
    · rw [here]
      split <;> rfl
    · split
      · intro key own
        rw [valid] at own
        cases own
      · trivial
  · rename_i call i finalValue
    split
    · exact ⟨_, .quiet sound (Function.update_eq_self ..).symm rfl rfl (sound.keep rfl) (sound.valid thread)⟩
    · rename_i unset
      refine ⟨.applyFunc call i finalValue, .quiet sound rfl rfl rfl ?_ valid⟩
      exact sound.locks.acquire (Bool.eq_false_iff.mpr unset) (by rw [here]; rfl)
  · exact apply_change sound here
  · rename_i key value i
    obtain ⟨place, -⟩ := valid
    refine ⟨_, .bucket sound rfl rfl rfl (by rw [here]; rfl) (.inl (by rw [here]; rfl)) (fun _ => Nat.le_refl _)
      (fun other member => .inl ?_) (fun other member => ?_) ⟨rfl, trivial⟩⟩
    · rw [subscript_insert]
      exact Finmap.mem_insert.mpr (.inr member)
    · rw [subscript_insert] at member
      rcases Finmap.mem_insert.mp member with rfl | before
      · exact place
      · exact sound.placed i other before
  · rename_i key i
    have grows (other : Key) : world.freed other ≤ Function.update world.freed key (world.freed key + 1) other ∧
        (other = key → world.freed other < Function.update world.freed key (world.freed key + 1) other) := by
      by_cases same : other = key
      · rw [same, Function.update_self]
        exact ⟨Nat.le_succ _, fun _ => Nat.lt_succ_self _⟩
      · rw [Function.update_of_ne same]
        exact ⟨Nat.le_refl _, fun own => absurd own same⟩
    refine ⟨_, .bucket sound rfl rfl rfl (by rw [here]; rfl) (.inl (by rw [here]; rfl)) (fun other => (grows other).1)
      (fun other member => ?_) (fun other member => sound.placed i other (Finmap.mem_erase.mp member).2) ⟨rfl, trivial⟩⟩
    by_cases same : other = key
    · exact .inr ((grows other).2 same)
    · exact .inl (Finmap.mem_erase.mpr ⟨same, member⟩)
  · rename_i i next
    obtain ⟨free, valid⟩ := valid
    refine ⟨next, .quiet sound rfl rfl rfl ?_ valid⟩
    rw [free]
    exact sound.locks.release (by rw [here]; rfl)
  · rename_i call key node
    dsimp only
    split
    · rename_i live
      have there := valid.2.2.2 live
      split
      · refine ⟨_, .bucket sound rfl rfl rfl (by rw [here]; rfl) (.inr fun other => ?_) (fun _ => Nat.le_refl _)
          (fun other member => .inl (Finmap.mem_insert.mpr (.inr member))) (fun other member => ?_) trivial⟩
        · refine ⟨fun member => ?_, fun member => Finmap.mem_insert.mpr (.inr member)⟩
          exact (Finmap.mem_insert.mp member).elim (fun same => same ▸ there) id
        · rcases Finmap.mem_insert.mp member with rfl | before
          · rfl
          · exact sound.placed _ other before
      · exact ⟨_, .quiet sound rfl rfl rfl (sound.keep (by rw [here]; rfl)) trivial⟩
    · exact ⟨_, .quiet sound rfl rfl rfl (sound.keep (by rw [here]; rfl)) trivial⟩
  · exact ⟨_, .quiet sound rfl rfl rfl (sound.keep (by rw [here]; rfl)) trivial⟩

theorem step_sound {move : HashMapMove Thread Key Value} (sound : Sound hasher world)
    (stepped : world.step hasher move = some after) : Sound hasher after := by
  cases move with
  | call thread call =>
    simp only [step] at stepped
    split at stepped <;> cases stepped
    rename_i idle
    have kept := (call_change sound idle call).sound sound
    exact ⟨kept.locks, kept.placed, kept.valid⟩
  | run thread =>
    obtain ⟨next, ran, rfl⟩ := Option.map_eq_some_iff.mp stepped
    obtain ⟨stage, change⟩ := run_change sound ran
    have kept := change.sound sound
    exact ⟨kept.locks, kept.placed, kept.valid⟩

end ConcurrentHashMap

end Blockchain
