import MyBlockchain.Common.ConcurrentHashMapRefinement

namespace Blockchain.ConcurrentHashMap

open HashMapBuckets (bucketNumber)

variable {N : Nat} {Thread Key Value : Type}

section Passes

/-- What the keys that were there all the time, and those that were there at some time, say about a result. -/
def Bounds (always ever : Finset Key) (call : HashMapCall Key Value) (result : Option (HashMapResult Value)) : Prop :=
  match call with
  | .size => ever.card < 2 ^ 31 → ∃ size, result = some (.size size) ∧ always.card ≤ size ∧ size ≤ ever.card
  | .clear => always = ∅
  | _ => True

/-- The same for a call that has visited the buckets below `i`. -/
def Watched (place : Key → Fin N) (always ever : Finset Key) : AtomicStage Key Value → Prop
  | .passing .size i finalValue =>
    ever.card < 2 ^ 31 → ({key ∈ always | (place key : Nat) < i}.card : Int) ≤ finalValue ∧
      finalValue ≤ ({key ∈ ever | (place key : Nat) < i}.card : Int)
  | .passing .clear i _ => ∀ key ∈ always, i ≤ (place key : Nat)
  | .answer call result => Bounds always ever call result
  | _ => True

theorem count_succ (place : Key → Fin N) (keys : Finset Key) (i : Fin N) :
    {key ∈ keys | (place key : Nat) < i + 1}.card =
      {key ∈ keys | (place key : Nat) < i}.card + {key ∈ keys | place key = i}.card := by
  classical
  have apart : Disjoint {key ∈ keys | (place key : Nat) < i} {key ∈ keys | place key = i} := by
    rw [Finset.disjoint_filter]
    intro key _ less same
    rw [same] at less
    exact Nat.lt_irrefl _ less
  rw [← Finset.card_union_of_disjoint apart, ← Finset.filter_or]
  refine congrArg Finset.card (Finset.filter_congr fun key _ => ?_)
  rw [Fin.ext_iff]
  omega

theorem addSize_eq {finalValue : Int} {size : Nat} (positive : 0 ≤ finalValue) (fits : finalValue + size < 2 ^ 31) :
    addSize finalValue size = finalValue + size := by
  obtain ⟨count, rfl⟩ := Int.eq_ofNat_of_zero_le positive
  have unsigned : ((count : Int) % 2 ^ 64).toNat = count := by omega
  have added : (count + size) % 2 ^ 64 = count + size := Nat.mod_eq_of_lt (by omega)
  have signed : Int.bmod (count + size : Nat) (2 ^ 32) = (count + size : Nat) := by
    apply Int.bmod_eq_of_le <;> omega
  unfold addSize
  rw [unsigned, added, signed]
  exact Int.natCast_add count size

theorem Watched.mono {place : Key → Fin N} {always always' ever ever' : Finset Key} {stage : AtomicStage Key Value}
    (watched : Watched place always ever stage) (fewer : always' ⊆ always) (more : ever ⊆ ever') :
    Watched place always' ever' stage := by
  have few := Finset.card_le_card fewer
  have many := Finset.card_le_card more
  cases stage with
  | idle | called | access => trivial
  | passing call i finalValue =>
    cases call with
    | size =>
      intro small
      obtain ⟨least, most⟩ := watched (Nat.lt_of_le_of_lt many small)
      have few := Finset.card_le_card (Finset.filter_subset_filter (fun key => (place key : Nat) < i) fewer)
      have many := Finset.card_le_card (Finset.filter_subset_filter (fun key => (place key : Nat) < i) more)
      omega
    | clear => exact fun key member => watched key (fewer member)
    | _ => trivial
  | answer call result =>
    cases call with
    | size =>
      intro small
      obtain ⟨size, same, least, most⟩ := watched (Nat.lt_of_le_of_lt many small)
      exact ⟨size, same, Nat.le_trans few least, Nat.le_trans most many⟩
    | clear => exact Finset.subset_empty.mp (fewer.trans (Finset.subset_empty.mpr watched))
    | _ => trivial

theorem Watched.count [DecidableEq Key] {always ever keys : Finset Key} {place : Key → Fin N} {i : Fin N}
    {finalValue : Int} (fits : N < 2 ^ 32)
    (watched : Watched place always ever (.passing .size i finalValue : AtomicStage Key Value)) :
    Watched place (always ∩ keys) (ever ∪ keys)
      (.passing .size ((i + 1) % 2 ^ 32) (addSize finalValue {key ∈ keys | place key = i}.card) :
        AtomicStage Key Value) := by
  intro small
  have next : (i + 1 : Nat) % 2 ^ 32 = i + 1 := Nat.mod_eq_of_lt (by omega)
  have before := Finset.card_le_card (@Finset.subset_union_left _ _ ever keys)
  obtain ⟨least, most⟩ := watched (Nat.lt_of_le_of_lt before small)
  have fewer := Finset.card_le_card
    (Finset.filter_subset_filter (fun key => (place key : Nat) < i) (@Finset.inter_subset_left _ _ always keys))
  have fewer' := Finset.card_le_card
    (Finset.filter_subset_filter (fun key => place key = i) (@Finset.inter_subset_right _ _ always keys))
  have more := Finset.card_le_card
    (Finset.filter_subset_filter (fun key => (place key : Nat) < i) (@Finset.subset_union_left _ _ ever keys))
  have more' := Finset.card_le_card
    (Finset.filter_subset_filter (fun key => place key = i) (@Finset.subset_union_right _ _ ever keys))
  have all := Finset.card_filter_le (ever ∪ keys) fun key => (place key : Nat) < i + 1
  have low := count_succ place (always ∩ keys) i
  have high := count_succ place (ever ∪ keys) i
  rw [next, addSize_eq (by omega) (by omega)]
  omega

variable [NeZero N] [DecidableEq Key] {hasher : Key → Nat} {world after : ConcurrentHashMap N Thread Key Value}

theorem bucket_keys (sound : Sound hasher world) (i : Fin N) :
    (world.maps i).keys = {key ∈ world.keys | bucketNumber hasher key = i} := by
  ext key
  rw [Finset.mem_filter, Finmap.mem_keys, keys, Finset.mem_biUnion]
  constructor
  · intro member
    exact ⟨⟨i, Finset.mem_univ i, Finmap.mem_keys.mpr member⟩, sound.placed i key member⟩
  · rintro ⟨⟨j, -, member⟩, place⟩
    rw [Finmap.mem_keys] at member
    rw [← place, sound.placed j key member]
    exact member

variable [DecidableEq Thread] [Inhabited Value] {thread : Thread} {moves : List (HashMapMove Thread Key Value)}

theorem apply_watched (fits : N < 2 ^ 32) (sound : Sound hasher world) {call : HashMapCall Key Value} {i : Fin N}
    {finalValue : Int} {always ever : Finset Key} (here : world.stage thread = .applyFunc call i finalValue)
    (watched : Watched (bucketNumber hasher : Key → Fin N) always ever (world.stage thread).view) :
    Watched (bucketNumber hasher : Key → Fin N) (always ∩ (world.applyStep thread i finalValue call).keys)
      (ever ∪ (world.applyStep thread i finalValue call).keys)
      ((world.applyStep thread i finalValue call).stage thread).view := by
  rw [here] at watched
  cases call with
  | insert key value =>
    simp only [applyStep, set, Function.update_self]
    split <;> trivial
  | remove key =>
    simp only [applyStep, set, Function.update_self]
    split <;> trivial
  | contains key | read key | assign key value =>
    simp only [applyStep, set, Function.update_self]
    trivial
  | size =>
    simp only [applyStep, set, Function.update_self, HashMapStage.view]
    rw [bucket_keys sound i]
    exact watched.count fits
  | clear =>
    simp only [applyStep, set, Function.update_self, HashMapStage.view]
    intro key member
    obtain ⟨before, there⟩ := Finset.mem_inter.mp member
    obtain ⟨j, -, inside⟩ := Finset.mem_biUnion.mp there
    rw [Finmap.mem_keys] at inside
    dsimp only at inside
    have next : (i + 1 : Nat) % 2 ^ 32 = i + 1 := Nat.mod_eq_of_lt (by omega)
    have least := watched key before
    by_cases same : j = i
    · rw [same, Function.update_self] at inside
      exact absurd inside Finmap.notMem_empty
    · rw [Function.update_of_ne same] at inside
      rw [next, sound.placed j key inside]
      rw [sound.placed j key inside] at least
      rw [Fin.ext_iff] at same
      omega

theorem run_watched (fits : N < 2 ^ 32) (sound : Sound hasher world) (ran : world.run hasher thread = some after)
    {always ever : Finset Key}
    (watched : Watched (bucketNumber hasher : Key → Fin N) always ever (world.stage thread).view) :
    Watched (bucketNumber hasher : Key → Fin N) (always ∩ after.keys) (ever ∪ after.keys)
      (after.stage thread).view := by
  have valid := sound.valid thread
  have later (next : ConcurrentHashMap N Thread Key Value)
      (same : (next.stage thread).view = (world.stage thread).view) :
      Watched (bucketNumber hasher : Key → Fin N) (always ∩ next.keys) (ever ∪ next.keys) (next.stage thread).view :=
    same ▸ watched.mono Finset.inter_subset_left Finset.subset_union_left
  unfold run at ran
  split at ran <;> cases ran <;> rename_i here <;> rw [here] at valid later
  · rename_i call i finalValue
    by_cases inside : i < N
    · refine later _ ?_
      rw [dif_pos inside]
      simp only [set, Function.update_self, HashMapStage.view]
      rw [show call.key = none from valid]
    · rw [dif_neg inside]
      simp only [set, Function.update_self]
      refine Watched.mono ?_ Finset.inter_subset_left Finset.subset_union_left
      rw [here] at watched
      have all (keys : Finset Key) : {key ∈ keys | (bucketNumber hasher key : Fin N).val < i} = keys :=
        Finset.filter_true_of_mem fun key _ =>
          Nat.lt_of_lt_of_le (bucketNumber hasher key).isLt (Nat.le_of_not_lt inside)
      cases call with
      | size =>
        intro small
        obtain ⟨least, most⟩ := watched small
        rw [all always] at least
        rw [all ever] at most
        refine ⟨_, rfl, ?_⟩
        omega
      | clear =>
        refine Finset.eq_empty_of_forall_notMem fun key member => ?_
        have bound := watched key member
        have inside := (bucketNumber hasher key : Fin N).isLt
        omega
      | _ => trivial
  · split
    · exact later _ (by rw [here])
    · refine later _ ?_
      simp only [set, Function.update_self]
      rfl
  · exact apply_watched fits sound here watched
  · simp only [set, Function.update_self]
    trivial
  · simp only [set, Function.update_self]
    trivial
  · refine later _ ?_
    simp only [set, Function.update_self]
    rfl
  · rename_i call key node
    have refers := valid.2.1
    dsimp only
    cases call with
    | read | assign =>
      split
      · simp only [set, Function.update_self]
        trivial
      · simp only [set, Function.update_self]
        trivial
    | insert | remove | contains | size | clear => cases refers
  · simp only [set, Function.update_self]
    trivial

structure Observed (hasher : Key → Nat) (world : ConcurrentHashMap N Thread Key Value) : Prop where
  sound : Sound hasher world
  watched : ∀ thread, Watched (bucketNumber hasher : Key → Fin N) (world.always thread) (world.ever thread)
    (world.stage thread).view
  bounds : ∀ answer ∈ world.returned, Bounds answer.always answer.ever answer.call answer.result

theorem run_frame (ran : world.run hasher thread = some after) :
    (∀ other, other ≠ thread → after.stage other = world.stage other) ∧
      after.always = world.always ∧ after.ever = world.ever ∧
      ∀ answer ∈ after.returned, answer ∈ world.returned ∨ world.stage thread = .answer answer.call answer.result ∧
        answer.always = world.always thread ∧ answer.ever = world.ever thread := by
  have away (stage : HashMapStage N Key Value) (other : Thread) (apart : other ≠ thread) :
      Function.update world.stage thread stage other = world.stage other := Function.update_of_ne apart ..
  unfold run at ran
  split at ran <;> cases ran <;> rename_i here
  · exact ⟨away _, rfl, rfl, fun _ => .inl⟩
  · split
    · exact ⟨fun _ _ => rfl, rfl, rfl, fun _ => .inl⟩
    · exact ⟨away _, rfl, rfl, fun _ => .inl⟩
  · rename_i call i finalValue
    cases call <;> exact ⟨away _, rfl, rfl, fun _ => .inl⟩
  · exact ⟨away _, rfl, rfl, fun _ => .inl⟩
  · exact ⟨away _, rfl, rfl, fun _ => .inl⟩
  · exact ⟨away _, rfl, rfl, fun _ => .inl⟩
  · rename_i call key node
    dsimp only
    split
    · cases call <;> exact ⟨away _, rfl, rfl, fun _ => .inl⟩
    · exact ⟨away _, rfl, rfl, fun _ => .inl⟩
  · refine ⟨away _, rfl, rfl, fun answer member => ?_⟩
    rcases List.mem_append.mp member with old | new
    · exact .inl old
    · rw [List.mem_singleton.mp new]
      exact .inr ⟨here, rfl, rfl⟩

theorem Observed.step (fits : N < 2 ^ 32) (observed : Observed hasher world) {move : HashMapMove Thread Key Value}
    (stepped : world.step hasher move = some after) : Observed hasher after := by
  have sound := step_sound observed.sound stepped
  cases move with
  | call thread call =>
    simp only [ConcurrentHashMap.step] at stepped
    split at stepped <;> cases stepped
    refine ⟨sound, fun other => ?_, observed.bounds⟩
    by_cases same : other = thread
    · subst same
      simp only [set, Function.update_self]
      rw [begin_view, AtomicMap.begin]
      cases call with
      | size => exact fun _ => by simp
      | clear => exact fun _ _ => Nat.zero_le _
      | insert | remove | contains | read | assign => trivial
    · simp only [set, Function.update_of_ne same]
      exact observed.watched other
  | run thread =>
    obtain ⟨next, ran, rfl⟩ := Option.map_eq_some_iff.mp stepped
    obtain ⟨others, always, ever, returned⟩ := run_frame ran
    refine ⟨sound, fun other => ?_, fun answer member => ?_⟩
    · by_cases same : other = thread
      · subst same
        have own := run_watched fits observed.sound ran (observed.watched other)
        rw [← always, ← ever] at own
        exact own
      · have kept := observed.watched other
        rw [← others other same, ← always, ← ever] at kept
        exact kept.mono Finset.inter_subset_left Finset.subset_union_left
    · rcases returned answer member with old | ⟨here, fewer, more⟩
      · exact observed.bounds answer old
      · have last := observed.watched thread
        rw [here, ← fewer, ← more] at last
        exact last

/-- `size` counts no less keys than were there all the time since the call and no more than were there at some time, and
`clear` leaves none that was there all the time. -/
theorem hash_map_passes (fits : N < 2 ^ 32) (ran : moves.foldlM (step hasher) start = some world) :
    ∀ answer ∈ world.returned,
      (answer.call = .size → answer.ever.card < 2 ^ 31 →
        ∃ size, answer.result = some (.size size) ∧ answer.always.card ≤ size ∧ size ≤ answer.ever.card) ∧
      (answer.call = .clear → answer.always = ∅) := by
  have observed : Observed hasher world := by
    refine Runs.invariant (Observed hasher) (fun stepped before => before.step fits stepped) ran ⟨.start, ?_, ?_⟩
    · exact fun _ => trivial
    · exact fun _ member => by cases member
  intro answer member
  have bounds := observed.bounds answer member
  unfold Bounds at bounds
  constructor
  · intro call
    rw [call] at bounds
    exact bounds
  · intro call
    rw [call] at bounds
    exact bounds

/-- A thread clears what the other has inserted, and counts the keys while the other inserts two more. -/
def clearingMoves : List (HashMapMove Bool Nat Nat) :=
  List.flatten
    [[.call false (.insert 1 5), .call true .clear], List.replicate 5 (.run false), List.replicate 10 (.run true),
      [.call false (.insert 6 1)], List.replicate 5 (.run false), [.call true .size], List.replicate 2 (.run true),
      [.call false (.insert 7 1)], List.replicate 5 (.run false), List.replicate 8 (.run true)]

theorem hash_map_passes_cleared :
    ∃ world : ConcurrentHashMap 2 Bool Nat Nat, clearingMoves.foldlM (step id) start = some world ∧
      (world.returned.map fun answer => answer.call) = [.insert 1 5, .clear, .insert 6 1, .insert 7 1, .size] ∧
      (world.returned.map fun answer => (answer.always.card, answer.ever.card)) =
        [(0, 1), (0, 1), (0, 1), (1, 2), (1, 2)] ∧
      ∀ answer ∈ world.returned,
        (answer.call = .size →
          ∃ size, answer.result = some (.size size) ∧ answer.always.card ≤ size ∧ size ≤ answer.ever.card) ∧
        (answer.call = .clear → answer.always = ∅) := by
  have run : (clearingMoves.foldlM (step id) (start : ConcurrentHashMap 2 Bool Nat Nat)).map (fun world =>
      (world.returned.map fun answer => answer.call,
        world.returned.map fun answer => (answer.always.card, answer.ever.card))) =
      some ([.insert 1 5, .clear, .insert 6 1, .insert 7 1, .size], [(0, 1), (0, 1), (0, 1), (1, 2), (1, 2)]) := by
    decide +kernel
  obtain ⟨world, ran, same⟩ := Option.map_eq_some_iff.mp run
  obtain ⟨calls, cards⟩ := Prod.mk.inj same
  refine ⟨world, ran, calls, cards, fun answer member => ?_⟩
  have few : answer.ever.card < 2 ^ 31 := by
    have small : ∀ cards ∈ world.returned.map fun answer => (answer.always.card, answer.ever.card), cards.2 < 2 ^ 31 := by
      rw [cards]
      decide
    exact small _ (List.mem_map_of_mem member)
  have passes := hash_map_passes (by decide) ran answer member
  exact ⟨fun call => passes.1 call few, passes.2⟩

end Passes

end Blockchain.ConcurrentHashMap
