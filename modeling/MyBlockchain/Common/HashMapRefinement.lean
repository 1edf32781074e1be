import MyBlockchain.Common.HashMapBuckets

namespace Blockchain

open PartitionedMap (Map Splits)

variable {Key Value : Type}

section Subscript

variable [DecidableEq Key] [Inhabited Value] (map : Map Key Value) (key : Key)

theorem subscript_insert (value : Value) : (subscript map key).1.insert key value = map.insert key value := by
  unfold subscript
  cases map.lookup key with
  | none => exact Finmap.insert_insert map
  | some => rfl

end Subscript

def HashMapCall.loops : HashMapCall Key Value → Bool
  | .size | .clear => true
  | _ => false

/-- The size of a map with 2^31 keys or more does not fit its `int`. -/
def HashMapResult.Agrees (result : HashMapResult Value) : HashMapResult Value → Prop
  | .size count => count < 2 ^ 31 → result = .size count
  | expected => result = expected

namespace HashMapBuckets

variable {N fuel : Nat} {buckets : HashMapBuckets N Key Value}

theorem clear_eq (fits : N < 2 ^ 32) (enough : N < fuel) : buckets.clear fuel = some new := by
  rw [clear, map, CountedLoop.run_eq fits enough]
  exact congrArg some (congrArg mk (CountedLoop.foldl_update (fun _ => ∅) buckets.maps))

theorem loops_forever (wraps : 2 ^ 32 ≤ N) (fuel : Nat) : buckets.size fuel = none ∧ buckets.clear fuel = none := by
  unfold size fold clear map
  rw [CountedLoop.run_wraps wraps fuel (by decide), CountedLoop.run_wraps wraps fuel (by decide)]
  exact ⟨rfl, rfl⟩

/-- While the sum is below 2^31 nothing is lost in the conversions between `int` and `size_t`. -/
theorem fold_sizes (maps : List (Map Key Value)) (count : Nat)
    (fits : count + (maps.map fun map => map.keys.card).sum < 2 ^ 31) :
    maps.foldl (fun (finalValue : Int) map =>
        Int.bmod (((finalValue % 2 ^ 64).toNat + map.keys.card) % 2 ^ 64 : Nat) (2 ^ 32)) count =
      (count + (maps.map fun map => map.keys.card).sum : Nat) := by
  induction maps generalizing count with
  | nil => rfl
  | cons first rest ih =>
    rw [List.map_cons, List.sum_cons] at fits ⊢
    have unsigned : ((count : Int) % 2 ^ 64).toNat = count := by omega
    have added : (count + first.keys.card) % 2 ^ 64 = count + first.keys.card := Nat.mod_eq_of_lt (by omega)
    have signed : Int.bmod (count + first.keys.card : Nat) (2 ^ 32) = (count + first.keys.card : Nat) := by
      apply Int.bmod_eq_of_le <;> omega
    rw [List.foldl_cons, unsigned, added, signed, ih _ (by omega), Nat.add_assoc]

section Places

variable [NeZero N] {hasher : Key → Nat} {whole : Map Key Value}

theorem update_self (key : Key) :
    Function.update buckets.maps (bucketNumber hasher key) (buckets.maps (bucketNumber hasher key)) = buckets.maps :=
  Function.update_eq_self _ _

variable [DecidableEq Key]

theorem size_eq (splits : Splits (bucketNumber hasher) buckets.maps whole) (fits : N < 2 ^ 32) (enough : N < fuel) :
    ∃ size, buckets.size fuel = some size ∧ (whole.keys.card < 2 ^ 31 → size = whole.keys.card) := by
  have total : ((List.finRange N).map buckets.maps).map (fun map => map.keys.card) =
      (List.finRange N).map fun i => (buckets.maps i).keys.card := List.map_map
  have sum : (((List.finRange N).map buckets.maps).map fun map => map.keys.card).sum = whole.keys.card := by
    rw [total, ← splits.card, Fin.sum_univ_def]
  unfold size fold
  rw [CountedLoop.run_eq fits enough]
  refine ⟨_, rfl, fun small => ?_⟩
  have folded := fold_sizes ((List.finRange N).map buckets.maps) 0 (by omega)
  rw [List.foldl_map, sum, Nat.zero_add] at folded
  rw [Int.ofNat_zero] at folded
  rw [folded]
  dsimp only
  omega

variable [Inhabited Value]

theorem insert_refines (splits : Splits (bucketNumber hasher) buckets.maps whole) (key : Key) (value : Value) :
    Splits (bucketNumber hasher) (buckets.insert hasher key value).1.maps (SingleMap.call whole (.insert key value)).1 ∧
      HashMapResult.flag (buckets.insert hasher key value).2 = (SingleMap.call whole (.insert key value)).2 := by
  simp only [insert, apply_maps, apply_result, SingleMap.call]
  rw [splits.lookup key, subscript_insert]
  by_cases present : key ∈ whole
  · obtain ⟨old, found⟩ := Option.isSome_iff_exists.mp (Finmap.lookup_isSome.mpr present)
    rw [found, if_pos present]
    dsimp only
    rw [update_self]
    exact ⟨splits, rfl⟩
  · rw [Finmap.lookup_eq_none.mpr present, if_neg present]
    exact ⟨splits.insert key value, rfl⟩

theorem remove_refines (splits : Splits (bucketNumber hasher) buckets.maps whole) (key : Key) :
    Splits (bucketNumber hasher) (buckets.remove hasher key).1.maps (SingleMap.call whole (.remove key)).1 ∧
      HashMapResult.flag (buckets.remove hasher key).2 = (SingleMap.call whole (.remove key)).2 := by
  simp only [remove, apply_maps, apply_result, SingleMap.call]
  rw [splits.lookup key]
  by_cases present : key ∈ whole
  · obtain ⟨old, found⟩ := Option.isSome_iff_exists.mp (Finmap.lookup_isSome.mpr present)
    rw [found, if_pos present]
    exact ⟨splits.erase key, rfl⟩
  · rw [Finmap.lookup_eq_none.mpr present, if_neg present]
    dsimp only
    rw [update_self]
    exact ⟨splits, rfl⟩

theorem contains_refines (splits : Splits (bucketNumber hasher) buckets.maps whole) (key : Key) :
    Splits (bucketNumber hasher) (buckets.contains hasher key).1.maps (SingleMap.call whole (.contains key)).1 ∧
      HashMapResult.flag (buckets.contains hasher key).2 = (SingleMap.call whole (.contains key)).2 := by
  simp only [contains, apply_maps, apply_result, SingleMap.call]
  rw [update_self, splits.lookup key]
  refine ⟨splits, congrArg HashMapResult.flag ?_⟩
  rw [Bool.eq_iff_iff, Finmap.lookup_isSome, decide_eq_true_eq]

theorem index_refines (splits : Splits (bucketNumber hasher) buckets.maps whole) (key : Key) :
    Splits (bucketNumber hasher) (buckets.index hasher key).1.maps (SingleMap.call whole (.read key)).1 ∧
      HashMapResult.value (buckets.index hasher key).2 = (SingleMap.call whole (.read key)).2 := by
  simp only [index, apply_maps, apply_result, SingleMap.call, subscript]
  rw [splits.lookup key]
  cases whole.lookup key with
  | some value =>
    dsimp only
    rw [update_self]
    exact ⟨splits, rfl⟩
  | none => exact ⟨splits.insert key default, rfl⟩

theorem assign_refines (splits : Splits (bucketNumber hasher) buckets.maps whole) (key : Key) (value : Value) :
    Splits (bucketNumber hasher) (buckets.assign hasher key value).maps
      (SingleMap.call whole (.assign key value)).1 := by
  simp only [assign, apply_maps, SingleMap.call]
  rw [subscript_insert]
  exact splits.insert key value

theorem call_refines (splits : Splits (bucketNumber hasher) buckets.maps whole) (call : HashMapCall Key Value)
    (enough : call.loops = true → N < 2 ^ 32 ∧ N < fuel) :
    ∃ after result, buckets.call hasher fuel call = some (after, result) ∧
      Splits (bucketNumber hasher) after.maps (SingleMap.call whole call).1 ∧
      result.Agrees (SingleMap.call whole call).2 := by
  cases call with
  | insert key value =>
    obtain ⟨kept, same⟩ := insert_refines splits key value
    refine ⟨_, _, rfl, kept, ?_⟩
    rw [← same]
    rfl
  | remove key =>
    obtain ⟨kept, same⟩ := remove_refines splits key
    refine ⟨_, _, rfl, kept, ?_⟩
    rw [← same]
    rfl
  | contains key =>
    obtain ⟨kept, same⟩ := contains_refines splits key
    refine ⟨_, _, rfl, kept, ?_⟩
    rw [← same]
    rfl
  | read key =>
    obtain ⟨kept, same⟩ := index_refines splits key
    refine ⟨_, _, rfl, kept, ?_⟩
    rw [← same]
    rfl
  | assign key value => exact ⟨_, _, rfl, assign_refines splits key value, rfl⟩
  | size =>
    obtain ⟨fits, enough⟩ := enough rfl
    obtain ⟨size, counted, exact⟩ := size_eq splits fits enough
    refine ⟨buckets, .size size, ?_, splits, fun small => congrArg HashMapResult.size (exact small)⟩
    rw [HashMapBuckets.call, counted]
    rfl
  | clear =>
    obtain ⟨fits, enough⟩ := enough rfl
    refine ⟨new, .done, ?_, Splits.empty _, rfl⟩
    rw [HashMapBuckets.call, clear_eq fits enough]
    rfl

theorem calls_refine (splits : Splits (bucketNumber hasher) buckets.maps whole) (calls : List (HashMapCall Key Value))
    (enough : ∀ call ∈ calls, call.loops = true → N < 2 ^ 32 ∧ N < fuel) :
    ∃ results, buckets.calls hasher fuel calls = some results ∧
      List.Forall₂ HashMapResult.Agrees results (SingleMap.calls whole calls) := by
  induction calls generalizing buckets whole with
  | nil => exact ⟨[], rfl, .nil⟩
  | cons call rest ih =>
    obtain ⟨after, result, called, kept, agrees⟩ := call_refines splits call (enough call (.head _))
    obtain ⟨results, ran, all⟩ := ih kept fun later listed => enough later (.tail _ listed)
    refine ⟨result :: results, ?_, .cons agrees all⟩
    rw [HashMapBuckets.calls, called, Option.bind_eq_bind, Option.bind_some]
    dsimp only
    rw [ran]
    rfl

theorem calls_never (wraps : 2 ^ 32 ≤ N) (fuel : Nat) {calls : List (HashMapCall Key Value)}
    {call : HashMapCall Key Value} (listed : call ∈ calls) (loops : call.loops = true) :
    buckets.calls hasher fuel calls = none := by
  induction calls generalizing buckets with
  | nil => cases listed
  | cons first rest ih =>
    rw [HashMapBuckets.calls, Option.bind_eq_bind]
    cases called : buckets.call hasher fuel first with
    | none => rfl
    | some next =>
      rcases List.mem_cons.mp listed with rfl | later
      · have sizes : buckets.size fuel = none := (loops_forever wraps fuel).1
        have clears : buckets.clear fuel = none := (loops_forever wraps fuel).2
        cases call with
        | size =>
          rw [HashMapBuckets.call, sizes] at called
          cases called
        | clear =>
          rw [HashMapBuckets.call, clears] at called
          cases called
        | insert | remove | contains | read | assign => cases loops
      · rw [Option.bind_some]
        dsimp only
        rw [ih later]
        rfl

end Places

end HashMapBuckets

/-- A `HashMap` with fewer than 2^32 buckets is one map. With more, `size` and `clear` never return. -/
theorem hash_map_refines_iff {Key Value : Type} [DecidableEq Key] [Inhabited Value] (N : Nat) [NeZero N]
    (hasher : Key → Nat) (calls : List (HashMapCall Key Value)) :
    (∃ fuel results, (HashMapBuckets.new : HashMapBuckets N Key Value).calls hasher fuel calls = some results ∧
      List.Forall₂ HashMapResult.Agrees results (SingleMap.calls ∅ calls)) ↔
      N < 2 ^ 32 ∨ ∀ call ∈ calls, call.loops = false := by
  constructor
  · rintro ⟨fuel, results, ran, -⟩
    by_contra neither
    push Not at neither
    obtain ⟨wraps, call, listed, loops⟩ := neither
    rw [HashMapBuckets.calls_never wraps fuel listed (by simpa using loops)] at ran
    cases ran
  · intro either
    refine ⟨N + 1, HashMapBuckets.calls_refine (Splits.empty _) calls fun call listed loops => ⟨?_, Nat.lt_succ_self N⟩⟩
    exact either.resolve_right fun none => by simp [none call listed] at loops

theorem hash_map_refines_iff_two :
    (∃ fuel results, (HashMapBuckets.new : HashMapBuckets 2 Nat Nat).calls id fuel
        [.insert 1 5, .insert 1 6, .read 3, .assign 4 7, .size] = some results ∧
      List.Forall₂ HashMapResult.Agrees results
        (SingleMap.calls ∅ [.insert 1 5, .insert 1 6, .read 3, .assign 4 7, .size])) ↔
      2 < 2 ^ 32 ∨ ∀ call ∈ ([.insert 1 5, .insert 1 6, .read 3, .assign 4 7, .size] : List (HashMapCall Nat Nat)),
        call.loops = false :=
  hash_map_refines_iff 2 id _

/-- The counter of the loop is an `unsigned int`, which never gets to 2^32. -/
theorem size_never_returns :
    ¬ ∃ fuel results, (HashMapBuckets.new : HashMapBuckets (2 ^ 32) Nat Nat).calls id fuel [.size] = some results ∧
      List.Forall₂ HashMapResult.Agrees results (SingleMap.calls (∅ : Map Nat Nat) [.size]) := by
  rintro ⟨fuel, results, ran, -⟩
  rw [HashMapBuckets.calls_never (Nat.le_refl _) fuel (.head _) rfl] at ran
  cases ran

end Blockchain
