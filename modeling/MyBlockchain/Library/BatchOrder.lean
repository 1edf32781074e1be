import Mathlib.Data.List.Perm.Basic
import Mathlib.Data.List.Sort
import Mathlib.Data.Set.Basic

/-! A batch of transactions reads one snapshot and is then filtered by rank: a member is accepted when
no reserver of smaller rank writes what it writes, and not both reads what it writes and writes what it
reads. The accepted members are serializable, in an order that is not the order of the ranks. -/

namespace BatchOrder

variable {ι K α : Type*} [LinearOrder α]
variable (rank : ι → α) (reads writes : ι → Set K) (reservers : Set ι)

def Waw (t : ι) : Prop := ∃ s ∈ reservers, rank s < rank t ∧ ∃ k ∈ writes s, k ∈ writes t

def War (t : ι) : Prop := ∃ s ∈ reservers, rank s < rank t ∧ ∃ k ∈ reads s, k ∈ writes t

def Raw (t : ι) : Prop := ∃ s ∈ reservers, rank s < rank t ∧ ∃ k ∈ writes s, k ∈ reads t

structure Accepted (t : ι) : Prop where
  reserved : t ∈ reservers
  not_waw : ¬ Waw rank writes reservers t
  not_both : ¬ (War rank reads writes reservers t ∧ Raw rank reads writes reservers t)

/-- The serial order: readers of older writes first, from the largest rank down, then the others from
the smallest rank up. -/
def Before (s t : ι) : Prop :=
  (Raw rank reads writes reservers s ∧ ¬ Raw rank reads writes reservers t) ∨
  (Raw rank reads writes reservers s ∧ Raw rank reads writes reservers t ∧ rank t < rank s) ∨
  (¬ Raw rank reads writes reservers s ∧ ¬ Raw rank reads writes reservers t ∧ rank s < rank t)

variable {rank reads writes reservers}

theorem Before.asymm {s t : ι} (forward : Before rank reads writes reservers s t) :
    ¬ Before rank reads writes reservers t s := by
  rintro (⟨raw, notRaw⟩ | ⟨raw, other, less⟩ | ⟨notRaw, other, less⟩) <;>
    rcases forward with ⟨h, k⟩ | ⟨h, k, order⟩ | ⟨h, k, order⟩
  all_goals first | contradiction | exact absurd less (lt_asymm order)

theorem accepted_writes_disjoint {s t : ι} (hs : Accepted rank reads writes reservers s)
    (ht : Accepted rank reads writes reservers t) (distinct : rank s ≠ rank t) :
    ∀ k ∈ writes s, k ∉ writes t := by
  intro k inS inT
  rcases lt_or_gt_of_ne distinct with less | less
  · exact ht.not_waw ⟨s, hs.reserved, less, k, inS, inT⟩
  · exact hs.not_waw ⟨t, ht.reserved, less, k, inT, inS⟩

theorem reader_before_writer {s t : ι} {k : K} (hs : Accepted rank reads writes reservers s)
    (ht : Accepted rank reads writes reservers t) (distinct : rank s ≠ rank t)
    (reader : k ∈ reads s) (writer : k ∈ writes t) : Before rank reads writes reservers s t := by
  rcases lt_or_gt_of_ne distinct with less | less
  · -- `t` has a write-after-read dependency, so it has no read-after-write one
    have war : War rank reads writes reservers t := ⟨s, hs.reserved, less, k, reader, writer⟩
    have notRaw : ¬ Raw rank reads writes reservers t := fun raw => ht.not_both ⟨war, raw⟩
    by_cases raw : Raw rank reads writes reservers s
    · exact .inl ⟨raw, notRaw⟩
    · exact .inr (.inr ⟨raw, notRaw, less⟩)
  · have raw : Raw rank reads writes reservers s := ⟨t, ht.reserved, less, k, writer, reader⟩
    by_cases other : Raw rank reads writes reservers t
    · exact .inr (.inl ⟨raw, other, less⟩)
    · exact .inl ⟨raw, other⟩

variable (rank reads writes reservers) in
theorem exists_order (members : List ι) (distinct : members.Pairwise fun s t => rank s ≠ rank t) :
    ∃ order : List ι, order.Perm members ∧ order.Pairwise (Before rank reads writes reservers) := by
  classical
  let older := members.filter fun t => Raw rank reads writes reservers t
  let others := members.filter fun t => ¬ Raw rank reads writes reservers t
  let down := older.insertionSort fun s t => rank t ≤ rank s
  let up := others.insertionSort fun s t => rank s ≤ rank t
  have permDown : down.Perm older := List.perm_insertionSort _ _
  have permUp : up.Perm others := List.perm_insertionSort _ _
  have neDown : down.Pairwise fun s t => rank s ≠ rank t :=
    permDown.symm.pairwise (distinct.sublist List.filter_sublist) fun h => h.symm
  have neUp : up.Pairwise fun s t => rank s ≠ rank t :=
    permUp.symm.pairwise (distinct.sublist List.filter_sublist) fun h => h.symm
  have rawDown : ∀ t ∈ down, Raw rank reads writes reservers t := fun t member => by
    simpa [older] using (List.mem_filter.mp (permDown.mem_iff.mp member)).2
  have rawUp : ∀ t ∈ up, ¬ Raw rank reads writes reservers t := fun t member => by
    simpa [others] using (List.mem_filter.mp (permUp.mem_iff.mp member)).2
  refine ⟨down ++ up, ?_, List.pairwise_append.mpr ⟨?_, ?_, ?_⟩⟩
  · refine (permDown.append permUp).trans ?_
    simpa [older, others] using List.filter_append_perm (fun t => decide (Raw rank reads writes reservers t)) members
  · have sorted : down.Pairwise fun s t => rank t ≤ rank s := List.pairwise_insertionSort _ _
    refine (sorted.and neDown).imp_of_mem fun {s t} hs ht h => ?_
    exact .inr (.inl ⟨rawDown s hs, rawDown t ht, lt_of_le_of_ne h.1 (Ne.symm h.2)⟩)
  · have sorted : up.Pairwise fun s t => rank s ≤ rank t := List.pairwise_insertionSort _ _
    refine (sorted.and neUp).imp_of_mem fun {s t} hs ht h => ?_
    exact .inr (.inr ⟨rawUp s hs, rawUp t ht, lt_of_le_of_ne h.1 h.2⟩)
  · intro s hs t ht
    exact .inl ⟨rawDown s hs, rawUp t ht⟩

theorem earlier_writes_avoid_reads {before after : List ι} {t : ι}
    (order : (before ++ t :: after).Pairwise (Before rank reads writes reservers))
    (accepted : ∀ s ∈ before ++ t :: after, Accepted rank reads writes reservers s)
    (distinct : (before ++ t :: after).Pairwise fun s t => rank s ≠ rank t)
    {s : ι} (earlier : s ∈ before) {k : K} (read : k ∈ reads t) : k ∉ writes s := by
  intro written
  have forward : Before rank reads writes reservers s t :=
    (List.pairwise_append.mp order).2.2 s earlier t (by simp)
  have ne : rank s ≠ rank t := (List.pairwise_append.mp distinct).2.2 s earlier t (by simp)
  exact forward.asymm (reader_before_writer (accepted t (by simp)) (accepted s (by simp [earlier]))
    (Ne.symm ne) read written)

end BatchOrder
