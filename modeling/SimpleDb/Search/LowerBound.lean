import Mathlib

/-!
The in-node search of `binary_search.h`: `lower_bound_branchless` over a range `a[0..n)`
with `std::less`.

# The loop

The search keeps a position `i` and a window length `l`. Each turn probes `a[i + l/2]`,
moves `i` up to the probe when the probe is below `val`, and shrinks the window to
`l - l/2`; the loop stops when `l/2 = 0`, that is at `l = 1`, and one last probe at `i`
settles the answer. The arrays are slot functions `Nat → K` (the node arrays of the tree
are modelled the same way), so the loop's `fuel` is only a bound on its turns: the window
shrinks on every turn, and `fuel = n` always suffices.

# The invariant

For a range partitioned at `val` (everything below `val` comes first, which every range
sorted under `<` is), the loop keeps two facts: every slot below `i` is below `val`, and
the slot at `i + l`, when it is in range, is not. At `l = 1` the last probe picks `i` or
`i + 1`, and the two facts become the lower-bound contract (`lowerBoundBranchless_spec`).
Every probe sits below `i + l ≤ n`, so the search reads only `a[0..n)`
(`lowerBoundBranchless_congr`).

# Reads and the standard's answer

`lowerBoundBranchlessReads` lists the slots the search dereferences, probe by probe; each
lies below `n` (`lowerBoundBranchlessReads_lt`). `stdLowerBound` is the answer the
standard gives `std::lower_bound`, the first slot not below `val`. The contract has one
answer (`lowerBound_unique`), so on a partitioned range the two searches agree
(`lowerBoundBranchless_eq_std`).
-/

namespace SimpleDb

variable {K : Type} [LinearOrder K]

-- ============================================================ the search

/-- The `while (auto half = l / 2)` loop of `lower_bound_branchless`, from position `i`
with window `l`; `fuel` bounds the number of turns. -/
def lowerBoundLoop (a : Nat → K) (val : K) : Nat → Nat → Nat → Nat
  | 0, i, _ => i
  | fuel + 1, i, l =>
    if l / 2 = 0 then i
    else lowerBoundLoop a val fuel (if a (i + l / 2) < val then i + l / 2 else i) (l - l / 2)

/-- `lower_bound_branchless(low, low + n, val)` with `std::less`: the loop, then one last
probe at the position it stops on. -/
def lowerBoundBranchless (a : Nat → K) (n : Nat) (val : K) : Nat :=
  if n = 0 then 0
  else
    let i := lowerBoundLoop a val n 0 n
    if a i < val then i + 1 else i

/-- `a[0..n)` is partitioned at `val`: the slots below `val` form a prefix. This is the
precondition of `std::lower_bound`. -/
def Partitioned (a : Nat → K) (n : Nat) (val : K) : Prop :=
  ∀ i j, i ≤ j → j < n → a j < val → a i < val

/-- A range sorted under `<` (non-decreasing) is partitioned at every value. -/
theorem partitioned_of_sorted {a : Nat → K} {n : Nat}
    (hs : ∀ i j, i ≤ j → j < n → a i ≤ a j) (val : K) : Partitioned a n val :=
  fun i j hij hj h => lt_of_le_of_lt (hs i j hij hj) h

-- ============================================================ the invariant

/-- The loop stops inside the window it was started on. -/
theorem lowerBoundLoop_lt (a : Nat → K) (val : K) :
    ∀ fuel i l, 0 < l → lowerBoundLoop a val fuel i l < i + l
  | 0, i, l, hl => by simp only [lowerBoundLoop]; omega
  | fuel + 1, i, l, hl => by
    simp only [lowerBoundLoop]
    split
    · omega
    · by_cases hmid : a (i + l / 2) < val
      · simp only [hmid, if_true]
        have := lowerBoundLoop_lt a val fuel (i + l / 2) (l - l / 2) (by omega)
        omega
      · simp only [hmid, if_false]
        have := lowerBoundLoop_lt a val fuel i (l - l / 2) (by omega)
        omega

/-- One turn of the loop keeps both sides of the invariant: slots below the position are
below `val`, the slot at the window's end is not. -/
theorem lowerBoundLoop_spec {a : Nat → K} {val : K} {n : Nat} (hp : Partitioned a n val) :
    ∀ fuel i l, i + l ≤ n → 0 < l → l ≤ fuel + 1 →
      (∀ j < i, a j < val) → (i + l < n → ¬ a (i + l) < val) →
      (∀ j < lowerBoundLoop a val fuel i l, a j < val) ∧
      (lowerBoundLoop a val fuel i l + 1 < n → ¬ a (lowerBoundLoop a val fuel i l + 1) < val)
  | 0, i, l, _, hl, hf, hlo, hhi => by
    obtain rfl : l = 1 := by omega
    exact ⟨hlo, hhi⟩
  | fuel + 1, i, l, hn, hl, hf, hlo, hhi => by
    simp only [lowerBoundLoop]
    split
    · obtain rfl : l = 1 := by omega
      exact ⟨hlo, hhi⟩
    · by_cases hmid : a (i + l / 2) < val
      · simp only [hmid, if_true]
        refine lowerBoundLoop_spec hp fuel _ _ (by omega) (by omega) (by omega)
          (fun j hj => hp j (i + l / 2) (by omega) (by omega) hmid) ?_
        rwa [Nat.add_assoc, Nat.add_sub_cancel' (Nat.div_le_self l 2)]
      · simp only [hmid, if_false]
        exact lowerBoundLoop_spec hp fuel _ _ (by omega) (by omega) (by omega) hlo
          fun hlt habove => hmid (hp (i + l / 2) (i + (l - l / 2)) (by omega) hlt habove)

/-- The lower-bound contract: the result is at most `n`, every slot below it is below
`val`, and the slot at it, when in range, is not. -/
theorem lowerBoundBranchless_spec {a : Nat → K} {n : Nat} {val : K} (hp : Partitioned a n val) :
    lowerBoundBranchless a n val ≤ n ∧
    (∀ j < lowerBoundBranchless a n val, a j < val) ∧
    (lowerBoundBranchless a n val < n → ¬ a (lowerBoundBranchless a n val) < val) := by
  unfold lowerBoundBranchless
  dsimp only
  split
  · exact ⟨by omega, fun j hj => absurd hj (by omega), fun h => absurd h (by omega)⟩
  · have hlt := lowerBoundLoop_lt a val n 0 n (by omega)
    obtain ⟨hlo, hhi⟩ :=
      lowerBoundLoop_spec hp n 0 n (by omega) (by omega) (by omega)
        (fun j hj => absurd hj (by omega)) (fun h => absurd h (by omega))
    split
    · refine ⟨by omega, fun j hj => ?_, hhi⟩
      rcases Nat.lt_succ_iff_lt_or_eq.mp hj with hj | rfl
      · exact hlo j hj
      · assumption
    · exact ⟨by omega, hlo, fun _ => ‹_›⟩

/-- The loop reads only slots inside the window it was started on. -/
theorem lowerBoundLoop_congr {a b : Nat → K} (val : K) {n : Nat} (h : ∀ j < n, a j = b j) :
    ∀ fuel i l, i + l ≤ n → lowerBoundLoop a val fuel i l = lowerBoundLoop b val fuel i l
  | 0, _, _, _ => rfl
  | fuel + 1, i, l, hn => by
    simp only [lowerBoundLoop]
    split
    · rfl
    · rw [h (i + l / 2) (by omega)]
      exact lowerBoundLoop_congr val h fuel _ _ (by split <;> omega)

/-- The search reads only `a[0..n)`. -/
theorem lowerBoundBranchless_congr {a b : Nat → K} {n : Nat} {val : K} (h : ∀ j < n, a j = b j) :
    lowerBoundBranchless a n val = lowerBoundBranchless b n val := by
  unfold lowerBoundBranchless
  split
  · rfl
  · have hloop := lowerBoundLoop_congr val h n 0 n (by omega)
    have hlt := lowerBoundLoop_lt b val n 0 n (by omega)
    simp only [hloop, h _ (by omega : lowerBoundLoop b val n 0 n < n)]

-- ============================================================ the standard's answer, and the reads

/-- `std::lower_bound(low, low + n, val)` as the standard specifies it on a partitioned
range: the first position of `a[0..n)` whose value is not below `val`, `n` when there is
none. -/
def stdLowerBound (a : Nat → K) (n : Nat) (val : K) : Nat :=
  (List.range n).findIdx fun i => !decide (a i < val)

/-- The slots the loop from position `i` with window `l` dereferences, one probe a turn. -/
def lowerBoundLoopReads (a : Nat → K) (val : K) : Nat → Nat → Nat → List Nat
  | 0, _, _ => []
  | fuel + 1, i, l =>
    if l / 2 = 0 then []
    else (i + l / 2) ::
      lowerBoundLoopReads a val fuel (if a (i + l / 2) < val then i + l / 2 else i) (l - l / 2)

/-- The slots `lower_bound_branchless(low, low + n, val)` dereferences: the loop's probes,
then the last probe at the position it stops on. -/
def lowerBoundBranchlessReads (a : Nat → K) (n : Nat) (val : K) : List Nat :=
  if n = 0 then [] else lowerBoundLoopReads a val n 0 n ++ [lowerBoundLoop a val n 0 n]

/-- The lower-bound contract has one answer: two positions that both meet it over
`a[0..n)` are the same. -/
theorem lowerBound_unique {a : Nat → K} {val : K} {n i i' : Nat} (hi : i ≤ n) (hi' : i' ≤ n)
    (hlo : ∀ j < i, a j < val) (hhi : i < n → ¬ a i < val)
    (hlo' : ∀ j < i', a j < val) (hhi' : i' < n → ¬ a i' < val) : i = i' := by
  rcases lt_trichotomy i i' with h | h | h
  · exact absurd (hlo' i h) (hhi (by omega))
  · exact h
  · exact absurd (hlo i' h) (hhi' (by omega))

/-- `std::lower_bound` meets the lower-bound contract on every range. -/
theorem stdLowerBound_spec (a : Nat → K) (n : Nat) (val : K) :
    stdLowerBound a n val ≤ n ∧ (∀ j < stdLowerBound a n val, a j < val) ∧
    (stdLowerBound a n val < n → ¬ a (stdLowerBound a n val) < val) := by
  have hle : (List.range n).findIdx (fun i => !decide (a i < val)) ≤ (List.range n).length :=
    List.findIdx_le_length _
  rw [List.length_range] at hle
  refine ⟨hle, fun j hj => ?_, fun h => ?_⟩
  · simpa using List.not_of_lt_findIdx hj
  · have w : stdLowerBound a n val < (List.range n).length := by rwa [List.length_range]
    simpa [List.getElem_range] using List.findIdx_getElem (w := w)

/-- On a partitioned range the branchless search returns what `std::lower_bound` does. -/
theorem lowerBoundBranchless_eq_std {a : Nat → K} {n : Nat} {val : K} (hp : Partitioned a n val) :
    lowerBoundBranchless a n val = stdLowerBound a n val :=
  have h := lowerBoundBranchless_spec hp
  have h' := stdLowerBound_spec a n val
  lowerBound_unique h.1 h'.1 h.2.1 h.2.2 h'.2.1 h'.2.2

/-- Every probe of the loop lies inside the window it was started on. -/
theorem lowerBoundLoopReads_lt (a : Nat → K) (val : K) :
    ∀ fuel i l, ∀ j ∈ lowerBoundLoopReads a val fuel i l, j < i + l
  | 0, _, _, j, hj => absurd hj (List.not_mem_nil j)
  | fuel + 1, i, l, j, hj => by
    simp only [lowerBoundLoopReads] at hj
    split at hj
    · exact absurd hj (List.not_mem_nil j)
    · rcases List.mem_cons.mp hj with rfl | hj
      · omega
      · have := lowerBoundLoopReads_lt a val fuel _ _ j hj
        split at this <;> omega

/-- `lower_bound_branchless` dereferences only `a[0..n)`. -/
theorem lowerBoundBranchlessReads_lt (a : Nat → K) (n : Nat) (val : K) :
    ∀ j ∈ lowerBoundBranchlessReads a n val, j < n := by
  unfold lowerBoundBranchlessReads
  split
  · exact fun j hj => absurd hj (List.not_mem_nil j)
  · intro j hj
    rcases List.mem_append.mp hj with hj | hj
    · simpa using lowerBoundLoopReads_lt a val n 0 n j hj
    · rw [List.mem_singleton.mp hj]
      simpa using lowerBoundLoop_lt a val n 0 n (by omega)

end SimpleDb
