import SimpleDb.BTree.Update

/-!
The node methods of `btree.h` against what a node stands for: a leaf for the finite map of
its pairs, an inner node for the routing of keys to children.

# Leaves as maps

A leaf with increasing keys stands for the map `entries.lookup`. `LeafNode::insert` and
`LeafNode::erase` are read as map updates (`leaf_insert_erase_maps`), from the list
specifications of `Node.lean` and the lookup lemmas of `Update.lean`. Beyond the map, their
frames: neither method writes a slot past the pairs it leaves (`leafInsert_frame`,
`leafErase_frame`), so the slots beyond `count` keep what the page held.

# Inner nodes as routings

An inner node routes a key to the child its lower bound picks (`BTree.childFor`). The lower
bound is the one position meeting its contract (`innerLowerBound_eq`), so a split keeps the
routing once the separator has sent the key to its half (`innerSplit_childFor`), and
`InnerNode::insert_split` is read as insertion into the lists of separators and children
(`insertSplit_lists`).
-/

namespace SimpleDb

namespace Node

variable {K V : Type} [LinearOrder K]

-- ============================================================ leaves as maps

/-- Pairs below `key`, then pairs above it: `key` is unbound, and bound to `v` once its pair
stands between them. -/
theorem lookup_between {lt ge : List (K × V)} {key : K} (hlt : ∀ e ∈ lt, e.1 < key)
    (hge : ∀ e ∈ ge, key < e.1) (v : V) :
    (lt ++ ge).lookup key = none ∧ (lt ++ (key, v) :: ge).lookup key = some v := by
  have h : ∀ mid, (lt ++ mid ++ ge).lookup key = mid.lookup key := fun _ => BTree.lookup_around hlt hge
  have h2 := h [(key, v)]
  simp only [List.append_nil, List.singleton_append, List.lookup_nil, List.append_assoc,
    List.lookup_cons, beq_self_eq_true] at h h2
  exact ⟨h [], h2⟩

/-- `LeafNode::insert` writes no slot past `count`. -/
theorem leafInsert_frame {cap : Capacity} {n n' : Node K V} {key : K} {value : V}
    (hs : Increasing n.keys n.count) (h : n.leafInsert cap key value = .ok n') {j : Nat}
    (hj : n.count < j) : n'.keys j = n.keys j ∧ n'.values j = n.values j := by
  have hle := (leafLowerBound_spec hs key).1
  unfold leafInsert at h
  split at h
  · cases h
  · dsimp only at h
    split at h <;> cases h
    · exact ⟨rfl, Function.update_noteq (by omega) _ _⟩
    · simp only [Function.update_noteq (show j ≠ (n.leafLowerBound key).1 by omega), memmove]
      constructor <;> rw [if_neg (by omega)]

/-- `LeafNode::erase` writes no slot at or past the count it leaves. -/
theorem leafErase_frame {n n' : Node K V} {key : K} {erased : Bool}
    (h : n.leafErase key = .ok (n', erased)) {j : Nat} (hj : n'.count ≤ j) :
    n'.keys j = n.keys j ∧ n'.values j = n.values j := by
  unfold leafErase at h
  split at h
  · cases h; exact ⟨rfl, rfl⟩
  · dsimp only at h
    split at h
    · cases h; exact ⟨rfl, rfl⟩
    · split at h
      · cases h
      · cases h
        by_cases hc : n.count > (n.leafLowerBound key).1 + 1
        · simp only [hc, if_true, memmove] at hj ⊢
          constructor <;> rw [if_neg (by omega)]
        · simp only [hc, if_false, and_self]

/-- A leaf with increasing keys stands for the map `entries.lookup`. With room, `insert`
leaves increasing keys standing for that map with `key` bound to `value`, one more pair
exactly when `key` was unbound; `erase` leaves increasing keys standing for the map without
`key`, and says whether `key` was bound. Neither writes a slot past the pairs it leaves. -/
theorem leaf_insert_erase_maps {cap : Capacity} {n : Node K V} (hs : Increasing n.keys n.count)
    (key : K) (value : V) :
    (n.count < cap.leaf → ∃ n', n.leafInsert cap key value = .ok n' ∧ Increasing n'.keys n'.count ∧
      (∀ k, n'.entries.lookup k = if k = key then some value else n.entries.lookup k) ∧
      n'.count = (if (n.entries.lookup key).isSome then n.count else n.count + 1) ∧
      ∀ j, n.count < j → n'.keys j = n.keys j ∧ n'.values j = n.values j) ∧
    ∃ n' erased, n.leafErase key = .ok (n', erased) ∧ Increasing n'.keys n'.count ∧
      (∀ k, n'.entries.lookup k = if k = key then none else n.entries.lookup k) ∧
      erased = (n.entries.lookup key).isSome ∧
      ∀ j, n'.count ≤ j → n'.keys j = n.keys j ∧ n'.values j = n.values j := by
  have hlen : ∀ m : Node K V, m.entries.length = m.count := fun m => length_slots _ _
  refine ⟨fun hroom => ?_, ?_⟩
  · obtain ⟨n', hins, -, -, hs', lt, ge, hlt, hge, hn', hold⟩ := leafInsert_spec hs hroom key value
    have hb := lookup_between hlt hge
    refine ⟨n', hins, hs', fun k => ?_, ?_, fun j hj => leafInsert_frame hs hins hj⟩
    · by_cases hk : k = key
      · rw [if_pos hk, hk, hn', (hb value).2]
      · rw [if_neg hk, hn', BTree.lookup_middle_ne value hk]
        rcases hold with h | ⟨v, h⟩ <;> rw [h]
        rw [BTree.lookup_middle_ne v hk]
    · rw [← hlen n', ← hlen n, hn']
      rcases hold with h | ⟨v, h⟩ <;> rw [h]
      · simp [(hb value).1]; omega
      · simp [(hb v).2]
  · obtain ⟨n', erased, hera, -, -, hs', lt, ge, hlt, hge, hn', hold⟩ := leafErase_spec hs key
    have hb := lookup_between hlt hge
    refine ⟨n', erased, hera, hs', fun k => ?_, ?_, fun j hj => leafErase_frame hera hj⟩
    · by_cases hk : k = key
      · rw [if_pos hk, hk, hn', (hb value).1]
      · rw [if_neg hk]
        rcases hold with ⟨-, rfl⟩ | ⟨-, v, h⟩
        · rfl
        · rw [hn', h, BTree.lookup_middle_ne v hk]
    · rcases hold with ⟨rfl, rfl⟩ | ⟨rfl, v, h⟩
      · rw [hn', (hb value).1]; rfl
      · rw [h, (hb v).2]; rfl

/-- A leaf binding `1` to `0` and `3` to `1`. -/
def leafOneThree : Node Nat Nat := ⟨0, 2, fun i => 2 * i + 1, fun i => i, fun _ => 0⟩

theorem leaf_insert_erase_maps_oneThree :
    Increasing leafOneThree.keys leafOneThree.count ∧
    ((leafOneThree.count < (⟨4, 4⟩ : Capacity).leaf → ∃ n',
      leafOneThree.leafInsert ⟨4, 4⟩ 2 7 = .ok n' ∧ Increasing n'.keys n'.count ∧
      (∀ k, n'.entries.lookup k = if k = 2 then some 7 else leafOneThree.entries.lookup k) ∧
      n'.count = (if (leafOneThree.entries.lookup 2).isSome then leafOneThree.count
        else leafOneThree.count + 1) ∧
      ∀ j, leafOneThree.count < j → n'.keys j = leafOneThree.keys j ∧
        n'.values j = leafOneThree.values j) ∧
    ∃ n' erased, leafOneThree.leafErase 2 = .ok (n', erased) ∧ Increasing n'.keys n'.count ∧
      (∀ k, n'.entries.lookup k = if k = 2 then none else leafOneThree.entries.lookup k) ∧
      erased = (leafOneThree.entries.lookup 2).isSome ∧
      ∀ j, n'.count ≤ j → n'.keys j = leafOneThree.keys j ∧ n'.values j = leafOneThree.values j) :=
  have hs : Increasing leafOneThree.keys leafOneThree.count := fun i j h _ => by
    show 2 * i + 1 < 2 * j + 1
    omega
  ⟨hs, leaf_insert_erase_maps hs 2 7⟩

-- ============================================================ inner nodes as routings

/-- The inner lower bound is the one position meeting the contract over the separators. -/
theorem innerLowerBound_eq {n : Node K V} (hs : Increasing n.keys (n.count - 1)) {key : K} {i : Nat}
    (hi : i ≤ n.count - 1) (hlo : ∀ j < i, n.keys j < key) (hhi : i < n.count - 1 → key ≤ n.keys i) :
    (n.innerLowerBound key).1 = i := by
  obtain ⟨h1, h2, h3, -⟩ := innerLowerBound_spec hs key
  exact lowerBound_unique h1 hi h2 (fun h => not_lt.mpr (h3 h)) hlo (fun h => not_lt.mpr (hhi h))

/-- `InnerNode::split` keeps the routing: a key up to the separator finds, by the lower
bound of the left half, the child the node's lower bound picked, and a key above it finds
that child in the right half. -/
theorem innerSplit_childFor {n other left right : Node K V} {sep : K}
    (hs : Increasing n.keys (n.count - 1)) (hc : 2 ≤ n.count)
    (h : n.innerSplit other = (left, right, sep)) (k : K) :
    (if k ≤ sep then BTree.childFor left k else BTree.childFor right k) = BTree.childFor n k := by
  obtain ⟨-, -, -, -, hls, hrs, -⟩ := innerSplit_spec hs hc h
  simp only [innerSplit, Prod.mk.injEq] at h
  obtain ⟨rfl, rfl, rfl⟩ := h
  obtain ⟨h1, h2, h3, -⟩ := innerLowerBound_spec hs k
  unfold BTree.childFor
  split
  · rename_i hk
    have hi : (n.innerLowerBound k).1 ≤ n.count - n.count / 2 - 1 := by
      by_contra hlt
      exact absurd hk (not_le.mpr (h2 _ (by omega)))
    rw [innerLowerBound_eq hls hi h2 fun hj => h3 (by dsimp only at hj; omega)]
  · rename_i hk
    have hi : n.count - n.count / 2 ≤ (n.innerLowerBound k).1 := by
      by_contra hlt
      exact hk (le_trans (h3 (by omega)) (hs.le (by omega) (by omega)))
    dsimp only at hrs ⊢
    rw [innerLowerBound_eq hrs (i := (n.innerLowerBound k).1 - (n.count - n.count / 2))
      (by dsimp only; omega)
      (fun j hj => by dsimp only; rw [if_pos (by omega)]; exact h2 _ (by omega))
      (fun hj => by
        dsimp only at hj ⊢
        rw [if_pos (by omega), Nat.sub_add_cancel hi]
        exact h3 (by omega)),
      if_pos (by omega), Nat.sub_add_cancel hi]

/-- `LeafNode::split` keeps a leaf's first `count - count / 2` pairs, moves the other
`count / 2`, in order, to a leaf of its level, and returns the last key kept, at least every
key on the left and below every key on the right. `InnerNode::split` of a node with at least
two children keeps its first `newCount = count - count / 2` children and the separators
between them, moves the others and the separators between those to a node of its level, and
returns `keys[newCount - 1]`; a descent from that separator into either half reaches the
child the node's lower bound picked. -/
theorem split_halves_route :
    (∀ (n other left right : Node K V) (sep : K), Increasing n.keys n.count →
      n.leafSplit other = (left, right, sep) →
      left.level = n.level ∧ right.level = n.level ∧
      left.count = n.count - n.count / 2 ∧ right.count = n.count / 2 ∧
      n.entries = left.entries ++ right.entries ∧ sep = n.keys (n.count - n.count / 2 - 1) ∧
      (∀ e ∈ left.entries, e.1 ≤ sep) ∧ ∀ e ∈ right.entries, sep < e.1) ∧
    ∀ (n other left right : Node K V) (sep : K), 2 ≤ n.count → Increasing n.keys (n.count - 1) →
      n.innerSplit other = (left, right, sep) →
      left.level = n.level ∧ right.level = n.level ∧
      left.count = n.count - n.count / 2 ∧ right.count = n.count / 2 ∧
      n.childList = left.childList ++ right.childList ∧
      n.sepList = left.sepList ++ sep :: right.sepList ∧ sep = n.keys (n.count - n.count / 2 - 1) ∧
      ∀ k, (if k ≤ sep then BTree.childFor left k else BTree.childFor right k) = BTree.childFor n k := by
  refine ⟨fun n other left right sep hs h => ?_, fun n other left right sep hc hs h => ?_⟩
  · obtain ⟨h1, h2, h3, h4, -, -, h5, h6, h7⟩ := leafSplit_spec hs h
    exact ⟨h1, h2, h3, h4, h5, by simp only [leafSplit, Prod.mk.injEq] at h; exact h.2.2.symm, h6, h7⟩
  · obtain ⟨h1, h2, h3, h4, -, -, h5, h6, -⟩ := innerSplit_spec hs hc h
    exact ⟨h1, h2, h3, h4, h5, h6, by simp only [innerSplit, Prod.mk.injEq] at h; exact h.2.2.symm,
      innerSplit_childFor hs hc h⟩

/-- An inner node with separators `10, 20, 30` over children `100` to `103`. -/
def innerFour : Node Nat Nat := ⟨1, 4, fun i => 10 * (i + 1), fun _ => 0, fun i => i + 100⟩

theorem split_halves_route_four :
    Increasing leafOneThree.keys leafOneThree.count ∧ 2 ≤ innerFour.count ∧
    Increasing innerFour.keys (innerFour.count - 1) ∧
    (∃ left right sep, leafOneThree.leafSplit leafOneThree = (left, right, sep) ∧
      left.level = leafOneThree.level ∧ right.level = leafOneThree.level ∧
      left.count = leafOneThree.count - leafOneThree.count / 2 ∧
      right.count = leafOneThree.count / 2 ∧
      leafOneThree.entries = left.entries ++ right.entries ∧
      sep = leafOneThree.keys (leafOneThree.count - leafOneThree.count / 2 - 1) ∧
      (∀ e ∈ left.entries, e.1 ≤ sep) ∧ ∀ e ∈ right.entries, sep < e.1) ∧
    ∃ left right sep, innerFour.innerSplit innerFour = (left, right, sep) ∧
      left.level = innerFour.level ∧ right.level = innerFour.level ∧
      left.count = innerFour.count - innerFour.count / 2 ∧ right.count = innerFour.count / 2 ∧
      innerFour.childList = left.childList ++ right.childList ∧
      innerFour.sepList = left.sepList ++ sep :: right.sepList ∧
      sep = innerFour.keys (innerFour.count - innerFour.count / 2 - 1) ∧
      ∀ k, (if k ≤ sep then BTree.childFor left k else BTree.childFor right k) =
        BTree.childFor innerFour k :=
  have hl : Increasing leafOneThree.keys leafOneThree.count := fun i j h _ => by
    show 2 * i + 1 < 2 * j + 1
    omega
  have hi : Increasing innerFour.keys (innerFour.count - 1) := fun i j h _ => by
    show 10 * (i + 1) < 10 * (j + 1)
    omega
  ⟨hl, by decide, hi, ⟨_, _, _, rfl, split_halves_route.1 _ _ _ _ _ hl rfl⟩,
    _, _, _, rfl, split_halves_route.2 _ _ _ _ _ (by decide) hi rfl⟩

-- ============================================================ insert_split

/-- The first `i` slots of `a[0..n)` and the rest. -/
theorem take_drop_slots {α : Type} (a : Nat → α) {n i : Nat} (hi : i ≤ n) :
    (slots a n).take i = slots a i ∧ (slots a n).drop i = slots (fun j => a (i + j)) (n - i) := by
  rw [show slots a n = slots a i ++ slots (fun j => a (i + j)) (n - i) by
    rw [← slots_add, Nat.add_sub_cancel' hi]]
  exact ⟨List.take_left' (length_slots a i), List.drop_left' (length_slots a i)⟩

/-- `InnerNode::insert_split` of a separator `key` the node does not hold, on a node with
children, room and increasing separators: with `p` the lower bound of `key`, the node gets
one more child and separator; its separators are the old ones with `key` at position `p`,
still increasing, and its children the old ones with `r` right after child `p`. -/
theorem insertSplit_lists {cap : Capacity} {n : Node K V} (hc : 1 ≤ n.count)
    (hroom : n.count < cap.inner) (hs : Increasing n.keys (n.count - 1)) {key : K}
    (hnew : key ∉ n.sepList) (r : Pid) :
    ∃ n', n.insertSplit cap key r = .ok n' ∧
      n'.childList.length = n.count + 1 ∧ n'.sepList.length = n.count ∧
      Increasing n'.keys (n'.count - 1) ∧
      n'.sepList = n.sepList.take (n.innerLowerBound key).1 ++
        key :: n.sepList.drop (n.innerLowerBound key).1 ∧
      n'.childList = n.childList.take ((n.innerLowerBound key).1 + 1) ++
        r :: n.childList.drop ((n.innerLowerBound key).1 + 1) := by
  obtain ⟨h1, -, -, h4⟩ := innerLowerBound_spec hs key
  have hfound : (n.innerLowerBound key).2 = false := Bool.eq_false_iff.mpr fun h =>
    hnew (mem_slots.mpr ⟨_, (h4.mp h).1, (h4.mp h).2⟩)
  obtain ⟨n', hins, -, hcount, hs', hkeys, hchildren⟩ := insertSplit_spec hs hc hroom hfound r
  have hk := take_drop_slots n.keys h1
  have hch := take_drop_slots n.children (show (n.innerLowerBound key).1 + 1 ≤ n.count by omega)
  refine ⟨n', hins, by simp [childList, hcount], by simp [sepList, hcount], hs', ?_, ?_⟩
  · rw [sepList, sepList, hk.1, hk.2, hcount, show n.count + 1 - 1 = n.count - 1 + 1 by omega]
    exact slots_insert h1 fun j hj => hkeys j (by omega)
  · rw [childList, childList, hch.1, hch.2, hcount]
    exact slots_insert (by omega) hchildren

theorem insertSplit_lists_three :
    1 ≤ (⟨1, 3, fun i => 10 * (i + 1), fun _ => 0, fun i => i + 100⟩ : Node Nat Nat).count ∧
    (⟨1, 3, fun i => 10 * (i + 1), fun _ => 0, fun i => i + 100⟩ : Node Nat Nat).count <
      (⟨4, 4⟩ : Capacity).inner ∧
    Increasing (⟨1, 3, fun i => 10 * (i + 1), fun _ => 0, fun i => i + 100⟩ : Node Nat Nat).keys 2 ∧
    15 ∉ (⟨1, 3, fun i => 10 * (i + 1), fun _ => 0, fun i => i + 100⟩ : Node Nat Nat).sepList ∧
    ∃ n', (⟨1, 3, fun i => 10 * (i + 1), fun _ => 0, fun i => i + 100⟩ : Node Nat Nat).insertSplit
        ⟨4, 4⟩ 15 7 = .ok n' ∧
      n'.childList.length = 3 + 1 ∧ n'.sepList.length = 3 ∧ Increasing n'.keys (n'.count - 1) ∧
      n'.sepList = [10, 20].take 1 ++ 15 :: [10, 20].drop 1 ∧
      n'.childList = [100, 101, 102].take (1 + 1) ++ 7 :: [100, 101, 102].drop (1 + 1) :=
  have hs : Increasing (⟨1, 3, fun i => 10 * (i + 1), fun _ => 0, fun i => i + 100⟩ :
      Node Nat Nat).keys 2 := fun i j h _ => by
    show 10 * (i + 1) < 10 * (j + 1)
    omega
  ⟨by decide, by decide, hs, by decide, insertSplit_lists (by decide) (by decide) hs (by decide) 7⟩

-- ============================================================ the lower bounds

/-- On a range sorted under `<`, `lower_bound_branchless` returns the first position whose
value is not below `val`, `n` when there is none, which is what `std::lower_bound` returns,
and it dereferences only `a[0..n)`. On increasing separators `InnerNode::lower_bound`, which
searches the `count - 1` separators, picks the child whose bounds hold the key; on
increasing keys `LeafNode::lower_bound` returns the first slot whose key is not below the
key, or `count`, and whether the key is there. -/
theorem lower_bounds_contract :
    (∀ (a : Nat → K) (n : Nat) (val : K), (∀ i j, i ≤ j → j < n → a i ≤ a j) →
      lowerBoundBranchless a n val ≤ n ∧ (∀ j < lowerBoundBranchless a n val, a j < val) ∧
      (lowerBoundBranchless a n val < n → ¬ a (lowerBoundBranchless a n val) < val) ∧
      lowerBoundBranchless a n val = stdLowerBound a n val ∧
      ∀ j ∈ lowerBoundBranchlessReads a n val, j < n) ∧
    (∀ (n : Node K V) (key : K), Increasing n.keys (n.count - 1) →
      (0 < n.count → (n.innerLowerBound key).1 < n.count) ∧
      (0 < (n.innerLowerBound key).1 → n.keys ((n.innerLowerBound key).1 - 1) < key) ∧
      ((n.innerLowerBound key).1 < n.count - 1 → key ≤ n.keys (n.innerLowerBound key).1)) ∧
    ∀ (n : Node K V) (key : K), Increasing n.keys n.count →
      (n.leafLowerBound key).1 ≤ n.count ∧ (∀ j < (n.leafLowerBound key).1, n.keys j < key) ∧
      ((n.leafLowerBound key).1 < n.count → key ≤ n.keys (n.leafLowerBound key).1) ∧
      ((n.leafLowerBound key).2 = true ↔
        (n.leafLowerBound key).1 < n.count ∧ n.keys (n.leafLowerBound key).1 = key) := by
  refine ⟨fun a n val hs => ?_, fun n key hs => ?_, fun n key hs => leafLowerBound_spec hs key⟩
  · have hp := partitioned_of_sorted hs val
    exact ⟨(lowerBoundBranchless_spec hp).1, (lowerBoundBranchless_spec hp).2.1,
      (lowerBoundBranchless_spec hp).2.2, lowerBoundBranchless_eq_std hp,
      lowerBoundBranchlessReads_lt a n val⟩
  · obtain ⟨h1, h2, h3, -⟩ := innerLowerBound_spec hs key
    exact ⟨fun _ => by omega, fun h => h2 _ (by omega), h3⟩

theorem lower_bounds_contract_small :
    (∀ i j, i ≤ j → j < 3 → (fun i => i / 2) i ≤ (fun i => i / 2) j) ∧
    Increasing innerFour.keys (innerFour.count - 1) ∧ Increasing leafOneThree.keys leafOneThree.count ∧
    (lowerBoundBranchless (fun i => i / 2) 3 1 ≤ 3 ∧
      (∀ j < lowerBoundBranchless (fun i => i / 2) 3 1, j / 2 < 1) ∧
      (lowerBoundBranchless (fun i => i / 2) 3 1 < 3 →
        ¬ lowerBoundBranchless (fun i => i / 2) 3 1 / 2 < 1) ∧
      lowerBoundBranchless (fun i => i / 2) 3 1 =
        stdLowerBound (fun i => i / 2) 3 1 ∧
      ∀ j ∈ lowerBoundBranchlessReads (fun i => i / 2) 3 1, j < 3) ∧
    ((0 < innerFour.count → (innerFour.innerLowerBound 25).1 < innerFour.count) ∧
      (0 < (innerFour.innerLowerBound 25).1 →
        innerFour.keys ((innerFour.innerLowerBound 25).1 - 1) < 25) ∧
      ((innerFour.innerLowerBound 25).1 < innerFour.count - 1 →
        25 ≤ innerFour.keys (innerFour.innerLowerBound 25).1)) ∧
    (leafOneThree.leafLowerBound 3).1 ≤ leafOneThree.count ∧
      (∀ j < (leafOneThree.leafLowerBound 3).1, leafOneThree.keys j < 3) ∧
      ((leafOneThree.leafLowerBound 3).1 < leafOneThree.count →
        3 ≤ leafOneThree.keys (leafOneThree.leafLowerBound 3).1) ∧
      ((leafOneThree.leafLowerBound 3).2 = true ↔ (leafOneThree.leafLowerBound 3).1 < leafOneThree.count ∧
        leafOneThree.keys (leafOneThree.leafLowerBound 3).1 = 3) :=
  have ha : ∀ i j, i ≤ j → j < 3 →
      (fun i => i / 2) i ≤ (fun i => i / 2) j := fun i j h _ => Nat.div_le_div_right h
  have hi : Increasing innerFour.keys (innerFour.count - 1) := fun i j h _ => by
    show 10 * (i + 1) < 10 * (j + 1)
    omega
  have hl : Increasing leafOneThree.keys leafOneThree.count := fun i j h _ => by
    show 2 * i + 1 < 2 * j + 1
    omega
  ⟨ha, hi, hl, (lower_bounds_contract (V := Nat)).1 _ 3 1 ha, lower_bounds_contract.2.1 innerFour 25 hi,
    lower_bounds_contract.2.2 leafOneThree 3 hl⟩

end Node

end SimpleDb
