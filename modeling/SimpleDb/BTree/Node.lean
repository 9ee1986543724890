import SimpleDb.Search.LowerBound
import SimpleDb.Buffer.Manager

/-!
The nodes of `btree.h`: a page read as an `InnerNode` or a `LeafNode`, and the node methods
the tree calls.

# Pages as nodes

A `Node` is a page: the header `level` and `count`, then slot arrays. Both node kinds keep
`keys` at the same offset; an inner node follows them with `children`, a leaf with
`values`. The code reads the slots of one kind only on pages of that kind, so the model
keeps the two tails as separate arrays. Arrays are slot functions `Nat → α`: a method
writes exactly the slots the code writes, and every other slot keeps what the page held,
which is how a freshly minted page keeps the bytes of its block. The capacities
`InnerNode::kCapacity` and `LeafNode::kCapacity` come from the page size and the slot
sizes; they are a parameter (`Capacity`).

# Methods

Each method is the code's sequence of slot writes: `memmove` for the shifts, the copy loop
of `split` as its closed form. An `assert` is a failure (`Except String`) naming the
asserted condition. `lower_bound` is `lowerBoundBranchless` over `count - 1` separators
(inner) or `count` keys (leaf).

# Specifications

On a node whose slots below `count` are sorted, the methods are read off as list
operations on the node's `entries`, `childList` and `sepList` (`slots` below `count`):
insertion at the lower bound, removal there, and a split into a prefix and a suffix.
-/

namespace SimpleDb

/-- `InnerNode::kCapacity` and `LeafNode::kCapacity`: the slots that fit in a page after
the node header. -/
structure Capacity where
  inner : Nat
  leaf : Nat

/-- A page read as a `Node`: the header and the slot arrays of both node kinds. -/
structure Node (K V : Type) where
  level : Nat
  count : Nat
  keys : Nat → K
  values : Nat → V
  children : Nat → Pid

/-- `memmove(&a[dst], &a[src], n * sizeof(T))` on a slot array. -/
def memmove {α : Type} (a : Nat → α) (dst src n : Nat) : Nat → α :=
  fun i => if dst ≤ i ∧ i < dst + n then a (src + (i - dst)) else a i

/-- The slots `a[0..n)` as a list. -/
def slots {α : Type} (a : Nat → α) (n : Nat) : List α :=
  (List.range n).map a

section slots

variable {α : Type}

@[simp] theorem length_slots (a : Nat → α) (n : Nat) : (slots a n).length = n := by
  simp [slots]

@[simp] theorem getElem_slots (a : Nat → α) (n i : Nat) (h : i < (slots a n).length) :
    (slots a n)[i] = a i := by
  simp [slots]

@[simp] theorem slots_zero (a : Nat → α) : slots a 0 = [] := rfl

theorem mem_slots {a : Nat → α} {n : Nat} {x : α} : x ∈ slots a n ↔ ∃ i < n, a i = x := by
  simp [slots]

theorem slots_add (a : Nat → α) (m n : Nat) :
    slots a (m + n) = slots a m ++ slots (fun i => a (m + i)) n := by
  simp [slots, List.range_add]

theorem slots_congr {a b : Nat → α} {n : Nat} (h : ∀ i < n, a i = b i) : slots a n = slots b n :=
  List.map_congr_left fun i hi => h i (List.mem_range.mp hi)

/-- Slot `i` of `a[0..n)` splits it into the slots before and after. -/
theorem slots_split (a : Nat → α) {n i : Nat} (hi : i < n) :
    slots a n = slots a i ++ a i :: slots (fun j => a (i + 1 + j)) (n - 1 - i) := by
  obtain ⟨m, rfl⟩ : ∃ m, n = i + 1 + m := ⟨n - 1 - i, by omega⟩
  rw [slots_add, slots_add]
  simp [slots, List.range_succ, show i + 1 + m - 1 - i = m by omega]

/-- Slots agreeing with `a` before `i`, holding `x` at `i` and `a` shifted one up after:
`x` inserted at `i`. -/
theorem slots_insert {a b : Nat → α} {n i : Nat} {x : α} (hi : i ≤ n)
    (h : ∀ j < n + 1, b j = if j < i then a j else if j = i then x else a (j - 1)) :
    slots b (n + 1) = slots a i ++ x :: slots (fun j => a (i + j)) (n - i) := by
  rw [slots_split b (show i < n + 1 by omega), show n + 1 - 1 - i = n - i by omega]
  congr 1
  · exact slots_congr fun j hj => by rw [h j (by omega), if_pos hj]
  · rw [h i (by omega), if_neg (lt_irrefl i), if_pos rfl]
    exact congrArg _ (slots_congr fun j hj => by
      rw [h _ (by omega), if_neg (by omega), if_neg (by omega)]
      congr 1; omega)

/-- Slots agreeing with `a` before `i` and with `a` shifted one down from `i`: slot `i`
removed. -/
theorem slots_remove {a b : Nat → α} {n i : Nat} (hi : i < n)
    (h : ∀ j < n - 1, b j = if j < i then a j else a (j + 1)) :
    slots b (n - 1) = slots a i ++ slots (fun j => a (i + 1 + j)) (n - 1 - i) := by
  obtain ⟨m, rfl⟩ : ∃ m, n = i + 1 + m := ⟨n - 1 - i, by omega⟩
  rw [show i + 1 + m - 1 - i = m by omega, show i + 1 + m - 1 = i + m by omega, slots_add]
  congr 1
  · exact slots_congr fun j hj => by rw [h j (by omega), if_pos hj]
  · exact slots_congr fun j hj => by rw [h _ (by omega), if_neg (by omega)]; congr 1; omega

@[simp] theorem memmove_zero (a : Nat → α) (dst src : Nat) : memmove a dst src 0 = a := by
  funext i; simp [memmove]

/-- The shift-right-and-write of an insertion at `i` into `a[0..n)`. -/
theorem update_memmove_right (a : Nat → α) {n i : Nat} (x : α) (hi : i ≤ n) {j : Nat}
    (hj : j < n + 1) :
    Function.update (memmove a (i + 1) i (n - i)) i x j =
      if j < i then a j else if j = i then x else a (j - 1) := by
  by_cases hji : j = i
  · subst hji; simp
  · rw [Function.update_noteq hji, if_neg hji]
    unfold memmove
    split_ifs with h1 h2 h2 <;> first | rfl | omega | (congr 1; omega)

/-- The shift-right of children and the write of the new child after slot `i`. -/
theorem update_memmove_child (a : Nat → α) {n i : Nat} (x : α) (hi : i < n) {j : Nat}
    (hj : j < n + 1) :
    Function.update (memmove a (i + 1) i (n - i)) (i + 1) x j =
      if j < i + 1 then a j else if j = i + 1 then x else a (j - 1) := by
  by_cases hji : j = i + 1
  · subst hji; simp
  · rw [Function.update_noteq hji, if_neg hji]
    unfold memmove
    split_ifs with h1 h2 h2 <;> first | rfl | omega | (congr 1; omega)

/-- The shift-left over slot `i` of `a[0..n)`. -/
theorem memmove_left (a : Nat → α) {n i : Nat} {j : Nat} (hj : j < n - 1) :
    memmove a i (i + 1) (n - (i + 1)) j = if j < i then a j else a (j + 1) := by
  unfold memmove
  split_ifs with h1 h2 h2 <;> first | rfl | omega | (congr 1; omega)

/-- The shift-left over slot `i` of `LeafNode::erase`, and its absence when `i` is last. -/
theorem erase_shift_apply (a : Nat → α) {n i j : Nat} (hj : j < n - 1) :
    (if n > i + 1 then memmove a i (i + 1) (n - (i + 1)) else a) j =
      if j < i then a j else a (j + 1) := by
  split
  · exact memmove_left a hj
  · rw [if_pos (by omega)]

end slots

namespace Node

variable {K V : Type} [LinearOrder K]

-- ============================================================ the methods

/-- `Node::is_leaf`. -/
def isLeaf (n : Node K V) : Bool := n.level == 0

/-- `InnerNode::has_space`. -/
def innerHasSpace (cap : Capacity) (n : Node K V) : Bool := n.count < cap.inner

/-- `LeafNode::has_space`. -/
def leafHasSpace (cap : Capacity) (n : Node K V) : Bool := n.count < cap.leaf

/-- `InnerNode::lower_bound`: the child index for `key`, and whether `key` is one of the
`count - 1` separators. -/
def innerLowerBound (n : Node K V) (key : K) : Nat × Bool :=
  if n.count = 0 then (0, false)
  else
    let i := lowerBoundBranchless n.keys (n.count - 1) key
    (i, decide (i < n.count - 1) && decide (n.keys i = key))

/-- `LeafNode::lower_bound`: the slot for `key`, and whether `key` is stored there. -/
def leafLowerBound (n : Node K V) (key : K) : Nat × Bool :=
  if n.count = 0 then (0, false)
  else
    let i := lowerBoundBranchless n.keys n.count key
    (i, decide (i < n.count) && decide (n.keys i = key))

/-- `InnerNode::insert_split`: the separator goes to its lower-bound slot, the new child
right after the child that slot names. -/
def insertSplit (cap : Capacity) (n : Node K V) (key : K) (splitPage : Pid) :
    Except String (Node K V) :=
  if ¬ n.count < cap.inner then throw "has_space()"
  else
    let pos := n.innerLowerBound key
    if pos.2 then throw "Split key already exists?"
    else
      let n := if pos.1 + 1 < n.count then
          { n with keys := memmove n.keys (pos.1 + 1) pos.1 (n.count - pos.1 - 1),
                   children := memmove n.children (pos.1 + 1) pos.1 (n.count - pos.1) }
        else n
      pure { n with keys := Function.update n.keys pos.1 key,
                    children := Function.update n.children (pos.1 + 1) splitPage,
                    count := n.count + 1 }

/-- `InnerNode::split`: the last `count / 2` children and the keys beside them move to
`other`, which takes this node's level; the separator is `keys[newCount - 1]`. -/
def innerSplit (n other : Node K V) : Node K V × Node K V × K :=
  let otherCount := n.count / 2
  let newCount := n.count - otherCount
  ({ n with count := newCount },
    { other with
      level := n.level
      count := otherCount
      keys := fun i => if i < otherCount then n.keys (i + newCount) else other.keys i
      children := fun i => if i < otherCount then n.children (i + newCount) else other.children i },
    n.keys (newCount - 1))

/-- `LeafNode::insert`: overwrites the value of a stored key, else shifts the suffix one
slot right and writes the pair at the lower bound. -/
def leafInsert (cap : Capacity) (n : Node K V) (key : K) (value : V) : Except String (Node K V) :=
  if ¬ n.count < cap.leaf then throw "has_space()"
  else
    let pos := n.leafLowerBound key
    if pos.2 then pure { n with values := Function.update n.values pos.1 value }
    else
      let n := { n with keys := memmove n.keys (pos.1 + 1) pos.1 (n.count - pos.1),
                        values := memmove n.values (pos.1 + 1) pos.1 (n.count - pos.1) }
      pure { n with keys := Function.update n.keys pos.1 key,
                    values := Function.update n.values pos.1 value,
                    count := n.count + 1 }

/-- `LeafNode::erase`: shifts the suffix after a stored key one slot left; whether the key
was there. -/
def leafErase (n : Node K V) (key : K) : Except String (Node K V × Bool) :=
  if n.count = 0 then pure (n, false)
  else
    let pos := n.leafLowerBound key
    if !pos.2 then pure (n, false)
    else if n.keys pos.1 < key then throw "ComparatorT\x7b\x7d(keys[pos.first], key) == 0"
    else
      let n := if n.count > pos.1 + 1 then
          { n with keys := memmove n.keys pos.1 (pos.1 + 1) (n.count - (pos.1 + 1)),
                   values := memmove n.values pos.1 (pos.1 + 1) (n.count - (pos.1 + 1)) }
        else n
      pure ({ n with count := n.count - 1 }, true)

/-- `LeafNode::split`: the last `count / 2` pairs move to `other`, which takes this node's
level; the separator is the last key kept, `keys[newCount - 1]`. -/
def leafSplit (n other : Node K V) : Node K V × Node K V × K :=
  let otherCount := n.count / 2
  let newCount := n.count - otherCount
  ({ n with count := newCount },
    { other with
      level := n.level
      count := otherCount
      keys := fun i => if i < otherCount then n.keys (i + newCount) else other.keys i
      values := fun i => if i < otherCount then n.values (i + newCount) else other.values i },
    n.keys (newCount - 1))

/-- A node with no room for one more pair or child: `!has_space()` of its kind. -/
def full (cap : Capacity) (n : Node K V) : Bool :=
  if n.isLeaf then !n.leafHasSpace cap else !n.innerHasSpace cap

/-- The `split` of the node's kind. -/
def split (n other : Node K V) : Node K V × Node K V × K :=
  if n.isLeaf then n.leafSplit other else n.innerSplit other

-- ============================================================ the slots as lists

/-- The pairs a leaf stores. -/
def entries (n : Node K V) : List (K × V) := slots (fun i => (n.keys i, n.values i)) n.count

/-- The children of an inner node. -/
def childList (n : Node K V) : List Pid := slots n.children n.count

/-- The separators of an inner node: one fewer than its children. -/
def sepList (n : Node K V) : List K := slots n.keys (n.count - 1)

/-- `a[0..n)` is strictly increasing. -/
def Increasing (a : Nat → K) (n : Nat) : Prop := ∀ i j, i < j → j < n → a i < a j

theorem Increasing.mono {a : Nat → K} {n m : Nat} (h : Increasing a n) (hm : m ≤ n) :
    Increasing a m :=
  fun i j hij hj => h i j hij (by omega)

/-- Increasing slots are monotone. -/
theorem Increasing.le {a : Nat → K} {n i j : Nat} (h : Increasing a n) (hij : i ≤ j) (hj : j < n) :
    a i ≤ a j := by
  rcases Nat.lt_or_eq_of_le hij with hlt | rfl
  · exact le_of_lt (h i j hlt hj)
  · exact le_rfl

/-- Increasing slots are sorted, so the branchless search meets the lower-bound contract. -/
theorem lowerBound_increasing {a : Nat → K} {m : Nat} (hs : Increasing a m) (key : K) :
    lowerBoundBranchless a m key ≤ m ∧ (∀ j < lowerBoundBranchless a m key, a j < key) ∧
    (lowerBoundBranchless a m key < m → key ≤ a (lowerBoundBranchless a m key)) := by
  have hp : Partitioned a m key := partitioned_of_sorted (fun _ _ hij hj => hs.le hij hj) key
  obtain ⟨h1, h2, h3⟩ := lowerBoundBranchless_spec hp
  exact ⟨h1, h2, fun h => not_lt.mp (h3 h)⟩

/-- The leaf lower bound on increasing keys: every key before it is below `key`, the key at
it is not, and `found` says the key at it is `key`. -/
theorem leafLowerBound_spec {n : Node K V} (hs : Increasing n.keys n.count) (key : K) :
    (n.leafLowerBound key).1 ≤ n.count ∧ (∀ j < (n.leafLowerBound key).1, n.keys j < key) ∧
    ((n.leafLowerBound key).1 < n.count → key ≤ n.keys (n.leafLowerBound key).1) ∧
    ((n.leafLowerBound key).2 = true ↔
      (n.leafLowerBound key).1 < n.count ∧ n.keys (n.leafLowerBound key).1 = key) := by
  unfold leafLowerBound
  split
  · simp_all
  · obtain ⟨h1, h2, h3⟩ := lowerBound_increasing hs key
    simp only [Bool.and_eq_true, decide_eq_true_eq]
    exact ⟨h1, h2, h3, trivial⟩

/-- The inner lower bound on increasing separators: the child index for `key`, with every
separator before it below `key` and the separator at it, if any, not. -/
theorem innerLowerBound_spec {n : Node K V} (hs : Increasing n.keys (n.count - 1)) (key : K) :
    (n.innerLowerBound key).1 ≤ n.count - 1 ∧ (∀ j < (n.innerLowerBound key).1, n.keys j < key) ∧
    ((n.innerLowerBound key).1 < n.count - 1 → key ≤ n.keys (n.innerLowerBound key).1) ∧
    ((n.innerLowerBound key).2 = true ↔
      (n.innerLowerBound key).1 < n.count - 1 ∧ n.keys (n.innerLowerBound key).1 = key) := by
  unfold innerLowerBound
  split
  · simp_all
  · obtain ⟨h1, h2, h3⟩ := lowerBound_increasing hs key
    simp only [Bool.and_eq_true, decide_eq_true_eq]
    exact ⟨h1, h2, h3, trivial⟩

-- ============================================================ leaf specifications

/-- Increasing slots with one key inserted at its lower bound stay increasing. -/
theorem Increasing.insert {a : Nat → K} {n i : Nat} {key : K} (hs : Increasing a n) (hi : i ≤ n)
    (hlt : ∀ j < i, a j < key) (hgt : i < n → key < a i) :
    Increasing (fun j => if j < i then a j else if j = i then key else a (j - 1)) (n + 1) := by
  intro j1 j2 h12 h2
  dsimp only
  split_ifs with ha hb hc hd hc hd
  all_goals first
    | omega
    | exact hs _ _ h12 (by omega)
    | exact hlt _ ha
    | exact lt_of_lt_of_le (hlt _ ha) (le_of_lt (lt_of_lt_of_le (hgt (by omega)) (hs.le (by omega) (by omega))))
    | exact lt_of_lt_of_le (hgt (by omega)) (hs.le (by omega) (by omega))
    | exact hs _ _ (by omega) (by omega)

/-- `LeafNode::insert` on a leaf with room and increasing keys returns a leaf of the same
level with increasing keys, whose pairs are those below `key`, then `(key, value)`, then
those above it: the pair of a stored `key` is replaced. -/
theorem leafInsert_spec {cap : Capacity} {n : Node K V} (hs : Increasing n.keys n.count)
    (hroom : n.count < cap.leaf) (key : K) (value : V) :
    ∃ n', n.leafInsert cap key value = .ok n' ∧ n'.level = n.level ∧ n'.count ≤ cap.leaf ∧
      Increasing n'.keys n'.count ∧
      ∃ lt ge, (∀ e ∈ lt, e.1 < key) ∧ (∀ e ∈ ge, key < e.1) ∧
        n'.entries = lt ++ (key, value) :: ge ∧
        (n.entries = lt ++ ge ∨ ∃ v, n.entries = lt ++ (key, v) :: ge) := by
  obtain ⟨h1, h2, h3, h4⟩ := leafLowerBound_spec hs key
  generalize hpos : n.leafLowerBound key = pos at h1 h2 h3 h4
  obtain ⟨i, found⟩ := pos
  dsimp only at h1 h2 h3 h4
  have hlt : ∀ e ∈ slots (fun j => (n.keys j, n.values j)) i, e.1 < key := fun e he => by
    obtain ⟨j, hj, rfl⟩ := mem_slots.mp he; exact h2 j hj
  simp only [leafInsert, hroom, not_true_eq_false, if_false, hpos]
  cases found
  · -- a new key: the suffix shifts one slot right
    have hne : i < n.count → key < n.keys i := fun h =>
      lt_of_le_of_ne (h3 h) fun e => by simpa using h4.mpr ⟨h, e.symm⟩
    have hkeys := fun j (hj : j < n.count + 1) => update_memmove_right n.keys key h1 hj
    have hvals := fun j (hj : j < n.count + 1) => update_memmove_right n.values value h1 hj
    refine ⟨_, rfl, rfl, by simpa using hroom, fun j1 j2 h12 h2' => ?_, slots _ i,
      slots (fun j => (n.keys (i + j), n.values (i + j))) (n.count - i), hlt, ?_, ?_, .inl ?_⟩
    · dsimp only at h2' ⊢
      rw [hkeys j1 (by omega), hkeys j2 h2']
      exact Increasing.insert hs h1 h2 hne j1 j2 h12 h2'
    · intro e he
      obtain ⟨j, hj, rfl⟩ := mem_slots.mp he
      exact lt_of_lt_of_le (hne (by omega)) (hs.le (by omega) (by omega))
    · unfold entries
      exact slots_insert h1 fun j hj => by
        simp only [hkeys j hj, hvals j hj]; split_ifs <;> rfl
    · unfold entries
      rw [← slots_add, Nat.add_sub_cancel' h1]
  · -- a stored key: its value is overwritten in place
    obtain ⟨hi, hk⟩ := h4.mp rfl
    refine ⟨_, rfl, rfl, le_of_lt hroom, hs, slots _ i,
      slots (fun j => (n.keys (i + 1 + j), n.values (i + 1 + j))) (n.count - 1 - i), hlt, ?_, ?_,
      .inr ⟨n.values i, ?_⟩⟩
    · intro e he
      obtain ⟨j, hj, rfl⟩ := mem_slots.mp he
      exact hk ▸ hs _ _ (by omega) (by omega)
    · unfold entries
      rw [slots_split _ hi]
      simp only [Function.update_same, hk]
      congr 1
      · exact slots_congr fun j hj => by rw [Function.update_noteq (by omega)]
      · exact congrArg _ (slots_congr fun j hj => by rw [Function.update_noteq (by omega)])
    · unfold entries; rw [slots_split _ hi, hk]

/-- `LeafNode::erase` on increasing keys returns; it removes the pair of a stored `key` and
says so, and otherwise leaves the leaf as it was. -/
theorem leafErase_spec {n : Node K V} (hs : Increasing n.keys n.count) (key : K) :
    ∃ n' erased, n.leafErase key = .ok (n', erased) ∧ n'.level = n.level ∧
      n'.count ≤ n.count ∧ Increasing n'.keys n'.count ∧
      ∃ lt ge, (∀ e ∈ lt, e.1 < key) ∧ (∀ e ∈ ge, key < e.1) ∧ n'.entries = lt ++ ge ∧
        ((erased = false ∧ n' = n) ∨ (erased = true ∧ ∃ v, n.entries = lt ++ (key, v) :: ge)) := by
  obtain ⟨h1, h2, h3, h4⟩ := leafLowerBound_spec hs key
  generalize hpos : n.leafLowerBound key = pos at h1 h2 h3 h4
  obtain ⟨i, found⟩ := pos
  dsimp only at h1 h2 h3 h4
  have hlt : ∀ e ∈ slots (fun j => (n.keys j, n.values j)) i, e.1 < key := fun e he => by
    obtain ⟨j, hj, rfl⟩ := mem_slots.mp he; exact h2 j hj
  unfold leafErase
  by_cases h0 : n.count = 0
  · refine ⟨n, false, by simp only [h0, if_true]; rfl, rfl, le_refl _, hs, [], [], by simp, by simp, ?_,
      .inl ⟨rfl, rfl⟩⟩
    simp [entries, h0]
  simp only [h0, if_false, hpos]
  cases found
  · have hne : i < n.count → key < n.keys i := fun h =>
      lt_of_le_of_ne (h3 h) fun e => by simpa using h4.mpr ⟨h, e.symm⟩
    refine ⟨n, false, rfl, rfl, le_refl _, hs, slots _ i,
      slots (fun j => (n.keys (i + j), n.values (i + j))) (n.count - i), hlt, ?_, ?_, .inl ⟨rfl, rfl⟩⟩
    · intro e he
      obtain ⟨j, hj, rfl⟩ := mem_slots.mp he
      exact lt_of_lt_of_le (hne (by omega)) (hs.le (by omega) (by omega))
    · unfold entries; rw [← slots_add, Nat.add_sub_cancel' h1]
  · obtain ⟨hi, hk⟩ := h4.mp rfl
    have hkeys := fun j (hj : j < n.count - 1) => erase_shift_apply (i := i) n.keys hj
    have hvals := fun j (hj : j < n.count - 1) => erase_shift_apply (i := i) n.values hj
    have hnode : (if n.count > i + 1 then
        { n with keys := memmove n.keys i (i + 1) (n.count - (i + 1)),
                 values := memmove n.values i (i + 1) (n.count - (i + 1)) } else n) =
        { n with keys := if n.count > i + 1 then memmove n.keys i (i + 1) (n.count - (i + 1)) else n.keys,
                 values := if n.count > i + 1 then memmove n.values i (i + 1) (n.count - (i + 1))
                   else n.values } := by
      split <;> rfl
    simp only [Bool.not_true, Bool.false_eq_true, if_false, hk, lt_irrefl, hnode]
    refine ⟨_, true, rfl, rfl, by simp, fun j1 j2 h12 h2' => ?_, slots _ i,
      slots (fun j => (n.keys (i + 1 + j), n.values (i + 1 + j))) (n.count - 1 - i), hlt, ?_, ?_,
      .inr ⟨rfl, n.values i, ?_⟩⟩
    · dsimp only at h2' ⊢
      rw [hkeys j1 (by omega), hkeys j2 (by omega)]
      split_ifs <;> exact hs _ _ (by omega) (by omega)
    · intro e he
      obtain ⟨j, hj, rfl⟩ := mem_slots.mp he
      exact hk ▸ hs _ _ (by omega) (by omega)
    · unfold entries
      exact slots_remove hi fun j hj => by simp only [hkeys j hj, hvals j hj]; split_ifs <;> rfl
    · unfold entries; rw [slots_split _ hi, hk]

/-- `LeafNode::split`: both halves keep the leaf's level and hold `count - count / 2` and
`count / 2` pairs with increasing keys; their pairs are the leaf's, in order, and the
separator, the last key kept, is at least every key on the left and below every key on the
right. -/
theorem leafSplit_spec {n other left right : Node K V} {sep : K} (hs : Increasing n.keys n.count)
    (h : n.leafSplit other = (left, right, sep)) :
    left.level = n.level ∧ right.level = n.level ∧
    left.count = n.count - n.count / 2 ∧ right.count = n.count / 2 ∧
    Increasing left.keys left.count ∧ Increasing right.keys right.count ∧
    n.entries = left.entries ++ right.entries ∧
    (∀ e ∈ left.entries, e.1 ≤ sep) ∧ (∀ e ∈ right.entries, sep < e.1) := by
  simp only [leafSplit, Prod.mk.injEq] at h
  obtain ⟨rfl, rfl, rfl⟩ := h
  dsimp only
  refine ⟨rfl, rfl, rfl, rfl, hs.mono (by omega), fun j1 j2 h12 h2 => ?_, ?_, fun e he => ?_,
    fun e he => ?_⟩
  · dsimp only at h2 ⊢
    rw [if_pos (by omega), if_pos h2]
    exact hs _ _ (by omega) (by omega)
  · unfold entries
    conv_lhs => rw [show n.count = (n.count - n.count / 2) + n.count / 2 by omega]
    rw [slots_add]
    exact congrArg _ (slots_congr fun j hj => by simp [hj, Nat.add_comm])
  · obtain ⟨j, hj, rfl⟩ := mem_slots.mp he
    dsimp only at hj
    exact hs.le (by omega) (by omega)
  · obtain ⟨j, hj, rfl⟩ := mem_slots.mp he
    dsimp only at hj ⊢
    rw [if_pos hj]
    exact hs _ _ (by omega) (by omega)

/-- `InnerNode::split` of an inner node with at least two children and increasing
separators: both halves keep its level; their children are its children, in order; the
separator returned sits between their separators, and every separator of each half is on
its side of it. -/
theorem innerSplit_spec {n other left right : Node K V} {sep : K}
    (hs : Increasing n.keys (n.count - 1)) (hc : 2 ≤ n.count)
    (h : n.innerSplit other = (left, right, sep)) :
    left.level = n.level ∧ right.level = n.level ∧
    left.count = n.count - n.count / 2 ∧ right.count = n.count / 2 ∧
    Increasing left.keys (left.count - 1) ∧ Increasing right.keys (right.count - 1) ∧
    n.childList = left.childList ++ right.childList ∧
    n.sepList = left.sepList ++ sep :: right.sepList ∧
    (∀ k ∈ left.sepList, k < sep) ∧ (∀ k ∈ right.sepList, sep < k) := by
  simp only [innerSplit, Prod.mk.injEq] at h
  obtain ⟨rfl, rfl, rfl⟩ := h
  dsimp only
  refine ⟨rfl, rfl, rfl, rfl, hs.mono (by omega), fun j1 j2 h12 h2 => ?_, ?_, ?_, fun k hk => ?_,
    fun k hk => ?_⟩
  · dsimp only at h2 ⊢
    rw [if_pos (by omega), if_pos (by omega)]
    exact hs _ _ (by omega) (by omega)
  · unfold childList
    conv_lhs => rw [show n.count = (n.count - n.count / 2) + n.count / 2 by omega]
    rw [slots_add]
    exact congrArg _ (slots_congr fun j hj => by simp [hj, Nat.add_comm])
  · unfold sepList
    dsimp only
    rw [slots_split _ (show n.count - n.count / 2 - 1 < n.count - 1 by omega),
      show n.count - 1 - 1 - (n.count - n.count / 2 - 1) = n.count / 2 - 1 by omega]
    congr 2
    exact slots_congr fun j hj => by rw [if_pos (by omega)]; congr 1; omega
  · obtain ⟨j, hj, rfl⟩ := mem_slots.mp hk
    dsimp only at hj
    exact hs _ _ (by omega) (by omega)
  · obtain ⟨j, hj, rfl⟩ := mem_slots.mp hk
    dsimp only at hj ⊢
    rw [if_pos (by omega)]
    exact hs _ _ (by omega) (by omega)

/-- `InnerNode::insert_split` on an inner node with room, increasing separators and a
separator `key` it does not hold returns: the node gains `key` at its lower-bound slot `i`
and the child `r` right after child `i`, and its separators stay increasing. -/
theorem insertSplit_spec {cap : Capacity} {n : Node K V} (hs : Increasing n.keys (n.count - 1))
    (hc : 1 ≤ n.count) (hroom : n.count < cap.inner) {key : K}
    (hnew : (n.innerLowerBound key).2 = false) (r : Pid) :
    ∃ n', n.insertSplit cap key r = .ok n' ∧ n'.level = n.level ∧ n'.count = n.count + 1 ∧
      Increasing n'.keys (n'.count - 1) ∧
      (∀ j < n.count, n'.keys j = if j < (n.innerLowerBound key).1 then n.keys j
        else if j = (n.innerLowerBound key).1 then key else n.keys (j - 1)) ∧
      (∀ j < n.count + 1, n'.children j = if j < (n.innerLowerBound key).1 + 1 then n.children j
        else if j = (n.innerLowerBound key).1 + 1 then r else n.children (j - 1)) := by
  obtain ⟨h1, h2, h3, h4⟩ := innerLowerBound_spec hs key
  generalize hpos : n.innerLowerBound key = pos at h1 h2 h3 h4 hnew
  obtain ⟨i, found⟩ := pos
  dsimp only at h1 h2 h3 h4 hnew ⊢
  subst hnew
  have hne : i < n.count - 1 → key < n.keys i := fun h =>
    lt_of_le_of_ne (h3 h) fun e => by simpa using h4.mpr ⟨h, e.symm⟩
  have hnode : (if i + 1 < n.count then
      { n with keys := memmove n.keys (i + 1) i (n.count - i - 1),
               children := memmove n.children (i + 1) i (n.count - i) } else n) =
      { n with keys := memmove n.keys (i + 1) i (n.count - 1 - i),
               children := if i + 1 < n.count then memmove n.children (i + 1) i (n.count - i)
                 else n.children } := by
    split
    · rw [show n.count - i - 1 = n.count - 1 - i by omega]
    · rw [show n.count - 1 - i = 0 by omega, memmove_zero]
  have hkeys := fun j (hj : j < n.count - 1 + 1) => update_memmove_right n.keys key h1 hj
  have hchild : ∀ j < n.count + 1,
      Function.update (if i + 1 < n.count then memmove n.children (i + 1) i (n.count - i)
        else n.children) (i + 1) r j =
      if j < i + 1 then n.children j else if j = i + 1 then r else n.children (j - 1) := by
    intro j hj
    split
    · exact update_memmove_child n.children r (by omega) hj
    · by_cases hji : j = i + 1
      · subst hji; simp
      · rw [Function.update_noteq hji, if_neg hji, if_pos (by omega)]
  simp only [insertSplit, hroom, not_true_eq_false, if_false, Bool.false_eq_true, hpos, hnode]
  refine ⟨_, rfl, rfl, rfl, fun j1 j2 h12 h2' => ?_, fun j hj => hkeys j (by omega), hchild⟩
  dsimp only at h2' ⊢
  rw [hkeys j1 (by omega), hkeys j2 (by omega)]
  exact Increasing.insert hs (by omega) h2 hne j1 j2 h12 (by omega)

end Node

end SimpleDb
