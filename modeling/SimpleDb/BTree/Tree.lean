import SimpleDb.BTree.Node

/-!
The B+tree as the pages of one segment hold it: the subtree below a page, the pairs it
stores, the pages it spans, and its representation invariant.

# Subtrees by level

The tree is read from a page map `pages : Pid → Node K V` (the bytes the buffer manager
hands out for each page). A subtree is named by its root page and its height `h`, the
level its root must have; `subtreeEntries` and `subtreePids` recurse on `h`, so every
definition here is structural whatever the pages say. The tree of a `BTree` is the subtree
of `root` at `treeHeight - 1`.

# The invariant

`WfSub` is the invariant of a subtree inside bounds `(lo, hi]`, an absent bound being
infinite: levels count down to the leaves at 0, counts are within capacity, keys and
separators increase, every leaf key lies in its bounds, every separator strictly inside
them, and child `i` of an inner node lies in `(sep[i-1], sep[i]]`. Inner nodes hold at
least `minFanout` children: two for `Wf cap 2`, which every run keeps when inner nodes hold
at least four children and leaves at least two pairs (`Fits`), one for the weaker invariant
that every insert keeps at any capacity (`InnerNode::split` of three children leaves one
on the right). `Wf` adds what makes the page map a tree: the pages of the tree are
pairwise distinct and each was minted by `create_new_node`.

# Frames and paths

A change to pages outside a subtree leaves the subtree alone (`subtree_congr`). A descent
for a key follows the child the lower bound picks (`descend`); the pairs of the tree are
those before the descent's subtree, those of the subtree, and those after it, with keys
below and above the key (`path_entries`). That decomposition is what every operation's
proof rests on: a lookup reads one leaf, and an update below a node on the path changes
the tree's pairs only as it changes that node's.
-/

namespace SimpleDb

/-- The fields of a `BTree`: its segment's id (from `Segment`), `root`, `nodeCount` and
`treeHeight`. -/
structure BTree where
  segmentId : Nat
  root : Pid
  nodeCount : Nat
  treeHeight : Nat

/-- The pid `create_new_node` mints at count `n`: `(segment_id << 48) ^ n`. -/
def BTree.pidAt (segmentId n : Nat) : Pid := (segmentId <<< 48) ^^^ n

namespace BTree

variable {K V : Type}

-- ============================================================ subtrees

/-- The pairs the subtree at `p`, `h` levels above the leaves, stores, in order. -/
def subtreeEntries (pages : Pid → Node K V) : Nat → Pid → List (K × V)
  | 0, p => (pages p).entries
  | h + 1, p => (pages p).childList.flatMap (subtreeEntries pages h)

/-- The pages of the subtree at `p`. -/
def subtreePids (pages : Pid → Node K V) : Nat → Pid → List Pid
  | 0, p => [p]
  | h + 1, p => p :: (pages p).childList.flatMap (subtreePids pages h)

variable {pages pages' : Pid → Node K V}

theorem mem_subtreePids_self (h : Nat) (p : Pid) : p ∈ subtreePids pages h p := by
  cases h <;> simp [subtreePids]

/-- A child's pages are pages of its parent's subtree. -/
theorem subtreePids_child_subset {h : Nat} {p : Pid} {i : Nat} (hi : i < (pages p).count) :
    subtreePids pages h ((pages p).children i) ⊆ subtreePids pages (h + 1) p := fun q hq => by
  simp only [subtreePids, List.mem_cons, List.mem_flatMap]
  exact .inr ⟨_, mem_slots.mpr ⟨i, hi, rfl⟩, hq⟩

/-- The pairs of an inner subtree around its child `i`. -/
theorem subtreeEntries_split {h : Nat} {p : Pid} {i : Nat} (hi : i < (pages p).count) :
    subtreeEntries pages (h + 1) p =
      (slots (pages p).children i).flatMap (subtreeEntries pages h) ++
        (subtreeEntries pages h ((pages p).children i) ++
          (slots (fun j => (pages p).children (i + 1 + j)) ((pages p).count - 1 - i)).flatMap
            (subtreeEntries pages h)) := by
  rw [subtreeEntries, Node.childList, slots_split _ hi, List.flatMap_append, List.flatMap_cons]

/-- The pages of an inner subtree around its child `i`. -/
theorem subtreePids_split {h : Nat} {p : Pid} {i : Nat} (hi : i < (pages p).count) :
    subtreePids pages (h + 1) p =
      p :: ((slots (pages p).children i).flatMap (subtreePids pages h) ++
        (subtreePids pages h ((pages p).children i) ++
          (slots (fun j => (pages p).children (i + 1 + j)) ((pages p).count - 1 - i)).flatMap
            (subtreePids pages h))) := by
  rw [subtreePids, Node.childList, slots_split _ hi, List.flatMap_append, List.flatMap_cons]

/-- The subtrees of two children of a node whose subtree has no repeated page are disjoint,
and do not hold the node. -/
theorem subtreePids_disjoint {g : Nat} {p : Pid} (hnd : (subtreePids pages (g + 1) p).Nodup)
    {j k : Nat} (hj : j < (pages p).count) (hk : k < (pages p).count) (hjk : j ≠ k) {x : Pid}
    (hx : x ∈ subtreePids pages g ((pages p).children j)) :
    x ∉ subtreePids pages g ((pages p).children k) ∧ x ≠ p := by
  rw [subtreePids_split hk] at hnd
  obtain ⟨hp, hnd⟩ := List.nodup_cons.mp hnd
  obtain ⟨-, hnd2, hdisj⟩ := List.nodup_append.mp hnd
  obtain ⟨-, -, hdisj2⟩ := List.nodup_append.mp hnd2
  have hxo : x ∈ (slots (pages p).children k).flatMap (subtreePids pages g) ∨
      x ∈ (slots (fun j => (pages p).children (k + 1 + j)) ((pages p).count - 1 - k)).flatMap
        (subtreePids pages g) := by
    rcases Nat.lt_or_gt_of_ne hjk with h | h
    · exact .inl (List.mem_flatMap.mpr ⟨_, mem_slots.mpr ⟨j, h, rfl⟩, hx⟩)
    · exact .inr (List.mem_flatMap.mpr ⟨_, mem_slots.mpr ⟨j - (k + 1), by omega,
        by rw [show k + 1 + (j - (k + 1)) = j by omega]⟩, hx⟩)
  refine ⟨fun hxk => ?_, fun e => ?_⟩
  · rcases hxo with h | h
    · exact hdisj h (List.mem_append_left _ hxk)
    · exact hdisj2 hxk h
  · subst e
    rcases hxo with h | h
    · exact hp (List.mem_append_left _ h)
    · exact hp (List.mem_append_right _ (List.mem_append_right _ h))

section order

variable [LinearOrder K]

/-- `k` lies in `(lo, hi]`, an absent bound being infinite. -/
def InRange (lo hi : Option K) (k : K) : Prop := (∀ l ∈ lo, l < k) ∧ (∀ u ∈ hi, k ≤ u)

/-- `k` lies in `(lo, hi)`. -/
def Inside (lo hi : Option K) (k : K) : Prop := (∀ l ∈ lo, l < k) ∧ (∀ u ∈ hi, k < u)

/-- The lower bound of child `i` of `n`: the separator before it, or the node's own. -/
def childLo (n : Node K V) (lo : Option K) (i : Nat) : Option K :=
  if i = 0 then lo else some (n.keys (i - 1))

/-- The upper bound of child `i` of `n`: the separator after it, or the node's own. -/
def childHi (n : Node K V) (hi : Option K) (i : Nat) : Option K :=
  if i + 1 = n.count then hi else some (n.keys i)

/-- The invariant of the subtree at `p`, `h` levels above the leaves, inside `(lo, hi]`. -/
def WfSub (cap : Capacity) (minFanout : Nat) (pages : Pid → Node K V) :
    Nat → Option K → Option K → Pid → Prop
  | 0, lo, hi, p =>
    (pages p).level = 0 ∧ (pages p).count ≤ cap.leaf ∧ Node.Increasing (pages p).keys (pages p).count ∧
    ∀ e ∈ (pages p).entries, InRange lo hi e.1
  | h + 1, lo, hi, p =>
    (pages p).level = h + 1 ∧ 1 ≤ (pages p).count ∧ minFanout ≤ (pages p).count ∧
    (pages p).count ≤ cap.inner ∧ Node.Increasing (pages p).keys ((pages p).count - 1) ∧
    (∀ s ∈ (pages p).sepList, Inside lo hi s) ∧
    ∀ i < (pages p).count, WfSub cap minFanout pages h (childLo (pages p) lo i)
      (childHi (pages p) hi i) ((pages p).children i)

/-- The representation invariant of a `BTree` over its pages. -/
structure Wf (cap : Capacity) (minFanout : Nat) (pages : Pid → Node K V) (t : BTree) : Prop where
  height_pos : 0 < t.treeHeight
  sub : WfSub cap minFanout pages (t.treeHeight - 1) none none t.root
  nodup : (subtreePids pages (t.treeHeight - 1) t.root).Nodup
  minted : ∀ p ∈ subtreePids pages (t.treeHeight - 1) t.root, ∃ j < t.nodeCount, p = pidAt t.segmentId j

/-- The pairs of a `BTree`'s tree. -/
def entries (pages : Pid → Node K V) (t : BTree) : List (K × V) :=
  subtreeEntries pages (t.treeHeight - 1) t.root

-- ============================================================ frames

section frames

variable {cap : Capacity} {minFanout : Nat}

/-- A subtree reads only its own pages: page maps agreeing on them give it the same pairs,
the same pages and the same invariant. -/
theorem subtree_congr (cap : Capacity) (minFanout : Nat) :
    ∀ {h : Nat} {p : Pid}, (∀ q ∈ subtreePids pages h p, pages' q = pages q) →
    subtreeEntries pages' h p = subtreeEntries pages h p ∧
    subtreePids pages' h p = subtreePids pages h p ∧
    ∀ lo hi, WfSub cap minFanout pages' h lo hi p ↔ WfSub cap minFanout pages h lo hi p
  | 0, p, hagree => by
    have hp := hagree p (mem_subtreePids_self 0 p)
    simp only [subtreeEntries, subtreePids, WfSub, hp, implies_true, and_self]
  | h + 1, p, hagree => by
    have hp := hagree p (mem_subtreePids_self (h + 1) p)
    have hchild : ∀ i < (pages p).count, _ := fun i hi =>
      subtree_congr cap minFanout (h := h) (p := (pages p).children i) fun q hq =>
        hagree q (subtreePids_child_subset hi hq)
    have hmem : ∀ c ∈ (pages p).childList, ∃ i < (pages p).count, (pages p).children i = c :=
      fun c hc => mem_slots.mp hc
    refine ⟨?_, ?_, fun lo hi => ?_⟩
    · simp only [subtreeEntries, hp]
      exact List.flatMap_congr fun c hc => by
        obtain ⟨i, hi, rfl⟩ := hmem c hc; exact (hchild i hi).1
    · simp only [subtreePids, hp, List.cons.injEq, true_and]
      exact List.flatMap_congr fun c hc => by
        obtain ⟨i, hi, rfl⟩ := hmem c hc; exact (hchild i hi).2.1
    · simp only [WfSub, hp]
      exact and_congr_right' (and_congr_right' (and_congr_right' (and_congr_right'
        (and_congr_right' (and_congr_right' (forall₂_congr fun i hi => (hchild i hi).2.2 _ _))))))

-- ============================================================ bounds

theorem InRange.of_inside {lo hi lo' hi' : Option K} {k : K} (h : InRange lo' hi' k)
    (hlo : ∀ l ∈ lo, ∀ l' ∈ lo', l ≤ l') (hhi : ∀ u ∈ hi, ∀ u' ∈ hi', u' ≤ u)
    (hlo' : lo' = none → lo = none) (hhi' : hi' = none → hi = none) : InRange lo hi k := by
  refine ⟨fun l hl => ?_, fun u hu => ?_⟩
  · cases hl' : lo' with
    | none => simp [hlo' hl'] at hl
    | some l' => exact lt_of_le_of_lt (hlo l hl l' hl') (h.1 l' hl')
  · cases hu' : hi' with
    | none => simp [hhi' hu'] at hu
    | some u' => exact le_trans (h.2 u' hu') (hhi u hu u' hu')

/-- The bounds of child `i` lie inside the node's bounds. -/
theorem inRange_of_child {n : Node K V} {lo hi : Option K} {i : Nat} {k : K}
    (hs : ∀ s ∈ n.sepList, Inside lo hi s) (hic : i < n.count)
    (h : InRange (childLo n lo i) (childHi n hi i) k) : InRange lo hi k := by
  unfold childLo childHi at h
  refine h.of_inside (fun l hl l' hl' => ?_) (fun u hu u' hu' => ?_) (fun h' => ?_) (fun h' => ?_)
  · split at hl'
    · rw [Option.mem_def.mp hl'] at hl; simp at hl; exact le_of_eq hl.symm
    · obtain rfl := Option.some.inj hl'
      exact le_of_lt ((hs _ (mem_slots.mpr ⟨_, by omega, rfl⟩)).1 l hl)
  · split at hu'
    · rw [Option.mem_def.mp hu'] at hu; simp at hu; exact le_of_eq hu
    · obtain rfl := Option.some.inj hu'
      exact le_of_lt ((hs _ (mem_slots.mpr ⟨_, by omega, rfl⟩)).2 u hu)
  · split at h' <;> simp_all
  · split at h' <;> simp_all

/-- Every pair a subtree stores lies in its bounds. -/
theorem WfSub.inRange : ∀ {h : Nat} {lo hi : Option K} {p : Pid},
    WfSub cap minFanout pages h lo hi p → ∀ e ∈ subtreeEntries pages h p, InRange lo hi e.1
  | 0, _, _, _, hw, e, he => hw.2.2.2 e he
  | h + 1, lo, hi, p, hw, e, he => by
    simp only [subtreeEntries, List.mem_flatMap] at he
    obtain ⟨c, hc, he⟩ := he
    obtain ⟨i, hic, rfl⟩ := mem_slots.mp hc
    exact inRange_of_child hw.2.2.2.2.2.1 hic (WfSub.inRange (hw.2.2.2.2.2.2 i hic) e he)

-- ============================================================ descents

/-- The child `lower_bound(key)` picks in an inner node. -/
def childFor (n : Node K V) (key : K) : Pid := n.children (n.innerLowerBound key).1

/-- The page a descent for `key` reaches `d` steps below `p`. -/
def descend (pages : Pid → Node K V) (key : K) : Nat → Pid → Pid
  | 0, p => p
  | d + 1, p => descend pages key d (childFor (pages p) key)

/-- The bounds of that page. -/
def descendBounds (pages : Pid → Node K V) (key : K) :
    Nat → Option K → Option K → Pid → Option K × Option K
  | 0, lo, hi, _ => (lo, hi)
  | d + 1, lo, hi, p =>
    descendBounds pages key d (childLo (pages p) lo ((pages p).innerLowerBound key).1)
      (childHi (pages p) hi ((pages p).innerLowerBound key).1) (childFor (pages p) key)

/-- The child a key descends to, and the bounds around the key there. -/
theorem inRange_childFor {h : Nat} {lo hi : Option K} {p : Pid} {key : K}
    (hw : WfSub cap minFanout pages (h + 1) lo hi p) (hk : InRange lo hi key) :
    ((pages p).innerLowerBound key).1 < (pages p).count ∧
    InRange (childLo (pages p) lo ((pages p).innerLowerBound key).1)
      (childHi (pages p) hi ((pages p).innerLowerBound key).1) key := by
  obtain ⟨-, hc, -, -, hs, -, -⟩ := hw
  obtain ⟨h1, h2, h3, -⟩ := Node.innerLowerBound_spec hs key
  refine ⟨by omega, fun l hl => ?_, fun u hu => ?_⟩
  · unfold childLo at hl
    split at hl
    · exact hk.1 l hl
    · obtain rfl := Option.some.inj hl; exact h2 _ (by omega)
  · unfold childHi at hu
    split at hu
    · exact hk.2 u hu
    · obtain rfl := Option.some.inj hu; exact h3 (by omega)

/-- The subtrees before the child a key descends to hold smaller keys, those after it
larger ones. -/
theorem sibling_keys {h : Nat} {lo hi : Option K} {p : Pid} (key : K)
    (hw : WfSub cap minFanout pages (h + 1) lo hi p) :
    (∀ e ∈ (slots (pages p).children ((pages p).innerLowerBound key).1).flatMap
      (subtreeEntries pages h), e.1 < key) ∧
    (∀ e ∈ (slots (fun j => (pages p).children (((pages p).innerLowerBound key).1 + 1 + j))
      ((pages p).count - 1 - ((pages p).innerLowerBound key).1)).flatMap (subtreeEntries pages h),
      key < e.1) := by
  obtain ⟨-, hc, -, -, hs, -, hch⟩ := hw
  obtain ⟨h1, h2, h3, -⟩ := Node.innerLowerBound_spec hs key
  constructor
  · intro e he
    obtain ⟨c, hcm, he⟩ := List.mem_flatMap.mp he
    obtain ⟨j, hj, rfl⟩ := mem_slots.mp hcm
    have hr := (hch j (by omega)).inRange e he
    have hu := hr.2 _ (show (pages p).keys j ∈ childHi (pages p) hi j by
      simp [childHi, show j + 1 ≠ (pages p).count by omega])
    exact lt_of_le_of_lt hu (h2 j hj)
  · intro e he
    obtain ⟨c, hcm, he⟩ := List.mem_flatMap.mp he
    obtain ⟨j, hj, rfl⟩ := mem_slots.mp hcm
    have hr := (hch _ (by omega)).inRange e he
    have hl := hr.1 _ (show (pages p).keys (((pages p).innerLowerBound key).1 + j) ∈
        childLo (pages p) lo (((pages p).innerLowerBound key).1 + 1 + j) by
      simp [childLo, show ((pages p).innerLowerBound key).1 + 1 + j - 1 =
        ((pages p).innerLowerBound key).1 + j by omega])
    exact lt_of_le_of_lt (le_trans (h3 (by omega)) (hs.le (by omega) (by omega))) hl

/-- Along a descent for `key`, the tree's pairs and pages are those before the subtree the
descent reaches `d` steps down, that subtree's, and those after it, the pairs before with
smaller keys and those after with larger ones. A page map changing only pages of that
subtree keeps the parts before and after, and keeps the tree well formed once the subtree
is, in the bounds the descent gives it. -/
theorem path_replace (pages' : Pid → Node K V) {key : K} : ∀ (d : Nat) {h : Nat} {lo hi : Option K} {p : Pid}, d ≤ h →
    WfSub cap minFanout pages h lo hi p → InRange lo hi key → (subtreePids pages h p).Nodup →
    (∀ x ∈ subtreePids pages h p,
      x ∉ subtreePids pages (h - d) (descend pages key d p) → pages' x = pages x) →
    ∃ pre post preP postP,
      subtreeEntries pages h p = pre ++ subtreeEntries pages (h - d) (descend pages key d p) ++ post ∧
      subtreeEntries pages' h p = pre ++ subtreeEntries pages' (h - d) (descend pages key d p) ++ post ∧
      subtreePids pages h p = preP ++ subtreePids pages (h - d) (descend pages key d p) ++ postP ∧
      subtreePids pages' h p = preP ++ subtreePids pages' (h - d) (descend pages key d p) ++ postP ∧
      (∀ e ∈ pre, e.1 < key) ∧ (∀ e ∈ post, key < e.1) ∧
      WfSub cap minFanout pages (h - d) (descendBounds pages key d lo hi p).1
        (descendBounds pages key d lo hi p).2 (descend pages key d p) ∧
      InRange (descendBounds pages key d lo hi p).1 (descendBounds pages key d lo hi p).2 key ∧
      (WfSub cap minFanout pages' (h - d) (descendBounds pages key d lo hi p).1
        (descendBounds pages key d lo hi p).2 (descend pages key d p) →
        WfSub cap minFanout pages' h lo hi p)
  | 0, h, lo, hi, p, _, hw, hk, _, _ =>
    ⟨[], [], [], [], by simp [descend], by simp [descend], by simp [descend], by simp [descend],
      by simp, by simp, hw, hk, id⟩
  | d + 1, h, lo, hi, p, hd, hw, hk, hnd, hagree => by
    obtain ⟨h', rfl⟩ : ∃ h', h = h' + 1 := ⟨h - 1, by omega⟩
    rw [show h' + 1 - (d + 1) = h' - d by omega] at hagree ⊢
    obtain ⟨hic, hki⟩ := inRange_childFor hw hk
    obtain ⟨hlt, hgt⟩ := sibling_keys key hw
    have hpids := subtreePids_split (h := h') hic
    rw [hpids] at hnd
    obtain ⟨hpnot, hnd⟩ := List.nodup_cons.mp hnd
    obtain ⟨-, hnd2, hdisj⟩ := List.nodup_append.mp hnd
    obtain ⟨hndc, -, hdisj2⟩ := List.nodup_append.mp hnd2
    have hmem : ∀ x ∈ subtreePids pages h' ((pages p).children ((pages p).innerLowerBound key).1),
        x ∈ subtreePids pages (h' + 1) p := fun x hx => by
      rw [hpids]; simp [hx]
    obtain ⟨pre, post, preP, postP, he, he', hp, hp', hpre, hpost, hwq, hkq, hup⟩ :=
      path_replace pages' d (by omega) (hw.2.2.2.2.2.2 _ hic) hki hndc fun x hx hq => hagree x (hmem x hx) hq
    have hsub : ∀ x ∈ subtreePids pages (h' - d) (descend pages key (d + 1) p),
        x ∈ subtreePids pages h' ((pages p).children ((pages p).innerLowerBound key).1) :=
      fun x hx => by rw [hp]; simp only [List.mem_append]; exact .inl (.inr hx)
    have hpp : pages' p = pages p :=
      hagree p (mem_subtreePids_self _ _) fun hq => hpnot (by simp [hsub p hq])
    have hside : ∀ c ∈ slots (pages p).children ((pages p).innerLowerBound key).1 ++
        slots (fun j => (pages p).children (((pages p).innerLowerBound key).1 + 1 + j))
          ((pages p).count - 1 - ((pages p).innerLowerBound key).1),
        ∀ x ∈ subtreePids pages h' c, pages' x = pages x := fun c hc x hx => by
      have hxp : x ∈ subtreePids pages (h' + 1) p := by
        rw [hpids]
        simp only [List.mem_cons, List.mem_append, List.mem_flatMap]
        rcases List.mem_append.mp hc with hc | hc
        · exact .inr (.inl ⟨c, hc, hx⟩)
        · exact .inr (.inr (.inr ⟨c, hc, hx⟩))
      refine hagree x hxp fun hq => ?_
      rcases List.mem_append.mp hc with hc | hc
      · exact hdisj (List.mem_flatMap.mpr ⟨c, hc, hx⟩) (by simp [hsub x hq])
      · exact hdisj2 (hsub x hq) (List.mem_flatMap.mpr ⟨c, hc, hx⟩)
    have hcongr := fun c hc => subtree_congr cap minFanout (hside c hc)
    refine ⟨(slots (pages p).children ((pages p).innerLowerBound key).1).flatMap
        (subtreeEntries pages h') ++ pre,
      post ++ (slots (fun j => (pages p).children (((pages p).innerLowerBound key).1 + 1 + j))
        ((pages p).count - 1 - ((pages p).innerLowerBound key).1)).flatMap (subtreeEntries pages h'),
      p :: (slots (pages p).children ((pages p).innerLowerBound key).1).flatMap
        (subtreePids pages h') ++ preP,
      postP ++ (slots (fun j => (pages p).children (((pages p).innerLowerBound key).1 + 1 + j))
        ((pages p).count - 1 - ((pages p).innerLowerBound key).1)).flatMap (subtreePids pages h'),
      ?_, ?_, ?_, ?_, ?_, ?_, hwq, hkq, fun hw' => ?_⟩
    · rw [subtreeEntries_split hic, he]; simp [descend, childFor]
    · rw [subtreeEntries_split (show _ < (pages' p).count by rw [hpp]; exact hic), hpp, he']
      rw [List.flatMap_congr fun c hc => (hcongr c (List.mem_append_left _ hc)).1,
        List.flatMap_congr fun c hc => (hcongr c (List.mem_append_right _ hc)).1]
      simp [descend, childFor]
    · rw [hpids, hp]; simp [descend, childFor]
    · rw [subtreePids_split (show _ < (pages' p).count by rw [hpp]; exact hic), hpp, hp']
      rw [List.flatMap_congr fun c hc => (hcongr c (List.mem_append_left _ hc)).2.1,
        List.flatMap_congr fun c hc => (hcongr c (List.mem_append_right _ hc)).2.1]
      simp [descend, childFor]
    · exact fun e he => (List.mem_append.mp he).elim (hlt e) (hpre e)
    · exact fun e he => (List.mem_append.mp he).elim (hpost e) (hgt e)
    · have hc := hup hw'
      obtain ⟨h1, h2, h3, h4, h5, h6, h7⟩ := hw
      refine ⟨hpp ▸ h1, hpp ▸ h2, hpp ▸ h3, hpp ▸ h4, hpp ▸ h5, hpp ▸ h6, fun j hj => ?_⟩
      rw [hpp] at hj ⊢
      rcases lt_trichotomy j ((pages p).innerLowerBound key).1 with hji | rfl | hji
      · exact ((hcongr _ (List.mem_append_left _ (mem_slots.mpr ⟨j, hji, rfl⟩))).2.2 _ _).mpr (h7 j hj)
      · exact hc
      · exact ((hcongr ((pages p).children j) (List.mem_append_right _ (mem_slots.mpr
          ⟨j - (((pages p).innerLowerBound key).1 + 1), by omega, by congr 1; omega⟩))).2.2 _ _).mpr
          (h7 j hj)

end frames

end order

end BTree

end SimpleDb
