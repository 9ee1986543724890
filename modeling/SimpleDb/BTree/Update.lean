import SimpleDb.BTree.Tree

/-!
What the tree's node writes do to the page map, as transitions of a page map and a
`BTree`: the invariant they keep and the map they leave.

# The map

`contents` is the finite map a tree stands for: a key's binding is the first pair with that
key among the tree's pairs, in order (on a well-formed tree there is only one). Every
statement about what an operation returns or leaves is a statement about `contents`.

# Transitions

The operations change the tree in four ways, each a lemma here over `Wf`, `contents` and
the pages of the tree:

* the leaf on a key's path rewritten by `LeafNode::insert` or `LeafNode::erase`
  (`leafInsert_update`, `leafErase_update`);
* a full node on the path split into a fresh right page, the separator inserted into its
  parent (`split_update`);
* a full root split under a fresh root (`splitRoot_update`);
* a full root split whose new root never came, `grow_root`'s `fix_page` having thrown
  (`splitRoot_unlinked`): the tree keeps the bindings up to the separator.

Each rests on `path_replace`: the change stays inside the subtree of one node on the path,
whose new subtree is checked locally.

# The path, level by level

A descent for `key` stands `d` steps down on an inner node until the last level; the lower
bound there picks a child inside the node, the page `d + 1` steps down, which is another
page (`Wf.inner_step`). The last page is the leaf, and a lookup there finds the tree's
binding (`Wf.leaf`, `Wf.leaf_value`).
-/

namespace SimpleDb

namespace BTree

variable {K V : Type} [LinearOrder K]

-- ============================================================ the map

/-- The finite map a tree stands for. -/
def contents (pages : Pid → Node K V) (t : BTree) (k : K) : Option V :=
  (entries pages t).lookup k

theorem lookup_eq_none_of_ne {l : List (K × V)} {k : K} (h : ∀ e ∈ l, e.1 ≠ k) :
    l.lookup k = none := by
  simp only [List.lookup_eq_none_iff, bne_iff_ne, ne_eq]
  exact fun e he hk => h e he hk.symm

/-- Pairs before and after a block, with keys on either side of `k`, do not answer a lookup
of `k`. -/
theorem lookup_around {pre mid post : List (K × V)} {k : K} (hpre : ∀ e ∈ pre, e.1 < k)
    (hpost : ∀ e ∈ post, k < e.1) : (pre ++ mid ++ post).lookup k = mid.lookup k := by
  rw [List.lookup_append, List.lookup_append,
    lookup_eq_none_of_ne fun e he => ne_of_lt (hpre e he),
    lookup_eq_none_of_ne fun e he => ne_of_gt (hpost e he)]
  cases mid.lookup k <;> rfl

/-- A pair for another key does not answer a lookup. -/
theorem lookup_middle_ne {a b : List (K × V)} {key k : K} (v : V) (hk : k ≠ key) :
    (a ++ (key, v) :: b).lookup k = (a ++ b).lookup k := by
  have hb : (k == key) = false := by simpa using hk
  rw [List.lookup_append, List.lookup_append, List.lookup_cons, hb]

/-- `LeafNode::lower_bound` finds the value the leaf's pairs bind `key` to. -/
theorem leafLookup {n : Node K V} (hs : Node.Increasing n.keys n.count) (key : K) :
    (if (n.leafLowerBound key).2 then some (n.values (n.leafLowerBound key).1) else none) =
      n.entries.lookup key := by
  obtain ⟨h1, h2, h3, h4⟩ := Node.leafLowerBound_spec hs key
  generalize (n.leafLowerBound key) = pos at h1 h2 h3 h4
  obtain ⟨i, found⟩ := pos
  dsimp only at h1 h2 h3 h4 ⊢
  have hpre : ∀ e ∈ slots (fun j => (n.keys j, n.values j)) i, e.1 < key := fun e he => by
    obtain ⟨j, hj, rfl⟩ := mem_slots.mp he; exact h2 j hj
  have hsplit : n.entries = slots (fun j => (n.keys j, n.values j)) i ++
      slots (fun j => (n.keys (i + j), n.values (i + j))) (n.count - i) ++ [] := by
    rw [List.append_nil, Node.entries, ← slots_add, Nat.add_sub_cancel' h1]
  rw [hsplit, lookup_around hpre (by simp)]
  rcases Nat.lt_or_ge i n.count with hi | hi
  · rw [slots_split _ (show 0 < n.count - i by omega), slots_zero, List.nil_append, List.lookup_cons]
    have hgt : ∀ e ∈ slots (fun j => (n.keys (i + (0 + 1 + j)), n.values (i + (0 + 1 + j))))
        (n.count - i - 1 - 0), key ≠ e.1 := fun e he => by
      obtain ⟨j, hj, rfl⟩ := mem_slots.mp he
      exact ne_of_lt (lt_of_le_of_lt (h3 hi) (hs _ _ (by omega) (by omega)))
    cases found
    · have hne : n.keys i ≠ key := fun e => by simpa using h4.mpr ⟨hi, e⟩
      rw [Nat.add_zero, beq_false_of_ne (Ne.symm hne)]
      exact (lookup_eq_none_of_ne fun e he => (hgt e he).symm).symm
    · simp [(h4.mp rfl).2]
  · rw [show n.count - i = 0 by omega, slots_zero]
    cases found
    · rfl
    · exact absurd (h4.mp rfl).1 (by omega)

-- ============================================================ descents, one step at a time

/-- A descent `d + 1` steps down is the child the lower bound picks below the page `d` steps
down. -/
theorem descend_succ (pages : Pid → Node K V) (key : K) :
    ∀ (d : Nat) (p : Pid), descend pages key (d + 1) p = childFor (pages (descend pages key d p)) key
  | 0, _ => rfl
  | d + 1, p => descend_succ pages key d (childFor (pages p) key)

/-- The bounds of that child. -/
theorem descendBounds_succ (pages : Pid → Node K V) (key : K) :
    ∀ (d : Nat) (lo hi : Option K) (p : Pid), descendBounds pages key (d + 1) lo hi p =
      (childLo (pages (descend pages key d p)) (descendBounds pages key d lo hi p).1
          ((pages (descend pages key d p)).innerLowerBound key).1,
        childHi (pages (descend pages key d p)) (descendBounds pages key d lo hi p).2
          ((pages (descend pages key d p)).innerLowerBound key).1)
  | 0, _, _, _ => rfl
  | d + 1, _, _, p => descendBounds_succ pages key d _ _ (childFor (pages p) key)

-- ============================================================ the leaf on the path

section leaf

variable {cap : Capacity} {mf : Nat} {pages : Pid → Node K V} {t : BTree}

/-- The leaf a descent for `key` reaches. -/
abbrev leafFor (pages : Pid → Node K V) (t : BTree) (key : K) : Pid :=
  descend pages key (t.treeHeight - 1) t.root

/-- Rewriting the leaf on `key`'s path with `n`: the tree's pairs before and after the
leaf, with keys below and above `key`, stay; the leaf, in its bounds, is well formed and
bounds `key`; and the tree stays well formed once the new leaf is, in the same bounds. -/
theorem leaf_update (hw : Wf cap mf pages t) (key : K) (n : Node K V) :
    ∃ pre post lo hi, (∀ e ∈ pre, e.1 < key) ∧ (∀ e ∈ post, key < e.1) ∧
      entries pages t = pre ++ (pages (leafFor pages t key)).entries ++ post ∧
      entries (Function.update pages (leafFor pages t key) n) t = pre ++ n.entries ++ post ∧
      WfSub cap mf pages 0 lo hi (leafFor pages t key) ∧ InRange lo hi key ∧
      (WfSub cap mf (Function.update pages (leafFor pages t key) n) 0 lo hi (leafFor pages t key) →
        Wf cap mf (Function.update pages (leafFor pages t key) n) t) := by
  simp only [leafFor, entries]
  obtain ⟨pre, post, preP, postP, he, he', hp, hp', hpre, hpost, hwl, hkl, hup⟩ :=
    path_replace (Function.update pages (leafFor pages t key) n) (t.treeHeight - 1)
      le_rfl hw.sub (by simp [InRange]) hw.nodup fun x _ hx =>
        Function.update_noteq (fun e => hx (by subst e; exact mem_subtreePids_self _ _)) _ _
  simp only [Nat.sub_self, subtreeEntries, subtreePids, Function.update_same] at he he' hp hp' hwl hup
  have hpids : subtreePids (Function.update pages (leafFor pages t key) n) (t.treeHeight - 1) t.root =
      subtreePids pages (t.treeHeight - 1) t.root := by rw [hp, hp']
  exact ⟨pre, post, _, _, hpre, hpost, he, he', hwl, hkl, fun hn =>
    ⟨hw.height_pos, hup hn, hpids ▸ hw.nodup, hpids ▸ hw.minted⟩⟩

/-- A lookup in the tree is a lookup in the leaf on the key's path. -/
theorem contents_eq_leaf (hw : Wf cap mf pages t) (key : K) :
    contents pages t key = (pages (leafFor pages t key)).entries.lookup key := by
  obtain ⟨pre, post, -, -, hpre, hpost, he, -⟩ := leaf_update hw key (pages (leafFor pages t key))
  rw [contents, he, lookup_around hpre hpost]

/-- A new leaf in the old leaf's place is well formed when it is a leaf within capacity, its
keys increase, and each of its keys is `key` or one of the old leaf's. -/
theorem wfSub_leaf {lo hi : Option K} {p : Pid} {key : K} {n : Node K V}
    (hw : WfSub cap mf pages 0 lo hi p) (hk : InRange lo hi key) (hl : n.level = 0)
    (hc : n.count ≤ cap.leaf) (hs : Node.Increasing n.keys n.count)
    (hn : ∀ e ∈ n.entries, e.1 = key ∨ e ∈ (pages p).entries) :
    WfSub cap mf (Function.update pages p n) 0 lo hi p := by
  simp only [WfSub, Function.update_same]
  refine ⟨hl, hc, hs, fun e he => ?_⟩
  rcases hn e he with h | h
  · exact h ▸ hk
  · exact hw.2.2.2 e h

/-- Pairs `lt` below `key` and `ge` above it, around the pair of `key` or nothing: a lookup
of another key does not see the middle. -/
theorem lookup_ne_around {pre lt ge post : List (K × V)} {key k : K} (hk : k ≠ key) (v : V) :
    (pre ++ (lt ++ (key, v) :: ge) ++ post).lookup k = (pre ++ (lt ++ ge) ++ post).lookup k := by
  simp only [List.append_assoc, List.cons_append]
  rw [← List.append_assoc pre lt, lookup_middle_ne v hk, List.append_assoc]

/-- `LeafNode::insert` on the leaf on `key`'s path, with room, binds `key` to `value` and
keeps the tree well formed. -/
theorem leafInsert_update (hw : Wf cap mf pages t) {key : K} (value : V)
    (hroom : (pages (leafFor pages t key)).count < cap.leaf) :
    ∃ n', (pages (leafFor pages t key)).leafInsert cap key value = .ok n' ∧
      Wf cap mf (Function.update pages (leafFor pages t key) n') t ∧
      contents (Function.update pages (leafFor pages t key) n') t =
        Function.update (contents pages t) key (some value) := by
  obtain ⟨_, _, _, _, _, _, _, _, hw0, _⟩ := leaf_update hw key (pages (leafFor pages t key))
  obtain ⟨n', hins, hl, hc, hs, lt, ge, hlt, hge, hn', hold⟩ :=
    Node.leafInsert_spec hw0.2.2.1 hroom key value
  obtain ⟨pre, post, lo, hi, hpre, hpost, he, he', hwl, hkl, hup⟩ := leaf_update hw key n'
  have hmem : ∀ e ∈ lt ++ ge, e ∈ (pages (leafFor pages t key)).entries := fun e he => by
    rcases hold with h | ⟨v, h⟩ <;> rw [h]
    · exact he
    · exact List.mem_append.mpr ((List.mem_append.mp he).imp id (List.mem_cons_of_mem _))
  refine ⟨n', hins, hup (wfSub_leaf hwl hkl (hl.trans hwl.1) hc hs fun e he => ?_), funext fun k => ?_⟩
  · rw [hn', List.mem_append, List.mem_cons] at he
    rcases he with he | rfl | he
    · exact .inr (hmem e (List.mem_append_left _ he))
    · exact .inl rfl
    · exact .inr (hmem e (List.mem_append_right _ he))
  · rw [contents, he', hn']
    by_cases hk : k = key
    · subst hk
      rw [Function.update_same, show pre ++ (lt ++ (k, value) :: ge) ++ post =
        (pre ++ lt) ++ [(k, value)] ++ (ge ++ post) by simp]
      rw [lookup_around (fun e he => (List.mem_append.mp he).elim (hpre e) (hlt e))
        (fun e he => (List.mem_append.mp he).elim (hge e) (hpost e))]
      simp
    · rw [Function.update_noteq hk, contents, he, lookup_ne_around hk]
      rcases hold with h | ⟨v, h⟩ <;> rw [h]
      rw [lookup_ne_around hk]

/-- `LeafNode::erase` on the leaf on `key`'s path unbinds `key` and keeps the tree well
formed; the leaf stays as it was when it did not hold `key`. -/
theorem leafErase_update (hw : Wf cap mf pages t) (key : K) :
    ∃ n' erased, (pages (leafFor pages t key)).leafErase key = .ok (n', erased) ∧
      (erased = false → n' = pages (leafFor pages t key)) ∧
      Wf cap mf (Function.update pages (leafFor pages t key) n') t ∧
      contents (Function.update pages (leafFor pages t key) n') t =
        Function.update (contents pages t) key none := by
  obtain ⟨_, _, _, _, _, _, _, _, hw0, _⟩ := leaf_update hw key (pages (leafFor pages t key))
  obtain ⟨n', erased, hera, hl, hc, hs, lt, ge, hlt, hge, hn', hold⟩ := Node.leafErase_spec hw0.2.2.1 key
  obtain ⟨pre, post, lo, hi, hpre, hpost, he, he', hwl, hkl, hup⟩ := leaf_update hw key n'
  have hmem : ∀ e ∈ lt ++ ge, e ∈ (pages (leafFor pages t key)).entries := fun e he => by
    rcases hold with ⟨-, h⟩ | ⟨-, v, h⟩
    · rw [← h, hn']; exact he
    · rw [h]; exact List.mem_append.mpr ((List.mem_append.mp he).imp id (List.mem_cons_of_mem _))
  refine ⟨n', erased, hera, fun he => ?_, hup (wfSub_leaf hwl hkl (hl.trans hwl.1)
    (hc.trans hwl.2.1) hs fun e he => .inr (hmem e (hn' ▸ he))), funext fun k => ?_⟩
  · rcases hold with ⟨-, h⟩ | ⟨h, -⟩
    · exact h
    · simp [he] at h
  · rw [contents, he', hn']
    by_cases hk : k = key
    · subst hk
      rw [Function.update_same, show pre ++ (lt ++ ge) ++ post = (pre ++ lt) ++ [] ++ (ge ++ post) by simp]
      rw [lookup_around (fun e he => (List.mem_append.mp he).elim (hpre e) (hlt e))
        (fun e he => (List.mem_append.mp he).elim (hge e) (hpost e))]
      rfl
    · rw [Function.update_noteq hk, contents, he]
      rcases hold with ⟨-, h⟩ | ⟨-, v, h⟩
      · rw [← h, hn']
      · rw [h, lookup_ne_around hk]

end leaf

-- ============================================================ fresh pages and bounds

section fresh

variable {cap : Capacity} {mf : Nat} {pages : Pid → Node K V} {t : BTree}

theorem pidAt_inj {s a b : Nat} : pidAt s a = pidAt s b ↔ a = b := Nat.xor_right_inj

/-- Bit `i` of a minted pid: the count's below bit 48, the segment id's from there on. -/
theorem testBit_pidAt {s n : Nat} (hn : n < 2 ^ 48) (i : Nat) :
    (pidAt s n).testBit i = if i < 48 then n.testBit i else s.testBit (i - 48) := by
  rw [pidAt, Nat.testBit_xor, Nat.testBit_shiftLeft]
  split
  · simp [show ¬ 48 ≤ i by omega]
  · rw [testBit_of_lt_two_pow hn (by omega)]
    simp [show 48 ≤ i by omega]

theorem getSegmentId_pidAt {s n : Nat} (hs : s < 2 ^ 16) (hn : n < 2 ^ 48) :
    BufferManager.getSegmentId (pidAt s n) = s :=
  Nat.eq_of_testBit_eq fun i => by
    rw [BufferManager.getSegmentId, Nat.testBit_mod_two_pow, Nat.testBit_shiftRight,
      testBit_pidAt hn, if_neg (by omega), Nat.add_sub_cancel_left]
    by_cases hi : i < 16
    · simp [hi]
    · simp [hi, testBit_of_lt_two_pow hs (not_lt.mp hi)]

theorem getSegmentPageId_pidAt {s n : Nat} (hn : n < 2 ^ 48) :
    BufferManager.getSegmentPageId (pidAt s n) = n :=
  Nat.eq_of_testBit_eq fun i => by
    rw [BufferManager.getSegmentPageId, Nat.testBit_and, testBit_pidAt hn, Nat.shiftLeft_eq,
      Nat.one_mul, Nat.testBit_two_pow_sub_one]
    by_cases hi : i < 48
    · simp [hi]
    · simp [hi, testBit_of_lt_two_pow hn (not_lt.mp hi)]

/-- The pid `create_new_node` mints in segment `s` at count `n` carries `s` in its segment
bits and `n` in its page bits, so `getSegmentData` and `flushPage` address block `n` of
segment `s`'s file; pids minted at different segments or counts differ. -/
theorem pidAt_fields (pageSize : Nat) {s n : Nat} (hs : s < 2 ^ 16) (hn : n < 2 ^ 48) :
    BufferManager.getSegmentId (pidAt s n) = s ∧ BufferManager.getSegmentPageId (pidAt s n) = n ∧
    BufferManager.segmentBlock pageSize (pidAt s n) = (s, n * pageSize) ∧
    ∀ s' n', s' < 2 ^ 16 → n' < 2 ^ 48 → pidAt s n = pidAt s' n' → s = s' ∧ n = n' :=
  ⟨getSegmentId_pidAt hs hn, getSegmentPageId_pidAt hn,
    by rw [BufferManager.segmentBlock, getSegmentId_pidAt hs hn, getSegmentPageId_pidAt hn],
    fun s' n' hs' hn' h => ⟨by rw [← getSegmentId_pidAt hs hn, h, getSegmentId_pidAt hs' hn'],
      by rw [← getSegmentPageId_pidAt (s := s) hn, h, getSegmentPageId_pidAt hn']⟩⟩

theorem pidAt_fields_page : (1 : Nat) < 2 ^ 16 ∧ (5 : Nat) < 2 ^ 48 ∧
    (BufferManager.getSegmentId (pidAt 1 5) = 1 ∧ BufferManager.getSegmentPageId (pidAt 1 5) = 5 ∧
      BufferManager.segmentBlock 1024 (pidAt 1 5) = (1, 5 * 1024) ∧
      ∀ s' n', s' < 2 ^ 16 → n' < 2 ^ 48 → pidAt 1 5 = pidAt s' n' → 1 = s' ∧ 5 = n') :=
  ⟨by decide, by decide, pidAt_fields 1024 (by decide) (by decide)⟩

/-- The pages `create_new_node` mints from now on are not pages of the tree. -/
theorem Wf.fresh (hw : Wf cap mf pages t) (k : Nat) :
    pidAt t.segmentId (t.nodeCount + k) ∉ subtreePids pages (t.treeHeight - 1) t.root := fun h => by
  obtain ⟨j, hj, e⟩ := hw.minted _ h
  rw [pidAt_inj] at e
  omega

/-- Minting pages keeps the invariant. -/
theorem Wf.mint (hw : Wf cap mf pages t) (k : Nat) :
    Wf cap mf pages { t with nodeCount := t.nodeCount + k } :=
  ⟨hw.height_pos, hw.sub, hw.nodup, fun p hp => by
    obtain ⟨j, hj, e⟩ := hw.minted p hp; exact ⟨j, by dsimp only; omega, e⟩⟩

/-- A separator strictly inside the bounds of child `i` has its lower bound at `i`, and is
not a separator of the node. -/
theorem innerLowerBound_of_inside {n : Node K V} {lo hi : Option K} {i : Nat} {s : K}
    (hs : Node.Increasing n.keys (n.count - 1)) (hic : i < n.count)
    (h : Inside (childLo n lo i) (childHi n hi i) s) : n.innerLowerBound s = (i, false) := by
  obtain ⟨h1, h2, h3, h4⟩ := Node.innerLowerBound_spec hs s
  generalize n.innerLowerBound s = pos at h1 h2 h3 h4
  obtain ⟨r, found⟩ := pos
  dsimp only at h1 h2 h3 h4
  have hlo : 0 < i → n.keys (i - 1) < s := fun hi0 =>
    h.1 _ (by simp [childLo, show i ≠ 0 by omega])
  have hhi : i + 1 < n.count → s < n.keys i := fun h' =>
    h.2 _ (by simp [childHi, show i + 1 ≠ n.count by omega])
  have hri : r = i := by
    rcases lt_trichotomy r i with hr | hr | hr
    · have hle : n.keys r ≤ n.keys (i - 1) := hs.le (by omega) (by omega)
      exact absurd (lt_of_le_of_lt (le_trans (h3 (by omega)) hle) (hlo (by omega))) (lt_irrefl _)
    · exact hr
    · exact absurd (lt_trans (hhi (by omega)) (h2 i hr)) (lt_irrefl _)
  subst hri
  cases found
  · rfl
  · obtain ⟨hr, e⟩ := h4.mp rfl
    exact absurd (e ▸ hhi (by omega)) (lt_irrefl _)

/-- Dropping a subtree's upper bound keeps it well formed. -/
theorem WfSub.noHi : ∀ {g : Nat} {lo hi : Option K} {p : Pid},
    WfSub cap mf pages g lo hi p → WfSub cap mf pages g lo none p
  | 0, _, _, _, hw => ⟨hw.1, hw.2.1, hw.2.2.1, fun e he => ⟨(hw.2.2.2 e he).1, by simp⟩⟩
  | g + 1, _, _, p, hw => by
    obtain ⟨h1, h2, h3, h4, h5, h6, h7⟩ := hw
    refine ⟨h1, h2, h3, h4, h5, fun s hs => ⟨(h6 s hs).1, by simp⟩, fun i hi => ?_⟩
    have hc := h7 i hi
    unfold childHi at hc ⊢
    split_ifs at hc ⊢
    · exact WfSub.noHi hc
    · exact hc

end fresh

-- ============================================================ splits

section split

variable {cap : Capacity} {mf : Nat} {pages pages' : Pid → Node K V}

/-- Separators inside a child's bounds are inside its parent's. -/
theorem inside_of_child {n : Node K V} {lo hi : Option K} {i : Nat} {k : K}
    (hs : ∀ s ∈ n.sepList, Inside lo hi s) (hic : i < n.count)
    (h : Inside (childLo n lo i) (childHi n hi i) k) : Inside lo hi k := by
  obtain ⟨h1, h2⟩ := h
  refine ⟨fun l hl => ?_, fun u hu => ?_⟩
  · unfold childLo at h1
    split at h1
    · exact h1 l hl
    · exact lt_trans ((hs _ (mem_slots.mpr ⟨i - 1, by omega, rfl⟩)).1 l hl) (h1 _ rfl)
  · unfold childHi at h2
    split at h2
    · exact h2 u hu
    · exact lt_trans (h2 _ rfl) ((hs _ (mem_slots.mpr ⟨i, by omega, rfl⟩)).2 u hu)

/-- The node at `N`, in bounds `(lo, hi]`, split into itself and the fresh page `R` with
separator `sep`: both halves are well formed on either side of `sep`, which lies strictly
inside the bounds, and together they hold the node's pairs and pages, and `R`. -/
structure SplitsInto (cap : Capacity) (mf : Nat) (pages pages' : Pid → Node K V) (g : Nat)
    (lo hi : Option K) (N R : Pid) (sep : K) : Prop where
  left : WfSub cap mf pages' g lo (some sep) N
  right : WfSub cap mf pages' g (some sep) hi R
  inside : Inside lo hi sep
  entries : subtreeEntries pages' g N ++ subtreeEntries pages' g R = subtreeEntries pages g N
  pids : (subtreePids pages' g N ++ subtreePids pages' g R).Perm (R :: subtreePids pages g N)

/-- `LeafNode::split` of a leaf with two pairs or more. -/
theorem splitsInto_leaf {lo hi : Option K} {N R : Pid} {other left right : Node K V} {sep : K}
    (hw : WfSub cap mf pages 0 lo hi N) (h2 : 2 ≤ (pages N).count) (hNR : N ≠ R)
    (hsplit : (pages N).leafSplit other = (left, right, sep)) :
    SplitsInto cap mf pages (Function.update (Function.update pages R right) N left) 0 lo hi N R sep := by
  obtain ⟨hl, hc, hs, hr⟩ := hw
  obtain ⟨hll, hrl, hlc, hrc, hls, hrs, he, hle, hgt⟩ := Node.leafSplit_spec hs hsplit
  have hN : Function.update (Function.update pages R right) N left N = left := by simp
  have hR : Function.update (Function.update pages R right) N left R = right := by
    simp [Ne.symm hNR]
  have hin : ∀ e ∈ left.entries ++ right.entries, InRange lo hi e.1 := fun e he' => hr e (he ▸ he')
  obtain ⟨el, hel⟩ : ∃ e, e ∈ left.entries :=
    List.exists_mem_of_ne_nil _ (by rw [← List.length_pos, Node.entries, length_slots]; omega)
  obtain ⟨er, her⟩ : ∃ e, e ∈ right.entries :=
    List.exists_mem_of_ne_nil _ (by rw [← List.length_pos, Node.entries, length_slots]; omega)
  refine ⟨?_, ?_, ⟨fun l hl' => ?_, fun u hu => ?_⟩, ?_, ?_⟩
  · simp only [WfSub, hN]
    exact ⟨hll.trans hl, by omega, hls, fun e he' =>
      ⟨(hin e (List.mem_append_left _ he')).1, fun u hu => by cases hu; exact hle e he'⟩⟩
  · simp only [WfSub, hR]
    exact ⟨hrl.trans hl, by omega, hrs, fun e he' =>
      ⟨fun l hl' => by cases hl'; exact hgt e he', (hin e (List.mem_append_right _ he')).2⟩⟩
  · exact lt_of_lt_of_le ((hin el (List.mem_append_left _ hel)).1 l hl') (hle el hel)
  · exact lt_of_lt_of_le (hgt er her) ((hin er (List.mem_append_right _ her)).2 u hu)
  · simp only [subtreeEntries, hN, hR, he]
  · simp only [subtreePids]
    exact List.Perm.swap R N []

theorem flatMap_slots_congr {β : Type} {a : Nat → Pid} {k : Nat} {f g : Pid → List β}
    (h : ∀ j < k, f (a j) = g (a j)) : (slots a k).flatMap f = (slots a k).flatMap g :=
  List.flatMap_congr fun _ hx => by obtain ⟨j, hj, rfl⟩ := mem_slots.mp hx; exact h j hj

/-- `InnerNode::split` of an inner node whose halves keep the minimum fan-out: the children
stay where they are, the last `count / 2` under the fresh page. -/
theorem splitsInto_inner {g : Nat} {lo hi : Option K} {N R : Pid} {other left right : Node K V}
    {sep : K} (hw : WfSub cap mf pages (g + 1) lo hi N) (h2 : 2 ≤ (pages N).count)
    (hmf : mf ≤ (pages N).count / 2) (hnd : (subtreePids pages (g + 1) N).Nodup)
    (hR : R ∉ subtreePids pages (g + 1) N)
    (hsplit : (pages N).innerSplit other = (left, right, sep)) :
    SplitsInto cap mf pages (Function.update (Function.update pages R right) N left) (g + 1) lo hi
      N R sep := by
  simp only [Node.innerSplit, Prod.mk.injEq] at hsplit
  obtain ⟨rfl, rfl, rfl⟩ := hsplit
  obtain ⟨hl, -, -, hcap, hs, hsep, hch⟩ := hw
  have hNR : N ≠ R := fun e => hR (e ▸ mem_subtreePids_self _ _)
  set n := pages N with hn
  set pages'' := Function.update (Function.update pages R _) N _ with hpages''
  have hN : pages'' N = { n with count := n.count - n.count / 2 } := by simp [hpages'']
  have hRp : pages'' R = { other with
      level := n.level
      count := n.count / 2
      keys := fun i => if i < n.count / 2 then n.keys (i + (n.count - n.count / 2)) else other.keys i
      children := fun i => if i < n.count / 2 then n.children (i + (n.count - n.count / 2))
        else other.children i } := by simp [hpages'', Ne.symm hNR]
  have hagree : ∀ j < n.count, ∀ x ∈ subtreePids pages g (n.children j), pages'' x = pages x :=
    fun j hj x hx => by
      have hxN : x ∈ subtreePids pages (g + 1) N := subtreePids_child_subset hj hx
      have hne : x ≠ N := fun e => by
        subst e
        rw [subtreePids] at hnd
        exact (List.nodup_cons.mp hnd).1 (List.mem_flatMap.mpr ⟨_, mem_slots.mpr ⟨j, hj, rfl⟩, hx⟩)
      have hxR : x ≠ R := fun e => hR (by rw [← e]; exact hxN)
      simp [hpages'', hne, hxR]
  have hsub : ∀ j < n.count, _ := fun j hj => subtree_congr cap mf (hagree j hj)
  have hlo : ∀ j, childLo { n with count := n.count - n.count / 2 } lo j = childLo n lo j :=
    fun _ => rfl
  have hhi : ∀ j < n.count - n.count / 2,
      childHi { n with count := n.count - n.count / 2 } (some (n.keys (n.count - n.count / 2 - 1))) j =
        childHi n hi j := fun j hj => by
    simp only [childHi, if_neg (show j + 1 ≠ n.count by omega)]
    split_ifs with h
    · rw [show n.count - n.count / 2 - 1 = j by omega]
    · rfl
  have hlo' : ∀ j < n.count / 2, childLo (pages'' R) (some (n.keys (n.count - n.count / 2 - 1))) j =
      childLo n lo (j + (n.count - n.count / 2)) := fun j hj => by
    rw [hRp]
    simp only [childLo, if_neg (show j + (n.count - n.count / 2) ≠ 0 by omega)]
    split_ifs with h h'
    · subst h; rw [show 0 + (n.count - n.count / 2) - 1 = n.count - n.count / 2 - 1 by omega]
    · rw [show j - 1 + (n.count - n.count / 2) = j + (n.count - n.count / 2) - 1 by omega]
    · omega
  have hhi' : ∀ j < n.count / 2, childHi (pages'' R) hi j = childHi n hi (j + (n.count - n.count / 2)) :=
    fun j hj => by
      rw [hRp]
      simp only [childHi, if_pos hj]
      split_ifs <;> first | rfl | omega
  -- the children: the first `count - count / 2` stay on `N`, the rest move to `R`
  have hc : slots n.children n.count = slots n.children (n.count - n.count / 2) ++
      slots (fun j => n.children (n.count - n.count / 2 + j)) (n.count / 2) := by
    rw [← slots_add, Nat.sub_add_cancel (Nat.div_le_self _ _)]
  have hr : slots (pages'' R).children (n.count / 2) =
      slots (fun j => n.children (n.count - n.count / 2 + j)) (n.count / 2) :=
    slots_congr fun j hj => by rw [hRp]; dsimp only; rw [if_pos hj, Nat.add_comm]
  refine ⟨?_, ?_, hsep _ (mem_slots.mpr ⟨_, by omega, rfl⟩), ?_, ?_⟩
  · simp only [WfSub, hN]
    refine ⟨hl, by omega, by omega, by omega, hs.mono (by omega), fun s hs' => ?_, fun j hj => ?_⟩
    · obtain ⟨j, hj, rfl⟩ := mem_slots.mp hs'
      dsimp only at hj
      exact ⟨(hsep _ (mem_slots.mpr ⟨j, by omega, rfl⟩)).1, fun u hu => by
        cases hu; exact hs _ _ (by omega) (by omega)⟩
    · rw [hlo, hhi j hj]
      exact ((hsub j (by omega)).2.2 _ _).mpr (hch j (by omega))
  · simp only [WfSub, hRp]
    refine ⟨hl, by omega, by omega, by omega, fun j1 j2 h12 hj2 => ?_, fun s hs' => ?_, fun j hj => ?_⟩
    · dsimp only
      rw [if_pos (by omega), if_pos (by omega)]
      exact hs _ _ (by omega) (by omega)
    · obtain ⟨j, hj, rfl⟩ := mem_slots.mp hs'
      dsimp only at hj ⊢
      rw [if_pos (by omega)]
      exact ⟨fun l hl' => by cases hl'; exact hs _ _ (by omega) (by omega),
        (hsep _ (mem_slots.mpr ⟨_, by omega, rfl⟩)).2⟩
    · rw [if_pos hj, ← hRp, hlo' j hj, hhi' j hj]
      exact ((hsub _ (by omega)).2.2 _ _).mpr (hch _ (by omega))
  · simp only [subtreeEntries, Node.childList]
    rw [hN, show (pages'' R).count = n.count / 2 by rw [hRp], hr]
    dsimp only
    rw [hc, List.flatMap_append]
    congr 1
    · exact flatMap_slots_congr fun j hj => (hsub j (by omega)).1
    · exact flatMap_slots_congr fun j hj => (hsub _ (by omega)).1
  · simp only [subtreePids, Node.childList]
    rw [hN, show (pages'' R).count = n.count / 2 by rw [hRp], hr]
    dsimp only
    rw [hc, List.flatMap_append,
      flatMap_slots_congr fun j hj => (hsub j (show j < n.count by omega)).2.1,
      flatMap_slots_congr fun j hj => (hsub (n.count - n.count / 2 + j) (by omega)).2.1]
    exact List.perm_middle.trans (List.Perm.cons _ (by simp))

/-- `InnerNode::insert_split` of a split child's separator and fresh page into the parent:
the parent, whose children's subtrees other than the split one stay, is well formed in its
bounds again and holds the same pairs, and its pages gain the fresh page. -/
theorem splitsInto_parent {g : Nat} {lo hi : Option K} {P R : Pid} {sep : K} {P' : Node K V}
    (hw : WfSub cap mf pages (g + 1) lo hi P) (hnd : (subtreePids pages (g + 1) P).Nodup)
    {i : Nat} (hic : i < (pages P).count) (hroom : (pages P).count < cap.inner)
    (hlevel : P'.level = (pages P).level) (hcount : P'.count = (pages P).count + 1)
    (hinc : Node.Increasing P'.keys (P'.count - 1))
    (hkeys : ∀ j < (pages P).count, P'.keys j = if j < i then (pages P).keys j
      else if j = i then sep else (pages P).keys (j - 1))
    (hchildren : ∀ j < (pages P).count + 1, P'.children j = if j < i + 1 then (pages P).children j
      else if j = i + 1 then R else (pages P).children (j - 1))
    (hsplit : SplitsInto cap mf pages pages' g (childLo (pages P) lo i) (childHi (pages P) hi i)
      ((pages P).children i) R sep)
    (hP : pages' P = P')
    (hagree : ∀ x ∈ subtreePids pages (g + 1) P, x ≠ P →
      x ∉ subtreePids pages g ((pages P).children i) → pages' x = pages x) :
    WfSub cap mf pages' (g + 1) lo hi P ∧
      subtreeEntries pages' (g + 1) P = subtreeEntries pages (g + 1) P ∧
      (subtreePids pages' (g + 1) P).Perm (R :: subtreePids pages (g + 1) P) := by
  obtain ⟨hl, -, hmfc, -, hs, hsep, hch⟩ := hw
  set n := pages P with hn
  have hagree' : ∀ j < n.count, j ≠ i → ∀ x ∈ subtreePids pages g (n.children j),
      pages' x = pages x := fun j hj hji x hx => by
    obtain ⟨hxi, hxP⟩ := subtreePids_disjoint hnd hj hic hji hx
    exact hagree x (subtreePids_child_subset hj hx) hxP hxi
  have hsub : ∀ j < n.count, j ≠ i → _ := fun j hj hji => subtree_congr cap mf (hagree' j hj hji)
  have hlo : ∀ j < n.count + 1, j ≠ i + 1 →
      childLo P' lo j = childLo n lo (if j ≤ i then j else j - 1) := fun j hj hji => by
    unfold childLo
    split_ifs with h1 h2 h3 <;> first
      | rfl | omega
      | (rw [hkeys _ (by omega), if_pos (by omega)])
      | (rw [hkeys _ (by omega), if_neg (by omega), if_neg (by omega)])
  have hhi : ∀ j < n.count + 1, j ≠ i →
      childHi P' hi j = childHi n hi (if j ≤ i then j else j - 1) := fun j hj hji => by
    unfold childHi
    rw [hcount]
    split_ifs with h1 h2 h3 <;> first
      | rfl | omega
      | (rw [hkeys _ (by omega), if_pos (by omega)])
      | (rw [hkeys _ (by omega), if_neg (by omega), if_neg (by omega)])
  have hhi_i : childHi P' hi i = some sep := by
    unfold childHi; rw [hcount, if_neg (by omega), hkeys i hic, if_neg (lt_irrefl i), if_pos rfl]
  have hlo_i : childLo P' lo (i + 1) = some sep := by
    unfold childLo; rw [if_neg (by omega), Nat.add_sub_cancel, hkeys i hic, if_neg (lt_irrefl i), if_pos rfl]
  have hlist : P'.childList = slots n.children i ++
      n.children i :: R :: slots (fun j => n.children (i + 1 + j)) (n.count - 1 - i) := by
    rw [Node.childList, hcount, slots_insert (by omega) hchildren, slots_add n.children i 1,
      show n.count - (i + 1) = n.count - 1 - i by omega,
      show slots (fun j => n.children (i + j)) 1 = [n.children i] from rfl]
    simp
  refine ⟨?_, ?_, ?_⟩
  · simp only [WfSub, hP, hlevel, hcount]
    refine ⟨hl, by omega, by omega, by omega, hcount ▸ hinc, fun s hs' => ?_, fun j hj => ?_⟩
    · obtain ⟨j, hj, rfl⟩ := mem_slots.mp hs'
      rw [hcount, Nat.add_sub_cancel] at hj
      rw [hkeys j hj]
      split_ifs with h1 h2
      · exact hsep _ (mem_slots.mpr ⟨j, by omega, rfl⟩)
      · exact inside_of_child hsep hic hsplit.inside
      · exact hsep _ (mem_slots.mpr ⟨j - 1, by omega, rfl⟩)
    · rw [hchildren j hj]
      split_ifs with h1 h2
      · rcases Nat.lt_or_eq_of_le (Nat.le_of_lt_succ h1) with h | rfl
        · rw [hlo j hj (by omega), hhi j hj (by omega), if_pos (by omega)]
          exact ((hsub j (by omega) (by omega)).2.2 _ _).mpr (hch j (by omega))
        · rw [hlo j hj (by omega), if_pos le_rfl, hhi_i]
          exact hsplit.left
      · subst h2
        rw [hlo_i, hhi (i + 1) hj (by omega), if_neg (by omega), Nat.add_sub_cancel]
        exact hsplit.right
      · rw [hlo j hj h2, hhi j hj (by omega), if_neg (by omega)]
        exact ((hsub (j - 1) (by omega) (by omega)).2.2 _ _).mpr (hch (j - 1) (by omega))
  · rw [subtreeEntries_split hic, subtreeEntries, hP, hlist, List.flatMap_append, List.flatMap_cons,
      List.flatMap_cons, ← List.append_assoc (subtreeEntries pages' g _), hsplit.entries]
    congr 1
    · exact flatMap_slots_congr fun j hj => (hsub j (by omega) (by omega)).1
    · exact congrArg _ (flatMap_slots_congr fun j hj => (hsub _ (by omega) (by omega)).1)
  · rw [subtreePids_split hic, subtreePids, hP, hlist, List.flatMap_append, List.flatMap_cons,
      List.flatMap_cons, ← List.append_assoc (subtreePids pages' g _),
      flatMap_slots_congr fun j hj => (hsub j (show j < n.count by omega) (by omega)).2.1,
      flatMap_slots_congr fun j hj => (hsub (i + 1 + j) (by omega) (by omega)).2.1]
    refine ((List.Perm.append_left _ (hsplit.pids.append_right _)).trans ?_).cons P |>.trans
      (List.Perm.swap R P _)
    exact List.perm_middle

/-- A split reads only the pages it names: page maps agreeing on them split alike. -/
theorem SplitsInto.congr {g : Nat} {lo hi : Option K} {N R : Pid} {sep : K}
    (h : SplitsInto cap mf pages pages' g lo hi N R sep) {pages'' : Pid → Node K V}
    (hagree : ∀ x ∈ R :: subtreePids pages g N, pages'' x = pages' x) :
    SplitsInto cap mf pages pages'' g lo hi N R sep := by
  have c1 := subtree_congr cap mf (h := g) (p := N) fun x hx =>
    hagree x (h.pids.subset (List.mem_append_left _ hx))
  have c2 := subtree_congr cap mf (h := g) (p := R) fun x hx =>
    hagree x (h.pids.subset (List.mem_append_right _ hx))
  exact ⟨(c1.2.2 _ _).mpr h.left, (c2.2.2 _ _).mpr h.right, h.inside, by rw [c1.1, c2.1]; exact h.entries,
    by rw [c1.2.1, c2.2.1]; exact h.pids⟩

/-- `grow_root` over a split root: the new root, two levels of children above the old
root's level, is well formed without bounds and holds the old root's pairs. -/
theorem splitsInto_root {h : Nat} {N R G : Pid} {sep : K} {root : Node K V}
    (hsplit : SplitsInto cap mf pages pages' h none none N R sep) (hG : pages' G = root)
    (hlevel : root.level = h + 1) (hcount : root.count = 2) (hkey : root.keys 0 = sep)
    (hc0 : root.children 0 = N) (hc1 : root.children 1 = R) (hcap : 2 ≤ cap.inner) (hmf : mf ≤ 2) :
    WfSub cap mf pages' (h + 1) none none G ∧
      subtreeEntries pages' (h + 1) G = subtreeEntries pages h N ∧
      (subtreePids pages' (h + 1) G).Perm (G :: R :: subtreePids pages h N) := by
  have hlist : root.childList = [N, R] := by
    rw [Node.childList, hcount, show slots root.children 2 = [root.children 0, root.children 1] from rfl,
      hc0, hc1]
  refine ⟨?_, ?_, ?_⟩
  · simp only [WfSub, hG, hlevel, hcount]
    refine ⟨trivial, by omega, hmf, hcap, fun _ _ _ _ => by omega, fun s hs => ⟨by simp, by simp⟩,
      fun j hj => ?_⟩
    rcases (show j = 0 ∨ j = 1 by omega) with rfl | rfl
    · simpa [childLo, childHi, hcount, hkey, hc0] using hsplit.left
    · simpa [childLo, childHi, hcount, hkey, hc1] using hsplit.right
  · simp [subtreeEntries, hG, hlist, ← hsplit.entries]
  · simpa [subtreePids, hG, hlist] using hsplit.pids

/-- Capacities under which the splits keep a minimum fan-out of `mf`: a leaf split leaves
pairs on both sides, an inner split at least `mf` children on both sides, and the root
`grow_root` makes, with two children, has room to spare. -/
structure Fits (cap : Capacity) (mf : Nat) : Prop where
  leaf : 2 ≤ cap.leaf
  inner : 2 * mf ≤ cap.inner
  root : 3 ≤ cap.inner
  fanout : mf ≤ 2

/-- A full node, either kind, splits into itself and a fresh page. -/
theorem splitsInto_full {g : Nat} {lo hi : Option K} {N R : Pid} {left right : Node K V} {sep : K}
    (hcap : Fits cap mf) (hw : WfSub cap mf pages g lo hi N) (hfull : (pages N).full cap = true)
    (hnd : (subtreePids pages g N).Nodup) (hR : R ∉ subtreePids pages g N)
    (hsplit : (pages N).split (pages R) = (left, right, sep)) :
    SplitsInto cap mf pages (Function.update (Function.update pages R right) N left) g lo hi
      N R sep := by
  cases g with
  | zero =>
    have hleaf : (pages N).isLeaf = true := by simp [Node.isLeaf, hw.1]
    simp only [Node.full, Node.split, hleaf, if_true, Node.leafHasSpace, Bool.not_eq_true',
      decide_eq_false_iff_not, not_lt] at hfull hsplit
    exact splitsInto_leaf hw (by have := hw.2.1; have := hcap.leaf; omega)
      (fun e => hR (by simp [subtreePids, e])) hsplit
  | succ g =>
    have hleaf : (pages N).isLeaf = false := by simp [Node.isLeaf, hw.1]
    simp only [Node.full, Node.split, hleaf, Bool.false_eq_true, if_false, Node.innerHasSpace,
      Bool.not_eq_true', decide_eq_false_iff_not, not_lt] at hfull hsplit
    have := hw.2.2.2.1
    exact splitsInto_inner hw (by have := hcap.root; omega) (by have := hcap.inner; omega) hnd hR hsplit

end split

-- ============================================================ the split transitions

section transitions

variable {cap : Capacity} {mf : Nat} {pages : Pid → Node K V} {t : BTree}

/-- The subtree `d` steps down a descent, with the bounds the descent gives it, is well
formed and bounds the key. -/
theorem Wf.descend (hw : Wf cap mf pages t) (key : K) {d : Nat} (hd : d ≤ t.treeHeight - 1) :
    WfSub cap mf pages (t.treeHeight - 1 - d) (descendBounds pages key d none none t.root).1
      (descendBounds pages key d none none t.root).2 (descend pages key d t.root) ∧
    InRange (descendBounds pages key d none none t.root).1
      (descendBounds pages key d none none t.root).2 key := by
  obtain ⟨-, -, -, -, -, -, -, -, -, -, hwd, hkd, -⟩ :=
    path_replace pages d hd hw.sub (by simp [InRange]) hw.nodup fun _ _ _ => rfl
  exact ⟨hwd, hkd⟩

/-- A full node below the root on `key`'s path, whose parent has room, split into the page
`create_new_node` mints, its separator inserted into the parent: the parent's
`insert_split` returns, and the tree stays well formed with the same pairs. -/
theorem split_update (hw : Wf cap mf pages t) (hcap : Fits cap mf) (key : K) {d : Nat}
    (hd : d + 1 ≤ t.treeHeight - 1)
    (hroom : (pages (descend pages key d t.root)).count < cap.inner)
    (hfull : (pages (descend pages key (d + 1) t.root)).full cap = true)
    {left right : Node K V} {sep : K}
    (hsplit : (pages (descend pages key (d + 1) t.root)).split
      (pages (pidAt t.segmentId t.nodeCount)) = (left, right, sep)) :
    ∃ P', (pages (descend pages key d t.root)).insertSplit cap sep (pidAt t.segmentId t.nodeCount) =
        .ok P' ∧
      Wf cap mf (Function.update (Function.update (Function.update pages
        (pidAt t.segmentId t.nodeCount) right) (descend pages key (d + 1) t.root) left)
        (descend pages key d t.root) P') { t with nodeCount := t.nodeCount + 1 } ∧
      entries (Function.update (Function.update (Function.update pages
        (pidAt t.segmentId t.nodeCount) right) (descend pages key (d + 1) t.root) left)
        (descend pages key d t.root) P') { t with nodeCount := t.nodeCount + 1 } = entries pages t ∧
      P'.level = (pages (descend pages key d t.root)).level ∧
      (subtreePids (Function.update (Function.update (Function.update pages
        (pidAt t.segmentId t.nodeCount) right) (descend pages key (d + 1) t.root) left)
        (descend pages key d t.root) P') (t.treeHeight - 1) t.root).Perm
        (pidAt t.segmentId t.nodeCount :: subtreePids pages (t.treeHeight - 1) t.root) := by
  set P := descend pages key d t.root with hPdef
  set N := descend pages key (d + 1) t.root with hNdef
  set R := pidAt t.segmentId t.nodeCount with hRdef
  obtain ⟨g, hg⟩ : ∃ g, t.treeHeight - 1 - d = g + 1 := ⟨t.treeHeight - 1 - d - 1, by omega⟩
  set i := ((pages P).innerLowerBound key).1 with hidef
  have hNi : N = (pages P).children i := descend_succ pages key d t.root
  obtain ⟨hwP, hkP⟩ := hw.descend key (d := d) (by omega)
  rw [hg] at hwP
  obtain ⟨hic, -⟩ := inRange_childFor hwP hkP
  have hRt : R ∉ subtreePids pages (t.treeHeight - 1) t.root := by simpa using hw.fresh 0
  obtain ⟨-, -, preP0, postP0, -, -, hp0, -⟩ :=
    path_replace pages d (by omega) hw.sub (by simp [InRange]) hw.nodup fun _ _ _ => rfl
  rw [hg] at hp0
  have hsubP : ∀ x ∈ subtreePids pages (g + 1) P, x ∈ subtreePids pages (t.treeHeight - 1) t.root :=
    fun x hx => by rw [hp0]; exact List.mem_append_left _ (List.mem_append_right _ hx)
  have hndP : (subtreePids pages (g + 1) P).Nodup := by
    have := hw.nodup; rw [hp0] at this; exact (List.nodup_append.mp (List.nodup_append.mp this).1).2.1
  have hRP : R ∉ subtreePids pages (g + 1) P := fun h => hRt (hsubP R h)
  have hsplitP := hndP
  rw [subtreePids_split hic, ← hNi] at hsplitP
  obtain ⟨hPN, hsplitP⟩ := List.nodup_cons.mp hsplitP
  have hndN : (subtreePids pages g N).Nodup :=
    (List.nodup_append.mp (List.nodup_append.mp hsplitP).2.1).1
  have hPN : P ∉ subtreePids pages g N := fun h => hPN (by simp [h])
  have hsubN : ∀ x ∈ subtreePids pages g N, x ∈ subtreePids pages (g + 1) P :=
    fun x hx => by rw [hNi] at hx; exact subtreePids_child_subset hic hx
  have hPR : P ≠ R := fun e => hRP (by rw [← e]; exact mem_subtreePids_self _ _)
  have hsp := splitsInto_full hcap (hNi ▸ hwP.2.2.2.2.2.2 i hic) hfull hndN
    (fun h => hRP (hsubN R h)) hsplit
  have hlb := innerLowerBound_of_inside hwP.2.2.2.2.1 hic (hNi ▸ hsp).inside
  obtain ⟨P', hins, hlevel, hcount, hinc, hkeys, hchildren⟩ :=
    Node.insertSplit_spec hwP.2.2.2.2.1 hwP.2.1 hroom (by rw [hlb]) R
  rw [hlb] at hkeys hchildren
  set pages' := Function.update (Function.update (Function.update pages R right) N left) P P'
    with hpages'
  have hsp' : SplitsInto cap mf pages pages' g _ _ N R sep := hsp.congr fun x hx => by
    have hxP : x ≠ P := by
      rcases List.mem_cons.mp hx with rfl | hx
      · exact Ne.symm hPR
      · exact fun e => hPN (e ▸ hx)
    simp [hpages', hxP]
  obtain ⟨hwP', heP', hpP'⟩ := splitsInto_parent hwP hndP hic hroom hlevel hcount hinc hkeys
    hchildren (hNi ▸ hsp') (by simp [hpages']) fun x hx hxP hxN => by
      have hxN' : x ≠ N := fun e => hxN (by rw [e, ← hNi]; exact mem_subtreePids_self _ _)
      have hxR : x ≠ R := fun e => hRP (by rw [← e]; exact hx)
      simp [hpages', hxP, hxN', hxR]
  obtain ⟨pre, post, preP, postP, he, he', hp, hp', -, -, -, -, hup⟩ :=
    path_replace pages' d (by omega) hw.sub (by simp [InRange]) hw.nodup fun x hx hxs => by
      rw [hg] at hxs
      have hxP : x ≠ P := fun e => hxs (by rw [e]; exact mem_subtreePids_self _ _)
      have hxN : x ≠ N := fun e => hxs (by rw [e]; exact hsubN N (mem_subtreePids_self _ _))
      have hxR : x ≠ R := fun e => hRt (by rw [← e]; exact hx)
      simp [hpages', hxP, hxN, hxR]
  rw [hg] at he he' hp hp' hup
  have hperm : (subtreePids pages' (t.treeHeight - 1) t.root).Perm
      (R :: subtreePids pages (t.treeHeight - 1) t.root) := by
    rw [hp', hp]
    refine ((hpP'.append_left preP).append_right postP).trans ?_
    simp only [List.append_assoc, List.cons_append]
    exact List.perm_middle
  refine ⟨P', hins, ⟨hw.height_pos, hup hwP', hperm.nodup_iff.mpr (List.nodup_cons.mpr ⟨hRt, hw.nodup⟩),
    fun x hx => ?_⟩, ?_, hlevel, hperm⟩
  · rcases List.mem_cons.mp (hperm.subset hx) with rfl | hx
    · exact ⟨t.nodeCount, by dsimp only; omega, rfl⟩
    · obtain ⟨j, hj, e⟩ := hw.minted x hx; exact ⟨j, by dsimp only; omega, e⟩
  · show subtreeEntries pages' (t.treeHeight - 1) t.root = subtreeEntries pages (t.treeHeight - 1) t.root
    rw [he', he, heP']

theorem WfSub.level {g : Nat} {lo hi : Option K} {p : Pid} (hw : WfSub cap mf pages g lo hi p) :
    (pages p).level = g := by
  cases g
  · exact hw.1
  · exact hw.1

/-- The node `grow_root` writes over the old root `N` and its new sibling `R`. -/
def grownRoot (old : Node K V) (level : Nat) (sep : K) (N R : Pid) : Node K V :=
  { old with
    level := level
    count := 2
    keys := Function.update old.keys 0 sep
    children := Function.update (Function.update old.children 0 N) 1 R }

/-- A full root split into the page `create_new_node` mints next, under a new root on the
page minted after it: the tree, one level taller, stays well formed with the same pairs. -/
theorem splitRoot_update (hw : Wf cap mf pages t) (hcap : Fits cap mf)
    (hfull : (pages t.root).full cap = true) {left right : Node K V} {sep : K}
    (hsplit : (pages t.root).split (pages (pidAt t.segmentId t.nodeCount)) = (left, right, sep)) :
    Wf cap mf (Function.update (Function.update (Function.update pages
        (pidAt t.segmentId t.nodeCount) right) t.root left) (pidAt t.segmentId (t.nodeCount + 1))
        (grownRoot (pages (pidAt t.segmentId (t.nodeCount + 1))) ((pages t.root).level + 1) sep
          t.root (pidAt t.segmentId t.nodeCount)))
      ⟨t.segmentId, pidAt t.segmentId (t.nodeCount + 1), t.nodeCount + 2, t.treeHeight + 1⟩ ∧
    entries (Function.update (Function.update (Function.update pages
        (pidAt t.segmentId t.nodeCount) right) t.root left) (pidAt t.segmentId (t.nodeCount + 1))
        (grownRoot (pages (pidAt t.segmentId (t.nodeCount + 1))) ((pages t.root).level + 1) sep
          t.root (pidAt t.segmentId t.nodeCount)))
      ⟨t.segmentId, pidAt t.segmentId (t.nodeCount + 1), t.nodeCount + 2, t.treeHeight + 1⟩ =
      entries pages t ∧
    (subtreePids (Function.update (Function.update (Function.update pages
        (pidAt t.segmentId t.nodeCount) right) t.root left) (pidAt t.segmentId (t.nodeCount + 1))
        (grownRoot (pages (pidAt t.segmentId (t.nodeCount + 1))) ((pages t.root).level + 1) sep
          t.root (pidAt t.segmentId t.nodeCount))) t.treeHeight (pidAt t.segmentId (t.nodeCount + 1))).Perm
      (pidAt t.segmentId (t.nodeCount + 1) :: pidAt t.segmentId t.nodeCount ::
        subtreePids pages (t.treeHeight - 1) t.root) := by
  set R := pidAt t.segmentId t.nodeCount with hRdef
  set G := pidAt t.segmentId (t.nodeCount + 1) with hGdef
  have hRt : R ∉ subtreePids pages (t.treeHeight - 1) t.root := by simpa using hw.fresh 0
  have hGt : G ∉ subtreePids pages (t.treeHeight - 1) t.root := hw.fresh 1
  have hGR : G ≠ R := fun e => by rw [hGdef, hRdef, pidAt_inj] at e; omega
  have hsp := splitsInto_full hcap hw.sub hfull hw.nodup hRt hsplit
  set pages' := Function.update (Function.update (Function.update pages R right) t.root left) G
    (grownRoot (pages G) ((pages t.root).level + 1) sep t.root R) with hpages'
  have hsp' : SplitsInto cap mf pages pages' _ none none t.root R sep := hsp.congr fun x hx => by
    have hxG : x ≠ G := fun e => by
      rcases List.mem_cons.mp hx with h | h
      · exact hGR (e ▸ h)
      · exact hGt (e ▸ h)
    simp [hpages', hxG]
  obtain ⟨hwG, heG, hpG⟩ := splitsInto_root hsp'
    (show pages' G = grownRoot (pages G) ((pages t.root).level + 1) sep t.root R by simp [hpages'])
    (by simp [grownRoot, hw.sub.level]) rfl (by simp [grownRoot]) (by simp [grownRoot])
    (by simp [grownRoot]) (by have := hcap.root; omega) hcap.fanout
  have hh : t.treeHeight + 1 - 1 = t.treeHeight - 1 + 1 := by have := hw.height_pos; omega
  have hh' : t.treeHeight = t.treeHeight - 1 + 1 := by have := hw.height_pos; omega
  refine ⟨⟨by dsimp only; omega, by dsimp only; rw [hh]; exact hwG, ?_, fun x hx => ?_⟩, ?_,
    by rw [hh']; exact hpG⟩
  · dsimp only; rw [hh]
    exact hpG.nodup_iff.mpr (List.nodup_cons.mpr ⟨fun h => (List.mem_cons.mp h).elim hGR hGt,
      List.nodup_cons.mpr ⟨hRt, hw.nodup⟩⟩)
  · dsimp only at hx ⊢; rw [hh] at hx
    rcases List.mem_cons.mp (hpG.subset hx) with rfl | hx
    · exact ⟨t.nodeCount + 1, by omega, rfl⟩
    rcases List.mem_cons.mp hx with rfl | hx
    · exact ⟨t.nodeCount, by omega, rfl⟩
    · obtain ⟨j, hj, e⟩ := hw.minted x hx; exact ⟨j, by omega, e⟩
  · show subtreeEntries pages' (t.treeHeight + 1 - 1) G = subtreeEntries pages (t.treeHeight - 1) t.root
    rw [hh, heG]

/-- A full root split whose new root never came (`grow_root`'s `fix_page` threw after
minting its page): the tree is the left half alone, still well formed. -/
theorem splitRoot_unlinked (hw : Wf cap mf pages t) (hcap : Fits cap mf)
    (hfull : (pages t.root).full cap = true) {left right : Node K V} {sep : K}
    (hsplit : (pages t.root).split (pages (pidAt t.segmentId t.nodeCount)) = (left, right, sep)) :
    Wf cap mf (Function.update (Function.update pages (pidAt t.segmentId t.nodeCount) right)
      t.root left) { t with nodeCount := t.nodeCount + 2 } := by
  have hRt : pidAt t.segmentId t.nodeCount ∉ subtreePids pages (t.treeHeight - 1) t.root := by
    simpa using hw.fresh 0
  have hsp := splitsInto_full hcap hw.sub hfull hw.nodup hRt hsplit
  have hnd := hsp.pids.nodup_iff.mpr (List.nodup_cons.mpr ⟨hRt, hw.nodup⟩)
  refine ⟨hw.height_pos, hsp.left.noHi, (List.nodup_append.mp hnd).1, fun x hx => ?_⟩
  rcases List.mem_cons.mp (hsp.pids.subset (List.mem_append_left _ hx)) with rfl | hx
  · exact ⟨t.nodeCount, by dsimp only; omega, rfl⟩
  · obtain ⟨j, hj, e⟩ := hw.minted x hx; exact ⟨j, by dsimp only; omega, e⟩

/-- What that tree still binds: the old bindings up to the separator, none above it. -/
theorem splitRoot_unlinked_contents (hw : Wf cap mf pages t) (hcap : Fits cap mf)
    (hfull : (pages t.root).full cap = true) {left right : Node K V} {sep : K}
    (hsplit : (pages t.root).split (pages (pidAt t.segmentId t.nodeCount)) = (left, right, sep))
    (k : K) :
    contents (Function.update (Function.update pages (pidAt t.segmentId t.nodeCount) right)
      t.root left) { t with nodeCount := t.nodeCount + 2 } k =
      if k ≤ sep then contents pages t k else none := by
  have hRt : pidAt t.segmentId t.nodeCount ∉ subtreePids pages (t.treeHeight - 1) t.root := by
    simpa using hw.fresh 0
  have hsp := splitsInto_full hcap hw.sub hfull hw.nodup hRt hsplit
  have hle : ∀ e ∈ entries (Function.update (Function.update pages (pidAt t.segmentId t.nodeCount)
      right) t.root left) t, e.1 ≤ sep := fun e he => (hsp.left.inRange e he).2 sep rfl
  have hgt : ∀ e ∈ subtreeEntries (Function.update (Function.update pages
      (pidAt t.segmentId t.nodeCount) right) t.root left) (t.treeHeight - 1)
      (pidAt t.segmentId t.nodeCount), sep < e.1 := fun e he => (hsp.right.inRange e he).1 sep rfl
  simp only [contents, entries]
  rw [← hsp.entries, List.lookup_append]
  split_ifs with hk
  · rw [lookup_eq_none_of_ne fun e he => ne_of_gt (lt_of_le_of_lt hk (hgt e he)), Option.or_none]
  · exact lookup_eq_none_of_ne fun e he => ne_of_lt (lt_of_le_of_lt (hle e he) (not_le.mp hk))

end transitions

-- ============================================================ the path, level by level

section path

variable {cap : Capacity} {mf : Nat} {pages : Pid → Node K V} {t : BTree}

/-- The subtree `d` steps down a descent has no repeated page, and its pages are the
tree's. -/
theorem Wf.subtree_descend (hw : Wf cap mf pages t) (key : K) {d : Nat} (hd : d ≤ t.treeHeight - 1) :
    (subtreePids pages (t.treeHeight - 1 - d) (BTree.descend pages key d t.root)).Nodup ∧
    subtreePids pages (t.treeHeight - 1 - d) (BTree.descend pages key d t.root) ⊆
      subtreePids pages (t.treeHeight - 1) t.root := by
  obtain ⟨_, _, _, _, -, -, hp, -⟩ :=
    path_replace pages d hd hw.sub (by simp [InRange]) hw.nodup fun _ _ _ => rfl
  have hnd := hw.nodup
  rw [hp] at hnd
  exact ⟨(List.nodup_append.mp (List.nodup_append.mp hnd).1).2.1, fun x hx => by
    rw [hp]; exact List.mem_append_left _ (List.mem_append_right _ hx)⟩

/-- The page `d` steps down sits at level `treeHeight - 1 - d`. -/
theorem Wf.level_descend (hw : Wf cap mf pages t) (key : K) {d : Nat} (hd : d ≤ t.treeHeight - 1) :
    (pages (BTree.descend pages key d t.root)).level = t.treeHeight - 1 - d :=
  (hw.descend key hd).1.level

/-- Above the last level, a descent stands on an inner node whose lower bound picks a child
inside it: the next page down, another page. -/
theorem Wf.inner_step (hw : Wf cap mf pages t) (key : K) {d : Nat} (hd : d < t.treeHeight - 1) :
    (pages (BTree.descend pages key d t.root)).isLeaf = false ∧
    ((pages (BTree.descend pages key d t.root)).innerLowerBound key).1 <
      (pages (BTree.descend pages key d t.root)).count ∧
    (pages (BTree.descend pages key d t.root)).children
      ((pages (BTree.descend pages key d t.root)).innerLowerBound key).1 = BTree.descend pages key (d + 1) t.root ∧
    BTree.descend pages key (d + 1) t.root ≠ BTree.descend pages key d t.root := by
  obtain ⟨hwP, hkP⟩ := hw.descend key (d := d) (by omega)
  obtain ⟨g, hg⟩ : ∃ g, t.treeHeight - 1 - d = g + 1 := ⟨t.treeHeight - 1 - d - 1, by omega⟩
  rw [hg] at hwP
  obtain ⟨hic, -⟩ := inRange_childFor hwP hkP
  have hchild := (descend_succ pages key d t.root).symm
  refine ⟨by simp [Node.isLeaf, hwP.1], hic, hchild, fun e => ?_⟩
  have hnd := (hw.subtree_descend key (d := d) (by omega)).1
  rw [hg, subtreePids, List.nodup_cons] at hnd
  refine hnd.1 (List.mem_flatMap.mpr ⟨_, mem_slots.mpr ⟨_, hic, rfl⟩, ?_⟩)
  rw [childFor] at hchild
  rw [hchild, e]
  exact mem_subtreePids_self _ _

/-- The last page of a descent is a leaf, its keys increase, and its lower bound is a slot
of it. -/
theorem Wf.leaf (hw : Wf cap mf pages t) (key : K) :
    (pages (leafFor pages t key)).isLeaf = true ∧
    Node.Increasing (pages (leafFor pages t key)).keys (pages (leafFor pages t key)).count ∧
    ((pages (leafFor pages t key)).leafLowerBound key).1 ≤ (pages (leafFor pages t key)).count := by
  obtain ⟨_, _, _, _, _, _, _, _, hw0, _⟩ := leaf_update hw key (pages (leafFor pages t key))
  exact ⟨by simp [Node.isLeaf, hw0.1], hw0.2.2.1, (Node.leafLowerBound_spec hw0.2.2.1 key).1⟩

/-- What a lookup at the leaf returns is the tree's binding of the key. -/
theorem Wf.leaf_value (hw : Wf cap mf pages t) (key : K) :
    (if ((pages (leafFor pages t key)).leafLowerBound key).2 then
      some ((pages (leafFor pages t key)).values ((pages (leafFor pages t key)).leafLowerBound key).1)
      else none) = contents pages t key := by
  rw [leafLookup (hw.leaf key).2.1, contents_eq_leaf hw]

end path

end BTree

end SimpleDb
