import SimpleDb.BTree.Update

/-!
Why `insert`'s restart loop ends: what a split does to the full nodes of the tree.

# Full nodes

A pass of `insert` restarts only at a full node. An exclusive pass splits the first full
node on the key's path into two halves, neither full, and inserts a separator into the
parent, which had room and may now be full, one level higher; a split of the root adds a
root with two children, which is not full. So the tree's number of full nodes, paired with
the sum of their depths, decreases lexicographically with every split (`measure`,
`split_measure`, `splitRoot_measure`).

# Sums over the tree

Both components are sums of a weight of each node over the tree's pages (`weight`). A split
changes a few pages and adds one or two: the sum changes by the weights of those pages
alone (`weight_update_mem`, `weight_update_not_mem`), the list of pages being a
permutation of the old one with the new pages in front (`weight_perm`).
-/

namespace SimpleDb

namespace BTree

variable {K V : Type}

-- ============================================================ sums over the tree

/-- The sum of `f` over the nodes of the pages `l`. -/
def weight (f : Node K V → Nat) (pages : Pid → Node K V) (l : List Pid) : Nat :=
  (l.map fun p => f (pages p)).sum

section weight

variable {f : Node K V → Nat} {pages : Pid → Node K V} {l l' : List Pid}

theorem weight_perm (h : l.Perm l') : weight f pages l = weight f pages l' :=
  (h.map _).sum_eq

@[simp] theorem weight_cons (p : Pid) : weight f pages (p :: l) = f (pages p) + weight f pages l := by
  simp [weight]

theorem weight_update_not_mem {x : Pid} (hx : x ∉ l) (v : Node K V) :
    weight f (Function.update pages x v) l = weight f pages l := by
  unfold weight
  congr 1
  exact List.map_congr_left fun q hq => by rw [Function.update_noteq (fun e => hx (by rw [← e]; exact hq))]

/-- Rewriting one page of the list trades its old weight for the new one. -/
theorem weight_update_mem (f : Node K V → Nat) (pages : Pid → Node K V) (hnd : l.Nodup) {x : Pid}
    (hx : x ∈ l) (v : Node K V) :
    weight f (Function.update pages x v) l + f (pages x) = weight f pages l + f v := by
  have hp := List.perm_cons_erase hx
  rw [weight_perm hp, weight_perm (l := l) hp, weight_cons, weight_cons, Function.update_same,
    weight_update_not_mem (hnd.not_mem_erase) v]
  omega

end weight

-- ============================================================ full nodes

/-- One for a full node. -/
def fullWeight (cap : Capacity) (n : Node K V) : Nat := if n.full cap then 1 else 0

/-- The depth of a full node in a tree of height `h`. -/
def depthWeight (cap : Capacity) (h : Nat) (n : Node K V) : Nat :=
  if n.full cap then h - 1 - n.level else 0

/-- The tree's number of full nodes, and the sum of their depths. -/
def measure (cap : Capacity) (pages : Pid → Node K V) (t : BTree) : Nat × Nat :=
  (weight (fullWeight cap) pages (subtreePids pages (t.treeHeight - 1) t.root),
    weight (depthWeight cap t.treeHeight) pages (subtreePids pages (t.treeHeight - 1) t.root))

/-- Neither half of a full node within capacity is full, when each kind holds two or more. -/
theorem Node.split_not_full {cap : Capacity} {n other left right : Node K V} {sep : K}
    (hfull : n.full cap = true) (hc : n.count ≤ if n.isLeaf then cap.leaf else cap.inner)
    (hl : 2 ≤ cap.leaf) (hi : 2 ≤ cap.inner) (h : n.split other = (left, right, sep)) :
    left.full cap = false ∧ right.full cap = false := by
  unfold Node.split at h
  unfold Node.full at hfull ⊢
  by_cases hleaf : n.isLeaf = true
  · simp only [hleaf, if_true, Node.leafSplit, Prod.mk.injEq] at h hc hfull
    obtain ⟨rfl, rfl, -⟩ := h
    simp only [Node.isLeaf, Node.leafHasSpace, Bool.not_eq_true', decide_eq_false_iff_not,
      not_lt] at hleaf hfull ⊢
    simp only [hleaf, if_true, Bool.not_eq_false', decide_eq_true_eq]
    omega
  · simp only [hleaf, Bool.false_eq_true, if_false, Node.innerSplit, Prod.mk.injEq] at h hc hfull
    obtain ⟨rfl, rfl, -⟩ := h
    simp only [Node.isLeaf, Node.innerHasSpace, Bool.not_eq_true', decide_eq_false_iff_not,
      not_lt] at hleaf hfull ⊢
    simp only [hleaf, Bool.false_eq_true, if_false, Bool.not_eq_false', decide_eq_true_eq]
    omega

variable [LinearOrder K]

/-- A node within its kind's capacity. -/
theorem WfSub.count_le {cap : Capacity} {mf g : Nat} {pages : Pid → Node K V} {lo hi : Option K}
    {p : Pid} (hw : WfSub cap mf pages g lo hi p) :
    (pages p).count ≤ if (pages p).isLeaf then cap.leaf else cap.inner := by
  cases g with
  | zero => simpa [Node.isLeaf, hw.1] using hw.2.1
  | succ g => simpa [Node.isLeaf, hw.1] using hw.2.2.2.1

section split

variable {cap : Capacity} {mf : Nat} {pages : Pid → Node K V} {t : BTree}

/-- A split below the root decreases the measure: the split node stops being full, and the
parent, one level up, becomes full at most. -/
theorem split_measure (hw : Wf cap mf pages t) (hcap : Fits cap mf) (key : K) {d : Nat}
    (hd : d + 1 ≤ t.treeHeight - 1)
    (hroom : (pages (descend pages key d t.root)).count < cap.inner)
    (hfull : (pages (descend pages key (d + 1) t.root)).full cap = true)
    {left right P' : Node K V} {sep : K}
    (hsplit : (pages (descend pages key (d + 1) t.root)).split
      (pages (pidAt t.segmentId t.nodeCount)) = (left, right, sep))
    (hlevel : P'.level = (pages (descend pages key d t.root)).level)
    (hperm : (subtreePids (Function.update (Function.update (Function.update pages
        (pidAt t.segmentId t.nodeCount) right) (descend pages key (d + 1) t.root) left)
        (descend pages key d t.root) P') (t.treeHeight - 1) t.root).Perm
        (pidAt t.segmentId t.nodeCount :: subtreePids pages (t.treeHeight - 1) t.root)) :
    Prod.Lex (· < ·) (· < ·)
      (measure cap (Function.update (Function.update (Function.update pages
        (pidAt t.segmentId t.nodeCount) right) (descend pages key (d + 1) t.root) left)
        (descend pages key d t.root) P') { t with nodeCount := t.nodeCount + 1 })
      (measure cap pages t) := by
  have hnd := hw.nodup
  have hR : pidAt t.segmentId t.nodeCount ∉ subtreePids pages (t.treeHeight - 1) t.root := by
    simpa using hw.fresh 0
  have hP := (hw.subtree_descend key (d := d) (by omega)).2 (mem_subtreePids_self _ _)
  have hN := (hw.subtree_descend key (d := d + 1) hd).2 (mem_subtreePids_self _ _)
  obtain ⟨hleafP, -, -, hNP⟩ := hw.inner_step key (d := d) (by omega)
  obtain ⟨hwN, -⟩ := hw.descend key (d := d + 1) hd
  have hlP := hw.level_descend key (d := d) (by omega)
  have hlN := hw.level_descend key hd
  obtain ⟨hl, hr⟩ := Node.split_not_full hfull hwN.count_le hcap.leaf (by have := hcap.root; omega) hsplit
  have hnotP : (pages (descend pages key d t.root)).full cap = false := by
    simpa [Node.full, hleafP, Node.innerHasSpace] using hroom
  unfold measure
  dsimp only
  rw [weight_perm hperm, weight_perm hperm]
  generalize descend pages key (d + 1) t.root = N at *
  generalize descend pages key d t.root = P at *
  generalize pidAt t.segmentId t.nodeCount = R at *
  generalize subtreePids pages (t.treeHeight - 1) t.root = l at *
  have hRP : R ≠ P := fun e => hR (by rw [e]; exact hP)
  have hRN : R ≠ N := fun e => hR (by rw [e]; exact hN)
  -- any weight over the new tree, by the pages that changed
  have hsum : ∀ f : Node K V → Nat, weight f (Function.update (Function.update
      (Function.update pages R right) N left) P P') (R :: l) + f (pages P) + f (pages N) =
      f right + f P' + f left + weight f pages l := fun f => by
    have h1 := weight_update_mem f (Function.update (Function.update pages R right) N left) hnd hP P'
    have h2 := weight_update_mem f (Function.update pages R right) hnd hN left
    rw [Function.update_noteq (Ne.symm hNP), Function.update_noteq hRP.symm] at h1
    rw [Function.update_noteq hRN.symm, weight_update_not_mem hR] at h2
    rw [weight_cons, Function.update_noteq hRP, Function.update_noteq hRN, Function.update_same]
    omega
  have hc := hsum (fullWeight cap)
  have hδ := hsum (depthWeight cap t.treeHeight)
  simp only [fullWeight, depthWeight, hnotP, hfull, hl, hr, if_true, Bool.false_eq_true, if_false,
    hlP, hlN, hlevel] at hc hδ
  rw [Prod.lex_def]
  by_cases hP' : P'.full cap = true
  · simp only [hP', if_true] at hc hδ
    exact .inr ⟨by omega, by omega⟩
  · simp only [hP', Bool.false_eq_true, if_false] at hc hδ
    exact .inl (by omega)

/-- A split of the root decreases the number of full nodes: the root stops being full, and
the new root has room. -/
theorem splitRoot_measure (hw : Wf cap mf pages t) (hcap : Fits cap mf)
    (hfull : (pages t.root).full cap = true) {left right : Node K V} {sep : K}
    (hsplit : (pages t.root).split (pages (pidAt t.segmentId t.nodeCount)) = (left, right, sep))
    (hperm : (subtreePids (Function.update (Function.update (Function.update pages
        (pidAt t.segmentId t.nodeCount) right) t.root left) (pidAt t.segmentId (t.nodeCount + 1))
        (grownRoot (pages (pidAt t.segmentId (t.nodeCount + 1))) ((pages t.root).level + 1) sep
          t.root (pidAt t.segmentId t.nodeCount))) t.treeHeight (pidAt t.segmentId (t.nodeCount + 1))).Perm
      (pidAt t.segmentId (t.nodeCount + 1) :: pidAt t.segmentId t.nodeCount ::
        subtreePids pages (t.treeHeight - 1) t.root)) :
    (measure cap (Function.update (Function.update (Function.update pages
        (pidAt t.segmentId t.nodeCount) right) t.root left) (pidAt t.segmentId (t.nodeCount + 1))
        (grownRoot (pages (pidAt t.segmentId (t.nodeCount + 1))) ((pages t.root).level + 1) sep
          t.root (pidAt t.segmentId t.nodeCount)))
      ⟨t.segmentId, pidAt t.segmentId (t.nodeCount + 1), t.nodeCount + 2, t.treeHeight + 1⟩).1 <
      (measure cap pages t).1 := by
  have hnd := hw.nodup
  have hR : pidAt t.segmentId t.nodeCount ∉ subtreePids pages (t.treeHeight - 1) t.root := by
    simpa using hw.fresh 0
  have hG := hw.fresh 1
  have hroot : t.root ∈ subtreePids pages (t.treeHeight - 1) t.root := mem_subtreePids_self _ _
  obtain ⟨hl, hr⟩ := Node.split_not_full hfull hw.sub.count_le hcap.leaf
    (by have := hcap.root; omega) hsplit
  have hg : (grownRoot (pages (pidAt t.segmentId (t.nodeCount + 1))) ((pages t.root).level + 1) sep
      t.root (pidAt t.segmentId t.nodeCount)).full cap = false := by
    have := hcap.root
    simp [grownRoot, Node.full, Node.isLeaf, Node.innerHasSpace]; omega
  have hGR : pidAt t.segmentId (t.nodeCount + 1) ≠ pidAt t.segmentId t.nodeCount := fun e => by
    rw [pidAt_inj] at e; omega
  unfold measure
  dsimp only
  rw [show t.treeHeight + 1 - 1 = t.treeHeight by omega, weight_perm hperm]
  generalize grownRoot _ _ _ _ _ = g at *
  generalize pidAt t.segmentId (t.nodeCount + 1) = G at *
  generalize pidAt t.segmentId t.nodeCount = R at *
  generalize subtreePids pages (t.treeHeight - 1) t.root = l at *
  have hRr : R ≠ t.root := fun e => hR (by rw [e]; exact hroot)
  have h1 := weight_update_mem (fullWeight cap) (Function.update pages R right) hnd hroot left
  rw [Function.update_noteq hRr.symm, weight_update_not_mem hR] at h1
  rw [weight_cons, weight_cons, Function.update_same, Function.update_noteq hGR.symm,
    Function.update_noteq hRr, Function.update_same, weight_update_not_mem hG]
  simp only [fullWeight, hfull, hl, hr, hg, if_true, Bool.false_eq_true, if_false] at h1 ⊢
  omega

end split

end BTree

end SimpleDb
