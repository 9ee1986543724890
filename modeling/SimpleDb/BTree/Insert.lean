import SimpleDb.BTree.Descent
import SimpleDb.BTree.Measure

/-!
`insert`: its two split paths, one pass of its `goto restart` loop, and the loop.

# A pass

A shared pass descends taking only the leaf exclusively. Meeting a full node, it releases
what it holds and restarts exclusively, the tree untouched; otherwise it writes the pair
into the leaf. An exclusive pass holds every node exclusively and splits the first full node
on the path: the parent had room, since it was not full, or the node is the root and
`grow_root` puts a new root over the halves; it then restarts shared (`PassEnd`).

# Throwing

A pass throws only out of fuel or from `fix_page`, holding at most two latches, with the
tree well formed. The map is the one the pass started from, except when the `fix_page` of
`grow_root` throws: the halves of the old root are written but no root links the upper
one, and the tree keeps the bindings up to the separator (`RootCut`).

# The loop

Each exclusive pass that restarts has split a node, so the measure of `Measure` decreases;
each shared pass that restarts leaves the tree and turns exclusive. The loop therefore
ends, and since a pass that does not run out of fuel does the same whatever its fuel
(`insertPass_stable`), enough fuel makes `insert` return (`wp_insertLoop`).
-/

namespace SimpleDb

namespace BTree

variable {K V : Type}

/-- `insert` takes a node's latch exclusively on an exclusive pass, and on a leaf. -/
def insertMode (exclusive : Bool) (level : Nat) : Bool := exclusive || eraseMode level

@[simp] theorem insertMode_true (level : Nat) : insertMode true level = true := rfl

section outcomes

variable [LinearOrder K]

/-- How a pass of `insert` from `w₀` ends in `w`, holding nothing: the pair is in; or it
restarts with the map unchanged, a shared pass exclusive with the tree untouched, an
exclusive pass shared with a smaller measure. -/
def PassEnd (cap : Capacity) (mf : Nat) (key : K) (value : V) (exclusive : Bool) (w₀ : World K V) :
    Pass → World K V → Prop
  | .done, w => Wf cap mf w.mem w.tree ∧
      contents w.mem w.tree = Function.update (contents w₀.mem w₀.tree) key (some value) ∧
      Holding w₀ w []
  | .restart ex, w => Wf cap mf w.mem w.tree ∧ contents w.mem w.tree = contents w₀.mem w₀.tree ∧
      Holding w₀ w [] ∧
      if exclusive then ex = false ∧
        Prod.Lex (· < ·) (· < ·) (measure cap w.mem w.tree) (measure cap w₀.mem w₀.tree)
      else ex = true ∧ w.mem = w₀.mem ∧ w.tree = w₀.tree

/-- What `grow_root`'s throwing `fix_page` leaves: the full root of a well-formed tree `w'`
binding what `w₀` bound was split, its lower half written to the root's page and its upper
half to the page minted for it, and the page minted next, for the new root, never written.
The tree binds `w₀`'s pairs up to the split's separator and none above it. -/
def RootCut (cap : Capacity) (mf : Nat) (w₀ w : World K V) : Prop :=
  ∃ (w' : World K V) (left right : Node K V) (sep : K),
    Wf cap mf w'.mem w'.tree ∧ contents w'.mem w'.tree = contents w₀.mem w₀.tree ∧
    (w'.mem w'.tree.root).full cap = true ∧
    (w'.mem w'.tree.root).split (w'.mem (pidAt w'.tree.segmentId w'.tree.nodeCount)) =
      (left, right, sep) ∧
    w.tree = { w'.tree with nodeCount := w'.tree.nodeCount + 2 } ∧
    w.mem = Function.update (Function.update w'.mem (pidAt w'.tree.segmentId w'.tree.nodeCount) right)
      w'.tree.root left ∧
    ∀ k, contents w.mem w.tree k = if k ≤ sep then contents w₀.mem w₀.tree k else none

/-- The tree an operation that threw leaves: well formed, binding what it bound, or cut at the
root's separator by `grow_root`'s throw (`RootCut`). -/
def Kept (cap : Capacity) (mf : Nat) (w₀ w : World K V) : Prop :=
  Wf cap mf w.mem w.tree ∧ (contents w.mem w.tree = contents w₀.mem w₀.tree ∨ RootCut cap mf w₀ w)

/-- Trees with the same pairs bind the same. -/
theorem contents_eq_of_entries {pages pages' : Pid → Node K V} {t t' : BTree}
    (h : entries pages' t' = entries pages t) : contents pages' t' = contents pages t := by
  funext k; rw [contents, contents, h]

theorem Kept.refl {cap : Capacity} {mf : Nat} {w₀ : World K V} (hw : Wf cap mf w₀.mem w₀.tree) :
    Kept cap mf w₀ w₀ :=
  ⟨hw, .inl rfl⟩

/-- A tree kept after a run that changed nothing of the map. -/
theorem Kept.trans {cap : Capacity} {mf : Nat} {w₀ w₁ w : World K V}
    (h₁ : contents w₁.mem w₁.tree = contents w₀.mem w₀.tree) (h : Kept cap mf w₁ w) :
    Kept cap mf w₀ w := by
  obtain ⟨hw, h | ⟨w', left, right, sep, hw', hc, hfull, hs, ht, hm, h⟩⟩ := h
  · exact ⟨hw, .inl (h.trans h₁)⟩
  · exact ⟨hw, .inr ⟨w', left, right, sep, hw', hc.trans h₁, hfull, hs, ht, hm, fun k => by rw [h, h₁]⟩⟩

end outcomes

-- ============================================================ the split paths

section split

variable {w₀ w : World K V}

/-- `splitHalves`: the fresh page is fixed, or `fix_page` throws; then the halves are
written, the upper one to the fresh page. -/
theorem wp_splitHalves {ph : List Hold} {N R : Pid} {left right : Node K V} {sep : K}
    (split : Node K V → Node K V → Node K V × Node K V × K) (node : Node K V)
    (hh : Holding w₀ w (⟨N, true, false⟩ :: ph)) (hlen : ph.length ≤ 1)
    (hRdef : R = pidAt w.tree.segmentId w.tree.nodeCount) (hR : R ∉ (⟨N, true, false⟩ :: ph).map Hold.pid)
    (hs : split node (w.mem R) = (left, right, sep)) :
    Wp (splitHalves split N node) w
      (fun r w' => r = (R, sep) ∧ Holding w₀ w' (⟨R, true, true⟩ :: ⟨N, true, true⟩ :: ph) ∧
        w'.tree = { w.tree with nodeCount := w.tree.nodeCount + 1 } ∧
        w'.mem = Function.update (Function.update w.mem R right) N left)
      (fun e w' => (∃ be, e = .buffer be) ∧ Holding w₀ w' (⟨N, true, false⟩ :: ph) ∧
        w'.tree = { w.tree with nodeCount := w.tree.nodeCount + 1 } ∧ w'.mem = w.mem ∧ ¬ w₀.Clean) := by
  subst hRdef
  have hNR : N ≠ pidAt w.tree.segmentId w.tree.nodeCount := fun e => hR (by simp [e])
  have hNph : N ∉ ph.map Hold.pid := (List.nodup_cons.mp hh.nodup).1
  rw [splitHalves, wp_createNewNode_bind]
  refine wp_fixPage_bind (hh.setTree _) hR (by simp; omega) _ (fun w₁ hh₁ ht₁ hm₁ => ?_)
    fun e w₁ hh₁ ht₁ hm₁ hc => ⟨⟨e, rfl⟩, hh₁, ht₁, hm₁, hc⟩
  refine wp_getData_bind hh₁ (List.mem_cons_self _ _) _ ?_
  dsimp only at ht₁ hm₁ ⊢
  rw [hm₁, hs]
  refine wp_setData_bind hh₁ (List.mem_cons_self _ _) rfl right _ fun w₂ hh₂ ht₂ hm₂ => ?_
  rw [markWritten_cons_self _ hR] at hh₂
  refine wp_setData_bind (h := ⟨N, true, false⟩) hh₂ (by simp) rfl left _ fun w₃ hh₃ ht₃ hm₃ => ?_
  rw [markWritten_cons_ne (Ne.symm hNR), markWritten_cons_self _ hNph] at hh₃
  exact ⟨rfl, hh₃, by rw [ht₃, ht₂, ht₁], by rw [hm₃, hm₂, hm₁]⟩

/-- `grow_root`: the new root's page is fixed, or `fix_page` throws; then it is written as
an inner node over the two halves and published as the root, one level up. -/
theorem wp_growRoot {held : List Hold} {G : Pid} (level : Nat) (sep : K) (N R : Pid)
    (hh : Holding w₀ w held) (hlen : held.length ≤ 2)
    (hGdef : G = pidAt w.tree.segmentId w.tree.nodeCount) (hG : G ∉ held.map Hold.pid) :
    Wp (growRoot level sep N R) w
      (fun r w' => r = G ∧ Holding w₀ w' (⟨G, true, true⟩ :: held) ∧
        w'.tree = ⟨w.tree.segmentId, G, w.tree.nodeCount + 1, w.tree.treeHeight + 1⟩ ∧
        w'.mem = Function.update w.mem G (grownRoot (w.mem G) level sep N R))
      (fun e w' => (∃ be, e = .buffer be) ∧ Holding w₀ w' held ∧
        w'.tree = { w.tree with nodeCount := w.tree.nodeCount + 1 } ∧ w'.mem = w.mem ∧ ¬ w₀.Clean) := by
  subst hGdef
  rw [growRoot, wp_createNewNode_bind]
  refine wp_fixPage_bind (hh.setTree _) hG hlen _ (fun w₁ hh₁ ht₁ hm₁ => ?_)
    fun e w₁ hh₁ ht₁ hm₁ hc => ⟨⟨e, rfl⟩, hh₁, ht₁, hm₁, hc⟩
  refine wp_getData_bind hh₁ (List.mem_cons_self _ _) _ ?_
  dsimp only at ht₁ hm₁ ⊢
  refine wp_setData_bind hh₁ (List.mem_cons_self _ _) rfl (grownRoot (w₁.mem _) level sep N R) _
    fun w₂ hh₂ ht₂ hm₂ => ?_
  rw [markWritten_cons_self _ hG] at hh₂
  rw [wp_modify_bind, wp_modify_bind, wp_pure]
  exact ⟨rfl, (hh₂.setTree _).setTree _, by rw [ht₂, ht₁], by rw [hm₂, hm₁]⟩

end split

section splitNode

variable [LinearOrder K] {cap : Capacity} {mf : Nat} {w₀ w : World K V}

/-- `splitNode` below the root, on an exclusive pass standing on the first full node of the
path: the node splits, its separator goes into the parent, and the tree, one page larger,
binds what it bound with a smaller measure; or the fresh page's `fix_page` throws before
any write. -/
theorem wp_splitNode_child (hw : Wf cap mf w₀.mem w₀.tree) (hcap : Fits cap mf) (key : K) {d : Nat}
    (hd : d + 1 ≤ w₀.tree.treeHeight - 1)
    (hroom : (w₀.mem (descend w₀.mem key d w₀.tree.root)).count < cap.inner)
    (hfull : (w₀.mem (descend w₀.mem key (d + 1) w₀.tree.root)).full cap = true)
    (split : Node K V → Node K V → Node K V × Node K V × K)
    (hsplit : ∀ o, split (w₀.mem (descend w₀.mem key (d + 1) w₀.tree.root)) o =
      (w₀.mem (descend w₀.mem key (d + 1) w₀.tree.root)).split o)
    (hh : Holding w₀ w (descentHolds w₀.mem (insertMode true)
      (some (descend w₀.mem key d w₀.tree.root)) (descend w₀.mem key (d + 1) w₀.tree.root)))
    (ht : w.tree = w₀.tree) (hm : w.mem = w₀.mem) :
    Wp (splitNode cap split (some (descend w₀.mem key d w₀.tree.root))
        (descend w₀.mem key (d + 1) w₀.tree.root) (w₀.mem (descend w₀.mem key (d + 1) w₀.tree.root))) w
      (fun _ w' => Holding w₀ w' [] ∧ Wf cap mf w'.mem w'.tree ∧
        contents w'.mem w'.tree = contents w₀.mem w₀.tree ∧
        Prod.Lex (· < ·) (· < ·) (measure cap w'.mem w'.tree) (measure cap w₀.mem w₀.tree))
      (fun e w' => Thrown w₀ w' e ∧ e ≠ .outOfFuel ∧ Kept cap mf w₀ w') := by
  rcases hs : (w₀.mem (descend w₀.mem key (d + 1) w₀.tree.root)).split
    (w₀.mem (pidAt w₀.tree.segmentId w₀.tree.nodeCount)) with ⟨left, right, sep⟩
  obtain ⟨P', hins, hwf, hent, hlevel, hperm⟩ := split_update hw hcap key hd hroom hfull hs
  have hμ := split_measure hw hcap key hd hroom hfull hs hlevel hperm
  have hRt : pidAt w₀.tree.segmentId w₀.tree.nodeCount ∉
      subtreePids w₀.mem (w₀.tree.treeHeight - 1) w₀.tree.root := by simpa using hw.fresh 0
  have hP := (hw.subtree_descend key (d := d) (by omega)).2 (mem_subtreePids_self _ _)
  have hN := (hw.subtree_descend key (d := d + 1) hd).2 (mem_subtreePids_self _ _)
  have hNP := (hw.inner_step key (d := d) (by omega)).2.2.2
  rw [← hsplit] at hs
  generalize descend w₀.mem key (d + 1) w₀.tree.root = N at *
  generalize descend w₀.mem key d w₀.tree.root = P at *
  generalize hRdef : pidAt w₀.tree.segmentId w₀.tree.nodeCount = R at *
  have hRP : R ≠ P := fun e => hRt (by rw [e]; exact hP)
  have hRN : R ≠ N := fun e => hRt (by rw [e]; exact hN)
  simp only [descentHolds, parentHold, insertMode_true, Option.toList_some, List.map_cons,
    List.map_nil] at hh
  have hs' : split (w₀.mem N) (w.mem R) = (left, right, sep) := by rw [hm]; exact hs
  rw [splitNode, wp_bind]
  refine wp_mono (wp_splitHalves split _ hh (by simp) (by rw [ht, hRdef]) (by simp [hRN, hRP]) hs')
    ?_ ?_
  · rintro r w₁ ⟨rfl, hh₁, ht₁, hm₁⟩
    dsimp only
    refine wp_getData_bind (h := ⟨P, true, false⟩) hh₁ (by simp) _ ?_
    rw [hm₁, hm, Function.update_noteq (Ne.symm hNP), Function.update_noteq (Ne.symm hRP)]
    refine wp_liftAssert_bind hins _ ?_
    refine wp_setData_bind (h := ⟨P, true, false⟩) hh₁ (by simp) rfl P' _ fun w₂ hh₂ ht₂ hm₂ => ?_
    rw [markWritten_cons_ne hRP, markWritten_cons_ne hNP,
      markWritten_cons_self _ (by simp)] at hh₂
    rw [wp_bind, wp_pure]
    refine wp_unfixPage_bind (h := ⟨R, true, true⟩) hh₂ (by simp) (fun _ => rfl) (fun _ => rfl) _
      fun w₃ hh₃ ht₃ hm₃ => ?_
    refine wp_unfixPage_bind (h := ⟨N, true, true⟩) hh₃ (by simp) (fun _ => rfl) (fun _ => rfl) _
      fun w₄ hh₄ ht₄ hm₄ => ?_
    refine wp_unfixPage (h := ⟨P, true, true⟩) hh₄ (by simp) (fun _ => rfl) (fun _ => rfl)
      fun w₅ hh₅ ht₅ hm₅ => ?_
    rw [hm₅, hm₄, hm₃, hm₂, hm₁, hm, ht₅, ht₄, ht₃, ht₂, ht₁, ht]
    exact ⟨by simpa using hh₅, hwf, contents_eq_of_entries hent, hμ⟩
  · rintro e w₁ ⟨⟨be, rfl⟩, hh₁, ht₁, hm₁, hc⟩
    refine ⟨.fix hh₁ (by simp) hc be, nofun, ?_, .inl ?_⟩ <;> rw [hm₁, hm, ht₁, ht]
    · exact hw.mint 1
    · rfl

/-- `splitNode` on a full root, on an exclusive pass: `grow_root` puts a new root over the
halves, and the tree, one level taller, binds what it bound with a smaller measure; or a
`fix_page` throws, `grow_root`'s after the halves are written, and the tree keeps the
bindings up to the separator. -/
theorem wp_splitNode_root (hw : Wf cap mf w₀.mem w₀.tree) (hcap : Fits cap mf)
    (hfull : (w₀.mem w₀.tree.root).full cap = true)
    (split : Node K V → Node K V → Node K V × Node K V × K)
    (hsplit : ∀ o, split (w₀.mem w₀.tree.root) o = (w₀.mem w₀.tree.root).split o)
    (hh : Holding w₀ w (descentHolds w₀.mem (insertMode true) none w₀.tree.root))
    (ht : w.tree = w₀.tree) (hm : w.mem = w₀.mem) :
    Wp (splitNode cap split none w₀.tree.root (w₀.mem w₀.tree.root)) w
      (fun _ w' => Holding w₀ w' [] ∧ Wf cap mf w'.mem w'.tree ∧
        contents w'.mem w'.tree = contents w₀.mem w₀.tree ∧
        Prod.Lex (· < ·) (· < ·) (measure cap w'.mem w'.tree) (measure cap w₀.mem w₀.tree))
      (fun e w' => Thrown w₀ w' e ∧ e ≠ .outOfFuel ∧ Kept cap mf w₀ w') := by
  rcases hs : (w₀.mem w₀.tree.root).split (w₀.mem (pidAt w₀.tree.segmentId w₀.tree.nodeCount))
    with ⟨left, right, sep⟩
  obtain ⟨hwf, hent, hperm⟩ := splitRoot_update hw hcap hfull hs
  have hμ := splitRoot_measure hw hcap hfull hs hperm
  have hwu := splitRoot_unlinked hw hcap hfull hs
  have hcu := splitRoot_unlinked_contents hw hcap hfull hs
  have hRt : pidAt w₀.tree.segmentId w₀.tree.nodeCount ∉
      subtreePids w₀.mem (w₀.tree.treeHeight - 1) w₀.tree.root := by simpa using hw.fresh 0
  have hGt : pidAt w₀.tree.segmentId (w₀.tree.nodeCount + 1) ∉
      subtreePids w₀.mem (w₀.tree.treeHeight - 1) w₀.tree.root := by simpa using hw.fresh 1
  have hGR : pidAt w₀.tree.segmentId (w₀.tree.nodeCount + 1) ≠
      pidAt w₀.tree.segmentId w₀.tree.nodeCount := fun e => by rw [pidAt_inj] at e; omega
  have hs' : split (w₀.mem w₀.tree.root) (w.mem (pidAt w₀.tree.segmentId w₀.tree.nodeCount)) =
      (left, right, sep) := by rw [hm, hsplit, hs]
  generalize hGdef : pidAt w₀.tree.segmentId (w₀.tree.nodeCount + 1) = G at *
  generalize hRdef : pidAt w₀.tree.segmentId w₀.tree.nodeCount = R at *
  have hRN : R ≠ w₀.tree.root := fun e => hRt (by rw [e]; exact mem_subtreePids_self _ _)
  have hGN : G ≠ w₀.tree.root := fun e => hGt (by rw [e]; exact mem_subtreePids_self _ _)
  simp only [descentHolds, parentHold, insertMode_true, Option.toList_none, List.map_nil] at hh
  rw [splitNode, wp_bind]
  refine wp_mono (wp_splitHalves split _ hh (by simp) (by rw [ht, hRdef]) (by simp [hRN]) hs')
    ?_ ?_
  · rintro r w₁ ⟨rfl, hh₁, ht₁, hm₁⟩
    dsimp only
    have hG₁ : G = pidAt w₁.tree.segmentId w₁.tree.nodeCount := by rw [ht₁, ht]; exact hGdef.symm
    rw [wp_bind]
    refine wp_mono (wp_growRoot ((w₀.mem w₀.tree.root).level + 1) sep w₀.tree.root R hh₁ (by simp)
      hG₁ (by simp [hGR, hGN])) ?_ ?_
    · rintro r w₂ ⟨hr, hh₂, ht₂, hm₂⟩
      rw [hr]
      refine wp_unfixPage_bind (h := ⟨R, true, true⟩) hh₂ (by simp) (fun _ => rfl) (fun _ => rfl) _
        fun w₃ hh₃ ht₃ hm₃ => ?_
      simp [List.erase_cons, hGR] at hh₃
      refine wp_unfixPage_bind (h := ⟨w₀.tree.root, true, true⟩) hh₃ (by simp)
        (fun _ => rfl) (fun _ => rfl) _ fun w₄ hh₄ ht₄ hm₄ => ?_
      refine wp_unfixPage (h := ⟨G, true, true⟩) hh₄ (by simp [hGR, hGN]) (fun _ => rfl)
        (fun _ => rfl) fun w₅ hh₅ ht₅ hm₅ => ?_
      rw [hm₅, hm₄, hm₃, hm₂, hm₁, hm, ht₅, ht₄, ht₃, ht₂, ht₁, ht, Function.update_noteq hGN,
        Function.update_noteq hGR]
      exact ⟨by simpa [List.erase_cons, hGN] using hh₅, hwf, contents_eq_of_entries hent, .left _ _ hμ⟩
    · rintro e w₂ ⟨⟨be, rfl⟩, hh₂, ht₂, hm₂, hc⟩
      have ht' : w₂.tree = { w₀.tree with nodeCount := w₀.tree.nodeCount + 2 } := by rw [ht₂, ht₁, ht]
      have hm' : w₂.mem = Function.update (Function.update w₀.mem R right) w₀.tree.root left := by
        rw [hm₂, hm₁, hm]
      refine ⟨.fix hh₂ (by simp) hc be, nofun, by rw [hm', ht']; exact hwu,
        .inr ⟨w₀, left, right, sep, hw, rfl, hfull, by rw [hRdef]; exact hs, ht', by rw [hRdef]; exact hm',
          fun k => by rw [hm', ht']; exact hcu k⟩⟩
  · rintro e w₁ ⟨⟨be, rfl⟩, hh₁, ht₁, hm₁, hc⟩
    refine ⟨.fix hh₁ (by simp) hc be, nofun, ?_, .inl ?_⟩ <;> rw [hm₁, hm, ht₁, ht]
    · exact hw.mint 1
    · rfl

end splitNode

-- ============================================================ a pass

section pass

variable [LinearOrder K] {cap : Capacity} {mf : Nat} {w₀ w : World K V}

/-- The parent of the page `d` steps down `key`'s path. -/
def pathParent (pages : Pid → Node K V) (key : K) (root : Pid) : Nat → Option Pid
  | 0 => none
  | d + 1 => some (descend pages key d root)

/-- The modes `insert` writes, for the root and for a child, are those of the node's own
level. -/
theorem Wf.insertMode_root {pages : Pid → Node K V} {t : BTree} (hw : Wf cap mf pages t)
    (exclusive : Bool) :
    (exclusive || t.treeHeight == 1) = insertMode exclusive (pages t.root).level := by
  rw [insertMode, hw.eraseMode_root]

theorem Wf.insertMode_descend {pages : Pid → Node K V} {t : BTree} (hw : Wf cap mf pages t)
    (key : K) (exclusive : Bool) {d : Nat} (hd : d < t.treeHeight - 1) :
    (exclusive || (pages (BTree.descend pages key d t.root)).level == 1) =
      insertMode exclusive (pages (BTree.descend pages key (d + 1) t.root)).level := by
  rw [insertMode, hw.eraseMode_descend key hd]

/-- A world with the start's tree and pages keeps it. -/
theorem Kept.of_eq (hw : Wf cap mf w₀.mem w₀.tree) (ht : w.tree = w₀.tree) (hm : w.mem = w₀.mem) :
    Kept cap mf w₀ w :=
  ⟨by rw [ht, hm]; exact hw, .inl (by rw [ht, hm])⟩

/-- The `!has_space()` branch at the page `d` steps down `key`'s path: a shared pass
releases everything and restarts exclusively; an exclusive pass, whose ancestors on the path
are not full, splits the page and restarts shared. -/
theorem wp_fullNode (hw : Wf cap mf w₀.mem w₀.tree) (hcap : Fits cap mf) (key : K) (value : V)
    {exclusive : Bool} {d : Nat} (hd : d ≤ w₀.tree.treeHeight - 1)
    (split : Node K V → Node K V → Node K V × Node K V × K)
    (hsplit : ∀ o, split (w₀.mem (descend w₀.mem key d w₀.tree.root)) o =
      (w₀.mem (descend w₀.mem key d w₀.tree.root)).split o)
    (hfull : (w₀.mem (descend w₀.mem key d w₀.tree.root)).full cap = true)
    (hanc : exclusive = true → ∀ j < d, (w₀.mem (descend w₀.mem key j w₀.tree.root)).full cap = false)
    (hh : Holding w₀ w (descentHolds w₀.mem (insertMode exclusive)
      (pathParent w₀.mem key w₀.tree.root d) (descend w₀.mem key d w₀.tree.root)))
    (ht : w.tree = w₀.tree) (hm : w.mem = w₀.mem) :
    Wp (fullNode cap split exclusive (pathParent w₀.mem key w₀.tree.root d)
        (descend w₀.mem key d w₀.tree.root) (w₀.mem (descend w₀.mem key d w₀.tree.root))) w
      (PassEnd cap mf key value exclusive w₀)
      (fun e w' => Thrown w₀ w' e ∧ e ≠ .outOfFuel ∧ Kept cap mf w₀ w') := by
  cases exclusive with
  | false =>
    simp only [fullNode, Bool.not_false, if_true]
    refine wp_unfixPage_bind hh (List.mem_cons_self _ _) (fun h => by cases h) (fun h => by cases h) _
      fun w₁ hh₁ ht₁ hm₁ => ?_
    rw [descentHolds, List.erase_cons_head] at hh₁
    refine wp_unfixParent_bind [] hh₁ _ fun w₂ hh₂ ht₂ hm₂ => ?_
    have htree : w₂.tree = w₀.tree := ht₂.trans (ht₁.trans ht)
    have hmem : w₂.mem = w₀.mem := hm₂.trans (hm₁.trans hm)
    rw [wp_pure]
    exact ⟨by rw [htree, hmem]; exact hw, by rw [htree, hmem], hh₂, rfl, hmem, htree⟩
  | true =>
    simp only [fullNode, Bool.not_true, Bool.false_eq_true, if_false]
    rw [wp_bind]
    have hpost : ∀ (u : Unit) (w' : World K V), (Holding w₀ w' [] ∧ Wf cap mf w'.mem w'.tree ∧
        contents w'.mem w'.tree = contents w₀.mem w₀.tree ∧
        Prod.Lex (· < ·) (· < ·) (measure cap w'.mem w'.tree) (measure cap w₀.mem w₀.tree)) →
        Wp ((fun _ => pure (Pass.restart false)) u) w' (PassEnd cap mf key value true w₀)
          (fun e w' => Thrown w₀ w' e ∧ e ≠ .outOfFuel ∧ Kept cap mf w₀ w') :=
      fun _ _ ⟨hh', hwf, hc, hμ⟩ => ⟨hwf, hc, hh', rfl, hμ⟩
    cases d with
    | zero => exact wp_mono (wp_splitNode_root hw hcap hfull split hsplit hh ht hm) hpost fun _ _ h => h
    | succ d =>
      have hroom : (w₀.mem (descend w₀.mem key d w₀.tree.root)).count < cap.inner := by
        have hleaf := (hw.inner_step key (d := d) (by omega)).1
        simpa [Node.full, hleaf, Node.innerHasSpace] using hanc rfl d (Nat.lt_succ_self d)
      exact wp_mono (wp_splitNode_child hw hcap key hd hroom hfull split hsplit hh ht hm) hpost
        fun _ _ h => h

/-- The descent of a pass of `insert` from `d` steps down `key`'s path, on an exclusive
pass under ancestors that are not full, ends as `PassEnd` says; or it throws, out of fuel
only with less fuel than the path has steps left, leaving the tree `Kept`. -/
theorem wp_insertDescend (hw : Wf cap mf w₀.mem w₀.tree) (hcap : Fits cap mf) (key : K) (value : V)
    (exclusive : Bool) :
    ∀ (fuel d : Nat) (w : World K V), d ≤ w₀.tree.treeHeight - 1 →
      (exclusive = true → ∀ j < d, (w₀.mem (descend w₀.mem key j w₀.tree.root)).full cap = false) →
      Holding w₀ w (descentHolds w₀.mem (insertMode exclusive)
        (pathParent w₀.mem key w₀.tree.root d) (descend w₀.mem key d w₀.tree.root)) →
      w.tree = w₀.tree → w.mem = w₀.mem →
      Wp (insertDescend cap key value exclusive fuel (pathParent w₀.mem key w₀.tree.root d)
          (descend w₀.mem key d w₀.tree.root)) w
        (PassEnd cap mf key value exclusive w₀)
        (fun e w' => Thrown w₀ w' e ∧ (e = .outOfFuel → fuel + d < w₀.tree.treeHeight) ∧
          Kept cap mf w₀ w')
  | 0, d, w, hd, _, hh, ht, hm => by
    have := length_parentHold w₀.mem (insertMode exclusive) (pathParent w₀.mem key w₀.tree.root d)
    exact ⟨.fuel hh (by simp [descentHolds]; omega), fun _ => by have := hw.height_pos; omega,
      Kept.of_eq hw ht hm⟩
  | fuel + 1, d, w, hd, hanc, hh, ht, hm => by
    have hthrow : ∀ e w', Thrown w₀ w' e ∧ e ≠ .outOfFuel ∧ Kept cap mf w₀ w' →
        Thrown w₀ w' e ∧ (e = .outOfFuel → fuel + 1 + d < w₀.tree.treeHeight) ∧ Kept cap mf w₀ w' :=
      fun _ _ ⟨h, hne, hk⟩ => ⟨h, fun e => absurd e hne, hk⟩
    rw [insertDescend]
    refine wp_getData_bind hh (List.mem_cons_self _ _) _ ?_
    rw [hm]
    rcases Nat.lt_or_ge d (w₀.tree.treeHeight - 1) with hlt | hge
    · obtain ⟨hleaf, hpos, hchild, hne⟩ := hw.inner_step key hlt
      have hsplit : ∀ o, Node.innerSplit (w₀.mem (descend w₀.mem key d w₀.tree.root)) o =
          (w₀.mem (descend w₀.mem key d w₀.tree.root)).split o := fun o => by simp [Node.split, hleaf]
      simp only [hleaf, Bool.not_false, if_true]
      cases hsp : (w₀.mem (descend w₀.mem key d w₀.tree.root)).innerHasSpace cap with
      | false =>
        simp only [Bool.not_false, if_true]
        exact wp_mono (wp_fullNode hw hcap key value hd _ hsplit (by simp [Node.full, hleaf, hsp])
          hanc hh ht hm) (fun _ _ h => h) hthrow
      | true =>
        simp only [Bool.not_true, Bool.false_eq_true, if_false]
        refine wp_check_bind _ _ hpos.le ?_
        rw [hchild, hw.insertMode_descend key exclusive hlt]
        refine wp_moveDown_bind hh hne _ (fun w' hh' ht' hm' => ?_) fun e w' hh' ht' hm' hc => ?_
        · have hanc' : exclusive = true → ∀ j < d + 1,
              (w₀.mem (descend w₀.mem key j w₀.tree.root)).full cap = false := fun hx j hj => by
            rcases Nat.lt_succ_iff_lt_or_eq.mp hj with hj | rfl
            · exact hanc hx j hj
            · simp [Node.full, hleaf, hsp]
          exact wp_mono (wp_insertDescend hw hcap key value exclusive fuel (d + 1) w' (by omega) hanc'
            hh' (ht'.trans ht) (hm'.trans hm)) (fun _ _ h => h)
            fun _ _ ⟨h, hf, hk⟩ => ⟨h, fun e => by have := hf e; omega, hk⟩
        · exact ⟨.fix hh' (by simp) hc e, by simp, Kept.of_eq hw (ht'.trans ht) (hm'.trans hm)⟩
    · obtain rfl : d = w₀.tree.treeHeight - 1 := le_antisymm hd hge
      obtain ⟨hleaf, -, -⟩ := hw.leaf key
      have hsplit : ∀ o, Node.leafSplit (w₀.mem (leafFor w₀.mem w₀.tree key)) o =
          (w₀.mem (leafFor w₀.mem w₀.tree key)).split o := fun o => by simp [Node.split, hleaf]
      simp only [hleaf, Bool.not_true, Bool.false_eq_true, if_false]
      cases hsp : (w₀.mem (leafFor w₀.mem w₀.tree key)).leafHasSpace cap with
      | false =>
        simp only [Bool.not_false, if_true]
        exact wp_mono (wp_fullNode hw hcap key value hd _ hsplit (by simp [Node.full, hleaf, hsp])
          hanc hh ht hm) (fun _ _ h => h) hthrow
      | true =>
        simp only [Bool.not_true, Bool.false_eq_true, if_false]
        obtain ⟨n', hins, hw', hc'⟩ :=
          leafInsert_update hw value (by simpa [Node.leafHasSpace] using hsp)
        refine wp_liftAssert_bind hins _ ?_
        generalize pathParent w₀.mem key w₀.tree.root (w₀.tree.treeHeight - 1) = parent at hh ⊢
        have hpar : ∀ p ∈ parent, p ≠ leafFor w₀.mem w₀.tree key := fun p hp e => by
          have := hh.nodup
          subst hp
          simp [descentHolds, parentHold, e] at this
        have hex : insertMode exclusive (w₀.mem (leafFor w₀.mem w₀.tree key)).level = true := by
          rw [insertMode, Bool.or_eq_true]; exact .inr hleaf
        refine wp_setData_bind hh (List.mem_cons_self _ _) hex n' _ fun w₁ hh₁ ht₁ hm₁ => ?_
        rw [markWritten_descentHolds hpar] at hh₁
        refine wp_unfixPage_bind hh₁ (List.mem_cons_self _ _) (fun _ => rfl) (fun _ => hex) _
          fun w₂ hh₂ ht₂ hm₂ => ?_
        rw [List.erase_cons_head] at hh₂
        refine wp_unfixParent_bind [] hh₂ _ fun w₃ hh₃ ht₃ hm₃ => ?_
        have hmem : w₃.mem = Function.update w₀.mem (leafFor w₀.mem w₀.tree key) n' := by
          rw [hm₃, hm₂, hm₁, hm]
        have htree : w₃.tree = w₀.tree := ht₃.trans (ht₂.trans (ht₁.trans ht))
        rw [wp_pure]
        exact ⟨by rw [hmem, htree]; exact hw', by rw [hmem, htree]; exact hc', hh₃⟩

/-- A pass of `insert` from a sound world over a well-formed tree ends as `PassEnd` says, or
throws, out of fuel only with less fuel than the tree's height, leaving the tree `Kept`. -/
theorem wp_insertPass (hw : Wf cap mf w₀.mem w₀.tree) (hs : w₀.Sound) (hcap : Fits cap mf)
    (key : K) (value : V) (exclusive : Bool) (fuel : Nat) :
    Wp (insertPass cap key value exclusive fuel) w₀ (PassEnd cap mf key value exclusive w₀)
      (fun e w' => Thrown w₀ w' e ∧ (e = .outOfFuel → fuel < w₀.tree.treeHeight) ∧
        Kept cap mf w₀ w') := by
  rw [insertPass, wp_get_bind, wp_get_bind, hw.insertMode_root]
  refine wp_fixPage_bind (.start hs) (by simp) (by simp) _ (fun w₁ hh₁ ht₁ hm₁ => ?_)
    fun e w₁ hh₁ ht₁ hm₁ hc => ⟨.fix hh₁ (by simp) hc e, by simp, Kept.of_eq hw ht₁ hm₁⟩
  rw [wp_get_bind, ht₁, if_neg (not_not.mpr rfl)]
  exact wp_mono (wp_insertDescend hw hcap key value exclusive fuel 0 w₁ (Nat.zero_le _)
    (fun _ _ hj => absurd hj (Nat.not_lt_zero _)) hh₁ ht₁ hm₁) (fun _ _ h => h)
    fun _ _ ⟨h, hf, hk⟩ => ⟨h, fun e => by have := hf e; omega, hk⟩

end pass

-- ============================================================ fuel

section fuel

variable {α β : Type}

/-- A run given less fuel ends as the run given more, unless it runs out of fuel. -/
def FuelLe (r r' : EStateM.Result TreeError (World K V) α) : Prop :=
  (∃ w, r = .error .outOfFuel w) ∨ r = r'

theorem FuelLe.refl (r : EStateM.Result TreeError (World K V) α) : FuelLe r r := .inr rfl

theorem FuelLe.trans {r r' r'' : EStateM.Result TreeError (World K V) α} (h : FuelLe r r')
    (h' : FuelLe r' r'') : FuelLe r r'' := by
  rcases h with h | rfl
  · exact .inl h
  · exact h'

/-- A run with enough fuel not to run out is the run with any more. -/
theorem FuelLe.eq {r r' : EStateM.Result TreeError (World K V) α} (h : FuelLe r r')
    (hr : ∀ w, r ≠ .error .outOfFuel w) : r' = r := by
  rcases h with ⟨w, h⟩ | h
  · exact absurd h (hr w)
  · exact h.symm

/-- Continuations that compare so compare so after the same first step. -/
theorem FuelLe.bind (x : TreeM K V β) {f g : β → TreeM K V α} (w : World K V)
    (h : ∀ b w', FuelLe (f b w') (g b w')) : FuelLe ((x >>= f) w) ((x >>= g) w) := by
  show FuelLe (EStateM.bind x f w) (EStateM.bind x g w)
  unfold EStateM.bind
  rcases x w with ⟨b, w'⟩ | ⟨e, w'⟩
  · exact h b w'
  · exact .refl _

variable [LinearOrder K] (cap : Capacity) (key : K) (value : V) (exclusive : Bool)

theorem insertDescend_fuelLe :
    ∀ (fuel : Nat) (parent : Option Pid) (current : Pid) (w : World K V),
      FuelLe (insertDescend cap key value exclusive fuel parent current w)
        (insertDescend cap key value exclusive (fuel + 1) parent current w)
  | 0, _, _, w => .inl ⟨w, rfl⟩
  | fuel + 1, parent, current, w => by
    rw [insertDescend, insertDescend]
    refine FuelLe.bind _ _ fun node w₁ => ?_
    dsimp only
    split_ifs
    · exact .refl _
    · exact FuelLe.bind _ _ fun _ w₂ => FuelLe.bind _ _ fun _ w₃ =>
        insertDescend_fuelLe fuel _ _ w₃
    · exact .refl _
    · exact .refl _

theorem insertPass_fuelLe (fuel : Nat) (w : World K V) :
    FuelLe (insertPass cap key value exclusive fuel w) (insertPass cap key value exclusive (fuel + 1) w) := by
  rw [insertPass, insertPass]
  refine FuelLe.bind _ _ fun _ w₁ => FuelLe.bind _ _ fun _ w₂ => FuelLe.bind _ _ fun _ w₃ =>
    FuelLe.bind _ _ fun _ w₄ => ?_
  dsimp only
  split_ifs
  · exact .refl _
  · exact insertDescend_fuelLe cap key value exclusive fuel _ _ w₄

/-- A pass that does not run out of fuel ends the same with any more. -/
theorem insertPass_stable {fuel fuel' : Nat} (hf : fuel ≤ fuel') (w : World K V)
    (hr : ∀ w', insertPass cap key value exclusive fuel w ≠ .error .outOfFuel w') :
    insertPass cap key value exclusive fuel' w = insertPass cap key value exclusive fuel w := by
  refine FuelLe.eq ?_ hr
  induction fuel', hf using Nat.le_induction with
  | base => exact .refl _
  | succ n _ ih => exact ih.trans (insertPass_fuelLe cap key value exclusive n w)

end fuel

-- ============================================================ the loop

section loop

variable {cap : Capacity} {mf : Nat}

/-- The order the restarts of `insert` descend in: the measure of the tree, then an
exclusive pass before a shared one. -/
def restartRank (cap : Capacity) (p : Bool × World K V) : (Nat × Nat) × Nat :=
  (measure cap p.2.mem p.2.tree, if p.1 then 0 else 1)

theorem restartRank_wf (cap : Capacity) :
    WellFounded (InvImage (Prod.Lex (Prod.Lex (· < ·) (· < ·)) (· < ·)) (restartRank (K := K) (V := V) cap)) :=
  InvImage.wf _ (WellFounded.prod_lex (WellFounded.prod_lex wellFounded_lt wellFounded_lt) wellFounded_lt)

variable [LinearOrder K]

/-- A restart ranks below the pass that made it. -/
theorem restartRank_lt {key : K} {value : V} {exclusive ex : Bool} {w₀ w₁ : World K V}
    (h : PassEnd cap mf key value exclusive w₀ (.restart ex) w₁) :
    Prod.Lex (Prod.Lex (· < ·) (· < ·)) (· < ·) (restartRank cap (ex, w₁))
      (restartRank cap (exclusive, w₀)) := by
  obtain ⟨-, -, -, h⟩ := h
  cases exclusive with
  | true => obtain ⟨rfl, hμ⟩ := h; exact .left _ _ hμ
  | false =>
    obtain ⟨rfl, hm, ht⟩ := h
    simp only [restartRank, hm, ht, if_true, Bool.false_eq_true, if_false]
    exact .right _ Nat.zero_lt_one

/-- The loop of `insert` from a sound world over a well-formed tree: for some bound, every
run binds the pair, keeping the tree well formed and releasing every latch; or it throws,
out of fuel only below the bound, leaving the tree `Kept`. -/
theorem wp_insertLoop (hcap : Fits cap mf) (key : K) (value : V) :
    ∀ (exclusive : Bool) (w₀ : World K V), Wf cap mf w₀.mem w₀.tree → w₀.Sound →
      ∃ n, ∀ fuel, Wp (insertLoop cap key value fuel exclusive) w₀
        (fun _ w => Wf cap mf w.mem w.tree ∧
          contents w.mem w.tree = Function.update (contents w₀.mem w₀.tree) key (some value) ∧
          Holding w₀ w [])
        (fun e w => Thrown w₀ w e ∧ (e = .outOfFuel → fuel < n) ∧ Kept cap mf w₀ w) := by
  suffices h : ∀ p : Bool × World K V, Wf cap mf p.2.mem p.2.tree → p.2.Sound →
      ∃ n, ∀ fuel, Wp (insertLoop cap key value fuel p.1) p.2
        (fun _ w => Wf cap mf w.mem w.tree ∧
          contents w.mem w.tree = Function.update (contents p.2.mem p.2.tree) key (some value) ∧
          Holding p.2 w [])
        (fun e w => Thrown p.2 w e ∧ (e = .outOfFuel → fuel < n) ∧ Kept cap mf p.2 w) from
    fun exclusive w₀ => h (exclusive, w₀)
  intro p
  apply (restartRank_wf cap).induction p
  rintro ⟨x, w₀⟩ ih hw hs
  dsimp only at ih hw hs ⊢
  -- the loop after a restart, by the induction hypothesis
  have hstep : ∀ ex w₁, PassEnd cap mf key value x w₀ (.restart ex) w₁ → ∃ n₁, ∀ fuel,
      Wp (insertLoop cap key value fuel ex) w₁
        (fun _ w => Wf cap mf w.mem w.tree ∧
          contents w.mem w.tree = Function.update (contents w₀.mem w₀.tree) key (some value) ∧
          Holding w₀ w [])
        (fun e w => Thrown w₀ w e ∧ (e = .outOfFuel → fuel < n₁) ∧ Kept cap mf w₀ w) := by
    intro ex w₁ hp
    have hrank := restartRank_lt hp
    obtain ⟨hw₁, hc₁, hh₁, -⟩ := hp
    obtain ⟨n₁, h₁⟩ := ih (ex, w₁) hrank hw₁ hh₁.sound
    refine ⟨n₁, fun fuel => wp_mono (h₁ fuel) (fun _ w ⟨hw, hc, hh⟩ => ⟨hw, by rw [hc, hc₁], hh₁.trans hh⟩)
      fun e w ⟨h, hf, hk⟩ => ⟨h.trans hh₁, hf, hk.trans hc₁⟩⟩
  -- with less fuel than the height, a pass may run out, and so may the loop
  have hsmall : ∀ n f, f < w₀.tree.treeHeight → w₀.tree.treeHeight < n →
      Wp (insertLoop cap key value (f + 1) x) w₀
        (fun _ w => Wf cap mf w.mem w.tree ∧
          contents w.mem w.tree = Function.update (contents w₀.mem w₀.tree) key (some value) ∧
          Holding w₀ w [])
        (fun e w => Thrown w₀ w e ∧ (e = .outOfFuel → f + 1 < n) ∧ Kept cap mf w₀ w) := by
    intro n f hf hn
    rw [insertLoop, wp_bind]
    refine wp_mono (wp_insertPass hw hs hcap key value x f) (fun p w₁ hp => ?_)
      fun e w ⟨h, _, hk⟩ => ⟨h, fun _ => by omega, hk⟩
    cases p with
    | done => exact hp
    | restart ex =>
      obtain ⟨n₁, h₁⟩ := hstep ex w₁ hp
      exact wp_mono (h₁ f) (fun _ _ h => h) fun e w ⟨h, _, hk⟩ => ⟨h, fun _ => by omega, hk⟩
  -- with more, every pass ends as the pass given exactly the height
  obtain ⟨n, hn, hbig⟩ : ∃ n, w₀.tree.treeHeight < n ∧ ∀ f, w₀.tree.treeHeight ≤ f →
      Wp (insertLoop cap key value (f + 1) x) w₀
        (fun _ w => Wf cap mf w.mem w.tree ∧
          contents w.mem w.tree = Function.update (contents w₀.mem w₀.tree) key (some value) ∧
          Holding w₀ w [])
        (fun e w => Thrown w₀ w e ∧ (e = .outOfFuel → f + 1 < n) ∧ Kept cap mf w₀ w) := by
    have hcan := wp_insertPass hw hs hcap key value x w₀.tree.treeHeight
    unfold Wp at hcan
    rcases hr : insertPass cap key value x w₀.tree.treeHeight w₀ with ⟨p, w₁⟩ | ⟨e, w₁⟩ <;>
      rw [hr] at hcan
    · have hstable : ∀ f, w₀.tree.treeHeight ≤ f → insertPass cap key value x f w₀ = .ok p w₁ :=
        fun f hf => (insertPass_stable cap key value x hf w₀ (by rw [hr]; nofun)).trans hr
      cases p with
      | done =>
        refine ⟨w₀.tree.treeHeight + 1, by omega, fun f hf => ?_⟩
        rw [insertLoop, wp_bind, Wp, hstable f hf]
        exact hcan
      | restart ex =>
        obtain ⟨n₁, h₁⟩ := hstep ex w₁ hcan
        refine ⟨max (w₀.tree.treeHeight + 1) (n₁ + 1), by omega, fun f hf => ?_⟩
        rw [insertLoop, wp_bind, Wp, hstable f hf]
        exact wp_mono (h₁ f) (fun _ _ h => h) fun e w ⟨h, hb, hk⟩ => ⟨h, fun he => by
          have := hb he; omega, hk⟩
    · obtain ⟨hth, hb, hk⟩ := hcan
      have hne : e ≠ .outOfFuel := fun he => by have := hb he; omega
      refine ⟨w₀.tree.treeHeight + 1, by omega, fun f hf => ?_⟩
      rw [insertLoop, wp_bind, Wp, (insertPass_stable cap key value x hf w₀ (by
        rw [hr]; intro w' h; injection h with h; exact hne h)).trans hr]
      exact ⟨hth, fun h => absurd h hne, hk⟩
  refine ⟨n, fun fuel => ?_⟩
  cases fuel with
  | zero => exact ⟨.fuel (.start hs) (by simp), fun _ => by omega, Kept.refl hw⟩
  | succ f =>
    rcases Nat.lt_or_ge f w₀.tree.treeHeight with hf | hf
    · exact hsmall n f hf hn
    · exact hbig f hf

end loop

end BTree

end SimpleDb
