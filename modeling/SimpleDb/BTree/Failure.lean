import SimpleDb.BTree.Session

/-!
What a `fix_page` that throws `buffer_full_error` leaves behind.

# No handler

The tree's code has no handler for the buffer manager's exceptions: one thrown by
`fix_page` leaves the operation at the point it was thrown. The latches held there stay
taken, the parent's when a child's fix throws in a descent (`twoLevelWorld`: one frame, the
root fixed, its child not resident). And a split has written both halves before
`grow_root` fixes the new root, so when that fix throws, the upper half sits on a page no
node links, and the tree binds only the keys up to the separator (`fullLeafWorld`: two
frames, both fixed by the split). Both runs are computed below.

# What holds

The latches left taken are those held at the throw, at most two, every other one given
back once; the map is the one before the call, except after the throw of `grow_root`'s
fix, where it is the old map up to the split root's separator (`fix_error_leaves`).
-/

namespace SimpleDb

namespace BTree

-- ============================================================ two runs that throw

/-- A root over the leaves on pages one and two, separated at `5`. -/
def twoLevelRoot : Node Nat Nat := ⟨1, 2, fun _ => 5, fun _ => 0, fun i => if i = 0 then 1 else 2⟩

/-- One frame, and `twoLevelRoot` on page zero over empty leaves. -/
def twoLevelWorld : World Nat Nat :=
  { World.init (BufferManager.new 1 fun p => if p = 0 then twoLevelRoot else emptyLeaf) 0 with
    tree := ⟨0, 0, 3, 2⟩ }

/-- Two frames, and `fullLeaf` on page zero as the root. -/
def fullLeafWorld : World Nat Nat :=
  { World.init (BufferManager.new 2 fun p => if p = 0 then fullLeaf else emptyLeaf) 0 with
    tree := ⟨0, 0, 1, 1⟩ }

theorem wfSub_emptyLeaf {pages : Pid → Node Nat Nat} {p : Pid} (hp : pages p = emptyLeaf)
    (lo hi : Option Nat) : WfSub ⟨4, 4⟩ 2 pages 0 lo hi p := by
  refine ⟨by rw [hp]; rfl, by rw [hp]; decide, fun _ _ _ h => ?_, ?_⟩
  · rw [hp] at h; exact absurd h (Nat.not_lt_zero _)
  · rw [hp]; simp [emptyLeaf, Node.entries, slots]

theorem twoLevelWorld_wf : Wf ⟨4, 4⟩ 2 twoLevelWorld.mem twoLevelWorld.tree := by
  have hr : twoLevelWorld.mem 0 = twoLevelRoot := rfl
  refine ⟨by decide, ?_, by decide, by decide⟩
  show WfSub _ _ _ 1 none none 0
  refine ⟨by rw [hr]; rfl, by rw [hr]; decide, by rw [hr]; decide, by rw [hr]; decide,
    fun i j h h' => ?_, by rw [hr]; simp [twoLevelRoot, Node.sepList, slots, Inside], fun i hi => ?_⟩
  · rw [hr] at h'; change j < 1 at h'; omega
  · rw [hr] at hi ⊢
    refine wfSub_emptyLeaf (if_neg ?_) _ _
    change (if i = 0 then 1 else 2) ≠ 0
    split <;> decide

theorem fullLeafWorld_wf : Wf ⟨4, 4⟩ 2 fullLeafWorld.mem fullLeafWorld.tree :=
  wf_fullLeaf rfl

/-- Both worlds are sound, and their trees well formed at the spec's capacities; yet a
`lookup` in the first throws holding the root's latch, which it took, and an `insert` in
the second throws having lost the binding of `3`. -/
theorem fix_error_keeps_latch_and_drops_keys :
    (twoLevelWorld.Sound ∧ Wf ⟨4, 4⟩ 2 twoLevelWorld.mem twoLevelWorld.tree ∧
      ∃ w, lookup 5 3 twoLevelWorld = .error (.buffer .bufferFull) w ∧
        w.trace = [.fix 0 false] ∧ (w.bm.frame 0).pageLatch ≠ .unlocked) ∧
    (fullLeafWorld.Sound ∧ Wf ⟨4, 4⟩ 2 fullLeafWorld.mem fullLeafWorld.tree ∧
      ∃ w, BTree.insert ⟨4, 4⟩ 5 0 3 fullLeafWorld = .error (.buffer .bufferFull) w ∧
        contents fullLeafWorld.mem fullLeafWorld.tree 3 = some 2 ∧ contents w.mem w.tree 3 = none) :=
  ⟨⟨⟨BufferManager.inv_new 1 _, BufferManager.Coherent.new 1 _⟩, twoLevelWorld_wf,
      _, rfl, by decide, by decide⟩,
    ⟨⟨BufferManager.inv_new 2 _, BufferManager.Coherent.new 2 _⟩, fullLeafWorld_wf,
      _, rfl, by decide, by decide⟩⟩

-- ============================================================ what holds

section leaves

variable {K V : Type} [LinearOrder K] {cap : Capacity} {mf : Nat} {w₀ : World K V}

/-- On a well-formed tree in a sound world, a call that throws from `fix_page` has given
back once every latch it took but at most two, those it held at the throw; and it leaves
the map as it was, or it is an `insert` whose `grow_root` threw after the root's split,
which leaves the old map up to the root's separator (`RootCut`). -/
theorem fix_error_leaves (hi : 3 ≤ cap.inner) (hl : 2 ≤ cap.leaf) (hw : Wf cap mf w₀.mem w₀.tree)
    (hs : w₀.Sound) (c : Call K V) (fuel : Nat) :
    Wp (c.run cap fuel) w₀ (fun _ _ => True)
      (fun e w => ∀ be, e = .buffer be →
        (∃ evs held, w.trace = w₀.trace ++ evs ∧ latchHolds [] evs = some held ∧ held.length ≤ 2) ∧
        (contents w.mem w.tree = contents w₀.mem w₀.tree ∨
          (∃ key value, c = .insert key value) ∧ RootCut cap 0 w₀ w)) := by
  have hlatch : ∀ {w e}, Thrown w₀ w e →
      ∃ evs held, w.trace = w₀.trace ++ evs ∧ latchHolds [] evs = some held ∧ held.length ≤ 2 :=
    fun h => by
      obtain ⟨held, hh, hlen⟩ := h.holds
      obtain ⟨evs, ht, hl, -⟩ := hh.trace
      exact ⟨evs, held.map Hold.pid, ht, hl, by simpa using hlen⟩
  have hw0 := hw.fanout_le (Nat.zero_le mf)
  cases c with
  | insert key value =>
    obtain ⟨_, h⟩ := wp_insertLoop (Fits.zero hi hl) key value false w₀ hw0 hs
    rw [Call.run, wp_bind]
    refine wp_mono (h fuel) (fun _ _ _ => trivial) fun e w ⟨ht, _, _, hk⟩ be _ => ⟨hlatch ht, ?_⟩
    exact hk.imp_right fun h => ⟨⟨key, value, rfl⟩, h⟩
  | erase key =>
    rw [Call.run, wp_bind]
    refine wp_mono (wp_erase hw0 hs key fuel) (fun _ _ _ => trivial)
      fun e w ⟨ht, _, htr, hm⟩ be _ => ⟨hlatch ht, .inl (by rw [htr, hm])⟩
  | lookup key =>
    refine wp_mono (wp_lookup hw0 hs key fuel) (fun _ _ _ => trivial)
      fun e w ⟨ht, _, htr, hm⟩ be _ => ⟨hlatch ht, .inl (by rw [htr, hm])⟩

theorem fix_error_leaves_twoLevel :
    3 ≤ (⟨4, 4⟩ : Capacity).inner ∧ 2 ≤ (⟨4, 4⟩ : Capacity).leaf ∧
    Wf ⟨4, 4⟩ 2 twoLevelWorld.mem twoLevelWorld.tree ∧ twoLevelWorld.Sound ∧
    ∀ (c : Call Nat Nat) (fuel : Nat),
      Wp (c.run ⟨4, 4⟩ fuel) twoLevelWorld (fun _ _ => True)
        (fun e w => ∀ be, e = .buffer be →
          (∃ evs held, w.trace = twoLevelWorld.trace ++ evs ∧ latchHolds [] evs = some held ∧
            held.length ≤ 2) ∧
          (contents w.mem w.tree = contents twoLevelWorld.mem twoLevelWorld.tree ∨
            (∃ key value, c = .insert key value) ∧ RootCut ⟨4, 4⟩ 0 twoLevelWorld w)) :=
  have hi : 3 ≤ (⟨4, 4⟩ : Capacity).inner := by decide
  have hl : 2 ≤ (⟨4, 4⟩ : Capacity).leaf := by decide
  have hs : twoLevelWorld.Sound := ⟨BufferManager.inv_new 1 _, BufferManager.Coherent.new 1 _⟩
  ⟨hi, hl, twoLevelWorld_wf, hs, fix_error_leaves hi hl twoLevelWorld_wf hs⟩

end leaves

end BTree

end SimpleDb
