import SimpleDb.BTree.Insert

/-!
One thread's use of a tree: the constructor, then calls of `insert`, `erase` and `lookup`,
against the finite map they stand for.

# Calls

A `Call` is one call of the interface; `Call.run` runs it on the tree with its own fuel for
the loops, and `Call.apply`, `Call.answer` are what it does to a finite map and what it
returns there. Each call has one spec, `wp_call`, assembled from the operation's own: it
returns what the map answers and leaves the map the call makes, the tree well formed and
every latch as it found it; or it throws, out of fuel only below a bound that depends on
the tree alone.

# Sessions

`runCalls` runs a list of calls one after the other, an exception ending the list, and
`session` runs the constructor first. By induction over the list, the answers of a run
that returns are those of the map (`wp_runCalls`), and from a clean start there is fuel
for every call (`runCalls_exists`). `Reachable` lets a thread go on after a call that
threw, as a caller catching the exception would: the tree stays well formed all the same.

# Fan-out

The invariant is stated at a minimum fan-out `mf`; it holds at every smaller one
(`Wf.fanout_le`), and capacities of three children and two pairs fit fan-out zero
(`Fits.zero`), which is all the operations' specs ask of them.
-/

namespace SimpleDb

namespace BTree

variable {K V : Type}

-- ============================================================ fan-out

section fanout

variable [LinearOrder K] {cap : Capacity} {mf mf' : Nat} {pages : Pid → Node K V}

theorem WfSub.fanout_le (hle : mf' ≤ mf) :
    ∀ {h : Nat} {lo hi : Option K} {p : Pid}, WfSub cap mf pages h lo hi p → WfSub cap mf' pages h lo hi p
  | 0, _, _, _, hw => hw
  | _ + 1, _, _, _, ⟨hl, h1, hmf, hc, hinc, hsep, hch⟩ =>
    ⟨hl, h1, hle.trans hmf, hc, hinc, hsep, fun i hi => WfSub.fanout_le hle (hch i hi)⟩

/-- A tree well formed at a fan-out is well formed at any smaller one. -/
theorem Wf.fanout_le {t : BTree} (hle : mf' ≤ mf) (hw : Wf cap mf pages t) : Wf cap mf' pages t :=
  ⟨hw.height_pos, hw.sub.fanout_le hle, hw.nodup, hw.minted⟩

/-- Three children and two pairs a node are all the splits need, at fan-out zero. -/
theorem Fits.zero (hi : 3 ≤ cap.inner) (hl : 2 ≤ cap.leaf) : Fits cap 0 :=
  ⟨hl, by omega, hi, by omega⟩

/-- The spec's capacities of four fit fan-out two. -/
theorem Fits.two (hi : 4 ≤ cap.inner) (hl : 2 ≤ cap.leaf) : Fits cap 2 :=
  ⟨hl, by omega, by omega, le_rfl⟩

end fanout

-- ============================================================ the constructor

section create

variable [LinearOrder K] {cap : Capacity} {mf : Nat} {w₀ : World K V}

/-- A tree of one empty leaf, minted by its segment, is well formed and binds nothing. -/
theorem wf_emptyLeaf (cap : Capacity) (mf : Nat) (pages : Pid → Node K V) {s j c : Nat}
    (hl : (pages (pidAt s j)).level = 0) (hc : (pages (pidAt s j)).count = 0) (hj : j < c) :
    Wf cap mf pages ⟨s, pidAt s j, c, 1⟩ ∧ contents pages ⟨s, pidAt s j, c, 1⟩ = fun _ => none := by
  have hent : (pages (pidAt s j)).entries = [] := by simp [Node.entries, slots, hc]
  refine ⟨⟨Nat.one_pos, ⟨hl, by simp [hc], fun _ _ _ h => by simp [hc] at h, by simp [hent]⟩,
    List.nodup_singleton _, fun p hp => ⟨j, hj, List.mem_singleton.mp hp⟩⟩, ?_⟩
  funext k
  simp [contents, entries, subtreeEntries, hent]

/-- `BTree(segment_id, buffer_manager)` from a sound world: an empty leaf as the root, every
latch given back; or `fix_page` throws. -/
theorem wp_create (cap : Capacity) (mf : Nat) (hs : w₀.Sound) :
    Wp (create : TreeM K V Unit) w₀
      (fun _ w => Wf cap mf w.mem w.tree ∧ contents w.mem w.tree = (fun _ => none) ∧
        Holding w₀ w [])
      (fun e w => Thrown w₀ w e ∧ e ≠ .outOfFuel) := by
  rw [create, wp_createNewNode_bind]
  refine wp_fixPage_bind ((Holding.start hs).setTree _) (by simp) (by simp) _
    (fun w₁ hh₁ ht₁ hm₁ => ?_) fun e w₁ hh₁ _ _ hc => ⟨.fix hh₁ (by simp) hc e, nofun⟩
  dsimp only at ht₁ hm₁
  refine wp_getData_bind hh₁ (List.mem_cons_self _ _) _ ?_
  refine wp_setData_bind hh₁ (List.mem_cons_self _ _) rfl _ _ fun w₂ hh₂ ht₂ hm₂ => ?_
  rw [markWritten_cons_self _ (by simp)] at hh₂
  rw [wp_modify_bind, wp_modify_bind]
  refine wp_unfixPage (h := ⟨pidAt w₀.tree.segmentId w₀.tree.nodeCount, true, true⟩)
    ((hh₂.setTree _).setTree _) (by simp) (fun _ => rfl) (fun _ => rfl) fun w₃ hh₃ ht₃ hm₃ => ?_
  have hmem : w₃.mem = Function.update w₀.mem (pidAt w₀.tree.segmentId w₀.tree.nodeCount)
      { w₀.mem (pidAt w₀.tree.segmentId w₀.tree.nodeCount) with level := 0, count := 0 } := by
    rw [hm₃]; dsimp only; rw [hm₂, hm₁]
  have htree : w₃.tree = ⟨w₀.tree.segmentId, pidAt w₀.tree.segmentId w₀.tree.nodeCount,
      w₀.tree.nodeCount + 1, 1⟩ := by
    rw [ht₃]; dsimp only; rw [ht₂, ht₁]
  have hleaf := wf_emptyLeaf cap mf w₃.mem (by rw [hmem, Function.update_same])
    (by rw [hmem, Function.update_same]) (Nat.lt_succ_self w₀.tree.nodeCount)
  rw [htree]
  exact ⟨hleaf.1, hleaf.2, by simpa using hh₃⟩

end create

-- ============================================================ calls

/-- A call of the tree's interface. -/
inductive Call (K V : Type)
  | insert (key : K) (value : V)
  | erase (key : K)
  | lookup (key : K)

namespace Call

variable [LinearOrder K]

/-- The call on the tree, with `fuel` for its loops; `insert` and `erase` return nothing. -/
def run (cap : Capacity) (fuel : Nat) : Call K V → TreeM K V (Option V)
  | .insert key value => do BTree.insert cap key value fuel; pure none
  | .erase key => do BTree.erase key fuel; pure none
  | .lookup key => BTree.lookup key fuel

/-- The call on a finite map: `insert` binds, overwriting; `erase` unbinds. -/
def apply : Call K V → (K → Option V) → K → Option V
  | .insert key value, m => Function.update m key (some value)
  | .erase key, m => Function.update m key none
  | .lookup _, m => m

/-- What the call returns on a finite map. -/
def answer : Call K V → (K → Option V) → Option V
  | .lookup key, m => m key
  | _, _ => none

end Call

section calls

variable [LinearOrder K] {cap : Capacity} {mf : Nat} {w₀ : World K V}

/-- Every call on a well-formed tree in a sound world returns what the map answers, leaves
the map the call makes, keeps the tree well formed and gives back every latch; or it
throws, out of fuel only below a bound of the tree's, leaving the tree `Kept`. -/
theorem wp_call (hw : Wf cap mf w₀.mem w₀.tree) (hs : w₀.Sound) (hcap : Fits cap mf)
    (c : Call K V) :
    ∃ n, ∀ fuel, Wp (c.run cap fuel) w₀
      (fun r w => r = c.answer (contents w₀.mem w₀.tree) ∧ Wf cap mf w.mem w.tree ∧
        contents w.mem w.tree = c.apply (contents w₀.mem w₀.tree) ∧ Holding w₀ w [])
      (fun e w => Thrown w₀ w e ∧ (e = .outOfFuel → fuel < n) ∧ Kept cap mf w₀ w) := by
  cases c with
  | insert key value =>
    obtain ⟨n, h⟩ := wp_insertLoop hcap key value false w₀ hw hs
    refine ⟨n, fun fuel => ?_⟩
    rw [Call.run, wp_bind]
    exact wp_mono (h fuel) (fun _ _ ⟨hw', hc', hh'⟩ => ⟨rfl, hw', hc', hh'⟩) fun _ _ h => h
  | erase key =>
    refine ⟨w₀.tree.treeHeight + 1, fun fuel => ?_⟩
    rw [Call.run, wp_bind]
    refine wp_mono (wp_erase hw hs key fuel) (fun _ _ ⟨hw', hc', hh', _⟩ => ⟨rfl, hw', hc', hh'⟩)
      fun _ _ ⟨h, hf, ht, hm⟩ => ⟨h, fun e => by have := hf e; omega, Kept.of_eq hw ht hm⟩
  | lookup key =>
    refine ⟨w₀.tree.treeHeight + 1, fun fuel => ?_⟩
    refine wp_mono (wp_lookup hw hs key fuel) (fun _ w ⟨hr, hh', ht, hm⟩ => ?_)
      fun _ _ ⟨h, hf, ht, hm⟩ => ⟨h, fun e => by have := hf e; omega, Kept.of_eq hw ht hm⟩
    rw [ht, hm]
    exact ⟨hr, hw, rfl, hh'⟩

end calls

-- ============================================================ sessions

section sessions

variable [LinearOrder K]

/-- Calls one after the other, each with its own fuel; an exception ends the run. -/
def runCalls (cap : Capacity) : List (Call K V × Nat) → TreeM K V (List (Option V))
  | [] => pure []
  | (c, fuel) :: cs => do
    let r ← c.run cap fuel
    let rs ← runCalls cap cs
    pure (r :: rs)

/-- The constructor, then the calls. -/
def session (cap : Capacity) (cs : List (Call K V × Nat)) : TreeM K V (List (Option V)) := do
  create
  runCalls cap cs

/-- What calls return on a finite map, each on the map the calls before it leave. -/
def answers : List (Call K V) → (K → Option V) → List (Option V)
  | [], _ => []
  | c :: cs, m => c.answer m :: answers cs (c.apply m)

variable {cap : Capacity} {mf : Nat}

/-- Calls on a well-formed tree in a sound world return the map's answers, keep the tree
well formed and give back every latch; or they throw as `Thrown` says, the tree well
formed. -/
theorem wp_runCalls (hcap : Fits cap mf) :
    ∀ (cs : List (Call K V × Nat)) (w₀ : World K V), Wf cap mf w₀.mem w₀.tree → w₀.Sound →
      Wp (runCalls cap cs) w₀
        (fun rs w => rs = answers (cs.map Prod.fst) (contents w₀.mem w₀.tree) ∧
          Wf cap mf w.mem w.tree ∧ Holding w₀ w [])
        (fun e w => Thrown w₀ w e ∧ Wf cap mf w.mem w.tree)
  | [], _, hw, hs => ⟨rfl, hw, .start hs⟩
  | (c, fuel) :: cs, w₀, hw, hs => by
    obtain ⟨n, h⟩ := wp_call hw hs hcap c
    rw [runCalls, wp_bind]
    refine wp_mono (h fuel) (fun r w₁ ⟨hr, hw₁, hc₁, hh₁⟩ => ?_) fun _ _ ⟨ht, _, hk⟩ => ⟨ht, hk.1⟩
    rw [wp_bind]
    refine wp_mono (wp_runCalls hcap cs w₁ hw₁ hh₁.sound) (fun rs w ⟨hrs, hw', hh'⟩ => ?_)
      fun _ _ ⟨ht, hw'⟩ => ⟨Thrown.trans hh₁ ht, hw'⟩
    rw [wp_pure]
    exact ⟨by rw [hr, hrs, hc₁]; rfl, hw', hh₁.trans hh'⟩

/-- From a clean start on a well-formed tree, some fuel for each call runs them all. -/
theorem runCalls_exists (hcap : Fits cap mf) :
    ∀ (calls : List (Call K V)) (w₀ : World K V), Wf cap mf w₀.mem w₀.tree → w₀.Sound → w₀.Clean →
      ∃ cs : List (Call K V × Nat), cs.map Prod.fst = calls ∧
        ∃ w, runCalls cap cs w₀ = .ok (answers calls (contents w₀.mem w₀.tree)) w
  | [], w₀, _, _, _ => ⟨[], rfl, w₀, rfl⟩
  | c :: calls, w₀, hw, hs, hc => by
    obtain ⟨n, h⟩ := wp_call hw hs hcap c
    have hn := h n
    unfold Wp at hn
    rcases hr : c.run cap n w₀ with ⟨r, w₁⟩ | ⟨e, w₁⟩ <;> rw [hr] at hn
    · obtain ⟨rfl, hw₁, hc₁, hh₁⟩ := hn
      obtain ⟨cs, hcs, w, hrun⟩ := runCalls_exists hcap calls w₁ hw₁ hh₁.sound (hh₁.clean hc)
      rw [hc₁] at hrun
      refine ⟨(c, n) :: cs, by rw [List.map_cons, hcs], w, ?_⟩
      simp only [runCalls, bind, EStateM.bind, hr, hrun]
      rfl
    · obtain ⟨ht, hb, -⟩ := hn
      exact absurd (hb (ht.outOfFuel_of_clean hc)) (lt_irrefl n)

/-- The constructor and then calls, from a sound world: the answers of the map built from
empty, the tree well formed, every latch given back; or a throw as `Thrown` says. -/
theorem wp_session (hcap : Fits cap mf) {w₀ : World K V} (hs : w₀.Sound) (cs : List (Call K V × Nat)) :
    Wp (session cap cs) w₀
      (fun rs w => rs = answers (cs.map Prod.fst) (fun _ => none) ∧ Wf cap mf w.mem w.tree ∧
        Holding w₀ w [])
      (fun e w => Thrown w₀ w e) := by
  rw [session, wp_bind]
  refine wp_mono (wp_create cap mf hs) (fun _ w₁ ⟨hw₁, hc₁, hh₁⟩ => ?_)
    fun _ _ h => h.1
  refine wp_mono (wp_runCalls hcap cs w₁ hw₁ hh₁.sound)
    (fun rs w ⟨hrs, hw, hh⟩ => ⟨by rw [hrs, hc₁], hw, hh₁.trans hh⟩) fun _ _ ⟨ht, _⟩ => Thrown.trans hh₁ ht

/-- The worlds one thread reaches from `w₀`: the constructor returned, then calls, each run
with its own fuel, going on after a call that threw as a caller catching it would. -/
inductive Reachable (cap : Capacity) (w₀ : World K V) : World K V → Prop
  | construct {w : World K V} : (create : TreeM K V Unit) w₀ = .ok () w → Reachable cap w₀ w
  | call {w w' : World K V} (c : Call K V) (fuel : Nat) (r : Option V) :
      Reachable cap w₀ w → c.run cap fuel w = .ok r w' → Reachable cap w₀ w'
  | callThrew {w w' : World K V} (c : Call K V) (fuel : Nat) (e : TreeError) :
      Reachable cap w₀ w → c.run cap fuel w = .error e w' → Reachable cap w₀ w'

/-- Every reachable world is sound, its tree well formed. -/
theorem Reachable.wf (hcap : Fits cap mf) {w₀ w : World K V} (hs : w₀.Sound)
    (h : Reachable cap w₀ w) : Wf cap mf w.mem w.tree ∧ w.Sound := by
  induction h with
  | construct hr =>
    have h := wp_create cap mf hs
    unfold Wp at h; rw [hr] at h
    exact ⟨h.1, h.2.2.sound⟩
  | call c fuel _ _ hr ih =>
    obtain ⟨_, h⟩ := wp_call ih.1 ih.2 hcap c
    have h := h fuel
    unfold Wp at h; rw [hr] at h
    exact ⟨h.2.1, h.2.2.2.sound⟩
  | callThrew c fuel _ _ hr ih =>
    obtain ⟨_, h⟩ := wp_call ih.1 ih.2 hcap c
    have h := h fuel
    unfold Wp at h; rw [hr] at h
    obtain ⟨held, hh, _⟩ := h.1.holds
    exact ⟨h.2.2.1, hh.sound⟩

end sessions

-- ============================================================ starting worlds

section init

variable {D : Type}

/-- A buffer manager just created, over any segment files, is sound with its blocks as the
page map. -/
theorem World.sound_init (n : Nat) (segments : Pid → Node K V) (segmentId : Nat) :
    (World.init (BufferManager.new n segments) segmentId).Sound :=
  ⟨BufferManager.inv_new n segments, BufferManager.Coherent.new n segments⟩

/-- Nothing is fixed in it. -/
theorem World.clean_init {n : Nat} (hn : 3 ≤ n) (segments : Pid → Node K V) (segmentId : Nat) :
    (World.init (BufferManager.new n segments) segmentId).Clean :=
  ⟨fun q => by simp [BufferManager.Fixed, BufferManager.frame, BufferManager.new, BufferFrame.init,
    World.init], hn⟩

end init

-- ============================================================ what one thread sees

section guarantees

variable [LinearOrder K] {cap : Capacity} {mf : Nat} {w₀ : World K V}

/-- A world of three frames over segments whose every page is an empty leaf, before the
constructor. -/
def freshWorld : World Nat Nat :=
  World.init (BufferManager.new 3 fun _ => ⟨0, 0, fun _ => 0, fun _ => 0, fun _ => 0⟩) 0

/-- The same world after a constructor, the root the first page of the segment. -/
def leafWorld : World Nat Nat :=
  { freshWorld with tree := ⟨0, pidAt 0 0, 1, 1⟩ }

theorem leafWorld_wf (cap : Capacity) (mf : Nat) : Wf cap mf leafWorld.mem leafWorld.tree :=
  (wf_emptyLeaf cap mf _ rfl rfl Nat.one_pos).1

/-- An empty leaf. -/
def emptyLeaf : Node Nat Nat := ⟨0, 0, fun _ => 0, fun _ => 0, fun _ => 0⟩

/-- A leaf full with the keys `1` to `4`, each bound to one less. -/
def fullLeaf : Node Nat Nat := ⟨0, 4, fun i => i + 1, fun i => i, fun _ => 0⟩

/-- `fullLeaf` on page zero is a well-formed tree of height one. -/
theorem wf_fullLeaf {pages : Pid → Node Nat Nat} (hr : pages 0 = fullLeaf) :
    Wf ⟨4, 4⟩ 2 pages ⟨0, 0, 1, 1⟩ := by
  refine ⟨by decide, ?_, List.nodup_singleton 0, fun p hp => ⟨0, Nat.one_pos, List.eq_of_mem_singleton hp⟩⟩
  show WfSub _ _ _ 0 none none 0
  refine ⟨by rw [hr]; rfl, by rw [hr]; decide, fun i j h h' => ?_, by rw [hr]; simp [InRange]⟩
  rw [hr] at h' ⊢
  change i + 1 < j + 1
  omega

/-- Three frames, and `fullLeaf` on page zero as the root: an `insert` of a new key splits
the root and restarts. -/
def fullRootWorld : World Nat Nat :=
  { World.init (BufferManager.new 3 fun p => if p = 0 then fullLeaf else emptyLeaf) 0 with
    tree := ⟨0, 0, 1, 1⟩ }

theorem fullRootWorld_sound : fullRootWorld.Sound :=
  ⟨BufferManager.inv_new 3 _, BufferManager.Coherent.new 3 _⟩

/-- A world and a call: the world after it, whether it returned or threw. -/
theorem Reachable.run {cap : Capacity} {w : World K V} (h : Reachable cap w₀ w) (c : Call K V)
    (fuel : Nat) : Reachable cap w₀ (BufferManager.resultState (c.run cap fuel w)) := by
  cases hr : c.run cap fuel w with
  | ok r w' => exact .call c fuel r h hr
  | error e w' => exact .callThrew c fuel e h hr

/-- The world after the constructor on `freshWorld` and the inserts of the keys `1` to `5`,
each with fuel `8`, whatever each call returned. -/
def fiveInserts : World Nat Nat :=
  [1, 2, 3, 4, 5].foldl (fun w k => BufferManager.resultState ((Call.insert k k).run ⟨4, 4⟩ 8 w))
    (BufferManager.resultState ((create : TreeM Nat Nat Unit) freshWorld))

theorem reachable_fiveInserts : Reachable ⟨4, 4⟩ freshWorld fiveInserts := by
  have h : ∀ (ks : List Nat) (w : World Nat Nat), Reachable ⟨4, 4⟩ freshWorld w →
      Reachable ⟨4, 4⟩ freshWorld
        (ks.foldl (fun w k => BufferManager.resultState ((Call.insert k k).run ⟨4, 4⟩ 8 w)) w) := by
    intro ks
    induction ks with
    | nil => exact fun _ h => h
    | cons k ks ih => exact fun w h => ih _ (h.run _ 8)
  exact h _ _ (.construct rfl)

/-- From a sound world where nothing is fixed and three frames exist, with capacities of
four, every session that returns answers each call as the map its calls build from empty
does, and for any calls some fuel for each runs them all. -/
theorem session_answers_follow_map (hi : 4 ≤ cap.inner) (hl : 4 ≤ cap.leaf) (hs : w₀.Sound)
    (hc : w₀.Clean) :
    (∀ (cs : List (Call K V × Nat)) (rs : List (Option V)) (w : World K V),
      session cap cs w₀ = .ok rs w → rs = answers (cs.map Prod.fst) fun _ => none) ∧
    ∀ calls : List (Call K V), ∃ cs : List (Call K V × Nat), cs.map Prod.fst = calls ∧
      ∃ w, session cap cs w₀ = .ok (answers calls fun _ => none) w := by
  have hcap : Fits cap 2 := Fits.two hi (by omega)
  refine ⟨fun cs rs w h => ?_, fun calls => ?_⟩
  · have hr := wp_session hcap hs cs
    unfold Wp at hr; rw [h] at hr
    exact hr.1
  · have hr := wp_create cap 2 hs
    unfold Wp at hr
    rcases hcr : (create : TreeM K V Unit) w₀ with ⟨⟨⟩, w₁⟩ | ⟨e, w₁⟩ <;> rw [hcr] at hr
    · obtain ⟨hw₁, hc₁, hh₁⟩ := hr
      obtain ⟨cs, hcs, w, hrun⟩ := runCalls_exists hcap calls w₁ hw₁ hh₁.sound (hh₁.clean hc)
      rw [hc₁] at hrun
      exact ⟨cs, hcs, w, by simp only [session, bind, EStateM.bind, hcr, hrun]⟩
    · exact absurd (hr.1.outOfFuel_of_clean hc) hr.2

theorem session_answers_follow_map_fresh :
    4 ≤ (⟨4, 4⟩ : Capacity).inner ∧ 4 ≤ (⟨4, 4⟩ : Capacity).leaf ∧ freshWorld.Sound ∧ freshWorld.Clean ∧
    ((∀ (cs : List (Call Nat Nat × Nat)) (rs : List (Option Nat)) (w : World Nat Nat),
      session ⟨4, 4⟩ cs freshWorld = .ok rs w → rs = answers (cs.map Prod.fst) fun _ => none) ∧
    ∀ calls : List (Call Nat Nat), ∃ cs : List (Call Nat Nat × Nat), cs.map Prod.fst = calls ∧
      ∃ w, session ⟨4, 4⟩ cs freshWorld = .ok (answers calls fun _ => none) w) :=
  have hi : 4 ≤ (⟨4, 4⟩ : Capacity).inner := le_refl 4
  have hl : 4 ≤ (⟨4, 4⟩ : Capacity).leaf := le_refl 4
  have hs : freshWorld.Sound := World.sound_init 3 _ 0
  have hc : freshWorld.Clean := World.clean_init (le_refl 3) _ 0
  ⟨hi, hl, hs, hc, session_answers_follow_map hi hl hs hc⟩

/-- With capacities of four, every world one thread reaches from a sound world by the
constructor and calls, returned or thrown, is sound and holds a well-formed tree of fan-out
two in the pages the buffer manager hands out, and no call from it fails an assertion:
`insert_split` in particular always has room and a new separator. -/
theorem reachable_wf (hi : 4 ≤ cap.inner) (hl : 2 ≤ cap.leaf) (hs : w₀.Sound) {w : World K V}
    (h : Reachable cap w₀ w) :
    Wf cap 2 w.mem w.tree ∧ w.Sound ∧ w.bm.view = w.mem ∧
    ∀ (c : Call K V) (fuel : Nat) (e : TreeError) (w' : World K V),
      c.run cap fuel w = .error e w' → ∀ what, e ≠ .assertion what := by
  have hcap : Fits cap 2 := Fits.two hi hl
  obtain ⟨hw, hsw⟩ := h.wf hcap hs
  refine ⟨hw, hsw, hsw.coherent.view_eq hsw.inv, fun c fuel e w' he what hwhat => ?_⟩
  obtain ⟨_, hc⟩ := wp_call hw hsw hcap c
  have hc := hc fuel
  unfold Wp at hc; rw [he] at hc
  subst hwhat
  rcases hc.1.cause with h1 | ⟨⟨be, h2⟩, _⟩
  · cases h1
  · cases h2

theorem reachable_wf_fiveInserts :
    4 ≤ (⟨4, 4⟩ : Capacity).inner ∧ 2 ≤ (⟨4, 4⟩ : Capacity).leaf ∧ freshWorld.Sound ∧
    Reachable ⟨4, 4⟩ freshWorld fiveInserts ∧
    (Wf ⟨4, 4⟩ 2 fiveInserts.mem fiveInserts.tree ∧ fiveInserts.Sound ∧
      fiveInserts.bm.view = fiveInserts.mem ∧
      ∀ (c : Call Nat Nat) (fuel : Nat) (e : TreeError) (w' : World Nat Nat),
        c.run ⟨4, 4⟩ fuel fiveInserts = .error e w' → ∀ what, e ≠ .assertion what) :=
  have hi : 4 ≤ (⟨4, 4⟩ : Capacity).inner := le_refl 4
  have hl : 2 ≤ (⟨4, 4⟩ : Capacity).leaf := by decide
  have hs : freshWorld.Sound := World.sound_init 3 _ 0
  ⟨hi, hl, hs, reachable_fiveInserts, reachable_wf hi hl hs reachable_fiveInserts⟩

/-- From a sound world where nothing is fixed and three frames exist, with capacities of
four, a session calls `fix_page` holding at most two latches and meets no
`buffer_full_error`; when it returns it has given back every latch it took, once. -/
theorem session_latches_balanced (hi : 4 ≤ cap.inner) (hl : 4 ≤ cap.leaf) (hs : w₀.Sound)
    (hc : w₀.Clean) (cs : List (Call K V × Nat)) :
    Wp (session cap cs) w₀
      (fun _ w => ∃ evs, w.trace = w₀.trace ++ evs ∧ latchHolds [] evs = some [])
      (fun e w => e = .outOfFuel ∧ ∃ evs held, w.trace = w₀.trace ++ evs ∧
        latchHolds [] evs = some held ∧ held.length ≤ 2) := by
  refine wp_mono (wp_session (Fits.two hi (by omega) : Fits cap 2) hs cs) (fun _ w h => ?_)
    fun e w h => ?_
  · obtain ⟨evs, ht, hl, -⟩ := h.2.2.trace
    exact ⟨evs, ht, hl⟩
  · obtain ⟨held, hh, hlen⟩ := h.holds
    obtain ⟨evs, ht, hl, -⟩ := hh.trace
    exact ⟨h.outOfFuel_of_clean hc, evs, held.map Hold.pid, ht, hl, by simpa using hlen⟩

theorem session_latches_balanced_fresh :
    4 ≤ (⟨4, 4⟩ : Capacity).inner ∧ 4 ≤ (⟨4, 4⟩ : Capacity).leaf ∧ freshWorld.Sound ∧
    freshWorld.Clean ∧ ∀ cs : List (Call Nat Nat × Nat),
      Wp (session ⟨4, 4⟩ cs) freshWorld
        (fun _ w => ∃ evs, w.trace = freshWorld.trace ++ evs ∧ latchHolds [] evs = some [])
        (fun e w => e = .outOfFuel ∧ ∃ evs held, w.trace = freshWorld.trace ++ evs ∧
          latchHolds [] evs = some held ∧ held.length ≤ 2) :=
  have hi : 4 ≤ (⟨4, 4⟩ : Capacity).inner := le_refl 4
  have hl : 4 ≤ (⟨4, 4⟩ : Capacity).leaf := le_refl 4
  have hs : freshWorld.Sound := World.sound_init 3 _ 0
  have hc : freshWorld.Clean := World.clean_init (le_refl 3) _ 0
  ⟨hi, hl, hs, hc, session_latches_balanced hi hl hs hc⟩

/-- On a well-formed tree in a sound world, a call of `insert`, `erase` or `lookup` that
returns wrote every page it changed under an exclusive latch and released it dirty, and
released every shared latch clean. -/
theorem call_writes_under_exclusive (hi : 3 ≤ cap.inner) (hl : 2 ≤ cap.leaf)
    (hw : Wf cap mf w₀.mem w₀.tree) (hs : w₀.Sound) (c : Call K V) (fuel : Nat) :
    Wp (c.run cap fuel) w₀
      (fun _ w => ∃ evs, w.trace = w₀.trace ++ evs ∧ writeHolds [] evs = some [])
      (fun _ _ => True) := by
  obtain ⟨_, h⟩ := wp_call (hw.fanout_le (Nat.zero_le mf)) hs (Fits.zero hi hl) c
  refine wp_mono (h fuel) (fun _ w h => ?_) fun _ _ _ => trivial
  obtain ⟨evs, ht, -, hw⟩ := h.2.2.2.trace
  exact ⟨evs, ht, hw⟩

theorem call_writes_under_exclusive_fullRoot :
    3 ≤ (⟨4, 4⟩ : Capacity).inner ∧ 2 ≤ (⟨4, 4⟩ : Capacity).leaf ∧
    Wf ⟨4, 4⟩ 2 fullRootWorld.mem fullRootWorld.tree ∧ fullRootWorld.Sound ∧
    ∀ (c : Call Nat Nat) (fuel : Nat),
      Wp (c.run ⟨4, 4⟩ fuel) fullRootWorld
        (fun _ w => ∃ evs, w.trace = fullRootWorld.trace ++ evs ∧ writeHolds [] evs = some [])
        (fun _ _ => True) :=
  have hi : 3 ≤ (⟨4, 4⟩ : Capacity).inner := by decide
  have hl : 2 ≤ (⟨4, 4⟩ : Capacity).leaf := by decide
  ⟨hi, hl, wf_fullLeaf rfl, fullRootWorld_sound,
    call_writes_under_exclusive hi hl (wf_fullLeaf rfl) fullRootWorld_sound⟩

/-- With room for three children and two pairs a node, `insert` on a well-formed tree in a
sound world ends: past some fuel its restart loop and descents never run out, and from a
clean world, where no `fix_page` can wait or find the buffer full, it returns, the pair in
the map. -/
theorem insert_terminates (hi : 3 ≤ cap.inner) (hl : 2 ≤ cap.leaf) (hw : Wf cap mf w₀.mem w₀.tree)
    (hs : w₀.Sound) (key : K) (value : V) :
    ∃ n, ∀ fuel, n ≤ fuel →
      (∀ w, BTree.insert cap key value fuel w₀ ≠ .error .outOfFuel w) ∧
      (w₀.Clean → ∃ w, BTree.insert cap key value fuel w₀ = .ok () w ∧
        contents w.mem w.tree = Function.update (contents w₀.mem w₀.tree) key (some value)) := by
  obtain ⟨n, h⟩ := wp_insertLoop (Fits.zero hi hl) key value false w₀ (hw.fanout_le (Nat.zero_le mf)) hs
  refine ⟨n, fun fuel hf => ?_⟩
  have h := h fuel
  rw [Wp, show insertLoop cap key value fuel false = BTree.insert cap key value fuel from rfl] at h
  have hfuel : ∀ e w, BTree.insert cap key value fuel w₀ = .error e w → e ≠ .outOfFuel :=
    fun e w he hout => by rw [he] at h; exact absurd (h.2.1 hout) (by omega)
  refine ⟨fun w he => hfuel _ w he rfl, fun hc => ?_⟩
  cases hr : BTree.insert cap key value fuel w₀ with
  | ok _ w => rw [hr] at h; exact ⟨w, rfl, h.2.1⟩
  | error e w => rw [hr] at h; exact absurd (h.1.outOfFuel_of_clean hc) (hfuel e w hr)

theorem insert_terminates_fullRoot :
    3 ≤ (⟨4, 4⟩ : Capacity).inner ∧ 2 ≤ (⟨4, 4⟩ : Capacity).leaf ∧
    Wf ⟨4, 4⟩ 2 fullRootWorld.mem fullRootWorld.tree ∧ fullRootWorld.Sound ∧ fullRootWorld.Clean ∧
    ∃ n, ∀ fuel, n ≤ fuel →
      (∀ w, BTree.insert ⟨4, 4⟩ 5 4 fuel fullRootWorld ≠ .error .outOfFuel w) ∧
      (fullRootWorld.Clean → ∃ w, BTree.insert ⟨4, 4⟩ 5 4 fuel fullRootWorld = .ok () w ∧
        contents w.mem w.tree = Function.update (contents fullRootWorld.mem fullRootWorld.tree) 5 (some 4)) :=
  have hi : 3 ≤ (⟨4, 4⟩ : Capacity).inner := by decide
  have hl : 2 ≤ (⟨4, 4⟩ : Capacity).leaf := by decide
  ⟨hi, hl, wf_fullLeaf rfl, fullRootWorld_sound, World.clean_init (le_refl 3) _ 0,
    insert_terminates hi hl (wf_fullLeaf rfl) fullRootWorld_sound 5 4⟩

end guarantees

end BTree

end SimpleDb
