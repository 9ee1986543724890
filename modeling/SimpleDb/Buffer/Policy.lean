import SimpleDb.Buffer.Queues

/-!
The buffer manager as one client thread sees it: the calls it makes, the states those
calls reach, and the two-queue replacement policy the lists follow.

# Runs

A client thread makes three kinds of call (`Call`): `fix_page`, `unfix_page`, and a change
of the bytes of a page it holds exclusively. `Step` says when it can make each: a
`fix_page` that would wait on a latch the thread itself holds never returns, so a run
does not go past it; `unfix_page` is called on a frame the thread holds; bytes change
only under an exclusive hold. A `buffer_full_error` is a call that returns, by throwing,
with the state it leaves. `Reachable n segments` is every state a run from
`BufferManager(page_size, n)` reaches; every such state satisfies `Inv`
(`Reachable.inv`).

# The reference policy

`twoQueueFix` is the replacement policy in the words of its description, over page ids
only: a hit in the FIFO list moves the page to the LRU tail, a hit in the LRU list moves
it to the LRU tail, a miss appends it to the FIFO tail, evicting first, when the buffer is
full, the front-most unfixed FIFO page, else the front-most unfixed LRU page, and failing
when there is none. It reads `find?` and `erase` where the code reads `findIdx?`,
`eraseIdx` and the frame states. `fixPage_follows_twoQueue` says that from every reachable
state each call of `fix_page` that returns moves the lists exactly as the reference does,
and throws exactly where the reference fails.
-/

namespace SimpleDb

namespace BufferManager

variable {D : Type}

-- ============================================================ runs

/-- One call of a single client thread. -/
inductive Call (D : Type)
  | fix (p : Pid) (exclusive : Bool)
  | unfix (p : Pid) (isDirty : Bool)
  | write (p : Pid) (d : D)

/-- The bytes of a fixed page after the client writes `d` to them. -/
def writeData (bm : BufferManager D) (p : Pid) (d : D) : BufferManager D :=
  bm.updateFrame p fun f => { f with data := some d }

/-- The calls a single thread can make and the state each leaves. -/
inductive Step : BufferManager D → Call D → BufferManager D → Prop
  /-- `fix_page` on a latch free for the mode asked: it returns or throws. -/
  | fix {bm : BufferManager D} {p : Pid} {ex : Bool} :
      (bm.frame p).pageLatch.acquire ex ≠ none →
      Step bm (.fix p ex) (resultState (fixPage p ex bm))
  /-- `unfix_page` on a frame the thread holds. -/
  | unfix {bm : BufferManager D} {p : Pid} {dirty : Bool} :
      bm.Fixed p → Step bm (.unfix p dirty) (resultState (unfixPage p dirty bm))
  /-- A change of the bytes of a page the thread holds exclusively. -/
  | write {bm : BufferManager D} {p : Pid} {d : D} :
      (bm.frame p).pageLatch = .exclusive → Step bm (.write p d) (bm.writeData p d)

/-- The states a run of one thread reaches from `BufferManager(page_size, n)`. -/
inductive Reachable (n : Nat) (segments : Pid → D) : BufferManager D → Prop
  | new : Reachable n segments (new n segments)
  | step {bm bm' : BufferManager D} {c : Call D} :
      Reachable n segments bm → Step bm c bm' → Reachable n segments bm'

/-- Each call keeps the invariant. -/
theorem Inv.step {bm bm' : BufferManager D} {c : Call D} (hi : Inv bm) (h : Step bm c bm') :
    Inv bm' := by
  cases h with
  | fix _ => exact hi.fixPage _ _
  | unfix hp => exact hi.unfixPage hp _
  | write hp => exact hi.write hp _

/-- Every reachable state satisfies the invariant. -/
theorem Reachable.inv {n : Nat} {segments : Pid → D} {bm : BufferManager D}
    (h : Reachable n segments bm) : Inv bm := by
  induction h with
  | new => exact inv_new n segments
  | step _ hs ih => exact ih.step hs

/-- No call changes the page count. -/
theorem Reachable.pageCount_eq {n : Nat} {segments : Pid → D} {bm : BufferManager D}
    (h : Reachable n segments bm) : bm.pageCount = n := by
  induction h with
  | new => rfl
  | step hr hs ih =>
    cases hs with
    | @fix p ex _ =>
      cases fixPage_cases hr.inv p ex <;> simp_all
    | unfix _ => simpa [unfixPage_run] using ih
    | write _ => simpa [writeData] using ih

-- ============================================================ the reference policy

/-- The two-queue policy over page ids, in the words of its description: the lists after
fixing `p` with `n` slots, `none` when the page cannot be loaded. `isFixed` names the pages
fixed at the call. -/
def twoQueueFix (n : Nat) (isFixed : Pid → Bool) (fifo lru : List Pid) (p : Pid) :
    Option (List Pid × List Pid) :=
  if p ∈ fifo then some (fifo.erase p, lru ++ [p])
  else if p ∈ lru then some (fifo, lru.erase p ++ [p])
  else if fifo.length + lru.length < n then some (fifo ++ [p], lru)
  else match fifo.find? (fun q => !isFixed q) with
    | some v => some (fifo.erase v ++ [p], lru)
    | none =>
      match lru.find? (fun q => !isFixed q) with
      | some v => some (fifo ++ [p], lru.erase v)
      | none => none

/-- A call of `fix_page` agrees with an outcome of the reference: it returns with the
lists the reference gives, or, where the reference fails, throws `buffer_full_error` with
the lists as they were. -/
def AgreesWith (bm : BufferManager D) (r : EStateM.Result BufferError (BufferManager D) Unit) :
    Option (List Pid × List Pid) → Prop
  | some (fifo, lru) => ∃ bm', r = .ok () bm' ∧ bm'.fifoList = fifo ∧ bm'.lruList = lru
  | none => ∃ bm', r = .error .bufferFull bm' ∧ bm'.fifoList = bm.fifoList ∧ bm'.lruList = bm.lruList

/-- The reference's "not fixed" is the code's `try_lock` test. -/
theorem not_fixed_eq_unfixed (bm : BufferManager D) :
    (fun q => !decide (bm.Fixed q)) = bm.unfixed := by
  funext q
  simp [Fixed, unfixed]

/-- From every state satisfying the invariant, `fix_page` on a latch free for its mode
agrees with the reference policy. -/
theorem Inv.fixPage_agrees {bm : BufferManager D} (hi : Inv bm) {p : Pid} {ex : Bool}
    (hfree : (bm.frame p).pageLatch.acquire ex ≠ none) :
    bm.AgreesWith (BufferManager.fixPage p ex bm)
      (twoQueueFix bm.pageCount (fun q => decide (bm.Fixed q)) bm.fifoList bm.lruList p) := by
  cases fixPage_cases hi p ex with
  | blocked hl _ _ => exact absurd hl hfree
  | fifoHit l _ hp hfix =>
    simp only [twoQueueFix, hp, if_true, AgreesWith]
    exact ⟨_, hfix, rfl, rfl⟩
  | lruHit l _ hp hfix =>
    simp only [twoQueueFix, hi.not_mem_lru_of_fifo.mt (not_not.mpr hp), hp, if_true, if_false,
      AgreesWith]
    exact ⟨_, hfix, rfl, rfl⟩
  | loadFree l bm' _ hp hroom hfix _ h1 h2 _ _ =>
    simp only [twoQueueFix, not_or.mp hp, hroom, if_true, if_false, AgreesWith]
    exact ⟨_, hfix, h1, h2⟩
  | loadFifo l bm' v d _ hp hfull hv _ hfix _ h1 h2 _ _ =>
    simp only [twoQueueFix, not_or.mp hp, hfull, if_false, not_fixed_eq_unfixed, hv, AgreesWith]
    exact ⟨_, hfix, h1, h2⟩
  | loadLru l bm' v d _ hp hfull hf hv _ hfix _ h1 h2 _ _ =>
    simp only [twoQueueFix, not_or.mp hp, hfull, if_false, not_fixed_eq_unfixed, hf, hv, AgreesWith]
    exact ⟨_, hfix, h1, h2⟩
  | full bm' hp hfull hf hl hfix _ _ h1 h2 _ _ _ =>
    simp only [twoQueueFix, not_or.mp hp, hfull, if_false, not_fixed_eq_unfixed, hf, hl, AgreesWith]
    exact ⟨_, hfix, h1, h2⟩

-- ============================================================ the lists follow the reference

/-- What the lists of a state are and do: the representation facts the reference policy
relies on, and that `fix_page` and `unfix_page` move the lists as the reference does. -/
structure FollowsTwoQueue (n : Nat) (bm : BufferManager D) : Prop where
  nodup : (bm.fifoList ++ bm.lruList).Nodup
  inFifo : ∀ p, (bm.frame p).pageState = .inFifo ↔ p ∈ bm.fifoList
  inLru : ∀ p, (bm.frame p).pageState = .inLru ↔ p ∈ bm.lruList
  notLoaded : ∀ p, ¬ bm.Resident p → (bm.frame p).pageState = .notLoaded
  size : bm.fifoList.length + bm.lruList.length ≤ n
  fixed : ∀ p, bm.Fixed p → bm.Resident p
  fix : ∀ p ex, (bm.frame p).pageLatch.acquire ex ≠ none →
    bm.AgreesWith (fixPage p ex bm) (twoQueueFix n (fun q => decide (bm.Fixed q)) bm.fifoList bm.lruList p)
  unfix : ∀ p dirty, (resultState (unfixPage p dirty bm)).fifoList = bm.fifoList ∧
    (resultState (unfixPage p dirty bm)).lruList = bm.lruList

/-- Every state a single thread reaches from `BufferManager(page_size, n)` keeps its lists
as the two-queue policy describes them, and each further call moves them as the
reference policy does. -/
theorem reachable_follows_twoQueue {n : Nat} {segments : Pid → D} {bm : BufferManager D}
    (h : Reachable n segments bm) : FollowsTwoQueue n bm := by
  have hi := h.inv
  have hn := h.pageCount_eq
  refine ⟨hi.nodup, hi.inFifo, hi.inLru, fun p hp => ?_, hn ▸ hi.size, hi.fixed,
    fun p ex hfree => hn ▸ hi.fixPage_agrees hfree, fun p dirty => ⟨rfl, rfl⟩⟩
  rcases hi.state_cases p with hs | hs | hs
  · exact absurd (.inl ((hi.inFifo p).mp hs)) hp
  · exact absurd (.inr ((hi.inLru p).mp hs)) hp
  · exact hs

/-- One frame, and pages zero and one each fixed and released in turn: page zero moves from
the FIFO list to the LRU list on its second fix, and the fix of page one evicts it from
there. -/
def lruEvicted : BufferManager Nat :=
  resultState (fixPage 1 false (resultState (unfixPage 0 false (resultState (fixPage 0 false
    (resultState (unfixPage 0 false (resultState (fixPage 0 false (new 1 fun _ => 0))))))))))

theorem reachable_lruEvicted : Reachable 1 (fun _ => (0 : Nat)) lruEvicted :=
  .step (.step (.step (.step (.step .new (.fix (by decide))) (.unfix (by decide))) (.fix (by decide)))
    (.unfix (by decide))) (.fix (by decide))

theorem lruEvicted_follows_twoQueue :
    Reachable 1 (fun _ => (0 : Nat)) lruEvicted ∧ FollowsTwoQueue 1 lruEvicted :=
  ⟨reachable_lruEvicted, reachable_follows_twoQueue reachable_lruEvicted⟩

-- ============================================================ `buffer_full_error`

/-- `try_lock` finds no frame in a list exactly when every frame of it is fixed. -/
theorem find?_unfixed_eq_none {bm : BufferManager D} {l : List Pid} :
    l.find? bm.unfixed = none ↔ ∀ q ∈ l, bm.Fixed q := by
  simp [List.find?_eq_none, unfixed, Fixed]

/-- From every reachable state, `fix_page` throws `buffer_full_error` exactly when the
page is not resident, the buffer is full and every resident frame is fixed; and when it
throws, the state is the one it started from, but for the page table, which holds the
page's frame, still `NOT_LOADED`, and the ghost log, which holds the release of the hold
`fix_page` took. -/
theorem fixPage_bufferFull_iff {n : Nat} {segments : Pid → D} {bm : BufferManager D}
    (h : Reachable n segments bm) (p : Pid) (ex : Bool) :
    ((∃ bm', fixPage p ex bm = .error .bufferFull bm') ↔
      ¬ bm.Resident p ∧ bm.fifoList.length + bm.lruList.length = bm.pageCount ∧
      ∀ q ∈ bm.fifoList ++ bm.lruList, bm.Fixed q) ∧
    ∀ bm', fixPage p ex bm = .error .bufferFull bm' →
      bm' = { bm with
        pageTable := Function.update bm.pageTable p (some (bm.frame p))
        releases := bm.releases ++ [(p, if ex then .exclusive else .shared 0, .unlock)] } ∧
      (∀ q, bm'.frame q = bm.frame q) ∧ (bm.frame p).pageState = .notLoaded := by
  have hi := h.inv
  have hfind : ∀ {l : List Pid} {v : Pid}, l.find? bm.unfixed = some v → v ∈ l ∧ ¬ bm.Fixed v :=
    fun hv => ⟨List.mem_of_find?_eq_some hv, by simpa [unfixed, Fixed] using List.find?_some hv⟩
  have hsize := hi.size
  cases fixPage_cases hi p ex with
  | full bm' hp hfull hf hl hfix hfr hpt h1 h2 h3 h4 h5 =>
    have hs : (bm.frame p).pageState = .notLoaded := by
      rcases hi.state_cases p with hs | hs | hs
      · exact absurd (.inl ((hi.inFifo p).mp hs)) hp
      · exact absurd (.inr ((hi.inLru p).mp hs)) hp
      · exact hs
    refine ⟨⟨fun _ => ⟨hp, by omega, fun q hq => ?_⟩, fun _ => ⟨_, hfix⟩⟩, fun b hb => ?_⟩
    · rcases List.mem_append.mp hq with hq | hq
      · exact find?_unfixed_eq_none.mp hf q hq
      · exact find?_unfixed_eq_none.mp hl q hq
    · rw [hfix] at hb
      cases hb
      refine ⟨?_, hfr, hs⟩
      cases bm'
      simp_all
  | blocked _ hres hfix =>
    simp only [hfix, EStateM.Result.error.injEq, reduceCtorEq, false_and, exists_false,
      false_iff, false_implies, implies_true, and_true]
    exact fun ⟨hp, _⟩ => hp hres
  | fifoHit l _ hp hfix =>
    simp only [hfix, reduceCtorEq, exists_false, false_iff, false_implies, implies_true, and_true]
    exact fun ⟨hnr, _⟩ => hnr (.inl hp)
  | lruHit l _ hp hfix =>
    simp only [hfix, reduceCtorEq, exists_false, false_iff, false_implies, implies_true, and_true]
    exact fun ⟨hnr, _⟩ => hnr (.inr hp)
  | loadFree l bm' _ _ hroom hfix _ _ _ _ _ =>
    simp only [hfix, reduceCtorEq, exists_false, false_iff, false_implies, implies_true, and_true]
    omega
  | loadFifo l bm' v d _ _ _ hv _ hfix _ _ _ _ _ =>
    simp only [hfix, reduceCtorEq, exists_false, false_iff, false_implies, implies_true, and_true]
    obtain ⟨hmem, hnf⟩ := hfind hv
    exact fun ⟨_, _, hall⟩ => hnf (hall v (List.mem_append_left _ hmem))
  | loadLru l bm' v d _ _ _ _ hv _ hfix _ _ _ _ _ =>
    simp only [hfix, reduceCtorEq, exists_false, false_iff, false_implies, implies_true, and_true]
    obtain ⟨hmem, hnf⟩ := hfind hv
    exact fun ⟨_, _, hall⟩ => hnf (hall v (List.mem_append_right _ hmem))

/-- One frame, holding page zero fixed exclusively: the buffer is full and nothing can be
evicted. -/
def oneFixed : BufferManager Nat := resultState (fixPage 0 true (new 1 fun _ => 0))

theorem oneFixed_bufferFull_iff :
    Reachable 1 (fun _ => (0 : Nat)) oneFixed ∧
    (((∃ bm', fixPage 1 false oneFixed = .error .bufferFull bm') ↔
      ¬ oneFixed.Resident 1 ∧ oneFixed.fifoList.length + oneFixed.lruList.length = oneFixed.pageCount ∧
      ∀ q ∈ oneFixed.fifoList ++ oneFixed.lruList, oneFixed.Fixed q) ∧
    ∀ bm', fixPage 1 false oneFixed = .error .bufferFull bm' →
      bm' = { oneFixed with
        pageTable := Function.update oneFixed.pageTable 1 (some (oneFixed.frame 1))
        releases := oneFixed.releases ++ [(1, if false then .exclusive else .shared 0, .unlock)] } ∧
      (∀ q, bm'.frame q = oneFixed.frame q) ∧ (oneFixed.frame 1).pageState = .notLoaded) :=
  have h : Reachable 1 (fun _ => (0 : Nat)) oneFixed := .step .new (.fix (by decide))
  ⟨h, fixPage_bufferFull_iff h 1 false⟩

-- ============================================================ releases

/-- `unfix_page` and the `buffer_full_error` paths of `fix_page` give a latch back with
`unlock()`, whatever the mode it was taken in. From every reachable state, a
`fix_page(p, false)` that throws has released its shared hold so, and one that returns leaves
a shared hold that `unfix_page` releases so; `std::shared_mutex` defines neither
(`Latch.release` is `none`). An exclusive hold is given back as the standard asks. -/
theorem unfixPage_unlocks_shared_hold {n : Nat} {segments : Pid → D} {bm : BufferManager D}
    (h : Reachable n segments bm) (p : Pid) :
    (∀ bm', fixPage p false bm = .error .bufferFull bm' →
      ∃ l, bm'.releases = bm.releases ++ [(p, l, .unlock)] ∧ l.release .unlock = none) ∧
    (∀ bm', fixPage p false bm = .ok () bm' → ∀ d, ∃ l,
      (resultState (unfixPage p d bm')).releases = bm'.releases ++ [(p, l, .unlock)] ∧
        l.release .unlock = none) ∧
    (∀ bm', fixPage p true bm = .ok () bm' → ∀ d, ∃ l,
      (resultState (unfixPage p d bm')).releases = bm'.releases ++ [(p, l, .unlock)] ∧
        l.release .unlock = some .unlocked) := by
  have hi := h.inv
  have hunfix : ∀ (b : BufferManager D) (d : Bool),
      (resultState (unfixPage p d b)).releases = b.releases ++ [(p, (b.frame p).pageLatch, .unlock)] :=
    fun b d => by rw [unfixPage_run]; rfl
  refine ⟨fun bm' hfix => ⟨_, hi.fixPage_bufferFull hfix, rfl⟩, fun bm' hfix d => ?_,
    fun bm' hfix d => ?_⟩ <;>
  · obtain ⟨l, hl, hlp⟩ := hi.fixPage_ok hfix
    exact ⟨l, by rw [hunfix, hlp], by rw [Latch.release_unlock_of_acquire hl]; rfl⟩

/-- One frame, page zero not resident: `fix_page(0, false)` returns, holding the latch
shared. -/
theorem unfixPage_unlocks_shared_hold_pageZero :
    Reachable 1 (fun _ => ()) (new 1 fun _ => ()) ∧
    (∃ bm', fixPage 0 false (new 1 fun _ => ()) = .ok () bm') ∧
    (∀ bm', fixPage 0 false (new 1 fun _ => ()) = .error .bufferFull bm' →
      ∃ l, bm'.releases = (new 1 fun _ => ()).releases ++ [(0, l, .unlock)] ∧ l.release .unlock = none) ∧
    (∀ bm', fixPage 0 false (new 1 fun _ => ()) = .ok () bm' → ∀ d, ∃ l,
      (resultState (unfixPage 0 d bm')).releases = bm'.releases ++ [(0, l, .unlock)] ∧
        l.release .unlock = none) ∧
    (∀ bm', fixPage 0 true (new 1 fun _ => ()) = .ok () bm' → ∀ d, ∃ l,
      (resultState (unfixPage 0 d bm')).releases = bm'.releases ++ [(0, l, .unlock)] ∧
        l.release .unlock = some .unlocked) :=
  ⟨.new, ⟨_, rfl⟩, unfixPage_unlocks_shared_hold .new 0⟩

end BufferManager

end SimpleDb
