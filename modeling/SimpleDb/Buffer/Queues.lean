import SimpleDb.Buffer.Step

/-!
The two queues of the buffer manager over a single-threaded run: the representation
invariant every reachable state keeps, the reference two-queue policy the lists follow
call by call, and when `fix_page` throws `buffer_full_error`.

# The invariant

`Inv` says the lists and the frames agree: a page is in the FIFO list exactly when its
frame is `IN_FIFO`, in the LRU list exactly when it is `IN_LRU`, in at most one place,
never `LOADING` between calls; at most `pageCount` pages are resident; a fixed frame is
resident; a frame holds data exactly when it is resident, and a dirty frame is resident.
The last two are what eviction needs: the victim has data to flush, and a page that left
the buffer left nothing unwritten behind.

# Cases of `fix_page`

From a state satisfying `Inv`, `fix_page` takes one of seven paths (`FixCase`): it blocks
on a latch its thread holds, hits the FIFO or the LRU list, loads into a free slot,
evicts the first unfixed FIFO frame, evicts the first unfixed LRU frame, or throws. Each
path comes with the state it ends in, read off `Step.lean`; every property below is a
case analysis over `fixPage_cases`.
-/

namespace SimpleDb

namespace BufferManager

variable {D : Type} {bm : BufferManager D}

-- ============================================================ list plumbing

/-- The first index satisfying `f` names the first element satisfying `f`, and removing
that index removes that element's first occurrence. -/
theorem findIdx?_eq_some_erase {l : List Pid} {f : Pid → Bool} {i : Nat}
    (h : l.findIdx? f = some i) :
    l.find? f = some (l.getD i 0) ∧ l.eraseIdx i = l.erase (l.getD i 0) := by
  induction l generalizing i with
  | nil => simp at h
  | cons x xs ih =>
    by_cases hx : f x
    · simp only [List.findIdx?_cons, hx, if_true, Option.some.injEq] at h
      subst h
      simp [hx]
    · simp only [List.findIdx?_cons, hx, Bool.false_eq_true, if_false, List.findIdx?_start_succ,
        Nat.zero_add, Option.map_eq_some'] at h
      obtain ⟨j, hj, rfl⟩ := h
      obtain ⟨hfind, herase⟩ := ih hj
      have hne : xs.getD j 0 ≠ x := fun e => by
        have := List.find?_some hfind
        rw [e] at this
        simp [hx] at this
      refine ⟨by simp only [List.find?_cons, hx, List.getD_cons_succ, hfind], ?_⟩
      rw [List.getD_cons_succ, List.eraseIdx_cons_succ, herase,
        List.erase_cons_tail (by simpa using Ne.symm hne)]

-- ============================================================ the invariant

/-- The state a method leaves, whether it returned or threw. -/
def resultState {ε σ α : Type} : EStateM.Result ε σ α → σ
  | .ok _ s => s
  | .error _ s => s

@[simp] theorem resultState_ok {ε σ α : Type} (a : α) (s : σ) :
    resultState (EStateM.Result.ok a s : EStateM.Result ε σ α) = s := rfl

@[simp] theorem resultState_error {ε σ α : Type} (e : ε) (s : σ) :
    resultState (EStateM.Result.error e s : EStateM.Result ε σ α) = s := rfl

/-- A page is resident when it is in one of the two lists. -/
def Resident (bm : BufferManager D) (p : Pid) : Prop := p ∈ bm.fifoList ∨ p ∈ bm.lruList

/-- A frame is fixed when somebody holds its latch. -/
def Fixed (bm : BufferManager D) (p : Pid) : Prop := (bm.frame p).pageLatch ≠ .unlocked

instance (bm : BufferManager D) (p : Pid) : Decidable (bm.Resident p) :=
  inferInstanceAs (Decidable (_ ∨ _))

instance (bm : BufferManager D) (p : Pid) : Decidable (bm.Fixed p) :=
  inferInstanceAs (Decidable (_ ≠ _))

/-- The representation invariant of a single-threaded buffer manager. -/
structure Inv (bm : BufferManager D) : Prop where
  nodup : (bm.fifoList ++ bm.lruList).Nodup
  inFifo : ∀ p, (bm.frame p).pageState = .inFifo ↔ p ∈ bm.fifoList
  inLru : ∀ p, (bm.frame p).pageState = .inLru ↔ p ∈ bm.lruList
  notLoading : ∀ p, (bm.frame p).pageState ≠ .loading
  size : bm.fifoList.length + bm.lruList.length ≤ bm.pageCount
  fixed : ∀ p, bm.Fixed p → bm.Resident p
  data : ∀ p, (bm.frame p).data.isSome ↔ bm.Resident p
  dirty : ∀ p, (bm.frame p).isDirty → bm.Resident p

/-- The manager as constructed satisfies the invariant. -/
theorem inv_new (n : Nat) (segments : Pid → D) : Inv (new n segments) where
  nodup := by simp [new]
  inFifo := fun p => by simp [new, frame, BufferFrame.init]
  inLru := fun p => by simp [new, frame, BufferFrame.init]
  notLoading := fun p => by simp [new, frame, BufferFrame.init]
  size := by simp [new]
  fixed := fun p h => absurd rfl h
  data := fun p => by simp [new, frame, BufferFrame.init, Resident]
  dirty := fun p h => by simp [new, frame, BufferFrame.init] at h

namespace Inv

variable (hi : Inv bm)
include hi

theorem not_mem_lru_of_fifo {p : Pid} (h : p ∈ bm.fifoList) : p ∉ bm.lruList :=
  List.disjoint_of_nodup_append hi.nodup h

/-- A page not loaded is in neither list. -/
theorem not_resident {p : Pid} (h : (bm.frame p).pageState = .notLoaded) : ¬ bm.Resident p := by
  rintro (hp | hp)
  · rw [← hi.inFifo] at hp; rw [hp] at h; cases h
  · rw [← hi.inLru] at hp; rw [hp] at h; cases h

/-- A page not loaded is not fixed. -/
theorem unlocked_of_notLoaded {p : Pid} (h : (bm.frame p).pageState = .notLoaded) :
    (bm.frame p).pageLatch = .unlocked :=
  Classical.not_not.mp fun hf => hi.not_resident h (hi.fixed p hf)

/-- Every state is one of the three a single thread can see between calls. -/
theorem state_cases (p : Pid) :
    (bm.frame p).pageState = .inFifo ∨ (bm.frame p).pageState = .inLru ∨
    (bm.frame p).pageState = .notLoaded := by
  have := hi.notLoading p
  cases h : (bm.frame p).pageState <;> simp_all

end Inv

-- ============================================================ the paths of `fix_page`

/-- Whether `try_lock` would take the frame's latch. -/
def unfixed (bm : BufferManager D) (q : Pid) : Bool := (bm.frame q).pageLatch = .unlocked

/-- The frame of a page `fix_page` has just loaded, holding latch `l`. -/
def loadedFrame (bm : BufferManager D) (p : Pid) (l : Latch) : BufferFrame D :=
  { bm.frame p with pageLatch := l, pageState := .inFifo, data := some (bm.segments p) }

/-- The segment files after evicting `v`, whose frame holds `d`: written back when dirty. -/
def segmentsAfterEvict (bm : BufferManager D) (v : Pid) (d : D) : Pid → D :=
  if (bm.frame v).isDirty then Function.update bm.segments v d else bm.segments

/-- The paths `fix_page` takes from a state satisfying `Inv`, each with the state it
leaves. -/
inductive FixCase (bm : BufferManager D) (p : Pid) (ex : Bool) : Prop
  /-- The thread holds the latch in a conflicting mode: the call never returns. -/
  | blocked : (bm.frame p).pageLatch.acquire ex = none → bm.Resident p →
      fixPage p ex bm = .error .blocked (bm.ensureFrame p) → FixCase bm p ex
  /-- A hit in the FIFO list: the page moves to the back of the LRU list. -/
  | fifoHit (l : Latch) : (bm.frame p).pageLatch.acquire ex = some l → p ∈ bm.fifoList →
      fixPage p ex bm = .ok () { bm.updateFrame p (fun f => { f with pageLatch := l, pageState := .inLru })
        with fifoList := bm.fifoList.erase p, lruList := bm.lruList ++ [p] } → FixCase bm p ex
  /-- A hit in the LRU list: the page moves to its back. -/
  | lruHit (l : Latch) : (bm.frame p).pageLatch.acquire ex = some l → p ∈ bm.lruList →
      fixPage p ex bm = .ok () { bm.updateFrame p (fun f => { f with pageLatch := l })
        with lruList := bm.lruList.erase p ++ [p] } → FixCase bm p ex
  /-- A load into a free slot. -/
  | loadFree (l : Latch) (bm' : BufferManager D) : (bm.frame p).pageLatch.acquire ex = some l →
      ¬ bm.Resident p → bm.fifoList.length + bm.lruList.length < bm.pageCount →
      fixPage p ex bm = .ok () bm' →
      (∀ q, bm'.frame q = if q = p then bm.loadedFrame p l else bm.frame q) →
      bm'.fifoList = bm.fifoList ++ [p] → bm'.lruList = bm.lruList → bm'.segments = bm.segments →
      bm'.pageCount = bm.pageCount → FixCase bm p ex
  /-- A load that evicts `v`, the first unfixed frame of the FIFO list. -/
  | loadFifo (l : Latch) (bm' : BufferManager D) (v : Pid) (d : D) :
      (bm.frame p).pageLatch.acquire ex = some l → ¬ bm.Resident p →
      ¬ bm.fifoList.length + bm.lruList.length < bm.pageCount →
      bm.fifoList.find? bm.unfixed = some v → (bm.frame v).data = some d →
      fixPage p ex bm = .ok () bm' →
      (∀ q, bm'.frame q = if q = p then bm.loadedFrame p l else if q = v then .init else bm.frame q) →
      bm'.fifoList = bm.fifoList.erase v ++ [p] → bm'.lruList = bm.lruList →
      bm'.segments = bm.segmentsAfterEvict v d → bm'.pageCount = bm.pageCount → FixCase bm p ex
  /-- A load that evicts `v`, the first unfixed frame of the LRU list, every frame of the
  FIFO list being fixed. -/
  | loadLru (l : Latch) (bm' : BufferManager D) (v : Pid) (d : D) :
      (bm.frame p).pageLatch.acquire ex = some l → ¬ bm.Resident p →
      ¬ bm.fifoList.length + bm.lruList.length < bm.pageCount →
      bm.fifoList.find? bm.unfixed = none → bm.lruList.find? bm.unfixed = some v →
      (bm.frame v).data = some d → fixPage p ex bm = .ok () bm' →
      (∀ q, bm'.frame q = if q = p then bm.loadedFrame p l else if q = v then .init else bm.frame q) →
      bm'.fifoList = bm.fifoList ++ [p] → bm'.lruList = bm.lruList.erase v →
      bm'.segments = bm.segmentsAfterEvict v d → bm'.pageCount = bm.pageCount → FixCase bm p ex
  /-- No frame can be evicted: `buffer_full_error`, every frame and both lists as before, and
  the hold taken released with `unlock()`. -/
  | full (bm' : BufferManager D) : ¬ bm.Resident p →
      ¬ bm.fifoList.length + bm.lruList.length < bm.pageCount →
      bm.fifoList.find? bm.unfixed = none → bm.lruList.find? bm.unfixed = none →
      fixPage p ex bm = .error .bufferFull bm' →
      (∀ q, bm'.frame q = bm.frame q) →
      bm'.pageTable = Function.update bm.pageTable p (some (bm.frame p)) →
      bm'.fifoList = bm.fifoList → bm'.lruList = bm.lruList → bm'.segments = bm.segments →
      bm'.pageCount = bm.pageCount →
      bm'.releases = bm.releases ++ [(p, if ex then .exclusive else .shared 0, .unlock)] → FixCase bm p ex

/-- `find?` and `evictableIdx` agree on the frame `try_lock` picks. -/
theorem evictableIdx_find? {l : List Pid} :
    (bm.evictableIdx l = none ↔ l.find? bm.unfixed = none) := by
  simp [evictableIdx, unfixed, List.findIdx?_eq_none_iff, List.find?_eq_none]

/-- Every call of `fix_page` from a state satisfying `Inv` takes one of the paths of
`FixCase`. -/
theorem fixPage_cases (hi : Inv bm) (p : Pid) (ex : Bool) : FixCase bm p ex := by
  rcases hi.state_cases p with hs | hs | hs
  · have hp := (hi.inFifo p).mp hs
    cases hl : (bm.frame p).pageLatch.acquire ex with
    | none => exact .blocked hl (.inl hp) (fixPage_blocked hl)
    | some l => exact .fifoHit l hl hp (fixPage_inFifo hl hs)
  · have hp := (hi.inLru p).mp hs
    cases hl : (bm.frame p).pageLatch.acquire ex with
    | none => exact .blocked hl (.inr hp) (fixPage_blocked hl)
    | some l => exact .lruHit l hl hp (fixPage_inLru hl hs)
  · have hnr := hi.not_resident hs
    have hu := hi.unlocked_of_notLoaded hs
    have hpf : p ∉ bm.fifoList := fun h => hnr (.inl h)
    have hpl : p ∉ bm.lruList := fun h => hnr (.inr h)
    have hl : (bm.frame p).pageLatch.acquire ex = some (if ex then .exclusive else .shared 0) := by
      cases ex <;> simp [hu, Latch.acquire, Latch.lock, Latch.lockShared]
    by_cases hroom : bm.fifoList.length + bm.lruList.length < bm.pageCount
    · obtain ⟨bm', hfix, hf, h1, h2, h3, h4⟩ := fixPage_load_space hl hs hroom
      exact .loadFree _ bm' hl hnr hroom hfix (by simpa [loadedFrame] using hf) h1 h2 h3 h4
    cases hfi : bm.evictableIdx bm.fifoList with
    | some i =>
      obtain ⟨hfind, herase⟩ := findIdx?_eq_some_erase hfi
      obtain ⟨hvmem, -⟩ := evictableIdx_spec hfi
      obtain ⟨d, hd⟩ := Option.isSome_iff_exists.mp ((hi.data _).mpr (.inl hvmem))
      obtain ⟨bm', hfix, hf, h1, h2, h3, h4⟩ := fixPage_load_fifo hl hs hpf hroom hfi rfl hd
      exact .loadFifo _ bm' _ d hl hnr hroom hfind hd hfix (by simpa [loadedFrame] using hf)
        (by rw [h1, herase]) h2 h3 h4
    | none =>
      cases hli : bm.evictableIdx bm.lruList with
      | some i =>
        obtain ⟨hfind, herase⟩ := findIdx?_eq_some_erase hli
        obtain ⟨hvmem, -⟩ := evictableIdx_spec hli
        obtain ⟨d, hd⟩ := Option.isSome_iff_exists.mp ((hi.data _).mpr (.inr hvmem))
        obtain ⟨bm', hfix, hf, h1, h2, h3, h4⟩ := fixPage_load_lru hl hs hpf hpl hroom hfi hli rfl hd
        exact .loadLru _ bm' _ d hl hnr hroom (evictableIdx_find?.mp hfi) hfind hd hfix
          (by simpa [loadedFrame] using hf) h1 (by rw [h2, herase]) h3 h4
      | none =>
        obtain ⟨bm', hfix, hf, hpt, h1, h2, h3, h4, h5⟩ := fixPage_full hu hs hpf hpl hroom hfi hli
        exact .full bm' hnr hroom (evictableIdx_find?.mp hfi) (evictableIdx_find?.mp hli) hfix hf hpt
          h1 h2 h3 h4 h5

-- ============================================================ the invariant is kept

namespace Inv

variable {bm' : BufferManager D} {p : Pid}

/-- The invariant reads a state only through its frames, its lists and its page count. -/
theorem congr (hi : Inv bm) (hf : ∀ q, bm'.frame q = bm.frame q) (h1 : bm'.fifoList = bm.fifoList)
    (h2 : bm'.lruList = bm.lruList) (h3 : bm'.pageCount = bm.pageCount) : Inv bm' := by
  have hr : ∀ q, bm'.Resident q ↔ bm.Resident q := fun q => by simp [Resident, h1, h2]
  have hx : ∀ q, bm'.Fixed q ↔ bm.Fixed q := fun q => by simp [Fixed, hf]
  exact ⟨by simpa [h1, h2] using hi.nodup, fun q => by simpa [hf, h1] using hi.inFifo q,
    fun q => by simpa [hf, h2] using hi.inLru q, fun q => by simpa [hf] using hi.notLoading q,
    by simpa [h1, h2, h3] using hi.size, fun q h => (hr q).mpr (hi.fixed q ((hx q).mp h)),
    fun q => by simpa [hf, hr] using hi.data q, fun q h => (hr q).mpr (hi.dirty q (by simpa [hf] using h))⟩

/-- A FIFO hit keeps the invariant: the page only changes list. -/
theorem fifoHit (hi : Inv bm) {l : Latch} (hp : p ∈ bm.fifoList) :
    Inv { bm.updateFrame p (fun f => { f with pageLatch := l, pageState := .inLru })
      with fifoList := bm.fifoList.erase p, lruList := bm.lruList ++ [p] } := by
  have hnd := List.nodup_append.mp hi.nodup
  have hpl := hi.not_mem_lru_of_fifo hp
  have hmem : ∀ q, q ∈ bm.fifoList.erase p ↔ q ≠ p ∧ q ∈ bm.fifoList :=
    fun q => hnd.1.mem_erase_iff
  have hr : ∀ q, (q ∈ bm.fifoList.erase p ∨ q ∈ bm.lruList ++ [p]) ↔ bm.Resident q := fun q => by
    by_cases hq : q = p
    · subst hq; simp [Resident, hp]
    · simp [Resident, hmem, hq]
  refine ⟨?_, fun q => ?_, fun q => ?_, fun q => ?_, ?_, fun q hq => ?_, fun q => ?_, fun q hq => ?_⟩
  · refine List.nodup_append.mpr ⟨hnd.1.erase p, hnd.2.1.append (List.nodup_singleton p) ?_, ?_⟩
    · simpa using hpl
    · intro q hq hq'
      rcases List.mem_append.mp hq' with h | h
      · exact hnd.2.2 ((hmem q).mp hq).2 h
      · exact ((hmem q).mp hq).1 (List.mem_singleton.mp h)
  · by_cases hq : q = p
    · subst hq; simp [hmem]
    · simp [hq, hmem, hi.inFifo q]
  · by_cases hq : q = p
    · subst hq; simp
    · simp [hq, hi.inLru q]
  · by_cases hq : q = p
    · subst hq; simp
    · simpa [hq] using hi.notLoading q
  · have := List.length_erase_of_mem hp
    have := List.length_pos_of_mem hp
    simp only [List.length_append, List.length_singleton, updateFrame_pageCount]
    have := hi.size
    omega
  · show _ ∨ _
    rw [hr]
    by_cases hq' : q = p
    · subst hq'; exact .inl hp
    · exact hi.fixed q (by simpa [Fixed, hq'] using hq)
  · show _ ↔ _ ∨ _
    rw [hr]
    by_cases hq : q = p
    · subst hq; simpa using hi.data q
    · simpa [hq] using hi.data q
  · show _ ∨ _
    rw [hr]
    by_cases hq' : q = p
    · subst hq'; exact .inl hp
    · exact hi.dirty q (by simpa [hq'] using hq)

/-- An LRU hit keeps the invariant: the page only moves inside its list. -/
theorem lruHit (hi : Inv bm) {l : Latch} (hp : p ∈ bm.lruList) :
    Inv { bm.updateFrame p (fun f => { f with pageLatch := l })
      with lruList := bm.lruList.erase p ++ [p] } := by
  have hnd := List.nodup_append.mp hi.nodup
  have hmem : ∀ q, q ∈ bm.lruList.erase p ↔ q ≠ p ∧ q ∈ bm.lruList :=
    fun q => hnd.2.1.mem_erase_iff
  have hm : ∀ q, q ∈ bm.lruList.erase p ++ [p] ↔ q ∈ bm.lruList := fun q => by
    by_cases hq : q = p
    · subst hq; simp [hp]
    · simp [hmem, hq]
  have hr : ∀ q, (q ∈ bm.fifoList ∨ q ∈ bm.lruList.erase p ++ [p]) ↔ bm.Resident q := fun q => by
    rw [hm]; rfl
  refine ⟨?_, fun q => ?_, fun q => ?_, fun q => ?_, ?_, fun q hq => ?_, fun q => ?_, fun q hq => ?_⟩
  · refine List.nodup_append.mpr ⟨hnd.1, ?_, fun q hq hq' => hnd.2.2 hq ((hm q).mp hq')⟩
    exact (hnd.2.1.erase p).append (List.nodup_singleton p) (by simp [hmem])
  · by_cases hq : q = p
    · subst hq; simpa using hi.inFifo q
    · simp [hq, hi.inFifo q]
  · by_cases hq : q = p
    · subst hq; simpa [hm] using hi.inLru q
    · simp [hq, hm, hi.inLru q]
  · by_cases hq : q = p
    · subst hq; simpa using hi.notLoading q
    · simpa [hq] using hi.notLoading q
  · have := List.length_erase_of_mem hp
    have := List.length_pos_of_mem hp
    simp only [List.length_append, List.length_singleton, updateFrame_pageCount, updateFrame_fifoList]
    have := hi.size
    omega
  · show q ∈ bm.fifoList ∨ q ∈ bm.lruList.erase p ++ [p]
    rw [hr]
    by_cases hq' : q = p
    · subst hq'; exact .inr hp
    · exact hi.fixed q (by simpa [Fixed, hq'] using hq)
  · show _ ↔ q ∈ bm.fifoList ∨ q ∈ bm.lruList.erase p ++ [p]
    rw [hr]
    by_cases hq : q = p
    · subst hq; simpa using hi.data q
    · simpa [hq] using hi.data q
  · show q ∈ bm.fifoList ∨ q ∈ bm.lruList.erase p ++ [p]
    rw [hr]
    by_cases hq' : q = p
    · subst hq'; exact .inr hp
    · exact hi.dirty q (by simpa [hq'] using hq)

/-- Dropping an unfixed resident page from its list, its frame back to `BufferFrame(pid)`,
keeps the invariant; this is the eviction half of a load. -/
theorem evictVictim (hi : Inv bm) {v : Pid} (hv : v ∈ bm.fifoList ∨ v ∈ bm.lruList)
    (hfree : (bm.frame v).pageLatch = .unlocked) :
    Inv { bm.updateFrame v (fun _ => .init) with
      fifoList := bm.fifoList.erase v, lruList := bm.lruList.erase v } := by
  have hnd := List.nodup_append.mp hi.nodup
  have hf : ∀ q, q ∈ bm.fifoList.erase v ↔ q ≠ v ∧ q ∈ bm.fifoList := fun q => hnd.1.mem_erase_iff
  have hl : ∀ q, q ∈ bm.lruList.erase v ↔ q ≠ v ∧ q ∈ bm.lruList := fun q => hnd.2.1.mem_erase_iff
  have hlen : (bm.fifoList.erase v).length + (bm.lruList.erase v).length + 1 =
      bm.fifoList.length + bm.lruList.length := by
    rcases hv with hv | hv
    · have h1 := List.length_erase_of_mem hv
      have h2 := List.length_pos_of_mem hv
      rw [List.erase_of_not_mem (hi.not_mem_lru_of_fifo hv)]
      omega
    · have h1 := List.length_erase_of_mem hv
      have h2 := List.length_pos_of_mem hv
      rw [List.erase_of_not_mem fun h => hi.not_mem_lru_of_fifo h hv]
      omega
  refine ⟨?_, fun q => ?_, fun q => ?_, fun q => ?_, ?_, fun q hq => ?_, fun q => ?_, fun q hq => ?_⟩
  · exact hi.nodup.sublist ((List.erase_sublist _ _).append (List.erase_sublist _ _))
  all_goals first
    | (show _ ≤ _; simp only [updateFrame_pageCount]; have := hi.size; omega)
    | skip
  all_goals by_cases hqv : q = v
  all_goals first
    | (subst hqv; simp [hf, hl, BufferFrame.init, Resident, Fixed] at *)
    | skip
  · simp [hqv, hf, hi.inFifo q]
  · simp [hqv, hl, hi.inLru q]
  · simpa [hqv] using hi.notLoading q
  · exact (hi.fixed q (by simpa [Fixed, hqv] using hq)).imp (fun h => (hf q).mpr ⟨hqv, h⟩)
      (fun h => (hl q).mpr ⟨hqv, h⟩)
  · show _ ↔ q ∈ bm.fifoList.erase v ∨ q ∈ bm.lruList.erase v
    simpa [hqv, hf, hl] using hi.data q
  · exact (hi.dirty q (by simpa [hqv] using hq)).imp (fun h => (hf q).mpr ⟨hqv, h⟩)
      (fun h => (hl q).mpr ⟨hqv, h⟩)

/-- Appending a page that is not resident to the FIFO list, with a free slot, its frame
loaded, keeps the invariant; this is the loading half of a load. -/
theorem loadInto (hi : Inv bm) {l : Latch} (hp : ¬ bm.Resident p)
    (hroom : bm.fifoList.length + bm.lruList.length < bm.pageCount) :
    Inv { bm.updateFrame p (fun _ => bm.loadedFrame p l) with fifoList := bm.fifoList ++ [p] } := by
  have hpf : p ∉ bm.fifoList := fun h => hp (.inl h)
  have hpl : p ∉ bm.lruList := fun h => hp (.inr h)
  have hclean : (bm.frame p).isDirty = false := by
    cases h : (bm.frame p).isDirty
    · rfl
    · exact absurd (hi.dirty p h) hp
  refine ⟨?_, fun q => ?_, fun q => ?_, fun q => ?_, ?_, fun q hq => ?_, fun q => ?_, fun q hq => ?_⟩
  · rw [List.append_assoc, List.singleton_append]
    refine List.nodup_middle.mpr (List.nodup_cons.mpr ⟨?_, hi.nodup⟩)
    simpa using ⟨hpf, hpl⟩
  all_goals first
    | (show _ ≤ _
       simp only [List.length_append, List.length_singleton, updateFrame_pageCount, updateFrame_lruList]
       omega)
    | skip
  all_goals by_cases hq' : q = p
  all_goals first
    | (subst hq'; simp [loadedFrame, hpl, hclean, Resident, Fixed] at *)
    | skip
  · simp [hq', hi.inFifo q]
  · simp [hq', hi.inLru q]
  · simpa [hq'] using hi.notLoading q
  · exact (hi.fixed q (by simpa [Fixed, hq'] using hq)).imp (fun h => by simp [h]) id
  · show _ ↔ q ∈ bm.fifoList ++ [p] ∨ q ∈ bm.lruList
    simpa [hq', Resident] using hi.data q
  · exact (hi.dirty q (by simpa [hq'] using hq)).imp (fun h => by simp [h]) id

/-- A load that evicts an unfixed resident page `v` for a page `p` that is not resident
keeps the invariant: it is the eviction of `v` followed by the load of `p`. -/
theorem evictLoad (hi : Inv bm) {l : Latch} {v : Pid} (hp : ¬ bm.Resident p)
    (hv : v ∈ bm.fifoList ∨ v ∈ bm.lruList) (hfree : (bm.frame v).pageLatch = .unlocked)
    (hf : ∀ q, bm'.frame q = if q = p then bm.loadedFrame p l else if q = v then .init else bm.frame q)
    (h1 : bm'.fifoList = bm.fifoList.erase v ++ [p]) (h2 : bm'.lruList = bm.lruList.erase v)
    (h3 : bm'.pageCount = bm.pageCount) : Inv bm' := by
  have hpv : p ≠ v := fun e => hp (e ▸ hv)
  have hX := hi.evictVictim hv hfree
  have hpX : ¬ Resident { bm.updateFrame v (fun _ => .init) with
      fifoList := bm.fifoList.erase v, lruList := bm.lruList.erase v } p :=
    fun h => hp (h.imp (fun h => List.mem_of_mem_erase h) fun h => List.mem_of_mem_erase h)
  have hroom : (bm.fifoList.erase v).length + (bm.lruList.erase v).length < bm.pageCount := by
    have := hi.size
    have hle := List.length_erase_le (l := bm.fifoList) (a := v)
    have hle' := List.length_erase_le (l := bm.lruList) (a := v)
    rcases hv with hv | hv
    · have := List.length_erase_of_mem hv; have := List.length_pos_of_mem hv; omega
    · have := List.length_erase_of_mem hv; have := List.length_pos_of_mem hv; omega
  refine (hX.loadInto (l := l) hpX hroom).congr (fun q => ?_) h1 h2 h3
  by_cases hqp : q = p
  · subst hqp; simp [hf, loadedFrame, hpv]
  · simp [hf, hqp]

/-- Every path of `fix_page` leaves a state satisfying the invariant, returned or thrown. -/
theorem fixPage (hi : Inv bm) (p : Pid) (ex : Bool) :
    Inv (resultState (BufferManager.fixPage p ex bm)) := by
  have hfind : ∀ {xs : List Pid} {v : Pid}, xs.find? bm.unfixed = some v →
      v ∈ xs ∧ (bm.frame v).pageLatch = .unlocked := fun h =>
    ⟨List.mem_of_find?_eq_some h, by simpa [unfixed] using List.find?_some h⟩
  cases fixPage_cases hi p ex with
  | blocked _ _ hfix =>
    rw [hfix, resultState_error]; exact hi.congr (by simp) (by simp) (by simp) (by simp)
  | fifoHit l _ hp hfix => rw [hfix, resultState_ok]; exact hi.fifoHit hp
  | lruHit l _ hp hfix => rw [hfix, resultState_ok]; exact hi.lruHit hp
  | loadFree l bm' _ hp hroom hfix hf h1 h2 _ h4 =>
    rw [hfix, resultState_ok]
    exact (hi.loadInto (l := l) hp hroom).congr (fun q => by simp [hf]) h1 h2 h4
  | loadFifo l bm' v d _ hp _ hv _ hfix hf h1 h2 _ h4 =>
    obtain ⟨hmem, hfree⟩ := hfind hv
    rw [hfix, resultState_ok]
    exact hi.evictLoad hp (.inl hmem) hfree hf h1
      (by rw [h2, List.erase_of_not_mem (hi.not_mem_lru_of_fifo hmem)]) h4
  | loadLru l bm' v d _ hp _ _ hv _ hfix hf h1 h2 _ h4 =>
    obtain ⟨hmem, hfree⟩ := hfind hv
    rw [hfix, resultState_ok]
    exact hi.evictLoad hp (.inr hmem) hfree hf
      (by rw [h1, List.erase_of_not_mem fun h => hi.not_mem_lru_of_fifo h hmem]) h2 h4
  | full bm' _ _ _ _ hfix hf _ h1 h2 _ h4 _ => rw [hfix, resultState_error]; exact hi.congr hf h1 h2 h4

/-- Rewriting the frame of a resident page keeps the invariant as long as the frame keeps
its state and keeps holding data: the latch, the dirty bit and the bytes are free. -/
theorem updateResident (hi : Inv bm) (hp : bm.Resident p) {g : BufferFrame D → BufferFrame D}
    (hs : (g (bm.frame p)).pageState = (bm.frame p).pageState)
    (hd : (g (bm.frame p)).data.isSome) : Inv (bm.updateFrame p g) := by
  have hst : ∀ q, ((bm.updateFrame p g).frame q).pageState = (bm.frame q).pageState := fun q => by
    by_cases hqp : q = p
    · subst hqp; simpa using hs
    · simp [hqp]
  have hdat : ∀ q, ((bm.updateFrame p g).frame q).data.isSome = (bm.frame q).data.isSome := fun q => by
    by_cases hqp : q = p
    · subst hqp; simpa [hd] using ((hi.data q).mpr hp).symm
    · simp [hqp]
  have hother : ∀ q, q ≠ p → (bm.updateFrame p g).frame q = bm.frame q := fun q hqp => by simp [hqp]
  refine ⟨hi.nodup, fun q => ?_, fun q => ?_, fun q => ?_, hi.size, fun q hq => ?_, fun q => ?_,
    fun q hq => ?_⟩
  · rw [hst]; exact hi.inFifo q
  · rw [hst]; exact hi.inLru q
  · rw [hst]; exact hi.notLoading q
  · by_cases hqp : q = p
    · exact hqp ▸ hp
    · exact hi.fixed q (by simpa [Fixed, hother q hqp] using hq)
  · rw [hdat]; exact hi.data q
  · by_cases hqp : q = p
    · exact hqp ▸ hp
    · exact hi.dirty q (by simpa [hother q hqp] using hq)

/-- `unfix_page` of a fixed frame keeps the invariant: the frame stays resident, only its
dirty bit and its latch change. -/
theorem unfixPage (hi : Inv bm) (hp : bm.Fixed p) (dirty : Bool) :
    Inv (resultState (BufferManager.unfixPage p dirty bm)) := by
  have hres := hi.fixed p hp
  rw [unfixPage_run, resultState_ok]
  exact (hi.updateResident (g := fun f => { f with isDirty := f.isDirty || dirty, pageLatch := f.pageLatch.unlock })
    hres rfl ((hi.data p).mpr hres)).congr (fun _ => rfl) rfl rfl rfl

/-- Changing the bytes of a frame held exclusively keeps the invariant: the frame is
resident and keeps holding data. -/
theorem write (hi : Inv bm) (hp : (bm.frame p).pageLatch = .exclusive) (d : D) :
    Inv (bm.updateFrame p fun f => { f with data := some d }) :=
  hi.updateResident (hi.fixed p (by simp [Fixed, hp])) rfl rfl

/-- A `fix_page` that returns leaves the page fixed, with the latch it took. -/
theorem fixPage_ok (hi : Inv bm) {ex : Bool} (h : BufferManager.fixPage p ex bm = .ok () bm') :
    ∃ l, (bm.frame p).pageLatch.acquire ex = some l ∧ (bm'.frame p).pageLatch = l := by
  cases fixPage_cases hi p ex with
  | blocked _ _ hfix => rw [hfix] at h; cases h
  | fifoHit l hl _ hfix => rw [hfix] at h; cases h; exact ⟨l, hl, by simp⟩
  | lruHit l hl _ hfix => rw [hfix] at h; cases h; exact ⟨l, hl, by simp⟩
  | loadFree l _ hl _ _ hfix hf _ _ _ _ =>
    rw [hfix] at h; cases h; exact ⟨l, hl, by simp [hf, loadedFrame]⟩
  | loadFifo l _ _ _ hl _ _ _ _ hfix hf _ _ _ _ =>
    rw [hfix] at h; cases h; exact ⟨l, hl, by simp [hf, loadedFrame]⟩
  | loadLru l _ _ _ hl _ _ _ _ _ hfix hf _ _ _ _ =>
    rw [hfix] at h; cases h; exact ⟨l, hl, by simp [hf, loadedFrame]⟩
  | full _ _ _ _ _ hfix _ _ _ _ _ _ _ => rw [hfix] at h; cases h

/-- `fix_page` moves no latch but its page's: a frame it evicts was free and is free again.
A `fix_page` that throws moves none. -/
theorem fixPage_latch (hi : Inv bm) (ex : Bool) (q : Pid) :
    (q ≠ p → ((resultState (BufferManager.fixPage p ex bm)).frame q).pageLatch = (bm.frame q).pageLatch) ∧
    (∀ e bm', BufferManager.fixPage p ex bm = .error e bm' → (bm'.frame q).pageLatch = (bm.frame q).pageLatch) := by
  have hfree : ∀ {xs : List Pid} {v : Pid}, xs.find? bm.unfixed = some v →
      (bm.frame v).pageLatch = .unlocked := fun h => by simpa [unfixed] using List.find?_some h
  cases fixPage_cases hi p ex with
  | blocked _ _ hfix => simp [hfix]
  | fifoHit l _ _ hfix => refine ⟨fun hq => by simp [hfix, hq], fun e bm' h => by rw [hfix] at h; cases h⟩
  | lruHit l _ _ hfix => refine ⟨fun hq => by simp [hfix, hq], fun e bm' h => by rw [hfix] at h; cases h⟩
  | loadFree l bm' _ _ _ hfix hf _ _ _ _ =>
    refine ⟨fun hq => by simp [hfix, hf, hq], fun e bm' h => by rw [hfix] at h; cases h⟩
  | loadFifo l bm' v d _ _ _ hv _ hfix hf _ _ _ _ =>
    refine ⟨fun hq => ?_, fun e bm' h => by rw [hfix] at h; cases h⟩
    rw [hfix, resultState_ok, hf, if_neg hq]
    split_ifs with hqv
    · subst hqv; rw [hfree hv]; rfl
    · rfl
  | loadLru l bm' v d _ _ _ _ hv _ hfix hf _ _ _ _ =>
    refine ⟨fun hq => ?_, fun e bm' h => by rw [hfix] at h; cases h⟩
    rw [hfix, resultState_ok, hf, if_neg hq]
    split_ifs with hqv
    · subst hqv; rw [hfree hv]; rfl
    · rfl
  | full bm' _ _ _ _ hfix hf _ _ _ _ _ _ =>
    refine ⟨fun _ => by rw [hfix, resultState_error, hf], fun e bm'' h => ?_⟩
    rw [hfix] at h; cases h; rw [hf]

/-- A `fix_page` that throws `buffer_full_error` has given back the hold it took, logged as an
`unlock()`. -/
theorem fixPage_bufferFull (hi : Inv bm) {ex : Bool}
    (h : BufferManager.fixPage p ex bm = .error .bufferFull bm') :
    bm'.releases = bm.releases ++ [(p, if ex then .exclusive else .shared 0, .unlock)] := by
  cases fixPage_cases hi p ex with
  | full _ _ _ _ _ hfix _ _ _ _ _ _ hrel => rw [hfix] at h; cases h; exact hrel
  | blocked _ _ hfix => rw [hfix] at h; cases h
  | fifoHit _ _ _ hfix => rw [hfix] at h; cases h
  | lruHit _ _ _ hfix => rw [hfix] at h; cases h
  | loadFree _ _ _ _ _ hfix _ _ _ _ _ => rw [hfix] at h; cases h
  | loadFifo _ _ _ _ _ _ _ _ _ hfix _ _ _ _ _ => rw [hfix] at h; cases h
  | loadLru _ _ _ _ _ _ _ _ _ _ hfix _ _ _ _ _ => rw [hfix] at h; cases h

/-- No path of `fix_page` changes the number of frames. -/
theorem fixPage_pageCount (hi : Inv bm) (ex : Bool) :
    (resultState (BufferManager.fixPage p ex bm)).pageCount = bm.pageCount := by
  cases fixPage_cases hi p ex <;> simp_all

end Inv

end BufferManager

end SimpleDb
