import SimpleDb.Buffer.Policy

/-!
The buffer manager refines a plain map from page id to page bytes.

# The abstract map and the client's ghost

The map is `mem : Pid → D`: the segment files at creation, overwritten by every write of
the client (`mapStep`). A `Session` runs the manager and the map side by side, with one
more ghost field, `pending`: the pages written since their exclusive fix. It records the
client's side of the contract: bytes change only under an exclusive fix, and a fix under
which they changed is released with `is_dirty = true` (`Session.Reachable`).

# The coherence invariant

`Coherent` says, frame by frame, what the manager holds is what the map holds: a frame's
data is the map's bytes; a clean frame that is not being written has the map's bytes on
disk; and a page being written is held exclusively. With `Inv` (a frame holds data exactly
when it is resident, a page not resident is clean and not fixed) this makes `view`, the
bytes the manager would hand out, equal to the map in every reachable state
(`Coherent.view_eq`). Coherence is kept by every path of `fix_page`: a hit touches no
bytes; a load reads the segment, which for a clean page not resident is the map; an
eviction picks an unfixed frame, so one not being written, and flushes it when dirty, so
its block ends up holding the map's bytes either way.

# The destructor

`~BufferManager()` flushes every dirty frame, FIFO list first. Once the client holds no
page, it returns, and every segment block then holds the map's bytes (`destroy_writes_map`).
-/

namespace SimpleDb

namespace BufferManager

variable {D : Type}

-- ============================================================ the map and the session

/-- The plain map the cache refines: a write sets a page's bytes, no other call changes
them. -/
def mapStep (mem : Pid → D) : Call D → Pid → D
  | .write p d => Function.update mem p d
  | _ => mem

/-- The pages written since their exclusive fix: a write adds its page, an unfix removes
it. -/
def pendingStep (pending : Pid → Bool) : Call D → Pid → Bool
  | .write p _ => Function.update pending p true
  | .unfix p _ => Function.update pending p false
  | .fix _ _ => pending

/-- The client's promise on each call: a fix under which it wrote is released dirty. -/
def Promise (pending : Pid → Bool) : Call D → Prop
  | .unfix p dirty => pending p → dirty
  | _ => True

/-- The manager, the map it refines, and the pages being written. -/
structure Session (D : Type) where
  bm : BufferManager D
  mem : Pid → D
  pending : Pid → Bool

/-- The sessions of one client thread that keeps its promise, from
`BufferManager(page_size, n)` over segment files holding `segments`. -/
inductive Session.Reachable (n : Nat) (segments : Pid → D) : Session D → Prop
  | new : Session.Reachable n segments ⟨new n segments, segments, fun _ => false⟩
  | step {s : Session D} {c : Call D} {bm' : BufferManager D} :
      Session.Reachable n segments s → Step s.bm c bm' → Promise s.pending c →
      Session.Reachable n segments ⟨bm', mapStep s.mem c, pendingStep s.pending c⟩

/-- A session's manager is a state the thread reaches. -/
theorem Session.Reachable.bm {n : Nat} {segments : Pid → D} {s : Session D}
    (h : Session.Reachable n segments s) : BufferManager.Reachable n segments s.bm := by
  induction h with
  | new => exact .new
  | step _ hs _ ih => exact .step ih hs

/-- The bytes the manager hands out for page `p`: the frame's data when it holds any, else
the page's block of its segment file. -/
def view (bm : BufferManager D) (p : Pid) : D :=
  match (bm.frame p).data with
  | some d => d
  | none => bm.segments p

-- ============================================================ coherence

/-- Frame by frame, the manager holds the map's bytes. -/
structure Coherent (s : Session D) : Prop where
  data : ∀ q d, (s.bm.frame q).data = some d → d = s.mem q
  segments : ∀ q, (s.bm.frame q).isDirty = false → s.pending q = false → s.bm.segments q = s.mem q
  pending : ∀ q, s.pending q → (s.bm.frame q).pageLatch = .exclusive

namespace Coherent

variable {s : Session D}

/-- Coherent at creation: nothing loaded, every block is the map's. -/
theorem new (n : Nat) (segments : Pid → D) :
    Coherent ⟨new n segments, segments, fun _ => false⟩ :=
  ⟨fun _ _ h => by simp [BufferManager.new, frame, BufferFrame.init] at h, fun _ _ _ => rfl,
    fun _ h => by simp at h⟩

/-- A page that is not being written and not dirty has the map's bytes on disk; with
`Inv`, so has every page not resident. -/
theorem segments_of_not_resident (hc : Coherent s) (hi : Inv s.bm) {q : Pid}
    (hq : ¬ s.bm.Resident q) : s.bm.segments q = s.mem q := by
  refine hc.segments q ?_ ?_
  · cases h : (s.bm.frame q).isDirty
    · rfl
    · exact absurd (hi.dirty q h) hq
  · cases h : s.pending q
    · rfl
    · exact absurd (hi.fixed q (by simp [Fixed, hc.pending q h])) hq

/-- With `Inv`, the manager's view is the map. -/
theorem view_eq (hc : Coherent s) (hi : Inv s.bm) : s.bm.view = s.mem := by
  funext q
  unfold view
  split
  · exact hc.data q _ ‹_›
  · next hn =>
    exact hc.segments_of_not_resident hi fun hr => by simpa [hn] using (hi.data q).mpr hr

/-- Coherence reads a state through its frames' data, dirty bits and latches of pages
being written, and its segment files. -/
theorem congr (hc : Coherent s) {bm' : BufferManager D}
    (hdata : ∀ q, (bm'.frame q).data = (s.bm.frame q).data)
    (hdirty : ∀ q, (bm'.frame q).isDirty = (s.bm.frame q).isDirty) (hseg : bm'.segments = s.bm.segments)
    (hpend : ∀ q, s.pending q → (bm'.frame q).pageLatch = .exclusive) :
    Coherent ⟨bm', s.mem, s.pending⟩ :=
  ⟨fun q d h => hc.data q d (by rw [← hdata]; exact h),
    fun q h h' => by rw [hseg]; exact hc.segments q (by rw [← hdirty]; exact h) h', hpend⟩

/-- A page being written is fixed exclusively, so `fix_page` cannot take its latch again. -/
theorem not_pending_of_acquire (hc : Coherent s) {p : Pid} {ex : Bool}
    (hfree : (s.bm.frame p).pageLatch.acquire ex ≠ none) : s.pending p = false := by
  cases h : s.pending p
  · rfl
  · have := hc.pending p h
    cases ex <;> simp [Latch.acquire, Latch.lock, Latch.lockShared, this] at hfree

/-- A load of `p` that evicts `v` keeps coherence: the victim's block ends up holding the
map's bytes whether it was flushed or not, and `p` reads the map's bytes from its block. -/
theorem evictLoad (hc : Coherent s) (hi : Inv s.bm) {p v : Pid} {l : Latch} {d : D}
    {bm' : BufferManager D} (hp : ¬ s.bm.Resident p) (hv : s.bm.Resident v)
    (hfree : (s.bm.frame v).pageLatch = .unlocked) (hd : (s.bm.frame v).data = some d)
    (hf : ∀ q, bm'.frame q = if q = p then s.bm.loadedFrame p l else if q = v then .init else s.bm.frame q)
    (hseg : bm'.segments = s.bm.segmentsAfterEvict v d) (hpp : s.pending p = false) :
    Coherent ⟨bm', s.mem, s.pending⟩ := by
  have hpv : p ≠ v := fun e => hp (e ▸ hv)
  have hvp : s.pending v = false := by
    cases h : s.pending v
    · rfl
    · simp [hc.pending v h] at hfree
  have hsegv : bm'.segments v = s.mem v := by
    rw [hseg, segmentsAfterEvict]
    split
    · simpa using hc.data v d hd
    · next hclean => exact hc.segments v (Bool.eq_false_iff.mpr hclean) hvp
  have hsego : ∀ q, q ≠ v → bm'.segments q = s.bm.segments q := fun q hq => by
    rw [hseg, segmentsAfterEvict]; split <;> simp [hq]
  refine ⟨fun q e h => ?_, fun q h h' => ?_, fun q h => ?_⟩
  · rw [hf] at h
    split_ifs at h with hqp hqv
    · subst hqp
      simp only [loadedFrame, Option.some.injEq] at h
      rw [← h]; exact hc.segments_of_not_resident hi hp
    · simp [BufferFrame.init] at h
    · exact hc.data q e h
  · by_cases hqv : q = v
    · subst hqv; exact hsegv
    · rw [hsego q hqv]
      refine hc.segments q ?_ h'
      by_cases hqp : q = p
      · subst hqp
        cases hdq : (s.bm.frame q).isDirty
        · rfl
        · exact absurd (hi.dirty q hdq) hp
      · simpa [hf, hqp, hqv] using h
  · have hq := hc.pending q h
    have hqp : q ≠ p := fun e => by simp [e, hpp] at h
    have hqv : q ≠ v := fun e => by simp [e, hvp] at h
    simpa [hf, hqp, hqv] using hq

/-- Every path of `fix_page` that does not wait keeps coherence. -/
theorem fixPage (hc : Coherent s) (hi : Inv s.bm) {p : Pid} {ex : Bool}
    (hfree : (s.bm.frame p).pageLatch.acquire ex ≠ none) :
    Coherent ⟨resultState (BufferManager.fixPage p ex s.bm), s.mem, s.pending⟩ := by
  have hpp := hc.not_pending_of_acquire hfree
  have hfind : ∀ {xs : List Pid} {v : Pid}, xs.find? s.bm.unfixed = some v →
      v ∈ xs ∧ (s.bm.frame v).pageLatch = .unlocked := fun h =>
    ⟨List.mem_of_find?_eq_some h, by simpa [unfixed] using List.find?_some h⟩
  have hne : ∀ q, s.pending q → q ≠ p := fun q hq e => by simp [e, hpp] at hq
  cases fixPage_cases hi p ex with
  | blocked hl _ _ => exact absurd hl hfree
  | fifoHit l _ _ hfix =>
    rw [hfix, resultState_ok]
    refine hc.congr (fun q => ?_) (fun q => ?_) rfl fun q hq => by simpa [hne q hq] using hc.pending q hq
    all_goals by_cases hqp : q = p <;> simp [hqp]
  | lruHit l _ _ hfix =>
    rw [hfix, resultState_ok]
    refine hc.congr (fun q => ?_) (fun q => ?_) rfl fun q hq => by simpa [hne q hq] using hc.pending q hq
    all_goals by_cases hqp : q = p <;> simp [hqp]
  | loadFree l bm' _ hp _ hfix hf _ _ h3 _ =>
    rw [hfix, resultState_ok]
    refine ⟨fun q e h => ?_, fun q h h' => ?_, fun q h => ?_⟩
    · rw [hf] at h
      split_ifs at h with hqp
      · subst hqp
        simp only [loadedFrame, Option.some.injEq] at h
        rw [← h]; exact hc.segments_of_not_resident hi hp
      · exact hc.data q e h
    · rw [h3]
      refine hc.segments q ?_ h'
      by_cases hqp : q = p
      · subst hqp
        cases hdq : (s.bm.frame q).isDirty
        · rfl
        · exact absurd (hi.dirty q hdq) hp
      · simpa [hf, hqp] using h
    · simpa [hf, hne q h] using hc.pending q h
  | loadFifo l bm' v d _ hp _ hv hd hfix hf _ _ h3 _ =>
    obtain ⟨hmem, hfr⟩ := hfind hv
    rw [hfix, resultState_ok]
    exact hc.evictLoad hi hp (.inl hmem) hfr hd hf h3 hpp
  | loadLru l bm' v d _ hp _ _ hv hd hfix hf _ _ h3 _ =>
    obtain ⟨hmem, hfr⟩ := hfind hv
    rw [hfix, resultState_ok]
    exact hc.evictLoad hi hp (.inr hmem) hfr hd hf h3 hpp
  | full bm' _ _ _ _ hfix hf _ _ _ h3 _ _ =>
    rw [hfix, resultState_error]
    exact hc.congr (fun q => by rw [hf]) (fun q => by rw [hf]) h3 fun q h => by
      rw [hf]; exact hc.pending q h

/-- Every path of `fix_page` keeps coherence: one that would wait only adds a frame. -/
theorem fixPage_result (hc : Coherent s) (hi : Inv s.bm) (p : Pid) (ex : Bool) :
    Coherent ⟨resultState (BufferManager.fixPage p ex s.bm), s.mem, s.pending⟩ := by
  cases hl : (s.bm.frame p).pageLatch.acquire ex with
  | some _ => exact hc.fixPage hi (by simp [hl])
  | none =>
    rw [fixPage_blocked hl, resultState_error]
    exact hc.congr (by simp) (by simp) (by simp) fun q h => by simpa using hc.pending q h

/-- `unfix_page` of a fixed frame, released dirty if it was written, keeps coherence. -/
theorem unfixPage (hc : Coherent s) {p : Pid} {dirty : Bool} (hpromise : s.pending p → dirty) :
    Coherent ⟨resultState (BufferManager.unfixPage p dirty s.bm), s.mem,
      Function.update s.pending p false⟩ := by
  rw [unfixPage_run, resultState_ok]
  refine ⟨fun q d h => hc.data q d (by by_cases hqp : q = p <;> simp_all), fun q h h' => ?_,
    fun q h => ?_⟩
  · by_cases hqp : q = p
    · subst hqp
      simp only [frame_mk_pageTable, frame_updateFrame, if_true, Bool.or_eq_false_iff] at h
      exact hc.segments q h.1 (by cases hq : s.pending q <;> simp_all)
    · simp only [frame_mk_pageTable, frame_updateFrame, hqp, if_false, Function.update_noteq hqp] at h h'
      exact hc.segments q h h'
  · have hqp : q ≠ p := fun e => by subst e; simp at h
    simp only [Function.update_noteq hqp] at h
    simpa [hqp] using hc.pending q h

/-- A write to a page held exclusively keeps coherence: the frame and the map take the
same bytes, and the page is being written until its unfix. -/
theorem write (hc : Coherent s) {p : Pid} (hp : (s.bm.frame p).pageLatch = .exclusive) (d : D) :
    Coherent ⟨s.bm.writeData p d, Function.update s.mem p d, Function.update s.pending p true⟩ := by
  refine ⟨fun q e h => ?_, fun q h h' => ?_, fun q h => ?_⟩
  · by_cases hqp : q = p
    · subst hqp; simpa [writeData, eq_comm] using h
    · simp only [writeData, frame_updateFrame, hqp, if_false] at h
      simpa [hqp] using hc.data q e h
  · have hqp : q ≠ p := fun e => by subst e; simp at h'
    simp only [writeData, frame_updateFrame, hqp, if_false, Function.update_noteq hqp,
      updateFrame_segments] at h h' ⊢
    exact hc.segments q h h'
  · by_cases hqp : q = p
    · subst hqp; simpa [writeData] using hp
    · simp only [Function.update_noteq hqp] at h
      simpa [writeData, hqp] using hc.pending q h

/-- Every call the client can make, keeping its promise, keeps coherence. -/
theorem step (hc : Coherent s) (hi : Inv s.bm) {c : Call D} {bm' : BufferManager D}
    (h : Step s.bm c bm') (hpromise : Promise s.pending c) :
    Coherent ⟨bm', mapStep s.mem c, pendingStep s.pending c⟩ := by
  cases h with
  | fix hfree => exact hc.fixPage hi hfree
  | unfix _ => exact hc.unfixPage hpromise
  | write hp => exact hc.write hp _

end Coherent

/-- Every reachable session is coherent. -/
theorem Session.Reachable.coherent {n : Nat} {segments : Pid → D} {s : Session D}
    (h : Session.Reachable n segments s) : Coherent s := by
  induction h with
  | new => exact Coherent.new n segments
  | step hr hs hp ih => exact ih.step hr.bm.inv hs hp

-- ============================================================ the destructor

/-- One turn of the destructor's loop on a frame nobody holds: flushed if dirty, its data
freed. -/
theorem flushFrames_cons {bm : BufferManager D} {q : Pid} (rest : List Pid)
    (hu : (bm.frame q).pageLatch = .unlocked) :
    flushFrames (q :: rest) bm =
      flushFrames rest ((if (bm.frame q).isDirty then bm.flush q else bm).updateFrame q
        fun f => { f with data := none }) := by
  simp only [flushFrames, bind, EStateM.bind, get, getThe, MonadStateOf.get, EStateM.get, hu,
    ne_eq, not_true_eq_false, if_false, pure, EStateM.pure]
  split <;> rfl

/-- The destructor's loop over a list of frames nobody holds, each holding `mem`'s bytes
and, when clean, with `mem`'s bytes on disk: it returns with `mem`'s bytes in the block of
every page of the list, and leaves the other blocks, the other frames and both lists as
they were. -/
theorem flushFrames_spec (mem : Pid → D) : ∀ (l : List Pid) (bm : BufferManager D), l.Nodup →
    (∀ q ∈ l, (bm.frame q).pageLatch = .unlocked ∧ (bm.frame q).data = some (mem q) ∧
      ((bm.frame q).isDirty = false → bm.segments q = mem q)) →
    ∃ bm', flushFrames l bm = .ok () bm' ∧ (∀ q ∈ l, bm'.segments q = mem q) ∧
      (∀ q ∉ l, bm'.segments q = bm.segments q ∧ bm'.frame q = bm.frame q) ∧
      bm'.lruList = bm.lruList
  | [], bm, _, _ => ⟨bm, rfl, by simp, fun _ _ => ⟨rfl, rfl⟩, rfl⟩
  | q :: rest, bm, hnd, hpre => by
    obtain ⟨hu, hd, hclean⟩ := hpre q (List.mem_cons_self _ _)
    obtain ⟨hq, hnd'⟩ := List.nodup_cons.mp hnd
    set bm1 := (if (bm.frame q).isDirty then bm.flush q else bm).updateFrame q
      fun f => { f with data := none } with hbm1
    have hseg1 : ∀ r, bm1.segments r = if r = q then mem q else bm.segments r := fun r => by
      by_cases hdq : (bm.frame q).isDirty
      · by_cases hr : r = q
        · subst hr; simp [hbm1, hdq, flush_of_data hd]
        · simp [hbm1, hdq, flush_of_data hd, hr]
      · by_cases hr : r = q
        · subst hr; simp [hbm1, hdq, hclean (Bool.eq_false_iff.mpr hdq)]
        · simp [hbm1, hdq, hr]
    have hframe1 : ∀ r, r ≠ q → bm1.frame r = bm.frame r := fun r hr => by
      by_cases hdq : (bm.frame q).isDirty <;> simp [hbm1, hdq, frame_flush, hr]
    have hlru1 : bm1.lruList = bm.lruList := by
      by_cases hdq : (bm.frame q).isDirty <;> simp [hbm1, hdq]
    obtain ⟨bm', hrun, hin, hout, hlru⟩ := flushFrames_spec mem rest bm1 hnd' fun r hr => by
      have hrq : r ≠ q := fun e => hq (e ▸ hr)
      rw [hframe1 r hrq, hseg1 r, if_neg hrq]
      exact hpre r (List.mem_cons_of_mem _ hr)
    refine ⟨bm', by rw [flushFrames_cons rest hu, hrun], fun r hr => ?_, fun r hr => ?_, ?_⟩
    · rcases List.mem_cons.mp hr with rfl | hr
      · rw [(hout r hq).1, hseg1, if_pos rfl]
      · exact hin r hr
    · have hrq : r ≠ q := fun e => hr (e ▸ List.mem_cons_self _ _)
      have hrr : r ∉ rest := fun h => hr (List.mem_cons_of_mem _ h)
      rw [(hout r hrr).1, (hout r hrr).2, hseg1, if_neg hrq, hframe1 r hrq]
      exact ⟨rfl, rfl⟩
    · rw [hlru, hlru1]

/-- The destructor after its FIFO loop has returned: the LRU loop. -/
theorem destroy_run {bm bm1 : BufferManager D} (h : flushFrames bm.fifoList bm = .ok () bm1) :
    destroy bm = flushFrames bm1.lruList bm1 := by
  simp only [destroy, bind, EStateM.bind, get, getThe, MonadStateOf.get, EStateM.get, h]

/-- Once the client holds no page, the destructor of a coherent manager returns, and every
segment block then holds the map's bytes. -/
theorem Coherent.destroy {s : Session D} (hc : Coherent s) (hi : Inv s.bm)
    (hfree : ∀ q, ¬ s.bm.Fixed q) :
    ∃ bm', destroy s.bm = .ok () bm' ∧ bm'.segments = s.mem := by
  have hnd := List.nodup_append.mp hi.nodup
  have hpre : ∀ q, s.bm.Resident q → (s.bm.frame q).pageLatch = .unlocked ∧
      (s.bm.frame q).data = some (s.mem q) ∧
      ((s.bm.frame q).isDirty = false → s.bm.segments q = s.mem q) := fun q hq => by
    have hu : (s.bm.frame q).pageLatch = .unlocked := not_not.mp (hfree q)
    obtain ⟨d, hd⟩ := Option.isSome_iff_exists.mp ((hi.data q).mpr hq)
    refine ⟨hu, by rw [hd, hc.data q d hd], fun hcl => hc.segments q hcl ?_⟩
    cases h : s.pending q
    · rfl
    · simp [hc.pending q h] at hu
  obtain ⟨bm1, h1, hin1, hout1, hlru1⟩ :=
    flushFrames_spec s.mem s.bm.fifoList s.bm hnd.1 fun q hq => hpre q (.inl hq)
  obtain ⟨bm2, h2, hin2, hout2, -⟩ := flushFrames_spec s.mem bm1.lruList bm1 (hlru1 ▸ hnd.2.1)
    fun q hq => by
      rw [hlru1] at hq
      have hqf : q ∉ s.bm.fifoList := fun h => hnd.2.2 h hq
      rw [(hout1 q hqf).1, (hout1 q hqf).2]
      exact hpre q (.inr hq)
  refine ⟨bm2, by rw [destroy_run h1, h2], funext fun q => ?_⟩
  by_cases hql : q ∈ bm1.lruList
  · exact hin2 q hql
  · rw [(hout2 q hql).1]
    by_cases hqf : q ∈ s.bm.fifoList
    · exact hin1 q hqf
    · rw [(hout1 q hqf).1]
      exact hc.segments_of_not_resident hi fun h => h.elim hqf (hlru1 ▸ hql)

-- ============================================================ the refinement

/-- The buffer manager refines a plain map from page id to page bytes: in every state a
client thread reaches while keeping its promise, the bytes the manager holds for each page
are the map's, every `fix_page` that returns exposes the map's bytes of its page, and once
no page is fixed the destructor returns with the map written to the segment files. -/
theorem cache_refines_map {n : Nat} {segments : Pid → D} {s : Session D}
    (h : Session.Reachable n segments s) :
    s.bm.view = s.mem ∧
    (∀ p ex bm', fixPage p ex s.bm = .ok () bm' → (bm'.frame p).data = some (s.mem p)) ∧
    ((∀ q, ¬ s.bm.Fixed q) → ∃ bm', destroy s.bm = .ok () bm' ∧ bm'.segments = s.mem) := by
  have hc := h.coherent
  have hi := h.bm.inv
  refine ⟨hc.view_eq hi, fun p ex bm' hfix => ?_, hc.destroy hi⟩
  obtain ⟨l, hl, hlp⟩ := hi.fixPage_ok hfix
  have hfree : (s.bm.frame p).pageLatch.acquire ex ≠ none := by simp [hl]
  have hc' := hc.fixPage hi hfree
  have hi' := hi.fixPage p ex
  rw [hfix, resultState_ok] at hc' hi'
  have hres : bm'.Resident p := hi'.fixed p (by simp [Fixed, hlp, Latch.acquire_ne_unlocked hl])
  obtain ⟨d, hd⟩ := Option.isSome_iff_exists.mp ((hi'.data p).mpr hres)
  rw [hd, hc'.data p d hd]

/-- One frame: page zero fixed exclusively, written `7` and released dirty; then page one
fixed and released, which evicts page zero and writes it back to its block. -/
def evictedSession : Session Nat :=
  ⟨resultState (unfixPage 1 false (resultState (fixPage 1 false (resultState (unfixPage 0 true
      ((resultState (fixPage 0 true (new 1 fun _ => 0))).writeData 0 7)))))),
    Function.update (fun _ => 0) 0 7,
    Function.update (Function.update (Function.update (fun _ => false) 0 true) 0 false) 1 false⟩

theorem reachable_evictedSession : Session.Reachable 1 (fun _ => (0 : Nat)) evictedSession := by
  have h₁ : Session.Reachable 1 (fun _ => (0 : Nat))
      ⟨resultState (fixPage 0 true (new 1 fun _ => 0)), fun _ => 0, fun _ => false⟩ :=
    .step .new (.fix (by decide)) trivial
  have h₂ : Session.Reachable 1 (fun _ => (0 : Nat))
      ⟨(resultState (fixPage 0 true (new 1 fun _ => 0))).writeData 0 7, Function.update (fun _ => 0) 0 7,
        Function.update (fun _ => false) 0 true⟩ :=
    .step h₁ (.write (by decide)) trivial
  have h₃ := h₂.step (c := .unfix 0 true) (.unfix (by decide)) fun _ => rfl
  have h₄ := h₃.step (c := .fix 1 false) (.fix (by decide)) trivial
  exact h₄.step (c := .unfix 1 false) (.unfix (by decide)) fun h => absurd h (by decide)

theorem evictedSession_refines_map :
    Session.Reachable 1 (fun _ => (0 : Nat)) evictedSession ∧
    evictedSession.bm.view = evictedSession.mem ∧
    (∀ p ex bm', fixPage p ex evictedSession.bm = .ok () bm' → (bm'.frame p).data = some (evictedSession.mem p)) ∧
    ((∀ q, ¬ evictedSession.bm.Fixed q) →
      ∃ bm', destroy evictedSession.bm = .ok () bm' ∧ bm'.segments = evictedSession.mem) :=
  ⟨reachable_evictedSession, cache_refines_map reachable_evictedSession⟩

end BufferManager

end SimpleDb
