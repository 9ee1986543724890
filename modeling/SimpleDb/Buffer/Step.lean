import SimpleDb.Buffer.Manager

/-!
What one buffer-manager call does, read off the code once: a lemma per path through
`insertBufferFrame`, `loadPage` and `fix_page`, stating the exact state it ends in. Every
later proof about the manager cites these and never unfolds a method.

# Frames

`frame` reads a page id the table has never seen as `BufferFrame(pid)`, so adding that
frame (`ensureFrame`) changes no frame anyone can read (`frame_ensureFrame`), and
`updateFrame` changes exactly one (`frame_updateFrame`).
-/

namespace SimpleDb

namespace BufferManager

variable {D : Type} {bm : BufferManager D}

-- ============================================================ frame algebra

/-- A frame is read off the page table, the initial frame where it has none. -/
theorem frame_mk (n : Nat) (pt : Pid → Option (BufferFrame D)) (f l : List Pid)
    (s : Pid → D) (r : List (Pid × Latch × Release)) (q : Pid) :
    (BufferManager.mk n pt f l s r).frame q = (pt q).getD .init := rfl

/-- Frames are read off the page table alone: a state built with another state's table
has that state's frames. -/
@[simp] theorem frame_mk_pageTable (n : Nat) (f l : List Pid) (s : Pid → D)
    (r : List (Pid × Latch × Release)) (q : Pid) :
    (BufferManager.mk n bm.pageTable f l s r).frame q = bm.frame q := rfl

/-- The frame of `q`, as `frame` reads it. -/
@[simp] theorem pageTable_getD (q : Pid) : (bm.pageTable q).getD .init = bm.frame q := rfl

/-- `updateFrame` writes the page table at its page. -/
theorem updateFrame_pageTable (p : Pid) (g : BufferFrame D → BufferFrame D) :
    (bm.updateFrame p g).pageTable = Function.update bm.pageTable p (some (g (bm.frame p))) := rfl

/-- `updateFrame` changes the frame of its page and no other. -/
@[simp] theorem frame_updateFrame (bm : BufferManager D) (p q : Pid) (g : BufferFrame D → BufferFrame D) :
    (bm.updateFrame p g).frame q = if q = p then g (bm.frame p) else bm.frame q := by
  simp only [frame, updateFrame]
  split_ifs with h
  · subst h; simp
  · simp [Function.update_noteq h]

/-- `updateFrame` leaves the FIFO list. -/
@[simp] theorem updateFrame_fifoList (p : Pid) (g : BufferFrame D → BufferFrame D) :
    (bm.updateFrame p g).fifoList = bm.fifoList := rfl

/-- `updateFrame` leaves the LRU list. -/
@[simp] theorem updateFrame_lruList (p : Pid) (g : BufferFrame D → BufferFrame D) :
    (bm.updateFrame p g).lruList = bm.lruList := rfl

/-- `updateFrame` leaves the blocks on disk. -/
@[simp] theorem updateFrame_segments (p : Pid) (g : BufferFrame D → BufferFrame D) :
    (bm.updateFrame p g).segments = bm.segments := rfl

/-- `updateFrame` leaves the number of frames. -/
@[simp] theorem updateFrame_pageCount (p : Pid) (g : BufferFrame D → BufferFrame D) :
    (bm.updateFrame p g).pageCount = bm.pageCount := rfl

/-- `updateFrame` leaves the log of releases. -/
@[simp] theorem updateFrame_releases (p : Pid) (g : BufferFrame D → BufferFrame D) :
    (bm.updateFrame p g).releases = bm.releases := rfl

/-- A release frees one hold of the page's latch, whatever its kind, and logs the call. -/
theorem release_eq (p : Pid) (kind : Release) :
    bm.release p kind = { bm.updateFrame p (fun f => { f with pageLatch := f.pageLatch.unlock }) with
      releases := bm.releases ++ [(p, (bm.frame p).pageLatch, kind)] } := rfl

/-- A release frees one hold on the latch of its page and changes no other frame. -/
@[simp] theorem frame_release (p q : Pid) (kind : Release) :
    (bm.release p kind).frame q =
      if q = p then { bm.frame p with pageLatch := (bm.frame p).pageLatch.unlock } else bm.frame q := by
  simp only [release, frame_mk_pageTable, frame_updateFrame]

/-- A release is logged with the latch it found and its kind. -/
@[simp] theorem release_releases (p : Pid) (kind : Release) :
    (bm.release p kind).releases = bm.releases ++ [(p, (bm.frame p).pageLatch, kind)] := rfl

/-- A release writes the page table at its page only. -/
@[simp] theorem release_pageTable (p : Pid) (kind : Release) :
    (bm.release p kind).pageTable = (bm.updateFrame p fun f => { f with pageLatch := f.pageLatch.unlock }).pageTable :=
  rfl

/-- A release leaves the FIFO list. -/
@[simp] theorem release_fifoList (p : Pid) (kind : Release) : (bm.release p kind).fifoList = bm.fifoList := rfl

/-- A release leaves the LRU list. -/
@[simp] theorem release_lruList (p : Pid) (kind : Release) : (bm.release p kind).lruList = bm.lruList := rfl

/-- A release leaves the blocks on disk. -/
@[simp] theorem release_segments (p : Pid) (kind : Release) : (bm.release p kind).segments = bm.segments := rfl

/-- A release leaves the number of frames. -/
@[simp] theorem release_pageCount (p : Pid) (kind : Release) : (bm.release p kind).pageCount = bm.pageCount := rfl

/-- `get_buffer_frame` changes no frame: a missing entry reads as the initial frame. -/
@[simp] theorem frame_ensureFrame (p q : Pid) : (bm.ensureFrame p).frame q = bm.frame q := by
  unfold ensureFrame
  split
  · rfl
  · next h =>
    unfold frame
    by_cases hq : q = p
    · subst hq; simp [h]
    · simp [Function.update_noteq hq]

/-- `get_buffer_frame` leaves the FIFO list. -/
@[simp] theorem ensureFrame_fifoList (p : Pid) : (bm.ensureFrame p).fifoList = bm.fifoList := by
  unfold ensureFrame; split <;> rfl

/-- `get_buffer_frame` leaves the LRU list. -/
@[simp] theorem ensureFrame_lruList (p : Pid) : (bm.ensureFrame p).lruList = bm.lruList := by
  unfold ensureFrame; split <;> rfl

/-- `get_buffer_frame` leaves the blocks on disk. -/
@[simp] theorem ensureFrame_segments (p : Pid) : (bm.ensureFrame p).segments = bm.segments := by
  unfold ensureFrame; split <;> rfl

/-- `get_buffer_frame` leaves the number of frames. -/
@[simp] theorem ensureFrame_pageCount (p : Pid) : (bm.ensureFrame p).pageCount = bm.pageCount := by
  unfold ensureFrame; split <;> rfl

/-- Writing a frame overrides whatever `ensureFrame` put there. -/
theorem updateFrame_ensureFrame (p : Pid) (g : BufferFrame D → BufferFrame D) :
    (bm.ensureFrame p).updateFrame p g = bm.updateFrame p g := by
  unfold updateFrame
  rw [frame_ensureFrame]
  unfold ensureFrame
  split
  · rfl
  · simp

/-- Two updates of one frame are one update by their composite. -/
theorem updateFrame_updateFrame (p : Pid) (g h : BufferFrame D → BufferFrame D) :
    (bm.updateFrame p g).updateFrame p h = bm.updateFrame p (h ∘ g) := by
  simp only [updateFrame, frame_mk, Function.update_same, Option.getD_some,
    Function.update_idem, Function.comp_apply]

/-- A flush writes the frame's data to its block and clears its dirty bit. -/
theorem flush_of_data {p : Pid} {d : D} (h : (bm.frame p).data = some d) :
    bm.flush p = { bm.updateFrame p (fun f => { f with isDirty := false }) with
      segments := Function.update bm.segments p d } := by
  simp [flush, h]

/-- A flush leaves the FIFO list. -/
@[simp] theorem flush_fifoList (p : Pid) : (bm.flush p).fifoList = bm.fifoList := by
  unfold flush; split <;> rfl

/-- A flush leaves the LRU list. -/
@[simp] theorem flush_lruList (p : Pid) : (bm.flush p).lruList = bm.lruList := by
  unfold flush; split <;> rfl

/-- A flush leaves the number of frames. -/
@[simp] theorem flush_pageCount (p : Pid) : (bm.flush p).pageCount = bm.pageCount := by
  unfold flush; split <;> rfl

/-- A flush changes the frame of its page only. -/
theorem frame_flush (p q : Pid) :
    (bm.flush p).frame q =
      if q = p ∧ (bm.frame p).data.isSome then { bm.frame q with isDirty := false }
      else bm.frame q := by
  unfold flush
  split
  · next d h => by_cases hq : q = p <;> simp [hq, h]
  · next h => simp [h]

/-- An eviction leaves the FIFO list. -/
@[simp] theorem evict_fifoList (p : Pid) : (bm.evict p).fifoList = bm.fifoList := by
  unfold evict; split <;> simp

/-- An eviction leaves the LRU list. -/
@[simp] theorem evict_lruList (p : Pid) : (bm.evict p).lruList = bm.lruList := by
  unfold evict; split <;> simp

/-- An eviction leaves the number of frames. -/
@[simp] theorem evict_pageCount (p : Pid) : (bm.evict p).pageCount = bm.pageCount := by
  unfold evict; split <;> simp

/-- An eviction commutes with setting the FIFO list. -/
theorem evict_set_fifoList (x : List Pid) (p : Pid) :
    ({ bm with fifoList := x } : BufferManager D).evict p = { bm.evict p with fifoList := x } := by
  unfold evict flush
  simp only [frame_mk_pageTable]
  split_ifs <;> (try split) <;> rfl

/-- An eviction commutes with setting both lists. -/
theorem evict_set_lists (x y : List Pid) (p : Pid) :
    ({ bm with lruList := x, fifoList := y } : BufferManager D).evict p =
      { bm.evict p with lruList := x, fifoList := y } := by
  unfold evict flush
  simp only [frame_mk_pageTable]
  split_ifs <;> (try split) <;> rfl

/-- An eviction of a frame holding data leaves it not loaded, clean, without data, with
one hold fewer, and no other frame changed. -/
theorem frame_evict {p : Pid} {d : D} (hd : (bm.frame p).data = some d) (q : Pid) :
    (bm.evict p).frame q =
      if q = p then
        { pageState := .notLoaded, data := none, isDirty := false,
          pageLatch := (bm.frame p).pageLatch.unlock }
      else bm.frame q := by
  unfold evict
  by_cases hq : q = p
  · subst hq
    cases hdirty : (bm.frame q).isDirty <;> simp [frame_flush, hd, hdirty]
  · split <;> simp [frame_flush, hq]

/-- An eviction writes the victim's data to its block exactly when it is dirty. -/
theorem evict_segments {p : Pid} {d : D} (hd : (bm.frame p).data = some d) :
    (bm.evict p).segments =
      if (bm.frame p).isDirty then Function.update bm.segments p d else bm.segments := by
  unfold evict
  split <;> simp [flush_of_data hd]

-- ============================================================ method runs

/-- `get_buffer_frame(page_id)` makes sure the page has an entry. -/
theorem getBufferFrame_run (p : Pid) : getBufferFrame p bm = .ok () (bm.ensureFrame p) := rfl

/-- A change of one frame, run. -/
theorem modifyFrame_run (p : Pid) (g : BufferFrame D → BufferFrame D) :
    modifyFrame p g bm = .ok () (bm.updateFrame p g) := rfl

/-- A fix of a page in the LRU list moves it to the back. -/
theorem updateLru_run (p : Pid) :
    updateLru p bm = .ok () { bm with lruList := bm.lruList.erase p ++ [p] } := rfl

/-- `unfix_page`: the dirty bit set if asked, one hold freed, and the release logged as an
`unlock()` of the latch as it was held. -/
theorem unfixPage_run (p : Pid) (dirty : Bool) :
    unfixPage p dirty bm =
      .ok () { bm.updateFrame p (fun f =>
          { f with isDirty := f.isDirty || dirty, pageLatch := f.pageLatch.unlock }) with
        releases := bm.releases ++ [(p, (bm.frame p).pageLatch, .unlock)] } := by
  show EStateM.Result.ok () ((bm.updateFrame p fun f => { f with isDirty := f.isDirty || dirty }).release
    p .unlock) = _
  rw [release_eq, updateFrame_updateFrame, frame_updateFrame, if_pos rfl]
  rfl

/-- `try_lock` of the first unfixed frame of a list: its latch taken exclusively. -/
theorem lockEvictableFrame_some {l : List Pid} {i : Nat} (h : bm.evictableIdx l = some i) :
    lockEvictableFrame l bm =
      .ok (some i) (bm.updateFrame (l.getD i 0) fun f => { f with pageLatch := .exclusive }) := by
  simp only [lockEvictableFrame, bind, EStateM.bind, get, getThe, MonadStateOf.get, EStateM.get, h]
  rfl

/-- A list whose frames are all fixed offers no victim. -/
theorem lockEvictableFrame_none {l : List Pid} (h : bm.evictableIdx l = none) :
    lockEvictableFrame l bm = .ok none bm := by
  simp only [lockEvictableFrame, bind, EStateM.bind, get, getThe, MonadStateOf.get, EStateM.get, h]
  rfl

/-- A free frame: the page joins the back of the FIFO list. -/
theorem insertBufferFrame_space {p : Pid}
    (h : bm.fifoList.length + bm.lruList.length < bm.pageCount) :
    insertBufferFrame p bm = .ok true { bm with fifoList := bm.fifoList ++ [p] } := by
  simp only [insertBufferFrame, bind, EStateM.bind, get, getThe, MonadStateOf.get, EStateM.get, h,
    if_true]
  rfl

/-- No free frame: the first unfixed page of the FIFO list is evicted, and the page takes its place
at the back. -/
theorem insertBufferFrame_fifo {p : Pid} {i : Nat}
    (h : ¬ bm.fifoList.length + bm.lruList.length < bm.pageCount)
    (hi : bm.evictableIdx bm.fifoList = some i) :
    insertBufferFrame p bm = .ok true
      ({ bm.updateFrame (bm.fifoList.getD i 0) (fun f => { f with pageLatch := .exclusive }) with
          fifoList := bm.fifoList.eraseIdx i ++ [p] }.evict (bm.fifoList.getD i 0)) := by
  simp only [insertBufferFrame, bind, EStateM.bind, get, getThe, MonadStateOf.get, EStateM.get,
    pure, EStateM.pure, h, if_false, lockEvictableFrame_some hi]
  rfl

/-- No free frame and every FIFO page fixed: the first unfixed page of the LRU list is evicted. -/
theorem insertBufferFrame_lru {p : Pid} {i : Nat}
    (h : ¬ bm.fifoList.length + bm.lruList.length < bm.pageCount)
    (hf : bm.evictableIdx bm.fifoList = none) (hi : bm.evictableIdx bm.lruList = some i) :
    insertBufferFrame p bm = .ok true
      ({ bm.updateFrame (bm.lruList.getD i 0) (fun f => { f with pageLatch := .exclusive }) with
          lruList := bm.lruList.eraseIdx i, fifoList := bm.fifoList ++ [p] }.evict
        (bm.lruList.getD i 0)) := by
  simp only [insertBufferFrame, bind, EStateM.bind, get, getThe, MonadStateOf.get, EStateM.get,
    pure, EStateM.pure, h, if_false, lockEvictableFrame_none hf, lockEvictableFrame_some hi]
  rfl

/-- No free frame and every page fixed: no room, and nothing changes. -/
theorem insertBufferFrame_full {p : Pid}
    (h : ¬ bm.fifoList.length + bm.lruList.length < bm.pageCount)
    (hf : bm.evictableIdx bm.fifoList = none) (hl : bm.evictableIdx bm.lruList = none) :
    insertBufferFrame p bm = .ok false bm := by
  simp only [insertBufferFrame, bind, EStateM.bind, get, getThe, MonadStateOf.get, EStateM.get,
    pure, EStateM.pure, h, if_false, lockEvictableFrame_none hf, lockEvictableFrame_none hl]

/-- A page not loaded is loaded when a frame is found for it, and marked not loaded again when none
is. -/
theorem loadPage_notLoaded {p : Pid} (hs : (bm.frame p).pageState = .notLoaded) {b : Bool}
    {bm' : BufferManager D}
    (hins : insertBufferFrame p (bm.updateFrame p fun f => { f with pageState := .loading }) = .ok b bm') :
    loadPage p bm = if b then
      .ok true (bm'.updateFrame p fun f => { f with data := some (bm'.segments p), pageState := .inFifo })
      else .ok false (bm'.updateFrame p fun f => { f with pageState := .notLoaded }) := by
  simp only [loadPage, bind, EStateM.bind, get, getThe, MonadStateOf.get, EStateM.get, pure,
    EStateM.pure, hs, modifyFrame_run, hins, reduceCtorEq, if_false, or_self, frame_updateFrame, if_true]
  cases b <;> rfl

/-- A latch the caller cannot take: the thread waits there, or, on an exclusive hold of its own,
`lock` throws; the page keeps the entry `get_buffer_frame` gave it. -/
theorem fixPage_blocked {p : Pid} {ex : Bool} (h : (bm.frame p).pageLatch.acquire ex = none) :
    fixPage p ex bm = .error .blocked (bm.ensureFrame p) := by
  simp only [fixPage, bind, EStateM.bind, get, getThe, MonadStateOf.get, EStateM.get, pure,
    EStateM.pure, getBufferFrame_run, frame_ensureFrame, h, throw, throwThe, MonadExceptOf.throw,
    EStateM.throw]

/-- A fix of a page in the LRU list: its latch taken, the page moved to the back. -/
theorem fixPage_inLru {p : Pid} {ex : Bool} {l : Latch}
    (h : (bm.frame p).pageLatch.acquire ex = some l) (hs : (bm.frame p).pageState = .inLru) :
    fixPage p ex bm = .ok () { bm.updateFrame p (fun f => { f with pageLatch := l }) with
      lruList := bm.lruList.erase p ++ [p] } := by
  simp only [fixPage, bind, EStateM.bind, get, getThe, MonadStateOf.get, EStateM.get, pure,
    EStateM.pure, getBufferFrame_run, frame_ensureFrame, h, modifyFrame_run, frame_updateFrame,
    if_true, hs, updateLru_run, updateFrame_ensureFrame]
  rfl

/-- A fix of a page in the FIFO list: its latch taken, the page moved to the LRU list. -/
theorem fixPage_inFifo {p : Pid} {ex : Bool} {l : Latch}
    (h : (bm.frame p).pageLatch.acquire ex = some l) (hs : (bm.frame p).pageState = .inFifo) :
    fixPage p ex bm = .ok () { bm.updateFrame p (fun f => { f with pageLatch := l, pageState := .inLru }) with
      fifoList := bm.fifoList.erase p, lruList := bm.lruList ++ [p] } := by
  simp only [fixPage, bind, EStateM.bind, get, getThe, MonadStateOf.get, EStateM.get, pure,
    EStateM.pure, getBufferFrame_run, frame_ensureFrame, h, modifyFrame_run, frame_updateFrame,
    if_true, hs, updateFrame_ensureFrame, modify, modifyGet, MonadStateOf.modifyGet,
    EStateM.modifyGet, reduceCtorEq, if_false]
  simp only [updateFrame, frame_mk, Function.update_same, Function.update_idem, Option.getD_some]

/-- A fix of a page not loaded: loaded when a frame is found, `buffer_full_error` with the latch
given back when none is. -/
theorem fixPage_notLoaded {p : Pid} {ex : Bool} {l : Latch}
    (h : (bm.frame p).pageLatch.acquire ex = some l) (hs : (bm.frame p).pageState = .notLoaded)
    {b : Bool} {bm' : BufferManager D}
    (hload : loadPage p (bm.updateFrame p fun f => { f with pageLatch := l }) = .ok b bm') :
    fixPage p ex bm = if b then .ok () bm' else .error .bufferFull (bm'.release p .unlock) := by
  simp only [fixPage, bind, EStateM.bind, get, getThe, MonadStateOf.get, EStateM.get, pure,
    EStateM.pure, getBufferFrame_run, frame_ensureFrame, h, modifyFrame_run, frame_updateFrame,
    if_true, hs, updateFrame_ensureFrame, hload, throw, throwThe, MonadExceptOf.throw, EStateM.throw]
  cases b <;> rfl

-- ============================================================ loads

/-- `acquire` never hands out a free latch. -/
theorem Latch.acquire_ne_unlocked {l l' : Latch} {ex : Bool} (h : l.acquire ex = some l') :
    l' ≠ .unlocked := by
  cases ex <;> cases l <;> simp [Latch.acquire, Latch.lock, Latch.lockShared] at h <;> subst h <;> simp

/-- An exclusive hold is the only hold on its latch. -/
theorem Latch.acquire_true {l l' : Latch} (h : l.acquire true = some l') : l' = .exclusive := by
  cases l <;> simp [Latch.acquire, Latch.lock] at h; exact h.symm

/-- `unlock` gives back exactly the hold `acquire` took. -/
theorem Latch.unlock_of_acquire {l l' : Latch} {ex : Bool} (h : l.acquire ex = some l') :
    l'.unlock = l := by
  cases ex <;> cases l <;> simp [Latch.acquire, Latch.lock, Latch.lockShared] at h <;> subst h <;> rfl

/-- `unlock()` is the release the standard defines for the hold `acquire` took only when that
hold is exclusive. -/
theorem Latch.release_unlock_of_acquire {l l' : Latch} {ex : Bool} (h : l.acquire ex = some l') :
    l'.release .unlock = if ex then some .unlocked else none := by
  cases ex <;> cases l <;> simp [Latch.acquire, Latch.lock, Latch.lockShared] at h <;> subst h <;> rfl

/-- The frame `try_lock` picks is in the list and nobody holds its latch. -/
theorem evictableIdx_spec {l : List Pid} {i : Nat} (h : bm.evictableIdx l = some i) :
    l.getD i 0 ∈ l ∧ (bm.frame (l.getD i 0)).pageLatch = .unlocked := by
  obtain ⟨hi, hp, -⟩ := List.findIdx?_eq_some_iff_getElem.mp h
  rw [List.getD_eq_getElem _ _ hi]
  exact ⟨List.getElem_mem hi, of_decide_eq_true hp⟩

/-- `findIdx?` reads its predicate only on the list's members. -/
private theorem findIdx?_congr {α : Type} {l : List α} {f g : α → Bool} (h : ∀ x ∈ l, f x = g x)
    (n : Nat) : l.findIdx? f n = l.findIdx? g n := by
  induction l generalizing n with
  | nil => rfl
  | cons x xs ih =>
    simp only [List.findIdx?_cons, h x (List.mem_cons_self _ _),
      ih (fun y hy => h y (List.mem_cons_of_mem _ hy))]

/-- Frames outside the list do not move `try_lock`'s pick. -/
theorem evictableIdx_updateFrame {l : List Pid} {p : Pid} (hp : p ∉ l)
    (g : BufferFrame D → BufferFrame D) : (bm.updateFrame p g).evictableIdx l = bm.evictableIdx l :=
  findIdx?_congr (fun q hq => by simp [show q ≠ p from fun h => hp (h ▸ hq)]) 0


section load

variable {p : Pid} {ex : Bool} {l : Latch}

/-- The state `insertBufferFrame` starts from inside `fix_page`: latch taken, `LOADING`. -/
private theorem load_start (h : (bm.frame p).pageLatch.acquire ex = some l)
    (hs : (bm.frame p).pageState = .notLoaded) {b : Bool} {bm' : BufferManager D}
    (hins : insertBufferFrame p (bm.updateFrame p fun f =>
      { f with pageLatch := l, pageState := .loading }) = .ok b bm') :
    fixPage p ex bm = if b then
      .ok () (bm'.updateFrame p fun f => { f with data := some (bm'.segments p), pageState := .inFifo })
      else .error .bufferFull ((bm'.updateFrame p fun f => { f with pageState := .notLoaded }).release p
        .unlock) := by
  have hs' : ((bm.updateFrame p fun f => { f with pageLatch := l }).frame p).pageState = .notLoaded := by
    simp [hs]
  have hl := loadPage_notLoaded hs' (by rwa [updateFrame_updateFrame])
  cases b <;> simp only [Bool.false_eq_true, if_true, if_false] at hl <;>
    simp only [fixPage_notLoaded h hs hl, Bool.false_eq_true, if_true, if_false]

/-- `fix_page` on a page not loaded, with a free slot: the page joins the FIFO list. -/
theorem fixPage_load_space (h : (bm.frame p).pageLatch.acquire ex = some l)
    (hs : (bm.frame p).pageState = .notLoaded)
    (hroom : bm.fifoList.length + bm.lruList.length < bm.pageCount) :
    ∃ bm', fixPage p ex bm = .ok () bm' ∧
      (∀ q, bm'.frame q = if q = p then
        { bm.frame p with pageLatch := l, pageState := .inFifo, data := some (bm.segments p) }
        else bm.frame q) ∧
      bm'.fifoList = bm.fifoList ++ [p] ∧ bm'.lruList = bm.lruList ∧
      bm'.segments = bm.segments ∧ bm'.pageCount = bm.pageCount := by
  refine ⟨_, load_start h hs (insertBufferFrame_space (by simpa using hroom)), fun q => ?_,
    rfl, rfl, rfl, rfl⟩
  by_cases hq : q = p <;> simp [hq]

/-- `fix_page` on a page not loaded when the buffer is full and the FIFO list has an
unfixed frame: the first one is flushed if dirty and evicted, the page joins the FIFO
list. -/
theorem fixPage_load_fifo {i : Nat} {v : Pid} {d : D}
    (h : (bm.frame p).pageLatch.acquire ex = some l)
    (hs : (bm.frame p).pageState = .notLoaded) (hp : p ∉ bm.fifoList)
    (hfull : ¬ bm.fifoList.length + bm.lruList.length < bm.pageCount)
    (hi : bm.evictableIdx bm.fifoList = some i) (hv : bm.fifoList.getD i 0 = v)
    (hd : (bm.frame v).data = some d) :
    ∃ bm', fixPage p ex bm = .ok () bm' ∧
      (∀ q, bm'.frame q = if q = p then
        { bm.frame p with pageLatch := l, pageState := .inFifo, data := some (bm.segments p) }
        else if q = v then .init else bm.frame q) ∧
      bm'.fifoList = bm.fifoList.eraseIdx i ++ [p] ∧ bm'.lruList = bm.lruList ∧
      bm'.segments = (if (bm.frame v).isDirty then Function.update bm.segments v d else bm.segments) ∧
      bm'.pageCount = bm.pageCount := by
  obtain ⟨hvmem, -⟩ := evictableIdx_spec hi
  rw [hv] at hvmem
  have hvp : v ≠ p := fun e => hp (e ▸ hvmem)
  have hi' := (evictableIdx_updateFrame hp (fun f => { f with pageLatch := l, pageState := .loading })).trans hi
  have hins := insertBufferFrame_fifo (p := p) (by simpa using hfull) hi'
  simp only [updateFrame_fifoList, hv, evict_set_fifoList] at hins
  have hd' : (((bm.updateFrame p fun f => { f with pageLatch := l, pageState := .loading }).updateFrame
      v fun f => { f with pageLatch := .exclusive }).frame v).data = some d := by
    simpa [hvp] using hd
  refine ⟨_, load_start h hs hins, fun q => ?_, by simp, by simp, ?_, by simp⟩
  · by_cases hq : q = p
    · subst hq
      simp only [frame_updateFrame, frame_mk_pageTable, frame_evict hd', evict_segments hd', if_pos rfl,
        if_neg (Ne.symm hvp)]
      by_cases hdirty : (bm.frame v).isDirty <;> simp [hdirty, hvp, Function.update_noteq (Ne.symm hvp)]
    · by_cases hqv : q = v
      · subst hqv
        simp [frame_evict hd', hq, Latch.unlock, BufferFrame.init]
      · simp [frame_evict hd', hq, hqv]
  · simp [evict_segments hd', hvp]

/-- `fix_page` on a page not loaded when the buffer is full, every frame of the FIFO list
is fixed and the LRU list has an unfixed frame: the first one is flushed if dirty and
evicted, the page joins the FIFO list. -/
theorem fixPage_load_lru {i : Nat} {v : Pid} {d : D}
    (h : (bm.frame p).pageLatch.acquire ex = some l)
    (hs : (bm.frame p).pageState = .notLoaded) (hp : p ∉ bm.fifoList) (hpl : p ∉ bm.lruList)
    (hfull : ¬ bm.fifoList.length + bm.lruList.length < bm.pageCount)
    (hf : bm.evictableIdx bm.fifoList = none)
    (hi : bm.evictableIdx bm.lruList = some i) (hv : bm.lruList.getD i 0 = v)
    (hd : (bm.frame v).data = some d) :
    ∃ bm', fixPage p ex bm = .ok () bm' ∧
      (∀ q, bm'.frame q = if q = p then
        { bm.frame p with pageLatch := l, pageState := .inFifo, data := some (bm.segments p) }
        else if q = v then .init else bm.frame q) ∧
      bm'.fifoList = bm.fifoList ++ [p] ∧ bm'.lruList = bm.lruList.eraseIdx i ∧
      bm'.segments = (if (bm.frame v).isDirty then Function.update bm.segments v d else bm.segments) ∧
      bm'.pageCount = bm.pageCount := by
  obtain ⟨hvmem, -⟩ := evictableIdx_spec hi
  rw [hv] at hvmem
  have hvp : v ≠ p := fun e => hpl (e ▸ hvmem)
  have hf' := (evictableIdx_updateFrame hp (fun f => { f with pageLatch := l, pageState := .loading })).trans hf
  have hi' := (evictableIdx_updateFrame hpl (fun f => { f with pageLatch := l, pageState := .loading })).trans hi
  have hins := insertBufferFrame_lru (p := p) (by simpa using hfull) hf' hi'
  simp only [updateFrame_fifoList, updateFrame_lruList, hv, evict_set_lists] at hins
  have hd' : (((bm.updateFrame p fun f => { f with pageLatch := l, pageState := .loading }).updateFrame
      v fun f => { f with pageLatch := .exclusive }).frame v).data = some d := by
    simpa [hvp] using hd
  refine ⟨_, load_start h hs hins, fun q => ?_, by simp, by simp, ?_, by simp⟩
  · by_cases hq : q = p
    · subst hq
      simp only [frame_updateFrame, frame_mk_pageTable, frame_evict hd', evict_segments hd', if_pos rfl,
        if_neg (Ne.symm hvp)]
      by_cases hdirty : (bm.frame v).isDirty <;> simp [hdirty, hvp, Function.update_noteq (Ne.symm hvp)]
    · by_cases hqv : q = v
      · subst hqv
        simp [frame_evict hd', hq, Latch.unlock, BufferFrame.init]
      · simp [frame_evict hd', hq, hqv]
  · simp [evict_segments hd', hvp]

/-- `fix_page` on a page not loaded when the buffer is full and every resident frame is
fixed: `buffer_full_error`, and every frame, both lists and the segment files are as
before; only the page table may have gained the page's frame, and the log the release of
the hold taken, with `unlock()`. -/
theorem fixPage_full (hu : (bm.frame p).pageLatch = .unlocked)
    (hs : (bm.frame p).pageState = .notLoaded) (hp : p ∉ bm.fifoList) (hpl : p ∉ bm.lruList)
    (hfull : ¬ bm.fifoList.length + bm.lruList.length < bm.pageCount)
    (hf : bm.evictableIdx bm.fifoList = none) (hl : bm.evictableIdx bm.lruList = none) :
    ∃ bm', fixPage p ex bm = .error .bufferFull bm' ∧
      (∀ q, bm'.frame q = bm.frame q) ∧
      bm'.pageTable = Function.update bm.pageTable p (some (bm.frame p)) ∧
      bm'.fifoList = bm.fifoList ∧ bm'.lruList = bm.lruList ∧
      bm'.segments = bm.segments ∧ bm'.pageCount = bm.pageCount ∧
      bm'.releases = bm.releases ++ [(p, if ex then .exclusive else .shared 0, .unlock)] := by
  have h : (bm.frame p).pageLatch.acquire ex = some (if ex then .exclusive else .shared 0) := by
    cases ex <;> simp [hu, Latch.acquire, Latch.lock, Latch.lockShared]
  have hins : insertBufferFrame p (bm.updateFrame p fun f =>
      { f with pageLatch := (if ex then .exclusive else .shared 0), pageState := .loading }) = .ok false _ :=
    insertBufferFrame_full (by simpa using hfull) ((evictableIdx_updateFrame hp _).trans hf)
      ((evictableIdx_updateFrame hpl _).trans hl)
  have hpt : (((bm.updateFrame p fun f =>
      { f with pageLatch := (if ex then .exclusive else .shared 0), pageState := .loading }).updateFrame p
      fun f => { f with pageState := .notLoaded }).release p .unlock).pageTable =
      Function.update bm.pageTable p (some (bm.frame p)) := by
    simp only [release_pageTable, updateFrame_pageTable, frame_updateFrame, if_true, Function.update_idem]
    cases ex <;> simp [Latch.unlock, ← hu, ← hs]
  refine ⟨_, load_start h hs hins, fun q => ?_, hpt, rfl, rfl, rfl, rfl, by simp⟩
  by_cases hq : q = p
  · subst hq; simp only [frame, hpt, Function.update_same, Option.getD_some]
  · simp only [frame, hpt, Function.update_noteq hq]

end load

end BufferManager

end SimpleDb
