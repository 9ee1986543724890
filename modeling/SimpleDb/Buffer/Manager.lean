import SimpleDb.Search.LowerBound

/-!
The buffer manager of `buffer_manager.cc`, one thread at a time.

# What is modelled

A `BufferManager` is the page table (one `BufferFrame` per page id ever asked for), the
FIFO and LRU lists of resident frames, and the segment files. Frames are named by their
page id: the table holds one frame per id, so the `BufferFrame*` the lists store and the
id say the same thing. The segment files are read and written page by page, at the page
id (`get_segment_id` picks the file, `get_segment_page_id` the block in it; the pair is
one-to-one on 64-bit ids). Page contents are a type parameter `D`: the manager never
looks inside a page.

The methods are `EStateM` programs, so a thrown `buffer_full_error` keeps the state the
method had reached (`fix_page` may have added a frame to the page table by then).

# Latches in one thread

A frame's `pageLatch` is kept as its holders. In one thread a `lock` that would wait
never returns, so `fix_page` ends with `BufferError.blocked` there: the point where the
thread hangs, or, when the thread holds the latch exclusively, where libstdc++'s
`std::shared_mutex` throws `std::system_error` (`EDEADLK`); either way the method goes no
further and the state is the one it reached. The page table, list, segment
and loading latches only order threads, and are left out: in one thread each is free
whenever a method starts.

# Releases

`std::shared_mutex` defines `unlock()` only for the exclusive holder and `unlock_shared()`
only for a shared one (`Latch.release`); the pthread rwlock behind it on Linux frees one hold
of either mode whichever is called (`Latch.unlock`). A caller's release of a page latch is
`releaseLatch`, which runs as the rwlock does and logs the call, with the latch as it was
held, in the ghost `releases`. On a held latch the rwlock's release is the one the standard
defines for the matching kind (`Latch.release_matchingRelease`); `unfix_page` and the
`buffer_full_error` paths of `fix_page` call `unlock()` whatever the mode
(`unfixPage_unlocks_shared_hold`).
-/

namespace SimpleDb

/-- A page id: `segment_id : 16 | segment_page_id : 48`. -/
abbrev Pid := Nat

/-- `PageState`. -/
inductive PageState
  | inFifo
  | inLru
  | notLoaded
  | loading
  deriving DecidableEq, Repr

/-- A `pageLatch` by its holders: nobody, `others + 1` shared holders, or one exclusive
holder. -/
inductive Latch
  | unlocked
  | shared (others : Nat)
  | exclusive
  deriving DecidableEq, Repr

/-- The two releases of a `std::shared_mutex`: `unlock()` and `unlock_shared()`. -/
inductive Release
  | unlock
  | unlockShared
  deriving DecidableEq, Repr

namespace Latch

/-- `lock()`; `none` when the caller has to wait. -/
def lock : Latch → Option Latch
  | unlocked => some exclusive
  | _ => none

/-- `lock_shared()`; `none` when the caller has to wait. -/
def lockShared : Latch → Option Latch
  | unlocked => some (shared 0)
  | shared n => some (shared (n + 1))
  | exclusive => none

/-- `lock()` or `lock_shared()`, as `exclusive` asks. -/
def acquire (l : Latch) (exclusive : Bool) : Option Latch :=
  if exclusive then l.lock else l.lockShared

/-- `unlock()` or `unlock_shared()` on the pthread rwlock: releases one hold, of either
mode. -/
def unlock : Latch → Latch
  | unlocked => unlocked
  | shared 0 => unlocked
  | shared (n + 1) => shared n
  | exclusive => unlocked

/-- A release as `std::shared_mutex` specifies it, by a caller holding the latch:
`unlock()` ends the exclusive hold, `unlock_shared()` one shared hold. A release of the
other kind is undefined behaviour (`none`). -/
def release : Latch → Release → Option Latch
  | exclusive, .unlock => some unlocked
  | shared 0, .unlockShared => some unlocked
  | shared (n + 1), .unlockShared => some (shared n)
  | _, _ => none

/-- The release that matches the mode the latch is held in. -/
def matchingRelease : Latch → Release
  | exclusive => .unlock
  | _ => .unlockShared

/-- On a held latch, `unlock` as the model has it is the specified release of the latch's
own mode. -/
theorem release_matchingRelease {l : Latch} (h : l ≠ unlocked) :
    l.release l.matchingRelease = some l.unlock :=
  match l, h with
  | unlocked, h => absurd rfl h
  | shared 0, _ => rfl
  | shared (_ + 1), _ => rfl
  | exclusive, _ => rfl

end Latch

/-- `BufferFrame`; its `pid` is the key the page table holds it under. -/
structure BufferFrame (D : Type) where
  pageState : PageState
  pageLatch : Latch
  isDirty : Bool
  data : Option D

/-- `BufferFrame(pid)`: not loaded, clean, no data. -/
def BufferFrame.init {D : Type} : BufferFrame D :=
  ⟨.notLoaded, .unlocked, false, none⟩

/-- `BufferManager`: `pageCount` frames at most are resident. The ghost `releases` logs each
release of a page latch by a caller that fixed the page: the page, the latch as it was held,
and the kind of the call. -/
structure BufferManager (D : Type) where
  pageCount : Nat
  pageTable : Pid → Option (BufferFrame D)
  fifoList : List Pid
  lruList : List Pid
  segments : Pid → D
  releases : List (Pid × Latch × Release)

/-- A number below `2 ^ k` has no bit from `k` on. -/
theorem testBit_of_lt_two_pow {m k i : Nat} (hm : m < 2 ^ k) (hk : k ≤ i) : m.testBit i = false :=
  Nat.testBit_eq_false_of_lt (lt_of_lt_of_le hm (Nat.pow_le_pow_right (by omega) hk))

/-- What a buffer-manager method throws, and `blocked` for a call that never returns. -/
inductive BufferError
  | bufferFull
  | runtimeError (what : String)
  | blocked
  deriving DecidableEq, Repr

/-- The buffer manager's methods: state passing with exceptions that keep the state. -/
abbrev BufferM (D : Type) := EStateM BufferError (BufferManager D)

namespace BufferManager

variable {D : Type}

/-- `BufferManager(page_size, page_count)` over segment files holding `segments`. -/
def new (pageCount : Nat) (segments : Pid → D) : BufferManager D :=
  ⟨pageCount, fun _ => none, [], [], segments, []⟩

/-- The frame of a page id; a frame the table does not hold yet reads as `BufferFrame(pid)`. -/
def frame (bm : BufferManager D) (pid : Pid) : BufferFrame D :=
  (bm.pageTable pid).getD .init

/-- Write back the frame of `pid` after applying `g` to it. -/
def updateFrame (bm : BufferManager D) (pid : Pid) (g : BufferFrame D → BufferFrame D) :
    BufferManager D :=
  { bm with pageTable := Function.update bm.pageTable pid (some (g (bm.frame pid))) }

/-- `updateFrame` as a method. -/
def modifyFrame (pid : Pid) (g : BufferFrame D → BufferFrame D) : BufferM D Unit :=
  modify fun bm => bm.updateFrame pid g

/-- The state after a release of the latch of `pid` by `kind`: one hold freed, as the pthread
rwlock frees it whatever the kind, and the call logged. -/
def release (bm : BufferManager D) (pid : Pid) (kind : Release) : BufferManager D :=
  { bm.updateFrame pid (fun f => { f with pageLatch := f.pageLatch.unlock }) with
    releases := bm.releases ++ [(pid, (bm.frame pid).pageLatch, kind)] }

/-- `frame->pageLatch.unlock()` (`kind = .unlock`) or `unlock_shared()` by a caller that fixed
the page. -/
def releaseLatch (pid : Pid) (kind : Release) : BufferM D Unit :=
  modify fun bm => bm.release pid kind

-- ============================================================ the methods

/-- The page table with a frame for `pageId`, `BufferFrame(pageId)` if it had none. -/
def ensureFrame (bm : BufferManager D) (pageId : Pid) : BufferManager D :=
  match bm.pageTable pageId with
  | some _ => bm
  | none => { bm with pageTable := Function.update bm.pageTable pageId (some .init) }

/-- `getBufferFrame`: adds `BufferFrame(pageId)` to the page table if it has none. -/
def getBufferFrame (pageId : Pid) : BufferM D Unit :=
  modify fun bm => bm.ensureFrame pageId

/-- `get_segment_id`: the 16 most significant bits of a 64-bit page id, as a `uint16_t`. -/
def getSegmentId (pageId : Pid) : Nat := (pageId >>> 48) % 2 ^ 16

/-- `get_segment_page_id`: the 48 least significant bits of a page id. -/
def getSegmentPageId (pageId : Pid) : Nat := pageId &&& ((1 <<< 48) - 1)

/-- The segment file and the byte offset at which `getSegmentData` reads, and `flushPage`
writes, a page of `pageSize` bytes. -/
def segmentBlock (pageSize : Nat) (pageId : Pid) : Nat × Nat :=
  (getSegmentId pageId, getSegmentPageId pageId * pageSize)

/-- The state after writing the frame's data to its block of the segment file. -/
def flush (bm : BufferManager D) (pid : Pid) : BufferManager D :=
  match (bm.frame pid).data with
  | some d =>
    { bm.updateFrame pid (fun f => { f with isDirty := false }) with
      segments := Function.update bm.segments pid d }
  | none => bm

/-- `flushPage`: writes the frame's data to its block of the segment file, clears the
dirty bit. -/
def flushPage (pid : Pid) : BufferM D Unit :=
  modify fun bm => bm.flush pid

/-- The index of the first frame of the list whose latch nobody holds: the frame
`try_lock` takes. -/
def evictableIdx (bm : BufferManager D) (frameList : List Pid) : Option Nat :=
  frameList.findIdx? fun q => (bm.frame q).pageLatch = .unlocked

/-- `lockEvictableFrame`: the index of the first frame of the list whose latch `try_lock`
takes, which it leaves locked; `none` for `-1`. -/
def lockEvictableFrame (frameList : List Pid) : BufferM D (Option Nat) := do
  match (← get).evictableIdx frameList with
  | some i =>
    modifyFrame (frameList.getD i 0) fun f => { f with pageLatch := .exclusive }
    return some i
  | none => return none

/-- The state after the eviction tail: the victim flushed if dirty, `NOT_LOADED`, its data
freed, its latch released. -/
def evict (bm : BufferManager D) (bf : Pid) : BufferManager D :=
  (if (bm.frame bf).isDirty then bm.flush bf else bm).updateFrame bf fun f =>
    { f with pageState := .notLoaded, data := none, pageLatch := f.pageLatch.unlock }

/-- The tail the two eviction paths of `insertBufferFrame` share: flush the victim if it
is dirty, mark it `NOT_LOADED`, free its data, release its latch. -/
def evictFrame (bf : Pid) : BufferM D Unit :=
  modify fun bm => bm.evict bf

/-- `insertBufferFrame`: appends the frame to the FIFO list, evicting the first
evictable frame of the FIFO list, else of the LRU list, when the buffer is full. -/
def insertBufferFrame (pid : Pid) : BufferM D Bool := do
  let bm ← get
  if bm.fifoList.length + bm.lruList.length < bm.pageCount then
    set { bm with fifoList := bm.fifoList ++ [pid] }
    return true
  match ← lockEvictableFrame bm.fifoList with
  | some i =>
    let bf := bm.fifoList.getD i 0
    modify fun bm => { bm with fifoList := bm.fifoList.eraseIdx i ++ [pid] }
    evictFrame bf
    return true
  | none =>
    match ← lockEvictableFrame bm.lruList with
    | some i =>
      let bf := bm.lruList.getD i 0
      modify fun bm => { bm with lruList := bm.lruList.eraseIdx i }
      modify fun bm => { bm with fifoList := bm.fifoList ++ [pid] }
      evictFrame bf
      return true
    | none => return false

/-- `loadPage`: moves a `NOT_LOADED` frame into the FIFO list and reads its page;
`false` when no frame could be evicted. -/
def loadPage (pid : Pid) : BufferM D Bool := do
  let state := ((← get).frame pid).pageState
  if state = .loading then
    throw (.runtimeError "Frame in invalid state. We hold the loading latch but page is in loading?")
  if state = .inFifo ∨ state = .inLru then return true
  modifyFrame pid fun f => { f with pageState := .loading }
  if !(← insertBufferFrame pid) then
    modifyFrame pid fun f => { f with pageState := .notLoaded }
    return false
  let data := (← get).segments pid
  modifyFrame pid fun f => { f with data := some data, pageState := .inFifo }
  return true

/-- `updateLru`: moves the frame to the back of the LRU list. -/
def updateLru (pid : Pid) : BufferM D Unit :=
  modify fun bm => { bm with lruList := bm.lruList.erase pid ++ [pid] }

/-- `fix_page`: latches the frame in the requested mode and makes it resident. A page in
the FIFO list moves to the LRU list, a page in the LRU list to its back, a page not
loaded is loaded; `buffer_full_error` when that needs an eviction nobody allows. -/
def fixPage (pageId : Pid) (exclusive : Bool) : BufferM D Unit := do
  getBufferFrame pageId
  match ((← get).frame pageId).pageLatch.acquire exclusive with
  | none => throw .blocked
  | some l => modifyFrame pageId fun f => { f with pageLatch := l }
  match ((← get).frame pageId).pageState with
  | .inFifo =>
    if ((← get).frame pageId).pageState = .inLru then
      updateLru pageId
    else
      modify fun bm => { bm with fifoList := bm.fifoList.erase pageId }
      modify fun bm => { bm with lruList := bm.lruList ++ [pageId] }
      modifyFrame pageId fun f => { f with pageState := .inLru }
  | .inLru => updateLru pageId
  | .notLoaded =>
    if !(← loadPage pageId) then
      releaseLatch pageId .unlock
      throw .bufferFull
  | .loading =>
    let state := ((← get).frame pageId).pageState
    if state ≠ .inFifo ∧ state ≠ .inLru then
      releaseLatch pageId .unlock
      throw .bufferFull

/-- `unfix_page`: sets the dirty bit if asked to, releases the latch with `unlock()`. -/
def unfixPage (pid : Pid) (isDirty : Bool) : BufferM D Unit := do
  modifyFrame pid fun f => { f with isDirty := f.isDirty || isDirty }
  releaseLatch pid .unlock

/-- One loop of `~BufferManager()`: latch each frame (a frame still fixed blocks), flush
it if dirty, free its data. -/
def flushFrames : List Pid → BufferM D Unit
  | [] => pure ()
  | bf :: rest => do
    if ((← get).frame bf).pageLatch ≠ .unlocked then throw .blocked
    if ((← get).frame bf).isDirty then flushPage bf
    modifyFrame bf fun f => { f with data := none }
    flushFrames rest

/-- `~BufferManager()`: writes out every dirty resident page, FIFO list first. -/
def destroy : BufferM D Unit := do
  flushFrames (← get).fifoList
  flushFrames (← get).lruList

end BufferManager

end SimpleDb
