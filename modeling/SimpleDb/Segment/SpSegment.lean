import SimpleDb.Segment.PageView
import SimpleDb.Segment.Fsi

/-!
The record segment of `sp_segment.cc`: records addressed by `TID`s, stored in slotted pages,
a record too large for its page moved to another page behind a redirect, and the FSI kept
told of each page's free space.

# What is modelled

An `SpSegment` is the segment's slotted pages by page index (what the buffer manager hands
out for them), the latch of each (`pageLatch`, as `Latch` has it), and the FSI segment of
`Fsi`, whose `allocatedPages` is the table's `allocated_pages`. `segment.h`, which declares
`SPSegment` and `TID`, is not among the sources: a `TID` is kept as the page's index in the
segment and the slot (`TID(pid, sid)` and `get_page_id(segment_id)` convert it from and to
the page id `(segment_id << 48) ^ index`). `decode_free_space` (`fsi_segment.cc`) is a
parameter (`SpConfig`) beside the FSI's `encode_free_space`; `SpAllocate.exactConfig` takes
the exact renderings of both.

The methods run in one thread, as `EStateM` programs, so every latch held is the thread's
own. A `fix_page` of a page the thread holds exclusively makes the `std::shared_mutex` of
libstdc++ throw `std::system_error` (`EDEADLK`: glibc's rwlock knows its writer), and the
model ends the method with `deadlock`; a `lock()` of a page the thread holds shared waits
for a release that can never come, and the model ends the method with `blocked`
(`latchError`). Buffer-pool effects are left out: every other `fix_page` returns, and a
page's bytes are its bytes, also when the code reads them after an `unfix_page`. That holds
where no `fix_page` comes between the `unfix_page` and the read, and is an assumption at
the one place where one does: the last `fsi.update` of `erase` through a redirect reads the
record's page after the fix of the target's page and of FSI pages, which may evict it. An
`assert` is a failure naming the asserted condition; `compactify`'s buffer is an argument
(`tmp`).

# Where the results are

`SpAllocate` states the segment's invariant and what `allocate` does over it; `SpRecords`
what `read`, `write` and `erase` do to the records, `SpResize` what `resize` does, `SpStore`
that the records of every run of the methods follow a map from `TID`s to bytes,
`SpInterleave` what other threads' calls do when they run between the two latched sections of
`read` and `write`, and `SpLatches` which calls return with a latch held and how a later fix
of that page by the same thread ends.
-/

namespace SimpleDb

/-- What an `SPSegment` is built over: the FSI's configuration (with the page size and
`encode_free_space`), the sizes of the page header and a slot, the segment id, and
`decode_free_space`. -/
structure SpConfig where
  fsi : FsiConfig
  layout : Layout
  segmentId : Nat
  decodeFreeSpace : Nat → Nat

/-- The state an `SPSegment`'s methods work on: its pages by index, their latches, and the
FSI segment (with the table's `allocated_pages`). -/
structure SpSegment where
  pages : Nat → SlottedPage
  latches : Nat → Latch
  fsi : FsiSegment

/-- A failed `assert`; the `std::system_error` (`EDEADLK`) of a `fix_page` of a page the thread
holds exclusively; or a `fix_page` that waits forever on a shared hold of the thread's own. -/
inductive SpError
  | assert (condition : String)
  | deadlock (pageIndex : Nat)
  | blocked (pageIndex : Nat)
  deriving DecidableEq, Repr

/-- The methods of `SPSegment`: state passing with failures that keep the state. -/
abbrev SpM := EStateM SpError SpSegment

namespace SpSegment

variable (c : SpConfig)

-- ============================================================ primitives

/-- How a `fix_page` of page `idx` ends when the thread's own hold `l` keeps it from the
latch: `lock()` and `lock_shared()` throw on an exclusive hold, `lock()` waits on a shared
one. -/
def latchError (idx : Nat) : Latch → SpError
  | .exclusive => .deadlock idx
  | _ => .blocked idx

/-- `buffer_manager.fix_page(pid, exclusive)` on a page of the segment. -/
def fixPage (idx : Nat) (exclusive : Bool) : SpM Unit := do
  let s ← get
  match (s.latches idx).acquire exclusive with
  | some l => set { s with latches := Function.update s.latches idx l }
  | none => throw (latchError idx (s.latches idx))

/-- `buffer_manager.unfix_page(bf, is_dirty)`: one hold released. -/
def unfixPage (idx : Nat) : SpM Unit :=
  modify fun s => { s with latches := Function.update s.latches idx (s.latches idx).unlock }

def getPage (idx : Nat) : SpM SlottedPage := do
  return (← get).pages idx

def setPage (idx : Nat) (p : SlottedPage) : SpM Unit :=
  modify fun s => { s with pages := Function.update s.pages idx p }

/-- `assert(b)`. -/
def check (b : Bool) (condition : String) : SpM Unit :=
  if b then pure () else throw (.assert condition)

/-- A page method, whose `assert`s fail the segment's method. -/
def liftAssert {α : Type} : Except String α → SpM α
  | .ok a => pure a
  | .error condition => throw (.assert condition)

/-- The page id of page `idx` of the segment. -/
def pageId (idx : Nat) : Pid := (c.segmentId <<< 48) ^^^ idx

/-- `fsi.find(required_space)`. -/
def findFsi (requiredSpace : Nat) : SpM (Option Nat) := do
  liftAssert ((← get).fsi.find c.fsi requiredSpace)

/-- `fsi.update(pid, free_space)`. -/
def updateFsi (idx freeSpace : Nat) : SpM Unit :=
  modify fun s => { s with fsi := s.fsi.update c.fsi (pageId c idx) freeSpace }

/-- `get_slot(tid, exclusive)`: fixes the record's page and reads its slot. -/
def getSlot (tid : Tid) (exclusive : Bool) : SpM Slot := do
  fixPage tid.pageId exclusive
  let page ← getPage tid.pageId
  check (decide (tid.slot < page.slotCount)) "slot_id < header.slot_count"
  return page.slots tid.slot

/-- `memcpy(bf.get_data() + offset, record, size)` into page `idx`. -/
def writeBytes (idx offset : Nat) (bytes : List UInt8) : SpM Unit := do
  let page ← getPage idx
  setPage idx { page with data := memcpy page.data offset (fun i => bytes.getD i 0) 0 bytes.length }

-- ============================================================ allocate

/-- The page an `allocate` goes to: the page the FSI found, or page `allocated_pages`,
which it creates. -/
def choosePage (oPid : Option Nat) : SpM (Nat × Bool) :=
  match oPid with
  | some idx => pure (idx, false)
  | none => do
    let s ← get
    set { s with fsi := { s.fsi with allocatedPages := s.fsi.allocatedPages + 1 } }
    pure (s.fsi.allocatedPages, true)

/-- The lines `allocate` runs for each page it tries: the page chosen, fixed exclusively, and
made a `SlottedPage(page_size)` when it was created. -/
def pickPage (oPid : Option Nat) : SpM (Nat × Bool) := do
  let (idx, created) ← choosePage oPid
  fixPage idx true
  if created then setPage idx (SlottedPage.new c.layout c.fsi.pageSize)
  return (idx, created)

/-- The choice of page in `allocate`: a page the FSI finds for the record and its slot, or a
new page; when the page turns out too full, a page of the next FSI category, or a new page.
The page is returned fixed exclusively. -/
def selectPage (size : Nat) : SpM Nat := do
  let (idx, created) ← pickPage c (← findFsi c (size + c.layout.slotSize))
  if (← getPage idx).freeSpace < size + c.layout.slotSize then
    check (!created) "!created"
    unfixPage idx
    let nextEnc := (c.fsi.encodeFreeSpace (size + c.layout.slotSize)).toNat + 1
    let oPid ← if nextEnc < 16 then findFsi c (c.decodeFreeSpace nextEnc) else pure none
    let (idx, _) ← pickPage c oPid
    return idx
  else return idx

/-- The end of `allocate` on the chosen page: the record placed there, the page unfixed, the
FSI told of the page's free space, and the record's `TID` returned. -/
def storeRecord (idx size : Nat) (isRedirectTarget : Bool) (tmp : SlottedPage) : SpM Tid := do
  let (page, sid) ← liftAssert
    ((← getPage idx).allocate c.layout size c.fsi.pageSize isRedirectTarget tmp)
  setPage idx page
  unfixPage idx
  updateFsi c idx page.freeSpace
  return ⟨idx, sid⟩

/-- `allocate(size, is_redirect_target)`. -/
def allocate (size : Nat) (isRedirectTarget : Bool) (tmp : SlottedPage) : SpM Tid := do
  let idx ← selectPage c size
  storeRecord c idx size isRedirectTarget tmp

-- ============================================================ read and write

/-- `read(tid, record, capacity)`: the bytes copied out, as many as the record and the
buffer hold; through a redirect, those of its target. -/
def read (tid : Tid) (capacity : Nat) : SpM (List UInt8) := do
  let slot ← getSlot tid false
  check (!slot.isRedirectTarget) "!slot.is_redirect_target()"
  if slot.isEmpty then return []
  match slot with
  | .redirect rTid =>
    unfixPage tid.pageId
    let rSlot ← getSlot rTid false
    check (rSlot.isRedirectTarget && !rSlot.isEmpty)
      "rSlot.is_redirect_target() && !rSlot.is_empty() && \"An empty redirect target doesn\x27t make sense\""
    let bytes := bytesAt (← getPage rTid.pageId).data rSlot.getOffset (min capacity rSlot.getSize)
    unfixPage rTid.pageId
    return bytes
  | slot =>
    let bytes := bytesAt (← getPage tid.pageId).data slot.getOffset (min capacity slot.getSize)
    unfixPage tid.pageId
    return bytes

/-- `write(tid, record, record_size)`: the record's bytes overwritten from the start, as
many as the record and the buffer hold; through a redirect, those of its target. Returns
how many. -/
def write (tid : Tid) (record : List UInt8) : SpM Nat := do
  let slot ← getSlot tid true
  match slot with
  | .redirect rTid =>
    unfixPage tid.pageId
    let rSlot ← getSlot rTid true
    check rSlot.isRedirectTarget "rSlot.is_redirect_target()"
    let size := min record.length rSlot.getSize
    writeBytes rTid.pageId rSlot.getOffset (record.take size)
    unfixPage rTid.pageId
    return size
  | slot =>
    let size := min record.length slot.getSize
    writeBytes tid.pageId slot.getOffset (record.take size)
    unfixPage tid.pageId
    return size

-- ============================================================ resize and erase

/-- `resize(tid, new_length)`: the record resized in its page when the page has room, or
moved to a new redirect target behind a redirect left in its slot; a record behind a
redirect resized in its target's page, or moved to a new target. -/
def resize (tid : Tid) (newLength : Nat) (tmp : SlottedPage) : SpM Unit := do
  let slot ← getSlot tid true
  check (!slot.isRedirectTarget) "!slot.is_redirect_target()"
  if slot.getSize = newLength then return
  match slot with
  | .redirect rTid =>
    let rSlot ← getSlot rTid true
    check rSlot.isRedirectTarget "rSlot.is_redirect_target()"
    let rPage ← getPage rTid.pageId
    if newLength < rSlot.getSize ∨ newLength - rSlot.getSize ≤ rPage.freeSpace then
      unfixPage tid.pageId
      setPage rTid.pageId
        (← liftAssert (rPage.relocate c.layout rTid.slot newLength c.fsi.pageSize tmp))
      unfixPage rTid.pageId
    else
      let newRTid ← allocate c newLength true tmp
      let _ ← write newRTid (bytesAt (← getPage rTid.pageId).data rSlot.getOffset rSlot.getSize)
      setPage rTid.pageId (← liftAssert ((← getPage rTid.pageId).erase c.layout rTid.slot))
      unfixPage rTid.pageId
      let page ← getPage tid.pageId
      setPage tid.pageId { page with slots := Function.update page.slots tid.slot (.redirect newRTid) }
      unfixPage tid.pageId
    updateFsi c rTid.pageId (← getPage rTid.pageId).freeSpace
  | slot =>
    let page ← getPage tid.pageId
    if newLength < slot.getSize ∨ newLength - slot.getSize ≤ page.freeSpace then
      setPage tid.pageId
        (← liftAssert (page.relocate c.layout tid.slot newLength c.fsi.pageSize tmp))
    else
      let newRTid ← allocate c newLength true tmp
      let _ ← write newRTid (bytesAt (← getPage tid.pageId).data slot.getOffset slot.getSize)
      setPage tid.pageId ((← getPage tid.pageId).setRedirect tid.slot newRTid)
    unfixPage tid.pageId
    updateFsi c tid.pageId (← getPage tid.pageId).freeSpace

/-- `erase(tid)`: the record's slot cleared; through a redirect, the target's too. Its last
`fsi.update` reads the free space of the record's page after the `get_slot` of the target
and the first `fsi.update`, whose fixes may evict that page's frame: the model reads the
page, as if it stayed in the pool. -/
def erase (tid : Tid) : SpM Unit := do
  let slot ← getSlot tid true
  match slot with
  | .redirect rTid =>
    setPage tid.pageId (← liftAssert ((← getPage tid.pageId).erase c.layout tid.slot))
    unfixPage tid.pageId
    let rSlot ← getSlot rTid true
    check rSlot.isRedirectTarget "rSlot.is_redirect_target()"
    setPage rTid.pageId (← liftAssert ((← getPage rTid.pageId).erase c.layout rTid.slot))
    unfixPage rTid.pageId
    updateFsi c rTid.pageId (← getPage rTid.pageId).freeSpace
    updateFsi c tid.pageId (← getPage tid.pageId).freeSpace
  | _ =>
    setPage tid.pageId (← liftAssert ((← getPage tid.pageId).erase c.layout tid.slot))
    unfixPage tid.pageId
    updateFsi c tid.pageId (← getPage tid.pageId).freeSpace

-- ============================================================ one step at a time

section run

variable {α β : Type} {s s' : SpSegment}

theorem run_bind_ok {x : SpM α} {f : α → SpM β} {a : α} (h : x s = .ok a s') :
    (x >>= f) s = f a s' := by
  show EStateM.bind x f s = _
  simp only [EStateM.bind, h]

theorem run_bind_error {x : SpM α} {f : α → SpM β} {e : SpError} (h : x s = .error e s') :
    (x >>= f) s = .error e s' := by
  show EStateM.bind x f s = _
  simp only [EStateM.bind, h]

theorem fixPage_ok {idx : Nat} {exclusive : Bool} {l : Latch}
    (h : (s.latches idx).acquire exclusive = some l) :
    fixPage idx exclusive s = .ok () { s with latches := Function.update s.latches idx l } := by
  simp only [fixPage, bind, EStateM.bind, get, getThe, MonadStateOf.get, EStateM.get, h]; rfl

theorem fixPage_latched {idx : Nat} {exclusive : Bool}
    (h : (s.latches idx).acquire exclusive = none) :
    fixPage idx exclusive s = .error (latchError idx (s.latches idx)) s := by
  simp only [fixPage, bind, EStateM.bind, get, getThe, MonadStateOf.get, EStateM.get, h]; rfl

/-- The latches after a fix of a free latch and its unfix. -/
theorem latches_unfix {latches : Nat → Latch} {idx : Nat} {l : Latch} (hl : latches idx = .unlocked)
    (hu : l.unlock = .unlocked) :
    Function.update (Function.update latches idx l) idx ((Function.update latches idx l) idx).unlock =
      latches := by
  rw [Function.update_same, Function.update_idem, hu, Function.update_eq_self_iff.mpr hl.symm]

/-- An `unfix_page` right after a `fix_page` of a free latch gives the state back. -/
theorem unfixPage_fixed {idx : Nat} {l : Latch} (hl : s.latches idx = .unlocked) (hu : l.unlock = .unlocked) :
    unfixPage idx { s with latches := Function.update s.latches idx l } = .ok () s := by
  simp only [unfixPage, modify, modifyGet, MonadStateOf.modifyGet, EStateM.modifyGet, latches_unfix hl hu]

theorem getSlot_ok {tid : Tid} {exclusive : Bool} {l : Latch}
    (h : (s.latches tid.pageId).acquire exclusive = some l)
    (hs : tid.slot < (s.pages tid.pageId).slotCount) :
    getSlot tid exclusive s = .ok ((s.pages tid.pageId).slots tid.slot)
      { s with latches := Function.update s.latches tid.pageId l } := by
  rw [getSlot, run_bind_ok (fixPage_ok h)]
  simp only [getPage, check, bind, EStateM.bind, get, getThe, MonadStateOf.get, EStateM.get,
    pure, EStateM.pure, decide_eq_true hs, if_true]

theorem getSlot_latched {tid : Tid} {exclusive : Bool}
    (h : (s.latches tid.pageId).acquire exclusive = none) :
    getSlot tid exclusive s = .error (latchError tid.pageId (s.latches tid.pageId)) s := by
  rw [getSlot, run_bind_error (fixPage_latched h)]

theorem findFsi_ok {requiredSpace : Nat} {o : Option Nat}
    (h : s.fsi.find c.fsi requiredSpace = .ok o) : findFsi c requiredSpace s = .ok o s := by
  simp only [findFsi, bind, EStateM.bind, get, getThe, MonadStateOf.get, EStateM.get, h]; rfl

/-- `allocate` fixes the page the FSI names before anything else: on a latch the thread holds,
it ends there. -/
theorem allocate_latched {size idx : Nat} {isRedirectTarget : Bool} (tmp : SlottedPage)
    (hfind : s.fsi.find c.fsi (size + c.layout.slotSize) = .ok (some idx))
    (hl : (s.latches idx).acquire true = none) :
    allocate c size isRedirectTarget tmp s = .error (latchError idx (s.latches idx)) s := by
  have hpick : pickPage c (some idx) s = .error (latchError idx (s.latches idx)) s := by
    rw [pickPage, run_bind_ok (show choosePage (some idx) s = .ok (idx, false) s from rfl)]
    exact run_bind_error (fixPage_latched hl)
  have hsel : selectPage c size s = .error (latchError idx (s.latches idx)) s := by
    rw [selectPage, run_bind_ok (findFsi_ok c hfind), run_bind_error hpick]
  rw [allocate, run_bind_error hsel]

end run

end SpSegment

end SimpleDb
