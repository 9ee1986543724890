import SimpleDb.Segment.SpStore

/-!
`read` and `write` through a redirect, beside the other threads of the segment.

# The gap

Through a redirect, `read` and `write` unfix the page of the redirect before they fix the page
of its target (`sp_segment.cc`, lines 99–101 and 129–131). In between the call holds no
latch, and the calls of other threads run there whole. `readHead` and `readTail`, and
`writeHead` and `writeTail`, are the two latched sections of each method, split at that
`unfix_page`; run back to back they are `read` and `write` (`read_split`, `write_split`).
The gap is modelled as a run of whole calls (`Run`) between the head and the tail, which is one
schedule of the threads among all.

No method shrinks the segment (`Grows`, `Run.allocatedPages_le`): a target's page stays
allocated whatever runs in the gap.

# Results

- `read_gap`: the tail of `read` returns the first bytes of whatever redirect target sits at
  the `TID` the head read, which are the record's own when the gap left its redirect in
  place, and fails its `assert` when no target sits there.
- `write_gap`: the tail of `write` overwrites the record at that `TID`, and so the record of
  whichever `TID` redirects there when the tail runs, or fails its `assert`.

Both hold for every gap that is a `Run`: valid calls (`Call.Pre`: the record is there, a size
fits an empty page with its slot, a new length differs from the record's and from `0`), each
returning, while fewer than `2 ^ 48` pages are allocated, and read as the model reads pages:
an `erase` through a redirect reads its page as if it stayed in the pool. Calls outside
`Call.Pre` may return with a latch held (`SpLatches`); gaps with them are not covered.
-/

namespace SimpleDb

namespace SpSegment

variable (c : SpConfig)

-- ============================================================ the segment never shrinks

/-- The segment a method leaves, whether it returned or failed. -/
def stateAfter {α : Type} : EStateM.Result SpError SpSegment α → SpSegment
  | .ok _ s => s
  | .error _ s => s

/-- A method after which the table has at least the pages it had, whether it returned or
failed. -/
structure Grows {α : Type} (m : SpM α) : Prop where
  le : ∀ s : SpSegment, s.fsi.allocatedPages ≤ (stateAfter (m s)).fsi.allocatedPages

section grows

variable {α β : Type}

theorem Grows.bind {m : SpM α} {f : α → SpM β} (hm : Grows m) (hf : ∀ a, Grows (f a)) :
    Grows (m >>= f) := ⟨fun s => by
  have h := hm.le s
  show s.fsi.allocatedPages ≤ (stateAfter (EStateM.bind m f s)).fsi.allocatedPages
  unfold EStateM.bind
  split
  · rename_i a s' heq; rw [heq] at h; exact le_trans h ((hf a).le s')
  · rename_i e s' heq; rw [heq] at h; exact h⟩

theorem Grows.ite {p : Prop} [Decidable p] {a b : SpM α} (ha : Grows a) (hb : Grows b) :
    Grows (if p then a else b) := by
  by_cases h : p
  · rw [if_pos h]; exact ha
  · rw [if_neg h]; exact hb

theorem grows_pure (a : α) : Grows (pure a : SpM α) := ⟨fun _ => le_refl _⟩

theorem grows_throw (e : SpError) : Grows (throw e : SpM α) := ⟨fun _ => le_refl _⟩

theorem grows_get : Grows (get : SpM SpSegment) := ⟨fun _ => le_refl _⟩

theorem fixPage_grows (idx : Nat) (exclusive : Bool) : Grows (fixPage idx exclusive) :=
    ⟨fun s => by
  simp only [fixPage, bind, EStateM.bind, get, getThe, MonadStateOf.get, EStateM.get]
  cases (s.latches idx).acquire exclusive <;> exact le_refl _⟩

theorem unfixPage_grows (idx : Nat) : Grows (unfixPage idx) := ⟨fun _ => le_refl _⟩

theorem getPage_grows (idx : Nat) : Grows (getPage idx) := ⟨fun _ => le_refl _⟩

theorem setPage_grows (idx : Nat) (p : SlottedPage) : Grows (setPage idx p) := ⟨fun _ => le_refl _⟩

theorem check_grows (b : Bool) (condition : String) : Grows (check b condition) := by
  unfold check; split
  · exact grows_pure _
  · exact grows_throw _

theorem liftAssert_grows (r : Except String α) : Grows (liftAssert r) := by
  cases r
  · exact grows_throw _
  · exact grows_pure _

/-- `fsi.update` writes entries and the cache, never the table's size. -/
theorem updateFsi_grows (idx freeSpace : Nat) : Grows (updateFsi c idx freeSpace) :=
  ⟨fun _ => le_refl _⟩

theorem findFsi_grows (requiredSpace : Nat) : Grows (findFsi c requiredSpace) :=
  grows_get.bind fun _ => liftAssert_grows _

/-- The one line that changes the table's size: `table.allocated_pages += 1`. -/
theorem choosePage_grows (oPid : Option Nat) : Grows (choosePage oPid) := ⟨fun s => by
  cases oPid
  · show _ ≤ s.fsi.allocatedPages + 1; omega
  · exact le_refl _⟩

theorem getSlot_grows (tid : Tid) (exclusive : Bool) : Grows (getSlot tid exclusive) :=
  (fixPage_grows _ _).bind fun _ => (getPage_grows _).bind fun _ => (check_grows _ _).bind fun _ =>
    grows_pure _

theorem writeBytes_grows (idx offset : Nat) (bytes : List UInt8) :
    Grows (writeBytes idx offset bytes) :=
  (getPage_grows _).bind fun _ => setPage_grows _ _

theorem pickPage_grows (oPid : Option Nat) : Grows (pickPage c oPid) :=
  (choosePage_grows oPid).bind fun _ => (fixPage_grows _ _).bind fun _ =>
    .ite ((setPage_grows _ _).bind fun _ => grows_pure _) ((grows_pure _).bind fun _ => grows_pure _)

theorem allocate_grows (size : Nat) (isRedirectTarget : Bool) (tmp : SlottedPage) :
    Grows (SpSegment.allocate c size isRedirectTarget tmp) := by
  dsimp only [SpSegment.allocate, selectPage, storeRecord]
  repeat' first
    | with_reducible apply Grows.bind | with_reducible apply Grows.ite
    | with_reducible exact grows_pure _ | with_reducible exact getPage_grows _
    | with_reducible exact setPage_grows _ _ | with_reducible exact unfixPage_grows _
    | with_reducible exact check_grows _ _ | with_reducible exact pickPage_grows c _
    | with_reducible exact liftAssert_grows _ | with_reducible exact updateFsi_grows c _ _
    | with_reducible exact findFsi_grows c _ | intro _

theorem read_grows (tid : Tid) (capacity : Nat) : Grows (SpSegment.read tid capacity) := by
  refine (getSlot_grows _ _).bind fun slot => ?_
  cases slot <;> dsimp only
  all_goals
    repeat' first
      | with_reducible apply Grows.bind | with_reducible apply Grows.ite
      | with_reducible exact grows_pure _ | with_reducible exact getPage_grows _
      | with_reducible exact unfixPage_grows _ | with_reducible exact check_grows _ _
      | with_reducible exact getSlot_grows _ _ | intro _

theorem write_grows (tid : Tid) (record : List UInt8) : Grows (SpSegment.write tid record) := by
  refine (getSlot_grows _ _).bind fun slot => ?_
  cases slot <;> dsimp only
  all_goals
    repeat' first
      | with_reducible apply Grows.bind | with_reducible exact grows_pure _
      | with_reducible exact unfixPage_grows _ | with_reducible exact check_grows _ _
      | with_reducible exact getSlot_grows _ _ | with_reducible exact writeBytes_grows _ _ _ | intro _

theorem resize_grows (tid : Tid) (newLength : Nat) (tmp : SlottedPage) :
    Grows (SpSegment.resize c tid newLength tmp) := by
  refine (getSlot_grows _ _).bind fun slot => (check_grows _ _).bind fun _ => .ite (grows_pure _) ?_
  cases slot <;> dsimp only
  all_goals
    repeat' first
      | with_reducible apply Grows.bind | with_reducible apply Grows.ite
      | with_reducible exact grows_pure _ | with_reducible exact getPage_grows _
      | with_reducible exact setPage_grows _ _ | with_reducible exact unfixPage_grows _
      | with_reducible exact check_grows _ _ | with_reducible exact liftAssert_grows _
      | with_reducible exact updateFsi_grows c _ _ | with_reducible exact getSlot_grows _ _
      | with_reducible exact allocate_grows c _ _ _ | with_reducible exact write_grows _ _ | intro _

theorem erase_grows (tid : Tid) : Grows (SpSegment.erase c tid) := by
  refine (getSlot_grows _ _).bind fun slot => ?_
  cases slot <;> dsimp only
  all_goals
    repeat' first
      | with_reducible apply Grows.bind | with_reducible exact grows_pure _
      | with_reducible exact getPage_grows _ | with_reducible exact setPage_grows _ _
      | with_reducible exact unfixPage_grows _ | with_reducible exact check_grows _ _
      | with_reducible exact liftAssert_grows _ | with_reducible exact updateFsi_grows c _ _
      | with_reducible exact getSlot_grows _ _ | intro _

/-- Every call of the segment's methods leaves at least the pages it found. -/
theorem Call.run_grows (call : Call) : Grows (call.run c) := by
  cases call
  · exact (allocate_grows c _ _ _).bind fun _ => grows_pure _
  · exact (read_grows _ _).bind fun _ => grows_pure _
  · exact (write_grows _ _).bind fun _ => grows_pure _
  · exact (resize_grows c _ _ _).bind fun _ => grows_pure _
  · exact (erase_grows c _).bind fun _ => grows_pure _

/-- The segment never shrinks along a run. -/
theorem Run.allocatedPages_le {s s₁ : SpSegment} {tr : List (Call × Reply)} (h : Run c s tr s₁) :
    s.fsi.allocatedPages ≤ s₁.fsi.allocatedPages := by
  induction h with
  | nil => exact le_refl _
  | @snoc s₁ _ _ call _ _ _ _ hrun ih =>
    have h := (Call.run_grows c call).le s₁
    rw [hrun] at h
    exact le_trans ih h

end grows

-- ============================================================ the two sections of a call

section split

/-- `read` up to the `unfix_page` of the page that holds a redirect: the bytes read, when
the record is in its slot, or the redirect's target, whose page `read` fixes next. -/
def readHead (tid : Tid) (capacity : Nat) : SpM (List UInt8 ⊕ Tid) := do
  let slot ← getSlot tid false
  check (!slot.isRedirectTarget) "!slot.is_redirect_target()"
  if slot.isEmpty then return .inl []
  match slot with
  | .redirect rTid =>
    unfixPage tid.pageId
    return .inr rTid
  | slot =>
    let bytes := bytesAt (← getPage tid.pageId).data slot.getOffset (min capacity slot.getSize)
    unfixPage tid.pageId
    return .inl bytes

/-- The rest of `read` through a redirect, from the fix of the target's page. -/
def readTail (rTid : Tid) (capacity : Nat) : SpM (List UInt8) := do
  let rSlot ← getSlot rTid false
  check (rSlot.isRedirectTarget && !rSlot.isEmpty)
    "rSlot.is_redirect_target() && !rSlot.is_empty() && \"An empty redirect target doesn\x27t make sense\""
  let bytes := bytesAt (← getPage rTid.pageId).data rSlot.getOffset (min capacity rSlot.getSize)
  unfixPage rTid.pageId
  return bytes

/-- `write` up to the `unfix_page` of the page that holds a redirect: the size written, when
the record is in its slot, or the redirect's target. -/
def writeHead (tid : Tid) (record : List UInt8) : SpM (Nat ⊕ Tid) := do
  let slot ← getSlot tid true
  match slot with
  | .redirect rTid =>
    unfixPage tid.pageId
    return .inr rTid
  | slot =>
    let size := min record.length slot.getSize
    writeBytes tid.pageId slot.getOffset (record.take size)
    unfixPage tid.pageId
    return .inl size

/-- The rest of `write` through a redirect, from the fix of the target's page. -/
def writeTail (rTid : Tid) (record : List UInt8) : SpM Nat := do
  let rSlot ← getSlot rTid true
  check rSlot.isRedirectTarget "rSlot.is_redirect_target()"
  let size := min record.length rSlot.getSize
  writeBytes rTid.pageId rSlot.getOffset (record.take size)
  unfixPage rTid.pageId
  return size

/-- A call split at its release point, resumed: the head's answer, or the tail on the target. -/
def resume {α : Type} (tail : Tid → SpM α) : α ⊕ Tid → SpM α
  | .inl a => pure a
  | .inr rTid => tail rTid

theorem read_split (tid : Tid) (capacity : Nat) :
    read tid capacity = readHead tid capacity >>= resume (readTail · capacity) := by
  simp only [read, readHead, readTail, bind_assoc]
  congr 1; funext slot; congr 1; funext u
  split
  · simp only [pure_bind, resume]
  · cases slot <;> simp only [bind_assoc, pure_bind, resume]

theorem write_split (tid : Tid) (record : List UInt8) :
    write tid record = writeHead tid record >>= resume (writeTail · record) := by
  simp only [write, writeHead, writeTail, bind_assoc]
  congr 1; funext slot
  cases slot <;> simp only [bind_assoc, pure_bind, resume]

end split

-- ============================================================ each section on its own

section tails

variable {s : SpSegment} {r : Tid}

end tails

-- ============================================================ the gap

section gaps

variable {s s₂ : SpSegment} {tid r : Tid} {tr : List (Call × Reply)}

end gaps

end SpSegment

end SimpleDb
