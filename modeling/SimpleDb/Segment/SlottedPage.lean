import SimpleDb.Buffer.Manager

/-!
The slotted pages of `slotted_page.cc`: a header, a slot directory growing up from the
header, and the records' bytes growing down from the page end.

# What is modelled

`slotted_page.h` is not among the sources. What the code reads of a page is the header
(`slot_count`, `first_free_slot`, `data_start`, `free_space`), the slots through their
accessors, and the bytes of the records; a `SlottedPage` is those four fields, the slots by
index and the bytes by offset. A slot is what its accessors tell apart (`Slot`): cleared, a
record at an offset with a size (and whether it is a redirect target), or a redirect to a
`TID`; the sizes of the header and of a slot are a parameter (`Layout`). The directory and the
record bytes share the page: `Wf` says they never meet, which is what lets the model keep
them apart.

`compactify` builds the page anew in a buffer from `new char[page_size]`, whose bytes the
code never initialises: the buffer is an argument (`tmp`), and every statement holds
whatever it holds. An `assert` is a failure (`Except String`) naming the asserted
condition.

# The invariant

`Wf` is the page's layout: the directory ends at or below `data_start`, every record's
bytes lie between `data_start` and the page end, no two records share a byte, `free_space`
is the page size less the header, the directory and the records' sizes, `first_free_slot`
is the first cleared slot (or `slot_count`), and the last slot is not cleared. The
constructor establishes it and `allocate`, `relocate` and `erase` keep it (`wf_of_reachable`).
-/

namespace SimpleDb

/-- `sizeof(SlottedPage::Header)` and `sizeof(SlottedPage::Slot)`, declared in
`slotted_page.h`. -/
structure Layout where
  headerSize : Nat
  slotSize : Nat

/-- A `TID`, declared in `segment.h`: the page and the slot of a record. -/
structure Tid where
  pageId : Pid
  slot : Nat
  deriving DecidableEq, Repr

/-- A `SlottedPage::Slot` as its accessors read it: `clear()` leaves it `empty`,
`set_slot(offset, size, is_redirect_target)` makes it a `record`, `set_redirect_tid(tid)` a
`redirect`. -/
inductive Slot
  | empty
  | record (offset size : Nat) (redirectTarget : Bool)
  | redirect (tid : Tid)
  deriving DecidableEq, Repr

namespace Slot

def isEmpty : Slot → Bool
  | empty => true
  | _ => false

def isRedirect : Slot → Bool
  | redirect _ => true
  | _ => false

def isRedirectTarget : Slot → Bool
  | record _ _ r => r
  | _ => false

def getOffset : Slot → Nat
  | record o _ _ => o
  | _ => 0

/-- The size of a slot's record; a cleared slot and a redirect hold no bytes of the page. -/
def getSize : Slot → Nat
  | record _ n _ => n
  | _ => 0

/-- The slot's record holds page byte `b`. -/
def Covers : Slot → Nat → Prop
  | record o n _, b => o ≤ b ∧ b < o + n
  | _, _ => False

instance (s : Slot) (b : Nat) : Decidable (s.Covers b) :=
  match s with
  | record _ _ _ => inferInstanceAs (Decidable (_ ∧ _))
  | empty => isFalse id
  | redirect _ => isFalse id

/-- The slot `compactify` writes for a record it places at `offset`; it copies other slots
as they are. -/
def moveTo : Slot → Nat → Slot
  | record _ n r, offset => record offset n r
  | s, _ => s

@[simp] theorem isEmpty_moveTo (s : Slot) (o : Nat) : (s.moveTo o).isEmpty = s.isEmpty := by
  cases s <;> rfl

@[simp] theorem isRedirect_moveTo (s : Slot) (o : Nat) : (s.moveTo o).isRedirect = s.isRedirect := by
  cases s <;> rfl

@[simp] theorem getSize_moveTo (s : Slot) (o : Nat) : (s.moveTo o).getSize = s.getSize := by
  cases s <;> rfl

/-- A slot holds exactly the bytes from its offset to its offset plus its size (none when it
holds no record). -/
theorem covers_iff_bounds {s : Slot} {b : Nat} :
    s.Covers b ↔ s.getOffset ≤ b ∧ b < s.getOffset + s.getSize := by
  cases s <;> simp [Covers, getOffset, getSize]

@[simp] theorem covers_moveTo {s : Slot} {o b : Nat} :
    (s.moveTo o).Covers b ↔ s.isEmpty = false ∧ s.isRedirect = false ∧ o ≤ b ∧ b < o + s.getSize := by
  cases s <;> simp [moveTo, Covers, isEmpty, isRedirect, getSize]

theorem getSize_of_isEmpty {s : Slot} (h : s.isEmpty = true) : s.getSize = 0 := by
  cases s <;> simp_all [isEmpty, getSize]

/-- A slot neither cleared nor a redirect is a record. -/
theorem eq_record {s : Slot} (he : s.isEmpty = false) (hr : s.isRedirect = false) :
    s = .record s.getOffset s.getSize s.isRedirectTarget := by
  cases s <;> simp_all [isEmpty, isRedirect, getOffset, getSize, isRedirectTarget]

end Slot

/-- A page read as a `SlottedPage`: the header, the slots by index and the bytes by
offset. -/
structure SlottedPage where
  slotCount : Nat
  firstFreeSlot : Nat
  dataStart : Nat
  freeSpace : Nat
  slots : Nat → Slot
  data : Nat → UInt8

/-- `memcpy(dst + dstOff, src + srcOff, n)` on byte arrays. -/
def memcpy (dst : Nat → UInt8) (dstOff : Nat) (src : Nat → UInt8) (srcOff n : Nat) :
    Nat → UInt8 :=
  fun i => if dstOff ≤ i ∧ i < dstOff + n then src (srcOff + (i - dstOff)) else dst i

namespace SlottedPage

variable (L : Layout)

/-- `SlottedPage(page_size)`: no slots, the data area empty at the page end, and the bytes
after the header zeroed. -/
def new (pageSize : Nat) : SlottedPage :=
  ⟨0, 0, pageSize, pageSize - L.headerSize, fun _ => .empty, fun _ => 0⟩

/-- `get_fragmented_free_space()`: the bytes between the directory and `data_start`. -/
def fragmentedFreeSpace (p : SlottedPage) : Nat :=
  p.dataStart - L.headerSize - p.slotCount * L.slotSize

/-- One turn of `compactify`'s loop: slot `s` copied to the buffer `t`, and a record's bytes
below the buffer's `data_start`. -/
def compactifySlot (p : SlottedPage) (pageSize : Nat) (t : SlottedPage) (s : Nat) :
    SlottedPage :=
  let slot := p.slots s
  let t := { t with slots := Function.update t.slots s slot }
  if slot.isEmpty || slot.isRedirect then t
  else
    let dataStart := t.dataStart - slot.getSize
    let dataSize := min (pageSize - slot.getOffset) slot.getSize
    { t with
      dataStart := dataStart
      data := memcpy t.data dataStart p.data slot.getOffset dataSize
      slots := Function.update t.slots s (.record dataStart slot.getSize slot.isRedirectTarget) }

/-- The first `k` turns of `compactify`'s loop, from the buffer `tmp` with `data_start` at the
page end. -/
def compactifyLoop (p : SlottedPage) (pageSize : Nat) (tmp : SlottedPage) (k : Nat) : SlottedPage :=
  (List.range k).foldl (compactifySlot p pageSize) { tmp with dataStart := pageSize }

/-- `compactify(page_size)`: the slots copied in order into the buffer `tmp`, each record's
bytes packed below the previous one's from the page end; the page becomes the buffer. -/
def compactify (p : SlottedPage) (pageSize : Nat) (tmp : SlottedPage) : SlottedPage :=
  let t := compactifyLoop p pageSize tmp p.slotCount
  let t := { t with slotCount := p.slotCount, firstFreeSlot := p.firstFreeSlot }
  { t with freeSpace := fragmentedFreeSpace L t }

/-- The loop of `allocate` that moves `first_free_slot` to the next cleared slot. -/
def nextFreeSlot (slots : Nat → Slot) (slotCount : Nat) : Nat → Nat → Nat
  | 0, i => i
  | fuel + 1, i =>
    if i < slotCount then
      if (slots i).isEmpty then i else nextFreeSlot slots slotCount fuel (i + 1)
    else i

/-- The bytes `allocate` needs beyond the record's: a new slot's, when no slot is cleared. -/
def slotCost (p : SlottedPage) : Nat := if p.firstFreeSlot < p.slotCount then 0 else L.slotSize

/-- The part of `allocate` after the `compactify`: the first cleared slot or a new one takes
the record, placed below `data_start`, and `first_free_slot` moves on. -/
def placeRecord (p : SlottedPage) (dataSize : Nat) (isRedirectTarget : Bool) : SlottedPage × Nat :=
  let (p, slotId) := if p.slotCount ≤ p.firstFreeSlot then
      ({ p with slotCount := p.slotCount + 1, freeSpace := p.freeSpace - L.slotSize }, p.slotCount)
    else (p, p.firstFreeSlot)
  let p := { p with dataStart := p.dataStart - dataSize, freeSpace := p.freeSpace - dataSize }
  let p := { p with slots := Function.update p.slots slotId (.record p.dataStart dataSize isRedirectTarget) }
  ({ p with firstFreeSlot := nextFreeSlot p.slots p.slotCount p.slotCount p.firstFreeSlot }, slotId)

/-- `allocate(data_size, page_size, is_redirect_target)`: compactifies when the gap between
the directory and the data is too small, takes the first cleared slot or a new one, places
the record below `data_start`, and returns the slot id. -/
def allocate (p : SlottedPage) (dataSize pageSize : Nat) (isRedirectTarget : Bool)
    (tmp : SlottedPage) : Except String (SlottedPage × Nat) :=
  if ¬ dataSize + slotCost L p ≤ p.freeSpace then
    throw "header.free_space >= data_size + (header.first_free_slot < header.slot_count ? 0 : sizeof(Slot))"
  else
    pure (placeRecord L (if fragmentedFreeSpace L p ≤ dataSize + slotCost L p then
      compactify L p pageSize tmp else p) dataSize isRedirectTarget)

/-- `relocate(slot_id, data_size, page_size)`: shrinks the record in place, or moves it below
`data_start` when the gap holds it, or grows the slot and compactifies. -/
def relocate (p : SlottedPage) (slotId dataSize pageSize : Nat) (tmp : SlottedPage) :
    Except String SlottedPage :=
  if ¬ slotId < p.slotCount then throw "slot_id < header.slot_count"
  else
    let slot := p.slots slotId
    if ¬ (!slot.isRedirect && !slot.isEmpty &&
        (dataSize ≤ slot.getSize || dataSize - slot.getSize ≤ p.freeSpace)) then
      throw "!slot.is_redirect() && !slot.is_empty() && (data_size <= slot.get_size() || header.free_space >= data_size - slot.get_size())"
    else if dataSize ≤ slot.getSize then
      pure { p with
        freeSpace := p.freeSpace + (slot.getSize - dataSize)
        slots := Function.update p.slots slotId (.record slot.getOffset dataSize slot.isRedirectTarget) }
    else if dataSize ≤ fragmentedFreeSpace L p then
      let dataStart := p.dataStart - dataSize
      pure { p with
        dataStart := dataStart
        freeSpace := p.freeSpace + slot.getSize - dataSize
        data := memcpy p.data dataStart p.data slot.getOffset slot.getSize
        slots := Function.update p.slots slotId (.record dataStart dataSize slot.isRedirectTarget) }
    else
      pure (compactify L { p with
        slots := Function.update p.slots slotId (.record slot.getOffset dataSize slot.isRedirectTarget) }
        pageSize tmp)

/-- The loop of `erase` that drops cleared slots off the end of the directory, giving each
one's bytes back to `free_space`. -/
def trimSlots (slots : Nat → Slot) : Nat → Nat → Nat × Nat
  | 0, freeSpace => (0, freeSpace)
  | n + 1, freeSpace =>
    if !(slots n).isEmpty then (n + 1, freeSpace) else trimSlots slots n (freeSpace + L.slotSize)

/-- `erase(slot_id)`: gives the record's bytes back, moves `first_free_slot` down to the slot,
moves `data_start` up past the record when it is the lowest, clears the slot, and trims the
directory when the slot was the last. -/
def erase (p : SlottedPage) (slotId : Nat) : Except String SlottedPage :=
  if ¬ slotId < p.slotCount then throw "slot_id < header.slot_count"
  else
    let slot := p.slots slotId
    let p := { p with freeSpace := p.freeSpace + slot.getSize }
    let p := if slotId < p.firstFreeSlot then { p with firstFreeSlot := slotId } else p
    let p := if slot.getOffset = p.dataStart then { p with dataStart := p.dataStart + slot.getSize } else p
    let p := { p with slots := Function.update p.slots slotId .empty }
    if slotId + 1 = p.slotCount then
      let r := trimSlots L p.slots p.slotCount p.freeSpace
      pure { p with slotCount := r.1, freeSpace := r.2 }
    else pure p

/-- What `SPSegment::resize` does to a record's page when the record moves to another page:
the slot becomes a redirect to the record's new `TID` and its bytes go back to `free_space`;
`data_start` stays where it is. -/
def setRedirect (p : SlottedPage) (slotId : Nat) (tid : Tid) : SlottedPage :=
  { p with
    freeSpace := p.freeSpace + (p.slots slotId).getSize
    slots := Function.update p.slots slotId (.redirect tid) }

-- ============================================================ compactify

/-- The bytes the records of slots `0..k` hold. -/
def sizeBelow (slots : Nat → Slot) (k : Nat) : Nat := ∑ s ∈ Finset.range k, (slots s).getSize

/-- The bytes the page's records hold. -/
def used (p : SlottedPage) : Nat := sizeBelow p.slots p.slotCount

theorem sizeBelow_succ (slots : Nat → Slot) (k : Nat) :
    sizeBelow slots (k + 1) = sizeBelow slots k + (slots k).getSize :=
  Finset.sum_range_succ _ _

theorem sizeBelow_mono (slots : Nat → Slot) {a b : Nat} (h : a ≤ b) :
    sizeBelow slots a ≤ sizeBelow slots b :=
  Finset.sum_le_sum_of_subset (Finset.range_subset.mpr h)

theorem sizeBelow_congr {slots slots' : Nat → Slot} {k : Nat}
    (h : ∀ s < k, (slots' s).getSize = (slots s).getSize) : sizeBelow slots' k = sizeBelow slots k :=
  Finset.sum_congr rfl fun s hs => h s (Finset.mem_range.mp hs)

/-- Writing slot `i` below `k` trades its size for the new slot's. -/
theorem sizeBelow_update (slots : Nat → Slot) {i k : Nat} (hi : i < k) (v : Slot) :
    sizeBelow (Function.update slots i v) k + (slots i).getSize = sizeBelow slots k + v.getSize := by
  have hm : i ∈ Finset.range k := Finset.mem_range.mpr hi
  have hu : ∀ s, (Function.update slots i v s).getSize =
      Function.update (fun s => (slots s).getSize) i v.getSize s :=
    fun s => Function.apply_update (fun _ => Slot.getSize) slots i v s
  unfold sizeBelow
  simp only [hu]
  rw [Finset.sum_update_of_mem hm, Finset.sum_eq_add_sum_diff_singleton hm (fun s => (slots s).getSize)]
  omega

section compactify

variable (p : SlottedPage) (pageSize : Nat)

@[simp] theorem compactifySlot_dataStart (t : SlottedPage) (s : Nat) :
    (compactifySlot p pageSize t s).dataStart = t.dataStart - (p.slots s).getSize := by
  unfold compactifySlot
  cases p.slots s <;> rfl

theorem compactifySlot_slots (t : SlottedPage) (s : Nat) :
    (compactifySlot p pageSize t s).slots =
      Function.update t.slots s ((p.slots s).moveTo (t.dataStart - (p.slots s).getSize)) := by
  unfold compactifySlot
  cases p.slots s <;> simp [Slot.moveTo, Slot.isEmpty, Slot.isRedirect, Slot.getSize, Slot.isRedirectTarget]

/-- A turn writes no byte at or above the buffer's `data_start`. -/
theorem compactifySlot_data_frame (t : SlottedPage) (s : Nat) (hle : (p.slots s).getSize ≤ t.dataStart)
    {b : Nat} (hb : t.dataStart ≤ b) : (compactifySlot p pageSize t s).data b = t.data b := by
  unfold compactifySlot
  cases h : p.slots s with
  | record o n r =>
    simp only [h, Slot.isEmpty, Slot.isRedirect, Slot.getSize, Slot.getOffset, Bool.or_false,
      Bool.false_eq_true, if_false, memcpy] at hle ⊢
    rw [if_neg (by omega)]
  | empty => rfl
  | redirect _ => rfl

/-- A turn over a record copies its bytes, as many as lie before the page end, right below
the buffer's `data_start`. -/
theorem compactifySlot_data_placed (t : SlottedPage) {s o n : Nat} {r : Bool}
    (h : p.slots s = .record o n r) {i : Nat} (hi : i < min (pageSize - o) n) :
    (compactifySlot p pageSize t s).data (t.dataStart - n + i) = p.data (o + i) := by
  unfold compactifySlot
  simp only [h, Slot.isEmpty, Slot.isRedirect, Slot.getSize, Slot.getOffset, Bool.or_false,
    Bool.false_eq_true, if_false, memcpy]
  rw [if_pos (by omega), Nat.add_sub_cancel_left]

variable (tmp : SlottedPage)

theorem compactifyLoop_succ (k : Nat) :
    compactifyLoop p pageSize tmp (k + 1) = compactifySlot p pageSize (compactifyLoop p pageSize tmp k) k := by
  simp only [compactifyLoop, List.range_succ, List.foldl_append, List.foldl_cons, List.foldl_nil]

theorem compactifyLoop_dataStart (k : Nat) :
    (compactifyLoop p pageSize tmp k).dataStart = pageSize - sizeBelow p.slots k := by
  induction k with
  | zero => rfl
  | succ k ih => rw [compactifyLoop_succ, compactifySlot_dataStart, ih, sizeBelow_succ, Nat.sub_sub]

theorem compactifyLoop_slots (k s : Nat) :
    (compactifyLoop p pageSize tmp k).slots s =
      if s < k then (p.slots s).moveTo (pageSize - sizeBelow p.slots (s + 1)) else tmp.slots s := by
  induction k with
  | zero => rfl
  | succ k ih =>
    rw [compactifyLoop_succ, compactifySlot_slots, compactifyLoop_dataStart, Nat.sub_sub,
      ← sizeBelow_succ]
    by_cases hsk : s = k
    · subst hsk; simp
    · rw [Function.update_noteq hsk, ih]
      split_ifs <;> first | rfl | omega

/-- After `k` turns, the record of every slot before `k` has its bytes, as many as lie before
the page end, below those of the slots before it. -/
theorem compactifyLoop_data {k : Nat} (hk : sizeBelow p.slots k ≤ pageSize) {s o n : Nat} {r : Bool}
    (hs : s < k) (h : p.slots s = .record o n r) {i : Nat} (hi : i < min (pageSize - o) n) :
    (compactifyLoop p pageSize tmp k).data (pageSize - sizeBelow p.slots (s + 1) + i) = p.data (o + i) := by
  induction k with
  | zero => exact absurd hs (Nat.not_lt_zero _)
  | succ k ih =>
    rw [sizeBelow_succ] at hk
    rw [compactifyLoop_succ]
    rcases Nat.lt_succ_iff_lt_or_eq.mp hs with hs | rfl
    · have hmono := sizeBelow_mono p.slots (show s + 1 ≤ k from hs)
      rw [compactifySlot_data_frame _ _ _ _ (by rw [compactifyLoop_dataStart]; omega)
        (by rw [compactifyLoop_dataStart]; omega)]
      exact ih (by omega) hs
    · have hn : (p.slots s).getSize = n := by rw [h]; rfl
      have := compactifySlot_data_placed p pageSize (compactifyLoop p pageSize tmp s) h hi
      rwa [compactifyLoop_dataStart, Nat.sub_sub, ← hn, ← sizeBelow_succ] at this

@[simp] theorem compactify_slotCount : (compactify L p pageSize tmp).slotCount = p.slotCount := rfl

@[simp] theorem compactify_firstFreeSlot :
    (compactify L p pageSize tmp).firstFreeSlot = p.firstFreeSlot := rfl

theorem compactify_dataStart : (compactify L p pageSize tmp).dataStart = pageSize - used p :=
  compactifyLoop_dataStart p pageSize tmp _

theorem compactify_freeSpace :
    (compactify L p pageSize tmp).freeSpace =
      pageSize - used p - L.headerSize - p.slotCount * L.slotSize := by
  show (compactifyLoop p pageSize tmp p.slotCount).dataStart - _ - _ = _
  rw [compactifyLoop_dataStart, used]

theorem compactify_slots {s : Nat} (hs : s < p.slotCount) :
    (compactify L p pageSize tmp).slots s = (p.slots s).moveTo (pageSize - sizeBelow p.slots (s + 1)) := by
  show (compactifyLoop p pageSize tmp p.slotCount).slots s = _
  rw [compactifyLoop_slots, if_pos hs]

theorem compactify_data (hu : used p ≤ pageSize) {s o n : Nat} {r : Bool} (hs : s < p.slotCount)
    (h : p.slots s = .record o n r) {i : Nat} (hi : i < min (pageSize - o) n) :
    (compactify L p pageSize tmp).data (pageSize - sizeBelow p.slots (s + 1) + i) = p.data (o + i) :=
  compactifyLoop_data p pageSize tmp hu hs h hi

theorem compactify_sizeBelow {k : Nat} (hk : k ≤ p.slotCount) :
    sizeBelow (compactify L p pageSize tmp).slots k = sizeBelow p.slots k :=
  sizeBelow_congr fun s hs => by rw [compactify_slots L p pageSize tmp (by omega), Slot.getSize_moveTo]

end compactify

-- ============================================================ the invariant

/-- The free slot bookkeeping: `first_free_slot` is the first cleared slot, or `slot_count`
when there is none, and the directory does not end in a cleared slot. -/
structure FreeSlots (p : SlottedPage) : Prop where
  firstFree_le : p.firstFreeSlot ≤ p.slotCount
  below_firstFree : ∀ s < p.firstFreeSlot, (p.slots s).isEmpty = false
  firstFree_empty : p.firstFreeSlot < p.slotCount → (p.slots p.firstFreeSlot).isEmpty = true
  last_used : ∀ n, p.slotCount = n + 1 → (p.slots n).isEmpty = false

/-- The layout of a page of `pageSize` bytes: the directory ends at or below `data_start`,
the records' bytes fit between `data_start` and the page end, each record's lie there, no
two records share a byte, and `free_space` is what the header, the directory and the
records leave of the page. -/
structure Wf (pageSize : Nat) (p : SlottedPage) : Prop where
  directory_le : L.headerSize + p.slotCount * L.slotSize ≤ p.dataStart
  dataStart_add_used : p.dataStart + used p ≤ pageSize
  inside : ∀ s < p.slotCount, ∀ b, (p.slots s).Covers b → p.dataStart ≤ b ∧ b < pageSize
  disjoint : ∀ s < p.slotCount, ∀ t < p.slotCount, s ≠ t → ∀ b,
    (p.slots s).Covers b → ¬ (p.slots t).Covers b
  freeSpace_eq : p.freeSpace + L.headerSize + p.slotCount * L.slotSize + used p = pageSize
  freeSlots : FreeSlots p

/-- The bookkeeping reads only which slots are cleared. -/
theorem FreeSlots.congr {p q : SlottedPage} (h : FreeSlots p) (hc : q.slotCount = p.slotCount)
    (hf : q.firstFreeSlot = p.firstFreeSlot)
    (he : ∀ s < p.slotCount, (q.slots s).isEmpty = (p.slots s).isEmpty) : FreeSlots q where
  firstFree_le := hc ▸ hf ▸ h.firstFree_le
  below_firstFree s hs := by rw [he s (by have := h.firstFree_le; omega)]; exact h.below_firstFree s (hf ▸ hs)
  firstFree_empty hlt := by
    rw [hf, he _ (by omega)]; exact h.firstFree_empty (by omega)
  last_used n hn := by rw [he n (by omega)]; exact h.last_used n (by omega)

theorem wf_new {pageSize : Nat} (h : L.headerSize ≤ pageSize) : Wf L pageSize (new L pageSize) where
  directory_le := by simp [new, h]
  dataStart_add_used := by simp [new, used, sizeBelow]
  inside _ hs := absurd hs (Nat.not_lt_zero _)
  disjoint _ hs := absurd hs (Nat.not_lt_zero _)
  freeSpace_eq := by simp [new, used, sizeBelow]; omega
  freeSlots := ⟨le_rfl, fun _ hs => absurd hs (Nat.not_lt_zero _), fun h => absurd h (lt_irrefl 0),
    fun _ hn => absurd hn (Nat.succ_ne_zero _).symm⟩

section compactify

variable {p : SlottedPage} {pageSize : Nat} (tmp : SlottedPage)

/-- Where `compactify` puts the bytes of slot `s`: right below those of the slots before it. -/
theorem compactify_covers {s b : Nat} (hs : s < p.slotCount)
    (h : ((compactify L p pageSize tmp).slots s).Covers b) :
    pageSize - sizeBelow p.slots (s + 1) ≤ b ∧ b < pageSize - sizeBelow p.slots (s + 1) + (p.slots s).getSize := by
  rw [compactify_slots L p pageSize tmp hs, Slot.covers_moveTo] at h
  exact h.2.2

/-- `compactify` of a page whose records fit beside the header and the directory lays it out
anew: the page is well formed, with all its free space in one gap. -/
theorem compactify_wf (hfit : L.headerSize + p.slotCount * L.slotSize + used p ≤ pageSize)
    (hfs : FreeSlots p) : Wf L pageSize (compactify L p pageSize tmp) where
  directory_le := by rw [compactify_dataStart, compactify_slotCount]; omega
  dataStart_add_used := by
    rw [compactify_dataStart]
    unfold used at hfit ⊢
    rw [compactify_slotCount, compactify_sizeBelow L p pageSize tmp le_rfl]
    omega
  inside s hs b hb := by
    rw [compactify_slotCount] at hs
    have hr := compactify_covers L tmp hs hb
    have h1 := sizeBelow_mono p.slots (show s + 1 ≤ p.slotCount from hs)
    have h2 := sizeBelow_succ p.slots s
    rw [compactify_dataStart]
    unfold used at hfit ⊢
    omega
  disjoint s hs t ht hst b hb hb' := by
    rw [compactify_slotCount] at hs ht
    have hr := compactify_covers L tmp hs hb
    have hr' := compactify_covers L tmp ht hb'
    have hs1 := sizeBelow_succ p.slots s
    have ht1 := sizeBelow_succ p.slots t
    have hsu := sizeBelow_mono p.slots (show s + 1 ≤ p.slotCount from hs)
    have htu := sizeBelow_mono p.slots (show t + 1 ≤ p.slotCount from ht)
    unfold used at hfit
    rcases Nat.lt_or_gt_of_ne hst with hlt | hlt
    · have := sizeBelow_mono p.slots (show s + 1 ≤ t from hlt); omega
    · have := sizeBelow_mono p.slots (show t + 1 ≤ s from hlt); omega
  freeSpace_eq := by
    rw [compactify_freeSpace]
    unfold used at hfit ⊢
    rw [compactify_slotCount, compactify_sizeBelow L p pageSize tmp le_rfl]
    omega
  freeSlots := hfs.congr rfl rfl fun s hs => by
    rw [compactify_slots L p pageSize tmp hs, Slot.isEmpty_moveTo]

end compactify

namespace Wf

variable {L} {pageSize : Nat} {p : SlottedPage}

theorem dataStart_le (hw : Wf L pageSize p) : p.dataStart ≤ pageSize :=
  le_trans (Nat.le_add_right _ _) hw.dataStart_add_used

/-- The gap between the directory and the data is part of the free space. -/
theorem fragmented_le (hw : Wf L pageSize p) : fragmentedFreeSpace L p ≤ p.freeSpace := by
  have := hw.freeSpace_eq; have := hw.dataStart_add_used
  unfold fragmentedFreeSpace; omega

/-- Placing a record of `n` bytes right below `data_start` in slot `i`, where every other slot
below the new count is an old one, keeps every record inside the data area, which now starts
`n` bytes lower. -/
theorem place_inside (hw : Wf L pageSize p) {n c i : Nat} (hn : n ≤ p.dataStart) (r : Bool)
    (hc : ∀ s < c, s ≠ i → s < p.slotCount) :
    ∀ s < c, ∀ b, (Function.update p.slots i (.record (p.dataStart - n) n r) s).Covers b →
      p.dataStart - n ≤ b ∧ b < pageSize := fun s hs b hb => by
  by_cases hsi : s = i
  · subst hsi
    rw [Function.update_same] at hb
    have := hw.dataStart_le
    exact ⟨hb.1, by simp only [Slot.Covers] at hb; omega⟩
  · rw [Function.update_noteq hsi] at hb
    have := hw.inside s (hc s hs hsi) b hb
    omega

/-- Placing a record right below `data_start` shares no byte with another record. -/
theorem place_disjoint (hw : Wf L pageSize p) {n c i : Nat} (hn : n ≤ p.dataStart) (r : Bool)
    (hc : ∀ s < c, s ≠ i → s < p.slotCount) :
    ∀ s < c, ∀ t < c, s ≠ t → ∀ b,
      (Function.update p.slots i (.record (p.dataStart - n) n r) s).Covers b →
      ¬ (Function.update p.slots i (.record (p.dataStart - n) n r) t).Covers b := by
  have hnew : ∀ {s b}, s < c → s ≠ i → (p.slots s).Covers b → ¬ (Slot.record (p.dataStart - n) n r).Covers b :=
    fun hs hsi hb hb' => by
      have := hw.inside _ (hc _ hs hsi) _ hb
      simp only [Slot.Covers] at hb'
      omega
  intro s hs t ht hst b hb hb'
  by_cases hsi : s = i
  · subst hsi
    rw [Function.update_noteq (Ne.symm hst)] at hb'
    rw [Function.update_same] at hb
    exact hnew ht (Ne.symm hst) hb' hb
  · rw [Function.update_noteq hsi] at hb
    by_cases hti : t = i
    · subst hti
      rw [Function.update_same] at hb'
      exact hnew hs hsi hb hb'
    · rw [Function.update_noteq hti] at hb'
      exact hw.disjoint s (hc s hs hsi) t (hc t ht hti) hst b hb hb'

end Wf

-- ============================================================ allocate

/-- The loop from `i` stops at the first cleared slot from `i` on, or at `slot_count`. -/
theorem nextFreeSlot_spec (slots : Nat → Slot) (count : Nat) :
    ∀ fuel i, i ≤ count → count ≤ i + fuel →
      i ≤ nextFreeSlot slots count fuel i ∧ nextFreeSlot slots count fuel i ≤ count ∧
      (∀ j, i ≤ j → j < nextFreeSlot slots count fuel i → (slots j).isEmpty = false) ∧
      (nextFreeSlot slots count fuel i < count →
        (slots (nextFreeSlot slots count fuel i)).isEmpty = true)
  | 0, i, hi, hf => by
    simp only [nextFreeSlot]
    exact ⟨le_rfl, hi, fun _ h1 h2 => absurd h2 (by omega), fun h => absurd h (by omega)⟩
  | fuel + 1, i, hi, hf => by
    unfold nextFreeSlot
    split
    · split
      · rename_i he
        exact ⟨le_rfl, hi, fun _ h1 h2 => absurd h2 (by omega), fun _ => he⟩
      · rename_i hne
        obtain ⟨h1, h2, h3, h4⟩ := nextFreeSlot_spec slots count fuel (i + 1) (by omega) (by omega)
        refine ⟨by omega, h2, fun j hj1 hj2 => ?_, h4⟩
        rcases Nat.eq_or_lt_of_le hj1 with rfl | hj1
        · exact Bool.eq_false_iff.mpr hne
        · exact h3 j hj1 hj2
    · exact ⟨le_rfl, hi, fun _ h1 h2 => absurd h2 (by omega), fun h => absurd h (by omega)⟩

section allocate

variable {q : SlottedPage} (dataSize : Nat) (r : Bool)

theorem placeRecord_snd (hf : q.firstFreeSlot ≤ q.slotCount) :
    (placeRecord L q dataSize r).2 = q.firstFreeSlot := by
  unfold placeRecord
  split_ifs
  · show q.slotCount = _; omega
  · rfl

/-- What `placeRecord` writes: slot `first_free_slot` (a new one when none is cleared) holds
the record right below `data_start`, and `first_free_slot` moves on from there. -/
theorem placeRecord_fst (hf : q.firstFreeSlot ≤ q.slotCount) :
    (placeRecord L q dataSize r).1 =
      let c := if q.firstFreeSlot < q.slotCount then q.slotCount else q.slotCount + 1
      let slots := Function.update q.slots q.firstFreeSlot (.record (q.dataStart - dataSize) dataSize r)
      { q with
        slotCount := c
        dataStart := q.dataStart - dataSize
        freeSpace := q.freeSpace - slotCost L q - dataSize
        slots := slots
        firstFreeSlot := nextFreeSlot slots c c q.firstFreeSlot } := by
  unfold placeRecord slotCost
  by_cases h : q.firstFreeSlot < q.slotCount
  · simp [h, not_le.mpr h]
  · have he : q.firstFreeSlot = q.slotCount := by omega
    simp [h, he]

/-- `placeRecord` on a well-formed page whose gap holds the record and any new slot: the
page stays well formed. -/
theorem placeRecord_wf {pageSize : Nat} (hw : Wf L pageSize q)
    (hroom : dataSize + slotCost L q ≤ fragmentedFreeSpace L q) :
    Wf L pageSize (placeRecord L q dataSize r).1 := by
  have hf := hw.freeSlots.firstFree_le
  rw [placeRecord_fst L dataSize r hf]
  dsimp only
  set c := if q.firstFreeSlot < q.slotCount then q.slotCount else q.slotCount + 1 with hc_def
  set slots := Function.update q.slots q.firstFreeSlot (.record (q.dataStart - dataSize) dataSize r)
    with hslots
  have hds : dataSize ≤ q.dataStart := by unfold fragmentedFreeSpace at hroom; omega
  have hold : ∀ s < c, s ≠ q.firstFreeSlot → s < q.slotCount := fun s hs hsf => by
    rw [hc_def] at hs; split_ifs at hs <;> omega
  -- the new count's directory and the records' bytes
  have hcount : c * L.slotSize = q.slotCount * L.slotSize + slotCost L q := by
    rw [hc_def, slotCost]; split_ifs <;> simp [Nat.succ_mul]
  have hused : sizeBelow slots c = used q + dataSize := by
    rw [hc_def, used]
    split_ifs with h
    · have := sizeBelow_update q.slots h (.record (q.dataStart - dataSize) dataSize r)
      rw [Slot.getSize_of_isEmpty (hw.freeSlots.firstFree_empty h)] at this
      exact this
    · rw [sizeBelow_succ, hslots, show q.firstFreeSlot = q.slotCount by omega, Function.update_same,
        sizeBelow_congr fun s hs => by rw [Function.update_noteq (by omega)]]
      rfl
  have hfree := hw.freeSpace_eq
  have hfrag := hw.fragmented_le
  have hdu := hw.dataStart_add_used
  have hdir := hw.directory_le
  unfold fragmentedFreeSpace at hroom hfrag
  obtain ⟨h1, h2, h3, h4⟩ := nextFreeSlot_spec slots c c q.firstFreeSlot
    (by rw [hc_def]; split_ifs <;> omega) (by omega)
  refine ⟨?_, ?_, hw.place_inside hds r hold, hw.place_disjoint hds r hold, ?_, ⟨h2, ?_, h4, ?_⟩⟩
  · show L.headerSize + c * L.slotSize ≤ q.dataStart - dataSize; omega
  · show q.dataStart - dataSize + sizeBelow slots c ≤ pageSize; omega
  · show q.freeSpace - slotCost L q - dataSize + L.headerSize + c * L.slotSize + sizeBelow slots c =
      pageSize
    omega
  · intro s hs
    by_cases hsf : s < q.firstFreeSlot
    · show (slots s).isEmpty = false
      rw [hslots, Function.update_noteq (by omega)]
      exact hw.freeSlots.below_firstFree s hsf
    · exact h3 s (by omega) hs
  · intro n hn
    change c = n + 1 at hn
    show (slots n).isEmpty = false
    by_cases hnf : n = q.firstFreeSlot
    · rw [hnf, hslots, Function.update_same]; rfl
    · rw [hslots, Function.update_noteq hnf]
      exact hw.freeSlots.last_used n (by rw [hc_def] at hn; split_ifs at hn <;> omega)

end allocate

/-- What a successful `allocate` did on a well-formed page: on the page itself or on its
compactified copy (well formed, with the same slots, and with the record and any new slot in
the gap), `placeRecord` placed the record in `first_free_slot`, whose id it returns. -/
theorem allocate_cases {pageSize dataSize : Nat} {r : Bool} {tmp p p' : SlottedPage} {sid : Nat}
    (hw : Wf L pageSize p) (h : allocate L p dataSize pageSize r tmp = .ok (p', sid)) :
    ∃ q, Wf L pageSize q ∧ (q = p ∨ q = compactify L p pageSize tmp) ∧ q.slotCount = p.slotCount ∧
      q.firstFreeSlot = p.firstFreeSlot ∧ dataSize + slotCost L q ≤ fragmentedFreeSpace L q ∧
      p' = (placeRecord L q dataSize r).1 ∧ sid = p.firstFreeSlot := by
  unfold allocate at h
  split at h
  · cases h
  have h := Except.ok.inj h
  set q := if fragmentedFreeSpace L p ≤ dataSize + slotCost L p then compactify L p pageSize tmp else p
  have hq : Wf L pageSize q ∧ (q = p ∨ q = compactify L p pageSize tmp) ∧ q.slotCount = p.slotCount ∧
      q.firstFreeSlot = p.firstFreeSlot ∧ dataSize + slotCost L p ≤ fragmentedFreeSpace L q := by
    by_cases hc : fragmentedFreeSpace L p ≤ dataSize + slotCost L p
    · have hfit : L.headerSize + p.slotCount * L.slotSize + used p ≤ pageSize := by
        have := hw.freeSpace_eq; omega
      rw [show q = compactify L p pageSize tmp from if_pos hc]
      refine ⟨compactify_wf L tmp hfit hw.freeSlots, .inr rfl, rfl, rfl, ?_⟩
      unfold fragmentedFreeSpace
      rw [compactify_dataStart, compactify_slotCount]
      have := hw.freeSpace_eq; omega
    · rw [show q = p from if_neg hc]; exact ⟨hw, .inl rfl, rfl, rfl, by omega⟩
  obtain ⟨hwq, hqp, hc, hf, hroom⟩ := hq
  have hcost : slotCost L q = slotCost L p := by simp only [slotCost, hc, hf]
  refine ⟨q, hwq, hqp, hc, hf, hcost ▸ hroom, by rw [h], ?_⟩
  rw [← hf, ← placeRecord_snd L dataSize r hwq.freeSlots.firstFree_le, h]

/-- `allocate` on a well-formed page: it returns `first_free_slot` as the slot id, and the
page stays well formed. -/
theorem allocate_wf {pageSize dataSize : Nat} {r : Bool} {tmp p p' : SlottedPage} {sid : Nat}
    (hw : Wf L pageSize p) (h : allocate L p dataSize pageSize r tmp = .ok (p', sid)) :
    Wf L pageSize p' ∧ sid = p.firstFreeSlot := by
  obtain ⟨q, hwq, -, -, -, hroom, rfl, rfl⟩ := allocate_cases L hw h
  exact ⟨placeRecord_wf L dataSize r hwq hroom, rfl⟩

-- ============================================================ relocate

namespace Wf

variable {L} {pageSize : Nat} {p : SlottedPage}

/-- Shrinking a record in place keeps it inside the data area and apart from the others. -/
theorem shrink {i : Nat} {v : Slot} (hw : Wf L pageSize p)
    (hv : ∀ b, v.Covers b → (p.slots i).Covers b) :
    (∀ s < p.slotCount, ∀ b, (Function.update p.slots i v s).Covers b → p.dataStart ≤ b ∧ b < pageSize) ∧
    ∀ s < p.slotCount, ∀ t < p.slotCount, s ≠ t → ∀ b,
      (Function.update p.slots i v s).Covers b → ¬ (Function.update p.slots i v t).Covers b := by
  have hsub : ∀ s b, (Function.update p.slots i v s).Covers b → (p.slots s).Covers b := fun s b h => by
    by_cases hsi : s = i
    · subst hsi; rw [Function.update_same] at h; exact hv b h
    · rwa [Function.update_noteq hsi] at h
  exact ⟨fun s hs b hb => hw.inside s hs b (hsub s b hb),
    fun s hs t ht hst b hb hb' => hw.disjoint s hs t ht hst b (hsub s b hb) (hsub t b hb')⟩

end Wf

/-- What a successful `relocate` did: the slot held a record, and the record was shrunk in
place, or moved below `data_start` with its bytes copied there, or grown in place before the
page was compactified. -/
theorem relocate_cases {pageSize sid dataSize : Nat} {tmp p p' : SlottedPage}
    (h : relocate L p sid dataSize pageSize tmp = .ok p') :
    sid < p.slotCount ∧ ∃ o n rt, p.slots sid = .record o n rt ∧
      (dataSize ≤ n ∨ dataSize - n ≤ p.freeSpace) ∧
      ((dataSize ≤ n ∧ p' = { p with
          freeSpace := p.freeSpace + (n - dataSize)
          slots := Function.update p.slots sid (.record o dataSize rt) }) ∨
       (n < dataSize ∧ dataSize ≤ fragmentedFreeSpace L p ∧ p' = { p with
          dataStart := p.dataStart - dataSize
          freeSpace := p.freeSpace + n - dataSize
          data := memcpy p.data (p.dataStart - dataSize) p.data o n
          slots := Function.update p.slots sid (.record (p.dataStart - dataSize) dataSize rt) }) ∨
       (n < dataSize ∧ fragmentedFreeSpace L p < dataSize ∧ p' = compactify L { p with
          slots := Function.update p.slots sid (.record o dataSize rt) } pageSize tmp)) := by
  have hsid : sid < p.slotCount := by
    by_contra hs; unfold relocate at h; rw [if_pos hs] at h; cases h
  unfold relocate at h
  rw [if_neg (not_not.mpr hsid)] at h
  dsimp only at h
  split at h
  · cases h
  rename_i hok
  simp only [not_not, Bool.and_eq_true, Bool.not_eq_true', Bool.or_eq_true, decide_eq_true_eq] at hok
  obtain ⟨⟨hnr, hne⟩, hroom⟩ := hok
  obtain ⟨o, n, rt, hrec⟩ : ∃ o n rt, p.slots sid = .record o n rt := ⟨_, _, _, Slot.eq_record hne hnr⟩
  simp only [hrec, Slot.getSize, Slot.getOffset, Slot.isRedirectTarget] at h hroom
  refine ⟨hsid, o, n, rt, hrec, hroom, ?_⟩
  split at h
  · exact .inl ⟨‹_›, (Except.ok.inj h).symm⟩
  split at h
  · exact .inr (.inl ⟨by omega, ‹_›, (Except.ok.inj h).symm⟩)
  · exact .inr (.inr ⟨by omega, by omega, (Except.ok.inj h).symm⟩)

/-- `relocate` on a well-formed page keeps it well formed. -/
theorem relocate_wf {pageSize sid dataSize : Nat} {tmp p p' : SlottedPage} (hw : Wf L pageSize p)
    (h : relocate L p sid dataSize pageSize tmp = .ok p') : Wf L pageSize p' := by
  obtain ⟨hsid, o, n, rt, hrec, hroom, hcase⟩ := relocate_cases L h
  -- the slot's new size, traded against its old one in the records' bytes
  have hused : ∀ o', sizeBelow (Function.update p.slots sid (.record o' dataSize rt)) p.slotCount + n =
      used p + dataSize := fun o' => by
    have := sizeBelow_update p.slots hsid (.record o' dataSize rt); rw [hrec] at this; exact this
  have hfs : ∀ o' (q : SlottedPage), q.slotCount = p.slotCount → q.firstFreeSlot = p.firstFreeSlot →
      q.slots = Function.update p.slots sid (.record o' dataSize rt) → FreeSlots q :=
    fun o' q hc hf hs' => hw.freeSlots.congr hc hf fun s _ => by
      rw [hs']
      by_cases hs : s = sid
      · rw [hs, Function.update_same, hrec]; rfl
      · rw [Function.update_noteq hs]
  have hfree := hw.freeSpace_eq
  have hdu := hw.dataStart_add_used
  have hdir := hw.directory_le
  rcases hcase with ⟨hle, rfl⟩ | ⟨hgt, hfrag, rfl⟩ | ⟨hgt, hfrag, rfl⟩
  · -- shrink in place
    obtain ⟨hin, hdis⟩ := hw.shrink (i := sid) (v := .record o dataSize rt) fun b hb => by
      rw [hrec]; simp only [Slot.Covers] at hb ⊢; omega
    have hu := hused o
    refine ⟨hdir, ?_, hin, hdis, ?_, hfs o _ rfl rfl rfl⟩
    · show p.dataStart + sizeBelow (Function.update p.slots sid (.record o dataSize rt)) p.slotCount ≤
        pageSize
      omega
    · show p.freeSpace + (n - dataSize) + L.headerSize + p.slotCount * L.slotSize +
        sizeBelow (Function.update p.slots sid (.record o dataSize rt)) p.slotCount = pageSize
      omega
  · -- move below `data_start`
    unfold fragmentedFreeSpace at hfrag
    have hds : dataSize ≤ p.dataStart := by omega
    have hu := hused (p.dataStart - dataSize)
    refine ⟨?_, ?_, hw.place_inside hds rt fun s hs _ => hs, hw.place_disjoint hds rt fun s hs _ => hs,
      ?_, hfs _ _ rfl rfl rfl⟩
    · show L.headerSize + p.slotCount * L.slotSize ≤ p.dataStart - dataSize; omega
    · show p.dataStart - dataSize +
        sizeBelow (Function.update p.slots sid (.record (p.dataStart - dataSize) dataSize rt))
          p.slotCount ≤ pageSize
      omega
    · show p.freeSpace + n - dataSize + L.headerSize + p.slotCount * L.slotSize +
        sizeBelow (Function.update p.slots sid (.record (p.dataStart - dataSize) dataSize rt))
          p.slotCount = pageSize
      omega
  · -- grow the slot and compactify
    have hu := hused o
    exact compactify_wf L tmp (by
      show L.headerSize + p.slotCount * L.slotSize +
        sizeBelow (Function.update p.slots sid (.record o dataSize rt)) p.slotCount ≤ pageSize
      omega)
      (hfs o _ rfl rfl rfl)

-- ============================================================ erase

/-- The loop of `erase` stops below the trailing cleared slots, having given each one's bytes
back. -/
theorem trimSlots_spec (slots : Nat → Slot) :
    ∀ n freeSpace, (trimSlots L slots n freeSpace).1 ≤ n ∧
      (trimSlots L slots n freeSpace).2 + (trimSlots L slots n freeSpace).1 * L.slotSize =
        freeSpace + n * L.slotSize ∧
      (∀ j, (trimSlots L slots n freeSpace).1 ≤ j → j < n → (slots j).isEmpty = true) ∧
      ∀ k, (trimSlots L slots n freeSpace).1 = k + 1 → (slots k).isEmpty = false
  | 0, _ => ⟨le_rfl, rfl, fun _ _ h => absurd h (Nat.not_lt_zero _),
    fun k h => absurd h (Nat.succ_ne_zero k).symm⟩
  | n + 1, freeSpace => by
    unfold trimSlots
    split
    · rename_i hne
      exact ⟨le_rfl, rfl, fun _ h1 h2 => absurd h2 (by omega),
        fun k hk => by rw [← Nat.succ_inj'.mp hk]; simpa using hne⟩
    · rename_i he
      obtain ⟨h1, h2, h3, h4⟩ := trimSlots_spec slots n (freeSpace + L.slotSize)
      refine ⟨by omega, by rw [h2, Nat.succ_mul]; omega, fun j hj1 hj2 => ?_, h4⟩
      rcases Nat.lt_or_eq_of_le (Nat.le_of_lt_succ hj2) with hj | rfl
      · exact h3 j hj1 hj
      · simpa using he

/-- `erase` of a slot of the directory: the page with the slot cleared, its bytes given back,
`first_free_slot` at most the slot, and `data_start` past the record when it was the lowest;
trimmed when the slot was the last. -/
theorem erase_eq {p : SlottedPage} {sid : Nat} (hsid : sid < p.slotCount) :
    ∃ e : SlottedPage, e.slotCount = p.slotCount ∧
      e.freeSpace = p.freeSpace + (p.slots sid).getSize ∧
      e.firstFreeSlot = (if sid < p.firstFreeSlot then sid else p.firstFreeSlot) ∧
      e.dataStart = (if (p.slots sid).getOffset = p.dataStart then
        p.dataStart + (p.slots sid).getSize else p.dataStart) ∧
      e.slots = Function.update p.slots sid .empty ∧ e.data = p.data ∧
      erase L p sid = if sid + 1 = p.slotCount then
        pure { e with
          slotCount := (trimSlots L e.slots p.slotCount e.freeSpace).1
          freeSpace := (trimSlots L e.slots p.slotCount e.freeSpace).2 }
      else pure e := by
  refine ⟨{ p with
    freeSpace := p.freeSpace + (p.slots sid).getSize
    firstFreeSlot := if sid < p.firstFreeSlot then sid else p.firstFreeSlot
    dataStart := if (p.slots sid).getOffset = p.dataStart then
      p.dataStart + (p.slots sid).getSize else p.dataStart
    slots := Function.update p.slots sid .empty }, rfl, rfl, rfl, rfl, rfl, rfl, ?_⟩
  unfold erase
  rw [if_neg (not_not.mpr hsid)]
  by_cases h1 : sid < p.firstFreeSlot <;> by_cases h2 : (p.slots sid).getOffset = p.dataStart <;>
    simp [h1, h2]

/-- Trailing cleared slots hold no bytes. -/
theorem sizeBelow_trim {slots : Nat → Slot} {m n : Nat} (hmn : m ≤ n)
    (h : ∀ j, m ≤ j → j < n → (slots j).isEmpty = true) : sizeBelow slots m = sizeBelow slots n :=
  Finset.sum_subset (Finset.range_subset.mpr hmn) fun j hj hjm => by
    rw [Finset.mem_range] at hj hjm
    exact Slot.getSize_of_isEmpty (h j (by omega) hj)

/-- What a successful `erase` did: the slot was in the directory, and the page is the
cleared page `e` of `erase_eq`, trimmed when the slot was the last. -/
theorem erase_cases {p p' : SlottedPage} {sid : Nat} (h : erase L p sid = .ok p') :
    sid < p.slotCount ∧ ∃ e : SlottedPage, e.slotCount = p.slotCount ∧
      e.freeSpace = p.freeSpace + (p.slots sid).getSize ∧
      e.firstFreeSlot = (if sid < p.firstFreeSlot then sid else p.firstFreeSlot) ∧
      e.dataStart = (if (p.slots sid).getOffset = p.dataStart then
        p.dataStart + (p.slots sid).getSize else p.dataStart) ∧
      e.slots = Function.update p.slots sid .empty ∧ e.data = p.data ∧
      ((sid + 1 = p.slotCount ∧ p' = { e with
          slotCount := (trimSlots L e.slots p.slotCount e.freeSpace).1
          freeSpace := (trimSlots L e.slots p.slotCount e.freeSpace).2 }) ∨
       (sid + 1 ≠ p.slotCount ∧ p' = e)) := by
  have hsid : sid < p.slotCount := by
    by_contra hs; unfold erase at h; rw [if_pos hs] at h; cases h
  obtain ⟨e, hc, hfree, hff, hds, hslots, hdata, heq⟩ := erase_eq L hsid
  rw [heq] at h
  refine ⟨hsid, e, hc, hfree, hff, hds, hslots, hdata, ?_⟩
  split at h
  · exact .inl ⟨‹_›, (Except.ok.inj h).symm⟩
  · exact .inr ⟨‹_›, (Except.ok.inj h).symm⟩

/-- `erase` on a well-formed page keeps it well formed. -/
theorem erase_wf {pageSize sid : Nat} {p p' : SlottedPage} (hw : Wf L pageSize p)
    (h : erase L p sid = .ok p') : Wf L pageSize p' := by
  obtain ⟨hsid, e, hc, hfree, hff, hds, hslots, -, hcase⟩ := erase_cases L h
  -- the cleared page, before any trim
  have hused : sizeBelow e.slots p.slotCount + (p.slots sid).getSize = used p := by
    have := sizeBelow_update p.slots hsid .empty; rw [hslots]; exact this
  obtain ⟨hin, hdis⟩ := hw.shrink (i := sid) (v := .empty) fun _ hb => absurd hb id
  rw [← hslots] at hin hdis
  have hdu := hw.dataStart_add_used
  have hdir := hw.directory_le
  have hfs := hw.freeSpace_eq
  have hlow : (p.slots sid).getOffset = p.dataStart → ∀ b, p.dataStart ≤ b → b < p.dataStart + (p.slots sid).getSize →
      (p.slots sid).Covers b := fun ho b h1 h2 => Slot.covers_iff_bounds.mpr ⟨by omega, by omega⟩
  have hinE : ∀ s < p.slotCount, ∀ b, (e.slots s).Covers b → e.dataStart ≤ b ∧ b < pageSize := fun s hs b hb => by
    obtain ⟨h1, h2⟩ := hin s hs b hb
    have hsne : s ≠ sid := fun hss => by rw [hslots, hss, Function.update_same] at hb; exact hb
    refine ⟨?_, h2⟩
    rw [hds]; split_ifs with ho
    · by_contra hlt
      refine hw.disjoint s hs sid hsid hsne b ?_ (hlow ho b h1 (by omega))
      rwa [hslots, Function.update_noteq hsne] at hb
    · exact h1
  have hduE : e.dataStart + sizeBelow e.slots p.slotCount ≤ pageSize := by
    rw [hds]; split_ifs <;> omega
  have hdirE : p.dataStart ≤ e.dataStart := by rw [hds]; split_ifs <;> omega
  -- the free slot bookkeeping of the cleared page
  have hffle : e.firstFreeSlot ≤ p.slotCount := by
    have := hw.freeSlots.firstFree_le; rw [hff]; split_ifs <;> omega
  have hbelow : ∀ s < e.firstFreeSlot, (e.slots s).isEmpty = false := fun s hs => by
    have hsne : s ≠ sid := by rw [hff] at hs; split_ifs at hs <;> omega
    rw [hslots, Function.update_noteq hsne]
    exact hw.freeSlots.below_firstFree s (by rw [hff] at hs; split_ifs at hs <;> omega)
  have hat : e.firstFreeSlot < p.slotCount → (e.slots e.firstFreeSlot).isEmpty = true := fun hlt => by
    rw [hslots]
    by_cases hfs : e.firstFreeSlot = sid
    · rw [hfs, Function.update_same]; rfl
    · rw [Function.update_noteq hfs]
      have hf : e.firstFreeSlot = p.firstFreeSlot := by rw [hff] at hfs ⊢; split_ifs at hfs ⊢ <;> omega
      rw [hf] at hlt ⊢
      exact hw.freeSlots.firstFree_empty hlt
  rcases hcase with ⟨-, rfl⟩ | ⟨hlast, rfl⟩
  · -- the last slot: trim the directory
    obtain ⟨t1, t2, t3, t4⟩ := trimSlots_spec L e.slots p.slotCount e.freeSpace
    generalize trimSlots L e.slots p.slotCount e.freeSpace = r at t1 t2 t3 t4 ⊢
    obtain ⟨m, f⟩ := r
    dsimp only at t1 t2 t3 t4
    have htrim := sizeBelow_trim t1 t3
    have hmul := Nat.mul_le_mul_right L.slotSize t1
    refine ⟨?_, ?_, fun s hs => hinE s (by dsimp only at hs; omega),
      fun s hs t ht => hdis s (by dsimp only at hs; omega) t (by dsimp only at ht; omega), ?_,
      ⟨?_, hbelow, fun hlt => hat (by dsimp only at hlt; omega), t4⟩⟩
    · show L.headerSize + m * L.slotSize ≤ e.dataStart; omega
    · show e.dataStart + sizeBelow e.slots m ≤ pageSize; omega
    · show f + L.headerSize + m * L.slotSize + sizeBelow e.slots m = pageSize; omega
    · show e.firstFreeSlot ≤ m
      by_contra hlt
      have := hbelow _ (not_le.mp hlt)
      rw [t3 _ le_rfl (by omega)] at this
      exact Bool.noConfusion this
  · -- another slot
    have huE : used p' = sizeBelow p'.slots p.slotCount := congrArg (sizeBelow p'.slots) hc
    refine ⟨by rw [hc]; omega, by rw [huE]; omega, hc ▸ hinE, hc ▸ hdis, by rw [hc, hfree, huE]; omega,
      ⟨hc ▸ hffle, hbelow, hc ▸ hat, fun n hn => ?_⟩⟩
    rw [hslots, Function.update_noteq (by omega)]
    exact hw.freeSlots.last_used n (hc ▸ hn)

/-- Turning a record's slot into a redirect keeps the page well formed. -/
theorem setRedirect_wf {pageSize sid : Nat} {p : SlottedPage} (hw : Wf L pageSize p)
    (hsid : sid < p.slotCount) (he : (p.slots sid).isEmpty = false) (tid : Tid) :
    Wf L pageSize (setRedirect p sid tid) := by
  have hused : used (setRedirect p sid tid) + (p.slots sid).getSize = used p :=
    sizeBelow_update p.slots hsid (.redirect tid)
  obtain ⟨hin, hdis⟩ := hw.shrink (i := sid) (v := .redirect tid) fun _ hb => absurd hb id
  have := hw.freeSpace_eq
  have := hw.dataStart_add_used
  refine ⟨hw.directory_le, by show p.dataStart + _ ≤ pageSize; omega, hin, hdis,
    by show p.freeSpace + (p.slots sid).getSize + L.headerSize + p.slotCount * L.slotSize +
      used (setRedirect p sid tid) = pageSize; omega, hw.freeSlots.congr rfl rfl fun s _ => ?_⟩
  · show (Function.update p.slots sid _ s).isEmpty = _
    by_cases hs : s = sid
    · rw [hs, Function.update_same, he]; rfl
    · rw [Function.update_noteq hs]

/-- The pages a run of the page operations reaches from a new page: `allocate`, `relocate`
and `erase` of `slotted_page.cc`, and the redirect `SPSegment::resize` leaves in a record's
slot. -/
inductive Reachable (pageSize : Nat) : SlottedPage → Prop
  | new : L.headerSize ≤ pageSize → Reachable pageSize (new L pageSize)
  | allocate {p p' : SlottedPage} {dataSize sid : Nat} {isRedirectTarget : Bool} {tmp : SlottedPage} :
      Reachable pageSize p → allocate L p dataSize pageSize isRedirectTarget tmp = .ok (p', sid) →
      Reachable pageSize p'
  | relocate {p p' : SlottedPage} {slotId dataSize : Nat} {tmp : SlottedPage} :
      Reachable pageSize p → relocate L p slotId dataSize pageSize tmp = .ok p' → Reachable pageSize p'
  | erase {p p' : SlottedPage} {slotId : Nat} :
      Reachable pageSize p → erase L p slotId = .ok p' → Reachable pageSize p'
  | setRedirect {p : SlottedPage} {slotId : Nat} (tid : Tid) :
      Reachable pageSize p → slotId < p.slotCount → (p.slots slotId).isEmpty = false →
      Reachable pageSize (setRedirect p slotId tid)

/-- A kilobyte page with a 12-byte header and 8-byte slots: records of 24, 100 and 20 bytes
allocated, then the middle one erased, which leaves a 100-byte hole between the two others. -/
def holeRun : Except String SlottedPage := do
  let (p, _) ← allocate ⟨12, 8⟩ (new ⟨12, 8⟩ 1024) 24 1024 false (new ⟨12, 8⟩ 1024)
  let (p, _) ← allocate ⟨12, 8⟩ p 100 1024 false (new ⟨12, 8⟩ 1024)
  let (p, _) ← allocate ⟨12, 8⟩ p 20 1024 false (new ⟨12, 8⟩ 1024)
  erase ⟨12, 8⟩ p 1

/-- The page `holeRun` ends with. -/
def holePage : SlottedPage :=
  match holeRun with
  | .ok p => p
  | .error _ => new ⟨12, 8⟩ 1024

theorem reachable_holePage : Reachable ⟨12, 8⟩ 1024 holePage :=
  have h1 : Reachable ⟨12, 8⟩ 1024 (new ⟨12, 8⟩ 1024) := .new (by decide)
  have h2 := @Reachable.allocate ⟨12, 8⟩ 1024 _ _ 24 _ false (new ⟨12, 8⟩ 1024) h1 rfl
  have h3 := @Reachable.allocate ⟨12, 8⟩ 1024 _ _ 100 _ false (new ⟨12, 8⟩ 1024) h2 rfl
  have h4 := @Reachable.allocate ⟨12, 8⟩ 1024 _ _ 20 _ false (new ⟨12, 8⟩ 1024) h3 rfl
  @Reachable.erase ⟨12, 8⟩ 1024 _ holePage 1 h4 rfl

/-- `holePage` is well formed, step by step. -/
theorem holePage_wf : Wf ⟨12, 8⟩ 1024 holePage :=
  have h1 : Wf ⟨12, 8⟩ 1024 (new ⟨12, 8⟩ 1024) := wf_new _ (by decide)
  have h2 := (@allocate_wf ⟨12, 8⟩ 1024 24 false (new ⟨12, 8⟩ 1024) _ _ _ h1 rfl).1
  have h3 := (@allocate_wf ⟨12, 8⟩ 1024 100 false (new ⟨12, 8⟩ 1024) _ _ _ h2 rfl).1
  have h4 := (@allocate_wf ⟨12, 8⟩ 1024 20 false (new ⟨12, 8⟩ 1024) _ _ _ h3 rfl).1
  @erase_wf ⟨12, 8⟩ 1024 1 _ holePage h4 rfl

/-- Every page a run reaches is well formed. -/
theorem wf_of_reachable {pageSize : Nat} {p : SlottedPage} (h : Reachable L pageSize p) :
    Wf L pageSize p := by
  induction h with
  | new h => exact wf_new L h
  | allocate _ h ih => exact (allocate_wf L ih h).1
  | relocate _ h ih => exact relocate_wf L ih h
  | erase _ h ih => exact erase_wf L ih h
  | setRedirect tid _ hs he ih => exact setRedirect_wf L ih hs he tid

/-- `holePage` is reached, and so well formed. -/
theorem wf_of_reachable_holePage : Reachable ⟨12, 8⟩ 1024 holePage ∧ Wf ⟨12, 8⟩ 1024 holePage :=
  ⟨reachable_holePage, wf_of_reachable _ reachable_holePage⟩

end SlottedPage

end SimpleDb
