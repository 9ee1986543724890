import SimpleDb.Segment.SlottedPage

/-!
What a slotted page holds, as its readers see it: for each slot id, nothing, a record's bytes,
or a redirect (`SlottedPage.view`). Where the bytes lie, `data_start` and the header's counts
are the page's own business; on the view, the operations of `slotted_page.cc` act as on a map
from slot ids.

# Results

- `compactify_view`: `compactify` moves every record's bytes and changes no entry.
- `allocate_view`: `allocate` fills the least free slot id with a record of the asked size and
  leaves every other entry.
- `relocate_view`: `relocate` resizes one record, keeping the bytes the old and the new size
  share, and leaves every other entry.
- `erase_view`: `erase` removes one entry.
- `header_eq_of_view`: on well-formed pages the view fixes `slot_count`, `first_free_slot` and
  `free_space`, whatever run led there (`data_start` it does not: `erase` of a record that is
  not the lowest leaves a hole below `data_start` that only `compactify` closes).
-/

namespace SimpleDb

/-- What a slot holds, as a reader of the page sees it: a record's bytes (and whether it is a
redirect target), or a redirect. -/
inductive Entry
  | record (bytes : List UInt8) (redirectTarget : Bool)
  | redirect (tid : Tid)
  deriving DecidableEq, Repr

/-- The bytes an entry takes in the data area: a record's length, none for a redirect or a
cleared slot. -/
def Entry.dataSize : Option Entry → Nat
  | some (.record bytes _) => bytes.length
  | _ => 0

/-- The `n` bytes from offset `o`. -/
def bytesAt (data : Nat → UInt8) (o n : Nat) : List UInt8 := (List.range n).map fun i => data (o + i)

@[simp] theorem length_bytesAt (data : Nat → UInt8) (o n : Nat) : (bytesAt data o n).length = n := by
  simp [bytesAt]

theorem bytesAt_congr {d d' : Nat → UInt8} {o o' n : Nat} (h : ∀ i < n, d' (o' + i) = d (o + i)) :
    bytesAt d' o' n = bytesAt d o n :=
  List.map_congr_left fun i hi => h i (List.mem_range.mp hi)

theorem take_bytesAt (data : Nat → UInt8) (o n m : Nat) :
    (bytesAt data o n).take m = bytesAt data o (min m n) := by
  rw [bytesAt, ← List.map_take, List.take_range]; rfl

namespace Slot

/-- What the slot holds in a page whose bytes are `data`. -/
def read (data : Nat → UInt8) : Slot → Option Entry
  | empty => none
  | record o n r => some (.record (bytesAt data o n) r)
  | redirect t => some (.redirect t)

theorem read_eq_none {s : Slot} {data : Nat → UInt8} : s.read data = none ↔ s.isEmpty = true := by
  cases s <;> simp [read, isEmpty]

@[simp] theorem dataSize_read (s : Slot) (data : Nat → UInt8) :
    Entry.dataSize (s.read data) = s.getSize := by
  cases s <;> simp [read, Entry.dataSize, getSize]

/-- A slot reads the same from two pages that agree on its bytes. -/
theorem read_congr {s : Slot} {d d' : Nat → UInt8} (h : ∀ b, s.Covers b → d' b = d b) :
    s.read d' = s.read d := by
  cases s with
  | record o n r =>
    simp only [read]
    rw [bytesAt_congr fun i hi => h (o + i) ⟨by omega, by omega⟩]
  | empty => rfl
  | redirect _ => rfl

end Slot

namespace SlottedPage

variable (L : Layout)

/-- What the page holds at slot id `s`: what its slot reads, inside the directory. -/
def view (p : SlottedPage) (s : Nat) : Option Entry :=
  if s < p.slotCount then (p.slots s).read p.data else none

theorem view_of_lt {p : SlottedPage} {s : Nat} (hs : s < p.slotCount) :
    view p s = (p.slots s).read p.data :=
  if_pos hs

theorem view_of_le {p : SlottedPage} {s : Nat} (hs : p.slotCount ≤ s) : view p s = none :=
  if_neg (by omega)

/-- The bytes the records hold, read off the view. -/
theorem used_eq_view (p : SlottedPage) :
    used p = ∑ s ∈ Finset.range p.slotCount, Entry.dataSize (view p s) := by
  unfold used sizeBelow
  exact Finset.sum_congr rfl fun s hs => by rw [view_of_lt (Finset.mem_range.mp hs), Slot.dataSize_read]

namespace FreeSlots

variable {p : SlottedPage}

/-- `first_free_slot` is a free slot id. -/
theorem view_firstFree (hf : FreeSlots p) : view p p.firstFreeSlot = none := by
  rcases Nat.lt_or_ge p.firstFreeSlot p.slotCount with hlt | hge
  · rw [view_of_lt hlt, Slot.read_eq_none]; exact hf.firstFree_empty hlt
  · exact view_of_le hge

/-- Every slot id below `first_free_slot` holds an entry. -/
theorem view_below (hf : FreeSlots p) {s : Nat} (hs : s < p.firstFreeSlot) : view p s ≠ none := by
  rw [view_of_lt (by have := hf.firstFree_le; omega), Ne, Slot.read_eq_none,
    hf.below_firstFree s hs]
  exact Bool.false_ne_true

/-- The last slot id of the directory holds an entry. -/
theorem view_last (hf : FreeSlots p) {n : Nat} (hn : p.slotCount = n + 1) : view p n ≠ none := by
  rw [view_of_lt (by omega), Ne, Slot.read_eq_none, hf.last_used n hn]
  exact Bool.false_ne_true

end FreeSlots

-- ============================================================ compactify

section compactify

variable {p : SlottedPage} {pageSize : Nat} (tmp : SlottedPage)

/-- `compactify` keeps what a slot reads when its record lies before the page end. -/
theorem compactify_read (hu : used p ≤ pageSize) {s : Nat} (hs : s < p.slotCount)
    (hin : ∀ b, (p.slots s).Covers b → b < pageSize) :
    ((compactify L p pageSize tmp).slots s).read (compactify L p pageSize tmp).data =
      (p.slots s).read p.data := by
  rw [compactify_slots L p pageSize tmp hs]
  cases h : p.slots s with
  | record o n r =>
    have hend : ∀ i < n, i < min (pageSize - o) n := fun i hi => by
      have := hin (o + i) (by rw [h]; exact ⟨by omega, by omega⟩); omega
    simp only [Slot.moveTo, Slot.read]
    rw [bytesAt_congr fun i hi => compactify_data L p pageSize tmp hu hs h (hend i hi)]
  | empty => rfl
  | redirect _ => rfl

/-- `compactify` moves the records' bytes and changes no entry of a well-formed page. -/
theorem compactify_view (hw : Wf L pageSize p) : view (compactify L p pageSize tmp) = view p := by
  funext s
  unfold view
  rw [compactify_slotCount]
  split_ifs with hs
  · have := hw.dataStart_add_used
    exact compactify_read L tmp (by omega) hs fun b hb => (hw.inside s hs b hb).2
  · rfl

/-- `compactify` of a well-formed page does what it is for and nothing else: the page stays
well formed, every entry and the free space stay, and all the free space lies in one gap
between the directory and the records. -/
theorem compactify_spec (hw : Wf L pageSize p) :
    Wf L pageSize (compactify L p pageSize tmp) ∧ view (compactify L p pageSize tmp) = view p ∧
      (compactify L p pageSize tmp).freeSpace = p.freeSpace ∧
      fragmentedFreeSpace L (compactify L p pageSize tmp) = p.freeSpace := by
  have hfree := hw.freeSpace_eq
  refine ⟨compactify_wf L tmp (by omega) hw.freeSlots, compactify_view L tmp hw, ?_, ?_⟩
  · rw [compactify_freeSpace]; omega
  · rw [fragmentedFreeSpace, compactify_dataStart, compactify_slotCount]; omega

/-- `holePage`, compacted: its 100-byte hole joins the gap below the directory. -/
theorem compactify_spec_holePage :
    Wf ⟨12, 8⟩ 1024 holePage ∧ fragmentedFreeSpace ⟨12, 8⟩ holePage < holePage.freeSpace ∧
      Wf ⟨12, 8⟩ 1024 (compactify ⟨12, 8⟩ holePage 1024 (new ⟨12, 8⟩ 1024)) ∧
      view (compactify ⟨12, 8⟩ holePage 1024 (new ⟨12, 8⟩ 1024)) = view holePage ∧
      (compactify ⟨12, 8⟩ holePage 1024 (new ⟨12, 8⟩ 1024)).freeSpace = holePage.freeSpace ∧
      fragmentedFreeSpace ⟨12, 8⟩ (compactify ⟨12, 8⟩ holePage 1024 (new ⟨12, 8⟩ 1024)) =
        holePage.freeSpace :=
  ⟨holePage_wf, by decide, compactify_spec _ _ holePage_wf⟩

end compactify

-- ============================================================ allocate

/-- `placeRecord` fills `first_free_slot` with the record below `data_start`. -/
theorem placeRecord_view {q : SlottedPage} (hf : FreeSlots q) (dataSize : Nat) (r : Bool) :
    view (placeRecord L q dataSize r).1 = Function.update (view q) q.firstFreeSlot
      (some (.record (bytesAt q.data (q.dataStart - dataSize) dataSize) r)) := by
  have hle := hf.firstFree_le
  rw [placeRecord_fst L dataSize r hle]
  funext s
  unfold view
  dsimp only
  by_cases hs : s = q.firstFreeSlot
  · rw [hs, Function.update_same, if_pos (by split_ifs <;> omega), Function.update_same]; rfl
  · rw [Function.update_noteq hs, Function.update_noteq hs]
    by_cases hlt : s < q.slotCount
    · rw [if_pos (by split_ifs <;> omega), if_pos hlt]
    · rw [if_neg (by split_ifs <;> omega), if_neg hlt]

/-- `allocate` on a well-formed page takes the least free slot id and fills it with a record
of the asked size (whose bytes are whatever the page held there), leaving every other entry. -/
theorem allocate_view {pageSize dataSize : Nat} {r : Bool} {tmp p p' : SlottedPage} {sid : Nat}
    (hw : Wf L pageSize p) (h : allocate L p dataSize pageSize r tmp = .ok (p', sid)) :
    view p sid = none ∧ (∀ s < sid, view p s ≠ none) ∧
      ∃ bytes : List UInt8, bytes.length = dataSize ∧
        view p' = Function.update (view p) sid (some (.record bytes r)) := by
  obtain ⟨q, hwq, hqp, -, hf, -, rfl, rfl⟩ := allocate_cases L hw h
  have hvq : view q = view p := by
    rcases hqp with rfl | rfl
    · rfl
    · exact compactify_view L tmp hw
  refine ⟨hw.freeSlots.view_firstFree, fun s hs => hw.freeSlots.view_below hs,
    bytesAt q.data (q.dataStart - dataSize) dataSize, length_bytesAt .., ?_⟩
  rw [placeRecord_view L hwq.freeSlots, hvq, hf]

-- ============================================================ relocate

/-- `relocate` on a well-formed page resizes one record: the new bytes have the asked length
and begin with the old ones, as many as both sizes hold, and every other entry stays. -/
theorem relocate_view {pageSize sid dataSize : Nat} {tmp p p' : SlottedPage} (hw : Wf L pageSize p)
    (h : relocate L p sid dataSize pageSize tmp = .ok p') :
    ∃ bytes bytes' rt, view p sid = some (.record bytes rt) ∧ bytes'.length = dataSize ∧
      bytes'.take bytes.length = bytes.take dataSize ∧
      view p' = Function.update (view p) sid (some (.record bytes' rt)) := by
  obtain ⟨hsid, o, n, rt, hrec, hroom, hcase⟩ := relocate_cases L h
  have hv : view p sid = some (.record (bytesAt p.data o n) rt) := by rw [view_of_lt hsid, hrec]; rfl
  have hend : ∀ i < n, o + i < pageSize := fun i hi =>
    (hw.inside sid hsid (o + i) (by rw [hrec]; exact ⟨by omega, by omega⟩)).2
  -- a page with the same count, the slot replaced and the other slots reading the same
  have hupd : ∀ (q : SlottedPage) (e : Entry), q.slotCount = p.slotCount →
      (∀ s < p.slotCount, s ≠ sid → (q.slots s).read q.data = (p.slots s).read p.data) →
      (q.slots sid).read q.data = some e → view q = Function.update (view p) sid (some e) :=
    fun q e hc hq he => by
      funext s
      by_cases hs : s = sid
      · rw [hs, Function.update_same, view_of_lt (hc ▸ hsid), he]
      · rw [Function.update_noteq hs]
        unfold view; rw [hc]; split_ifs with hlt
        · exact hq s hlt hs
        · rfl
  rcases hcase with ⟨hle, rfl⟩ | ⟨hgt, hfrag, rfl⟩ | ⟨hgt, hfrag, rfl⟩
  · -- shrink in place: the first `data_size` bytes stay
    refine ⟨_, bytesAt p.data o dataSize, rt, hv, length_bytesAt .., ?_,
      hupd _ _ rfl (fun s _ hs => by dsimp only; rw [Function.update_noteq hs])
        (by dsimp only; rw [Function.update_same]; rfl)⟩
    rw [take_bytesAt, take_bytesAt, length_bytesAt, Nat.min_eq_right hle, Nat.min_eq_left hle]
  · -- move below `data_start`: the copy lands in the gap, below every record
    unfold fragmentedFreeSpace at hfrag
    have hds := hw.directory_le
    refine ⟨_, bytesAt (memcpy p.data (p.dataStart - dataSize) p.data o n) (p.dataStart - dataSize)
      dataSize, rt, hv, length_bytesAt .., ?_,
      hupd _ _ rfl (fun s hs hsi => ?_) (by dsimp only; rw [Function.update_same]; rfl)⟩
    · rw [take_bytesAt, take_bytesAt, length_bytesAt, Nat.min_eq_left hgt.le,
        Nat.min_eq_right hgt.le]
      exact bytesAt_congr fun i hi => by
        rw [memcpy, if_pos (by omega)]; congr 1; omega
    · dsimp only
      rw [Function.update_noteq hsi]
      exact Slot.read_congr fun b hb => by
        have := (hw.inside s hs b hb).1
        rw [memcpy, if_neg (by omega)]
  · -- grow in place and compactify: the old bytes are copied with the slot
    set q : SlottedPage := { p with slots := Function.update p.slots sid (.record o dataSize rt) }
    have hu : used q ≤ pageSize := by
      have := sizeBelow_update p.slots hsid (.record o dataSize rt)
      rw [hrec] at this
      have := hw.freeSpace_eq
      show sizeBelow _ p.slotCount ≤ pageSize
      simp only [Slot.getSize] at *; unfold used at *; omega
    have hqs : q.slots sid = .record o dataSize rt := Function.update_same _ _ _
    have hqo : ∀ s, s ≠ sid → q.slots s = p.slots s := fun s hs => Function.update_noteq hs _ _
    set x := pageSize - sizeBelow q.slots (sid + 1)
    have hslot : (compactify L q pageSize tmp).slots sid = .record x dataSize rt := by
      rw [compactify_slots L q pageSize tmp hsid, hqs]; rfl
    refine ⟨_, bytesAt (compactify L q pageSize tmp).data x dataSize, rt, hv, length_bytesAt .., ?_,
      hupd _ _ rfl (fun s hs hsi => ?_) (by rw [hslot]; rfl)⟩
    · rw [take_bytesAt, take_bytesAt, length_bytesAt, Nat.min_eq_left hgt.le,
        Nat.min_eq_right hgt.le]
      exact bytesAt_congr fun i hi =>
        compactify_data L q pageSize tmp hu hsid hqs (by have := hend i hi; omega)
    · rw [compactify_read L tmp hu hs fun b hb => (hw.inside s hs b (hqo s hsi ▸ hb)).2, hqo s hsi]

-- ============================================================ erase and the redirect

/-- Dropping cleared slots off the end of the directory changes no entry. -/
theorem view_trim {q : SlottedPage} {m f : Nat} (hm : m ≤ q.slotCount)
    (he : ∀ j, m ≤ j → j < q.slotCount → (q.slots j).isEmpty = true) :
    view { q with slotCount := m, freeSpace := f } = view q := by
  funext s
  unfold view
  dsimp only
  by_cases hs : s < m
  · rw [if_pos hs, if_pos (by omega)]
  · rw [if_neg hs]
    split_ifs with hlt
    · exact (Slot.read_eq_none.mpr (he s (by omega) hlt)).symm
    · rfl

/-- `erase` removes the slot's entry and no other. -/
theorem erase_view {sid : Nat} {p p' : SlottedPage} (h : erase L p sid = .ok p') :
    view p' = Function.update (view p) sid none := by
  obtain ⟨hsid, e, hc, -, -, -, hslots, hdata, hcase⟩ := erase_cases L h
  have hve : view e = Function.update (view p) sid none := by
    funext s
    unfold view
    rw [hc, hdata, hslots]
    by_cases hs : s = sid
    · rw [hs, Function.update_same, Function.update_same, if_pos hsid]; rfl
    · rw [Function.update_noteq hs, Function.update_noteq hs]
  rcases hcase with ⟨-, rfl⟩ | ⟨-, rfl⟩
  · obtain ⟨t1, -, t3, -⟩ := trimSlots_spec L e.slots p.slotCount e.freeSpace
    rw [view_trim (hc ▸ t1) (hc ▸ t3), hve]
  · exact hve

/-- The redirect `SPSegment::resize` leaves replaces the slot's entry and no other. -/
theorem setRedirect_view {sid : Nat} {p : SlottedPage} (hsid : sid < p.slotCount) (tid : Tid) :
    view (setRedirect p sid tid) = Function.update (view p) sid (some (.redirect tid)) := by
  funext s
  unfold view setRedirect
  dsimp only
  by_cases hs : s = sid
  · rw [hs, Function.update_same, Function.update_same, if_pos hsid]; rfl
  · rw [Function.update_noteq hs, Function.update_noteq hs]

-- ============================================================ the header from the view

section header

variable {pageSize : Nat} {p q : SlottedPage}

theorem FreeSlots.slotCount_le_of_view (hq : FreeSlots q) (h : view p = view q) :
    q.slotCount ≤ p.slotCount := by
  by_contra hlt
  obtain ⟨n, hn⟩ : ∃ n, q.slotCount = n + 1 := ⟨q.slotCount - 1, by omega⟩
  exact hq.view_last hn (by rw [← h, view_of_le (by omega)])

theorem FreeSlots.firstFree_le_of_view (hp : FreeSlots p) (hq : FreeSlots q) (h : view p = view q) :
    q.firstFreeSlot ≤ p.firstFreeSlot := by
  by_contra hlt
  exact hq.view_below (not_le.mp hlt) (by rw [← h, hp.view_firstFree])

/-- Two well-formed pages with the same entries have the same `slot_count`, `first_free_slot`
and `free_space`: the header is a function of what the page holds, not of the run that built
it. -/
theorem header_eq_of_view (hp : Wf L pageSize p) (hq : Wf L pageSize q) (h : view p = view q) :
    p.slotCount = q.slotCount ∧ p.firstFreeSlot = q.firstFreeSlot ∧ p.freeSpace = q.freeSpace := by
  have hc : p.slotCount = q.slotCount :=
    le_antisymm (hp.freeSlots.slotCount_le_of_view h.symm) (hq.freeSlots.slotCount_le_of_view h)
  have hused : used p = used q := by rw [used_eq_view, used_eq_view, hc, h]
  have := hp.freeSpace_eq
  have := hq.freeSpace_eq
  refine ⟨hc, le_antisymm (hq.freeSlots.firstFree_le_of_view hp.freeSlots h.symm)
    (hp.freeSlots.firstFree_le_of_view hq.freeSlots h), ?_⟩
  rw [hc] at *; omega

end header

end SlottedPage

end SimpleDb
