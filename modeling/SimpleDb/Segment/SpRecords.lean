import SimpleDb.Segment.SpAllocate

/-!
The records of the segment as its users see them: the bytes stored under each `TID` that
`allocate` handed out, found through a redirect where the record has moved (`records`).
Redirect targets are no records of their own.

# The redirects

`Redirects`: every redirect points to a redirect target on another page, and no two
redirects point to the same target. Over it and the segment's invariant, the methods act on
`records` as on a map from `TID`s.

# The methods

`SpStore` assembles these into the refinement of a map store.

- `read_spec`: `read` returns the record's first bytes, as many as the buffer holds, and
  leaves the segment as it found it.
- `write_spec`: `write` overwrites the record's first bytes (`overwrite`) and no other
  record, and keeps the invariant and the redirects; a `read` after it returns the bytes
  written, by `read_spec`.
- `erase_spec`: `erase` removes the record, and its redirect target with it, and no other
  record.
-/

namespace SimpleDb

/-- What `write` makes of a record's bytes: the new bytes from the start, as many as the
record holds, then the old ones. -/
def overwrite (old new : List UInt8) : List UInt8 := new.take old.length ++ old.drop new.length

@[simp] theorem length_overwrite (old new : List UInt8) : (overwrite old new).length = old.length := by
  simp only [overwrite, List.length_append, List.length_take, List.length_drop]; omega

/-- Overwriting with fewer bytes than the record holds leaves them at its start. -/
theorem take_overwrite {old new : List UInt8} (h : new.length ≤ old.length) :
    (overwrite old new).take new.length = new := by
  simp [overwrite, List.take_append_eq_append_take, h]

/-- Copying the first bytes of `record` over a record's bytes, as `write` does. -/
theorem bytesAt_memcpy (d : Nat → UInt8) (o n : Nat) (record : List UInt8) :
    let bytes := record.take (min record.length n)
    bytesAt (memcpy d o (fun i => bytes.getD i 0) 0 bytes.length) o n =
      overwrite (bytesAt d o n) record := by
  have hlen : (record.take (min record.length n)).length = min record.length n := by simp
  simp only [hlen]
  apply List.ext_getElem (by simp [overwrite]; omega)
  intro i h1 h2
  simp only [length_bytesAt] at h1
  simp only [bytesAt, List.getElem_map, List.getElem_range, memcpy, overwrite]
  by_cases hi : i < min record.length n
  · rw [if_pos (by omega), List.getElem_append_left (by simp; omega)]
    simp [List.getD_eq_getElem?_getD, List.getElem?_take, hi]
  · rw [if_neg (by omega), List.getElem_append_right (by simp; omega)]
    simp only [List.getElem_drop, List.length_take, List.length_map, List.length_range,
      List.getElem_map, List.getElem_range]
    congr 1
    omega

namespace SlottedPage

/-- The layout does not read the bytes. -/
theorem Wf.withData {L : Layout} {pageSize : Nat} {p : SlottedPage} (hw : Wf L pageSize p)
    (d : Nat → UInt8) : Wf L pageSize { p with data := d } :=
  ⟨hw.directory_le, hw.dataStart_add_used, hw.inside, hw.disjoint, hw.freeSpace_eq,
    ⟨hw.freeSlots.firstFree_le, hw.freeSlots.below_firstFree, hw.freeSlots.firstFree_empty,
      hw.freeSlots.last_used⟩⟩

/-- Overwriting the first bytes of one record of a well-formed page changes that record's
entry and no other. -/
theorem view_memcpy {L : Layout} {pageSize : Nat} {p : SlottedPage} (hw : Wf L pageSize p)
    {sid o n : Nat} {rt : Bool} (hs : sid < p.slotCount) (hrec : p.slots sid = .record o n rt)
    (record : List UInt8) :
    let bytes := record.take (min record.length n)
    view { p with data := memcpy p.data o (fun i => bytes.getD i 0) 0 bytes.length } =
      Function.update (view p) sid (some (.record (overwrite (bytesAt p.data o n) record) rt)) := by
  intro bytes
  have hlen : bytes.length ≤ n := by simp [bytes]
  funext s
  unfold view
  dsimp only
  by_cases hss : s = sid
  · rw [hss, if_pos hs, hrec, Function.update_same]
    simp only [Slot.read]
    rw [bytesAt_memcpy]
  · rw [Function.update_noteq hss]
    split_ifs with hlt
    · exact Slot.read_congr fun b hb => by
        rw [memcpy, if_neg fun hin => hw.disjoint s hlt sid hs hss b hb
          (by rw [hrec]; exact ⟨hin.1, by omega⟩)]
    · rfl

/-- `erase` of a slot of the directory succeeds. -/
theorem erase_ok {L : Layout} {p : SlottedPage} {sid : Nat} (hsid : sid < p.slotCount) :
    ∃ p', erase L p sid = .ok p' := by
  obtain ⟨e, -, -, -, -, -, -, heq⟩ := erase_eq L hsid
  rw [heq]
  split_ifs
  exacts [⟨_, rfl⟩, ⟨_, rfl⟩]

end SlottedPage

namespace SpSegment

variable (c : SpConfig)

/-- The records of the segment: a record's bytes, through its redirect when it has moved. -/
def records (s : SpSegment) (tid : Tid) : Option (List UInt8) :=
  match entries s tid with
  | some (.record bytes false) => some bytes
  | some (.redirect r) =>
    match entries s r with
    | some (.record bytes true) => some bytes
    | _ => none
  | _ => none

/-- Every redirect points to a redirect target on another page, no two to the same. -/
structure Redirects (s : SpSegment) : Prop where
  target : ∀ tid r, entries s tid = some (.redirect r) →
    r.pageId ≠ tid.pageId ∧ ∃ bytes, entries s r = some (.record bytes true)
  unique : ∀ tid tid' r, entries s tid = some (.redirect r) → entries s tid' = some (.redirect r) →
    tid = tid'

-- ============================================================ entries read off the pages

section entries

variable {s : SpSegment} {tid : Tid}

theorem entries_record {bytes : List UInt8} {rt : Bool} (h : entries s tid = some (.record bytes rt)) :
    tid.pageId < s.fsi.allocatedPages ∧ tid.slot < (s.pages tid.pageId).slotCount ∧
      ∃ o, (s.pages tid.pageId).slots tid.slot = .record o bytes.length rt ∧
        bytes = bytesAt (s.pages tid.pageId).data o bytes.length := by
  unfold entries SlottedPage.view at h
  split_ifs at h with h1 h2
  refine ⟨h1, h2, ?_⟩
  cases hs : (s.pages tid.pageId).slots tid.slot with
  | record o n r =>
    rw [hs] at h
    simp only [Slot.read, Option.some.injEq, Entry.record.injEq] at h
    obtain ⟨rfl, rfl⟩ := h
    exact ⟨o, by rw [length_bytesAt], by rw [length_bytesAt]⟩
  | empty => rw [hs] at h; cases h
  | redirect _ => rw [hs] at h; cases h

theorem entries_redirect {r : Tid} (h : entries s tid = some (.redirect r)) :
    tid.pageId < s.fsi.allocatedPages ∧ tid.slot < (s.pages tid.pageId).slotCount ∧
      (s.pages tid.pageId).slots tid.slot = .redirect r := by
  unfold entries SlottedPage.view at h
  split_ifs at h with h1 h2
  refine ⟨h1, h2, ?_⟩
  cases hs : (s.pages tid.pageId).slots tid.slot with
  | redirect r' =>
    rw [hs] at h
    simp only [Slot.read, Option.some.injEq, Entry.redirect.injEq] at h
    rw [h]
  | empty => rw [hs] at h; cases h
  | record _ _ _ => rw [hs] at h; cases h

end entries

-- ============================================================ a page put back

section setPage

variable {c} {s : SpSegment} {idx : Nat} {p : SlottedPage}

/-- A page put back well formed and with its free space, as after a `write`, keeps the
segment consistent. -/
theorem Consistent.setPage_same (hc : Consistent c s) (hw : SlottedPage.Wf c.layout c.fsi.pageSize p)
    (hf : p.freeSpace = (s.pages idx).freeSpace) :
    Consistent c { s with pages := Function.update s.pages idx p } where
  wf t ht := by
    dsimp only at ht ⊢
    by_cases hti : t = idx
    · rw [hti, Function.update_same]; exact hw
    · rw [Function.update_noteq hti]; exact hc.wf t ht
  synced t ht := by
    dsimp only at ht ⊢
    by_cases hti : t = idx
    · rw [hti, Function.update_same, hf]; exact hc.synced idx (hti ▸ ht)
    · rw [Function.update_noteq hti]; exact hc.synced t ht
  cacheLeast := hc.cacheLeast
  bounded := hc.bounded

theorem Inv.setPage (he : Encoding c) (hi : Inv c s) (hidx : idx < s.fsi.allocatedPages)
    (hw : SlottedPage.Wf c.layout c.fsi.pageSize p) :
    Inv c { s with
      pages := Function.update s.pages idx p
      fsi := s.fsi.update c.fsi (pageId c idx) p.freeSpace } :=
  ⟨hi.toConsistent.setPage he hidx hw, hi.unlatched⟩

end setPage

/-- A record's bytes stand in its own slot, or in the redirect target its slot points to. -/
theorem records_eq_some {s : SpSegment} {tid : Tid} {bytes : List UInt8} :
    records s tid = some bytes ↔ entries s tid = some (.record bytes false) ∨
      ∃ r, entries s tid = some (.redirect r) ∧ entries s r = some (.record bytes true) := by
  unfold records
  rcases entries s tid with _ | ⟨b, _ | _⟩ | r <;> simp only [reduceCtorEq, false_or, or_false,
    Option.some.injEq, Entry.record.injEq, exists_false, and_true, and_false, false_and,
    Entry.redirect.injEq, exists_eq_left']
  rcases entries s r with _ | ⟨b, _ | _⟩ | r' <;> simp

-- ============================================================ the records, entry by entry

section records

variable {s s' : SpSegment} {w : Tid} {old new : List UInt8}

/-- A record put in its own slot, where a record stood or nothing did, changes the records
at its `TID` alone. -/
theorem records_set_record
    (hw : entries s w = none ∨ ∃ old, entries s w = some (.record old false))
    (h : entries s' = Function.update (entries s) w (some (.record new false))) :
    records s' = Function.update (records s) w (some new) := by
  funext t
  by_cases htw : t = w
  · rw [htw, Function.update_same]; simp only [records, h, Function.update_same]
  · rw [Function.update_noteq htw]
    unfold records
    rw [h, Function.update_noteq htw]
    rcases entries s t with _ | ⟨b, _ | _⟩ | r <;> try rfl
    dsimp only
    by_cases hrw : r = w
    · rcases hw with hw | ⟨old, hw⟩ <;> rw [hrw, Function.update_same, hw]
    · rw [Function.update_noteq hrw]

/-- A changed redirect target changes the records at the one `TID` redirected to it. -/
theorem records_update_target (hr : Redirects s) {tid : Tid}
    (ht : entries s tid = some (.redirect w)) (hw : entries s w = some (.record old true))
    (h : entries s' = Function.update (entries s) w (some (.record new true))) :
    records s' = Function.update (records s) tid (some new) := by
  have htw : tid ≠ w := fun e => by rw [e, hw] at ht; cases ht
  funext t
  unfold records
  rw [h]
  by_cases htt : t = tid
  · rw [htt, Function.update_same, Function.update_noteq htw, ht]
    dsimp only
    rw [Function.update_same]
  · rw [Function.update_noteq htt]
    by_cases htw' : t = w
    · rw [htw', Function.update_same, hw]
    · rw [Function.update_noteq htw']
      rcases hc : entries s t with _ | ⟨b, _ | _⟩ | r <;> try rfl
      have hrw : r ≠ w := fun e => htt (hr.unique t tid w (e ▸ hc) ht)
      dsimp only
      rw [Function.update_noteq hrw]

/-- Redirects stay where the entries are unchanged or cleared, when no redirect left points
to a changed entry. -/
theorem Redirects.of_clear (hr : Redirects s)
    (hsub : ∀ t, entries s' t = entries s t ∨ entries s' t = none)
    (hkeep : ∀ t r, entries s' t = some (.redirect r) → entries s' r = entries s r) :
    Redirects s' := by
  have hold : ∀ t r, entries s' t = some (.redirect r) → entries s t = some (.redirect r) :=
    fun t r ht => (hsub t).elim (· ▸ ht) fun h => by rw [h] at ht; cases ht
  exact ⟨fun t r ht => by rw [hkeep t r ht]; exact hr.target t r (hold t r ht),
    fun t t' r ht ht' => hr.unique t t' r (hold t r ht) (hold t' r ht')⟩

/-- A record put at a `TID` keeps the redirects, when it is a redirect target if a redirect
points there. -/
theorem Redirects.set_record (hr : Redirects s) {rt : Bool}
    (hw : ∀ t, entries s t = some (.redirect w) → rt = true)
    (h : entries s' = Function.update (entries s) w (some (.record new rt))) : Redirects s' := by
  have hold : ∀ t r, entries s' t = some (.redirect r) → entries s t = some (.redirect r) :=
    fun t r ht => by
      rw [h] at ht
      by_cases htw : t = w
      · rw [htw, Function.update_same] at ht; cases ht
      · rwa [Function.update_noteq htw] at ht
  refine ⟨fun t r ht => ?_, fun t t' r ht ht' => hr.unique t t' r (hold t r ht) (hold t' r ht')⟩
  obtain ⟨hne, b, hb⟩ := hr.target t r (hold t r ht)
  refine ⟨hne, ?_⟩
  rw [h]
  by_cases hrw : r = w
  · exact ⟨new, by rw [hrw, Function.update_same, hw t (hrw ▸ hold t r ht)]⟩
  · exact ⟨b, by rw [Function.update_noteq hrw, hb]⟩

/-- A record's bytes overwritten keep the redirects. -/
theorem Redirects.update_record (hr : Redirects s) {rt : Bool}
    (hw : entries s w = some (.record old rt))
    (h : entries s' = Function.update (entries s) w (some (.record new rt))) : Redirects s' :=
  hr.set_record (fun t ht => by
    obtain ⟨-, b, hb⟩ := hr.target t w ht
    rw [hw] at hb
    cases hb
    rfl) h

/-- A record put where nothing stood keeps the redirects. -/
theorem Redirects.add_record (hr : Redirects s) {rt : Bool} (hw : entries s w = none)
    (h : entries s' = Function.update (entries s) w (some (.record new rt))) : Redirects s' :=
  hr.set_record (fun t ht => by
    obtain ⟨-, b, hb⟩ := hr.target t w ht
    rw [hw] at hb
    cases hb) h

end records

/-- The one redirect of the segment of three pages, from `⟨1, 0⟩` to `⟨2, 0⟩`. -/
theorem demo_redirect {t r : Tid} (h : entries demoSegment t = some (.redirect r)) :
    t = ⟨1, 0⟩ ∧ r = ⟨2, 0⟩ := by
  obtain ⟨hp, hs, hslot⟩ := entries_redirect h
  obtain ⟨pg, sl⟩ := t
  change pg < 3 at hp
  interval_cases pg
  · simp [demoSegment, demoPage0] at hslot; split_ifs at hslot
  · obtain rfl : sl = 0 := by simp [demoSegment, demoPage1] at hs; exact hs
    simp [demoSegment, demoPage1] at hslot; exact ⟨rfl, hslot.symm⟩
  · simp [demoSegment, demoPage2] at hslot; split_ifs at hslot

theorem demoSegment_redirects : Redirects demoSegment where
  target t r h := by
    obtain ⟨rfl, rfl⟩ := demo_redirect h
    exact ⟨by decide, _, rfl⟩
  unique t t' r h h' := by rw [(demo_redirect h).1, (demo_redirect h').1]

-- ============================================================ read and write

section readWrite

variable {c} {s : SpSegment} {tid : Tid}

theorem read_record (hi : Inv c s) {o n : Nat} (hs : tid.slot < (s.pages tid.pageId).slotCount)
    (hrec : (s.pages tid.pageId).slots tid.slot = .record o n false) (capacity : Nat) :
    read tid capacity s = .ok (bytesAt (s.pages tid.pageId).data o (min capacity n)) s := by
  rw [read, run_bind_ok (getSlot_ok (by rw [hi.unlatched]; rfl) hs), hrec]
  simp only [check, Slot.isRedirectTarget, Slot.isEmpty, Bool.not_false, Bool.false_eq_true,
    if_true, bind, EStateM.bind, pure, EStateM.pure, getPage, get, getThe, MonadStateOf.get,
    EStateM.get, Slot.getOffset, Slot.getSize, ↓reduceIte]
  rw [unfixPage_fixed (l := .shared 0) (hi.unlatched _) rfl]

theorem read_redirect (hi : Inv c s) {r : Tid} {o n : Nat}
    (hs : tid.slot < (s.pages tid.pageId).slotCount)
    (hslot : (s.pages tid.pageId).slots tid.slot = .redirect r)
    (hrs : r.slot < (s.pages r.pageId).slotCount)
    (hrec : (s.pages r.pageId).slots r.slot = .record o n true) (capacity : Nat) :
    read tid capacity s = .ok (bytesAt (s.pages r.pageId).data o (min capacity n)) s := by
  rw [read, run_bind_ok (getSlot_ok (by rw [hi.unlatched]; rfl) hs), hslot]
  simp only [check, Slot.isRedirectTarget, Slot.isEmpty, Bool.not_false, Bool.false_eq_true,
    if_true, bind, EStateM.bind, pure, EStateM.pure, ↓reduceIte]
  rw [unfixPage_fixed (l := .shared 0) (hi.unlatched _) rfl]
  dsimp only
  rw [getSlot_ok (l := .shared 0) (by rw [hi.unlatched]; rfl) hrs, hrec]
  simp only [check, Slot.isRedirectTarget, Slot.isEmpty, Bool.not_false, Bool.and_self, ↓reduceIte,
    bind, EStateM.bind, pure, EStateM.pure, getPage, get, getThe, MonadStateOf.get, EStateM.get,
    Slot.getOffset, Slot.getSize]
  rw [unfixPage_fixed (l := .shared 0) (hi.unlatched _) rfl]

/-- `read` returns the record's first bytes, as many as the buffer holds, and gives the
segment back as it found it: every latch it takes it releases. -/
theorem read_spec (hi : Inv c s) {bytes : List UInt8} (h : records s tid = some bytes)
    (capacity : Nat) : read tid capacity s = .ok (bytes.take capacity) s := by
  rcases records_eq_some.mp h with he | ⟨r, he, hre⟩
  · obtain ⟨-, hs, o, hrec, hb⟩ := entries_record he
    rw [read_record hi hs hrec, hb, take_bytesAt, length_bytesAt]
  · obtain ⟨-, hs, hslot⟩ := entries_redirect he
    obtain ⟨-, hrs, o, hrec, hb⟩ := entries_record hre
    rw [read_redirect hi hs hslot hrs hrec, hb, take_bytesAt, length_bytesAt]

/-- The end of a `write` on the record it writes: the record's first bytes overwritten, and
the latch given back. -/
theorem writeTail_ok {L : Layout} {pageSize : Nat} {w : Tid} {o n : Nat} {rt : Bool}
    (hl : s.latches w.pageId = .unlocked) (hw : SlottedPage.Wf L pageSize (s.pages w.pageId))
    (hp : w.pageId < s.fsi.allocatedPages) (hs : w.slot < (s.pages w.pageId).slotCount)
    (hrec : (s.pages w.pageId).slots w.slot = .record o n rt) (record : List UInt8) :
    ∃ d, (do
        writeBytes w.pageId o (record.take (min record.length n))
        unfixPage w.pageId
        return min record.length n : SpM Nat)
        { s with latches := Function.update s.latches w.pageId .exclusive } =
          .ok (min record.length n)
            { s with pages := Function.update s.pages w.pageId { s.pages w.pageId with data := d } } ∧
        entries { s with pages := Function.update s.pages w.pageId { s.pages w.pageId with data := d } } =
          Function.update (entries s) w
            (some (.record (overwrite (bytesAt (s.pages w.pageId).data o n) record) rt)) := by
  refine ⟨_, ?_, entries_setPage hp (SlottedPage.view_memcpy hw hs hrec record)⟩
  simp only [bind, EStateM.bind, pure, EStateM.pure, getPage, get, getThe, MonadStateOf.get,
    EStateM.get, writeBytes, setPage, unfixPage, modify, modifyGet, MonadStateOf.modifyGet,
    EStateM.modifyGet, latches_unfix (l := .exclusive) hl rfl]

theorem write_record {L : Layout} {pageSize : Nat} {o n : Nat} {rt : Bool}
    (hl : s.latches tid.pageId = .unlocked) (hw : SlottedPage.Wf L pageSize (s.pages tid.pageId))
    (hp : tid.pageId < s.fsi.allocatedPages) (hs : tid.slot < (s.pages tid.pageId).slotCount)
    (hrec : (s.pages tid.pageId).slots tid.slot = .record o n rt) (record : List UInt8) :
    ∃ d, write tid record s = .ok (min record.length n)
        { s with pages := Function.update s.pages tid.pageId { s.pages tid.pageId with data := d } } ∧
      entries { s with pages := Function.update s.pages tid.pageId { s.pages tid.pageId with data := d } } =
        Function.update (entries s) tid
          (some (.record (overwrite (bytesAt (s.pages tid.pageId).data o n) record) rt)) := by
  rw [write, run_bind_ok (getSlot_ok (by rw [hl]; rfl) hs), hrec]
  exact writeTail_ok hl hw hp hs hrec record

theorem write_redirect {L : Layout} {pageSize : Nat} {r : Tid} {o n : Nat}
    (hl : s.latches tid.pageId = .unlocked) (hs : tid.slot < (s.pages tid.pageId).slotCount)
    (hslot : (s.pages tid.pageId).slots tid.slot = .redirect r)
    (hrl : s.latches r.pageId = .unlocked) (hw : SlottedPage.Wf L pageSize (s.pages r.pageId))
    (hp : r.pageId < s.fsi.allocatedPages) (hrs : r.slot < (s.pages r.pageId).slotCount)
    (hrec : (s.pages r.pageId).slots r.slot = .record o n true) (record : List UInt8) :
    ∃ d, write tid record s = .ok (min record.length n)
        { s with pages := Function.update s.pages r.pageId { s.pages r.pageId with data := d } } ∧
      entries { s with pages := Function.update s.pages r.pageId { s.pages r.pageId with data := d } } =
        Function.update (entries s) r
          (some (.record (overwrite (bytesAt (s.pages r.pageId).data o n) record) true)) := by
  rw [write, run_bind_ok (getSlot_ok (by rw [hl]; rfl) hs), hslot]
  dsimp only
  rw [run_bind_ok (unfixPage_fixed (l := .exclusive) hl rfl),
    run_bind_ok (getSlot_ok (by rw [hrl]; rfl) hrs), hrec]
  exact writeTail_ok hrl hw hp hrs hrec record

/-- `write` overwrites the record's first bytes, as many as the record holds, and no other
record; it returns how many bytes it wrote, and keeps the invariant and the redirects. -/
theorem write_spec (hi : Inv c s) (hr : Redirects s) {old : List UInt8}
    (h : records s tid = some old) (record : List UInt8) :
    ∃ s', write tid record s = .ok (min record.length old.length) s' ∧ Inv c s' ∧ Redirects s' ∧
      records s' = Function.update (records s) tid (some (overwrite old record)) := by
  rcases records_eq_some.mp h with he | ⟨r, he, hre⟩
  · obtain ⟨hp, hs, o, hrec, hb⟩ := entries_record he
    have hw := hi.wf _ hp
    obtain ⟨d, hrun, hent⟩ := write_record (hi.unlatched _) hw hp hs hrec record
    rw [← hb] at hent
    exact ⟨_, hrun, ⟨hi.toConsistent.setPage_same (hw.withData d) rfl, hi.unlatched⟩,
      hr.update_record he hent, records_set_record (.inr ⟨_, he⟩) hent⟩
  · obtain ⟨-, hs, hslot⟩ := entries_redirect he
    obtain ⟨hp, hrs, o, hrec, hb⟩ := entries_record hre
    have hw := hi.wf _ hp
    obtain ⟨d, hrun, hent⟩ := write_redirect (hi.unlatched _) hs hslot (hi.unlatched _) hw hp hrs hrec record
    rw [← hb] at hent
    exact ⟨_, hrun, ⟨hi.toConsistent.setPage_same (hw.withData d) rfl, hi.unlatched⟩,
      hr.update_record hre hent, records_update_target hr he hre hent⟩

end readWrite

-- ============================================================ erase

section erase

variable {s s' : SpSegment} {w : Tid} {old : List UInt8}

/-- A record of its own slot cleared clears the records at its `TID` alone. -/
theorem records_erase_record (hw : entries s w = some (.record old false))
    (h : entries s' = Function.update (entries s) w none) :
    records s' = Function.update (records s) w none := by
  funext t
  by_cases htw : t = w
  · rw [htw, Function.update_same]; simp only [records, h, Function.update_same]
  · rw [Function.update_noteq htw]
    unfold records
    rw [h, Function.update_noteq htw]
    rcases entries s t with _ | ⟨b, _ | _⟩ | r <;> try rfl
    dsimp only
    by_cases hrw : r = w
    · rw [hrw, Function.update_same, hw]
    · rw [Function.update_noteq hrw]

/-- A redirect and its target cleared clear the records at the redirect's `TID` alone. -/
theorem records_erase_target (hr : Redirects s) {tid : Tid}
    (ht : entries s tid = some (.redirect w)) (hw : entries s w = some (.record old true))
    (h : entries s' = Function.update (Function.update (entries s) tid none) w none) :
    records s' = Function.update (records s) tid none := by
  have htw : tid ≠ w := fun e => by rw [e, hw] at ht; cases ht
  funext t
  unfold records
  rw [h]
  by_cases htt : t = tid
  · rw [htt, Function.update_same, Function.update_noteq htw, Function.update_same]
  · rw [Function.update_noteq htt]
    by_cases htw' : t = w
    · rw [htw', Function.update_same, hw]
    · rw [Function.update_noteq htw', Function.update_noteq htt]
      rcases hc : entries s t with _ | ⟨b, _ | _⟩ | r <;> try rfl
      have hrw : r ≠ w := fun e => htt (hr.unique t tid w (e ▸ hc) ht)
      have hrt : r ≠ tid := fun e => by
        obtain ⟨-, b, hb⟩ := hr.target t r hc
        rw [e, ht] at hb; cases hb
      dsimp only
      rw [Function.update_noteq hrw, Function.update_noteq hrt]

theorem Redirects.erase_record (hr : Redirects s) (hw : entries s w = some (.record old false))
    (h : entries s' = Function.update (entries s) w none) : Redirects s' := by
  refine hr.of_clear (fun t => ?_) fun t r ht => ?_
  · rw [h]
    by_cases htw : t = w
    · rw [htw, Function.update_same]; exact .inr rfl
    · rw [Function.update_noteq htw]; exact .inl rfl
  · have htw : t ≠ w := fun e => by rw [h, e, Function.update_same] at ht; cases ht
    rw [h, Function.update_noteq htw] at ht
    obtain ⟨-, b, hb⟩ := hr.target t r ht
    have hrw : r ≠ w := fun e => by rw [e, hw] at hb; cases hb
    rw [h, Function.update_noteq hrw]

theorem Redirects.erase_target (hr : Redirects s) {tid : Tid}
    (ht : entries s tid = some (.redirect w)) (hw : entries s w = some (.record old true))
    (h : entries s' = Function.update (Function.update (entries s) tid none) w none) :
    Redirects s' := by
  have hout : ∀ t, t ≠ tid → t ≠ w → entries s' t = entries s t := fun t h1 h2 => by
    rw [h, Function.update_noteq h2, Function.update_noteq h1]
  have hin : ∀ t, t = tid ∨ t = w → entries s' t = none := fun t ht' => by
    rw [h]
    rcases ht' with rfl | rfl
    · by_cases htw : t = w
      · rw [htw, Function.update_same]
      · rw [Function.update_noteq htw, Function.update_same]
    · rw [Function.update_same]
  refine hr.of_clear (fun t => ?_) fun t r hr' => ?_
  · by_cases h1 : t = tid
    · exact .inr (hin t (.inl h1))
    · by_cases h2 : t = w
      · exact .inr (hin t (.inr h2))
      · exact .inl (hout t h1 h2)
  · have h1 : t ≠ tid := fun e => by rw [hin t (.inl e)] at hr'; cases hr'
    have h2 : t ≠ w := fun e => by rw [hin t (.inr e)] at hr'; cases hr'
    rw [hout t h1 h2] at hr'
    obtain ⟨-, b, hb⟩ := hr.target t r hr'
    have hrt : r ≠ tid := fun e => by rw [e, ht] at hb; cases hb
    have hrw : r ≠ w := fun e => h1 (hr.unique t tid w (e ▸ hr') ht)
    exact hout r hrt hrw

end erase

section eraseRun

variable {c} {s : SpSegment} {tid : Tid}

/-- The end of an `erase` on a slot it clears. -/
theorem eraseTail_ok (he : Encoding c) (hi : Inv c s) {w : Tid}
    (hp : w.pageId < s.fsi.allocatedPages) (hs : w.slot < (s.pages w.pageId).slotCount) :
    ∃ s', (do
        setPage w.pageId (← liftAssert ((← getPage w.pageId).erase c.layout w.slot))
        unfixPage w.pageId
        updateFsi c w.pageId (← getPage w.pageId).freeSpace : SpM Unit)
        { s with latches := Function.update s.latches w.pageId .exclusive } = .ok () s' ∧
      Inv c s' ∧ entries s' = Function.update (entries s) w none := by
  obtain ⟨p', hp'⟩ := SlottedPage.erase_ok (L := c.layout) hs
  apply Exists.intro
  refine ⟨?_, ?_, ?_⟩
  · simp only [bind, EStateM.bind, pure, EStateM.pure, getPage, get, getThe, MonadStateOf.get,
      EStateM.get, hp', liftAssert, setPage, unfixPage, updateFsi, modify, modifyGet,
      MonadStateOf.modifyGet, EStateM.modifyGet, latches_unfix (l := .exclusive) (hi.unlatched _) rfl]
    simp only [Function.update_same]
    rfl
  · exact hi.setPage he hp (SlottedPage.erase_wf c.layout (hi.wf _ hp) hp')
  · exact entries_setPage hp (SlottedPage.erase_view c.layout hp')


theorem erase_record (he : Encoding c) (hi : Inv c s) {o n : Nat} {rt : Bool}
    (hp : tid.pageId < s.fsi.allocatedPages) (hs : tid.slot < (s.pages tid.pageId).slotCount)
    (hrec : (s.pages tid.pageId).slots tid.slot = .record o n rt) :
    ∃ s', erase c tid s = .ok () s' ∧ Inv c s' ∧ entries s' = Function.update (entries s) tid none := by
  rw [erase, run_bind_ok (getSlot_ok (by rw [hi.unlatched]; rfl) hs), hrec]
  exact eraseTail_ok he hi hp hs

theorem erase_redirect (he : Encoding c) (hi : Inv c s) {r : Tid} {o n : Nat}
    (hp : tid.pageId < s.fsi.allocatedPages) (hs : tid.slot < (s.pages tid.pageId).slotCount)
    (hslot : (s.pages tid.pageId).slots tid.slot = .redirect r) (hne : r.pageId ≠ tid.pageId)
    (hrp : r.pageId < s.fsi.allocatedPages) (hrs : r.slot < (s.pages r.pageId).slotCount)
    (hrec : (s.pages r.pageId).slots r.slot = .record o n true) :
    ∃ s', erase c tid s = .ok () s' ∧ Inv c s' ∧
      entries s' = Function.update (Function.update (entries s) tid none) r none := by
  obtain ⟨p1, hp1⟩ := SlottedPage.erase_ok (L := c.layout) hs
  obtain ⟨p2, hp2⟩ := SlottedPage.erase_ok (L := c.layout) hrs
  have hpr : Function.update s.pages tid.pageId p1 r.pageId = s.pages r.pageId :=
    Function.update_noteq hne _ _
  -- the target's page, then the redirect's, each put back with the FSI told, in the order of
  -- the FSI updates
  have hA := hi.setPage he hrp (SlottedPage.erase_wf c.layout (hi.wf _ hrp) hp2)
  have hB := hA.setPage he hp (SlottedPage.erase_wf c.layout (hi.wf _ hp) hp1)
  rw [Function.update_comm hne] at hB
  have h1 := entries_setPage hp (SlottedPage.erase_view c.layout hp1)
  have h2 := entries_setPage (s := { s with pages := Function.update s.pages tid.pageId p1 }) hrp
    (by dsimp only; rw [hpr]; exact SlottedPage.erase_view c.layout hp2)
  rw [h1] at h2
  rw [erase, run_bind_ok (getSlot_ok (by rw [hi.unlatched]; rfl) hs), hslot]
  dsimp only
  simp only [bind, EStateM.bind, pure, EStateM.pure, getPage, get, getThe, MonadStateOf.get,
    EStateM.get, hp1, liftAssert, setPage, unfixPage, modify, modifyGet,
    MonadStateOf.modifyGet, EStateM.modifyGet, latches_unfix (l := .exclusive) (hi.unlatched _) rfl]
  rw [getSlot_ok (s := { s with pages := Function.update s.pages tid.pageId p1 }) (l := .exclusive)
    (by rw [hi.unlatched]; rfl) (by dsimp only; rw [hpr]; exact hrs)]
  simp only [hpr, hrec, check, Slot.isRedirectTarget, ↓reduceIte, hp2, liftAssert, bind,
    EStateM.bind, pure, EStateM.pure, getPage, get, getThe, MonadStateOf.get, EStateM.get,
    setPage, unfixPage, updateFsi, modify, modifyGet, MonadStateOf.modifyGet, EStateM.modifyGet,
    latches_unfix (l := .exclusive) (hi.unlatched _) rfl]
  simp only [Function.update_same, Function.update_noteq hne.symm]
  exact ⟨_, rfl, hB, h2⟩


/-- `erase` removes the record, its redirect target with it when it has moved, and no other
record; it keeps the invariant and the redirects. -/
theorem erase_spec (he : Encoding c) (hi : Inv c s) (hr : Redirects s) {old : List UInt8}
    (h : records s tid = some old) :
    ∃ s', erase c tid s = .ok () s' ∧ Inv c s' ∧ Redirects s' ∧
      records s' = Function.update (records s) tid none := by
  rcases records_eq_some.mp h with hent | ⟨r, hent, hre⟩
  · obtain ⟨hp, hs, o, hrec, -⟩ := entries_record hent
    obtain ⟨s', hrun, hi', h'⟩ := erase_record he hi hp hs hrec
    exact ⟨s', hrun, hi', hr.erase_record hent h', records_erase_record hent h'⟩
  · obtain ⟨hp, hs, hslot⟩ := entries_redirect hent
    obtain ⟨hrp, hrs, o, hrec, -⟩ := entries_record hre
    obtain ⟨s', hrun, hi', h'⟩ :=
      erase_redirect he hi hp hs hslot (hr.target tid r hent).1 hrp hrs hrec
    exact ⟨s', hrun, hi', hr.erase_target hent hre h', records_erase_target hr hent hre h'⟩

end eraseRun

end SpSegment

end SimpleDb
