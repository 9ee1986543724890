import SimpleDb.Segment.SpRecords

/-!
`resize` over the records of the segment.

# The four paths

A record in its own slot is resized in its page when the page has room
(`resize_record_fits`), or moved to a new redirect target behind a redirect left in its
slot (`resize_record_moves`). A record behind a redirect is resized in its target's page
(`resize_redirect_fits`), or moved to a new target, the old one erased
(`resize_redirect_moves`). A move runs `allocate` while `resize` holds the record's page,
and its target's: `allocate_cases` says it waits only on one of those.

# The method

`resize_spec`, the step of `SpStore`'s refinement for `resize`: on the invariant and the redirects, `resize` of a record to a new, nonzero
length that fits an empty page never fails an `assert`. It waits on the record's page or
its target's, or it returns with the invariant and the redirects kept and the record, and
no other, resized: its first bytes kept, as many as both lengths hold.
-/

namespace SimpleDb

namespace SlottedPage

/-- The page's `relocate` succeeds on a record when it shrinks, or when the page has room for
what it grows by. -/
theorem relocate_ok {L : Layout} {p : SlottedPage} {sid dataSize pageSize o n : Nat} {rt : Bool}
    (tmp : SlottedPage) (hsid : sid < p.slotCount) (hrec : p.slots sid = .record o n rt)
    (hroom : dataSize < n ∨ dataSize - n ≤ p.freeSpace) :
    ∃ p', relocate L p sid dataSize pageSize tmp = .ok p' := by
  have hroom' : (decide (dataSize ≤ n) || decide (dataSize - n ≤ p.freeSpace)) = true := by
    simp only [Bool.or_eq_true, decide_eq_true_eq]; omega
  unfold relocate
  simp only [hsid, not_true_eq_false, ↓reduceIte, hrec, Slot.isRedirect, Slot.isEmpty, Slot.getSize,
    Bool.not_false, Bool.true_and, hroom', not_true_eq_false]
  split_ifs <;> exact ⟨_, rfl⟩

end SlottedPage

namespace SpSegment

variable {c : SpConfig} {s : SpSegment} {tid : Tid}

/-- The latches are no part of the segment's consistency. -/
theorem Consistent.withLatches (hc : Consistent c s) (l : Nat → Latch) :
    Consistent c { s with latches := l } :=
  ⟨hc.wf, hc.synced, hc.cacheLeast, hc.bounded⟩

-- ============================================================ the record moved

section repoint

variable {s s' : SpSegment} {tid n' : Tid} {bytes : List UInt8} {mid : Tid → Option Entry}

/-- A record moved to a fresh redirect target, its slot now redirected there, and its old
target, if it had one, cleared (`mid`): the records change at its `TID` alone. -/
theorem records_repoint (hr : Redirects s)
    (hmid : ∀ t, mid t = entries s t ∨ (entries s tid = some (.redirect t) ∧ mid t = none))
    (hnt : n' ≠ tid) (hfresh : entries s n' = none)
    (hrt : ∀ b, entries s tid ≠ some (.record b true))
    (h : entries s' = Function.update (Function.update mid n' (some (.record bytes true))) tid
      (some (.redirect n'))) :
    records s' = Function.update (records s) tid (some bytes) := by
  funext t
  by_cases htt : t = tid
  · rw [htt, Function.update_same]
    unfold records
    rw [h, Function.update_same]
    dsimp only
    rw [Function.update_noteq hnt, Function.update_same]
  rw [Function.update_noteq htt]
  unfold records
  rw [h, Function.update_noteq htt]
  by_cases htn : t = n'
  · rw [htn, Function.update_same, hfresh]
  rw [Function.update_noteq htn]
  rcases hmid t with hm | ⟨hrt', hm⟩
  · rw [hm]
    rcases hc : entries s t with _ | ⟨b, _ | _⟩ | x <;> try rfl
    obtain ⟨-, b, hb⟩ := hr.target t x hc
    have hxt : x ≠ tid := fun e => hrt b (e ▸ hb)
    have hxn : x ≠ n' := fun e => by rw [e, hfresh] at hb; cases hb
    dsimp only
    rw [Function.update_noteq hxt, Function.update_noteq hxn]
    rcases hmid x with hm' | ⟨hx', -⟩
    · rw [hm']
    · exact absurd (hr.unique t tid x hc hx') htt
  · obtain ⟨-, b, hb⟩ := hr.target tid t hrt'
    rw [hm, hb]

/-- The same move keeps the redirects, when the fresh target is on another page. -/
theorem Redirects.repoint (hr : Redirects s)
    (hmid : ∀ t, mid t = entries s t ∨ (entries s tid = some (.redirect t) ∧ mid t = none))
    (hnt : n' ≠ tid) (hfresh : entries s n' = none)
    (hrt : ∀ b, entries s tid ≠ some (.record b true)) (hnp : n'.pageId ≠ tid.pageId)
    (h : entries s' = Function.update (Function.update mid n' (some (.record bytes true))) tid
      (some (.redirect n'))) : Redirects s' := by
  -- a redirect of `s'` is the moved record's, or one of `s` elsewhere
  have hkey : ∀ t x, entries s' t = some (.redirect x) →
      (t = tid ∧ x = n') ∨ (t ≠ tid ∧ entries s t = some (.redirect x)) := fun t x ht => by
    rw [h] at ht
    by_cases htt : t = tid
    · rw [htt, Function.update_same] at ht; cases ht; exact .inl ⟨htt, rfl⟩
    rw [Function.update_noteq htt] at ht
    by_cases htn : t = n'
    · rw [htn, Function.update_same] at ht; cases ht
    rw [Function.update_noteq htn] at ht
    rcases hmid t with hm | ⟨-, hm⟩
    · exact .inr ⟨htt, hm ▸ ht⟩
    · rw [hm] at ht; cases ht
  -- an old target keeps its entry
  have hold : ∀ t x, t ≠ tid → entries s t = some (.redirect x) → entries s' x = entries s x :=
      fun t x htt hc => by
    obtain ⟨-, b, hb⟩ := hr.target t x hc
    have hxt : x ≠ tid := fun e => hrt b (e ▸ hb)
    have hxn : x ≠ n' := fun e => by rw [e, hfresh] at hb; cases hb
    rw [h, Function.update_noteq hxt, Function.update_noteq hxn]
    rcases hmid x with hm | ⟨hx', -⟩
    · exact hm
    · exact absurd (hr.unique t tid x hc hx') htt
  refine ⟨fun t x ht => ?_, fun t t' x ht ht' => ?_⟩
  · rcases hkey t x ht with ⟨rfl, rfl⟩ | ⟨htt, hc⟩
    · exact ⟨hnp, bytes, by rw [h, Function.update_noteq hnt, Function.update_same]⟩
    · rw [hold t x htt hc]; exact hr.target t x hc
  · rcases hkey t x ht with ⟨h1, h2⟩ | ⟨-, hc⟩ <;> rcases hkey t' x ht' with ⟨h1', h2'⟩ | ⟨-, hc'⟩
    · rw [h1, h1']
    · obtain ⟨-, b, hb⟩ := hr.target t' x hc'; rw [h2, hfresh] at hb; cases hb
    · obtain ⟨-, b, hb⟩ := hr.target t x hc; rw [h2', hfresh] at hb; cases hb
    · exact hr.unique t t' x hc hc'

end repoint

-- ============================================================ resized in place

/-- A record resized in its own page: its entry changes, its first bytes kept. -/
theorem resize_record_fits (he : Encoding c) (hi : Inv c s) {o n newLength : Nat}
    (hp : tid.pageId < s.fsi.allocatedPages) (hs : tid.slot < (s.pages tid.pageId).slotCount)
    (hrec : (s.pages tid.pageId).slots tid.slot = .record o n false) (hne : n ≠ newLength)
    (hfits : newLength < n ∨ newLength - n ≤ (s.pages tid.pageId).freeSpace) (tmp : SlottedPage) :
    ∃ s', resize c tid newLength tmp s = .ok () s' ∧ Inv c s' ∧
      ∃ bytes : List UInt8, bytes.length = newLength ∧
        bytes.take n = (bytesAt (s.pages tid.pageId).data o n).take newLength ∧
        entries s' = Function.update (entries s) tid (some (.record bytes false)) := by
  obtain ⟨p', hrel⟩ : ∃ p', (s.pages tid.pageId).relocate c.layout tid.slot newLength
      c.fsi.pageSize tmp = .ok p' := SlottedPage.relocate_ok tmp hs hrec hfits
  obtain ⟨bytes, bytes', rt, hv, hlen, htake, hview⟩ :=
    SlottedPage.relocate_view c.layout (hi.wf _ hp) hrel
  rw [SlottedPage.view_of_lt hs, hrec] at hv
  cases hv
  refine ⟨_, ?_, hi.setPage he hp (SlottedPage.relocate_wf c.layout (hi.wf _ hp) hrel), bytes', hlen,
    by rw [← htake, length_bytesAt], entries_setPage hp hview⟩
  rw [resize, run_bind_ok (getSlot_ok (by rw [hi.unlatched]; rfl) hs), hrec]
  simp only [check, Slot.isRedirectTarget, Slot.getSize, hne, Bool.not_false, ↓reduceIte, bind,
    EStateM.bind, pure, EStateM.pure, getPage, get, getThe, MonadStateOf.get, EStateM.get]
  rw [if_pos hfits]
  simp only [hrel, liftAssert, bind, EStateM.bind, pure, EStateM.pure, setPage, unfixPage,
    updateFsi, modify, modifyGet, MonadStateOf.modifyGet, EStateM.modifyGet, getPage, get, getThe,
    MonadStateOf.get, EStateM.get, latches_unfix (l := .exclusive) (hi.unlatched _) rfl]
  simp only [Function.update_same]

/-- A record behind a redirect resized in its target's page: the target's entry changes. -/
theorem resize_redirect_fits (he : Encoding c) (hi : Inv c s) {r : Tid} {o n newLength : Nat}
    (hs : tid.slot < (s.pages tid.pageId).slotCount)
    (hslot : (s.pages tid.pageId).slots tid.slot = .redirect r) (hne : r.pageId ≠ tid.pageId)
    (hrp : r.pageId < s.fsi.allocatedPages) (hrs : r.slot < (s.pages r.pageId).slotCount)
    (hrec : (s.pages r.pageId).slots r.slot = .record o n true) (h0 : newLength ≠ 0)
    (hfits : newLength < n ∨ newLength - n ≤ (s.pages r.pageId).freeSpace) (tmp : SlottedPage) :
    ∃ s', resize c tid newLength tmp s = .ok () s' ∧ Inv c s' ∧
      ∃ bytes : List UInt8, bytes.length = newLength ∧
        bytes.take n = (bytesAt (s.pages r.pageId).data o n).take newLength ∧
        entries s' = Function.update (entries s) r (some (.record bytes true)) := by
  obtain ⟨p', hrel⟩ : ∃ p', (s.pages r.pageId).relocate c.layout r.slot newLength
      c.fsi.pageSize tmp = .ok p' := SlottedPage.relocate_ok tmp hrs hrec hfits
  obtain ⟨bytes, bytes', rt, hv, hlen, htake, hview⟩ :=
    SlottedPage.relocate_view c.layout (hi.wf _ hrp) hrel
  rw [SlottedPage.view_of_lt hrs, hrec] at hv
  cases hv
  refine ⟨_, ?_, hi.setPage he hrp (SlottedPage.relocate_wf c.layout (hi.wf _ hrp) hrel), bytes', hlen,
    by rw [← htake, length_bytesAt], entries_setPage hrp hview⟩
  rw [resize, run_bind_ok (getSlot_ok (by rw [hi.unlatched]; rfl) hs), hslot]
  simp only [check, Slot.isRedirectTarget, Slot.getSize, Ne.symm h0, Bool.not_false, ↓reduceIte, bind,
    EStateM.bind, pure, EStateM.pure]
  rw [getSlot_ok (s := { s with latches := Function.update s.latches tid.pageId .exclusive })
    (l := .exclusive) (by simp only [Function.update_noteq hne, hi.unlatched]; rfl) hrs]
  simp only [hrec, Slot.isRedirectTarget, Slot.getSize, ↓reduceIte, getPage, get, getThe,
    MonadStateOf.get, EStateM.get, if_pos hfits, hrel, liftAssert, setPage, unfixPage, updateFsi, modify,
    modifyGet, MonadStateOf.modifyGet, EStateM.modifyGet, pure, EStateM.pure, bind, EStateM.bind]
  simp only [Function.update_same]
  congr 2
  funext x
  have := hi.unlatched x
  simp only [Function.update_apply]
  split_ifs <;> simp_all [Latch.unlock]

-- ============================================================ moved to a new target

/-- A record that outgrows its page moves to a new redirect target, which `allocate` finds
while `resize` holds the record's page exclusively: the fix of that page again throws
(`deadlock`), or the record's slot redirects to the new target, which holds the old bytes
first. -/
theorem resize_record_moves (he : Encoding c) (hi : Inv c s) {o n newLength : Nat}
    (hp : tid.pageId < s.fsi.allocatedPages) (hs : tid.slot < (s.pages tid.pageId).slotCount)
    (hrec : (s.pages tid.pageId).slots tid.slot = .record o n false) (hne : n ≠ newLength)
    (hgrow : ¬ (newLength < n ∨ newLength - n ≤ (s.pages tid.pageId).freeSpace))
    (hfit : newLength + c.layout.slotSize + c.layout.headerSize ≤ c.fsi.pageSize)
    (hb : s.fsi.allocatedPages < 2 ^ 48) (tmp : SlottedPage) :
    (∃ s', resize c tid newLength tmp s = .error (.deadlock tid.pageId) s') ∨
    ∃ s' n', resize c tid newLength tmp s = .ok () s' ∧ Inv c s' ∧ n'.pageId ≠ tid.pageId ∧
      entries s n' = none ∧ ∃ bytes : List UInt8, bytes.length = newLength ∧
        bytes.take n = bytesAt (s.pages tid.pageId).data o n ∧
        entries s' = Function.update (Function.update (entries s) n' (some (.record bytes true))) tid
          (some (.redirect n')) := by
  have hl1 : ∀ t, s.fsi.allocatedPages ≤ t →
      Function.update s.latches tid.pageId .exclusive t = .unlocked := fun t ht => by
    rw [Function.update_noteq (Nat.ne_of_gt (lt_of_lt_of_le hp ht)), hi.unlatched]
  rw [resize, run_bind_ok (getSlot_ok (by rw [hi.unlatched]; rfl) hs), hrec]
  simp only [check, Slot.isRedirectTarget, Slot.getSize, hne, Bool.not_false, ↓reduceIte, bind,
    EStateM.bind, pure, EStateM.pure, getPage, get, getThe, MonadStateOf.get, EStateM.get]
  rw [if_neg hgrow]
  rcases allocate_cases c he (hi.toConsistent.withLatches (Function.update s.latches tid.pageId .exclusive)) hl1 hfit hb true tmp with
    ⟨p, s2, hrun, hp'⟩ | ⟨n', s2, hrun, hc2, hlat2, hunl, hal, hframe, hfresh, b0, hlen0, hent2⟩
  · have : p = tid.pageId := by
      by_contra h
      exact hp' (by show Function.update s.latches tid.pageId .exclusive p = _; rw [Function.update_noteq h, hi.unlatched])
    subst this
    exact .inl ⟨s2, by simp only [EStateM.bind, hrun, Function.update_same, latchError]⟩
  · simp only [EStateM.bind, hrun]
    right
    have hn'p : n'.pageId ≠ tid.pageId := fun h => by
      rw [h] at hunl; exact absurd hunl (by simp only [Function.update_same]; exact nofun)
    have hs2p : s2.pages tid.pageId = s.pages tid.pageId := hframe _ (Ne.symm hn'p)
    have hl2 : s2.latches n'.pageId = .unlocked := by rw [hlat2]; exact hunl
    have hent2' : entries s2 n' = some (.record b0 true) := by rw [hent2, Function.update_same]
    obtain ⟨hp2, hs2, o2, hrec2, hb0⟩ := entries_record hent2'
    obtain ⟨d, hw3, hent3⟩ := write_record hl2 (hc2.wf _ hp2) hp2 hs2 hrec2
      (bytesAt (s.pages tid.pageId).data o n)
    simp only [EStateM.get, EStateM.pure, hs2p, Slot.getOffset, hw3]
    simp only [Function.update_noteq (Ne.symm hn'p), hs2p, setPage, unfixPage, updateFsi, modify,
      modifyGet, MonadStateOf.modifyGet, EStateM.modifyGet]
    simp only [Function.update_same]
    have hp3 : tid.pageId < s2.fsi.allocatedPages := lt_of_lt_of_le hp hal
    have hc3 := hc2.setPage_same ((hc2.wf _ hp2).withData d) rfl
    have hwr := SlottedPage.setRedirect_wf c.layout (hi.wf _ hp) hs (by rw [hrec]; rfl) n'
    have hent4 := entries_setPage (s := { s2 with
        pages := Function.update s2.pages n'.pageId { s2.pages n'.pageId with data := d } }) hp3
      (by dsimp only; rw [Function.update_noteq (Ne.symm hn'p), hs2p];
          exact SlottedPage.setRedirect_view hs n')
    rw [hent3, hent2, Function.update_idem] at hent4
    refine ⟨_, n', rfl, ⟨(hc3.setPage he hp3 hwr).withLatches _, fun x => ?_⟩, hn'p, hfresh,
      _, ?_, ?_, hent4⟩
    · dsimp only
      rw [hlat2, latches_unfix (l := .exclusive) (hi.unlatched _) rfl]
      exact hi.unlatched x
    · rw [length_overwrite, length_bytesAt]; exact hlen0
    · have h := take_overwrite (show (bytesAt (s.pages tid.pageId).data o n).length ≤
          (bytesAt (s2.pages n'.pageId).data o2 b0.length).length by
        simp only [length_bytesAt]; omega)
      rwa [length_bytesAt] at h

/-- A record behind a redirect that outgrows its target's page moves to a new target while
`resize` holds both pages exclusively: the fix of one of them again throws (`deadlock`), or
the redirect points to the new target, which holds the old bytes first, and the old target is
erased. -/
theorem resize_redirect_moves (he : Encoding c) (hi : Inv c s) {r : Tid} {o n newLength : Nat}
    (hp : tid.pageId < s.fsi.allocatedPages) (hs : tid.slot < (s.pages tid.pageId).slotCount)
    (hslot : (s.pages tid.pageId).slots tid.slot = .redirect r) (hne : r.pageId ≠ tid.pageId)
    (hrp : r.pageId < s.fsi.allocatedPages) (hrs : r.slot < (s.pages r.pageId).slotCount)
    (hrec : (s.pages r.pageId).slots r.slot = .record o n true) (h0 : newLength ≠ 0)
    (hgrow : ¬ (newLength < n ∨ newLength - n ≤ (s.pages r.pageId).freeSpace))
    (hfit : newLength + c.layout.slotSize + c.layout.headerSize ≤ c.fsi.pageSize)
    (hb : s.fsi.allocatedPages < 2 ^ 48) (tmp : SlottedPage) :
    (∃ p s', resize c tid newLength tmp s = .error (.deadlock p) s' ∧ (p = tid.pageId ∨ p = r.pageId)) ∨
    ∃ s' n', resize c tid newLength tmp s = .ok () s' ∧ Inv c s' ∧ n'.pageId ≠ tid.pageId ∧
      n'.pageId ≠ r.pageId ∧ entries s n' = none ∧ ∃ bytes : List UInt8, bytes.length = newLength ∧
        bytes.take n = bytesAt (s.pages r.pageId).data o n ∧
        entries s' = Function.update (Function.update (Function.update (entries s) n'
          (some (.record bytes true))) r none) tid (some (.redirect n')) := by
  have hl1 : ∀ t, s.fsi.allocatedPages ≤ t → Function.update (Function.update s.latches tid.pageId
      .exclusive) r.pageId .exclusive t = .unlocked := fun t ht => by
    rw [Function.update_noteq (Nat.ne_of_gt (lt_of_lt_of_le hrp ht)),
      Function.update_noteq (Nat.ne_of_gt (lt_of_lt_of_le hp ht)), hi.unlatched]
  rw [resize, run_bind_ok (getSlot_ok (by rw [hi.unlatched]; rfl) hs), hslot]
  simp only [check, Slot.isRedirectTarget, Slot.getSize, Ne.symm h0, Bool.not_false, ↓reduceIte, bind,
    EStateM.bind, pure, EStateM.pure]
  rw [getSlot_ok (s := { s with latches := Function.update s.latches tid.pageId .exclusive })
    (l := .exclusive) (by simp only [Function.update_noteq hne, hi.unlatched]; rfl) hrs]
  simp only [hrec, Slot.isRedirectTarget, Slot.getSize, ↓reduceIte, getPage, get, getThe,
    MonadStateOf.get, EStateM.get, pure, EStateM.pure, bind, EStateM.bind, if_neg hgrow]
  rcases allocate_cases c he ((hi.toConsistent.withLatches (Function.update (Function.update s.latches
      tid.pageId .exclusive) r.pageId .exclusive))) hl1 hfit hb true tmp with
    ⟨p, s2, hrun, hp'⟩ | ⟨n', s2, hrun, hc2, hlat2, hunl, hal, hframe, hfresh, b0, hlen0, hent2⟩
  · have : p = tid.pageId ∨ p = r.pageId := by
      by_contra h
      push_neg at h
      exact hp' (by
        show Function.update (Function.update s.latches tid.pageId .exclusive) r.pageId .exclusive p = _
        rw [Function.update_noteq h.2, Function.update_noteq h.1, hi.unlatched])
    have hex : Function.update (Function.update s.latches tid.pageId .exclusive) r.pageId .exclusive p =
        .exclusive := by
      rcases this with rfl | rfl
      · rw [Function.update_noteq (Ne.symm hne), Function.update_same]
      · rw [Function.update_same]
    exact .inl ⟨p, s2, by simp only [hrun, hex, latchError], this⟩
  · simp only [hrun]
    right
    dsimp only at hunl hlat2 hal
    have hn't : n'.pageId ≠ tid.pageId := fun h => by
      rw [h, Function.update_noteq (Ne.symm hne), Function.update_same] at hunl; exact nomatch hunl
    have hn'r : n'.pageId ≠ r.pageId := fun h => by
      rw [h, Function.update_same] at hunl; exact nomatch hunl
    have hs2t : s2.pages tid.pageId = s.pages tid.pageId := hframe _ (Ne.symm hn't)
    have hs2r : s2.pages r.pageId = s.pages r.pageId := hframe _ (Ne.symm hn'r)
    have hl2 : s2.latches n'.pageId = .unlocked := by rw [hlat2]; exact hunl
    have hent2' : entries s2 n' = some (.record b0 true) := by rw [hent2, Function.update_same]
    obtain ⟨hp2, hs2, o2, hrec2, hb0⟩ := entries_record hent2'
    obtain ⟨d, hw3, hent3⟩ := write_record hl2 (hc2.wf _ hp2) hp2 hs2 hrec2
      (bytesAt (s.pages r.pageId).data o n)
    obtain ⟨p2, hp2'⟩ := SlottedPage.erase_ok (L := c.layout) hrs
    simp only [hs2r, Slot.getOffset, hw3]
    simp only [Function.update_noteq (Ne.symm hn'r), hs2r, hp2', liftAssert, pure, EStateM.pure,
      setPage, unfixPage, updateFsi, modify, modifyGet, MonadStateOf.modifyGet, EStateM.modifyGet]
    simp only [Function.update_noteq hne, Function.update_noteq (Ne.symm hne),
      Function.update_noteq (Ne.symm hn't), hs2t, Function.update_same]
    -- the pages written, in order: the new target's bytes, the old target erased, the redirect
    have hp3 : r.pageId < s2.fsi.allocatedPages := lt_of_lt_of_le hrp hal
    have hp4 : tid.pageId < s2.fsi.allocatedPages := lt_of_lt_of_le hp hal
    have hc3 := hc2.setPage_same ((hc2.wf _ hp2).withData d) rfl
    have hc4 := hc3.setPage he hp3 (SlottedPage.erase_wf c.layout (hi.wf _ hrp) hp2')
    have hredirect : { s.pages tid.pageId with
        slots := Function.update (s.pages tid.pageId).slots tid.slot (.redirect n') } =
        (s.pages tid.pageId).setRedirect tid.slot n' := by
      simp only [SlottedPage.setRedirect, hslot, Slot.getSize, Nat.add_zero]
    have hwr : SlottedPage.Wf c.layout c.fsi.pageSize { s.pages tid.pageId with
        slots := Function.update (s.pages tid.pageId).slots tid.slot (.redirect n') } := by
      convert SlottedPage.setRedirect_wf c.layout (hi.wf _ hp) hs (by rw [hslot]; rfl) n' using 1
    have hc5 := hc4.setPage_same hwr (by
      dsimp only; rw [Function.update_noteq (Ne.symm hne), Function.update_noteq (Ne.symm hn't), hs2t])
    have h4 := entries_setPage (s := { s2 with
        pages := Function.update s2.pages n'.pageId { s2.pages n'.pageId with data := d } }) hp3
      (by dsimp only; rw [Function.update_noteq (Ne.symm hn'r), hs2r];
          exact SlottedPage.erase_view c.layout hp2')
    have h5 := entries_setPage (s := { s2 with
        pages := Function.update (Function.update s2.pages n'.pageId { s2.pages n'.pageId with data := d })
          r.pageId p2 }) hp4
      (by dsimp only; rw [Function.update_noteq (Ne.symm hne), Function.update_noteq (Ne.symm hn't), hs2t];
          exact SlottedPage.setRedirect_view hs n')
    rw [h4, hent3, hent2, Function.update_idem, ← hredirect] at h5
    refine ⟨_, n', rfl, ⟨hc5.withLatches _, fun x => ?_⟩, hn't, hn'r, hfresh, _, ?_, ?_, h5⟩
    · have hx := hi.unlatched x
      have ht := hi.unlatched tid.pageId
      have hr := hi.unlatched r.pageId
      rw [hlat2]
      clear * - hx ht hr hne
      simp only [Function.update_apply]
      split_ifs <;> simp_all [Latch.unlock]
    · rw [length_overwrite, length_bytesAt]; exact hlen0
    · have h := take_overwrite (show (bytesAt (s.pages r.pageId).data o n).length ≤
          (bytesAt (s2.pages n'.pageId).data o2 b0.length).length by
        simp only [length_bytesAt]; omega)
      rwa [length_bytesAt] at h

-- ============================================================ resize

/-- `resize` of a record to a new, nonzero length that fits an empty page, on the invariant and
the redirects, never fails an `assert`. It throws (`deadlock`) on the record's page or its
target's, the pages it holds exclusively while `allocate` looks for a new target; or it
returns, keeps the invariant and the redirects, and resizes that record and no other, its
first bytes kept. -/
theorem resize_spec (he : Encoding c) (hi : Inv c s) (hr : Redirects s) {old : List UInt8}
    (h : records s tid = some old) {newLength : Nat} (hne : newLength ≠ old.length)
    (h0 : newLength ≠ 0) (hfit : newLength + c.layout.slotSize + c.layout.headerSize ≤ c.fsi.pageSize)
    (hb : s.fsi.allocatedPages < 2 ^ 48) (tmp : SlottedPage) :
    (∃ p s', resize c tid newLength tmp s = .error (.deadlock p) s' ∧
      (p = tid.pageId ∨ ∃ r, entries s tid = some (.redirect r) ∧ p = r.pageId)) ∨
    ∃ s', resize c tid newLength tmp s = .ok () s' ∧ Inv c s' ∧ Redirects s' ∧
      ∃ bytes : List UInt8, bytes.length = newLength ∧ bytes.take old.length = old.take newLength ∧
        records s' = Function.update (records s) tid (some bytes) := by
  rcases records_eq_some.mp h with hent | ⟨r, hent, hre⟩
  · -- the record in its own slot
    obtain ⟨hp, hs, o, hrec, hbytes⟩ := entries_record hent
    have hrt : ∀ b, entries s tid ≠ some (.record b true) := fun b e => by rw [hent] at e; cases e
    by_cases hfits : newLength < old.length ∨ newLength - old.length ≤ (s.pages tid.pageId).freeSpace
    · obtain ⟨s', hrun, hi', bytes, hlen, htake, hent'⟩ :=
        resize_record_fits he hi hp hs hrec (Ne.symm hne) hfits tmp
      rw [← hbytes] at htake
      exact .inr ⟨s', hrun, hi', hr.update_record hent hent', bytes, hlen, htake,
        records_set_record (.inr ⟨_, hent⟩) hent'⟩
    · rcases resize_record_moves he hi hp hs hrec (Ne.symm hne) hfits hfit hb tmp with
        ⟨s', hrun⟩ | ⟨s', n', hrun, hi', hnp, hfresh, bytes, hlen, htake, hent'⟩
      · exact .inl ⟨_, s', hrun, .inl rfl⟩
      · have hnt : n' ≠ tid := fun e => hnp (by rw [e])
        rw [← hbytes] at htake
        refine .inr ⟨s', hrun, hi', hr.repoint (fun _ => .inl rfl) hnt hfresh hrt hnp hent', bytes,
          hlen, ?_, records_repoint hr (fun _ => .inl rfl) hnt hfresh hrt hent'⟩
        rw [htake, List.take_of_length_le (by omega)]
  · -- the record behind a redirect
    obtain ⟨hp, hs, hslot⟩ := entries_redirect hent
    obtain ⟨hrp, hrs, o, hrec, hbytes⟩ := entries_record hre
    have hne' := (hr.target tid r hent).1
    have hrt : ∀ b, entries s tid ≠ some (.record b true) := fun b e => by rw [hent] at e; cases e
    by_cases hfits : newLength < old.length ∨ newLength - old.length ≤ (s.pages r.pageId).freeSpace
    · obtain ⟨s', hrun, hi', bytes, hlen, htake, hent'⟩ :=
        resize_redirect_fits he hi hs hslot hne' hrp hrs hrec h0 hfits tmp
      rw [← hbytes] at htake
      exact .inr ⟨s', hrun, hi', hr.update_record hre hent', bytes, hlen, htake,
        records_update_target hr hent hre hent'⟩
    · rcases resize_redirect_moves he hi hp hs hslot hne' hrp hrs hrec h0 hfits hfit hb tmp with
        ⟨p, s', hrun, hp'⟩ | ⟨s', n', hrun, hi', hnp, hnr, hfresh, bytes, hlen, htake, hent'⟩
      · exact .inl ⟨p, s', hrun, hp'.imp id fun e => ⟨r, hent, e⟩⟩
      · have hnt : n' ≠ tid := fun e => hnp (by rw [e])
        have hmid : ∀ t, Function.update (entries s) r none t = entries s t ∨
            (entries s tid = some (.redirect t) ∧ Function.update (entries s) r none t = none) :=
          fun t => by
            by_cases htr : t = r
            · exact .inr ⟨htr ▸ hent, by rw [htr, Function.update_same]⟩
            · exact .inl (Function.update_noteq htr _ _)
        rw [← hbytes] at htake
        rw [Function.update_comm (fun e : n' = r => hnr (by rw [e]))] at hent'
        refine .inr ⟨s', hrun, hi', hr.repoint hmid hnt hfresh hrt hnp hent', bytes, hlen, ?_,
          records_repoint hr hmid hnt hfresh hrt hent'⟩
        rw [htake, List.take_of_length_le (by omega)]

end SpSegment

end SimpleDb
