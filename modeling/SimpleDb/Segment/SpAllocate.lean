import SimpleDb.Segment.SpSegment
import SimpleDb.BTree.Update

/-!
The record segment between two methods, and `allocate` over it.

# The invariant

`Consistent`: every allocated page is a well-formed slotted page, the FSI entry of each
allocated page is the category of its free space, the FSI cache is the least one
(`CacheLeast`), and the page ids stay within 48 bits. `Inv`, the segment between two
methods: consistent, and no latch held.

# The encoding

`Encoding` is what `allocate` needs of `encode_free_space` and `decode_free_space`: up to the
page size the encoding is monotone and below `16`, and the size a category decodes to lies
within the page and encodes to that category or above. Their exact renderings keep it for
pages of 1024 and of 4096 bytes (`exactConfig_encoding_1024`, `exactConfig_encoding_4096`);
the rounding of their float arithmetic is left out.

# Results

`allocate_spec`: under the encoding, `allocate` of a record that fits an empty page
returns, keeps the invariant, and adds one entry to the segment, a record of the asked size
at a `TID` that held nothing. `allocate_cases` says the same of a consistent segment on which
the calling method holds latches: `allocate` then waits on one of them, or it returns as
above and gives back every latch it took.
-/

namespace SimpleDb

namespace SpSegment

variable (c : SpConfig)

/-- What `allocate` needs of `encode_free_space` and `decode_free_space`. -/
structure Encoding : Prop where
  mono : ∀ a b, a ≤ b → b ≤ c.fsi.pageSize →
    (c.fsi.encodeFreeSpace a).toNat ≤ (c.fsi.encodeFreeSpace b).toNat
  lt_sixteen : ∀ a ≤ c.fsi.pageSize, (c.fsi.encodeFreeSpace a).toNat < 16
  decode_le : ∀ k < 16, c.decodeFreeSpace k ≤ c.fsi.pageSize
  le_encode_decode : ∀ k < 16, k ≤ (c.fsi.encodeFreeSpace (c.decodeFreeSpace k)).toNat

/-- The segment's pages and FSI, whatever latches a method holds: every allocated page is a
well-formed slotted page, its FSI entry is the category of its free space, the FSI cache is the
least one, and the page ids stay within 48 bits. -/
structure Consistent (s : SpSegment) : Prop where
  wf : ∀ t < s.fsi.allocatedPages, SlottedPage.Wf c.layout c.fsi.pageSize (s.pages t)
  synced : ∀ t < s.fsi.allocatedPages,
    FsiSegment.entry c.fsi s.fsi.pages t = (c.fsi.encodeFreeSpace (s.pages t).freeSpace).toNat
  cacheLeast : FsiSegment.CacheLeast c.fsi (FsiSegment.entry c.fsi s.fsi.pages) s.fsi.allocatedPages
    s.fsi.freeCache
  bounded : s.fsi.allocatedPages ≤ 2 ^ 48

/-- The segment between two methods: consistent, and no latch held. -/
structure Inv (s : SpSegment) extends Consistent c s : Prop where
  unlatched : ∀ t, s.latches t = .unlocked

/-- What the segment holds at a `TID`: the entry of the slot, on an allocated page. -/
def entries (s : SpSegment) (tid : Tid) : Option Entry :=
  if tid.pageId < s.fsi.allocatedPages then SlottedPage.view (s.pages tid.pageId) tid.slot else none

-- ============================================================ the exact encodings

/-- The record segment `segmentId` over pages of `2 ^ k` bytes laid out as `layout`, with its
FSI segment `fsiSegmentId` and the exact renderings of `encode_free_space` and
`decode_free_space`. -/
def exactConfig (layout : Layout) (fsiSegmentId segmentId k : Nat) : SpConfig :=
  ⟨FsiSegment.exactConfig fsiSegmentId k, layout, segmentId, FsiSegment.decodeFreeSpace k⟩

section exact

variable {layout : Layout} {fsiSegmentId segmentId k : Nat}

/-- For pages of at least 256 bytes whose logarithmic categories decode below half a page,
to a size whose 8th power reaches the category's bound, every category below `16` decodes
within the page, to a size that encodes back to that category or higher. -/
theorem decodeFreeSpace_within (hk : 8 ≤ k)
    (hlog : ∀ e < 8, 0 < e → FsiSegment.decodeFreeSpace k e < 2 ^ k / 2 ∧
      2 ^ (e * k) ≤ FsiSegment.decodeFreeSpace k e ^ 8) {e : Nat} (he : e < 16) :
    FsiSegment.decodeFreeSpace k e ≤ 2 ^ k ∧
      e ≤ (FsiSegment.encodeFreeSpace k (FsiSegment.decodeFreeSpace k e)).toNat := by
  rcases Nat.lt_or_ge e 8 with h8 | h8
  · rcases Nat.eq_zero_or_pos e with rfl | h0
    · exact ⟨Nat.zero_le _, Nat.zero_le _⟩
    · obtain ⟨hhalf, hpow⟩ := hlog e h8 h0
      exact ⟨hhalf.le.trans (Nat.div_le_self _ _), FsiSegment.le_encodeFreeSpace hk hhalf hpow⟩
  · obtain ⟨hle, heq⟩ := FsiSegment.encodeFreeSpace_decode_linear hk h8 he
    exact ⟨hle, heq.ge⟩

/-- The exact encodings keep `Encoding` for pages of at least 256 bytes whose logarithmic
categories decode below half a page, to a size whose 8th power reaches the category's
bound. -/
theorem exactConfig_encoding (hk : 8 ≤ k)
    (hlog : ∀ e < 8, 0 < e → FsiSegment.decodeFreeSpace k e < 2 ^ k / 2 ∧
      2 ^ (e * k) ≤ FsiSegment.decodeFreeSpace k e ^ 8) :
    Encoding (exactConfig layout fsiSegmentId segmentId k) where
  mono _ _ hab hb := FsiSegment.encodeFreeSpace_mono hk hab hb
  lt_sixteen _ ha := FsiSegment.encodeFreeSpace_lt_sixteen hk ha
  decode_le _ he := (decodeFreeSpace_within hk hlog he).1
  le_encode_decode _ he := (decodeFreeSpace_within hk hlog he).2

/-- On one-kilobyte pages the exact encodings keep `Encoding`. -/
theorem exactConfig_encoding_1024 : Encoding (exactConfig layout fsiSegmentId segmentId 10) :=
  exactConfig_encoding (by norm_num) (by decide)

end exact

-- ============================================================ a segment of three pages

/-- One-kilobyte pages, a 12-byte header and 8-byte slots, FSI segment `0`, record segment
`1`, and the exact encodings. -/
def demoConfig : SpConfig := exactConfig ⟨12, 8⟩ 0 1 10

/-- Page 0: a 10-byte record, a cleared slot and a 386-byte record, 592 bytes free. -/
def demoPage0 : SlottedPage :=
  ⟨3, 1, 628, 592, fun s => if s = 0 then .record 1014 10 false else if s = 2 then .record 628 386 false
    else .empty, fun _ => 0⟩

/-- Page 1: a redirect to page 2, 1004 bytes free. -/
def demoPage1 : SlottedPage :=
  ⟨1, 1, 1024, 1004, fun s => if s = 0 then .redirect ⟨2, 0⟩ else .empty, fun _ => 0⟩

/-- Page 2: the 700-byte target of the redirect and a 200-byte record, 96 bytes free. -/
def demoPage2 : SlottedPage :=
  ⟨2, 2, 124, 96, fun s => if s = 0 then .record 324 700 true else if s = 1 then .record 124 200 false
    else .empty, fun _ => 0⟩

/-- The three pages, no latch held, and the FSI told of each: categories `9`, `15` and `5`
in the first two bytes of FSI page `0`, each the cache entry of its category. -/
def demoSegment : SpSegment :=
  ⟨fun t => if t = 0 then demoPage0 else if t = 1 then demoPage1 else demoPage2,
    fun _ => .unlocked,
    ⟨fun p o => if p = 0 ∧ o = 0 then 0x9F else if p = 0 ∧ o = 1 then 0x50 else 0,
      fun k => if k = 9 then 0 else if k = 15 then 1 else if k = 5 then 2 else 2 ^ 64 - 1, 3⟩⟩

theorem demoConfig_encoding : Encoding demoConfig := exactConfig_encoding_1024

/-- Page 2's 96 free bytes are category `5`: `2 ^ 52 ≤ 96 ^ 8 < 2 ^ 53`. -/
theorem demo_encode_ninetySix : (demoConfig.fsi.encodeFreeSpace 96).toNat = 5 := by
  rw [show demoConfig.fsi.encodeFreeSpace 96 = FsiSegment.encodeFreeSpace 10 96 from rfl,
    FsiSegment.encodeFreeSpace_toNat (by norm_num) (by norm_num), if_pos (by norm_num),
    Nat.log_eq_of_pow_le_of_lt_pow (show 2 ^ 52 ≤ 96 ^ 8 by norm_num) (by norm_num)]

theorem demoPage0_wf : SlottedPage.Wf demoConfig.layout demoConfig.fsi.pageSize demoPage0 where
  directory_le := by decide
  dataStart_add_used := by decide
  inside s hs b hb := by
    change s < 3 at hs
    show 628 ≤ b ∧ b < 1024
    interval_cases s <;> simp [demoPage0, Slot.Covers] at hb ⊢ <;> omega
  disjoint s hs t ht hst b hb hb' := by
    change s < 3 at hs
    change t < 3 at ht
    interval_cases s <;> interval_cases t <;> simp_all [demoPage0, Slot.Covers] <;> omega
  freeSpace_eq := by decide
  freeSlots := by
    refine ⟨by decide, fun s hs => ?_, fun _ => rfl, fun n hn => ?_⟩
    · change s < 1 at hs
      interval_cases s; rfl
    · change 3 = n + 1 at hn
      cases hn; rfl

theorem demoPage1_wf : SlottedPage.Wf demoConfig.layout demoConfig.fsi.pageSize demoPage1 where
  directory_le := by decide
  dataStart_add_used := by decide
  inside s hs b hb := by
    change s < 1 at hs
    interval_cases s; exact absurd hb id
  disjoint s hs t ht hst := by
    change s < 1 at hs
    change t < 1 at ht
    omega
  freeSpace_eq := by decide
  freeSlots := by
    refine ⟨by decide, fun s hs => ?_, fun h => absurd h (by decide), fun n hn => ?_⟩
    · change s < 1 at hs
      interval_cases s; rfl
    · change 1 = n + 1 at hn
      cases hn; rfl

theorem demoPage2_wf : SlottedPage.Wf demoConfig.layout demoConfig.fsi.pageSize demoPage2 where
  directory_le := by decide
  dataStart_add_used := by decide
  inside s hs b hb := by
    change s < 2 at hs
    show 124 ≤ b ∧ b < 1024
    interval_cases s <;> simp [demoPage2, Slot.Covers] at hb ⊢ <;> omega
  disjoint s hs t ht hst b hb hb' := by
    change s < 2 at hs
    change t < 2 at ht
    interval_cases s <;> interval_cases t <;> simp_all [demoPage2, Slot.Covers] <;> omega
  freeSpace_eq := by decide
  freeSlots := by
    refine ⟨by decide, fun s hs => ?_, fun h => absurd h (by decide), fun n hn => ?_⟩
    · change s < 2 at hs
      interval_cases s <;> rfl
    · change 2 = n + 1 at hn
      cases hn; rfl

/-- The segment of three pages keeps the invariant: its pages are well formed, and the FSI
holds their categories and the first page of each. -/
theorem demoSegment_inv : Inv demoConfig demoSegment where
  wf t ht := by
    change t < 3 at ht
    interval_cases t
    exacts [demoPage0_wf, demoPage1_wf, demoPage2_wf]
  synced t ht := by
    change t < 3 at ht
    interval_cases t
    · decide
    · decide
    · rw [show (demoSegment.pages 2).freeSpace = 96 from rfl, demo_encode_ninetySix]; decide
  cacheLeast := by unfold FsiSegment.CacheLeast; decide
  unlatched _ := rfl
  bounded := by decide

-- ============================================================ the FSI's answers

theorem pageId_mask {idx : Nat} (h : idx < 2 ^ 48) : pageId c idx &&& 0x0000FFFFFFFFFFFF = idx :=
  BTree.getSegmentPageId_pidAt h

/-- `fsi.update` of a page id writes the entry of its page index. -/
theorem update_pageId (s : FsiSegment) {idx : Nat} (h : idx < 2 ^ 48) (fs : Nat) :
    s.update c.fsi (pageId c idx) fs = s.update c.fsi idx fs := by
  unfold FsiSegment.update
  rw [pageId_mask c h, FsiSegment.mask_of_lt h]

/-- The search of `find` returns a cache entry of a category from `ci` on. -/
theorem findFrom_some (s : FsiSegment) : ∀ fuel ci t, FsiSegment.findFrom c.fsi s fuel ci = some t →
    ∃ k, ci ≤ k ∧ k < 16 ∧ s.freeCache k = t ∧ t ≠ c.fsi.invalidPid
  | 0, _, _, h => absurd h (by simp [FsiSegment.findFrom])
  | fuel + 1, ci, t, h => by
    unfold FsiSegment.findFrom at h
    split at h
    · split at h
      · exact ⟨ci, le_rfl, ‹_›, Option.some.inj h, fun he => ‹¬ _› (Option.some.inj h ▸ he)⟩
      · obtain ⟨k, hk, hk16, hkt, hinv⟩ := findFrom_some s fuel (ci + 1) t h
        exact ⟨k, by omega, hk16, hkt, hinv⟩
    · cases h

/-- Over a least cache, a page `find` returns is allocated and has the required category or
a higher one. -/
theorem find_some {s : FsiSegment}
    (hc : FsiSegment.CacheLeast c.fsi (FsiSegment.entry c.fsi s.pages) s.allocatedPages s.freeCache)
    {r t : Nat} (h : s.find c.fsi r = .ok (some t)) :
    t < s.allocatedPages ∧ (c.fsi.encodeFreeSpace r).toNat ≤ FsiSegment.entry c.fsi s.pages t := by
  unfold FsiSegment.find at h
  dsimp only at h
  split at h
  · cases h
  obtain ⟨k, hk, hk16, hkt, hinv⟩ := findFrom_some c s 16 _ t (Except.ok.inj h)
  rcases hc k hk16 with ⟨hlt, hek, -⟩ | ⟨hi, -⟩
  · rw [hkt] at hlt hek; exact ⟨hlt, hek ▸ hk⟩
  · exact absurd (hkt ▸ hi) hinv

theorem find_ok {s : FsiSegment} {r : Nat} (hr : (c.fsi.encodeFreeSpace r).toNat < 16) :
    ∃ o, s.find c.fsi r = .ok o :=
  ⟨_, if_neg (not_not.mpr hr)⟩

-- ============================================================ the choice of page

section select

variable {s : SpSegment}

theorem pickPage_some {t : Nat} (hl : s.latches t = .unlocked) :
    pickPage c (some t) s = .ok (t, false) { s with latches := Function.update s.latches t .exclusive } := by
  rw [pickPage, run_bind_ok (show choosePage (some t) s = .ok (t, false) s from rfl)]
  dsimp only
  rw [run_bind_ok (fixPage_ok (by rw [hl]; rfl))]
  rfl

theorem pickPage_none (hl : s.latches s.fsi.allocatedPages = .unlocked) :
    pickPage c none s = .ok (s.fsi.allocatedPages, true)
      ⟨Function.update s.pages s.fsi.allocatedPages (SlottedPage.new c.layout c.fsi.pageSize),
        Function.update s.latches s.fsi.allocatedPages .exclusive,
        { s.fsi with allocatedPages := s.fsi.allocatedPages + 1 }⟩ := by
  rw [pickPage, run_bind_ok (show choosePage none s = .ok (s.fsi.allocatedPages, true)
    { s with fsi := { s.fsi with allocatedPages := s.fsi.allocatedPages + 1 } } from rfl)]
  dsimp only
  rw [run_bind_ok (fixPage_ok (by dsimp only; rw [hl]; rfl))]
  rfl

/-- A page held by the thread: `allocate` ends on it. -/
theorem pickPage_latched {t : Nat} (hl : s.latches t ≠ .unlocked) :
    pickPage c (some t) s = .error (latchError t (s.latches t)) s := by
  rw [pickPage, run_bind_ok (show choosePage (some t) s = .ok (t, false) s from rfl)]
  refine run_bind_error (fixPage_latched ?_)
  cases h : s.latches t
  · exact absurd h hl
  all_goals rfl

/-- The page `allocate` picks, fixed exclusively with room for the record and its slot: an
allocated page or the new one. It ends early only on a page the thread holds. -/
theorem selectPage_cases {size : Nat} (he : Encoding c) (hc : Consistent c s)
    (hl : ∀ t, s.fsi.allocatedPages ≤ t → s.latches t = .unlocked)
    (hfit : size + c.layout.slotSize + c.layout.headerSize ≤ c.fsi.pageSize) :
    (∃ p s1, selectPage c size s = .error (latchError p (s.latches p)) s1 ∧ s.latches p ≠ .unlocked) ∨
    ∃ idx s1, selectPage c size s = .ok idx s1 ∧ s.latches idx = .unlocked ∧
      s1.latches = Function.update s.latches idx .exclusive ∧
      size + c.layout.slotSize ≤ (s1.pages idx).freeSpace ∧
      ((idx < s.fsi.allocatedPages ∧ s1.pages = s.pages ∧ s1.fsi = s.fsi) ∨
       (idx = s.fsi.allocatedPages ∧
        s1.pages = Function.update s.pages idx (SlottedPage.new c.layout c.fsi.pageSize) ∧
        s1.fsi = { s.fsi with allocatedPages := idx + 1 })) := by
  have hci := he.lt_sixteen (size + c.layout.slotSize) (by omega)
  have hnew : size + c.layout.slotSize ≤ (SlottedPage.new c.layout c.fsi.pageSize).freeSpace := by
    show _ ≤ c.fsi.pageSize - c.layout.headerSize; omega
  -- a created page: the page at `allocated_pages`, new and fixed
  have hcreated : ∃ s1, (pickPage c none >>= fun d => pure d.1) s = .ok s.fsi.allocatedPages s1 ∧
      s1.latches = Function.update s.latches s.fsi.allocatedPages .exclusive ∧
      size + c.layout.slotSize ≤ (s1.pages s.fsi.allocatedPages).freeSpace ∧
      s1.pages = Function.update s.pages s.fsi.allocatedPages (SlottedPage.new c.layout c.fsi.pageSize) ∧
      s1.fsi = { s.fsi with allocatedPages := s.fsi.allocatedPages + 1 } :=
    ⟨_, run_bind_ok (pickPage_none c (hl _ le_rfl)), rfl,
      by dsimp only; rw [Function.update_same]; exact hnew, rfl, rfl⟩
  obtain ⟨o, hfind⟩ := find_ok c (s := s.fsi) hci
  rw [selectPage, run_bind_ok (findFsi_ok c hfind)]
  cases o with
  | none =>
    rw [run_bind_ok (pickPage_none c (hl _ le_rfl))]
    dsimp only
    rw [run_bind_ok (show getPage _ _ = .ok _ _ from rfl)]
    dsimp only
    rw [Function.update_same, if_neg (not_lt.mpr hnew)]
    exact .inr ⟨_, _, rfl, hl _ le_rfl, rfl, by dsimp only; rw [Function.update_same]; exact hnew,
      .inr ⟨rfl, rfl, rfl⟩⟩
  | some t =>
    obtain ⟨ht, hent⟩ := find_some c hc.cacheLeast hfind
    by_cases hlt : s.latches t = .unlocked
    swap
    · exact .inl ⟨t, s, run_bind_error (pickPage_latched c hlt), hlt⟩
    rw [run_bind_ok (pickPage_some c hlt)]
    dsimp only
    rw [run_bind_ok (show getPage _ _ = .ok _ _ from rfl)]
    by_cases hfree : (s.pages t).freeSpace < size + c.layout.slotSize
    · -- too full: back to `s`, then the next category or a new page
      rw [if_pos hfree, run_bind_ok (show check (!false) "!created" _ = .ok () _ from rfl),
        run_bind_ok (unfixPage_fixed (l := .exclusive) hlt rfl)]
      split_ifs with hn
      · have hci' := he.lt_sixteen _ (he.decode_le _ hn)
        obtain ⟨o', hfind'⟩ := find_ok c (s := s.fsi) hci'
        rw [run_bind_ok (findFsi_ok c hfind')]
        cases o' with
        | none =>
          obtain ⟨s1, h1, h2, h3, h4, h5⟩ := hcreated
          exact .inr ⟨_, s1, h1, hl _ le_rfl, h2, h3, .inr ⟨rfl, h4, h5⟩⟩
        | some t' =>
          obtain ⟨ht', hent'⟩ := find_some c hc.cacheLeast hfind'
          by_cases hlt' : s.latches t' = .unlocked
          swap
          · exact .inl ⟨t', s, run_bind_error (pickPage_latched c hlt'), hlt'⟩
          have hcat := he.le_encode_decode _ hn
          rw [hc.synced t' ht'] at hent'
          have hfree' : size + c.layout.slotSize ≤ (s.pages t').freeSpace := by
            by_contra hlt
            have := he.mono _ _ (le_of_lt (not_le.mp hlt)) (by omega)
            omega
          exact .inr ⟨t', _, run_bind_ok (pickPage_some c hlt'), hlt', rfl, hfree',
            .inl ⟨ht', rfl, rfl⟩⟩
      · obtain ⟨s1, h1, h2, h3, h4, h5⟩ := hcreated
        exact .inr ⟨_, s1, run_bind_ok (show (pure none : SpM (Option Nat)) s = .ok none s from rfl) ▸ h1,
          hl _ le_rfl, h2, h3, .inr ⟨rfl, h4, h5⟩⟩
    · rw [if_neg hfree]
      exact .inr ⟨_, _, rfl, hlt, rfl, not_lt.mp hfree, .inl ⟨ht, rfl, rfl⟩⟩

end select

-- ============================================================ the record stored

/-- The page's `allocate` succeeds when the page has room for the record and a slot. -/
theorem page_allocate_ok {p : SlottedPage} {size : Nat} (isRedirectTarget : Bool) (tmp : SlottedPage)
    (h : size + c.layout.slotSize ≤ p.freeSpace) :
    ∃ page sid, p.allocate c.layout size c.fsi.pageSize isRedirectTarget tmp = .ok (page, sid) := by
  have : size + SlottedPage.slotCost c.layout p ≤ p.freeSpace := by
    unfold SlottedPage.slotCost; split_ifs <;> omega
  exact ⟨_, _, by rw [SlottedPage.allocate, if_neg (not_not.mpr this)]; rfl⟩

theorem storeRecord_ok {s : SpSegment} {idx size sid : Nat} {isRedirectTarget : Bool}
    {tmp page : SlottedPage}
    (h : (s.pages idx).allocate c.layout size c.fsi.pageSize isRedirectTarget tmp = .ok (page, sid)) :
    storeRecord c idx size isRedirectTarget tmp s = .ok ⟨idx, sid⟩
      ⟨Function.update s.pages idx page, Function.update s.latches idx (s.latches idx).unlock,
        s.fsi.update c.fsi (pageId c idx) page.freeSpace⟩ := by
  rw [storeRecord, run_bind_ok (show getPage idx s = .ok (s.pages idx) s from rfl)]
  simp only [h, liftAssert]
  rfl

theorem view_new (L : Layout) (pageSize s : Nat) : SlottedPage.view (SlottedPage.new L pageSize) s = none :=
  SlottedPage.view_of_le (Nat.zero_le _)

-- ============================================================ a page written back

section write

variable {c} {s : SpSegment} {idx : Nat} {p : SlottedPage}

/-- A page written back at an allocated index, the FSI told of its free space, on a segment
that is consistent at every other page and whose cache is the least one but for that page's
entry: the segment is consistent. -/
theorem Consistent.of_write (he : Encoding c)
    (hwf : ∀ t < s.fsi.allocatedPages, t ≠ idx → SlottedPage.Wf c.layout c.fsi.pageSize (s.pages t))
    (hsync : ∀ t < s.fsi.allocatedPages, t ≠ idx →
      FsiSegment.entry c.fsi s.fsi.pages t = (c.fsi.encodeFreeSpace (s.pages t).freeSpace).toNat)
    (hcl : ∃ eo, FsiSegment.CacheLeast c.fsi eo s.fsi.allocatedPages s.fsi.freeCache ∧
      ∀ u, u ≠ idx → FsiSegment.entry c.fsi s.fsi.pages u = eo u)
    (hidx : idx < s.fsi.allocatedPages) (hb : s.fsi.allocatedPages ≤ 2 ^ 48)
    (hw : SlottedPage.Wf c.layout c.fsi.pageSize p) :
    Consistent c { s with
      pages := Function.update s.pages idx p
      fsi := s.fsi.update c.fsi (pageId c idx) p.freeSpace } := by
  have h48 : idx < 2 ^ 48 := lt_of_lt_of_le hidx hb
  have henc := he.lt_sixteen p.freeSpace (by have := hw.freeSpace_eq; omega)
  have hentry := FsiSegment.entry_update c.fsi s.fsi (pageId c idx) p.freeSpace henc
  rw [pageId_mask c h48] at hentry
  obtain ⟨eo, hcl, hold⟩ := hcl
  refine ⟨fun t ht => ?_, fun t ht => ?_, ?_, hb⟩
  · dsimp only at ht ⊢
    by_cases hti : t = idx
    · rw [hti, Function.update_same]; exact hw
    · rw [Function.update_noteq hti]; exact hwf t ht hti
  · dsimp only at ht ⊢
    rw [hentry]
    by_cases hti : t = idx
    · rw [if_pos hti, hti, Function.update_same]
    · rw [if_neg hti, Function.update_noteq hti]; exact hsync t ht hti
  · have := FsiSegment.update_cacheLeast c.fsi hcl hidx hb henc hold
    rwa [← update_pageId c _ h48] at this

/-- A page put back well formed, with the FSI told of its free space, keeps the segment
consistent. -/
theorem Consistent.setPage (he : Encoding c) (hc : Consistent c s) (hidx : idx < s.fsi.allocatedPages)
    (hw : SlottedPage.Wf c.layout c.fsi.pageSize p) :
    Consistent c { s with
      pages := Function.update s.pages idx p
      fsi := s.fsi.update c.fsi (pageId c idx) p.freeSpace } :=
  Consistent.of_write he (fun t ht _ => hc.wf t ht) (fun t ht _ => hc.synced t ht)
    ⟨_, hc.cacheLeast, fun _ _ => rfl⟩ hidx hc.bounded hw

/-- A page written back at an allocated index, with one slot's entry changed from what the
segment held there: the segment's entries change at that slot's `TID` and no other. -/
theorem entries_of_write {s' : SpSegment} {sid : Nat} {e : Option Entry}
    (hlt : ∀ t, t ≠ idx → (t < s'.fsi.allocatedPages ↔ t < s.fsi.allocatedPages))
    (hidx : idx < s'.fsi.allocatedPages) (hother : ∀ t, t ≠ idx → s'.pages t = s.pages t)
    (hv : SlottedPage.view (s'.pages idx) = Function.update (fun u => entries s ⟨idx, u⟩) sid e) :
    entries s' = Function.update (entries s) ⟨idx, sid⟩ e := by
  funext t
  by_cases ht : t.pageId = idx
  · obtain ⟨pg, sl⟩ := t
    dsimp only at ht
    subst ht
    rw [entries, if_pos hidx, hv]
    by_cases hs : sl = sid
    · rw [hs, Function.update_same, Function.update_same]
    · rw [Function.update_noteq hs, Function.update_noteq fun h => hs (Tid.mk.inj h).2]
  · rw [Function.update_noteq fun h => ht (by rw [h]), entries, entries, hother _ ht]
    exact if_congr (hlt _ ht) rfl rfl

/-- A page put back in place of an allocated one, with one slot's entry changed, changes the
segment's entry at that slot's `TID` and no other. -/
theorem entries_setPage (hidx : idx < s.fsi.allocatedPages) {sid : Nat} {e : Option Entry}
    (hv : SlottedPage.view p = Function.update (SlottedPage.view (s.pages idx)) sid e) :
    entries { s with pages := Function.update s.pages idx p } =
      Function.update (entries s) ⟨idx, sid⟩ e :=
  entries_of_write (fun _ _ => Iff.rfl) hidx (fun _ ht => Function.update_noteq ht _ _) (by
    show SlottedPage.view (Function.update s.pages idx p idx) = _
    have hold : SlottedPage.view (s.pages idx) = fun u => entries s ⟨idx, u⟩ :=
      funext fun _ => (if_pos hidx).symm
    rw [Function.update_same, hv, hold])

end write

/-- `allocate` of a record that fits an empty page, on a consistent segment within `2 ^ 48`
pages whose unallocated pages are free, and under an encoding that keeps `Encoding`, never
fails an `assert`: it ends on a page the thread holds (`latchError`), or it returns a `TID` on
a page it did not hold and that held nothing, adds there a record of the asked size and no
other entry, keeps the segment consistent, the FSI told of the page it wrote, and gives back
every latch it took. -/
theorem allocate_cases {s : SpSegment} {size : Nat} (he : Encoding c) (hc : Consistent c s)
    (hl : ∀ t, s.fsi.allocatedPages ≤ t → s.latches t = .unlocked)
    (hfit : size + c.layout.slotSize + c.layout.headerSize ≤ c.fsi.pageSize)
    (hb : s.fsi.allocatedPages < 2 ^ 48) (isRedirectTarget : Bool) (tmp : SlottedPage) :
    (∃ p s', allocate c size isRedirectTarget tmp s = .error (latchError p (s.latches p)) s' ∧
      s.latches p ≠ .unlocked) ∨
    ∃ tid s', allocate c size isRedirectTarget tmp s = .ok tid s' ∧ Consistent c s' ∧
      s'.latches = s.latches ∧ s.latches tid.pageId = .unlocked ∧
      s.fsi.allocatedPages ≤ s'.fsi.allocatedPages ∧ (∀ t, t ≠ tid.pageId → s'.pages t = s.pages t) ∧
      entries s tid = none ∧ ∃ bytes : List UInt8, bytes.length = size ∧
        entries s' = Function.update (entries s) tid (some (.record bytes isRedirectTarget)) := by
  rcases selectPage_cases c he hc hl hfit with ⟨p, s1, hsel, hp⟩ | ⟨idx, s1, hsel, hunl, hlat, hroom, hcase⟩
  · exact .inl ⟨p, s1, by rw [allocate, run_bind_error hsel], hp⟩
  right
  -- the chosen page: an allocated page of the segment or the new one
  have hfsi : s1.fsi.pages = s.fsi.pages := by rcases hcase with ⟨-, -, h⟩ | ⟨-, -, h⟩ <;> rw [h]
  have halloc : s1.fsi.allocatedPages = s.fsi.allocatedPages ∨
      (idx = s.fsi.allocatedPages ∧ s1.fsi.allocatedPages = idx + 1) := by
    rcases hcase with ⟨-, -, h⟩ | ⟨hi', -, h⟩
    · exact .inl (by rw [h])
    · exact .inr ⟨hi', by rw [h]⟩
  have hidx : idx < s1.fsi.allocatedPages := by
    rcases hcase with ⟨h1, -, h⟩ | ⟨-, -, h⟩
    · rw [h]; exact h1
    · rw [h]; exact Nat.lt_succ_self idx
  have hother : ∀ t, t ≠ idx → s1.pages t = s.pages t := fun t ht => by
    rcases hcase with ⟨-, h, -⟩ | ⟨-, h, -⟩ <;> rw [h]
    exact Function.update_noteq ht _ _
  have hwf1 : SlottedPage.Wf c.layout c.fsi.pageSize (s1.pages idx) := by
    rcases hcase with ⟨h1, h, -⟩ | ⟨-, h, -⟩
    · rw [h]; exact hc.wf idx h1
    · rw [h, Function.update_same]; exact SlottedPage.wf_new c.layout (by omega)
  obtain ⟨page, sid, hpa⟩ := page_allocate_ok c isRedirectTarget tmp hroom
  obtain ⟨hfresh, -, bytes, hlen, hview⟩ := SlottedPage.allocate_view c.layout hwf1 hpa
  have hwfp := (SlottedPage.allocate_wf c.layout hwf1 hpa).1
  -- the pages of `s1` but the chosen one are allocated exactly when they are in `s`
  have hlt : ∀ t, t ≠ idx → (t < s1.fsi.allocatedPages ↔ t < s.fsi.allocatedPages) := fun t ht => by
    rcases halloc with h | ⟨h1, h2⟩ <;> omega
  -- the chosen page written back: every other page as it was, and the cache least but there
  have hcl : ∃ eo, FsiSegment.CacheLeast c.fsi eo s1.fsi.allocatedPages s1.fsi.freeCache ∧
      ∀ u, u ≠ idx → FsiSegment.entry c.fsi s1.fsi.pages u = eo u := by
    rcases hcase with ⟨-, -, h⟩ | ⟨h1, -, h⟩
    · exact ⟨_, h ▸ hc.cacheLeast, fun _ _ => rfl⟩
    · refine ⟨_, by rw [h, h1]; exact hc.cacheLeast.extend, fun u hu => ?_⟩
      rw [hfsi, if_neg (h1 ▸ hu)]
  have hc' := Consistent.of_write he
    (s := { s1 with latches := Function.update s1.latches idx (s1.latches idx).unlock })
    (fun t ht hti => hother t hti ▸ hc.wf t ((hlt t hti).mp ht))
    (fun t ht hti => by dsimp only; rw [hfsi, hother t hti]; exact hc.synced t ((hlt t hti).mp ht))
    hcl hidx (show s1.fsi.allocatedPages ≤ 2 ^ 48 by
      have := hc.bounded; rcases halloc with h | ⟨h1, h2⟩ <;> omega) hwfp
  refine ⟨⟨idx, sid⟩, _, by rw [allocate, run_bind_ok hsel, storeRecord_ok c hpa], hc',
    ?_, hunl, ?_, fun t ht => ?_, ?_, bytes, hlen, ?_⟩
  · -- the latches are given back
    show Function.update s1.latches idx (s1.latches idx).unlock = s.latches
    rw [hlat]
    exact latches_unfix hunl rfl
  · -- no page is given up
    show s.fsi.allocatedPages ≤ (s1.fsi.update c.fsi _ _).allocatedPages
    rw [FsiSegment.update_allocatedPages]
    rcases halloc with h | ⟨h1, h2⟩ <;> omega
  · -- no other page is written
    show Function.update s1.pages idx page t = s.pages t
    rw [Function.update_noteq (show t ≠ idx from ht), hother t ht]
  · -- the `TID` held nothing
    show (if idx < s.fsi.allocatedPages then _ else none) = none
    split_ifs with h
    · rcases hcase with ⟨-, hp, -⟩ | ⟨h1, -, -⟩
      · rw [← hp]; exact hfresh
      · omega
    · rfl
  · -- one entry more
    refine entries_of_write (fun t ht => ?_) hidx
      (fun t ht => (Function.update_noteq ht page s1.pages).trans (hother t ht)) ?_
    · show t < (s1.fsi.update c.fsi _ _).allocatedPages ↔ _
      rw [FsiSegment.update_allocatedPages]; exact hlt t ht
    · show SlottedPage.view (Function.update s1.pages idx page idx) = _
      have hold : SlottedPage.view (s1.pages idx) = fun u => entries s ⟨idx, u⟩ := funext fun u => by
        show _ = if idx < s.fsi.allocatedPages then _ else none
        rcases hcase with ⟨h1, hp, -⟩ | ⟨h1, hp, -⟩
        · rw [if_pos h1, hp]
        · rw [if_neg (show ¬ idx < s.fsi.allocatedPages by omega), hp, Function.update_same, view_new]
      rw [Function.update_same, hview, hold]

/-- `allocate` of a record that fits an empty page, on a segment within `2 ^ 48` pages and under
an encoding that keeps `Encoding`, never fails an `assert` and never blocks: it returns a
`TID` that held nothing, adds there a record of the asked size and no other entry, and keeps
the invariant, the FSI told of the page it wrote. -/
theorem allocate_spec {s : SpSegment} {size : Nat} (he : Encoding c) (hi : Inv c s)
    (hfit : size + c.layout.slotSize + c.layout.headerSize ≤ c.fsi.pageSize)
    (hb : s.fsi.allocatedPages < 2 ^ 48) (isRedirectTarget : Bool) (tmp : SlottedPage) :
    ∃ tid s', allocate c size isRedirectTarget tmp s = .ok tid s' ∧ Inv c s' ∧ entries s tid = none ∧
      ∃ bytes : List UInt8, bytes.length = size ∧
        entries s' = Function.update (entries s) tid (some (.record bytes isRedirectTarget)) := by
  rcases allocate_cases c he hi.toConsistent (fun t _ => hi.unlatched t) hfit hb isRedirectTarget tmp with
    ⟨p, s', -, hp⟩ | ⟨tid, s', hrun, hc', hlat, -, -, -, hfresh, hnew⟩
  · exact absurd (hi.unlatched p) hp
  · exact ⟨tid, s', hrun, ⟨hc', fun t => by rw [hlat]; exact hi.unlatched t⟩, hfresh, hnew⟩

/-- A 100-byte record into the segment of three pages: `find(108)` answers page 2, of
category `5` with 96 bytes free, which turns out too full; from category `6` (182 bytes) up
the FSI names page 0, where the record goes. -/
theorem allocate_spec_demo :
    Encoding demoConfig ∧ Inv demoConfig demoSegment ∧
      100 + demoConfig.layout.slotSize + demoConfig.layout.headerSize ≤ demoConfig.fsi.pageSize ∧
      demoSegment.fsi.allocatedPages < 2 ^ 48 ∧
      ∃ tid s', allocate demoConfig 100 false demoPage0 demoSegment = .ok tid s' ∧
        Inv demoConfig s' ∧ entries demoSegment tid = none ∧
        ∃ bytes : List UInt8, bytes.length = 100 ∧
          entries s' = Function.update (entries demoSegment) tid (some (.record bytes false)) :=
  ⟨demoConfig_encoding, demoSegment_inv, by decide, by decide,
    allocate_spec demoConfig demoConfig_encoding demoSegment_inv (by decide) (by decide) false demoPage0⟩

end SpSegment

end SimpleDb

