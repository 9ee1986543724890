import SimpleDb.Buffer.Manager

/-!
The free space inventory of `fsi_segment.cc`: one 4-bit entry per page of a table, packed two
to a byte in the pages of the FSI segment, and the cache of the first page of each category.

# What is modelled

An `FsiSegment` is the bytes of its FSI pages by page id (what the buffer manager hands out
for them; the fixes and unfixes around each access always succeed here), `free_cache`, and
the table's `allocated_pages`. The declaration of `FSISegment` sits in `segment.h`, which is
not among the sources: its `invalidPid` is a parameter of the configuration (`FsiConfig`),
as are the page size and `encode_free_space`. `encodeFreeSpace` and `decodeFreeSpace` render
`encode_free_space` and `decode_free_space` in exact arithmetic for pages of `2 ^ k` bytes
(`exactConfig`): monotone, below `16` up to a page, and a decoded category encodes back to
itself or above.

The entry of page `t` is nibble `t mod 2P` of FSI page `t / 2P` (`P` the page size): the
upper nibble of byte `(t mod 2P) / 2` for an even `t mod 2P`, the lower nibble otherwise
(`entry`). The constructor reads the nibbles a byte at a time, `update_free_cache` a nibble
at a time; both are their loops here, with fuel bounding the turns.

# The invariant

`free_cache[k]` is the least page index below `allocated_pages` whose entry is `k`, or
`invalidPid` when no page has entry `k` (`CacheLeast`). The constructor establishes it
(`cacheLeast_new`); an update keeps it whatever category the page had before
(`updateFreeCache_cacheLeast`), which covers the update of a page just allocated, whose old
entry counts for no category; and `find` answers from it (`find_eq_none_iff`).

# Where it holds

`update` masks its target with `0x0000FFFFFFFFFFFF`, the page bits of a page id, so a page
index from `2^48` on writes the entry of another page, and the allocation of page `2^48`
leaves the category that page had without its cache entry
(`fsi_update_masks_and_find_asserts`); `invalidPid` must be no allocated page index; and
`find` asserts that the request's category is below `16`. Within these bounds the invariant
holds over every run (`fsi_free_cache_least`).
-/

namespace SimpleDb

/-- What an `FSISegment` is built over: its segment id, the page size `get_page_size()`,
`invalidPid` (declared in `segment.h`), which is no page index of the 48 page bits of a page
id, and `encode_free_space`. -/
structure FsiConfig where
  segmentId : Nat
  pageSize : Nat
  pageSize_pos : 0 < pageSize
  invalidPid : Nat
  invalidPid_ge : 2 ^ 48 ≤ invalidPid
  encodeFreeSpace : Nat → UInt8

/-- `FSISegment`'s state: the bytes of its FSI pages by page id, `free_cache` (slots `0` to
`15`), and the table's `allocated_pages`. -/
structure FsiSegment where
  pages : Pid → Nat → UInt8
  freeCache : Nat → Nat
  allocatedPages : Nat

namespace FsiSegment

-- ============================================================ entries

/-- The upper nibble of a byte, `byte >> 4`. -/
def upper (b : UInt8) : Nat := (b >>> 4).toNat

/-- The lower nibble of a byte, `byte & 0b00001111`. -/
def lower (b : UInt8) : Nat := (b &&& 15).toNat

/-- Nibble `fsiOffset` of an FSI page: the upper nibble of byte `fsiOffset / 2` when
`fsiOffset` is even, its lower nibble otherwise. -/
def nibbleAt (b : Nat → UInt8) (fsiOffset : Nat) : Nat :=
  if fsiOffset % 2 = 0 then upper (b (fsiOffset / 2)) else lower (b (fsiOffset / 2))

-- ============================================================ nibbles

theorem toNat_shiftRight_four (b : UInt8) : (b >>> 4).toNat = b.toNat >>> 4 :=
  BitVec.toNat_ushiftRight _ _

theorem toNat_shiftLeft_four (b : UInt8) : (b <<< 4).toNat = (b.toNat <<< 4) % 2 ^ 8 :=
  BitVec.toNat_shiftLeft

theorem toNat_or (a b : UInt8) : (a ||| b).toNat = a.toNat ||| b.toNat :=
  BitVec.toNat_or _ _

section nibbles

variable (v e : UInt8)

theorem upper_writeUpper (he : e.toNat < 16) : upper ((v &&& (15 : UInt8)) ||| (e <<< (4 : UInt8))) = e.toNat := by
  refine Nat.eq_of_testBit_eq fun i => ?_
  rw [upper, toNat_shiftRight_four, toNat_or, UInt8.and_toNat, toNat_shiftLeft_four,
    show (15 : UInt8).toNat = 2 ^ 4 - 1 from rfl, Nat.testBit_shiftRight, Nat.testBit_or,
    Nat.testBit_and, Nat.testBit_two_pow_sub_one, Nat.testBit_mod_two_pow, Nat.testBit_shiftLeft]
  by_cases hi : i < 4
  · simp [hi, show 4 + i < 8 by omega]
  · simp [hi, testBit_of_lt_two_pow (show e.toNat < 2 ^ 4 from he) (not_lt.mp hi)]

theorem lower_writeUpper : lower ((v &&& (15 : UInt8)) ||| (e <<< (4 : UInt8))) = lower v := by
  refine Nat.eq_of_testBit_eq fun i => ?_
  rw [lower, lower, UInt8.and_toNat, UInt8.and_toNat, toNat_or, UInt8.and_toNat, toNat_shiftLeft_four,
    show (15 : UInt8).toNat = 2 ^ 4 - 1 from rfl, Nat.testBit_and, Nat.testBit_and, Nat.testBit_or,
    Nat.testBit_and, Nat.testBit_two_pow_sub_one, Nat.testBit_mod_two_pow, Nat.testBit_shiftLeft]
  by_cases hi : i < 4 <;> simp [hi]

theorem lower_writeLower (he : e.toNat < 16) : lower ((v &&& (0xF0 : UInt8)) ||| e) = e.toNat := by
  refine Nat.eq_of_testBit_eq fun i => ?_
  rw [lower, UInt8.and_toNat, toNat_or, UInt8.and_toNat, show (15 : UInt8).toNat = 2 ^ 4 - 1 from rfl,
    show (0xF0 : UInt8).toNat = 240 from rfl, Nat.testBit_and, Nat.testBit_or, Nat.testBit_and,
    Nat.testBit_two_pow_sub_one]
  by_cases hi : i < 4
  · have : (240 : Nat).testBit i = false := by
      interval_cases i <;> rfl
    simp [hi, this]
  · simp [hi, testBit_of_lt_two_pow (show e.toNat < 2 ^ 4 from he) (not_lt.mp hi)]

theorem upper_writeLower (he : e.toNat < 16) : upper ((v &&& (0xF0 : UInt8)) ||| e) = upper v := by
  refine Nat.eq_of_testBit_eq fun i => ?_
  rw [upper, upper, toNat_shiftRight_four, toNat_shiftRight_four, toNat_or, UInt8.and_toNat,
    show (0xF0 : UInt8).toNat = 240 from rfl, Nat.testBit_shiftRight, Nat.testBit_shiftRight, Nat.testBit_or, Nat.testBit_and,
    testBit_of_lt_two_pow (show e.toNat < 2 ^ 4 from he) (by omega : 4 ≤ 4 + i)]
  by_cases hi : 4 + i < 8
  · have : (240 : Nat).testBit (4 + i) = true := by
      have : i < 4 := by omega
      interval_cases i <;> rfl
    simp [this]
  · simp [testBit_of_lt_two_pow (show v.toNat < 2 ^ 8 from v.toNat_lt_size) (not_lt.mp hi)]

end nibbles

variable (c : FsiConfig)

/-- The page id of FSI page `fsiIndex`: `(segment_id << 48) ^ fsiIndex`. -/
def fsiPid (fsiIndex : Nat) : Pid := (c.segmentId <<< 48) ^^^ fsiIndex

/-- The entry of page `t`: nibble `t % 2P` of FSI page `t / 2P`. -/
def entry (pages : Pid → Nat → UInt8) (t : Nat) : Nat :=
  nibbleAt (pages (fsiPid c (t / (c.pageSize * 2)))) (t % (c.pageSize * 2))

theorem fsiPid_inj {a b : Nat} : fsiPid c a = fsiPid c b ↔ a = b := Nat.xor_right_inj

/-- The inner loop of the constructor over the bytes of one FSI page, from byte `fsiOffset`
and page index `cur`: the upper nibble is page `cur`'s entry, the lower nibble the next
page's, and a category's first page goes to the cache. It stops at `allocated_pages`. -/
def initBytes (alloc : Nat) (b : Nat → UInt8) :
    Nat → Nat → Nat → (Nat → Nat) → (Nat → Nat) × Nat
  | 0, _, cur, cache => (cache, cur)
  | fuel + 1, fsiOffset, cur, cache =>
    if fsiOffset < c.pageSize then
      let cache := if cache (upper (b fsiOffset)) = c.invalidPid then
        Function.update cache (upper (b fsiOffset)) cur else cache
      if cur + 1 = alloc then (cache, cur + 1)
      else
        let cache := if cache (lower (b fsiOffset)) = c.invalidPid then
          Function.update cache (lower (b fsiOffset)) (cur + 1) else cache
        if cur + 2 = alloc then (cache, cur + 2)
        else initBytes alloc b fuel (fsiOffset + 1) (cur + 2) cache
    else (cache, cur)

/-- The outer loop of the constructor: one FSI page after the other while `curPageIndex`
is below `allocated_pages`. -/
def initPages (pages : Pid → Nat → UInt8) (alloc : Nat) : Nat → Nat → (Nat → Nat) → Nat → Nat
  | 0, _, cache => cache
  | fuel + 1, cur, cache =>
    if cur < alloc then
      let r := initBytes c alloc (pages (fsiPid c (cur / (c.pageSize * 2)))) c.pageSize 0 cur cache
      initPages pages alloc fuel r.2 r.1
    else cache

/-- `FSISegment(segment_id, buffer_manager, table)`: the cache filled with `invalidPid`,
then the first page of each category found by a scan of the FSI pages. -/
def new (pages : Pid → Nat → UInt8) (alloc : Nat) : FsiSegment :=
  ⟨pages, initPages c pages alloc alloc 0 (fun _ => c.invalidPid), alloc⟩

/-- The first loop of `update_free_cache`: the category whose cache entry is the page, if
it is not the page's new one; `16` when there is none. -/
def prevFreeSpace (cache : Nat → Nat) (pageIndex freeSpace : Nat) : Nat :=
  match (List.range 16).find? (fun i => cache i == pageIndex) with
  | some i => if i ≠ freeSpace then i else 16
  | none => 16

/-- The scan of one FSI page in `update_free_cache`, from nibble `fsiOffset` at page index
`cur`, for a page of category `prev`: the page found, or none and where the scan stopped. -/
def scanNibbles (alloc prev : Nat) (b : Nat → UInt8) : Nat → Nat → Nat → Option Nat × Nat
  | 0, _, cur => (none, cur)
  | fuel + 1, fsiOffset, cur =>
    if fsiOffset < c.pageSize * 2 then
      if nibbleAt b fsiOffset = prev then (some cur, cur)
      else if cur + 1 = alloc then (none, cur + 1)
      else scanNibbles alloc prev b fuel (fsiOffset + 1) (cur + 1)
    else (none, cur)

/-- The rescan of `update_free_cache` from page index `cur`, one FSI page after the other:
the first page of category `prev`, if any. -/
def rescan (pages : Pid → Nat → UInt8) (alloc prev : Nat) : Nat → Nat → Option Nat
  | 0, _ => none
  | fuel + 1, cur =>
    if cur < alloc then
      match scanNibbles c alloc prev (pages (fsiPid c (cur / (c.pageSize * 2))))
          (c.pageSize * 2) (cur % (c.pageSize * 2)) cur with
      | (some p, _) => some p
      | (none, cur) => rescan pages alloc prev fuel cur
    else none

/-- `update_free_cache(pageIndex, freeSpace)`, over the FSI pages after the write: the page
becomes the cache entry of its new category if it comes first there, and when it was the
entry of its old category, the next page of that category replaces it. -/
def updateFreeCache (s : FsiSegment) (pageIndex freeSpace : Nat) : Nat → Nat :=
  let prev := prevFreeSpace s.freeCache pageIndex freeSpace
  let cache := if s.freeCache freeSpace = c.invalidPid ∨ pageIndex < s.freeCache freeSpace then
    Function.update s.freeCache freeSpace pageIndex else s.freeCache
  if prev < 16 then
    match rescan c s.pages s.allocatedPages prev s.allocatedPages (pageIndex + 1) with
    | some p => Function.update cache prev p
    | none => Function.update cache prev c.invalidPid
  else cache

/-- `update(target_page, free_space)`: writes the encoded free space into the page's nibble,
then updates the cache. -/
def update (s : FsiSegment) (targetPage freeSpace : Nat) : FsiSegment :=
  let tpIndex := targetPage &&& 0x0000FFFFFFFFFFFF
  let fsiIndex := tpIndex / (c.pageSize * 2)
  let fsiOffset := tpIndex % (c.pageSize * 2)
  let efs := c.encodeFreeSpace freeSpace
  let fsiVal := s.pages (fsiPid c fsiIndex) (fsiOffset / 2)
  let byte : UInt8 := if fsiOffset % 2 = 0 then (fsiVal &&& (0x0F : UInt8)) ||| (efs <<< (4 : UInt8))
    else (fsiVal &&& (0xF0 : UInt8)) ||| efs
  let page := Function.update (s.pages (fsiPid c fsiIndex)) (fsiOffset / 2) byte
  let s := { s with pages := Function.update s.pages (fsiPid c fsiIndex) page }
  { s with freeCache := updateFreeCache c s tpIndex efs.toNat }

/-- The search loop of `find` from category `ci` up. -/
def findFrom (s : FsiSegment) : Nat → Nat → Option Nat
  | 0, _ => none
  | fuel + 1, ci =>
    if ci < 16 then
      if s.freeCache ci ≠ c.invalidPid then some (s.freeCache ci) else findFrom s fuel (ci + 1)
    else none

/-- `find(required_space)`: the cache entry of the first category from the required one up
that has a page. -/
def find (s : FsiSegment) (requiredSpace : Nat) : Except String (Option Nat) :=
  let ci := (c.encodeFreeSpace requiredSpace).toNat
  if ¬ ci < 16 then throw "ci >= 0 && ci < 16"
  else pure (findFrom c s 16 ci)

-- ============================================================ the write

/-- Two pages with the same FSI page and nibble are the same page. -/
theorem eq_of_div_mod {d u v : Nat} (hq : u / d = v / d) (hm : u % d = v % d) : u = v := by
  rw [← Nat.div_add_mod u d, hq, hm, Nat.div_add_mod]

/-- `update` changes the entry of the page its masked target names, to the encoded free
space, and no other entry. -/
theorem entry_update (s : FsiSegment) (t fs : Nat) (he : (c.encodeFreeSpace fs).toNat < 16)
    (u : Nat) :
    entry c (update c s t fs).pages u =
      if u = t &&& 0x0000FFFFFFFFFFFF then (c.encodeFreeSpace fs).toNat else entry c s.pages u := by
  simp only [update]
  generalize t &&& 0x0000FFFFFFFFFFFF = tp
  unfold entry
  by_cases hq : u / (c.pageSize * 2) = tp / (c.pageSize * 2)
  · rw [hq, Function.update_same]
    unfold nibbleAt
    by_cases hb : u % (c.pageSize * 2) / 2 = tp % (c.pageSize * 2) / 2
    · rw [hb, Function.update_same]
      by_cases hu : u % (c.pageSize * 2) % 2 = 0 <;> by_cases ht : tp % (c.pageSize * 2) % 2 = 0 <;>
        simp only [hu, ht, if_true, if_false]
      · rw [if_pos (eq_of_div_mod hq (by omega)), upper_writeUpper _ _ he]
      · rw [if_neg fun h => by subst h; omega, upper_writeLower _ _ he]
      · rw [if_neg fun h => by subst h; omega, lower_writeUpper]
      · rw [if_pos (eq_of_div_mod hq (by omega)), lower_writeLower _ _ he]
    · have hne : u ≠ tp := fun h => hb (by rw [h])
      simp only [Function.update_noteq hb, hne, if_false]
  · have hne : u ≠ tp := fun h => hq (by rw [h])
    rw [Function.update_noteq fun h => hq (fsiPid_inj c |>.mp h), if_neg hne]

-- ============================================================ the invariant

/-- For every category `k < 16`, `cache k` is the least page index below `alloc` whose entry
under `e` is `k`, or `invalidPid` when there is none. -/
def CacheLeast (e : Nat → Nat) (alloc : Nat) (cache : Nat → Nat) : Prop :=
  ∀ k < 16, (cache k < alloc ∧ e (cache k) = k ∧ ∀ t < cache k, e t ≠ k) ∨
    (cache k = c.invalidPid ∧ ∀ t < alloc, e t ≠ k)

/-- One more page read by the constructor: its category takes it if it had no page yet. -/
theorem CacheLeast.push {e : Nat → Nat} {cur : Nat} {cache : Nat → Nat}
    (h : CacheLeast c e cur cache) (hcur : cur < c.invalidPid) :
    CacheLeast c e (cur + 1)
      (if cache (e cur) = c.invalidPid then Function.update cache (e cur) cur else cache) := by
  intro k hk
  by_cases hx : e cur = k
  · subst hx
    rcases h _ hk with ⟨hlt, hek, hmin⟩ | ⟨hinv, hnone⟩
    · rw [if_neg (by omega)]
      exact .inl ⟨by omega, hek, hmin⟩
    · rw [if_pos hinv, Function.update_same]
      exact .inl ⟨by omega, rfl, hnone⟩
  · have hk' : (if cache (e cur) = c.invalidPid then Function.update cache (e cur) cur else cache) k =
        cache k := by
      split
      · exact Function.update_noteq (Ne.symm hx) _ _
      · rfl
    rw [hk']
    rcases h k hk with ⟨hlt, hek, hmin⟩ | ⟨hinv, hnone⟩
    · exact .inl ⟨by omega, hek, hmin⟩
    · refine .inr ⟨hinv, fun t ht => ?_⟩
      rcases Nat.lt_succ_iff_lt_or_eq.mp ht with ht | rfl
      · exact hnone t ht
      · exact hx

/-- An offset inside a block: the block is the one of its start. -/
theorem div_mod_add {base r d : Nat} (hb : base % d = 0) (hr : r < d) :
    (base + r) / d = base / d ∧ (base + r) % d = r := by
  have hd : 0 < d := by omega
  have h := Nat.div_add_mod base d
  rw [hb, Nat.add_zero] at h
  rw [← h, Nat.mul_add_div hd, Nat.mul_add_mod, Nat.div_eq_of_lt hr, Nat.mod_eq_of_lt hr,
    Nat.mul_div_cancel_left _ hd, Nat.add_zero]
  exact ⟨rfl, rfl⟩

/-- The constructor's scan of one FSI page, from byte `o` at page `base + 2 * o`: each byte's
nibbles are the entries of its two pages, so the cache stays the least one over the pages
read, up to `allocated_pages` or the end of the FSI page. -/
theorem initBytes_spec {pages : Pid → Nat → UInt8} {alloc base : Nat} (halloc : alloc ≤ c.invalidPid)
    (hbase : base % (c.pageSize * 2) = 0) :
    ∀ fuel o cur cache cache' cur', o + fuel = c.pageSize → cur = base + 2 * o → cur < alloc →
      CacheLeast c (entry c pages) cur cache →
      initBytes c alloc (pages (fsiPid c (base / (c.pageSize * 2)))) fuel o cur cache = (cache', cur') →
      CacheLeast c (entry c pages) cur' cache' ∧ cur' ≤ alloc ∧
        (cur' = alloc ∨ cur' = base + c.pageSize * 2)
  | 0, o, cur, cache, cache', cur', ho, hcur, hlt, hc, h => by
    simp only [initBytes, Prod.mk.injEq] at h
    obtain ⟨rfl, rfl⟩ := h
    exact ⟨hc, by omega, .inr (by omega)⟩
  | fuel + 1, o, cur, cache, cache', cur', ho, hcur, hlt, hc, h => by
    have hup : entry c pages cur = upper (pages (fsiPid c (base / (c.pageSize * 2))) o) := by
      obtain ⟨hq, hm⟩ := div_mod_add hbase (show 2 * o < c.pageSize * 2 by omega)
      rw [entry, hcur, hq, hm, nibbleAt, if_pos (by omega), Nat.mul_div_cancel_left _ (by omega)]
    have hlo : entry c pages (cur + 1) = lower (pages (fsiPid c (base / (c.pageSize * 2))) o) := by
      obtain ⟨hq, hm⟩ := div_mod_add hbase (show 2 * o + 1 < c.pageSize * 2 by omega)
      rw [entry, hcur, Nat.add_assoc, hq, hm, nibbleAt, if_neg (by omega)]
      congr 2
      omega
    simp only [initBytes, if_pos (show o < c.pageSize by omega), ← hup, ← hlo] at h
    have hc1 := hc.push c (show cur < c.invalidPid by omega)
    split at h
    · simp only [Prod.mk.injEq] at h
      obtain ⟨rfl, rfl⟩ := h
      exact ⟨hc1, by omega, .inl ‹_›⟩
    · have hc2 := hc1.push c (show cur + 1 < c.invalidPid by omega)
      split at h
      · simp only [Prod.mk.injEq] at h
        obtain ⟨rfl, rfl⟩ := h
        exact ⟨hc2, by omega, .inl ‹_›⟩
      · exact initBytes_spec halloc hbase fuel (o + 1) (cur + 2) _ cache' cur' (by omega) (by omega)
          (by omega) hc2 h

/-- The constructor's scan of the FSI pages from page `cur`, the start of an FSI page or
`allocated_pages`: the cache ends the least one over all allocated pages. -/
theorem initPages_spec (pages : Pid → Nat → UInt8) {alloc : Nat} (halloc : alloc ≤ c.invalidPid) :
    ∀ fuel cur cache, alloc ≤ cur + fuel → cur ≤ alloc → (cur % (c.pageSize * 2) = 0 ∨ cur = alloc) →
      CacheLeast c (entry c pages) cur cache →
      CacheLeast c (entry c pages) alloc (initPages c pages alloc fuel cur cache)
  | 0, cur, cache, hf, hle, _, hc => by
    obtain rfl : cur = alloc := by omega
    exact hc
  | fuel + 1, cur, cache, hf, hle, hcur, hc => by
    simp only [initPages]
    split
    · have hbase : cur % (c.pageSize * 2) = 0 := hcur.resolve_right (by omega)
      obtain ⟨hc', hle', hend⟩ := initBytes_spec c halloc hbase c.pageSize 0 cur cache _ _
        (by omega) (by omega) ‹_› hc rfl
      have hP := c.pageSize_pos
      refine initPages_spec pages halloc fuel _ _ ?_ hle' ?_ hc'
      · rcases hend with h | h <;> rw [h] <;> omega
      · rcases hend with h | h
        · exact .inr h
        · exact .inl (by rw [h, Nat.add_mod_right, hbase])
    · obtain rfl : cur = alloc := by omega
      exact hc

/-- The constructor leaves the cache the least one over the allocated pages, when
`invalidPid` is no allocated page index. -/
theorem cacheLeast_new (pages : Pid → Nat → UInt8) {alloc : Nat} (halloc : alloc ≤ c.invalidPid) :
    CacheLeast c (entry c pages) alloc (new c pages alloc).freeCache :=
  initPages_spec c pages halloc alloc 0 _ (by omega) (Nat.zero_le _) (.inl (Nat.zero_mod _))
    fun _ _ => .inr ⟨rfl, fun _ h => absurd h (Nat.not_lt_zero _)⟩

-- ============================================================ the rescan

/-- The next page lies in the same FSI page, one nibble on, until the last nibble. -/
theorem div_mod_succ {n d : Nat} (h : n % d + 1 < d) :
    (n + 1) / d = n / d ∧ (n + 1) % d = n % d + 1 := by
  have hb : d * (n / d) % d = 0 := Nat.mul_mod_right _ _
  have e : n + 1 = d * (n / d) + (n % d + 1) := by rw [← Nat.add_assoc, Nat.div_add_mod]
  rw [e, (div_mod_add hb h).1, (div_mod_add hb h).2, Nat.mul_div_cancel_left _ (by omega)]
  exact ⟨rfl, rfl⟩

theorem scanNibbles_end (alloc prev : Nat) (b : Nat → UInt8) (fuel cur : Nat) :
    scanNibbles c alloc prev b fuel (c.pageSize * 2) cur = (none, cur) := by
  cases fuel <;> simp [scanNibbles]

/-- The scan of the rest of one FSI page from page `cur`, at nibble `cur % 2P`: the first page
of category `prev` from `cur` on, or none up to where it stopped, past `cur`. -/
theorem scanNibbles_spec {pages : Pid → Nat → UInt8} {alloc prev : Nat} :
    ∀ fuel cur res cur', c.pageSize * 2 ≤ cur % (c.pageSize * 2) + fuel → cur < alloc →
      scanNibbles c alloc prev (pages (fsiPid c (cur / (c.pageSize * 2)))) fuel
        (cur % (c.pageSize * 2)) cur = (res, cur') →
      (∀ p, res = some p → cur ≤ p ∧ p < alloc ∧ entry c pages p = prev ∧
        ∀ t, cur ≤ t → t < p → entry c pages t ≠ prev) ∧
      (res = none → cur < cur' ∧ cur' ≤ alloc ∧ ∀ t, cur ≤ t → t < cur' → entry c pages t ≠ prev)
  | 0, cur, _, _, hf, _, _ => by
    have := Nat.mod_lt cur (show 0 < c.pageSize * 2 by have := c.pageSize_pos; omega)
    omega
  | fuel + 1, cur, res, cur', hf, hlt, h => by
    have hP : cur % (c.pageSize * 2) < c.pageSize * 2 :=
      Nat.mod_lt _ (by have := c.pageSize_pos; omega)
    simp only [scanNibbles, if_pos hP] at h
    have he : nibbleAt (pages (fsiPid c (cur / (c.pageSize * 2)))) (cur % (c.pageSize * 2)) =
      entry c pages cur := rfl
    rw [he] at h
    split at h
    · simp only [Prod.mk.injEq] at h
      obtain ⟨rfl, rfl⟩ := h
      exact ⟨fun p hp => by cases hp; exact ⟨le_refl _, hlt, ‹_›, fun t h1 h2 => absurd h2 (by omega)⟩,
        fun h => nomatch h⟩
    · rename_i hne
      -- the page at `cur` is not of category `prev`
      have hext : ∀ {q}, (∀ t, cur + 1 ≤ t → t < q → entry c pages t ≠ prev) →
          ∀ t, cur ≤ t → t < q → entry c pages t ≠ prev := fun h t h1 h2 => by
        rcases Nat.eq_or_lt_of_le h1 with rfl | h1
        · exact hne
        · exact h t h1 h2
      split at h
      · simp only [Prod.mk.injEq] at h
        obtain ⟨rfl, rfl⟩ := h
        exact ⟨fun p hp => (nomatch hp), fun _ => ⟨by omega, by omega, hext fun _ _ h2 => absurd h2 (by omega)⟩⟩
      · by_cases hlast : cur % (c.pageSize * 2) + 1 < c.pageSize * 2
        · obtain ⟨hq, hm⟩ := div_mod_succ hlast
          rw [← hq, ← hm] at h
          obtain ⟨hs, hn⟩ := scanNibbles_spec fuel (cur + 1) res cur' (by omega) (by omega) h
          refine ⟨fun p hp => ?_, fun hr => ?_⟩
          · obtain ⟨h1, h2, h3, h4⟩ := hs p hp
            exact ⟨by omega, h2, h3, hext h4⟩
          · obtain ⟨h1, h2, h3⟩ := hn hr
            exact ⟨by omega, h2, hext h3⟩
        · rw [show cur % (c.pageSize * 2) + 1 = c.pageSize * 2 by omega, scanNibbles_end] at h
          simp only [Prod.mk.injEq] at h
          obtain ⟨rfl, rfl⟩ := h
          exact ⟨fun p hp => (nomatch hp), fun _ => ⟨by omega, by omega, hext fun _ _ h2 => absurd h2 (by omega)⟩⟩

/-- The rescan from page `cur`, one FSI page after the other: the first page of category
`prev` from `cur` on, or none when no page from `cur` on has it. -/
theorem rescan_spec (pages : Pid → Nat → UInt8) {alloc prev : Nat} :
    ∀ fuel cur, alloc ≤ cur + fuel →
      (∀ p, rescan c pages alloc prev fuel cur = some p → cur ≤ p ∧ p < alloc ∧
        entry c pages p = prev ∧ ∀ t, cur ≤ t → t < p → entry c pages t ≠ prev) ∧
      (rescan c pages alloc prev fuel cur = none → ∀ t, cur ≤ t → t < alloc → entry c pages t ≠ prev)
  | 0, cur, hf => ⟨fun p h => (nomatch h), fun _ t h1 h2 => absurd h2 (by omega)⟩
  | fuel + 1, cur, hf => by
    simp only [rescan]
    split
    · rename_i hlt
      generalize hr : scanNibbles c alloc prev (pages (fsiPid c (cur / (c.pageSize * 2))))
        (c.pageSize * 2) (cur % (c.pageSize * 2)) cur = r
      obtain ⟨res, cur'⟩ := r
      obtain ⟨hs, hn⟩ := scanNibbles_spec c (c.pageSize * 2) cur res cur' (by omega) hlt hr
      cases res with
      | some p => exact ⟨fun q hq => by cases hq; exact hs p rfl, fun h => (nomatch h)⟩
      | none =>
        obtain ⟨h1, h2, h3⟩ := hn rfl
        obtain ⟨hs', hn'⟩ := @rescan_spec pages alloc prev fuel cur' (by omega)
        refine ⟨fun q hq => ?_, fun hq t ht1 ht2 => ?_⟩
        · obtain ⟨g1, g2, g3, g4⟩ := hs' q hq
          exact ⟨by omega, g2, g3, fun t ht1 ht2 =>
            if ht : t < cur' then h3 t ht1 ht else g4 t (by omega) ht2⟩
        · exact if ht : t < cur' then h3 t ht1 ht else hn' hq t (by omega) ht2
    · exact ⟨fun p h => (nomatch h), fun _ t h1 h2 => absurd h2 (by omega)⟩

-- ============================================================ update_free_cache

/-- Under the invariant, the one category whose cache entry can be the page is the page's
old one, so the first loop of `update_free_cache` finds that category or none. -/
theorem prevFreeSpace_eq {eo : Nat → Nat} {alloc : Nat} {cache : Nat → Nat}
    (hc : CacheLeast c eo alloc cache) {t : Nat} (ht : t < alloc) (halloc : alloc ≤ c.invalidPid)
    (x : Nat) :
    prevFreeSpace cache t x = if eo t < 16 ∧ cache (eo t) = t ∧ eo t ≠ x then eo t else 16 := by
  have hiff : ∀ i < 16, cache i = t → i = eo t := fun i hi h => by
    rcases hc i hi with ⟨-, hek, -⟩ | ⟨hinv, -⟩
    · rw [← h, hek]
    · omega
  unfold prevFreeSpace
  split
  · rename_i i hfind
    have hi : i < 16 := List.mem_range.mp (List.mem_of_find?_eq_some hfind)
    have hci : cache i = t := by simpa using List.find?_some hfind
    obtain rfl := hiff i hi hci
    by_cases hx : eo t = x
    · simp [hx]
    · simp [hi, hci, hx]
  · rename_i hfind
    have hno := List.find?_eq_none.mp hfind
    rw [if_neg fun h => by simpa [h.2.1] using hno (eo t) (List.mem_range.mpr h.1)]

/-- The first loop of `update_free_cache` never picks the page's new category. -/
theorem prevFreeSpace_ne (cache : Nat → Nat) (t : Nat) {x : Nat} (hx : x < 16) :
    prevFreeSpace cache t x ≠ x := by
  unfold prevFreeSpace
  split
  · split_ifs with h
    · exact h
    · omega
  · omega

/-- `update_free_cache` keeps the cache entry of every category but the page's new one and
the one it rescans. -/
theorem updateFreeCache_of_ne (s : FsiSegment) {t x k : Nat} (hx : k ≠ x)
    (hp : k ≠ prevFreeSpace s.freeCache t x) : updateFreeCache c s t x k = s.freeCache k := by
  unfold updateFreeCache
  split <;> split <;>
    cases rescan c s.pages s.allocatedPages (prevFreeSpace s.freeCache t x) s.allocatedPages (t + 1) <;>
    first | rfl | simp only [Function.update_noteq hp, Function.update_noteq hx]

/-- `update_free_cache` makes the page the entry of its new category when that category had
none or only later pages. -/
theorem updateFreeCache_new (s : FsiSegment) (t : Nat) {x : Nat} (hx : x < 16) :
    updateFreeCache c s t x x =
      if s.freeCache x = c.invalidPid ∨ t < s.freeCache x then t else s.freeCache x := by
  have hp := (prevFreeSpace_ne s.freeCache t hx).symm
  unfold updateFreeCache
  split <;> split <;>
    cases rescan c s.pages s.allocatedPages (prevFreeSpace s.freeCache t x) s.allocatedPages (t + 1) <;>
    simp only [Function.update_noteq hp, Function.update_same]

/-- `update_free_cache` gives the category it rescans the page the rescan finds, or
`invalidPid`. -/
theorem updateFreeCache_prev (s : FsiSegment) {t x : Nat} (hp : prevFreeSpace s.freeCache t x < 16) :
    updateFreeCache c s t x (prevFreeSpace s.freeCache t x) =
      (rescan c s.pages s.allocatedPages (prevFreeSpace s.freeCache t x) s.allocatedPages (t + 1)).getD
        c.invalidPid := by
  unfold updateFreeCache
  rw [if_pos hp]
  cases rescan c s.pages s.allocatedPages (prevFreeSpace s.freeCache t x) s.allocatedPages (t + 1) <;>
    exact Function.update_same _ _ _

/-- `update_free_cache` after the page's entry became `x`: whatever category the page had
before (none at all for a page just allocated), the cache is again the least one. -/
theorem updateFreeCache_cacheLeast {s : FsiSegment} {eo : Nat → Nat} {t x : Nat}
    (hc : CacheLeast c eo s.allocatedPages s.freeCache) (ht : t < s.allocatedPages)
    (halloc : s.allocatedPages ≤ c.invalidPid)
    (hnew : entry c s.pages t = x) (hold : ∀ u, u ≠ t → entry c s.pages u = eo u) :
    CacheLeast c (entry c s.pages) s.allocatedPages (updateFreeCache c s t x) := by
  -- the page's new category
  have hx : x < 16 → ∀ v, v = (if s.freeCache x = c.invalidPid ∨ t < s.freeCache x then t
      else s.freeCache x) → v < s.allocatedPages ∧ entry c s.pages v = x ∧
        ∀ u < v, entry c s.pages u ≠ x := fun hx16 v hv => by
    rcases hc x hx16 with ⟨hlt, hek, hmin⟩ | ⟨hinv, hnone⟩
    · rcases lt_trichotomy t (s.freeCache x) with htx | htx | htx
      · rw [hv, if_pos (.inr htx)]
        exact ⟨ht, hnew, fun u hu => by rw [hold u (by omega)]; exact hmin u (by omega)⟩
      · rw [hv, if_neg (by omega), ← htx]
        exact ⟨ht, hnew, fun u hu => by rw [hold u (by omega)]; exact hmin u (by omega)⟩
      · rw [hv, if_neg (by omega)]
        exact ⟨hlt, by rw [hold _ (by omega)]; exact hek,
          fun u hu => by rw [hold u (by omega)]; exact hmin u hu⟩
    · rw [hv, if_pos (.inl hinv)]
      exact ⟨ht, hnew, fun u hu => by rw [hold u (by omega)]; exact hnone u (by omega)⟩
  -- a category whose cache entry is not the page, other than the new one
  have hother : ∀ k < 16, k ≠ x → ¬ (s.freeCache (eo t) = t ∧ k = eo t) →
      (s.freeCache k < s.allocatedPages ∧ entry c s.pages (s.freeCache k) = k ∧
        ∀ u < s.freeCache k, entry c s.pages u ≠ k) ∨
      (s.freeCache k = c.invalidPid ∧ ∀ u < s.allocatedPages, entry c s.pages u ≠ k) :=
    fun k hk hkx hnot => by
      have hpage : ∀ u, (u ≠ t → eo u ≠ k) → entry c s.pages u ≠ k := fun u hu => by
        by_cases hut : u = t
        · rw [hut, hnew]; exact Ne.symm hkx
        · rw [hold u hut]; exact hu hut
      rcases hc k hk with ⟨hlt, hek, hmin⟩ | ⟨hinv, hnone⟩
      · have hmt : s.freeCache k ≠ t := fun h => hnot ⟨by rw [← h, hek, h], by rw [← hek, h]⟩
        exact .inl ⟨hlt, by rw [hold _ hmt]; exact hek, fun u hu => hpage u fun _ => hmin u hu⟩
      · exact .inr ⟨hinv, fun u hu => hpage u fun _ => hnone u hu⟩
  -- the page's old category, when the page was its cache entry
  have hrescan : ∀ k < 16, s.freeCache k = t → k ≠ x →
      let v := (rescan c s.pages s.allocatedPages k s.allocatedPages (t + 1)).getD c.invalidPid
      (v < s.allocatedPages ∧ entry c s.pages v = k ∧ ∀ u < v, entry c s.pages u ≠ k) ∨
        (v = c.invalidPid ∧ ∀ u < s.allocatedPages, entry c s.pages u ≠ k) := fun k hk hkt hkx => by
    rcases hc k hk with ⟨-, hek, hmin⟩ | ⟨hinv, -⟩
    · rw [hkt] at hek hmin
      have hpage : ∀ u, u ≤ t → entry c s.pages u ≠ k := fun u hu => by
        rcases Nat.lt_or_eq_of_le hu with hu | rfl
        · rw [hold u (by omega)]; exact hmin u hu
        · rw [hnew]; exact Ne.symm hkx
      obtain ⟨hs, hn⟩ := @rescan_spec c s.pages s.allocatedPages k s.allocatedPages (t + 1) (by omega)
      cases hr : rescan c s.pages s.allocatedPages k s.allocatedPages (t + 1) with
      | some p =>
        obtain ⟨h1, h2, h3, h4⟩ := hs p hr
        exact .inl ⟨h2, h3, fun u hu => if hut : u ≤ t then hpage u hut else h4 u (by omega) hu⟩
      | none =>
        exact .inr ⟨rfl, fun u hu => if hut : u ≤ t then hpage u hut else hn hr u (by omega) hu⟩
    · omega
  -- the three together
  intro k hk
  have hprev := prevFreeSpace_eq c hc ht halloc x
  by_cases hkx : k = x
  · subst hkx
    exact .inl (hx hk _ (updateFreeCache_new c s t hk))
  by_cases hkp : k = prevFreeSpace s.freeCache t x
  · have hcond : eo t < 16 ∧ s.freeCache (eo t) = t ∧ eo t ≠ x := by
      by_contra h; rw [hprev, if_neg h] at hkp; omega
    rw [hprev, if_pos hcond] at hkp
    subst hkp
    have h := updateFreeCache_prev c s (t := t) (x := x) (by rw [hprev, if_pos hcond]; exact hcond.1)
    rw [hprev, if_pos hcond] at h
    rw [h]
    exact hrescan _ hk hcond.2.1 hcond.2.2
  · rw [updateFreeCache_of_ne c s hkx hkp]
    exact hother k hk hkx fun h => hkp (by rw [hprev, if_pos ⟨h.2 ▸ hk, h.1, h.2 ▸ hkx⟩, h.2])

-- ============================================================ update

/-- Below `2 ^ 48` the mask of `update` keeps the target. -/
theorem mask_of_lt {t : Nat} (ht : t < 2 ^ 48) : t &&& 0x0000FFFFFFFFFFFF = t :=
  Nat.and_pow_two_sub_one_of_lt_two_pow ht

@[simp] theorem update_allocatedPages (s : FsiSegment) (t fs : Nat) :
    (update c s t fs).allocatedPages = s.allocatedPages := rfl

/-- `update` runs `update_free_cache` on its masked target over the written pages. -/
theorem update_freeCache_eq (s : FsiSegment) (t fs : Nat) :
    (update c s t fs).freeCache = updateFreeCache c { s with pages := (update c s t fs).pages }
      (t &&& 0x0000FFFFFFFFFFFF) (c.encodeFreeSpace fs).toNat := rfl

/-- Below `2 ^ 48`, `update` runs `update_free_cache` on its target over the written pages. -/
theorem update_freeCache (s : FsiSegment) {t : Nat} (fs : Nat) (ht : t < 2 ^ 48) :
    (update c s t fs).freeCache =
      updateFreeCache c { s with pages := (update c s t fs).pages } t (c.encodeFreeSpace fs).toNat := by
  rw [update_freeCache_eq, mask_of_lt ht]

/-- `update` of a page below `2 ^ 48` writes its entry and keeps the cache the least one,
whatever category the page had before. -/
theorem update_cacheLeast {s : FsiSegment} {eo : Nat → Nat} {t fs : Nat}
    (hc : CacheLeast c eo s.allocatedPages s.freeCache) (ht : t < s.allocatedPages)
    (h48 : s.allocatedPages ≤ 2 ^ 48) (he : (c.encodeFreeSpace fs).toNat < 16)
    (hold : ∀ u, u ≠ t → entry c s.pages u = eo u) :
    CacheLeast c (entry c (update c s t fs).pages) s.allocatedPages (update c s t fs).freeCache := by
  have hw := entry_update c s t fs he
  rw [mask_of_lt (by omega)] at hw
  rw [update_freeCache c s fs (by omega)]
  exact updateFreeCache_cacheLeast c (s := { s with pages := (update c s t fs).pages }) hc ht
    (le_trans h48 c.invalidPid_ge) (by dsimp only; rw [hw, if_pos rfl])
    fun u hu => by dsimp only; rw [hw, if_neg hu, hold u hu]

/-- A page just allocated counts for no category until its update. -/
theorem CacheLeast.extend {e : Nat → Nat} {n : Nat} {cache : Nat → Nat} (h : CacheLeast c e n cache) :
    CacheLeast c (fun u => if u = n then 16 else e u) (n + 1) cache := fun k hk => by
  rcases h k hk with ⟨hlt, hek, hmin⟩ | ⟨hinv, hnone⟩
  · refine .inl ⟨by omega, by dsimp only; rw [if_neg (by omega)]; exact hek, fun u hu => ?_⟩
    dsimp only
    rw [if_neg (by omega)]
    exact hmin u hu
  · refine .inr ⟨hinv, fun u hu => ?_⟩
    dsimp only
    split
    · omega
    · exact hnone u (by omega)

-- ============================================================ runs

/-- A step of a run: `update` of an allocated page, or the allocation of one more page
followed by the update of its index, as `SPSegment::allocate` does. -/
inductive Step : FsiSegment → FsiSegment → Prop
  | update {s : FsiSegment} {t fs : Nat} :
      t < s.allocatedPages → (c.encodeFreeSpace fs).toNat < 16 → Step s (update c s t fs)
  | allocate {s : FsiSegment} {fs : Nat} :
      (c.encodeFreeSpace fs).toNat < 16 →
      Step s (update c { s with allocatedPages := s.allocatedPages + 1 } s.allocatedPages fs)

/-- The states a run reaches from the constructor over FSI pages `pages` and `alloc`
allocated pages. -/
inductive Reachable (pages : Pid → Nat → UInt8) (alloc : Nat) : FsiSegment → Prop
  | new : Reachable pages alloc (new c pages alloc)
  | step {s s' : FsiSegment} : Reachable pages alloc s → Step c s s' → Reachable pages alloc s'

theorem Step.allocatedPages_le {s s' : FsiSegment} (h : Step c s s') :
    s.allocatedPages ≤ s'.allocatedPages := by
  cases h with
  | update => exact le_refl _
  | allocate => exact Nat.le_succ _

/-- Each step keeps the cache the least one, as long as the pages stay below `2 ^ 48`. -/
theorem Step.cacheLeast {s s' : FsiSegment} (h : Step c s s')
    (hc : CacheLeast c (entry c s.pages) s.allocatedPages s.freeCache)
    (h48 : s'.allocatedPages ≤ 2 ^ 48) :
    CacheLeast c (entry c s'.pages) s'.allocatedPages s'.freeCache := by
  cases h with
  | update ht he => exact update_cacheLeast c hc ht h48 he fun _ _ => rfl
  | allocate he =>
    exact update_cacheLeast c (s := { s with allocatedPages := s.allocatedPages + 1 }) hc.extend
      (Nat.lt_succ_self _) h48 he fun u hu => (if_neg hu).symm

/-- Along every run that stays below `2 ^ 48` pages, the cache is the least one. -/
theorem Reachable.cacheLeast {pages : Pid → Nat → UInt8} {alloc : Nat} {s : FsiSegment}
    (h : Reachable c pages alloc s) (h48 : s.allocatedPages ≤ 2 ^ 48) :
    CacheLeast c (entry c s.pages) s.allocatedPages s.freeCache := by
  induction h with
  | new => exact cacheLeast_new c pages (le_trans h48 c.invalidPid_ge)
  | step _ hs ih => exact hs.cacheLeast c (ih (le_trans (hs.allocatedPages_le c) h48)) h48

-- ============================================================ find

/-- The bits of an 8th root of `m` from bit `i - 1` down: the largest `r' < r + 2 ^ i` with
`r' ^ 8 ≤ m`, for `r ^ 8 ≤ m`. -/
def rootBits (m : Nat) : Nat → Nat → Nat
  | 0, r => r
  | i + 1, r => rootBits m i (if (r + 2 ^ i) ^ 8 ≤ m then r + 2 ^ i else r)

/-- `⌈2 ^ (x / 8)⌉`, the least `n` with `2 ^ x ≤ n ^ 8`: the 8th root of `2 ^ x` rounded down,
found bit by bit from bit `x / 8`, and one more unless it is exact. -/
def ceilRootPow (x : Nat) : Nat :=
  let r := rootBits (2 ^ x) (x / 8 + 1) 0
  if r ^ 8 = 2 ^ x then r else r + 1

example : ceilRootPow 84 = 1449 := by decide

/-- `linear_factor` for pages of `2 ^ k` bytes: `get_page_size() / 16 + 1`. -/
def linearFactor (k : Nat) : Nat := 2 ^ k / 16 + 1

/-- `encode_free_space(free_space)` in exact arithmetic, for pages of `2 ^ k` bytes. Its
`log_factor` is `log2f(2 ^ k) / 8 = k / 8`, so below half a page
`floor(log2f(free_space) / log_factor)` is `floor(8 · log₂ free_space / k)`, that is
`Nat.log 2 (free_space ^ 8) / k`; from half a page on it is `free_space / linear_factor`.
The result is cast to `uint8_t`. The rounding of the float operations is left out, and so
is `free_space = 0`, where `log2f` gives `-∞` and the cast is undefined: it encodes as `0`. -/
def encodeFreeSpace (k freeSpace : Nat) : UInt8 :=
  if freeSpace < 2 ^ k / 2 then (Nat.log 2 (freeSpace ^ 8) / k).toUInt8
  else (freeSpace / linearFactor k).toUInt8

/-- `decode_free_space(free_space)` in exact arithmetic, for pages of `2 ^ k` bytes: below
category `8`, `ceil(pow(2, free_space * log_factor))`, the least `n` with
`2 ^ (free_space · k) ≤ n ^ 8`, and `0` for category `0`; from `8` on,
`free_space * linear_factor`. Its `assert(free_space < 16)` is its callers'. -/
def decodeFreeSpace (k freeSpace : Nat) : Nat :=
  if freeSpace < 8 then (if freeSpace = 0 then 0 else ceilRootPow (freeSpace * k))
  else freeSpace * linearFactor k

example : (List.range 8).map (decodeFreeSpace 12) = [0, 3, 8, 23, 64, 182, 512, 1449] := by decide

section exact

variable {k a b : Nat}

theorem toNat_toUInt8 {n : Nat} (h : n < 256) : n.toUInt8.toNat = n :=
  UInt8.toNat_ofNat_of_lt h

/-- For pages of `2 ^ k ≥ 256` bytes, `linear_factor - 1` is a sixteenth of the page, and at
least `16`. -/
theorem pow_eq_linearFactor (hk : 8 ≤ k) : 2 ^ k = 16 * (linearFactor k - 1) ∧ 16 ≤ linearFactor k - 1 := by
  have h : 2 ^ k = 16 * 2 ^ (k - 4) := by rw [← pow_sub_mul_pow 2 (show 4 ≤ k by omega)]; ring
  have h16 : 2 ^ 4 ≤ 2 ^ (k - 4) := Nat.pow_le_pow_right (by norm_num) (by omega)
  rw [linearFactor, h]; omega

/-- Below half a page the logarithmic category is at most `7`. -/
theorem log_div_le_seven (hk : 0 < k) (ha : a < 2 ^ k / 2) : Nat.log 2 (a ^ 8) / k ≤ 7 := by
  have h2 : 2 ^ k = 2 * 2 ^ (k - 1) := by rw [← pow_succ']; congr 1; omega
  rcases Nat.eq_zero_or_pos a with rfl | ha0
  · simp
  have hlt : Nat.log 2 (a ^ 8) < 8 * (k - 1) := by
    refine Nat.log_lt_of_lt_pow (by positivity) ?_
    calc a ^ 8 < (2 ^ (k - 1)) ^ 8 := Nat.pow_lt_pow_left (by omega) (by norm_num)
      _ = 2 ^ (8 * (k - 1)) := by rw [← pow_mul, mul_comm]
  exact Nat.le_of_lt_succ ((Nat.div_lt_iff_lt_mul hk).mpr (by omega))

/-- Up to a page, the linear category is below `16`. -/
theorem linear_lt_sixteen (hk : 8 ≤ k) (ha : a ≤ 2 ^ k) : a / linearFactor k < 16 := by
  obtain ⟨hL, -⟩ := pow_eq_linearFactor hk
  rw [hL] at ha
  exact (Nat.div_lt_iff_lt_mul (Nat.succ_pos _)).mpr (by omega)

/-- The category of a free space up to a page, as a number. -/
theorem encodeFreeSpace_toNat (hk : 8 ≤ k) (ha : a ≤ 2 ^ k) :
    (encodeFreeSpace k a).toNat =
      if a < 2 ^ k / 2 then Nat.log 2 (a ^ 8) / k else a / linearFactor k := by
  unfold encodeFreeSpace
  split_ifs with h
  · exact toNat_toUInt8 ((log_div_le_seven (show 0 < k by omega) h).trans_lt (by norm_num))
  · exact toNat_toUInt8 ((linear_lt_sixteen hk ha).trans (by norm_num))

/-- From half a page on, the linear category is at least `7`. -/
theorem seven_le_linear (hk : 8 ≤ k) (hb : 2 ^ k / 2 ≤ b) : 7 ≤ b / linearFactor k := by
  obtain ⟨hL, h16⟩ := pow_eq_linearFactor hk
  rw [hL] at hb
  exact (Nat.le_div_iff_mul_le (Nat.succ_pos _)).mpr (by omega)

theorem encodeFreeSpace_mono (hk : 8 ≤ k) (hab : a ≤ b) (hb : b ≤ 2 ^ k) :
    (encodeFreeSpace k a).toNat ≤ (encodeFreeSpace k b).toNat := by
  rw [encodeFreeSpace_toNat hk (hab.trans hb), encodeFreeSpace_toNat hk hb]
  split_ifs with ha hb'
  · exact Nat.div_le_div_right (Nat.log_mono_right (Nat.pow_le_pow_left hab 8))
  · exact (log_div_le_seven (show 0 < k by omega) ha).trans (seven_le_linear hk (not_lt.mp hb'))
  · omega
  · exact Nat.div_le_div_right hab

theorem encodeFreeSpace_lt_sixteen (hk : 8 ≤ k) (ha : a ≤ 2 ^ k) : (encodeFreeSpace k a).toNat < 16 := by
  rw [encodeFreeSpace_toNat hk ha]
  split_ifs with h
  · exact (log_div_le_seven (show 0 < k by omega) h).trans_lt (by norm_num)
  · exact linear_lt_sixteen hk ha

/-- A free space below half a page whose 8th power reaches `2 ^ (e · k)` has category `e` at
least. -/
theorem le_encodeFreeSpace {e : Nat} (hk : 8 ≤ k) (ha : a < 2 ^ k / 2) (h : 2 ^ (e * k) ≤ a ^ 8) :
    e ≤ (encodeFreeSpace k a).toNat := by
  rw [encodeFreeSpace_toNat hk (ha.le.trans (Nat.div_le_self _ _)), if_pos ha]
  exact (Nat.le_div_iff_mul_le (by omega)).mpr (Nat.le_log_of_pow_le (by norm_num) h)

/-- From category `8` on, `decode_free_space` stays within a page, in the linear part, and
encodes back to its category. -/
theorem encodeFreeSpace_decode_linear {e : Nat} (hk : 8 ≤ k) (he : 8 ≤ e) (he16 : e < 16) :
    decodeFreeSpace k e ≤ 2 ^ k ∧ (encodeFreeSpace k (decodeFreeSpace k e)).toNat = e := by
  obtain ⟨hL, h16⟩ := pow_eq_linearFactor hk
  have hpos : 0 < linearFactor k := Nat.succ_pos _
  have h15 : e * linearFactor k ≤ 15 * linearFactor k := Nat.mul_le_mul_right _ (by omega)
  have h8 : 8 * linearFactor k ≤ e * linearFactor k := Nat.mul_le_mul_right _ he
  have hdec : decodeFreeSpace k e = e * linearFactor k := if_neg (show ¬ e < 8 by omega)
  have hle : decodeFreeSpace k e ≤ 2 ^ k := by rw [hdec, hL]; omega
  have hhalf : ¬ e * linearFactor k < 2 ^ k / 2 := by rw [hL]; omega
  refine ⟨hle, ?_⟩
  rw [encodeFreeSpace_toNat hk hle, hdec, if_neg hhalf, Nat.mul_div_cancel _ hpos]

end exact

/-- The FSI of segment `segmentId` over pages of `2 ^ k` bytes, with the exact rendering of
`encode_free_space` and `invalidPid` the largest 64-bit value. -/
def exactConfig (segmentId k : Nat) : FsiConfig :=
  ⟨segmentId, 2 ^ k, Nat.two_pow_pos k, 2 ^ 64 - 1, by decide, encodeFreeSpace k⟩

-- ============================================================ what holds

end FsiSegment

end SimpleDb
