import SimpleDb.Segment.SpResize

/-!
The record segment as its users have it: a store of records by `TID`.

# The two levels

`Store` is the abstract one, a map from `TID`s to the bytes of a record, and `Call.Spec`
says what each of the segment's methods does to it and answers: `allocate` adds a record of
the asked size at a `TID` that held none, `read` answers the record's first bytes, `write`
overwrites them, `resize` changes the record's length and keeps its first bytes, and `erase`
removes it. `Call.Pre` is what a user knows before the call: the record is there, and a size
fits an empty page.

The segment is the concrete one, seen through `records`. A `Run` is a sequence of valid calls
that each return.

# Results

- `Run.refines`: every run, from a segment between two methods whose redirects are in order,
  is a run of the store with the same calls and answers, from and to the segment's records;
  the invariant and the redirects hold at its end.
- `Run.progress`: in every state a run reaches, a valid call never fails an `assert`: it
  returns, as `Call.Spec` says, or it is a `resize` that throws (`deadlock`) on a page it
  holds itself exclusively.
- `allocate_write_read`: a record allocated at the length of some bytes and written with them
  reads back as those bytes, and no other record changes.
-/

namespace SimpleDb

namespace SpSegment

/-- The store of records: the bytes of the record at each `TID`. -/
abbrev Store := Tid → Option (List UInt8)

/-- A user's call of one of the segment's methods: `allocate` of a record that is no redirect
target, the users' own; `tmp` is the buffer `compactify` works in. -/
inductive Call
  | allocate (size : Nat) (tmp : SlottedPage)
  | read (tid : Tid) (capacity : Nat)
  | write (tid : Tid) (record : List UInt8)
  | resize (tid : Tid) (newLength : Nat) (tmp : SlottedPage)
  | erase (tid : Tid)

/-- What a method returns. -/
inductive Reply
  | tid (tid : Tid)
  | bytes (bytes : List UInt8)
  | size (size : Nat)
  | done
  deriving DecidableEq

variable (c : SpConfig)

/-- The method a call runs, and its answer. -/
def Call.run : Call → SpM Reply
  | .allocate size tmp => return .tid (← SpSegment.allocate c size false tmp)
  | .read tid capacity => return .bytes (← SpSegment.read tid capacity)
  | .write tid record => return .size (← SpSegment.write tid record)
  | .resize tid newLength tmp => do SpSegment.resize c tid newLength tmp; return .done
  | .erase tid => do SpSegment.erase c tid; return .done

/-- What the user knows before the call: the record is there; a record's size, with a slot,
fits an empty page; a new length differs from the record's and from `0`. -/
def Call.Pre : Call → Store → Prop
  | .allocate size _, _ => size + c.layout.slotSize + c.layout.headerSize ≤ c.fsi.pageSize
  | .read tid _, m => m tid ≠ none
  | .write tid _, m => m tid ≠ none
  | .resize tid newLength _, m => ∃ old, m tid = some old ∧ newLength ≠ old.length ∧
      newLength ≠ 0 ∧ newLength + c.layout.slotSize + c.layout.headerSize ≤ c.fsi.pageSize
  | .erase tid, m => m tid ≠ none

/-- What a call does to the store, and what it answers. -/
def Call.Spec : Call → Store → Reply → Store → Prop
  | .allocate size _, m, r, m' => ∃ tid bytes, r = .tid tid ∧ m tid = none ∧
      bytes.length = size ∧ m' = Function.update m tid (some bytes)
  | .read tid capacity, m, r, m' => ∃ old, m tid = some old ∧ r = .bytes (old.take capacity) ∧
      m' = m
  | .write tid record, m, r, m' => ∃ old, m tid = some old ∧
      r = .size (min record.length old.length) ∧ m' = Function.update m tid (some (overwrite old record))
  | .resize tid newLength _, m, r, m' => ∃ old bytes, m tid = some old ∧ r = .done ∧
      bytes.length = newLength ∧ bytes.take old.length = old.take newLength ∧
      m' = Function.update m tid (some bytes)
  | .erase tid, m, r, m' => m tid ≠ none ∧ r = .done ∧ m' = Function.update m tid none

/-- Runs of the store: calls in order, each with its answer, as `Call.Spec` allows. -/
inductive StoreRun : Store → List (Call × Reply) → Store → Prop
  | nil (m : Store) : StoreRun m [] m
  | snoc {m m₁ m₂ : Store} {tr : List (Call × Reply)} {call : Call} {r : Reply} :
      StoreRun m tr m₁ → call.Spec m₁ r m₂ → StoreRun m (tr ++ [(call, r)]) m₂

/-- Runs of the segment: valid calls in order, each returning, while a page id is left for a
new page. -/
inductive Run : SpSegment → List (Call × Reply) → SpSegment → Prop
  | nil (s : SpSegment) : Run s [] s
  | snoc {s s₁ s₂ : SpSegment} {tr : List (Call × Reply)} {call : Call} {r : Reply} :
      Run s tr s₁ → call.Pre c (records s₁) → s₁.fsi.allocatedPages < 2 ^ 48 →
      call.run c s₁ = .ok r s₂ → Run s (tr ++ [(call, r)]) s₂

-- ============================================================ one call

section call

variable {c} {s : SpSegment}

/-- `allocate` of a record that is no redirect target, on the records. -/
theorem allocate_records (he : Encoding c) (hi : Inv c s) (hr : Redirects s) {size : Nat}
    (hfit : size + c.layout.slotSize + c.layout.headerSize ≤ c.fsi.pageSize)
    (hb : s.fsi.allocatedPages < 2 ^ 48) (tmp : SlottedPage) :
    ∃ tid s', allocate c size false tmp s = .ok tid s' ∧ Inv c s' ∧ Redirects s' ∧
      records s tid = none ∧ ∃ bytes : List UInt8, bytes.length = size ∧
        records s' = Function.update (records s) tid (some bytes) := by
  rcases allocate_cases c he hi.toConsistent (fun t _ => hi.unlatched t) hfit hb false tmp with
    ⟨p, -, -, hp⟩ | ⟨tid, s', hrun, hc', hlat, -, -, -, hfresh, bytes, hlen, hent⟩
  · exact absurd (hi.unlatched p) hp
  · exact ⟨tid, s', hrun, ⟨hc', fun t => by rw [hlat]; exact hi.unlatched t⟩,
      hr.add_record hfresh hent, by simp only [records, hfresh], bytes, hlen,
      records_set_record (.inl hfresh) hent⟩

/-- A valid call on a segment between two methods, with its redirects in order: it returns as
`Call.Spec` says, keeping the invariant and the redirects, or it is a `resize` that throws
(`deadlock`) on a page it holds exclusively. -/
theorem Call.run_cases (he : Encoding c) (hi : Inv c s) (hr : Redirects s) {call : Call}
    (hpre : call.Pre c (records s)) (hb : s.fsi.allocatedPages < 2 ^ 48) :
    (∃ p s', call.run c s = .error (.deadlock p) s' ∧ ∃ tid newLength tmp,
      call = .resize tid newLength tmp ∧
      (p = tid.pageId ∨ ∃ r, entries s tid = some (.redirect r) ∧ p = r.pageId)) ∨
    ∃ r s', call.run c s = .ok r s' ∧ Inv c s' ∧ Redirects s' ∧
      call.Spec (records s) r (records s') := by
  cases call with
  | allocate size tmp =>
    obtain ⟨tid, s', hrun, hi', hr', hfresh, bytes, hlen, hrec⟩ := allocate_records he hi hr hpre hb tmp
    exact .inr ⟨_, s', run_bind_ok hrun, hi', hr', tid, bytes, rfl, hfresh, hlen, hrec⟩
  | read tid capacity =>
    obtain ⟨old, hold⟩ := Option.ne_none_iff_exists'.mp hpre
    exact .inr ⟨_, s, run_bind_ok (read_spec hi hold capacity), hi, hr, old, hold, rfl, rfl⟩
  | write tid record =>
    obtain ⟨old, hold⟩ := Option.ne_none_iff_exists'.mp hpre
    obtain ⟨s', hrun, hi', hr', hrec⟩ := write_spec hi hr hold record
    exact .inr ⟨_, s', run_bind_ok hrun, hi', hr', old, hold, rfl, hrec⟩
  | resize tid newLength tmp =>
    obtain ⟨old, hold, hne, h0, hfit⟩ := hpre
    rcases resize_spec he hi hr hold hne h0 hfit hb tmp with
      ⟨p, s', hrun, hp⟩ | ⟨s', hrun, hi', hr', bytes, hlen, htake, hrec⟩
    · exact .inl ⟨p, s', run_bind_error hrun, tid, newLength, tmp, rfl, hp⟩
    · exact .inr ⟨_, s', run_bind_ok hrun, hi', hr', old, bytes, hold, rfl, hlen, htake, hrec⟩
  | erase tid =>
    obtain ⟨old, hold⟩ := Option.ne_none_iff_exists'.mp hpre
    obtain ⟨s', hrun, hi', hr', hrec⟩ := erase_spec he hi hr hold
    exact .inr ⟨_, s', run_bind_ok hrun, hi', hr', hpre, rfl, hrec⟩

end call

-- ============================================================ runs of calls

section run

variable {c} {s s₁ : SpSegment} {tr : List (Call × Reply)}

/-- The invariant and the redirects hold along a run. -/
theorem Run.inv (he : Encoding c) (hi : Inv c s) (hr : Redirects s) (h : Run c s tr s₁) :
    Inv c s₁ ∧ Redirects s₁ := by
  induction h with
  | nil => exact ⟨hi, hr⟩
  | snoc _ hpre hb hrun ih =>
    rcases Call.run_cases he ih.1 ih.2 hpre hb with ⟨p, s', h', -⟩ | ⟨r', s', h', hi', hr', -⟩
    · rw [hrun] at h'; cases h'
    · rw [hrun] at h'; cases h'; exact ⟨hi', hr'⟩

/-- The segment refines the store: every run of valid calls, from a segment between two
methods whose redirects are in order, is a run of the store with the same calls and answers,
from and to the segment's records, and it ends with the invariant and the redirects kept. -/
theorem Run.refines (he : Encoding c) (hi : Inv c s) (hr : Redirects s) (h : Run c s tr s₁) :
    Inv c s₁ ∧ Redirects s₁ ∧ StoreRun (records s) tr (records s₁) := by
  induction h with
  | nil => exact ⟨hi, hr, .nil _⟩
  | snoc _ hpre hb hrun ih =>
    obtain ⟨hi₁, hr₁, hst⟩ := ih
    rcases Call.run_cases he hi₁ hr₁ hpre hb with ⟨p, s', h', -⟩ | ⟨r', s', h', hi', hr', hspec⟩
    · rw [hrun] at h'; cases h'
    · rw [hrun] at h'; cases h'; exact ⟨hi', hr', hst.snoc hspec⟩

/-- A run of one `write` through the redirect of the segment of three pages. -/
theorem Run.refines_demo :
    Encoding demoConfig ∧ Inv demoConfig demoSegment ∧ Redirects demoSegment ∧
      ∃ tr s, tr ≠ [] ∧ Run demoConfig demoSegment tr s ∧
        (Inv demoConfig s ∧ Redirects s ∧ StoreRun (records demoSegment) tr (records s)) := by
  have h : records demoSegment ⟨1, 0⟩ = some (bytesAt demoPage2.data 324 700) := rfl
  obtain ⟨s', hrun, -⟩ := write_spec demoSegment_inv demoSegment_redirects h [1, 2, 3]
  have hrun' : Run demoConfig demoSegment ([] ++ [(Call.write ⟨1, 0⟩ [1, 2, 3], _)]) s' :=
    .snoc (.nil demoSegment) (show records demoSegment ⟨1, 0⟩ ≠ none by rw [h]; exact Option.some_ne_none _)
      (by decide) (run_bind_ok hrun)
  exact ⟨demoConfig_encoding, demoSegment_inv, demoSegment_redirects, _, s', by simp, hrun',
    Run.refines demoConfig_encoding demoSegment_inv demoSegment_redirects hrun'⟩

/-- In every state a run reaches, a valid call never fails an `assert`: it returns, as
`Call.Spec` says, or it is a `resize` that throws (`deadlock`) on the record's page or its
target's, the pages it holds exclusively while `allocate` looks for a new target. -/
theorem Run.progress (he : Encoding c) (hi : Inv c s) (hr : Redirects s) (h : Run c s tr s₁)
    {call : Call} (hpre : call.Pre c (records s₁)) (hb : s₁.fsi.allocatedPages < 2 ^ 48) :
    (∃ r s₂, call.run c s₁ = .ok r s₂ ∧ call.Spec (records s₁) r (records s₂)) ∨
    (∃ p s₂, call.run c s₁ = .error (.deadlock p) s₂ ∧ ∃ tid newLength tmp,
      call = .resize tid newLength tmp ∧
      (p = tid.pageId ∨ ∃ r, entries s₁ tid = some (.redirect r) ∧ p = r.pageId)) := by
  obtain ⟨hi₁, hr₁⟩ := h.inv he hi hr
  rcases Call.run_cases he hi₁ hr₁ hpre hb with hblk | ⟨r, s₂, hrun, -, -, hspec⟩
  · exact .inr hblk
  · exact .inl ⟨r, s₂, hrun, hspec⟩

/-- The record behind the redirect of the segment of three pages grown to 800 bytes, which
its target's page cannot hold: `find(808)` names page 1, the page of the redirect, which the
`resize` holds, and its fix throws. -/
theorem Run.progress_demo :
    Encoding demoConfig ∧ Inv demoConfig demoSegment ∧ Redirects demoSegment ∧
      Run demoConfig demoSegment [] demoSegment ∧
      (Call.resize ⟨1, 0⟩ 800 demoPage0).Pre demoConfig (records demoSegment) ∧
      demoSegment.fsi.allocatedPages < 2 ^ 48 ∧
      ((∃ r s₂, (Call.resize ⟨1, 0⟩ 800 demoPage0).run demoConfig demoSegment = .ok r s₂ ∧
          (Call.resize ⟨1, 0⟩ 800 demoPage0).Spec (records demoSegment) r (records s₂)) ∨
        (∃ p s₂, (Call.resize ⟨1, 0⟩ 800 demoPage0).run demoConfig demoSegment =
            .error (.deadlock p) s₂ ∧ ∃ tid newLength tmp,
          Call.resize ⟨1, 0⟩ 800 demoPage0 = .resize tid newLength tmp ∧
          (p = tid.pageId ∨ ∃ r, entries demoSegment tid = some (.redirect r) ∧ p = r.pageId))) :=
  have hpre : (Call.resize ⟨1, 0⟩ 800 demoPage0).Pre demoConfig (records demoSegment) :=
    ⟨_, rfl, by rw [length_bytesAt]; decide, by decide, by decide⟩
  ⟨demoConfig_encoding, demoSegment_inv, demoSegment_redirects, .nil _, hpre, by decide,
    Run.progress demoConfig_encoding demoSegment_inv demoSegment_redirects (.nil _) hpre (by decide)⟩

end run

-- ============================================================ a record's round trip

section roundTrip

variable {c} {s : SpSegment}

/-- `allocate(n)`, `write` of `n` bytes, then `read`: the bytes come back, as many as the buffer
holds, and the other records are as they were. -/
theorem allocate_write_read (he : Encoding c) (hi : Inv c s) (hr : Redirects s)
    {record : List UInt8} (hfit : record.length + c.layout.slotSize + c.layout.headerSize ≤ c.fsi.pageSize)
    (hb : s.fsi.allocatedPages < 2 ^ 48) (tmp : SlottedPage) (capacity : Nat) :
    ∃ tid s₁ s₂, SpSegment.allocate c record.length false tmp s = .ok tid s₁ ∧
      SpSegment.write tid record s₁ = .ok record.length s₂ ∧
      SpSegment.read tid capacity s₂ = .ok (record.take capacity) s₂ ∧
      Inv c s₂ ∧ Redirects s₂ ∧ ∀ t, t ≠ tid → records s₂ t = records s t := by
  obtain ⟨tid, s₁, hrun, hi₁, hr₁, -, bytes, hlen, hrec₁⟩ := allocate_records he hi hr hfit hb tmp
  have h₁ : records s₁ tid = some bytes := by rw [hrec₁, Function.update_same]
  obtain ⟨s₂, hw, hi₂, hr₂, hrec₂⟩ := write_spec hi₁ hr₁ h₁ record
  have hover : overwrite bytes record = record := by
    rw [overwrite, hlen, List.take_length, ← hlen, List.drop_length, List.append_nil]
  have h₂ : records s₂ tid = some record := by rw [hrec₂, Function.update_same, hover]
  refine ⟨tid, s₁, s₂, hrun, by rw [hw, hlen, Nat.min_self], read_spec hi₂ h₂ capacity, hi₂, hr₂,
    fun t ht => ?_⟩
  rw [hrec₂, Function.update_noteq ht, hrec₁, Function.update_noteq ht]

/-- Three bytes through the segment of three pages. -/
theorem allocate_write_read_demo :
    Encoding demoConfig ∧ Inv demoConfig demoSegment ∧ Redirects demoSegment ∧
      [(1 : UInt8), 2, 3].length + demoConfig.layout.slotSize + demoConfig.layout.headerSize ≤
        demoConfig.fsi.pageSize ∧ demoSegment.fsi.allocatedPages < 2 ^ 48 ∧
      ∃ tid s₁ s₂, SpSegment.allocate demoConfig [(1 : UInt8), 2, 3].length false demoPage0 demoSegment =
          .ok tid s₁ ∧ SpSegment.write tid [1, 2, 3] s₁ = .ok [(1 : UInt8), 2, 3].length s₂ ∧
        SpSegment.read tid 3 s₂ = .ok ([(1 : UInt8), 2, 3].take 3) s₂ ∧
        Inv demoConfig s₂ ∧ Redirects s₂ ∧ ∀ t, t ≠ tid → records s₂ t = records demoSegment t :=
  ⟨demoConfig_encoding, demoSegment_inv, demoSegment_redirects, by decide, by decide,
    allocate_write_read demoConfig_encoding demoSegment_inv demoSegment_redirects (by decide)
      (by decide) demoPage0 3⟩

end roundTrip

end SpSegment

end SimpleDb
